import Mathlib.Algebra.Group.Nat.Defs
import Implicits.Proofs.Text.Bytes
import Implicits.Text.Quoted

/-!
Every byte string is read back from its literal. The body of a literal is a sequence of pieces, a
printable character or an escape each; a piece is read as the bytes it was written for, whatever
follows it.
-/
namespace Implicits

namespace Quoted

open Bytes (char)

section Digits

theorem hexDigit?_hexDigit : ∀ d < 16, hexDigit? (hexDigit d) = some d := by decide

variable {digit? : UInt8 → Option Nat} {base : Nat}

/-- Digits are read one part after the other. -/
theorem digits?_add (m n value : Nat) (s : Bytes) :
    digits? digit? base (m + n) value s =
      (digits? digit? base m value s).bind fun r => digits? digit? base n r.1 r.2 := by
  induction m generalizing value s with
  | zero =>
    rw [Nat.zero_add]
    rfl
  | succ m ih =>
    rw [Nat.succ_add]
    cases s with
    | nil => rfl
    | cons b s =>
      rw [digits?, digits?, Option.bind_assoc]
      exact congrArg _ (funext fun d => ih _ s)

/-- Hexadecimal digits are read as the number they show. -/
theorem digits?_hex (width n value : Nat) (rest : Bytes) :
    digits? hexDigit? 16 width value (hex width n ++ rest) =
      some (value * 16 ^ width + n % 16 ^ width, rest) := by
  induction width generalizing n rest with
  | zero =>
    rw [Nat.pow_zero, Nat.mul_one, Nat.mod_one]
    rfl
  | succ width ih =>
    have hdigit := hexDigit?_hexDigit (n % 16) (Nat.mod_lt n (by decide))
    have hvalue : (value * 16 ^ width + n / 16 % 16 ^ width) * 16 + n % 16 =
        value * 16 ^ (width + 1) + n % 16 ^ (width + 1) := by
      rw [Nat.pow_succ, Nat.mul_comm (16 ^ width) 16, Nat.mod_mul, Nat.add_mul]
      ac_rfl
    rw [hex, List.append_assoc, digits?_add, ih, Option.bind_some]
    simp only [List.cons_append, List.nil_append, digits?, hdigit, Option.bind_some, hvalue]

end Digits

/-- A piece of a literal that stands for some bytes, whatever follows it. It does not begin like the
end of the literal. -/
structure Reads (piece out : Bytes) : Prop where
  begins : ∃ b s, piece = b :: s ∧ b ≠ char '"'
  reads : ∀ rest, readChar? (char '"') (piece ++ rest) = some (out, rest)

namespace Reads

theorem of_escape {tail out : Bytes}
    (h : ∀ rest, escape? (char '"') (tail ++ rest) = some (out, rest)) :
    Reads (char '\\' :: tail) out where
  begins := ⟨_, _, rfl, by decide⟩
  reads rest := by
    rw [List.cons_append, readChar?, if_neg (by decide), if_pos rfl, h]

theorem letter : ∀ entry ∈ letterEscapes, Reads [char '\\', entry.1] [entry.2] := by
  intro entry hentry
  have hall : letterEscapes.all (fun e => letterEscapes.lookup e.1 == some e.2) = true := by decide
  have hlookup := eq_of_beq (List.all_eq_true.mp hall entry hentry)
  refine of_escape fun rest => ?_
  rw [List.cons_append, escape?, hlookup]
  rfl

theorem hexByte {n : Nat} (hn : n < 256) : Reads (escape 'x' (hex 2 n)) [n.toUInt8] := by
  refine of_escape fun rest => ?_
  have hvalue : 0 * 16 ^ 2 + n % 16 ^ 2 = n := by omega
  rw [List.cons_append, escape?, show letterEscapes.lookup (char 'x') = none by decide]
  simp only [digits?_hex, hvalue, Option.map_some]
  rw [if_neg (by decide), if_pos trivial]

/-- A code point that is written by its digits. -/
theorem codePoint {n width : Nat} (hn : Bytes.isScalar n = true) (hwidth : n < 16 ^ width)
    (rest : Bytes) :
    codePoint? width (hex width n ++ rest) = some (Bytes.encode n, rest) := by
  rw [codePoint?, digits?_hex, Nat.zero_mul, Nat.zero_add, Nat.mod_eq_of_lt hwidth]
  simp only [Option.bind_eq_bind, Option.bind_some, hn, if_true]

theorem shortCode {n : Nat} (hn : Bytes.isScalar n = true) (hlt : n < 0x10000) :
    Reads (escape 'u' (hex 4 n)) (Bytes.encode n) := by
  refine of_escape fun rest => ?_
  rw [List.cons_append, escape?, show letterEscapes.lookup (char 'u') = none by decide]
  simp only [codePoint hn (show n < 16 ^ 4 from hlt)]
  rw [if_neg (by decide), if_neg (by decide), if_pos trivial]

theorem longCode {n : Nat} (hn : Bytes.isScalar n = true) :
    Reads (escape 'U' (hex 8 n)) (Bytes.encode n) := by
  have hlt := Bytes.lt_of_isScalar hn
  refine of_escape fun rest => ?_
  rw [List.cons_append, escape?, show letterEscapes.lookup (char 'U') = none by decide]
  simp only [codePoint hn (show n < 16 ^ 8 by omega)]
  rw [if_neg (by decide), if_neg (by decide), if_neg (by decide), if_pos trivial]

/-- A quote or a backslash behind a backslash. -/
theorem mark {n : Nat} (hn : n = 0x22 ∨ n = 0x5C) :
    Reads (char '\\' :: Bytes.encode n) (Bytes.encode n) := by
  refine of_escape fun rest => ?_
  rcases hn with rfl | rfl <;> rfl

end Reads

/-- The first byte of an encoding is the code point itself or lies beyond ASCII. -/
theorem encode_head (n : Nat) : ∃ b s, Bytes.encode n = b :: s ∧
    (n < 0x80 → b = n.toUInt8) ∧ (0x80 ≤ n → n < 0x110000 → 0xC0 ≤ b.toNat) := by
  unfold Bytes.encode
  split
  · next h => exact ⟨_, _, rfl, fun _ => rfl, fun h' => absurd h (Nat.not_lt_of_le h')⟩
  split
  · next h _ =>
    refine ⟨_, _, rfl, fun h' => absurd h' h, fun _ _ => ?_⟩
    rw [Bytes.toNat_toUInt8 (by omega)]
    omega
  split
  · next h _ _ =>
    refine ⟨_, _, rfl, fun h' => absurd h' h, fun _ _ => ?_⟩
    rw [Bytes.toNat_toUInt8 (by omega)]
    omega
  · next h _ _ =>
    refine ⟨_, _, rfl, fun h' => absurd h' h, fun _ _ => ?_⟩
    rw [Bytes.toNat_toUInt8 (by omega)]
    omega

theorem Reads.printable {n : Nat} (hn : Bytes.isScalar n = true) (hprint : isPrintable n = true)
    (hquote : n ≠ 0x22) (hslash : n ≠ 0x5C) : Reads (Bytes.encode n) (Bytes.encode n) := by
  obtain ⟨b, s, hencode, hascii, hbeyond⟩ := encode_head n
  have hne : ∀ c : UInt8, c = char '"' ∨ c = char '\n' ∨ c = char '\\' → b ≠ c := by
    intro c hc hb
    have hvalue : c.toNat = 0x22 ∨ c.toNat = 0x0A ∨ c.toNat = 0x5C := by
      rcases hc with rfl | rfl | rfl <;> decide
    subst hb
    by_cases hlt : n < 0x80
    · have htoNat := Bytes.toNat_toUInt8 (n := n) (by omega)
      rw [hascii hlt, htoNat] at hvalue
      rw [isPrintable, if_pos hlt, Bool.and_eq_true, decide_eq_true_iff] at hprint
      omega
    · have hlead := hbeyond (Nat.le_of_not_lt hlt) (Bytes.lt_of_isScalar hn)
      omega
  refine ⟨⟨b, s, hencode, hne _ (.inl rfl)⟩, fun rest => ?_⟩
  have hdecode := Bytes.decode?_encode hn rest
  rw [hencode, List.cons_append] at hdecode ⊢
  rw [readChar?, if_neg (hne _ (.inr (.inl rfl))), if_neg (hne _ (.inr (.inr rfl))),
    hdecode, ← hencode]

/-- Every code point is read back from its text. -/
theorem reads_writeCode {n : Nat} (hn : Bytes.isScalar n = true) :
    Reads (writeCode n) (Bytes.encode n) := by
  have hascii : n < 0x80 → Bytes.encode n = [n.toUInt8] := fun h => by rw [Bytes.encode, if_pos h]
  unfold writeCode
  split
  · next h => exact .mark h
  split
  · next hmark hprint =>
      exact .printable hn hprint (fun h => hmark (.inl h)) fun h => hmark (.inr h)
  split
  · next letter b hfind =>
    have hmem := List.mem_of_find?_eq_some hfind
    have hcode : b.toNat = n := by simpa using List.find?_some hfind
    have hsmall : letterEscapes.all (fun e => e.2.toNat < 0x80) = true := by decide
    have hlt : b.toNat < 0x80 := of_decide_eq_true (List.all_eq_true.mp hsmall _ hmem)
    rw [hascii (hcode ▸ hlt), ← hcode, Bytes.toUInt8_toNat]
    exact .letter _ hmem
  split
  · next h =>
    rw [hascii (by omega)]
    exact .hexByte (by omega)
  split
  · next h => exact .shortCode hn h
  · exact .longCode hn

/-- A body made of pieces is read to its end. -/
theorem readBodyN_append {piece out body s : Bytes} {n : Nat} (hpiece : Reads piece out)
    (hbody : readBodyN n body = some s) : readBodyN (n + 1) (piece ++ body) = some (out ++ s) := by
  obtain ⟨b, tail, rfl, hb⟩ := hpiece.begins
  have hread := hpiece.reads body
  rw [List.cons_append] at hread ⊢
  rw [readBodyN, if_neg hb, hread]
  simp only [Option.bind_eq_bind, Option.bind_some, hbody]

/-- More room than a body needs changes nothing. -/
theorem readBodyN_mono {n : Nat} {body s : Bytes} (h : readBodyN n body = some s) :
    readBodyN (n + 1) body = some s := by
  induction n generalizing body s with
  | zero => simp [readBodyN] at h
  | succ n ih =>
    cases body with
    | nil => simp [readBodyN] at h
    | cons b rest =>
      rw [readBodyN] at h ⊢
      split at h
      · next hb => rw [if_pos hb, h]
      · next hb =>
        rw [if_neg hb]
        simp only [Option.bind_eq_bind, Option.bind_eq_some_iff] at h ⊢
        obtain ⟨r, hr, more, hmore, heq⟩ := h
        exact ⟨r, hr, more, ih hmore, heq⟩

theorem readBodyN_of_le {n m : Nat} (hnm : n ≤ m) {body s : Bytes} (h : readBodyN n body = some s) :
    readBodyN m body = some s := by
  induction hnm with
  | refl => exact h
  | step _ ih => exact readBodyN_mono ih

/-- The body that is written for a byte string is read as the byte string, piece by piece. -/
theorem readBodyN_writeN {n : Nat} {s : Bytes} (hs : s.length ≤ n) :
    readBodyN (writeN n s ++ [char '"']).length (writeN n s ++ [char '"']) = some s := by
  -- Each piece is at least one byte long, so that the length leaves room for one more step.
  have hstep : ∀ {piece out rest : Bytes} {m : Nat}, Reads piece out →
      readBodyN (writeN m rest ++ [char '"']).length (writeN m rest ++ [char '"']) = some rest →
      readBodyN (piece ++ writeN m rest ++ [char '"']).length
        (piece ++ writeN m rest ++ [char '"']) =
        some (out ++ rest) := by
    intro piece out rest m hpiece hrest
    obtain ⟨b, tail, heq, -⟩ := hpiece.begins
    rw [List.append_assoc]
    refine readBodyN_of_le ?_ (readBodyN_append hpiece hrest)
    simp only [List.length_append, heq, List.length_cons]
    omega
  induction n generalizing s with
  | zero =>
    rw [List.eq_nil_of_length_eq_zero (Nat.le_zero.mp hs)]
    rfl
  | succ n ih =>
    cases s with
    | nil => rfl
    | cons b s =>
      rw [List.length_cons] at hs
      rw [writeN]
      cases hdecode : Bytes.decode? (b :: s) with
      | none =>
        have hbyte := hstep (.hexByte b.toNat_lt) (ih (s := s) (by omega))
        rwa [Bytes.toUInt8_toNat] at hbyte
      | some r =>
        obtain ⟨code, rest⟩ := r
        obtain ⟨hscalar, heq⟩ := Bytes.eq_encode_of_decode? hdecode
        obtain ⟨c, tail, hencode, -⟩ := encode_head code
        have hlength := congrArg List.length heq
        rw [hencode, List.length_append, List.length_cons, List.length_cons] at hlength
        rw [heq]
        exact hstep (reads_writeCode hscalar) (ih (by omega))

/-- Every byte string is read back from its literal. -/
theorem read?_write (s : Bytes) : read? (write s) = some s := by
  rw [write, read?, if_pos rfl]
  exact readBodyN_writeN (Nat.le_refl _)

end Quoted

end Implicits
