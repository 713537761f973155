import Implicits.Text.Bytes

/-!
UTF-8 is a code: every code point has one encoding, and what is read off the front of a byte string
is the code point whose encoding stands there.
-/
namespace Implicits

namespace Bytes

theorem toNat_toUInt8 {n : Nat} (hn : n < 256) : n.toUInt8.toNat = n := by
  rw [Nat.toUInt8, UInt8.toNat_ofNat']
  exact Nat.mod_eq_of_lt hn

theorem toUInt8_toNat (b : UInt8) : b.toNat.toUInt8 = b := UInt8.ofNat_toNat

/-- A byte is the one that its number names. -/
theorem eq_toUInt8_of_toNat {b : UInt8} {n : Nat} (hb : b.toNat = n) : b = n.toUInt8 := by
  rw [← hb, toUInt8_toNat]

theorem continuation?_toUInt8 {x : Nat} (hx : x < 64) :
    continuation? (0x80 + x).toUInt8 = some x := by
  have hbyte := toNat_toUInt8 (n := 0x80 + x) (by omega)
  have hrange : 0x80 ≤ (0x80 + x).toUInt8 ∧ (0x80 + x).toUInt8 < 0xC0 := by
    rw [UInt8.le_iff_toNat_le, UInt8.lt_iff_toNat_lt, hbyte]
    simp only [UInt8.reduceToNat]
    omega
  rw [continuation?, if_pos hrange, hbyte]
  simp

theorem eq_of_continuation? {b : UInt8} {x : Nat} (h : continuation? b = some x) :
    x < 64 ∧ b = (0x80 + x).toUInt8 := by
  unfold continuation? at h
  split at h
  · next hrange =>
    rw [UInt8.le_iff_toNat_le, UInt8.lt_iff_toNat_lt] at hrange
    simp only [UInt8.reduceToNat] at hrange
    have hx := Option.some.inj h
    exact ⟨by omega, eq_toUInt8_of_toNat (by omega)⟩
  · simp at h

theorem scalarFrom?_eq_some {least code n : Nat} {s rest : Bytes} :
    scalarFrom? least code s = some (n, rest) ↔
      least ≤ code ∧ isScalar code = true ∧ code = n ∧ s = rest := by
  unfold scalarFrom?
  split
  · next h =>
    rw [Bool.and_eq_true, decide_eq_true_iff] at h
    simp [h]
  · next h =>
    rw [Bool.and_eq_true, decide_eq_true_iff, not_and] at h
    exact iff_of_false (by simp) fun ⟨hleast, hscalar, _⟩ => h hleast hscalar

theorem lt_of_isScalar {n : Nat} (hn : isScalar n = true) : n < 0x110000 := by
  simp only [isScalar, Bool.or_eq_true, Bool.and_eq_true, decide_eq_true_eq] at hn
  omega

/-- The comparison of a leading byte with a literal. -/
theorem toUInt8_lt {n : Nat} (hn : n < 256) (b : UInt8) : n.toUInt8 < b ↔ n < b.toNat := by
  rw [UInt8.lt_iff_toNat_lt, toNat_toUInt8 hn]

section Decode

variable {p x y z : Nat} (hx : x < 64) (hy : y < 64) (hz : z < 64) (rest : Bytes)

-- The steps of the decoder are rewritten one by one: to execute them would unfold the bounds in
-- `scalarFrom?`, which are large numbers.

include hx in
theorem decode?_two (hp : p < 0x20) :
    decode? ((0xC0 + p).toUInt8 :: (0x80 + x).toUInt8 :: rest) =
      scalarFrom? 0x80 (p * 64 + x) rest := by
  simp only [decode?, toUInt8_lt (n := 0xC0 + p) (by omega), UInt8.reduceToNat,
    toNat_toUInt8 (n := 0xC0 + p) (by omega), continuation?_toUInt8 hx, Nat.add_sub_cancel_left]
  rw [if_neg (by omega), if_neg (by omega), if_pos (by omega), Option.bind_eq_bind,
    Option.bind_some]

include hx hy in
theorem decode?_three (hp : p < 0x10) :
    decode? ((0xE0 + p).toUInt8 :: (0x80 + x).toUInt8 :: (0x80 + y).toUInt8 :: rest) =
      scalarFrom? 0x800 (p * 4096 + x * 64 + y) rest := by
  simp only [decode?, toUInt8_lt (n := 0xE0 + p) (by omega), UInt8.reduceToNat,
    toNat_toUInt8 (n := 0xE0 + p) (by omega), continuation?_toUInt8 hx, continuation?_toUInt8 hy,
    Nat.add_sub_cancel_left]
  rw [if_neg (by omega), if_neg (by omega), if_neg (by omega), if_pos (by omega),
    Option.bind_eq_bind,
    Option.bind_some, Option.bind_some]

include hx hy hz in
theorem decode?_four (hp : p < 8) :
    decode? ((0xF0 + p).toUInt8 :: (0x80 + x).toUInt8 :: (0x80 + y).toUInt8 ::
      (0x80 + z).toUInt8 :: rest) =
      scalarFrom? 0x10000 (p * 262144 + x * 4096 + y * 64 + z) rest := by
  simp only [decode?, toUInt8_lt (n := 0xF0 + p) (by omega), UInt8.reduceToNat,
    toNat_toUInt8 (n := 0xF0 + p) (by omega), continuation?_toUInt8 hx, continuation?_toUInt8 hy,
    continuation?_toUInt8 hz, Nat.add_sub_cancel_left]
  rw [if_neg (by omega), if_neg (by omega), if_neg (by omega), if_neg (by omega), if_pos (by omega),
    Option.bind_eq_bind, Option.bind_some, Option.bind_some, Option.bind_some]

include hx in
theorem encode_two (hp : p < 0x20) (hleast : 0x80 ≤ p * 64 + x) :
    encode (p * 64 + x) = [(0xC0 + p).toUInt8, (0x80 + x).toUInt8] := by
  have hlead : (p * 64 + x) / 64 = p := by omega
  have hlast : (p * 64 + x) % 64 = x := by omega
  rw [encode, if_neg (by omega), if_pos (by omega), hlead, hlast]

include hx hy in
theorem encode_three (hp : p < 0x10) (hleast : 0x800 ≤ p * 4096 + x * 64 + y) :
    encode (p * 4096 + x * 64 + y) =
      [(0xE0 + p).toUInt8, (0x80 + x).toUInt8, (0x80 + y).toUInt8] := by
  have hlead : (p * 4096 + x * 64 + y) / 4096 = p := by omega
  have hnext : (p * 4096 + x * 64 + y) / 64 % 64 = x := by omega
  have hlast : (p * 4096 + x * 64 + y) % 64 = y := by omega
  rw [encode, if_neg (by omega), if_neg (by omega), if_pos (by omega), hlead, hnext, hlast]

include hx hy hz in
theorem encode_four (hleast : 0x10000 ≤ p * 262144 + x * 4096 + y * 64 + z) :
    encode (p * 262144 + x * 4096 + y * 64 + z) =
      [(0xF0 + p).toUInt8, (0x80 + x).toUInt8, (0x80 + y).toUInt8, (0x80 + z).toUInt8] := by
  have hlead : (p * 262144 + x * 4096 + y * 64 + z) / 262144 = p := by omega
  have hnext : (p * 262144 + x * 4096 + y * 64 + z) / 4096 % 64 = x := by omega
  have hthird : (p * 262144 + x * 4096 + y * 64 + z) / 64 % 64 = y := by omega
  have hlast : (p * 262144 + x * 4096 + y * 64 + z) % 64 = z := by omega
  rw [encode, if_neg (by omega), if_neg (by omega), if_neg (by omega), hlead, hnext, hthird, hlast]

end Decode

/-- A byte by its distance from a smaller one. -/
theorem eq_add_sub {b : UInt8} {n : Nat} (hb : n ≤ b.toNat) : b = (n + (b.toNat - n)).toUInt8 :=
  eq_toUInt8_of_toNat (by omega)

theorem scalarFrom?_self {least code n : Nat} (hn : isScalar n = true) (hcode : code = n)
    (hleast : least ≤ n) (rest : Bytes) : scalarFrom? least code rest = some (n, rest) :=
  scalarFrom?_eq_some.mpr ⟨hcode ▸ hleast, hcode ▸ hn, hcode, rfl⟩

theorem decode?_encode {n : Nat} (hn : isScalar n = true) (rest : Bytes) :
    decode? (encode n ++ rest) = some (n, rest) := by
  have hlt := lt_of_isScalar hn
  have hsix : ∀ m, m % 64 < 64 := fun m => Nat.mod_lt m (by decide)
  unfold encode
  split
  · next h =>
    have hlead : n.toUInt8 < 0x80 := (toUInt8_lt (by omega) _).mpr h
    simp only [List.cons_append, List.nil_append, decode?, if_pos hlead,
      toNat_toUInt8 (n := n) (by omega)]
  split
  · next hlow hhigh =>
    have hcode : n / 64 * 64 + n % 64 = n := by omega
    exact (decode?_two (hsix n) rest (by omega)).trans (scalarFrom?_self hn hcode (by omega) rest)
  split
  · next hlow hhigh =>
    have hcode : n / 4096 * 4096 + n / 64 % 64 * 64 + n % 64 = n := by omega
    exact (decode?_three (hsix _) (hsix n) rest (by omega)).trans
      (scalarFrom?_self hn hcode (by omega) rest)
  · next hlow =>
    have hcode : n / 262144 * 262144 + n / 4096 % 64 * 4096 + n / 64 % 64 * 64 + n % 64 = n := by
      omega
    exact (decode?_four (hsix _) (hsix _) (hsix n) rest (by omega)).trans
      (scalarFrom?_self hn hcode (by omega) rest)

/-- What is read off the front is the code point whose encoding stands there. -/
theorem eq_encode_of_decode? {s rest : Bytes} {n : Nat} (h : decode? s = some (n, rest)) :
    isScalar n = true ∧ s = encode n ++ rest := by
  cases s with
  | nil => simp [decode?] at h
  | cons a s =>
    have ha := a.toNat_lt
    simp only [decode?, UInt8.lt_iff_toNat_lt, UInt8.reduceToNat] at h
    split at h
    · next hlead =>
      obtain ⟨rfl, rfl⟩ := Prod.mk.inj (Option.some.inj h)
      refine ⟨by simp [isScalar]; omega, ?_⟩
      rw [encode, if_pos hlead, toUInt8_toNat]
      rfl
    split at h
    · simp at h
    split at h
    · next hlow hhigh =>
      match s with
      | [] => simp at h
      | b :: s =>
        simp only [Option.bind_eq_bind, Option.bind_eq_some_iff] at h
        obtain ⟨x, hx, h⟩ := h
        obtain ⟨hleast, hscalar, rfl, rfl⟩ := scalarFrom?_eq_some.mp h
        obtain ⟨hxlt, rfl⟩ := eq_of_continuation? hx
        refine ⟨hscalar, ?_⟩
        rw [encode_two hxlt (by omega) hleast, ← eq_add_sub (Nat.le_of_not_lt hlow)]
        rfl
    split at h
    · next hlow hhigh =>
      match s with
      | [] | [_] => simp at h
      | b :: c :: s =>
        simp only [Option.bind_eq_bind, Option.bind_eq_some_iff] at h
        obtain ⟨x, hx, y, hy, h⟩ := h
        obtain ⟨hleast, hscalar, rfl, rfl⟩ := scalarFrom?_eq_some.mp h
        obtain ⟨hxlt, rfl⟩ := eq_of_continuation? hx
        obtain ⟨hylt, rfl⟩ := eq_of_continuation? hy
        refine ⟨hscalar, ?_⟩
        rw [encode_three hxlt hylt (by omega) hleast, ← eq_add_sub (Nat.le_of_not_lt hlow)]
        rfl
    split at h
    · next hlow hhigh =>
      match s with
      | [] | [_] | [_, _] => simp at h
      | b :: c :: d :: s =>
        simp only [Option.bind_eq_bind, Option.bind_eq_some_iff] at h
        obtain ⟨x, hx, y, hy, z, hz, h⟩ := h
        obtain ⟨hleast, hscalar, rfl, rfl⟩ := scalarFrom?_eq_some.mp h
        obtain ⟨hxlt, rfl⟩ := eq_of_continuation? hx
        obtain ⟨hylt, rfl⟩ := eq_of_continuation? hy
        obtain ⟨hzlt, rfl⟩ := eq_of_continuation? hz
        refine ⟨hscalar, ?_⟩
        rw [encode_four hxlt hylt hzlt hleast, ← eq_add_sub (Nat.le_of_not_lt hlow)]
        rfl
    · simp at h

end Bytes

end Implicits
