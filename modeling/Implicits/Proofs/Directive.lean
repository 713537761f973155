import Implicits.Directive
import Implicits.Proofs.Text.Blank
import Implicits.Proofs.Text.Quoted

/-!
Directives and their text. The directives that have a line of text are those of a named kind whose
target can be told from the payload behind it. Each of them is read back from the text that is
printed for it, and every line that is read gives one of them.
-/
namespace Implicits

open Bytes (char)

namespace Directive

/-- A directive that a line can give: its kind has a name, and its target, if it has one, ends
before the first space and starts like no payload and like no white space. -/
structure Writable (d : Directive) : Prop where
  kind : ∀ code, d.kind ≠ .other code
  target : d.target = [] ∨ d.kind ≠ .dynamic ∧ char ' ' ∉ d.target ∧
    d.target.head? ≠ some (char '"') ∧ ¬ Bytes.StartsBlank d.target

section Cut

variable {s t : Bytes}

theorem cut_append (ht : char ' ' ∉ t) (s : Bytes) : cut (t ++ char ' ' :: s) = (t, s) := by
  have hall : ∀ b ∈ t, (b != char ' ') = true := by
    intro b hb
    rw [bne_iff_ne]
    rintro rfl
    exact ht hb
  have htake : (t ++ char ' ' :: s).takeWhile (· != char ' ') = t := by
    rw [List.takeWhile_append_of_pos hall, List.takeWhile_cons_of_neg (by simp), List.append_nil]
  have hdrop : (t ++ char ' ' :: s).dropWhile (· != char ' ') = char ' ' :: s := by
    rw [List.dropWhile_append_of_pos hall, List.dropWhile_cons_of_neg (by simp)]
  rw [cut, htake, hdrop]
  rfl

theorem not_mem_cut (s : Bytes) : char ' ' ∉ (cut s).1 := by
  intro hmem
  have hspace := List.all_eq_true.mp List.all_takeWhile _ hmem
  simp at hspace

theorem cut_isPrefix (s : Bytes) : (cut s).1 <+: s := List.takeWhile_prefix _

end Cut

/-- A literal starts and ends with a quote. -/
theorem trim_write (payload : Bytes) : (Quoted.write payload).trim = Quoted.write payload := by
  have hquote : Bytes.Solid (char '"') := by decide
  refine Bytes.trim_eq_self (hquote.not_startsBlank _) ?_
  rw [Quoted.write, ← List.cons_append]
  exact hquote.not_endsBlank _

theorem not_endsBlank_write (s payload : Bytes) :
    ¬ Bytes.EndsBlank (s ++ char ' ' :: Quoted.write payload) := by
  have hquote : Bytes.Solid (char '"') := by decide
  rw [Quoted.write, ← List.cons_append, ← List.cons_append, ← List.append_assoc]
  exact hquote.not_endsBlank _

section Kinds

variable {kind : DirectiveKind} (hkind : ∀ code, kind ≠ .other code)

include hkind

theorem ofName?_text : DirectiveKind.ofName? (Bytes.ascii kind.text) = some kind := by
  cases kind with
  | other code => exact absurd rfl (hkind code)
  | _ => decide

theorem space_not_mem_text : char ' ' ∉ Bytes.ascii kind.text := by
  cases kind with
  | other code => exact absurd rfl (hkind code)
  | _ => decide

end Kinds

theorem kind_of_ofName? {name : Bytes} {kind : DirectiveKind}
    (h : DirectiveKind.ofName? name = some kind) : ∀ code, kind ≠ .other code := by
  have hmem := List.mem_of_find?_eq_some h
  rintro code rfl
  simp at hmem

def tail (d : Directive) : Bytes :=
  if d.target.isEmpty then Quoted.write d.payload
  else d.target ++ char ' ' :: Quoted.write d.payload

theorem text_eq (d : Directive) :
    d.text = char '%' :: (Bytes.ascii d.kind.text ++ char ' ' :: d.tail) := by
  have hname : Bytes.ascii ("%" ++ d.kind.text) = char '%' :: Bytes.ascii d.kind.text := by
    rw [Bytes.ascii, String.toList_append]
    rfl
  rw [text, tail, hname]
  split
  · simp
  · simp

variable {d : Directive}

theorem trim_text (d : Directive) : d.text.trim = d.text := by
  have hpercent : Bytes.Solid (char '%') := by decide
  refine Bytes.trim_eq_self ?_ ?_
  · rw [text_eq]
    exact hpercent.not_startsBlank _
  · exact not_endsBlank_write _ _

/-- The target and the payload are told apart. -/
theorem Writable.splitTarget_tail (hd : d.Writable) :
    splitTarget d.kind d.tail.trim = (d.target, Quoted.write d.payload) := by
  by_cases hempty : d.target = []
  · rw [tail, if_pos (List.isEmpty_iff.mpr hempty), trim_write, splitTarget,
      if_pos (.inr rfl), hempty]
  · obtain ⟨hdynamic, hspace, hquote, hblank⟩ := hd.target.resolve_left hempty
    have htrim : d.tail.trim = d.target ++ char ' ' :: Quoted.write d.payload := by
      rw [tail, if_neg (by simpa using hempty)]
      exact Bytes.trim_eq_self (Bytes.not_startsBlank_append_space hempty hblank _)
        (not_endsBlank_write _ _)
    have hhead : (d.target ++ char ' ' :: Quoted.write d.payload).head? = d.target.head? := by
      obtain ⟨b, target, hcons⟩ := List.exists_cons_of_ne_nil hempty
      rw [hcons]
      rfl
    rw [htrim, splitTarget, hhead, if_neg (not_or.mpr ⟨hdynamic, hquote⟩), cut_append hspace]
    simp only [trim_write]

theorem Writable.parse_text (hd : d.Writable) : parse d.text = .ok d := by
  unfold parse
  rw [trim_text, text_eq]
  simp only [if_true, cut_append (space_not_mem_text hd.kind), ofName?_text hd.kind,
    hd.splitTarget_tail, Quoted.read?_write]

/-- The target of a line that has been trimmed. -/
theorem target_of_splitTarget {kind : DirectiveKind} {s : Bytes} (hs : ¬ Bytes.StartsBlank s) :
    (splitTarget kind s).1 = [] ∨ kind ≠ .dynamic ∧ char ' ' ∉ (splitTarget kind s).1 ∧
      (splitTarget kind s).1.head? ≠ some (char '"') ∧
      ¬ Bytes.StartsBlank (splitTarget kind s).1 := by
  unfold splitTarget
  split
  · exact .inl rfl
  · next h =>
    obtain ⟨hdynamic, hquote⟩ := not_or.mp h
    refine .inr ⟨hdynamic, not_mem_cut s, fun hhead => hquote ?_, fun hblank => hs ?_⟩
    · obtain ⟨rest, hrest⟩ := cut_isPrefix s
      rw [← hrest, List.head?_append]
      exact congrArg (Option.or · rest.head?) hhead
    · exact hblank.of_prefix (cut_isPrefix s)

theorem writable_of_parse {line : Bytes} (h : parse line = .ok d) : d.Writable := by
  unfold parse at h
  split at h
  · cases h
  split at h
  · dsimp only at h
    split at h
    · cases h
    · next kind hkind =>
      split at h
      · cases h
      · cases h
        exact ⟨kind_of_ofName? hkind, target_of_splitTarget (Bytes.not_startsBlank_trim _)⟩
  · cases h

/-- Printing and reading directives. A directive that can be written is read back from its text, and
whatever a line gives can be written, so that reading a line, printing and reading again gives the
same directive. -/
theorem text_round_trip (d : Directive) :
    (d.Writable → parse d.text = .ok d) ∧
      ∀ line, parse line = .ok d → d.Writable ∧ parse d.text = .ok d :=
  ⟨Writable.parse_text, fun _ h => ⟨writable_of_parse h, (writable_of_parse h).parse_text⟩⟩

/-- A header whose name has a quote, a line break, a space that is not printable and a byte that
belongs to no character. -/
def oddHeader : Directive := ⟨.header, [char 'C'], [0x61, 0x22, 0x0A, 0xC2, 0xA0, 0xFF]⟩

def oddHeaderLine : Bytes := Bytes.ascii "\t %include   C  \"\\141\\x22\\n\\U000000A0\\xFF\" \n"

theorem text_round_trip_oddHeader :
    oddHeader.Writable ∧ parse oddHeader.text = .ok oddHeader ∧
      parse oddHeaderLine = .ok oddHeader ∧ oddHeaderLine ≠ oddHeader.text := by
  have hread : parse oddHeaderLine = .ok oddHeader := by rfl
  have hwritable := ((text_round_trip oddHeader).2 oddHeaderLine hread).1
  exact ⟨hwritable, (text_round_trip oddHeader).1 hwritable, hread, by decide +kernel⟩

end Directive

end Implicits
