import Implicits.Text.Blank

/-!
What is left when white space is removed from the ends of a byte string: it does not start with
white space, and a byte string that neither starts nor ends with any is left alone.
-/
namespace Implicits

namespace Bytes

def StartsWith (words : List Bytes) (s : Bytes) : Prop := ∃ w ∈ words, w <+: s

instance (words : List Bytes) (s : Bytes) : Decidable (StartsWith words s) :=
  inferInstanceAs (Decidable (∃ w ∈ words, w <+: s))

section Words

variable {words : List Bytes} {s rest : Bytes}

theorem StartsWith.of_prefix (h : StartsWith words rest) (hrest : rest <+: s) :
    StartsWith words s := by
  obtain ⟨w, hw, hstart⟩ := h
  exact ⟨w, hw, hstart.trans hrest⟩

theorem dropWord?_eq_none (h : ¬ StartsWith words s) : dropWord? words s = none := by
  rw [dropWord?, Option.map_eq_none_iff, List.find?_eq_none]
  exact fun w hw hstart => h ⟨w, hw, List.isPrefixOf_iff_prefix.mp hstart⟩

theorem not_startsWith_of_dropWord? (h : dropWord? words s = none) : ¬ StartsWith words s := by
  rw [dropWord?, Option.map_eq_none_iff, List.find?_eq_none] at h
  rintro ⟨w, hw, hstart⟩
  exact h w hw (List.isPrefixOf_iff_prefix.mpr hstart)

/-- A word is taken off the start. -/
theorem exists_word_of_dropWord? (h : dropWord? words s = some rest) :
    ∃ w ∈ words, s = w ++ rest := by
  obtain ⟨w, hfind, rfl⟩ := Option.map_eq_some_iff.mp h
  have hfound := List.find?_some hfind
  have hstart : w <+: s := List.isPrefixOf_iff_prefix.mp hfound
  exact ⟨w, List.mem_of_find?_eq_some hfind, (List.prefix_iff_eq_append.mp hstart).symm⟩

theorem dropWords_eq_self (h : ¬ StartsWith words s) : dropWords words s = s := by
  unfold dropWords
  cases s with
  | nil => rfl
  | cons b s => rw [List.length_cons, dropWordsN, dropWord?_eq_none h]

theorem dropWordsN_suffix (n : Nat) (s : Bytes) : dropWordsN words n s <:+ s := by
  induction n generalizing s with
  | zero => exact List.suffix_rfl
  | succ n ih =>
    rw [dropWordsN]
    cases hdrop : dropWord? words s with
    | none => exact List.suffix_rfl
    | some rest =>
      obtain ⟨w, -, rfl⟩ := exists_word_of_dropWord? hdrop
      exact (ih rest).trans (List.suffix_append w rest)

theorem not_startsWith_dropWordsN (hwords : [] ∉ words) {n : Nat} (hs : s.length ≤ n) :
    ¬ StartsWith words (dropWordsN words n s) := by
  induction n generalizing s with
  | zero =>
    rintro ⟨w, hw, hstart⟩
    rw [dropWordsN, List.eq_nil_of_length_eq_zero (Nat.le_zero.mp hs), List.prefix_nil] at hstart
    exact hwords (hstart ▸ hw)
  | succ n ih =>
    rw [dropWordsN]
    cases hdrop : dropWord? words s with
    | none => exact not_startsWith_of_dropWord? hdrop
    | some rest =>
      obtain ⟨w, hw, rfl⟩ := exists_word_of_dropWord? hdrop
      have hpos : 0 < w.length := List.length_pos_iff.mpr fun hnil => hwords (hnil ▸ hw)
      rw [List.length_append] at hs
      exact ih (by omega)

/-- Words are removed for as long as there is one. -/
theorem not_startsWith_dropWords (hwords : [] ∉ words) (s : Bytes) :
    ¬ StartsWith words (dropWords words s) := not_startsWith_dropWordsN hwords (Nat.le_refl _)

end Words

def StartsBlank (s : Bytes) : Prop := StartsWith (blankCodes.map encode) s

instance (s : Bytes) : Decidable (StartsBlank s) := inferInstanceAs (Decidable (StartsWith _ s))

/-- White space at the end of a byte string is white space at the start of its reverse, read
backwards. -/
def EndsBlank (s : Bytes) : Prop := StartsWith ((blankCodes.map encode).map List.reverse) s.reverse

def Solid (b : UInt8) : Prop :=
  ∀ w ∈ blankCodes.map encode, w.head? ≠ some b ∧ w.getLast? ≠ some b

instance (b : UInt8) : Decidable (Solid b) :=
  inferInstanceAs (Decidable (∀ w ∈ blankCodes.map encode, w.head? ≠ some b ∧ w.getLast? ≠ some b))

theorem nil_not_mem_blanks : [] ∉ blankCodes.map encode := by decide

section Trim

variable {s : Bytes} {b : UInt8}

theorem trim_eq_self (hstart : ¬ StartsBlank s) (hend : ¬ EndsBlank s) : s.trim = s := by
  rw [trim, dropWords_eq_self hstart, dropWords_eq_self hend, List.reverse_reverse]

/-- What is left starts like the byte string without the white space in front. -/
theorem not_startsBlank_trim (s : Bytes) : ¬ StartsBlank s.trim := by
  intro hstart
  refine not_startsWith_dropWords nil_not_mem_blanks s (hstart.of_prefix ?_)
  rw [← List.reverse_suffix, trim, List.reverse_reverse]
  exact dropWordsN_suffix _ _

theorem Solid.not_startsBlank (hb : Solid b) (s : Bytes) : ¬ StartsBlank (b :: s) := by
  rintro ⟨w, hw, hstart⟩
  cases w with
  | nil => exact nil_not_mem_blanks hw
  | cons c w =>
    obtain ⟨rfl, -⟩ := List.cons_prefix_cons.mp hstart
    exact (hb _ hw).1 rfl

theorem Solid.not_endsBlank (hb : Solid b) (s : Bytes) : ¬ EndsBlank (s ++ [b]) := by
  rintro ⟨_, hmem, hstart⟩
  obtain ⟨w, hw, rfl⟩ := List.mem_map.mp hmem
  have hhead : w.reverse.head? = w.getLast? := List.head?_reverse
  cases hrev : w.reverse with
  | nil => exact nil_not_mem_blanks (List.reverse_eq_nil_iff.mp hrev ▸ hw)
  | cons c v =>
    rw [hrev, List.reverse_append] at hstart
    obtain ⟨rfl, -⟩ := List.cons_prefix_cons.mp hstart
    rw [hrev] at hhead
    exact (hb w hw).2 hhead.symm

/-- A space is white space of its own, never a part of a longer one. -/
theorem not_startsBlank_append_space {t : Bytes} (ht : t ≠ [])
    (hblank : ¬ StartsBlank t) (s : Bytes) :
    ¬ StartsBlank (t ++ char ' ' :: s) := by
  rintro ⟨w, hw, hstart⟩
  have htail : ∀ w ∈ blankCodes.map encode, char ' ' ∉ w.tail := by decide
  rcases List.prefix_or_prefix_of_prefix hstart (List.prefix_append t _) with hwt | htw
  · exact hblank ⟨w, hw, hwt⟩
  · obtain ⟨u, rfl⟩ := htw
    cases u with
    | nil => exact hblank ⟨_, hw, by simp⟩
    | cons c u =>
      obtain ⟨rfl, -⟩ := List.cons_prefix_cons.mp ((List.prefix_append_right_inj t).mp hstart)
      obtain ⟨a, t, rfl⟩ := List.exists_cons_of_ne_nil ht
      exact htail _ hw (by simp)

end Trim

end Bytes

end Implicits
