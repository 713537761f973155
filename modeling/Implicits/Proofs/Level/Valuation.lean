import Mathlib.Data.List.Nodup
import Implicits.Level.Store

/-!
The meaning of level constraints: a valuation gives every level variable a natural number, concrete
levels stand for themselves, and a constraint compares the values of its two levels.
-/
namespace Implicits

abbrev Valuation := LevelVar → Nat

def Level.value (v : Valuation) : Level → Int
  | .const k => k.toInt
  | .var x => v x

def Constraint.Holds (v : Valuation) (c : Constraint) : Prop :=
  if c.strict then c.lo.value v < c.hi.value v else c.lo.value v ≤ c.hi.value v

instance (v : Valuation) (c : Constraint) : Decidable (c.Holds v) :=
  inferInstanceAs (Decidable (if c.strict then c.lo.value v < c.hi.value v
    else c.lo.value v ≤ c.hi.value v))

def Valuation.Satisfies (v : Valuation) (cs : List Constraint) : Prop := ∀ c ∈ cs, c.Holds v

instance (v : Valuation) (cs : List Constraint) : Decidable (v.Satisfies cs) :=
  inferInstanceAs (Decidable (∀ c ∈ cs, c.Holds v))

def Satisfiable (cs : List Constraint) : Prop := ∃ v : Valuation, v.Satisfies cs

def Constraint.gap (c : Constraint) : Int := if c.strict then 1 else 0

theorem Constraint.gap_nonneg (c : Constraint) : 0 ≤ c.gap := by
  unfold gap
  split <;> omega

theorem Constraint.gap_le_one (c : Constraint) : c.gap ≤ 1 := by
  unfold gap
  split <;> omega

theorem Constraint.gap_le_gap {c d : Constraint} (h : c.strict = true → d.strict = true) :
    c.gap ≤ d.gap := by
  by_cases hc : c.strict = true
  · simp [gap, hc, h hc]
  · have hzero : c.gap = 0 := by simp [gap, hc]
    rw [hzero]
    exact d.gap_nonneg

theorem Constraint.holds_iff_gap (v : Valuation) (c : Constraint) :
    c.Holds v ↔ c.lo.value v + c.gap ≤ c.hi.value v := by
  unfold Holds gap
  split <;> omega

theorem Valuation.Satisfies.append {v : Valuation} {cs ds : List Constraint}
    (hcs : v.Satisfies cs) (hds : v.Satisfies ds) : v.Satisfies (cs ++ ds) := by
  intro c hc
  rcases List.mem_append.mp hc with h | h
  · exact hcs c h
  · exact hds c h

def distinctLevels (cs : List Constraint) : List Level := (cs.flatMap Constraint.ends).eraseDups

def largestLevel (cs : List Constraint) : Int :=
  ((distinctLevels cs).filterMap Level.const?).foldr (fun k n => max k.toInt n) 0

theorem lo_mem_distinctLevels {cs : List Constraint} {c : Constraint} (hc : c ∈ cs) :
    c.lo ∈ distinctLevels cs := by
  rw [distinctLevels, List.mem_eraseDups, List.mem_flatMap]
  exact ⟨c, hc, by simp [Constraint.ends]⟩

theorem hi_mem_distinctLevels {cs : List Constraint} {c : Constraint} (hc : c ∈ cs) :
    c.hi ∈ distinctLevels cs := by
  rw [distinctLevels, List.mem_eraseDups, List.mem_flatMap]
  exact ⟨c, hc, by simp [Constraint.ends]⟩

theorem nodup_eraseDups {α : Type} [BEq α] [LawfulBEq α] (xs : List α) : xs.eraseDups.Nodup := by
  induction hn : xs.length using Nat.strongRecOn generalizing xs with
  | ind n ih =>
    cases xs with
    | nil => simp
    | cons x xs =>
      rw [List.eraseDups_cons, List.nodup_cons]
      constructor
      · simp
      · have hlen := List.length_filter_le (fun b => !b == x) xs
        rw [List.length_cons] at hn
        exact ih _ (by omega) _ rfl

theorem distinctLevels_nodup (cs : List Constraint) : (distinctLevels cs).Nodup := nodup_eraseDups _

theorem toInt_le_foldr_max {ks : List Int64} {k : Int64} (hk : k ∈ ks) :
    k.toInt ≤ ks.foldr (fun k n => max k.toInt n) 0 := by
  induction ks with
  | nil => simp at hk
  | cons j ks ih =>
    rw [List.foldr_cons]
    rcases List.mem_cons.mp hk with rfl | hk
    · exact Int.le_max_left _ _
    · exact Int.le_trans (ih hk) (Int.le_max_right _ _)

theorem le_largestLevel {cs : List Constraint} {k : Int64}
    (hk : Level.const k ∈ distinctLevels cs) : k.toInt ≤ largestLevel cs :=
  toInt_le_foldr_max (List.mem_filterMap.mpr ⟨.const k, hk, rfl⟩)

theorem largestLevel_nonneg (cs : List Constraint) : 0 ≤ largestLevel cs := by
  unfold largestLevel
  induction (distinctLevels cs).filterMap Level.const? with
  | nil => simp
  | cons j ks ih => exact Int.le_trans ih (Int.le_max_right _ _)

end Implicits
