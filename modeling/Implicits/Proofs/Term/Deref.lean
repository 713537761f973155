import Implicits.Proofs.Term.Literals
import Implicits.Proofs.Term.Subst

/-!
Reading terms at all places. Where no chain of ties closes, `deref` leaves open holes only, and
reading some of the solutions beforehand makes no difference to it. Hence solving can be exchanged
with substitution, although the two visit different places: a substitution leaves the types of
literals alone.
-/
namespace Implicits

open Relation

namespace Term

/-- A filling outside the types of literals that is made up for by a later filling at all places. -/
theorem fill_deep_fill {f g : HoleId → Term} (hfg : ∀ i, (f i).fill true g = g i) (t : Term) :
    (t.fill false f).fill true g = t.fill true g := by
  induction t using induct with
  | missing | const | lit | bound | sort => rfl
  | hole id => exact hfg id
  | app fn args ihf ihargs =>
    simp only [fill, ihf, fillArgs_eq_map, List.map_map, app.injEq, true_and]
    exact List.map_congr_left ihargs
  | pi params result ihparams ihr =>
    simp only [fill, ihr, fillParams_eq_map, List.map_map, pi.injEq, and_true]
    refine List.map_congr_left fun p hp => ?_
    simp only [Function.comp_apply, ihparams p hp]
  | eq lhs rhs ihl ihr => rw [fill, fill, fill, ihl, ihr]
  | refl value ih => rw [fill, fill, fill, ih]

end Term

namespace Holes

variable {h : Holes} {t : Term} {i : HoleId}

theorem Untangled.acyclic (hh : h.Untangled) : h.Acyclic := by
  intro i hcircle
  refine hh i (TransGen.mono ?_ _ _ hcircle)
  rintro j k ⟨u, hu, hk⟩
  exact ⟨u, hu, hk.meets⟩

theorem deref_eq_fill (h : Holes) (t : Term) :
    h.deref t = t.fill true fun i => h.deref (.hole i) := by
  unfold deref
  cases h.size with
  | zero => exact (Term.fill_deep_hole t).symm
  | succ n => rfl

theorem deref_of_open (hi : h.solution? i = none) : h.deref (.hole i) = .hole i := by
  unfold deref
  cases h.size with
  | zero => rfl
  | succ n => simp only [instantiateN, Term.fill, hi]

namespace Untangled

/-- One tie brings a solved hole to holes with fewer holes behind them. -/
theorem countBehind_of_meets (hh : h.Untangled) {u : Term} {j : HoleId} {n : Nat}
    (hi : h.countBehind h.Ties i ≤ n + 1) (hu : h.solution? i = some u) (hj : u.Meets j) :
    h.countBehind h.Ties j ≤ n := by
  have hlt := countBehind_lt hu (hh i) ⟨u, hu, hj⟩
  omega

/-- A greater depth than there are holes behind the holes of a term changes nothing. -/
theorem instantiateN_stable (hh : h.Untangled) {n m : Nat}
    (ht : ∀ i, t.Meets i → h.countBehind h.Ties i ≤ n) (hnm : n ≤ m) :
    h.instantiateN true n t = h.instantiateN true m t :=
  instantiateN_le (Q := fun i n => h.countBehind h.Ties i ≤ n) Term.fill_deep_congr
    Term.fill_deep_hole (fun _ hi => open_of_countBehind hi)
    (fun hi hu _ hk => hh.countBehind_of_meets hi hu hk) ht hnm

/-- At such a depth no solved hole is left. -/
theorem open_of_meets_instantiateN (hh : h.Untangled) {n : Nat}
    (ht : ∀ i, t.Meets i → h.countBehind h.Ties i ≤ n) {j : HoleId}
    (hj : (h.instantiateN true n t).Meets j) : h.solution? j = none := by
  induction n generalizing t with
  | zero => exact open_of_countBehind (ht j hj)
  | succ n ih =>
    obtain ⟨i, hi, hij⟩ := Term.meets_of_meets_fill hj
    cases hsol : h.solution? i with
    | none =>
      rw [hsol] at hij
      cases hij
      exact hsol
    | some u =>
      rw [hsol] at hij
      exact ih (fun k hk => hh.countBehind_of_meets (ht i hi) hsol hk) hij

/-- What `deref` leaves in a term is open. -/
theorem open_of_meets_deref (hh : h.Untangled) (hi : (h.deref t).Meets i) : h.solution? i = none :=
  hh.open_of_meets_instantiateN (fun j _ => h.countBehind_le_size h.Ties j) hi

/-- A solved hole is read as its solution. -/
theorem deref_hole (hh : h.Untangled) {u : Term} (hu : h.solution? i = some u) :
    h.deref (.hole i) = h.deref u := by
  have hpos : 0 < h.size := Nat.zero_lt_of_lt (lt_size_of_solution? hu)
  obtain ⟨n, hn⟩ : ∃ k, h.size = k + 1 := ⟨h.size - 1, by omega⟩
  have hcount : h.countBehind h.Ties i ≤ n + 1 := hn ▸ h.countBehind_le_size h.Ties i
  rw [deref, deref, hn, instantiateN, Term.fill]
  simp only [hu]
  exact hh.instantiateN_stable (fun j hj => hh.countBehind_of_meets hcount hu hj) (Nat.le_succ n)

/-- Solutions that were put in outside the types of literals are read as before. -/
theorem deref_expand (hh : h.Untangled) (t : Term) : h.deref (h.expand t) = h.deref t := by
  unfold expand
  generalize h.size = n
  induction n generalizing t with
  | zero => rfl
  | succ n ih =>
    rw [instantiateN, h.deref_eq_fill t, deref_eq_fill]
    refine Term.fill_deep_fill (fun i => ?_) t
    rw [← deref_eq_fill]
    cases hsol : h.solution? i with
    | none => rfl
    | some u => exact (ih u).trans (hh.deref_hole hsol).symm

/-- Terms that are read alike outside the types of literals are read alike at all places. -/
theorem deref_congr (hh : h.Untangled) {u : Term} (hread : h.expand t = h.expand u) :
    h.deref t = h.deref u := by
  rw [← hh.deref_expand t, hread, hh.deref_expand]

/-- A term that was read at all places is not changed by reading it once more. -/
theorem expand_deref (hh : h.Untangled) (t : Term) : h.expand (h.deref t) = h.deref t := by
  have hopen : ∀ i, (h.deref t).Shows i → h.expand (.hole i) = .hole i :=
    fun i hi => expand_of_open (hh.open_of_meets_deref hi.meets)
  rw [expand_eq_fill, Term.fill_congr hopen, Term.fill_hole]

/-- In an expanded term only open holes stand where a substitution goes, and it leaves these alone.
-/
theorem deref_subst_expand (hh : h.Untangled) (t : Term) (sub : Substitution) :
    h.deref ((h.expand t).subst sub) = (h.deref t).subst (sub.mapTerms h.deref) := by
  have hderef : h.deref = Term.fill true fun i => h.deref (.hole i) :=
    funext fun u => h.deref_eq_fill u
  have hopen : ∀ i, (h.expand t).Shows i → ∀ sub,
      (h.deref (.hole i)).subst sub = h.deref (.hole i) := by
    intro i hi sub
    rw [deref_of_open (open_of_shows_expand hh.acyclic hi), Term.subst]
  rw [deref_eq_fill, Term.fill_subst hopen, ← hderef, hh.deref_expand]

end Untangled

/-- Substitution and solving can be exchanged. Where no chain of ties closes, putting terms in for
names and reading the outcome at all places gives what reading the term and the terms for the names
beforehand gives. It makes no difference whether solved holes are left standing in the outcome, and
only open holes are left after reading. -/
theorem deref_subst_comm (hh : h.Untangled) (t : Term) {sub sub' : Substitution}
    (hsub : ∀ name, sub'.lookup name = (sub.lookup name).map h.deref) :
    h.deref (h.subst sub t) = h.subst sub' (h.deref t) ∧
      (∀ u, h.expand u = h.expand (h.subst sub t) → h.deref u = h.subst sub' (h.deref t)) ∧
      ∀ i, (h.subst sub' (h.deref t)).Meets i → h.solution? i = none := by
  have hexpand : h.deref (h.subst sub t) = h.deref ((h.expand t).subst sub) := by
    unfold Holes.subst
    split
    · rename_i hempty
      rw [List.isEmpty_iff.mp hempty, Term.subst_nil, hh.deref_expand]
    · rfl
  have hcomm : h.deref (h.subst sub t) = h.subst sub' (h.deref t) := calc
    h.deref (h.subst sub t) = (h.deref t).subst (sub.mapTerms h.deref) :=
      hexpand.trans (hh.deref_subst_expand t sub)
    _ = (h.deref t).subst sub' :=
      Term.subst_congr fun name _ => by rw [Substitution.lookup_mapTerms, hsub]
    _ = h.subst sub' (h.deref t) := (subst_of_expand (hh.expand_deref t) sub').symm
  refine ⟨hcomm, fun u hu => (hh.deref_congr hu).trans hcomm, fun i hi => ?_⟩
  rw [← hcomm] at hi
  exact hh.open_of_meets_deref hi

def layered : Holes where
  table := #[
    { name := "f", number := 0, type := .missing,
      solution := some (.pi [⟨"x", .bound "y", .explicit, none⟩]
        (.app (.hole 1) [.bound "x", .bound "y"])) },
    { name := "g", number := 1, type := .missing, solution := some (.hole 2) },
    { name := "h", number := 2, type := .missing },
    { name := "a", number := 3, type := .missing,
      solution := some (.lit "1" (.app (.hole 4) [.bound "x"])) },
    { name := "b", number := 4, type := .missing, solution := some (.const "List") }]

theorem layered_untangled : layered.Untangled := by
  refine not_transGen_of_lt fun i j ⟨u, hu, hj⟩ => ?_
  match i, hu with
  | 0, hu =>
    obtain rfl := Option.some.inj hu
    cases hj with
    | param hp hj =>
      obtain rfl := List.mem_singleton.mp hp
      cases hj
    | result hj =>
      cases hj with
      | fn hj =>
        cases hj
        decide
      | arg ha hj => rcases List.mem_pair.mp ha with rfl | rfl <;> cases hj
  | 1, hu =>
    obtain rfl := Option.some.inj hu
    cases hj
    decide
  | 3, hu =>
    obtain rfl := Option.some.inj hu
    cases hj with
    | lit hj =>
      cases hj with
      | fn hj =>
        cases hj
        decide
      | arg ha hj =>
        obtain rfl := List.mem_singleton.mp ha
        cases hj
  | 4, hu =>
    obtain rfl := Option.some.inj hu
    cases hj
  | 2, hu | i + 5, hu => cases hu

def layeredCall : Term := .app (.hole 0) [.hole 3, .bound "x"]

def layeredNames : Substitution := [("x", .hole 3), ("y", .refl (.hole 1))]

/-- The parameter hides a name from the substitution, and so does the type of the literal. -/
theorem deref_subst_comm_layered :
    layered.Untangled ∧
    layered.deref (layered.subst layeredNames layeredCall) =
      layered.subst (layeredNames.mapTerms layered.deref) (layered.deref layeredCall) ∧
    layered.deref (layered.subst layeredNames layeredCall) =
      .app
        (.pi [⟨"x", .refl (.hole 2), .explicit, none⟩]
          (.app (.hole 2) [.bound "x", .refl (.hole 2)]))
        [.lit "1" (.app (.const "List") [.bound "x"]),
          .lit "1" (.app (.const "List") [.bound "x"])] :=
  ⟨layered_untangled,
    (deref_subst_comm layered_untangled layeredCall
      (Substitution.lookup_mapTerms layered.deref layeredNames)).1,
    rfl⟩

end Holes

end Implicits
