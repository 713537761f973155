import Mathlib.Combinatorics.Pigeonhole
import Mathlib.Logic.Function.Iterate
import Implicits.Proofs.Solver.Circles

/-!
Unification only adds information. A hole is solved at the end of a chain of links, and a chain that
is followed for as many steps as there are holes ends at an open hole or goes round in a circle. So
the link of a hole outside of such circles is never replaced, and solving closes no circle through
it. The rest is on record: constraints and imports are added at the end, and a failed attempt takes
back what it added itself.
-/
namespace Implicits

open Relation

namespace Holes

variable {h : Holes} {i j k v : HoleId} {t : Term}

def PassesTo (h : Holes) (i j : HoleId) : Prop := h.solution? i = some (.hole j)

/-- A chain of holes that are solved by holes leads from a hole back to it. -/
def Circular (h : Holes) (i : HoleId) : Prop := TransGen h.PassesTo i i

theorem PassesTo.unique (hj : h.PassesTo i j) (hk : h.PassesTo i k) : j = k :=
  Term.hole.inj (Option.some.inj (hj.symm.trans hk))

theorem PassesTo.links (hij : h.PassesTo i j) : h.Links i j :=
  ⟨.hole j, hij, Term.shows_hole.mpr rfl⟩

theorem Acyclic.not_circular (hh : h.Acyclic) (i : HoleId) : ¬ h.Circular i :=
  fun hi => hh i (TransGen.mono (fun _ _ hlink => hlink.links) _ _ hi)

/-- A chain that starts on a circle stays on it. -/
theorem Circular.of_reach (hi : h.Circular i) (hij : ReflTransGen h.PassesTo i j) :
    h.Circular j := by
  induction hij with
  | refl => exact hi
  | @tail b c _ hbc ih =>
    obtain ⟨c', hbc', hback⟩ := TransGen.head'_iff.mp ih
    obtain rfl := hbc.unique hbc'
    exact TransGen.tail' hback hbc

theorem eq_of_reach_open (hi : h.solution? i = none) (hij : ReflTransGen h.PassesTo i j) :
    i = j := by
  rcases hij.cases_head with heq | ⟨k, hik, _⟩
  · exact heq
  · rw [PassesTo, hi] at hik
    exact nomatch hik

def next (h : Holes) (i : HoleId) : HoleId :=
  match h.solution? i with
  | some (.hole j) => j
  | _ => i

theorem PassesTo.next_eq (hij : h.PassesTo i j) : h.next i = j := by
  rw [next, hij]

/-- Following ends at a hole that is not open only if the steps ran out. -/
theorem passesTo_of_followN {n : Nat} (hj : h.followN n (.hole i) = .hole j)
    (hsolved : h.solution? j ≠ none) :
    h.next^[n] i = j ∧ ∀ m < n, h.PassesTo (h.next^[m] i) (h.next^[m + 1] i) := by
  induction n generalizing i with
  | zero => exact ⟨Term.hole.inj hj, fun m hm => absurd hm (Nat.not_lt_zero m)⟩
  | succ n ih =>
    cases hi : h.solution? i with
    | none =>
      simp only [followN, hi] at hj
      exact absurd (Term.hole.inj hj ▸ hi) hsolved
    | some u =>
      simp only [followN, hi] at hj
      obtain ⟨k, rfl⟩ : ∃ k, u = .hole k := by
        by_contra hu
        rw [followN_of_not_hole fun k hk => hu ⟨k, hk⟩] at hj
        exact hu ⟨j, hj⟩
      have hstep : h.PassesTo i k := hi
      obtain ⟨hend, hchain⟩ := ih hj
      refine ⟨?_, fun m hm => ?_⟩
      · rw [Function.iterate_succ_apply, hstep.next_eq]
        exact hend
      · cases m with
        | zero =>
          show h.PassesTo i (h.next i)
          rw [hstep.next_eq]
          exact hstep
        | succ m =>
          rw [Function.iterate_succ_apply, Function.iterate_succ_apply h.next (m + 1),
            hstep.next_eq]
          exact hchain m (by omega)

theorem reach_iterate {n : Nat} (hchain : ∀ m < n, h.PassesTo (h.next^[m] i) (h.next^[m + 1] i))
    {p q : Nat} (hpq : p ≤ q) (hq : q ≤ n) :
    ReflTransGen h.PassesTo (h.next^[p] i) (h.next^[q] i) := by
  induction q, hpq using Nat.le_induction with
  | base => exact ReflTransGen.refl
  | succ q _ ih => exact ReflTransGen.tail (ih (by omega)) (hchain q (by omega))

/-- A chain of as many links as there are holes repeats a hole, so its end lies on a circle. -/
theorem circular_of_chain (hchain : ∀ m < h.size, h.PassesTo (h.next^[m] i) (h.next^[m + 1] i))
    (hend : h.solution? (h.next^[h.size] i) ≠ none) : h.Circular (h.next^[h.size] i) := by
  have hbound : ∀ m ≤ h.size, h.next^[m] i < h.size := by
    intro m hm
    rcases Nat.lt_or_eq_of_le hm with hlt | rfl
    · exact lt_size_of_solution? (hchain m hlt)
    · obtain ⟨u, hu⟩ := Option.ne_none_iff_exists'.mp hend
      exact lt_size_of_solution? hu
  obtain ⟨p, hp, q, hq, hne, heq⟩ := Finset.exists_ne_map_eq_of_card_lt_of_maps_to
    (s := Finset.range (h.size + 1)) (t := Finset.range h.size) (f := fun m => h.next^[m] i)
    (by simp) fun m hm => by
      have hm' := Finset.mem_range.mp hm
      exact Finset.mem_coe.mpr (Finset.mem_range.mpr (hbound m (by omega)))
  rw [Finset.mem_range] at hp hq
  -- the earlier of the two places lies on a circle, and the chain goes on from there
  have hcircle : ∀ p q, p < q → q ≤ h.size → h.next^[p] i = h.next^[q] i →
      h.Circular (h.next^[h.size] i) := by
    intro p q hpq hq heq
    have hround : h.Circular (h.next^[p] i) := by
      have htail := reach_iterate hchain (Nat.succ_le_of_lt hpq) hq
      rw [← heq] at htail
      exact TransGen.head' (hchain p (by omega)) htail
    exact hround.of_reach (reach_iterate hchain (by omega) (Nat.le_refl _))
  rcases Nat.lt_or_gt_of_ne hne with hlt | hlt
  · exact hcircle p q hlt (by omega) heq
  · exact hcircle q p hlt (by omega) heq.symm

/-- Following a term ends at an open hole or on a circle, if at a hole at all. -/
theorem open_or_circular_of_follow (hj : h.follow t = .hole j) :
    h.solution? j = none ∨ h.Circular j := by
  by_cases hopen : h.solution? j = none
  · exact Or.inl hopen
  · obtain ⟨i, rfl⟩ : ∃ i, t = .hole i := by
      by_contra ht
      rw [follow, followN_of_not_hole fun i hi => ht ⟨i, hi⟩] at hj
      exact ht ⟨j, hj⟩
    obtain ⟨rfl, hchain⟩ := passesTo_of_followN hj hopen
    exact Or.inr (circular_of_chain hchain hopen)

/-- A chain behind the solving of a hole is an old one, or its end is reached from the new solution.
-/
theorem transGen_solve (hij : TransGen (h.solve v t).PassesTo i j) :
    TransGen h.PassesTo i j ∨ ∃ k, t = .hole k ∧ ReflTransGen h.PassesTo k j := by
  have hstep : ∀ {a b : HoleId}, (h.solve v t).PassesTo a b → h.PassesTo a b ∨ t = .hole b := by
    intro a b hab
    exact (solution?_solve hab).imp id Eq.symm
  induction hij using TransGen.head_induction_on with
  | single hab =>
    rcases hstep hab with hold | rfl
    · exact Or.inl (TransGen.single hold)
    · exact Or.inr ⟨_, rfl, ReflTransGen.refl⟩
  | head hab _ ih =>
    rcases ih with hbj | hnew
    · rcases hstep hab with hold | rfl
      · exact Or.inl (TransGen.head hold hbj)
      · exact Or.inr ⟨_, rfl, hbj.to_reflTransGen⟩
    · exact Or.inr hnew

end Holes

namespace Solver

variable {s s' s'' : Solver}

/-- A later state of the same solver, in which every link outside of circles still stands, and
stands outside of them. -/
structure Preserves (s s' : Solver) : Prop extends Recorded s s' where
  linked : ∀ i t, s.holes.solution? i = some t → ¬ s.holes.Circular i →
    s'.holes.solution? i = some t ∧ ¬ s'.holes.Circular i

namespace Preserves

theorem of_holes (h : s.Recorded s') (hholes : s'.holes = s.holes) : s.Preserves s' :=
  ⟨h, fun i t hi hcircle => by rw [hholes]; exact ⟨hi, hcircle⟩⟩

theorem trans (h : s.Preserves s') (h' : s'.Preserves s'') : s.Preserves s'' := by
  refine ⟨h.toRecorded.trans h'.toRecorded, fun i t hi hcircle => ?_⟩
  obtain ⟨hi', hcircle'⟩ := h.linked i t hi hcircle
  exact h'.linked i t hi' hcircle'

/-- Solving the end of one chain by the end of another replaces no link outside of circles and puts
none on a circle. -/
theorem solve {a : Term} {id : HoleId} (b : Term) (hid : s.holes.follow a = .hole id) :
    s.Preserves (s.solve id (s.holes.follow b)) := by
  refine ⟨.solve s id _, fun i t hi hcircle => ⟨?_, fun hnew => ?_⟩⟩
  · have hne : id ≠ i := by
      rintro rfl
      rcases Holes.open_or_circular_of_follow hid with hopen | hround
      · rw [hi] at hopen
        exact nomatch hopen
      · exact hcircle hround
    simpa [Solver.solve, Holes.solve, Holes.solution?_setSolution, hne] using hi
  · rcases Holes.transGen_solve hnew with hold | ⟨k, hk, hki⟩
    · exact hcircle hold
    · rcases Holes.open_or_circular_of_follow hk with hopen | hround
      · obtain rfl := Holes.eq_of_reach_open hopen hki
        rw [hi] at hopen
        exact nomatch hopen
      · exact hcircle (hround.of_reach hki)

end Preserves

theorem AdmitsSolving.preserves : AdmitsSolving Preserves where
  refl s := .of_holes (.refl s) rfl
  trans := .trans
  levels h _ := .of_holes (.of_levels h) rfl
  importSignature s sig := .of_holes (.importSignature s sig) (s.holes_importSignature sig)
  solve b hid := .solve b hid
  commit h := ⟨h.toRecorded.of_commit, h.linked⟩
  rollback h := .of_holes h.toRecorded.of_rollback (by rw [h.toRecorded.rollback])

/-- A later state with more information: nothing that was known is taken back, and outside of a
speculative step nothing is left to undo. -/
structure Adds (s s' : Solver) : Prop where
  linked : ∀ i t, s.holes.solution? i = some t → ¬ s.holes.Circular i →
    s'.holes.solution? i = some t
  constraints : s.levels.constraints <+: s'.levels.constraints
  imported : ∀ name ∈ s.imported, name ∈ s'.imported
  speculative : s'.speculative = s.speculative
  stash : s.stash <:+ s'.stash
  stash_eq : s.speculative = false → s'.stash = s.stash

theorem Preserves.adds (h : s.Preserves s') : s.Adds s' := by
  obtain ⟨saved, hstash, -, hnone⟩ := h.stash
  refine ⟨fun i t hi hcircle => (h.linked i t hi hcircle).1, h.levels.constraints, ?_,
    h.speculative,
    ⟨saved, hstash.symm⟩, fun hspec => ?_⟩
  · exact fun name hname => h.imports.isSuffix.subset hname
  · rw [hstash, hnone hspec, List.nil_append]

/-- Unification and subsumption only add information, from every state, whether they succeed or fail
and whether or not they are part of a speculative step. Links on a circle are the exception, and
there are none in a state that operations lead to. -/
theorem unification_only_adds (s : Solver) :
    (∀ env hyps a b, s.Adds ((Solve.unify env hyps a b).run s).2) ∧
    (∀ env hyps actual expected, s.Adds ((Solve.subsume env hyps actual expected).run s).2) ∧
    (∀ σ, s.Operated σ → ∀ i, ¬ s.holes.Circular i) := by
  refine ⟨fun env hyps a b => ?_, fun env hyps actual expected => ?_, fun σ hs i => ?_⟩
  · exact ((Solve.unify_leads .preserves hyps a b).run s).adds
  · exact ((Solve.subsume_leads .preserves hyps actual expected).run s).adds
  · exact hs.guarded.acyclic.not_circular i

def linkedHoles : Solver :=
  Operation.perform ((addHole {} "x" .missing).2.addHole "y" .missing).2
    (.unify {} {} (.hole 0) (.hole 1))

theorem operated_linkedHoles : linkedHoles.Operated False :=
  .perform _ False.elim (.addHole _ _ (.addHole _ _ (.start (fun _ => rfl) (by simp))))

/-- Pairs whose second parts differ: unification solves the second hole through the first one before
it fails, and the link of the first one stays. -/
theorem unification_only_adds_linkedHoles :
    linkedHoles.holes.solution? 0 = some (.hole 1) ∧ linkedHoles.holes.solution? 1 = none ∧
    ¬ linkedHoles.holes.Circular 0 ∧
    ∃ e s', (Solve.unify {} {} (pair (.hole 0) (.const "c")) (pair (.bound "y") (.const "d"))).run
        linkedHoles = (.error e, s') ∧
      s'.holes.solution? 0 = some (.hole 1) ∧ (s'.holes.solution? 1).isSome = true ∧
      s'.stash = [] := by
  have hlink : linkedHoles.holes.solution? 0 = some (.hole 1) := by rfl
  have hfails : (match ((Solve.unify {} {} (pair (.hole 0) (.const "c"))
      (pair (.bound "y") (.const "d"))).run linkedHoles).1 with
    | .ok _ => false
    | .error _ => true) = true := by decide +kernel
  have hsolves : ((((Solve.unify {} {} (pair (.hole 0) (.const "c"))
      (pair (.bound "y") (.const "d"))).run linkedHoles).2.holes.solution? 1).isSome) = true := by
    decide +kernel
  obtain ⟨hunify, -, hcircle⟩ := unification_only_adds linkedHoles
  have hstraight := hcircle False operated_linkedHoles 0
  have hadds := hunify {} {} (pair (.hole 0) (.const "c")) (pair (.bound "y") (.const "d"))
  refine ⟨hlink, rfl, hstraight, ?_⟩
  generalize (Solve.unify {} {} (pair (.hole 0) (.const "c"))
    (pair (.bound "y") (.const "d"))).run linkedHoles = r at hfails hsolves hadds ⊢
  obtain ⟨e | _, s'⟩ := r
  · exact ⟨e, s', rfl, hadds.linked 0 (.hole 1) hlink hstraight, hsolves, hadds.stash_eq rfl⟩
  · simp at hfails

end Solver

end Implicits
