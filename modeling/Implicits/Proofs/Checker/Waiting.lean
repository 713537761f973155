import Implicits.Proofs.Checker.Advance
import Implicits.Proofs.Checker.Pairing

/-!
Omitted arguments that wait for an enclosing call. Where unresolved arguments are not deferred, a
call succeeds if and only if its expression is elaborated and every argument that waits then has a
value, no matter which call left it waiting. An argument that has a value keeps it, and one without
a value gets none from later calls.
-/
namespace Implicits

open Relation Term

namespace Holes

def Solved (h : Holes) (i : HoleId) : Prop := ∀ j, h.follow (.hole i) ≠ .hole j

variable {past h : Holes} {i : HoleId}

/-- Where following ends in the earlier table, at a term or at a hole that was open, it ends later
too. -/
theorem Later.followN_eq (hh : past.Later h) {n m : Nat} {t : Term}
    (hend : ∀ j, past.followN n t = .hole j → past.solution? j = none ∧ j < past.size)
    (hnm : n ≤ m) :
    h.followN m t = past.followN n t := by
  induction n generalizing m t with
  | zero =>
    by_cases hhole : ∃ i, t = .hole i
    · obtain ⟨i, rfl⟩ := hhole
      obtain ⟨hopen, hlt⟩ := hend i rfl
      exact followN_of_open ((hh.before i hlt).trans hopen) m
    · exact followN_of_not_hole (fun i hi => hhole ⟨i, hi⟩) m
  | succ n ih =>
    by_cases hhole : ∃ i, t = .hole i
    · obtain ⟨i, rfl⟩ := hhole
      cases hsol : past.solution? i with
      | none =>
        have hstop : past.followN (n + 1) (.hole i) = .hole i := followN_of_open hsol _
        have hlt : i < past.size := (hend i hstop).2
        rw [hstop]
        exact followN_of_open ((hh.before i hlt).trans hsol) m
      | some u =>
        have hsol' : h.solution? i = some u := (hh.before i (lt_size_of_solution? hsol)).trans hsol
        obtain ⟨k, rfl⟩ : ∃ k, m = k + 1 := ⟨m - 1, by omega⟩
        simp only [followN, hsol, hsol'] at hend ⊢
        exact ih hend (by omega)
    · have hother : ∀ i, t ≠ .hole i := fun i hi => hhole ⟨i, hi⟩
      rw [followN_of_not_hole hother, followN_of_not_hole hother]

theorem Later.solved (hh : past.Later h) (hi : past.Solved i) : h.Solved i := by
  have hfollow : h.follow (.hole i) = past.follow (.hole i) :=
    hh.followN_eq (fun j hj => absurd hj (hi j)) hh.size
  intro j
  rw [hfollow]
  exact hi j

/-- A hole of a sound table gets its value while it is in the table or never. -/
theorem Later.solved_iff (hh : past.Later h) {σ : Scope} {n : Stage} (hpast : past.Sound σ n)
    (hbase : σ.base ≤ i) (hlt : i < past.size) : h.Solved i ↔ past.Solved i := by
  have hscoped : (Term.hole i).Scoped σ n := .hole hbase (hpast.size ▸ hlt)
  have hend : ∀ j, past.follow (.hole i) = .hole j → past.solution? j = none ∧ j < past.size := by
    intro j hj
    have hopen := (follow_eq_hole (fun k hk => hpast.grounded_of_shows hscoped hk) hj).1
    have hinside := hpast.follow hscoped
    rw [hj] at hinside
    cases hinside with
    | hole _ hmade => exact ⟨hopen, hpast.size ▸ hmade⟩
  have hfollow : h.follow (.hole i) = past.follow (.hole i) := hh.followN_eq hend hh.size
  unfold Solved
  rw [hfollow]

theorem Paired.solved_iff {ρ : Pairing} {h' : Holes} (hh : h.Paired ρ h') {j : HoleId}
    (hij : ρ.hole i j) :
    h'.Solved j ↔ h.Solved i := by
  have hfollow := hh.follow (.hole hij)
  unfold Solved
  generalize h.follow (.hole i) = x, h'.follow (.hole j) = y at hfollow
  cases hfollow with
  | hole => exact iff_of_false (fun hall => hall _ rfl) fun hall => hall _ rfl
  | _ => exact iff_of_true (fun _ => Term.noConfusion) fun _ => Term.noConfusion

end Holes

def Checker.Settled (c : Checker) : Prop := ∀ p ∈ c.pending, c.solver.holes.Solved p.hole

theorem Checker.Settled.of_nil {c : Checker} (hnil : c.pending = []) : c.Settled := by
  unfold Settled
  rw [hnil]
  exact fun p hp => absurd hp List.not_mem_nil

/-- Where the arguments that the one checker has found waiting have values, it is left to those that
the other one has found. -/
theorem Checker.Paired.settled_iff {ρ : Pairing} {K : Checker.Comparison ρ} {c d : Checker}
    (hcd : c.Paired K d) (hold : ∀ p ∈ K.left.pending, c.solver.holes.Solved p.hole) :
    d.Settled ↔ c.Settled ∧ ∀ p ∈ K.right.pending, d.solver.holes.Solved p.hole := by
  obtain ⟨new, new', hc, hd, hnew⟩ := hcd.pending
  have hsame : (∀ q ∈ new', d.solver.holes.Solved q.hole) ↔
      ∀ p ∈ new, c.solver.holes.Solved p.hole := by
    clear hc hd
    induction hnew with
    | nil => simp
    | cons hpq _ ih =>
      rw [List.forall_mem_cons, List.forall_mem_cons, ih, hcd.solver.holes.solved_iff hpq.hole]
  unfold Settled
  rw [hc, hd, List.forall_mem_append, List.forall_mem_append, hsame]
  constructor
  · exact fun ⟨hfound, hmade⟩ => ⟨⟨hold, hmade⟩, hfound⟩
  · exact fun ⟨⟨_, hmade⟩, hfound⟩ => ⟨hfound, hmade⟩

namespace Check

section Finish

variable {c : Checker}

theorem isUnsolved_ends (i : HoleId) : Ends (isUnsolved i) c
    (fun unsolved c' => c' = c ∧ (unsolved = false ↔ c.solver.holes.Solved i))
      fun _ _ => False := by
  unfold isUnsolved Holes.Solved
  rw [ends_bind, ends_holes]
  split
  · rename_i j hj
    exact ⟨rfl, iff_of_false Bool.noConfusion fun hall => hall j hj⟩
  · rename_i hother
    exact ⟨rfl, iff_of_true rfl hother⟩

/-- The end of a call looks at each argument that waits and changes no value. -/
theorem finishWaiting_settles (hstrict : c.options.deferUnresolved = false) (p : Pending) :
    Ends (finishWaiting p) c (fun _ c' => c' = c ∧ c.solver.holes.Solved p.hole)
      fun _ c' => ¬ c.solver.holes.Solved p.hole ∧ c'.solver = c.solver ∧
      c'.pending = c.pending := by
  unfold finishWaiting
  rw [ends_bind]
  apply Ends.mono (isUnsolved_ends p.hole)
  · intro unsolved c' ⟨hsame, hsolved⟩
    rw [hsame]
    cases unsolved with
    | false => exact ⟨rfl, hsolved.mp rfl⟩
    | true =>
      have hopen : ¬ c.solver.holes.Solved p.hole := fun h => Bool.noConfusion (hsolved.mpr h)
      rw [if_pos rfl, ends_bind, ends_get, hstrict, if_neg Bool.false_ne_true, ends_bind,
        ends_holes, fail,
        ends_bind, ends_modify, ends_throw]
      split
      · exact ⟨hopen, rfl, rfl⟩
      · exact ⟨hopen, rfl, rfl⟩
  · exact fun _ _ hfalse => hfalse.elim

theorem finishAll_settles (hstrict : c.options.deferUnresolved = false) (waiting : List Pending) :
    Ends (waiting.forM finishWaiting) c
      (fun _ c' => c' = c ∧ ∀ p ∈ waiting, c.solver.holes.Solved p.hole)
      fun _ c' => (¬ ∀ p ∈ waiting, c.solver.holes.Solved p.hole) ∧
        c'.solver = c.solver ∧ c'.pending = c.pending := by
  induction waiting with
  | nil => exact ⟨rfl, by simp⟩
  | cons p waiting ih =>
    change Ends (finishWaiting p >>= fun _ => waiting.forM finishWaiting) c _ _
    rw [ends_bind]
    apply Ends.mono (finishWaiting_settles hstrict p)
    · rintro _ _ ⟨rfl, hp⟩
      apply Ends.mono ih
      · exact fun _ _ ⟨hsame, hrest⟩ => ⟨hsame, List.forall_mem_cons.mpr ⟨hp, hrest⟩⟩
      · exact fun _ _ ⟨hopen, hsame⟩ => ⟨fun hall => hopen (List.forall_mem_cons.mp hall).2, hsame⟩
    · exact fun _ _ ⟨hopen, hsame⟩ => ⟨fun hall => hopen (List.forall_mem_cons.mp hall).1, hsame⟩

/-- The end of a call succeeds if every argument that waits has a value. None waits any longer. -/
theorem finishPending_settles (hstrict : c.options.deferUnresolved = false) :
    Ends finishPending c (fun _ c' => c.Settled ∧ c'.solver = c.solver ∧ c'.pending = [])
      fun _ c' => ¬ c.Settled ∧ c'.solver = c.solver ∧ c'.pending = [] := by
  unfold finishPending
  rw [ends_bind, ends_get, ends_bind, ends_modify]
  have hall := finishAll_settles (c := { c with pending := [] }) hstrict c.pending
  apply Ends.mono hall
  · rintro _ _ ⟨rfl, hsettled⟩
    exact ⟨hsettled, rfl, rfl⟩
  · exact fun _ _ h => h

end Finish

/-- What a call gives back: its expression is elaborated, and then every argument that waits has a
value. -/
def Yields (env : Declarations) (e : Expr) (hyps : Context) (expected : Term) (c : Checker)
    (r : Term × Term) : Prop :=
  c.isActive = true ∧ e.isMissing = false ∧
    ∃ x c', (elaborateAgainst env e hyps expected).run c = (.ok x, c') ∧
    c'.Settled ∧ r = (c'.solver.holes.deref x.1, c'.solver.holes.deref x.2)

section Top

variable {env : Declarations} {e : Expr} {hyps : Context} {expected : Term} {c : Checker}

theorem yields_of_ok {x : Term × Term} {c' : Checker}
    (hrun : (elaborateAgainst env e hyps expected).run c = (.ok x, c')) {r : Term × Term} :
    Yields env e hyps expected c r ↔ c.isActive = true ∧ e.isMissing = false ∧ c'.Settled ∧
      r = (c'.solver.holes.deref x.1, c'.solver.holes.deref x.2) := by
  unfold Yields
  rw [hrun]
  constructor
  · intro ⟨hactive, hsome, _, _, heq, hr⟩
    obtain ⟨⟨⟩, rfl⟩ := Prod.mk.inj heq
    exact ⟨hactive, hsome, hr⟩
  · exact fun ⟨hactive, hsome, hr⟩ => ⟨hactive, hsome, x, c', rfl, hr⟩

theorem not_yields_of_error {err : CheckError} {c' : Checker}
    (hrun : (elaborateAgainst env e hyps expected).run c = (.error err, c')) (r : Term × Term) :
    ¬ Yields env e hyps expected c r := by
  intro ⟨_, _, _, _, hok, _⟩
  rw [hrun] at hok
  cases (Prod.mk.inj hok).1

/-- The solver and the arguments that wait after a call: as after elaborating its expression, if it
comes to that, but that nothing needs to wait. -/
def Leaves (x : Check (Term × Term)) (c c' : Checker) : Prop :=
  (c'.solver = c.solver ∧ c'.pending = c.pending) ∨
    (c'.solver = (x.run c).2.solver ∧ (c'.pending = (x.run c).2.pending ∨ c'.pending = []))

theorem elaborateTop_ends (hstrict : c.options.deferUnresolved = false) :
    Ends (elaborateTop env e hyps expected) c
      (fun r c' => Yields env e hyps expected c r ∧
        Leaves (elaborateAgainst env e hyps expected) c c')
      fun _ c' => (∀ r, ¬ Yields env e hyps expected c r) ∧
        Leaves (elaborateAgainst env e hyps expected) c c' := by
  unfold elaborateTop requireActive
  rw [ends_bind, ends_bind, ends_get]
  split
  · rename_i hinactive
    rw [ends_throw]
    refine ⟨fun r hr => ?_, .inl ⟨rfl, rfl⟩⟩
    rw [hr.1] at hinactive
    exact Bool.noConfusion hinactive
  · rename_i hactive
    rw [ends_pure]
    dsimp only
    split
    · rename_i hmissing
      refine ⟨fun r hr => ?_, .inl ⟨rfl, rfl⟩⟩
      rw [hr.2.1] at hmissing
      exact Bool.noConfusion hmissing
    · rename_i hsome
      have hadvances : IsAdvance [] (elaborateAgainst env e hyps expected) :=
        elaborateAgainst_advance e expected
      rw [ends_bind]
      apply Ends.mono ((ends_run _ c).and (hadvances c))
      · intro x c₁ ⟨hrun, hstep⟩
        have hstrict₁ : c₁.options.deferUnresolved = false := hstep.options ▸ hstrict
        have hleaves : ∀ c', c'.solver = c₁.solver → c'.pending = [] →
            Leaves (elaborateAgainst env e hyps expected) c c' := by
          intro c' hsolver hpending
          unfold Leaves
          rw [hrun]
          exact .inr ⟨hsolver, .inr hpending⟩
        rw [ends_bind]
        apply Ends.mono (finishPending_settles hstrict₁)
        · intro _ c₂ ⟨hsettled, hsolver, hpending⟩
          rw [ends_bind, ends_holes, ends_pure, hsolver]
          refine ⟨(yields_of_ok hrun).mpr ⟨?_, ?_, hsettled, rfl⟩, hleaves c₂ hsolver hpending⟩
          · simpa using hactive
          · simpa using hsome
        · intro _ c₂ ⟨hopen, hsolver, hpending⟩
          exact ⟨fun r hr => hopen ((yields_of_ok hrun).mp hr).2.2.1, hleaves c₂ hsolver hpending⟩
      · intro err c₁ ⟨hrun, _⟩
        refine ⟨not_yields_of_error hrun, .inr ?_⟩
        rw [hrun]
        exact ⟨rfl, .inl rfl⟩

/-- A call succeeds exactly with what it gives back. -/
theorem elaborateTop_ok_iff (hstrict : c.options.deferUnresolved = false) {r : Term × Term} :
    (∃ c', (elaborateTop env e hyps expected).run c = (.ok r, c')) ↔
    Yields env e hyps expected c r := by
  constructor
  · intro ⟨c', hrun⟩
    exact ((elaborateTop_ends hstrict).of_ok hrun).1
  · intro hr
    rcases hrun : (elaborateTop env e hyps expected).run c with ⟨err | r', c'⟩
    · exact absurd hr (((elaborateTop_ends hstrict).of_error hrun).1 r)
    · obtain ⟨_, _, x, c₁, hx, _, rfl⟩ := ((elaborateTop_ends hstrict).of_ok hrun).1
      obtain ⟨_, _, _, rfl⟩ := (yields_of_ok hx).mp hr
      exact ⟨c', rfl⟩

end Top

/-- Calls in two runs side by side. Where the arguments that the one checker has found waiting have
values, the other call succeeds if this one does and the arguments that the other checker has found
get values. -/
theorem yields_paired {ρ : Pairing} {K : Checker.Comparison ρ} {env : Declarations}
    (henv : env.Indifferent ρ env) {e : Expr} (he : e.ClosedOver ρ.known) {hyps : Context}
    (hhyps : hyps.ClosedOver ρ.known) {expected : Term} (hexpected : expected.ClosedOver ρ.known)
    {c d : Checker} (hactive : d.isActive = c.isActive) (hcd : c.Paired K d)
    (hold : ∀ p ∈ K.left.pending, ρ.left.Solved p.hole) :
    ((∃ r', Yields env e hyps expected d r') ↔ (∃ r, Yields env e hyps expected c r) ∧
      ∀ p ∈ K.right.pending,
      ((elaborateAgainst env e hyps expected).run d).2.solver.holes.Solved p.hole) ∧
    ∀ r r', Yields env e hyps expected c r → Yields env e hyps expected d r' →
    PairPaired ρ r r' := by
  obtain ⟨houtcome, hcd'⟩ := elaborateAgainst_paired henv he hhyps.paired hexpected.paired c d hcd
  rcases hrun : (elaborateAgainst env e hyps expected).run c with ⟨out, c'⟩
  rcases hrun' : (elaborateAgainst env e hyps expected).run d with ⟨out', d'⟩
  rw [hrun, hrun'] at houtcome hcd'
  dsimp only at houtcome hcd' ⊢
  cases houtcome with
  | error =>
    have hnone := not_yields_of_error hrun
    have hnone' := not_yields_of_error hrun'
    refine ⟨iff_of_false (fun ⟨r, hr⟩ => hnone' r hr) fun ⟨⟨r, hr⟩, _⟩ => hnone r hr, ?_⟩
    exact fun r _ hr => absurd hr (hnone r)
  | ok hxy =>
    have hsettled := hcd'.settled_iff fun p hp => hcd'.solver.holes.left.solved (hold p hp)
    simp only [yields_of_ok hrun, yields_of_ok hrun', hactive, hsettled]
    constructor
    · constructor
      · exact fun ⟨_, hisActive, hsome, ⟨hdone, hfound⟩, _⟩ =>
          ⟨⟨_, hisActive, hsome, hdone, rfl⟩, hfound⟩
      · exact fun ⟨⟨_, hisActive, hsome, hdone, _⟩, hfound⟩ =>
          ⟨_, hisActive, hsome, ⟨hdone, hfound⟩, rfl⟩
    · intro r r' ⟨_, _, _, hr⟩ ⟨_, _, _, hr'⟩
      rw [hr, hr']
      exact ⟨hcd'.solver.holes.deref hxy.1, hcd'.solver.holes.deref hxy.2⟩

end Check

end Implicits
