import Implicits.Proofs.Checker.Advance
import Implicits.Session

/-!
A call that succeeds leaves no unexplained hole. Every hole made in a unit is solved, or waits, or
is the value of an open obligation; the end of a call settles those that wait. What a call gives
back is read through the table of holes, so that only open holes are left in it.
-/
namespace Implicits

open Term

namespace Checker

/-- An open hole that some open obligation has for its value, after following solutions. -/
def Explains (c : Checker) (i : HoleId) : Prop :=
  c.solver.holes.solution? i = none ∧
    ∃ ob ∈ c.openObligations, c.solver.holes.follow ob.value = .hole i

structure Accounts (σ : Scope) (c : Checker) : Prop where
  sound : c.solver.Sound σ
  accounted : c.AccountedFrom σ.base
  strict : c.options.deferUnresolved = false → c.openObligations = []

/-- What is known after a call: every open hole of the unit is the value of an open obligation. -/
structure Finished (σ : Scope) (c : Checker) : Prop where
  sound : c.solver.Sound σ
  explained : ∀ i, σ.base ≤ i → i < c.solver.holes.size → c.solver.holes.solution? i = none →
    ∃ ob ∈ c.openObligations, ob.value = .hole i
  strict : c.options.deferUnresolved = false → c.openObligations = []

namespace Finished

variable {σ : Scope} {c : Checker} {t : Term}

theorem explains (hc : c.Finished σ) (hσ : σ.isSealed) (ht : t.Scoped σ c.solver.stage) {i : HoleId}
    (hi : i ∈ (c.solver.holes.deref t).holes) : c.Explains i := by
  obtain ⟨hopen, hbase, hlt⟩ := hc.sound.table.mem_holes_deref hσ ht hi
  obtain ⟨ob, hob, hvalue⟩ := hc.explained i hbase hlt hopen
  exact ⟨hopen, ob, hob, by rw [hvalue, Holes.follow_of_open hopen]⟩

theorem holeFree (hc : c.Finished σ) (hσ : σ.isSealed) (ht : t.Scoped σ c.solver.stage)
    (hstrict : c.options.deferUnresolved = false) : (c.solver.holes.deref t).HoleFree := by
  rw [HoleFree, List.eq_nil_iff_forall_not_mem]
  intro i hi
  obtain ⟨_, ob, hob, _⟩ := hc.explains hσ ht hi
  simp [hc.strict hstrict] at hob

end Finished

namespace Accounts

variable {σ : Scope} {c c' : Checker}

theorem valid (hc : c.Accounts σ) (env : Declarations) (outer : Context) :
    (Ledger.empty env σ outer).Valid c.solver := ⟨hc.sound, trivial⟩

theorem grows (hc : c.Accounts σ) (hstep : c.Grows c') (hsound : c'.solver.Sound σ)
    (hnew : c'.AccountedFrom c.solver.holes.size) : c'.Accounts σ := by
  refine ⟨hsound, hc.accounted.grows hstep hnew, fun hstrict => ?_⟩
  have hstrict' : c.options.deferUnresolved = false := hstep.options ▸ hstrict
  rw [hstep.strict hstrict', hc.strict hstrict']

/-- At the start of a unit there is nothing to account for. -/
theorem start {session : SessionId} {levels : LevelStore} (hσ : σ.base = c.solver.holes.size)
    (hsound : (c.start session levels).solver.Sound σ) : (c.start session levels).Accounts σ :=
  ⟨hsound, .of_size (Nat.le_of_eq hσ.symm), fun _ => rfl⟩

end Accounts

end Checker

namespace Check

section

variable {env : Declarations} {σ : Scope} {outer : Context} {c : Checker} {L : Ledger env σ outer}

/-- A hole that waited and is still open becomes the value of an open obligation. -/
theorem finishWaiting_checks (hc : L.Valid c.solver) (p : Pending) :
    L.Checks (finishWaiting p) c fun _ c' => c'.solver = c.solver ∧
      (c.solver.holes.solution? p.hole = none →
        ∃ ob ∈ c'.openObligations, ob.value = .hole p.hole) := by
  unfold finishWaiting
  refine (isUnsolved_checks hc p.hole).bind fun unsolved c₁ _ _ hr => ?_
  obtain ⟨rfl, hunsolved⟩ := hr
  split
  · rw [Ledger.Checks, ends_bind, ends_get, ← Ledger.Checks]
    split
    · rename_i hdefer
      refine (openObligation_checks hc p.function p.param p.hole p.context []).bind
        fun ob c₂ hc₂ hstep hob => ?_
      have hopens : c₂.Grows { c₂ with openObligations := c₂.openObligations ++ [ob] } :=
        { Checker.Grows.refl c₂ with
          openObligations := List.prefix_append _ _
          strict := fun hstrict => by simp [hstep.options, hdefer] at hstrict }
      refine ⟨hc₂, hopens, hob.1, fun hopen => ⟨ob, by simp, ?_⟩⟩
      rw [hob.2, Holes.follow_of_open hopen]
    · exact (Ledger.Checks.holes hc).bind fun _ _ hc₂ _ _ => .fail hc₂ _ _
  · rename_i hsolved
    exact .pure hc ⟨rfl, fun hopen => absurd (hunsolved hopen) hsolved⟩

theorem finishAll_checks (hc : L.Valid c.solver) (waiting : List Pending) :
    L.Checks (waiting.forM finishWaiting) c fun _ c' => c'.solver = c.solver ∧
      ∀ p ∈ waiting, c.solver.holes.solution? p.hole = none →
        ∃ ob ∈ c'.openObligations, ob.value = .hole p.hole := by
  induction waiting generalizing c with
  | nil => exact .pure hc ⟨rfl, by simp⟩
  | cons p waiting ih =>
    change L.Checks (finishWaiting p >>= fun _ => waiting.forM finishWaiting) c _
    refine (finishWaiting_checks hc p).bind fun _ c₁ hc₁ _ hp => ?_
    refine (ih hc₁).mono fun _ c₂ hstep hrest => ?_
    refine ⟨hrest.1.trans hp.1, fun q hq hopen => ?_⟩
    rcases List.mem_cons.mp hq with rfl | hq
    · obtain ⟨ob, hob, hvalue⟩ := hp.2 hopen
      exact ⟨ob, hstep.openObligations.subset hob, hvalue⟩
    · exact hrest.2 q hq (by rwa [hp.1])

theorem finishPending_carries (hc : L.Valid c.solver) : L.Carries finishPending c := by
  unfold finishPending
  rw [Ledger.Carries, ends_bind, ends_get, ends_bind, ends_modify]
  have hall : L.Carries (c.pending.forM finishWaiting) { c with pending := [] } :=
    (finishAll_checks (c := { c with pending := [] }) hc c.pending).carries
  have hcut : c.Continues { c with pending := [] } := ⟨rfl, rfl, rfl⟩
  exact Ends.mono hall (fun _ _ h => ⟨h.1, hcut.trans h.2⟩) fun _ _ h => ⟨h.1, hcut.trans h.2⟩

/-- The end of a call settles what waits. -/
theorem finishPending_finishes (hc : c.Accounts σ) :
    Ends finishPending c (fun _ c' => c'.Finished σ ∧ c'.solver = c.solver ∧
      c'.options = c.options) fun _ _ => True := by
  unfold finishPending
  rw [ends_bind, ends_get, ends_bind, ends_modify]
  apply Ends.mono (finishAll_checks (c := { c with pending := [] }) (hc.valid {} {}) c.pending)
  · rintro _ c' ⟨_, hstep, hsolver, hwaiting⟩
    dsimp only at hsolver
    refine ⟨⟨?_, ?_, ?_⟩, hsolver, hstep.options⟩
    · rw [hsolver]
      exact hc.sound
    · intro i hbase hlt hopen
      rw [hsolver] at hlt hopen
      rcases hc.accounted i hbase hlt hopen with ⟨p, hp, rfl⟩ | ⟨ob, hob, hvalue⟩
      · exact hwaiting p hp hopen
      · exact ⟨ob, hstep.openObligations.subset hob, hvalue⟩
    · intro hstrict
      have hstrict' : c.options.deferUnresolved = false := hstep.options ▸ hstrict
      rw [hstep.strict hstrict']
      exact hc.strict hstrict'
  · exact fun _ _ _ => trivial

/-- A step that accounts for its holes, followed by the end of the call. -/
theorem finishes_of_checks {α β : Type} {x : Check α} {f : α → Check β} {R : β → Checker → Prop}
    {P : α → Solver → Prop} (hc : c.Accounts σ)
    (hx : L.Checks x c fun a c' => P a c'.solver ∧ c'.AccountedFrom c.solver.holes.size)
    (hf : ∀ a c', L.Valid c'.solver → c'.Finished σ → c'.options = c.options → P a c'.solver →
      Ends (f a) c' R fun _ _ => True) :
    Ends (x >>= fun a => finishPending >>= fun _ => f a) c R fun _ _ => True := by
  rw [ends_bind]
  apply Ends.mono hx
  · rintro a c₁ ⟨hvalid, hstep, hP, hnew⟩
    rw [ends_bind]
    apply Ends.mono (finishPending_finishes (hc.grows hstep hvalid.sound hnew))
    · rintro _ c₂ ⟨hfinished, hsolver, hoptions⟩
      exact hf a c₂ (hsolver ▸ hvalid) hfinished (hoptions.trans hstep.options) (hsolver ▸ hP)
    · exact fun _ _ _ => trivial
  · exact fun _ _ _ => trivial

variable {expected : Term}

theorem elaborateAgainst_checks (henv : env.Within σ) (houter : ∀ n, outer.Scoped σ n)
    (hexpected : ∀ n, expected.Scoped σ n) {e : Expr} (he : e.Scoped σ) (hc : L.Valid c.solver) :
    L.Checks (elaborateAgainst env e outer expected) c fun r c' =>
      (r.1.Scoped σ c'.solver.stage ∧ r.2.Scoped σ c'.solver.stage) ∧
        c'.AccountedFrom c.solver.holes.size := by
  have helaborates : L.Elaborates (elaborate env e) := elaborate_elaborates henv houter he
  unfold elaborateAgainst
  split
  · refine (helaborates false c expected hc (hexpected _)).mono ?_
    exact fun r c' _ hr => ⟨⟨hr.1, hr.2.1⟩, hr.2.2⟩
  · have hsupplied : L.Elaborates (Supplied.mk e (elaborate env e)).elaborate := helaborates
    refine (checkArgument_checks henv houter hsupplied false "" hc (hexpected _)).bind
      fun term c' hc' _ hr => ?_
    exact .pure hc' ⟨⟨hr.1, hexpected _⟩, hr.2⟩

theorem elaborateTop_finishes (henv : env.Within σ) (houter : ∀ n, outer.Scoped σ n)
    (hexpected : ∀ n, expected.Scoped σ n) {e : Expr} (he : e.Scoped σ) (hc : c.Accounts σ) :
    Ends (elaborateTop env e outer expected) c (fun r c' => c'.Finished σ ∧
      c'.options = c.options ∧ ∃ t u, t.Scoped σ c'.solver.stage ∧ u.Scoped σ c'.solver.stage ∧
        r = (c'.solver.holes.deref t, c'.solver.holes.deref u)) fun _ _ => True := by
  have hvalid := hc.valid env outer
  unfold elaborateTop
  rw [ends_bind]
  apply Ends.mono (Ledger.Checks.requireActive hvalid)
  · rintro _ c₁ ⟨_, _, rfl⟩
    dsimp only
    split
    · trivial
    · refine finishes_of_checks (P := fun r s => r.1.Scoped σ s.stage ∧ r.2.Scoped σ s.stage) hc
        (elaborateAgainst_checks henv houter hexpected he hvalid) ?_
      intro r c' _ hfinished hoptions hr
      exact ⟨hfinished, hoptions, r.1, r.2, hr.1, hr.2, rfl⟩
  · exact fun _ _ _ => trivial

/-- What a call gives back is a completed call, read through the holes. -/
theorem resolveTop_finishes (henv : env.Within σ) (houter : ∀ n, outer.Scoped σ n)
    (hexpected : ∀ n, expected.Scoped σ n) {sig : Signature} (hsig : sig.Within σ)
    {args : List (Arg Expr)} (hargs : ∀ a ∈ args, a.value.Scoped σ) (hc : c.Accounts σ)
    (hvalid : L.Valid c.solver) :
    Ends (resolveTop env sig args outer expected) c (fun r c' => L.Valid c'.solver ∧
      c'.Finished σ ∧ c'.options = c.options ∧ c.solver.levels.Grows c'.solver.levels ∧
      ∃ r' : Resolved, Completes σ c.solver sig r' c'.solver ∧
        r = { r' with
          args := r'.args.map c'.solver.holes.deref
          term := c'.solver.holes.deref r'.term
          type := c'.solver.holes.deref r'.type }) fun _ _ => True := by
  have hsupplied := forall_suppliedArgs L.Elaborates fun a ha =>
    elaborate_elaborates henv houter (hargs a ha)
  unfold resolveTop
  rw [ends_bind]
  apply Ends.mono (Ledger.Checks.requireActive hvalid)
  · rintro _ c₁ ⟨_, _, rfl⟩
    have hresolve := resolve_checks henv houter hsig hsupplied (.call (.var sig.name) args) false
      hvalid (hexpected _)
    refine finishes_of_checks (P := fun r s => Completes σ c₁.solver sig r s ∧
      c₁.solver.levels.Grows s.levels) hc (hresolve.mono fun r c' hstep hr => ?_) ?_
    · exact ⟨⟨hr.1, hstep.levels⟩, hr.2⟩
    · intro r c' hvalid' hfinished hoptions hr
      exact ⟨hvalid', hfinished, hoptions, hr.2, r, hr.1, rfl⟩
  · exact fun _ _ _ => trivial

/-- A call leads to a valid state also from a unit in which other calls have failed. -/
theorem elaborateTop_carries (henv : env.Within σ) (houter : ∀ n, outer.Scoped σ n)
    (hexpected : ∀ n, expected.Scoped σ n) {e : Expr} (he : e.Scoped σ) (hc : L.Valid c.solver) :
    L.Carries (elaborateTop env e outer expected) c := by
  unfold elaborateTop
  refine (Ledger.Checks.requireActive hc).carries.bind fun _ c₁ hc₁ => ?_
  split
  · exact ⟨hc₁, .refl c₁⟩
  · refine (elaborateAgainst_checks henv houter hexpected he hc₁).carries.bind fun r c₂ hc₂ => ?_
    exact (finishPending_carries hc₂).bind fun _ c₃ hc₃ => ⟨hc₃, .refl c₃⟩

theorem resolveTop_carries (henv : env.Within σ) (houter : ∀ n, outer.Scoped σ n)
    (hexpected : ∀ n, expected.Scoped σ n) {sig : Signature} (hsig : sig.Within σ)
    {args : List (Arg Expr)} (hargs : ∀ a ∈ args, a.value.Scoped σ) (hc : L.Valid c.solver) :
    L.Carries (resolveTop env sig args outer expected) c := by
  have hsupplied := forall_suppliedArgs L.Elaborates fun a ha =>
    elaborate_elaborates henv houter (hargs a ha)
  unfold resolveTop
  refine (Ledger.Checks.requireActive hc).carries.bind fun _ c₁ hc₁ => ?_
  refine (resolve_checks henv houter hsig hsupplied (.call (.var sig.name) args) false hc₁
    (hexpected _)).carries.bind fun r c₂ hc₂ => ?_
  exact (finishPending_carries hc₂).bind fun _ c₃ hc₃ => ⟨hc₃, .refl c₃⟩

end

end Check

/-- The states of a checker in a unit, which begins with a new store, between any calls, whether
they succeed or fail. -/
inductive Checker.Begun : Checker → Prop
  | start (c : Checker) (session : SessionId) {levels : LevelStore} (hnew : levels.issued = []) :
    Begun (c.start session levels)
  | declare {c : Checker} (hc : Begun c) (own : Declarations) : Begun { c with own }
  | elaborate {c c' : Checker} {env : Declarations} {e : Expr} {hyps : Context} {expected : Term}
    {r : Except CheckError (Term × Term)} (hc : Begun c)
    (hrun : (Check.elaborateTop env e hyps expected).run c = (r, c')) : Begun c'
  | resolve {c c' : Checker} {env : Declarations} {sig : Signature} {args : List (Arg Expr)}
    {hyps : Context} {expected : Term} {r : Except CheckError Resolved} (hc : Begun c)
    (hrun : (Check.resolveTop env sig args hyps expected).run c = (r, c')) : Begun c'
  | signature {c c' : Checker} {env : Declarations} {sig : Signature}
    {r : Except CheckError Signature} (hc : Begun c)
    (hrun : (Check.checkSignature env sig).run c = (r, c')) : Begun c'
  | universes {c c' : Checker} {r : Except CheckError Assignment} (hc : Begun c)
    (hrun : Check.checkUniverses.run c = (r, c')) : Begun c'
  | unit {c c' : Checker} {outer : Declarations} {unit : SourceUnit}
    {r : Except CheckError CheckedUnit} (hc : Begun c)
    (hrun : (Check.checkUnit outer unit).run c = (r, c')) : Begun c'

namespace Checker

/-- Solving the constraints changes nothing, but a failure is kept. -/
theorem checkUniverses_ends (c : Checker) : Ends Check.checkUniverses c (fun _ c' => c' = c)
    fun _ c' => c'.solver = c.solver ∧ c.Continues c' := by
  unfold Check.checkUniverses
  rw [ends_bind, ends_get]
  dsimp only
  split
  · exact ⟨rfl, .refl c⟩
  · split
    · rfl
    · exact ⟨rfl, rfl, rfl, rfl⟩

/-- What is known between calls: level variables are numbered in the order in which they were handed
out, and nothing is left open by calls that may not defer. -/
structure InOrder (c : Checker) : Prop where
  numbered : LevelStore.Numbered c.solver.levels.issued
  strict : c.options.deferUnresolved = false → c.openObligations = []

theorem InOrder.run {α : Type} {decls : List String} {x : Check α} {r : Except CheckError α}
    {c c' : Checker} (hc : c.InOrder) (hx : Check.Supplying decls x) (hrun : x.run c = (r, c')) :
    c'.InOrder := by
  have hstep := hx.of_run hrun
  refine ⟨hstep.draws.numbered hc.numbered, fun hstrict => ?_⟩
  have hstrict' : c.options.deferUnresolved = false := hstep.options ▸ hstrict
  rw [hstep.strict hstrict', hc.strict hstrict']

theorem InOrder.advance {α : Type} {x : Check α} {r : Except CheckError α} {c c' : Checker}
    (hc : c.InOrder) (hx : Check.IsAdvance [] x) (hrun : x.run c = (r, c')) : c'.InOrder :=
  hc.run (.of_advance hx) hrun

theorem Begun.inOrder {c : Checker} (hc : c.Begun) : c.InOrder := by
  induction hc with
  | @start c session levels hnew =>
    have hnumbered : LevelStore.Numbered levels.issued := by
      rw [hnew]
      trivial
    exact ⟨hnumbered, fun _ => rfl⟩
  | declare _ _ ih => exact ⟨ih.numbered, ih.strict⟩
  | elaborate _ hrun ih => exact ih.advance (Check.elaborateTop_advance _ _) hrun
  | resolve _ hrun ih => exact ih.advance (Check.resolveTop_advance _ _ _) hrun
  | signature _ hrun ih =>
    exact ih.run (.of_advance (Check.checkSignature_advance (List.mem_singleton_self _))) hrun
  | universes _ hrun ih => exact ih.advance Check.checkUniverses_advance hrun
  | unit _ hrun ih => exact ih.run (Check.checkUnit_supplying _ _) hrun

end Checker

namespace Check

def listDeclarations : Declarations where
  signatures :=
    [{ name := "List", params := [⟨"A", .sort (.level (.const 0)), .explicit, none⟩],
       result := .sort (.level (.const 0)) },
     { name := "nil", params := [⟨"A", .sort (.level (.const 0)), .implicit, none⟩],
       result := .app (.const "List") [.bound "A"] },
     { name := "length",
       params := [⟨"A", .sort (.level (.const 0)), .implicit, none⟩,
         ⟨"xs", .app (.const "List") [.bound "A"], .explicit, none⟩],
       result := .const "Int" }]

end Check

end Implicits
