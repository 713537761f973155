import Implicits.Proofs.Solver.Steps

/-!
Undoing a speculative step. Every operation on a solver leaves its changes on record, whatever
terms, holes and declarations it works on and whether it succeeds or fails. So does a script of
operations in which speculative blocks are nested. A rollback therefore restores all but the supply
of level variables.
-/
namespace Implicits

namespace Solve

def IsRecorded {α : Type} (x : Solve α) : Prop :=
  ∀ s : Solver, Ends x s (fun _ s' => s.Tracked s') fun _ s' => s.Tracked s'

namespace IsRecorded

variable {α β : Type} {x : Solve α}

theorem bind {f : α → Solve β} (hx : IsRecorded x) (hf : ∀ a, IsRecorded (f a)) :
    IsRecorded (x >>= f) := Leads.bind .tracked hx hf

theorem freshLevel : IsRecorded freshLevel := Leads.freshLevel .tracked

theorem lookupSignature? (env : Declarations) (name : String) :
    IsRecorded (lookupSignature? env name) := Leads.lookupSignature? .tracked env name

/-- An attempt is on record as a whole, whether it is kept or undone. -/
theorem attempt (hx : IsRecorded x) : IsRecorded (attempt x) := Leads.attempt .tracked hx

theorem tracked (hx : IsRecorded x) (s : Solver) : s.Tracked (x.run s).2 := Leads.run hx s

theorem run (hx : IsRecorded x) (s : Solver) : s.Recorded (x.run s).2 := (hx.tracked s).toRecorded

end IsRecorded

section Typing

variable {env : Declarations}

theorem typeOf_recorded (hyps : Context) (t : Term) : IsRecorded (typeOf env hyps t) :=
  typeOf_leads .tracked hyps t

theorem levelOf_recorded (hyps : Context) (t : Term) : IsRecorded (levelOf env hyps t) :=
  levelOf_leads .tracked hyps t

end Typing

section Unify

variable {env : Declarations} {recur : Context → Term → Term → Solve Unit}

theorem unifyForms_recorded (hrecur : ∀ hyps a b, IsRecorded (recur hyps a b)) (hyps : Context)
    (a b : Term) : IsRecorded (unifyForms recur hyps a b) :=
  unifyForms_leads .tracked hrecur hyps a b

theorem unifyN_recorded (n : Nat) (hyps : Context) (a b : Term) :
    IsRecorded (unifyN env n hyps a b) := unifyN_leads .tracked n hyps a b

theorem unify_recorded (hyps : Context) (a b : Term) : IsRecorded (unify env hyps a b) :=
  unify_leads .tracked hyps a b

theorem subsume_recorded (hyps : Context) (a b : Term) : IsRecorded (subsume env hyps a b) :=
  subsume_leads .tracked hyps a b

end Unify

end Solve

inductive Operation where
  | unify (env : Declarations) (hyps : Context) (a b : Term)
  | subsume (env : Declarations) (hyps : Context) (actual expected : Term)
  | tryUnify (env : Declarations) (hyps : Context) (a b : Term)
  | trySubsume (env : Declarations) (hyps : Context) (actual expected : Term)
  | typeOf (env : Declarations) (hyps : Context) (t : Term)
  | levelOf (env : Declarations) (hyps : Context) (t : Term)
  | importSignature (sig : Signature)
  | lookupSignature (env : Declarations) (name : String)

def Operation.perform (s : Solver) : Operation → Solver
  | unify env hyps a b => ((Solve.unify env hyps a b).run s).2
  | subsume env hyps actual expected => ((Solve.subsume env hyps actual expected).run s).2
  | tryUnify env hyps a b => ((Solve.tryUnify env hyps a b).run s).2
  | trySubsume env hyps actual expected => ((Solve.trySubsume env hyps actual expected).run s).2
  | typeOf env hyps t => ((Solve.typeOf env hyps t).run s).2
  | levelOf env hyps t => ((Solve.levelOf env hyps t).run s).2
  | importSignature sig => s.importSignature sig
  | lookupSignature env name => ((Solve.lookupSignature? env name).run s).2

theorem Operation.perform_recorded (s : Solver) (op : Operation) : s.Recorded (op.perform s) := by
  cases op with
  | unify env hyps a b => exact (Solve.unify_recorded hyps a b).run s
  | subsume env hyps actual expected => exact (Solve.subsume_recorded hyps actual expected).run s
  | tryUnify env hyps a b => exact (Solve.unify_recorded hyps a b).attempt.run s
  | trySubsume env hyps actual expected =>
    exact (Solve.subsume_recorded hyps actual expected).attempt.run s
  | typeOf env hyps t => exact (Solve.typeOf_recorded hyps t).run s
  | levelOf env hyps t => exact (Solve.levelOf_recorded hyps t).run s
  | importSignature sig => exact .importSignature s sig
  | lookupSignature env name => exact (Solve.IsRecorded.lookupSignature? env name).run s

/-- A sequence of operations and of speculative blocks, which are kept or undone at their end. -/
inductive Script where
  | done
  | call (op : Operation) (rest : Script)
  | block (body : Script) (keep : Bool) (rest : Script)

def Script.perform : Script → Solver → Solver
  | done, s => s
  | call op rest, s => rest.perform (op.perform s)
  | block body keep rest, s =>
    let s' := body.perform s.speculate
    rest.perform (if keep then s'.commit s.mark else s'.rollback s.mark)

/-- A script leaves its changes on record. -/
theorem Script.perform_recorded (script : Script) (s : Solver) : s.Recorded (script.perform s) := by
  induction script generalizing s with
  | done => exact .refl s
  | call op rest ih => exact (op.perform_recorded s).trans (ih _)
  | block body keep rest ihbody ihrest =>
    have hbody := ihbody s.speculate
    cases keep with
    | true => exact hbody.of_commit.trans (ihrest _)
    | false => exact hbody.of_rollback.trans (ihrest _)

/-- Two states that differ at most in the supply of level variables, which is not behind in the
second. -/
def Solver.Restored (s s' : Solver) : Prop :=
  s.levels.issued <:+ s'.levels.issued ∧
    s' = { s with levels := { s.levels with issued := s'.levels.issued } }

theorem Solver.Recorded.restored {s s' : Solver} (h : s.speculate.Recorded s') :
    s.Restored (s'.rollback s.mark) := by
  refine ⟨h.of_rollback.levels.issued, ?_⟩
  rw [h.rollback]

/-- An attempt that fails restores the state. -/
theorem Solve.IsRecorded.restored_of_attempt {α : Type} {x : Solve α} (hx : IsRecorded x)
    {s s' : Solver} {e : Fault} (hrun : (Solve.attempt x).run s = (.error e, s')) :
    s.Restored s' := by
  have hends : Ends (Solve.attempt x) s (fun _ _ => True) fun _ s' => s.Restored s' := by
    rw [ends_attempt]
    exact (hx s.speculate).mono (fun _ _ _ => trivial) fun _ _ h => h.toRecorded.restored
  exact hends.of_error hrun

/-- Rollback is exact: after any script of operations and nested blocks it leads back to the state
in which the speculative step began, up to the supply of level variables. So does a failed attempt
to unify two terms or to use one where another is expected. -/
theorem Solver.rollback_exact (s : Solver) :
    (∀ script : Script, s.Restored ((script.perform s.speculate).rollback s.mark)) ∧
    (∀ env hyps a b e s', (Solve.tryUnify env hyps a b).run s = (.error e, s') → s.Restored s') ∧
    ∀ env hyps a b e s', (Solve.trySubsume env hyps a b).run s = (.error e, s') →
    s.Restored s' := by
  refine ⟨fun script => ?_, fun env hyps a b e s' hrun => ?_, fun env hyps a b e s' hrun => ?_⟩
  · exact (script.perform_recorded s.speculate).restored
  · exact (Solve.unify_recorded hyps a b).restored_of_attempt hrun
  · exact (Solve.subsume_recorded hyps a b).restored_of_attempt hrun

def oneHole : Solver := (Solver.addHole {} "x" .missing).2

def pair (x y : Term) : Term := .app (.const "pair") [x, y]

/-- Pairs whose second parts differ: unification solves the hole in the first one before it fails,
and an attempt takes the solution back. -/
theorem rollback_exact_pairs : ∃ e s',
    (Solve.tryUnify {} {} (pair (.hole 0) (.const "c")) (pair (.bound "y") (.const "d"))).run
      oneHole =
      (.error e, s') ∧ oneHole.Restored s' ∧
    (((Solve.unify {} {} (pair (.hole 0) (.const "c"))
      (pair (.bound "y") (.const "d"))).run oneHole).2.holes.solution? 0).isSome = true := by
  have hfails : (match ((Solve.tryUnify {} {} (pair (.hole 0) (.const "c"))
      (pair (.bound "y") (.const "d"))).run oneHole).1 with
    | .ok _ => false
    | .error _ => true) = true := by decide +kernel
  generalize hrun : (Solve.tryUnify {} {} (pair (.hole 0) (.const "c"))
    (pair (.bound "y") (.const "d"))).run oneHole = r at hfails ⊢
  obtain ⟨e | _, s'⟩ := r
  · exact ⟨e, s', rfl, (Solver.rollback_exact oneHole).2.1 _ _ _ _ e s' hrun, by decide +kernel⟩
  · simp at hfails

end Implicits
