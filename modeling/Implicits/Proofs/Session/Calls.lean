import Implicits.Proofs.Checker.Obligations
import Implicits.Session

/-!
Calls of a checker and what they give back, and declarations, sessions and calls without holes.
-/
namespace Implicits

open Term

inductive Call where
  | begin (session : SessionId) (owner : String)
  | elaborate (e : Expr) (hyps : Context) (expected : Term)
  | resolve (sig : Signature) (args : List (Arg Expr)) (hyps : Context) (expected : Term)
  | signature (sig : Signature)
  | unit (session : SessionId) (u : SourceUnit)
  | universes

inductive Answer where
  | begun
  | elaborated (term type : Term)
  | resolved (r : Resolved)
  | signature (checked : Signature)
  | unit (checked : CheckedUnit)
  | levels (a : Assignment)

def Answer.ofRun {α : Type} (f : α → Answer) (r : Except CheckError α × Checker) :
    Except CheckError Answer × Checker := (r.1.map f, r.2)

def Call.run (t : Sessions) (c : Checker) : Call → Except CheckError Answer × Checker
  | .begin session owner => (.ok .begun, c.start session { owner })
  | .elaborate e hyps expected =>
    Answer.ofRun (fun r => .elaborated r.1 r.2)
      ((Check.elaborateTop (t.environment c) e hyps expected).run c)
  | .resolve sig args hyps expected =>
    Answer.ofRun .resolved ((Check.resolveTop (t.environment c) sig args hyps expected).run c)
  | .signature sig => Answer.ofRun .signature ((Check.checkSignature (t.environment c) sig).run c)
  | .unit session u => Answer.ofRun .unit (t.checkUnit session c u)
  | .universes => Answer.ofRun .levels (Check.checkUniverses.run c)

structure Declaration.HoleFree (d : Declaration) : Prop where
  signature : ∀ sig, d.signature = some sig → sig.HoleFree
  body : d.body.HoleFree

def Call.HoleFree : Call → Prop
  | .begin _ _ => True
  | .elaborate e hyps expected => e.HoleFree ∧ hyps.HoleFree ∧ expected.HoleFree
  | .resolve sig args hyps expected =>
    sig.HoleFree ∧ (∀ a ∈ args, a.value.HoleFree) ∧ hyps.HoleFree ∧ expected.HoleFree
  | .signature sig => sig.HoleFree
  | .unit _ u => ∀ d ∈ u.declarations, d.HoleFree
  | .universes => True

def Sessions.HoleFree (t : Sessions) : Prop := ∀ id, (t.visible id).HoleFree

namespace Declarations

variable {env inner outer : Declarations}

theorem holeFree_empty : ({} : Declarations).HoleFree := ⟨by simp, by simp, by simp⟩

theorem HoleFree.append (hinner : inner.HoleFree) (houter : outer.HoleFree) :
    (inner.append outer).HoleFree where
  signature := List.forall_mem_append.mpr ⟨hinner.signature, houter.signature⟩
  reduction := List.forall_mem_append.mpr ⟨hinner.reduction, houter.reduction⟩
  conversion := List.forall_mem_append.mpr ⟨hinner.conversion, houter.conversion⟩

end Declarations

theorem Signature.ClosedOver.holeFree {P : LevelVar → Prop} {sig : Signature}
    (h : sig.ClosedOver P) : sig.HoleFree := h.pi.holeFree

theorem Context.HoleFree.params {hyps : Context} (h : hyps.HoleFree) {ps : List (Param Term)}
    (hps : ∀ p ∈ ps, p.type.HoleFree) :
    (ps.foldl (fun hyps p => hyps.extend p.name p.type) hyps).HoleFree := by
  induction ps generalizing hyps with
  | nil => exact h
  | cons p ps ih =>
    have hextend : (hyps.extend p.name p.type).HoleFree :=
      List.forall_mem_cons.mpr ⟨hps p (by simp), h⟩
    exact ih hextend fun q hq => hps q (by simp [hq])

theorem Checker.Continues.environment {c c' : Checker} (h : c.Continues c') (t : Sessions) :
    t.environment c' = t.environment c := by
  rw [Sessions.environment, Sessions.environment, h.session, h.own]

end Implicits
