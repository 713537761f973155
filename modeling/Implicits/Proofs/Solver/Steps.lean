import Implicits.Proofs.Outcome
import Implicits.Proofs.Solver.Inference
import Implicits.Proofs.Solver.State
import Implicits.Solver.Unify

/-!
Typing and unification as sequences of small changes. Typing adds to the level store and takes over
the constraints of signatures, and does nothing else. So every relation between states that is
reflexive and transitive and holds for these two changes holds between the states before and behind
a typing step, whether the step succeeds or fails. Unification also solves holes at the ends of
chains, and keeps or undoes what it attempted; a relation that allows for this holds between the
states before and behind it.
-/
namespace Implicits

/-- A relation between an earlier and a later state that any sequence of changes to levels and
imports keeps. -/
structure Solver.Admits (R : Solver → Solver → Prop) : Prop where
  refl : ∀ s, R s s
  trans : ∀ {s s' s''}, R s s' → R s' s'' → R s s''
  levels : ∀ {s : Solver} {levels : LevelStore}, s.levels.Grows levels → s.levels.Draws [] levels →
    R s { s with levels }
  importSignature : ∀ (s : Solver) (sig : Signature), R s (s.importSignature sig)

structure Solver.Tracked (s s' : Solver) : Prop extends Solver.Recorded s s' where
  draws : s.levels.Draws [] s'.levels

theorem Solver.Admits.tracked : Solver.Admits Solver.Tracked where
  refl s := ⟨.refl s, .refl _⟩
  trans h h' := ⟨h.toRecorded.trans h'.toRecorded, h.draws.trans h'.draws⟩
  levels hgrows hdraws := ⟨.of_levels hgrows, hdraws⟩
  importSignature s sig := by
    refine ⟨.importSignature s sig, ?_⟩
    unfold Solver.importSignature
    split
    · exact .refl _
    · exact .importAll _ _

theorem Solver.holes_importSignature (s : Solver) (sig : Signature) :
    (s.importSignature sig).holes = s.holes := by
  unfold Solver.importSignature
  split
  · rfl
  · rfl

/-- The changes leave the holes alone. -/
theorem Solver.Admits.sameHoles {R : Solver → Solver → Prop} (hR : Solver.Admits R) :
    Solver.Admits fun s s' => s'.holes = s.holes ∧ R s s' where
  refl s := ⟨rfl, hR.refl s⟩
  trans h h' := ⟨h'.1.trans h.1, hR.trans h.2 h'.2⟩
  levels hgrows hdraws := ⟨rfl, hR.levels hgrows hdraws⟩
  importSignature s sig := ⟨s.holes_importSignature sig, hR.importSignature s sig⟩

/-- A relation between an earlier and a later state that the changes of unification keep as well. A
hole is solved at the end of a chain by the end of another one. What was attempted is kept or
undone. -/
structure Solver.AdmitsSolving (R : Solver → Solver → Prop) : Prop extends Solver.Admits R where
  solve : ∀ {s : Solver} {a : Term} {id : HoleId} (b : Term), s.holes.follow a = .hole id →
    R s (s.solve id (s.holes.follow b))
  commit : ∀ {s s' : Solver}, R s.speculate s' → R s (s'.commit s.mark)
  rollback : ∀ {s s' : Solver}, R s.speculate s' → R s (s'.rollback s.mark)

/-- Undoing a step takes no variable back. -/
theorem Solver.AdmitsSolving.tracked : Solver.AdmitsSolving Solver.Tracked where
  toAdmits := .tracked
  solve _ _ := ⟨.solve _ _ _, .refl _⟩
  commit h := ⟨h.toRecorded.of_commit, h.draws⟩
  rollback h :=
    ⟨h.toRecorded.of_rollback, h.draws.owner, h.draws.ofDecl, h.draws.numbered, h.draws.names⟩

namespace Solve

def Leads {α : Type} (R : Solver → Solver → Prop) (x : Solve α) : Prop :=
  ∀ s : Solver, Ends x s (fun _ s' => R s s') fun _ s' => R s s'

namespace Leads

variable {α β : Type} {R : Solver → Solver → Prop} {x : Solve α}

theorem run (hx : Leads R x) (s : Solver) : R s (x.run s).2 := by
  have hends := hx s
  unfold Ends at hends
  generalize x.run s = r at hends ⊢
  obtain ⟨e | a, s'⟩ := r
  · exact hends
  · exact hends

section Rules

variable (hR : Solver.Admits R)

include hR

theorem pure (a : α) : Leads R (pure a : Solve α) := fun s => hR.refl s

theorem throw (e : Fault) : Leads R (throw e : Solve α) := fun s => hR.refl s

theorem holes : Leads R Solve.holes := fun s => hR.refl s

theorem text (t : Term) : Leads R (Solve.text t) := fun s => hR.refl s

theorem bind {f : α → Solve β} (hx : Leads R x) (hf : ∀ a, Leads R (f a)) : Leads R (x >>= f) := by
  intro s
  rw [ends_bind]
  apply (hx s).mono
  · intro a s' hstep
    exact (hf a s').mono (fun _ _ h => hR.trans hstep h) fun _ _ h => hR.trans hstep h
  · exact fun _ _ h => h

theorem tryCatch {f : Fault → Solve α} (hx : Leads R x) (hf : ∀ e, Leads R (f e)) :
    Leads R (tryCatch x f) := by
  intro s
  rw [ends_tryCatch]
  apply (hx s).mono
  · exact fun _ _ h => h
  · intro e s' hstep
    exact (hf e s').mono (fun _ _ h => hR.trans hstep h) fun _ _ h => hR.trans hstep h

theorem modifyLevels {f : LevelStore → LevelStore} (hf : ∀ store, LevelStore.Grows store (f store))
    (hdraws : ∀ store, LevelStore.Draws [] store (f store)) : Leads R (modifyLevels f) :=
  fun s => hR.levels (hf s.levels) (hdraws s.levels)

theorem freshLevel : Leads R freshLevel := fun s => hR.levels (.fresh s.levels) (.fresh s.levels)

theorem lookupSignature? (env : Declarations) (name : String) :
    Leads R (lookupSignature? env name) := by
  intro s
  unfold Solve.lookupSignature?
  split
  · exact hR.refl s
  · exact hR.importSignature s _

end Rules

end Leads

section Typing

variable {R : Solver → Solver → Prop} {env : Declarations}
  {levelOfType : Context → Term → Solve Level} (hR : Solver.Admits R)

include hR

theorem asUniverse_leads (t type : Term) : Leads R (asUniverse env t type) := by
  unfold asUniverse
  refine .bind hR (.holes hR) fun h => ?_
  split
  · exact .pure hR _
  · exact .bind hR (.text hR t) fun _ => .throw hR _
  · exact .bind hR (.text hR t) fun _ => .throw hR _

theorem applyType_leads (fn fnType : Term) (args : List Term) :
    Leads R (applyType env fn fnType args) := by
  have hrefuse : Leads R (do throw (.notApplicable (← text fn) (← text fnType)
      (← text (.app fn args))) : Solve Term) :=
    .bind hR (.text hR fn) fun _ => .bind hR (.text hR fnType) fun _ =>
      .bind hR (.text hR _) fun _ => .throw hR _
  unfold applyType
  refine .bind hR (.holes hR) fun h => ?_
  split
  · split
    · exact hrefuse
    · exact .pure hR _
  · exact hrefuse

theorem universeAbove_leads (l : Level) : Leads R (universeAbove l) :=
  .bind hR (.freshLevel hR) fun above =>
    .bind hR (.modifyLevels hR (fun store => .lt store l above _) fun store => .add store _)
      fun _ => .pure hR _

theorem inferBelow_leads {level : Level} {hyps : Context} {t : Term}
    (ht : Leads R (infer env levelOfType hyps t)) (origin : String → String) :
    Leads R (inferBelow env levelOfType level hyps t origin) := by
  refine .bind hR ht fun type => ?_
  refine .bind hR (asUniverse_leads hR t type) fun lo => ?_
  exact .bind hR (.text hR t) fun shown =>
    .modifyLevels hR (fun store => .le store lo level _) fun store => .add store _

theorem inferParts_leads {level : Level} {params : List (Param Term)} {result : Term}
    (hparams : ∀ p ∈ params, ∀ hyps, Leads R (infer env levelOfType hyps p.type))
    (hresult : ∀ hyps, Leads R (infer env levelOfType hyps result)) (hyps : Context) :
    Leads R (inferParts env levelOfType level result hyps params) := by
  induction params generalizing hyps with
  | nil => exact inferBelow_leads hR (hresult hyps) _
  | cons p params ih =>
    refine .bind hR (inferBelow_leads hR (hparams p (by simp) hyps) _) fun _ => ?_
    exact ih (fun q hq => hparams q (by simp [hq])) _

theorem infer_leads (hlevel : ∀ hyps type, Leads R (levelOfType hyps type)) (t : Term)
    (hyps : Context) : Leads R (infer env levelOfType hyps t) := by
  induction t using Term.induct generalizing hyps with
  | missing => exact .bind hR (.text hR .missing) fun _ => .throw hR _
  | const name =>
    rw [infer]
    refine .bind hR (.lookupSignature? hR env name) fun found => ?_
    split
    · exact .throw hR _
    · exact .pure hR _
  | lit text type =>
    cases type with
    | missing => exact .throw hR _
    | _ => exact .pure hR _
  | bound name =>
    rw [infer]
    split
    · exact .throw hR _
    · exact .pure hR _
  | hole id =>
    rw [infer]
    refine .bind hR (.holes hR) fun h => ?_
    split
    · exact .throw hR _
    · exact .pure hR _
  | app fn args ihf =>
    rw [infer]
    exact .bind hR (ihf hyps) fun fnType => applyType_leads hR fn fnType args
  | pi params result ihparams ihr =>
    rw [infer_pi]
    exact .bind hR (.freshLevel hR) fun level =>
      .bind hR (inferParts_leads hR (fun p hp => ihparams p hp) ihr hyps) fun _ => .pure hR _
  | sort u =>
    cases u with
    | unassigned k => exact .throw hR _
    | level l =>
      rw [infer_universe]
      split
      · exact universeAbove_leads hR l
      · exact .throw hR _
  | eq lhs rhs ihl =>
    rw [infer]
    exact .bind hR (ihl hyps) fun type => .bind hR (hlevel hyps type) fun l => .pure hR _
  | refl value => exact .pure hR _

theorem typeOfN_leads (n : Nat) (hyps : Context) (t : Term) : Leads R (typeOfN env n hyps t) := by
  induction n generalizing hyps t with
  | zero => exact .throw hR _
  | succ n ih =>
    rw [typeOfN]
    refine .bind hR (.holes hR) fun h => infer_leads hR (fun hyps type => ?_) _ hyps
    exact .bind hR (ih hyps type) fun found => asUniverse_leads hR type found

theorem typeOf_leads (hyps : Context) (t : Term) : Leads R (typeOf env hyps t) :=
  .bind hR (.holes hR) fun _ => typeOfN_leads hR _ hyps t

theorem levelOf_leads (hyps : Context) (t : Term) : Leads R (levelOf env hyps t) :=
  .bind hR (typeOf_leads hR hyps t) fun type => asUniverse_leads hR t type

end Typing

section Unify

variable {R : Solver → Solver → Prop} {env : Declarations}
  {recur : Context → Term → Term → Solve Unit} (hR : Solver.AdmitsSolving R)

include hR

/-- An attempt leads to a related state, whether it is kept or undone. -/
theorem Leads.attempt {α : Type} {x : Solve α} (hx : Leads R x) : Leads R (attempt x) := by
  intro s
  rw [ends_attempt]
  exact (hx s.speculate).mono (fun _ _ h => hR.commit h) fun _ _ h => hR.rollback h

theorem mismatch_leads {α : Type} (a b : Term) : Leads R (mismatch a b : Solve α) :=
  have hR := hR.toAdmits
  .bind hR (.text hR a) fun _ => .bind hR (.text hR b) fun _ => .throw hR _

/-- Finding the level of a solution leaves the holes alone, so the hole is still at the end of its
chain when it is solved. -/
theorem bind_leads {s : Solver} {a : Term} {id : HoleId}
    (hid : s.holes.follow a = .hole id) (b : Term) (hyps : Context) :
    Ends (bind env hyps id (s.holes.follow b)) s (fun _ s' => R s s')
      fun _ s' => R s s' := by
  have hsolve : ∀ s', s'.holes = s.holes ∧ R s s' → R s (s'.solve id (s.holes.follow b)) := by
    rintro s' ⟨hholes, hstep⟩
    rw [← hholes] at hid ⊢
    exact hR.trans hstep (hR.solve b hid)
  have hS := hR.sameHoles
  unfold bind
  rw [ends_bind, ends_holes]
  dsimp only
  split
  · exact (Leads.text hR.toAdmits _).bind hR.toAdmits (fun _ => .throw hR.toAdmits _) s
  · split
    · exact hsolve s ⟨rfl, hR.refl s⟩
    · rename_i l _
      have hlevel : Leads _ (do
          let level ← tryCatch (levelOf env hyps (s.holes.follow b)) fun e => do
            throw (.badSolution (s.holes.name id) (← text (s.holes.follow b)) e)
          modifyLevels
            (·.le level l ("solution of ?" ++ s.holes.name id ++ " : Type " ++ l.text))) :=
        .bind hS (.tryCatch hS (levelOf_leads hS hyps _) fun e =>
          .bind hS (.text hS _) fun _ => .throw hS _) fun level =>
            .modifyLevels hS (fun store => .le store _ _ _) fun store => .add store _
      have hstep := hlevel s
      rw [ends_bind] at hstep
      rw [ends_bind]
      refine hstep.mono (fun level s₁ h₁ => ?_) fun _ _ h => h.2
      rw [ends_bind]
      exact h₁.mono (fun _ s₂ h₂ => hsolve s₂ h₂) fun _ _ h => h.2

theorem unifyUniverses_leads (u v : Universe) : Leads R (unifyUniverses u v) := by
  unfold unifyUniverses
  split
  · split
    · exact .pure hR.toAdmits _
    · exact mismatch_leads hR _ _
  · exact .modifyLevels hR.toAdmits (fun store => .equate store _ _ _)
      fun store => .equate store _ _ _
  · split
    · exact .pure hR.toAdmits _
    · exact .throw hR.toAdmits _

theorem unifyArgs_leads {recur : Term → Term → Solve Unit} (hrecur : ∀ a b, Leads R (recur a b))
    (as bs : List Term) : Leads R (unifyArgs recur as bs) := by
  induction as generalizing bs with
  | nil => exact .pure hR.toAdmits _
  | cons a as ih =>
    cases bs with
    | nil => exact .pure hR.toAdmits _
    | cons b bs => exact .bind hR.toAdmits (hrecur a b) fun _ => ih bs

theorem unifyParams_leads (hrecur : ∀ hyps a b, Leads R (recur hyps a b)) {whole : Solve Unit}
    (hwhole : Leads R whole) (hyps : Context) (names : Substitution) (ps qs : List (Param Term)) :
    Leads R (unifyParams recur whole hyps names ps qs) := by
  induction ps generalizing qs hyps names with
  | nil => exact .pure hR.toAdmits _
  | cons p ps ih =>
    cases qs with
    | nil => exact .pure hR.toAdmits _
    | cons q qs =>
      have hrest : Leads R (do
          recur hyps p.type ((← holes).subst names q.type)
          unifyParams recur whole (hyps.extend p.name p.type) ((q.name, .bound p.name) :: names)
            ps qs) :=
        .bind hR.toAdmits (.holes hR.toAdmits) fun h =>
          .bind hR.toAdmits (hrecur _ _ _) fun _ => ih _ _ qs
      rw [unifyParams]
      split
      · exact .bind hR.toAdmits hwhole fun _ => hrest
      · exact hrest

theorem unifyForms_leads (hrecur : ∀ hyps a b, Leads R (recur hyps a b)) (hyps : Context)
    (a b : Term) : Leads R (unifyForms recur hyps a b) := by
  unfold unifyForms
  split
  · exact .pure hR.toAdmits _
  · split
    · exact .pure hR.toAdmits _
    · exact mismatch_leads hR _ _
  · split
    · exact .pure hR.toAdmits _
    · exact mismatch_leads hR _ _
  · split
    · exact .pure hR.toAdmits _
    · exact mismatch_leads hR _ _
  · split
    · exact .bind hR.toAdmits (hrecur _ _ _) fun _ => unifyArgs_leads hR (hrecur hyps) _ _
    · exact mismatch_leads hR _ _
  · split
    · exact .bind hR.toAdmits (unifyParams_leads hR hrecur (mismatch_leads hR _ _) _ _ _ _) fun r =>
        .bind hR.toAdmits (.holes hR.toAdmits) fun h => hrecur _ _ _
    · exact mismatch_leads hR _ _
  · exact unifyUniverses_leads hR _ _
  · exact .bind hR.toAdmits (hrecur _ _ _) fun _ => hrecur _ _ _
  · exact hrecur _ _ _
  · exact mismatch_leads hR _ _

theorem unifyHeads_leads {compare : Term → Term → Solve Unit}
    (hcompare : ∀ a b, Leads R (compare a b)) (hyps : Context) (a b : Term) :
    Leads R (unifyHeads env compare hyps a b) := by
  intro s
  unfold unifyHeads
  rw [ends_bind, ends_holes]
  split
  · rename_i v w hv hw
    split
    · exact hR.refl s
    · rw [← hw]
      exact bind_leads hR hv b hyps
  · rename_i v hv _
    exact bind_leads hR hv b hyps
  · rename_i w hw _
    exact bind_leads hR hw a hyps
  · exact hcompare _ _ s

theorem unifyNormalN_leads (n : Nat) (hyps : Context) (a b : Term) :
    Leads R (unifyNormalN env n hyps a b) := by
  induction n generalizing hyps a b with
  | zero => exact .throw hR.toAdmits _
  | succ n ih => exact unifyHeads_leads hR (unifyForms_leads hR ih hyps) hyps a b

theorem unifyNormal_leads (hyps : Context) (a b : Term) : Leads R (unifyNormal env hyps a b) :=
  .bind hR.toAdmits (.holes hR.toAdmits) fun _ => unifyNormalN_leads hR _ hyps a b

theorem unifyN_leads (n : Nat) (hyps : Context) (a b : Term) : Leads R (unifyN env n hyps a b) := by
  induction n generalizing hyps a b with
  | zero => exact .throw hR.toAdmits _
  | succ n ih =>
    refine unifyHeads_leads hR (fun a b => ?_) hyps a b
    exact .tryCatch hR.toAdmits (.attempt hR (unifyForms_leads hR ih hyps a b)) fun _ =>
      .bind hR.toAdmits (.holes hR.toAdmits) fun h => unifyNormal_leads hR hyps _ _

theorem unify_leads (hyps : Context) (a b : Term) : Leads R (unify env hyps a b) :=
  .bind hR.toAdmits (.holes hR.toAdmits) fun _ => unifyN_leads hR _ hyps a b

theorem subsume_leads (hyps : Context) (a b : Term) : Leads R (subsume env hyps a b) := by
  unfold subsume
  refine .bind hR.toAdmits (.holes hR.toAdmits) fun h => ?_
  split
  · exact .modifyLevels hR.toAdmits (fun store => .le store _ _ _) fun store => .add store _
  · exact unify_leads hR hyps a b

end Unify

end Solve

end Implicits
