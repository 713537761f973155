import Implicits.Proofs.Simulation
import Implicits.Proofs.Solver.Lives
import Implicits.Proofs.Solver.Rollback

/-!
Unification is blind to levels. Two solvers with the same holes and the same things to undo may have
collected different constraints, imported different signatures and come to different numbers of
level variables. Still they unify the same terms with the same outcome and solve the same holes by
the same terms. The types that are found on the way differ at most in level variables, and such a
type is a universe.
-/
namespace Implicits

open Term

inductive Level.Resembles : Level → Level → Prop
  | refl (l : Level) : Resembles l l
  | vars (v w : LevelVar) : Resembles (.var v) (.var w)

inductive Term.Resembles : Term → Term → Prop
  | refl (t : Term) : Resembles t t
  | sorts (v w : LevelVar) : Resembles (.sort (.level (.var v))) (.sort (.level (.var w)))

theorem Level.Resembles.sort {l m : Level} (hlm : l.Resembles m) :
    Term.Resembles (.sort (.level l)) (.sort (.level m)) := by
  cases hlm with
  | refl => exact .refl _
  | vars v w => exact .sorts v w

theorem Holes.normalize_sort (h : Holes) (env : Declarations) (u : Universe) :
    h.normalize env (.sort u) = .sort u := by
  rw [normalize, normalizeCount, normalizeN, expand_sort, normalizeWith]

structure Solver.SameHoles (s t : Solver) : Prop where
  holes : s.holes = t.holes
  stash : s.stash = t.stash
  speculative : s.speculative = t.speculative

namespace Solver.SameHoles

variable {s t s' t' : Solver}

theorem importSignature (h : s.SameHoles t) (sig : Signature) :
    (s.importSignature sig).SameHoles (t.importSignature sig) := by
  have hleft (s : Solver) : s.SameHoles (s.importSignature sig) := by
    unfold Solver.importSignature
    split
    · exact ⟨rfl, rfl, rfl⟩
    · exact ⟨rfl, rfl, rfl⟩
  exact ⟨(hleft s).holes.symm.trans (h.holes.trans (hleft t).holes),
    (hleft s).stash.symm.trans (h.stash.trans (hleft t).stash),
    (hleft s).speculative.symm.trans (h.speculative.trans (hleft t).speculative)⟩

theorem speculate (h : s.SameHoles t) : s.speculate.SameHoles t.speculate := ⟨h.holes, h.stash, rfl⟩

theorem solve (h : s.SameHoles t) (id : HoleId) (u : Term) :
    (s.solve id u).SameHoles (t.solve id u) where
  holes := by simp only [Solver.solve, h.holes]
  stash := by simp only [Solver.solve, h.holes, h.stash, h.speculative]
  speculative := h.speculative

theorem commit (h : s.SameHoles t) (h' : s'.SameHoles t') :
    (s'.commit s.mark).SameHoles (t'.commit t.mark) where
  holes := h'.holes
  stash := by
    simp only [Solver.commit, mark, h.speculative, h.stash, h'.stash]
    rfl
  speculative := h.speculative

theorem rollback (h : s.SameHoles t) (h' : s'.SameHoles t') :
    (s'.rollback s.mark).SameHoles (t'.rollback t.mark) where
  holes := by simp only [Solver.rollback, mark, h.stash, h'.stash, h'.holes]
  stash := by simp only [Solver.rollback, mark, h.stash, h'.stash]
  speculative := h.speculative

end Solver.SameHoles

namespace Solve

variable {α β : Type}

abbrev LevelBlind (V : α → β → Prop) (x : Solve α) (y : Solve β) : Prop :=
  Simulates Solver.SameHoles V (fun _ _ => True) x y

theorem holes_blind : LevelBlind (· = ·) holes holes := fun _ _ hst => ⟨.ok hst.holes, hst⟩

theorem text_blind (t u : Term) : LevelBlind (fun _ _ => True) (text t) (text u) :=
  fun _ _ hst => ⟨.ok trivial, hst⟩

theorem modifyLevels_blind (f g : LevelStore → LevelStore) :
    LevelBlind (fun _ _ => True) (modifyLevels f) (modifyLevels g) :=
  Simulates.modify fun _ _ hst => ⟨hst.holes, hst.stash, hst.speculative⟩

theorem freshLevel_blind : LevelBlind Level.Resembles freshLevel freshLevel :=
  fun _ _ hst => ⟨.ok (.vars _ _), hst.holes, hst.stash, hst.speculative⟩

theorem lookupSignature?_blind (env : Declarations) (name : String) :
    LevelBlind (· = ·) (lookupSignature? env name) (lookupSignature? env name) := by
  unfold Solve.lookupSignature?
  cases env.signature? name with
  | none => exact .pure rfl
  | some sig => exact .bind (.modify fun s t hst => hst.importSignature sig) fun _ _ _ => .pure rfl

theorem attempt_blind {V : α → β → Prop} {x : Solve α} {y : Solve β} (hxy : LevelBlind V x y) :
    LevelBlind V (attempt x) (attempt y) := by
  intro s t hst
  obtain ⟨houtcome, hafter⟩ := hxy _ _ hst.speculate
  rw [run_attempt, run_attempt]
  generalize x.run s.speculate = r, y.run t.speculate = r' at houtcome hafter
  obtain ⟨u, s'⟩ := r
  obtain ⟨v, t'⟩ := r'
  cases houtcome with
  | ok hab => exact ⟨.ok hab, hst.commit hafter⟩
  | error hef => exact ⟨.error hef, hst.rollback hafter⟩

section Typing

variable {env : Declarations} {levelOfType : Context → Term → Solve Level}
    {hyps : Context} {t u : Term}

theorem asUniverse_blind (t : Term) {type type' : Term} (htype : type.Resembles type') (u : Term) :
    LevelBlind Level.Resembles (asUniverse env t type) (asUniverse env u type') := by
  unfold asUniverse
  refine .bind holes_blind fun h _ hh => ?_
  subst hh
  cases htype with
  | refl =>
    split
    · exact .pure (.refl _)
    · exact .bind (text_blind _ _) fun _ _ _ => .throw trivial
    · exact .bind (text_blind _ _) fun _ _ _ => .throw trivial
  | sorts v w =>
    rw [Holes.normalize_sort, Holes.normalize_sort]
    exact .pure (.vars v w)

/-- Universes are not applied. -/
theorem applyType_blind (fn : Term) {type type' : Term} (htype : type.Resembles type')
    (args : List Term) :
    LevelBlind Term.Resembles (applyType env fn type args) (applyType env fn type' args) := by
  have hrefuse : LevelBlind Term.Resembles
      (do throw (.notApplicable (← text fn) (← text type) (← text (.app fn args))))
      (do throw (.notApplicable (← text fn) (← text type') (← text (.app fn args)))) :=
    .bind (text_blind _ _) fun _ _ _ => .bind (text_blind _ _) fun _ _ _ =>
      .bind (text_blind _ _) fun _ _ _ => .throw trivial
  unfold applyType
  refine .bind holes_blind fun h _ hh => ?_
  subst hh
  cases htype with
  | refl =>
    split
    · split
      · exact hrefuse
      · exact .pure (.refl _)
    · exact hrefuse
  | sorts v w =>
    rw [Holes.normalize_sort, Holes.normalize_sort]
    exact hrefuse

theorem inferBelow_blind {level level' : Level} {t : Term}
    (ht : LevelBlind Term.Resembles (infer env levelOfType hyps t) (infer env levelOfType hyps t))
    (origin : String → String) :
    LevelBlind (fun _ _ => True) (inferBelow env levelOfType level hyps t origin)
      (inferBelow env levelOfType level' hyps t origin) := by
  refine .bind ht fun type type' htype => ?_
  refine .bind (asUniverse_blind _ htype _) fun lo lo' _ => ?_
  exact .bind (text_blind _ _) fun shown shown' _ => modifyLevels_blind _ _

theorem inferParts_blind {level level' : Level} {params : List (Param Term)} {result : Term}
    (hparams : ∀ p ∈ params, ∀ hyps, LevelBlind Term.Resembles (infer env levelOfType hyps p.type)
      (infer env levelOfType hyps p.type))
    (hresult : ∀ hyps, LevelBlind Term.Resembles (infer env levelOfType hyps result)
      (infer env levelOfType hyps result)) (hyps : Context) :
    LevelBlind (fun _ _ => True) (inferParts env levelOfType level result hyps params)
      (inferParts env levelOfType level' result hyps params) := by
  induction params generalizing hyps with
  | nil => exact inferBelow_blind (hresult hyps) _
  | cons p params ih =>
    refine .bind (inferBelow_blind (hparams p (by simp) hyps) _) fun _ _ _ => ?_
    exact ih (fun q hq => hparams q (by simp [hq])) _

theorem universeAbove_blind (l m : Level) :
    LevelBlind Term.Resembles (universeAbove l) (universeAbove m) :=
  .bind freshLevel_blind fun _ _ habove => .bind (modifyLevels_blind _ _)
    fun _ _ _ => .pure habove.sort

theorem infer_blind (hlevel : ∀ hyps t u, t.Resembles u →
      LevelBlind Level.Resembles (levelOfType hyps t) (levelOfType hyps u))
    (t : Term) (hyps : Context) :
    LevelBlind Term.Resembles (infer env levelOfType hyps t) (infer env levelOfType hyps t) := by
  induction t using Term.induct generalizing hyps with
  | missing => exact .bind (text_blind _ _) fun _ _ _ => .throw trivial
  | const name =>
    rw [infer]
    refine .bind (lookupSignature?_blind env name) fun found _ hfound => ?_
    subst hfound
    cases found with
    | none => exact .throw trivial
    | some sig => exact .pure (.refl _)
  | lit text type =>
    cases type with
    | missing => exact .throw trivial
    | _ => exact .pure (.refl _)
  | bound name =>
    rw [infer]
    split
    · exact .throw trivial
    · exact .pure (.refl _)
  | hole id =>
    rw [infer]
    refine .bind holes_blind fun h _ hh => ?_
    subst hh
    split
    · exact .throw trivial
    · exact .pure (.refl _)
  | app fn args ihf =>
    rw [infer]
    exact .bind (ihf hyps) fun type type' htype => applyType_blind fn htype args
  | pi params result ihparams ihr =>
    rw [infer_pi]
    refine .bind freshLevel_blind fun level level' hfresh => ?_
    exact .bind (inferParts_blind (fun p hp => ihparams p hp) ihr hyps)
      fun _ _ _ => .pure hfresh.sort
  | sort u =>
    cases u with
    | unassigned k => exact .throw trivial
    | level l =>
      rw [infer_universe]
      split
      · exact universeAbove_blind l l
      · exact .throw trivial
  | eq lhs rhs ihl =>
    rw [infer]
    refine .bind (ihl hyps) fun type type' htype => ?_
    exact .bind (hlevel hyps type type' htype) fun l m hlm => .pure hlm.sort
  | refl value => exact .pure (.refl _)

theorem typeOfN_blind (n : Nat) (hyps : Context) {t u : Term} (htu : t.Resembles u) :
    LevelBlind Term.Resembles (typeOfN env n hyps t) (typeOfN env n hyps u) := by
  induction n generalizing hyps t u with
  | zero => exact .throw trivial
  | succ n ih =>
    rw [typeOfN, typeOfN]
    refine .bind holes_blind fun h _ hh => ?_
    subst hh
    cases htu with
    | refl =>
      refine infer_blind (fun hyps t u htu => ?_) _ hyps
      exact .bind (ih hyps htu) fun type type' htype => asUniverse_blind t htype u
    | sorts v w =>
      rw [Holes.expand_sort, Holes.expand_sort]
      exact universeAbove_blind (.var v) (.var w)

theorem levelOf_blind (hyps : Context) (t : Term) :
    LevelBlind Level.Resembles (levelOf env hyps t) (levelOf env hyps t) := by
  unfold levelOf typeOf
  rw [bind_assoc]
  refine .bind holes_blind fun h _ hh => ?_
  subst hh
  exact .bind (typeOfN_blind _ hyps (.refl t)) fun type type' htype => asUniverse_blind t htype t

end Typing

section Unify

variable {env : Declarations} {recur : Context → Term → Term → Solve Unit}

def IsBlind (x : Solve Unit) : Prop := LevelBlind (fun _ _ => True) x x

theorem mismatch_blind (a b : Term) : IsBlind (mismatch a b) :=
  .bind (text_blind a a) fun _ _ _ => .bind (text_blind b b) fun _ _ _ => .throw trivial

theorem bind_blind (hyps : Context) (id : HoleId) (t : Term) : IsBlind (bind env hyps id t) := by
  have hsolve : IsBlind (modify (·.solve id t)) := .modify fun _ _ hst => hst.solve id t
  unfold IsBlind bind
  refine .bind holes_blind fun h _ hh => ?_
  subst hh
  dsimp only
  split
  · exact .bind (text_blind t t) fun _ _ _ => .throw_bind trivial _ _
  · split
    · exact hsolve
    · refine .bind (.tryCatch (levelOf_blind hyps t) fun e e' _ => ?_) fun level level' _ => ?_
      · exact .bind (text_blind t t) fun _ _ _ => .throw trivial
      · exact .bind (modifyLevels_blind _ _) fun _ _ _ => hsolve

theorem unifyUniverses_blind (u v : Universe) : IsBlind (unifyUniverses u v) := by
  unfold unifyUniverses
  split
  · split
    · exact .pure trivial
    · exact mismatch_blind _ _
  · exact modifyLevels_blind _ _
  · split
    · exact .pure trivial
    · exact .throw trivial

theorem unifyArgs_blind {recur : Term → Term → Solve Unit} (hrecur : ∀ a b, IsBlind (recur a b))
    (as bs : List Term) : IsBlind (unifyArgs recur as bs) := by
  induction as generalizing bs with
  | nil => exact .pure trivial
  | cons a as ih =>
    cases bs with
    | nil => exact .pure trivial
    | cons b bs => exact .bind (hrecur a b) fun _ _ _ => ih bs

theorem unifyParams_blind (hrecur : ∀ hyps a b, IsBlind (recur hyps a b)) {whole : Solve Unit}
    (hwhole : IsBlind whole) (hyps : Context) (names : Substitution) (ps qs : List (Param Term)) :
    LevelBlind (· = ·) (unifyParams recur whole hyps names ps qs)
      (unifyParams recur whole hyps names ps qs) := by
  induction ps generalizing qs hyps names with
  | nil => exact .pure rfl
  | cons p ps ih =>
    cases qs with
    | nil => exact .pure rfl
    | cons q qs =>
      have hrest : LevelBlind (· = ·) (do
          recur hyps p.type ((← holes).subst names q.type)
          unifyParams recur whole (hyps.extend p.name p.type) ((q.name, .bound p.name) :: names)
            ps qs) (do
          recur hyps p.type ((← holes).subst names q.type)
          unifyParams recur whole (hyps.extend p.name p.type) ((q.name, .bound p.name) :: names)
            ps qs) := by
        refine .bind holes_blind fun h _ hh => ?_
        subst hh
        exact .bind (hrecur _ _ _) fun _ _ _ => ih _ _ qs
      rw [unifyParams]
      split
      · exact .bind hwhole fun _ _ _ => hrest
      · exact hrest

theorem unifyForms_blind (hrecur : ∀ hyps a b, IsBlind (recur hyps a b)) (hyps : Context)
    (a b : Term) :
    IsBlind (unifyForms recur hyps a b) := by
  unfold unifyForms
  split
  · exact .pure trivial
  · split
    · exact .pure trivial
    · exact mismatch_blind _ _
  · split
    · exact .pure trivial
    · exact mismatch_blind _ _
  · split
    · exact .pure trivial
    · exact mismatch_blind _ _
  · split
    · exact .bind (hrecur _ _ _) fun _ _ _ => unifyArgs_blind (hrecur hyps) _ _
    · exact mismatch_blind _ _
  · split
    · refine .bind (unifyParams_blind hrecur (mismatch_blind _ _) _ _ _ _) fun r _ hr => ?_
      subst hr
      refine .bind holes_blind fun h _ hh => ?_
      subst hh
      exact hrecur _ _ _
    · exact mismatch_blind _ _
  · exact unifyUniverses_blind _ _
  · exact .bind (hrecur _ _ _) fun _ _ _ => hrecur _ _ _
  · exact hrecur _ _ _
  · exact mismatch_blind _ _

theorem unifyHeads_blind {compare : Term → Term → Solve Unit}
    (hcompare : ∀ a b, IsBlind (compare a b)) (hyps : Context) (a b : Term) :
    IsBlind (unifyHeads env compare hyps a b) := by
  unfold IsBlind unifyHeads
  refine .bind holes_blind fun h _ hh => ?_
  subst hh
  split
  · split
    · exact .pure trivial
    · exact bind_blind _ _ _
  · exact bind_blind _ _ _
  · exact bind_blind _ _ _
  · exact hcompare _ _

theorem unifyNormalN_blind (n : Nat) (hyps : Context) (a b : Term) :
    IsBlind (unifyNormalN env n hyps a b) := by
  induction n generalizing hyps a b with
  | zero => exact .throw trivial
  | succ n ih => exact unifyHeads_blind (unifyForms_blind ih hyps) hyps a b

theorem unifyNormal_blind (hyps : Context) (a b : Term) : IsBlind (unifyNormal env hyps a b) := by
  refine .bind holes_blind fun h _ hh => ?_
  subst hh
  exact unifyNormalN_blind _ hyps a b

theorem unifyN_blind (n : Nat) (hyps : Context) (a b : Term) : IsBlind (unifyN env n hyps a b) := by
  induction n generalizing hyps a b with
  | zero => exact .throw trivial
  | succ n ih =>
    refine unifyHeads_blind (fun a b => ?_) hyps a b
    refine .tryCatch (attempt_blind (unifyForms_blind ih hyps a b)) fun _ _ _ => ?_
    refine .bind holes_blind fun h _ hh => ?_
    subst hh
    exact unifyNormal_blind hyps _ _

theorem unify_blind (hyps : Context) (a b : Term) : IsBlind (unify env hyps a b) := by
  refine .bind holes_blind fun h _ hh => ?_
  subst hh
  exact unifyN_blind _ hyps a b

/-- An attempt to unify has the same outcome, and solves the same holes, from all solvers that have
the same holes. -/
theorem tryUnify_blind (hyps : Context) (a b : Term) : IsBlind (tryUnify env hyps a b) :=
  attempt_blind (unify_blind hyps a b)

end Unify

end Solve

end Implicits
