import Implicits.Checker.Signature
import Implicits.Proofs.HoleFree

/-!
Checking a signature makes no holes: universes are given levels of the declaration, and the types
are checked as they are in the context of the earlier parameters.
-/
namespace Implicits

open Term

/-- What giving levels of a declaration does to a term or to several: its holes stay, its new level
variables are of the declaration, and the store has handed them out. -/
structure Assigns (decl : String) (holes holes' : List HoleId) (levels levels' : List LevelVar)
    (store store' : LevelStore) : Prop where
  holes : holes' = holes
  levels : ∀ v ∈ levels', v ∈ levels ∨ v ∈ store'.issued ∧ ∃ id, v = ⟨decl, id, true⟩
  draws : store.Draws [decl] store'
  store : ∃ new, store' = { store with issued := new ++ store.issued }

namespace Assigns

variable {decl : String} {hs hs' hs₁ hs₁' : List HoleId} {vs vs' vs₁ vs₁' : List LevelVar}
  {store store' store'' : LevelStore}

theorem refl (hs : List HoleId) (vs : List LevelVar) (store : LevelStore) :
    Assigns decl hs hs vs vs store store :=
  ⟨rfl, fun _ hv => .inl hv, .refl store, [], rfl⟩

theorem append (h : Assigns decl hs hs' vs vs' store store')
    (h' : Assigns decl hs₁ hs₁' vs₁ vs₁' store' store'') :
    Assigns decl (hs ++ hs₁) (hs' ++ hs₁') (vs ++ vs₁) (vs' ++ vs₁') store store'' where
  holes := by rw [h.holes, h'.holes]
  levels v hv := by
    rcases List.mem_append.mp hv with hv | hv
    · obtain ⟨new, rfl⟩ := h'.store
      exact (h.levels v hv).imp (List.mem_append_left _) fun ⟨hissued, hid⟩ =>
        ⟨List.mem_append_right _ hissued, hid⟩
    · exact (h'.levels v hv).imp_left (List.mem_append_right _)
  store := by
    obtain ⟨new, rfl⟩ := h.store
    obtain ⟨new', rfl⟩ := h'.store
    exact ⟨new' ++ new, by simp only [List.append_assoc]⟩
  draws := h.draws.trans h'.draws

theorem comm (h : Assigns decl (hs ++ hs₁) (hs' ++ hs₁') (vs ++ vs₁) (vs' ++ vs₁') store store')
    (hlen : hs'.length = hs.length) :
    Assigns decl (hs₁ ++ hs) (hs₁' ++ hs') (vs₁ ++ vs) (vs₁' ++ vs') store store' where
  holes := by
    obtain ⟨hfirst, hsecond⟩ := List.append_inj h.holes hlen
    rw [hfirst, hsecond]
  levels v hv := by
    have hold := h.levels v (List.mem_append.mpr (List.mem_append.mp hv).symm)
    exact hold.imp_left fun hmem => List.mem_append.mpr (List.mem_append.mp hmem).symm
  store := h.store
  draws := h.draws

end Assigns

namespace Term

theorem assignLevels_spec (decl : String) (t : Term) : ∀ store : LevelStore,
    Assigns decl t.holes ((t.assignLevels decl).run store).1.holes t.levels
      ((t.assignLevels decl).run store).1.levels store ((t.assignLevels decl).run store).2 := by
  induction t using induct with
  | missing => exact fun store => .refl _ _ store
  | const name => exact fun store => .refl _ _ store
  | lit text type => exact fun store => .refl _ _ store
  | bound name => exact fun store => .refl _ _ store
  | hole id => exact fun store => .refl _ _ store
  | app fn args ihfn ihargs =>
    have hargs : ∀ store : LevelStore,
        Assigns decl (holesArgs args) (holesArgs ((assignLevelsArgs decl args).run store).1)
          (levelsArgs args) (levelsArgs ((assignLevelsArgs decl args).run store).1) store
          ((assignLevelsArgs decl args).run store).2 := by
      induction args with
      | nil => exact fun store => .refl _ _ store
      | cons a args ih =>
        intro store
        exact (ihargs a (by simp) store).append (ih (fun b hb => ihargs b (by simp [hb])) _)
    intro store
    -- The arguments get their levels before the function.
    have hswapped := (hargs store).append (ihfn ((assignLevelsArgs decl args).run store).2)
    exact hswapped.comm (congrArg List.length (hargs store).holes)
  | pi params result ihparams ihresult =>
    have hparams : ∀ store : LevelStore,
        Assigns decl (holesParams params)
        (holesParams ((assignLevelsParams decl params).run store).1)
          (levelsParams params) (levelsParams ((assignLevelsParams decl params).run store).1) store
          ((assignLevelsParams decl params).run store).2 := by
      induction params with
      | nil => exact fun store => .refl _ _ store
      | cons p params ih =>
        intro store
        have hp := ihparams p (by simp) store
        have hfallback : Assigns decl (p.type.holes ++ holesFallback p.fallback)
            (((p.type.assignLevels decl).run store).1.holes ++ holesFallback p.fallback)
              p.type.levels
            ((p.type.assignLevels decl).run store).1.levels store
            ((p.type.assignLevels decl).run store).2 :=
          ⟨congrArg (· ++ holesFallback p.fallback) hp.holes, hp.levels, hp.draws, hp.store⟩
        exact hfallback.append (ih (fun q hq => ihparams q (by simp [hq])) _)
    exact fun store => (hparams store).append (ihresult _)
  | sort u =>
    intro store
    cases u with
    | unassigned n =>
      have hnamed : store.Names [decl] decl true := .inr ⟨List.mem_singleton.mpr rfl, rfl⟩
      refine ⟨rfl, fun v hv => .inr ?_, .issue hnamed, [_], rfl⟩
      rw [List.mem_singleton.mp hv]
      exact ⟨List.mem_cons_self, _, rfl⟩
    | level l => exact .refl _ _ store
  | eq lhs rhs ihl ihr => exact fun store => (ihl store).append (ihr _)
  | refl value ih => exact ih

end Term

namespace Check

section

variable {env : Declarations} {σ : Scope} {L : Ledger env σ {}} {c : Checker} {P : LevelVar → Prop}
  {decl : String}

theorem assignLevels_checks (hdecl : ∀ id, P ⟨decl, id, true⟩) {t : Term} (ht : t.ClosedOver P)
    (hc : L.Valid c.solver) :
    L.Checks (assignLevels decl t) c fun t' c' =>
      t'.ClosedOver P ∧ c'.solver.holes.size = c.solver.holes.size := by
  obtain ⟨hholes, hlevels, -, new, hstore⟩ := t.assignLevels_spec decl c.solver.levels
  have hgrows : c.solver.levels.Grows ((t.assignLevels decl).run c.solver.levels).2 := by
    rw [hstore]
    exact ⟨rfl, rfl, List.suffix_append _ _, .refl _ _⟩
  have hstep : c.solver.Retypes
      { c.solver with levels := ((t.assignLevels decl).run c.solver.levels).2 } := .of_levels hgrows
  have hsound : Solver.Sound σ
      { c.solver with levels := ((t.assignLevels decl).run c.solver.levels).2 } := by
    refine hc.sound.retypes hstep (fun d hd => .inl ?_) fun _ _ hname => .inl hname
    rwa [hstore] at hd
  refine ⟨hc.retypes hstep hsound, .of_solver hstep.toExtends, ⟨hholes.trans ht.holeFree, ?_⟩, rfl⟩
  intro v hv
  rcases hlevels v hv with hold | ⟨-, id, rfl⟩
  · exact ht.levels v hold
  · exact hdecl id

variable (hσ : σ.IsLoose) (hP : ∀ v n, P v → v.Made σ n)

include hσ hP

theorem levelOf_checks (henv : env.Within σ) {hyps : Context} (hhyps : hyps.ClosedOver P) {t : Term}
    (ht : t.ClosedOver P) (site : Expr) (wrap : Fault → CheckError) (hc : L.Valid c.solver) :
    L.Checks (orFail site wrap (Solve.levelOf env hyps t)) c fun _ c' =>
      c'.solver.holes.size = c.solver.holes.size := by
  have hlevel := Solve.levelOf_types henv hc.sound (hhyps.scoped hσ fun v => hP v _)
    (ht.scoped hσ fun v => hP v _)
  exact (Ledger.Checks.orFail (.of_types hc hlevel) site wrap).mono fun _ c' _ h => h.1.size

theorem checkFallback_checks (henv : env.Within σ) (hdecl : ∀ id, P ⟨decl, id, true⟩)
    {hyps : Context} (hhyps : hyps.ClosedOver P) {p : Param Term} (hp : p.ClosedOver P)
    (hc : L.Valid c.solver) :
    L.Checks (checkFallback env decl hyps p) c fun fallback c' =>
      Param.ClosedOver P { p with fallback } ∧ c'.solver.holes.size = c.solver.holes.size := by
  unfold checkFallback
  split
  · rename_i value hvalue
    refine (assignLevels_checks hdecl (hp.fallback value hvalue) hc).bind
      fun value c₁ hc₁ _ hr => ?_
    obtain ⟨hvalue, hsize₁⟩ := hr
    have hcompare : L.Keeps (do
        let type ← Solve.typeOf env hyps value
        Solve.subsume env hyps type p.type) c₁.solver fun _ _ => True := by
      refine (Ledger.Keeps.of_types hc₁ (Solve.typeOf_types henv hc₁.sound
        (hhyps.scoped hσ fun v => hP v _) (hvalue.scoped hσ fun v => hP v _))).bind
        fun type s hs hstep hscoped => ?_
      refine Solve.subsume_keeps henv s hyps type p.type hs ?_ hscoped
        (hp.type.scoped hσ fun v => hP v _)
      exact ⟨hhyps.scoped hσ fun v => hP v _, hyps.hypotheses, by simp, fun _ _ => hσ.binder _⟩
    refine (Ledger.Checks.orFail hcompare _ _).bind fun _ c₂ hc₂ _ hext => ?_
    refine .pure hc₂ ⟨⟨hp.type, fun other hother => ?_⟩, hext.1.size.trans hsize₁⟩
    obtain rfl : value = other := by simpa using hother
    exact hvalue
  · exact .pure hc ⟨⟨hp.type, hp.fallback⟩, rfl⟩

theorem checkParams_checks (henv : env.Within σ) (hdecl : ∀ id, P ⟨decl, id, true⟩)
    {hyps : Context} (hhyps : hyps.ClosedOver P) {ps : List (Param Term)}
    (hps : ∀ p ∈ ps, p.ClosedOver P) (hc : L.Valid c.solver) :
    L.Checks (checkParams env decl hyps ps) c fun r c' =>
      (∀ p ∈ r.1, p.ClosedOver P) ∧ r.2.ClosedOver P ∧
        c'.solver.holes.size = c.solver.holes.size := by
  induction ps generalizing hyps c with
  | nil => exact .pure hc ⟨by simp, hhyps, rfl⟩
  | cons p ps ih =>
    have hp := hps p (by simp)
    rw [checkParams]
    refine (assignLevels_checks hdecl hp.type hc).bind fun type c₁ hc₁ _ htype => ?_
    refine (levelOf_checks hσ hP henv hhyps htype.1 _ _ hc₁).bind fun _ c₂ hc₂ _ hsize₂ => ?_
    have hclosed : Param.ClosedOver P { p with type } := ⟨htype.1, hp.fallback⟩
    refine (checkFallback_checks hσ hP henv hdecl hhyps hclosed hc₂).bind
      fun fallback c₃ hc₃ _ hfallback => ?_
    refine (ih (hhyps.extend htype.1 p.name) (fun q hq => hps q (by simp [hq])) hc₃).bind
      fun ⟨rest, inner⟩ c₄ hc₄ _ hr => ?_
    obtain ⟨hrest, hinner, hsize₄⟩ := hr
    refine .pure hc₄ ⟨List.forall_mem_cons.mpr ⟨hfallback.1, hrest⟩, hinner, ?_⟩
    rw [hsize₄, hfallback.2, hsize₂, htype.2]

/-- Checking a signature makes no holes and adds no level variables but those of the declaration. -/
theorem checkSignature_checks (henv : env.Within σ) {sig : Signature}
    (hdecl : ∀ id, P ⟨sig.name, id, true⟩) (hsig : sig.ClosedOver P) (hc : L.Valid c.solver) :
    L.Checks (checkSignature env sig) c fun checked c' =>
      (checked.name = sig.name ∧ checked.constraints = [] ∧ checked.ClosedOver P) ∧
        c'.solver.holes.size = c.solver.holes.size := by
  unfold checkSignature
  refine (Ledger.Checks.requireActive hc).bind fun _ c₁ hc₁ _ heq => ?_
  subst heq
  split
  · exact .fail hc₁ _ _
  · refine (checkParams_checks hσ hP henv hdecl (fun _ h => by simp at h) hsig.params hc₁).bind
      fun ⟨params, hyps⟩ c₂ hc₂ _ hr => ?_
    obtain ⟨hparams, hhyps, hsize₂⟩ := hr
    refine (assignLevels_checks hdecl hsig.result hc₂).bind fun result c₃ hc₃ _ hr => ?_
    refine (levelOf_checks hσ hP henv hhyps hr.1 _ _ hc₃).bind fun _ c₄ hc₄ _ hsize₄ => ?_
    exact .pure hc₄ ⟨⟨rfl, rfl, hparams, hr.1⟩, by rw [hsize₄, hr.2, hsize₂]⟩

end

end Check

end Implicits
