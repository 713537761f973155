import Implicits.Proofs.Solver.Lives
import Implicits.Proofs.Solver.Normalize

/-!
The level that the solver finds for a type bounds where the type lives, in every valuation of the
levels that satisfies the store. So a hole whose type is a universe from the start lives below it,
whatever it is solved by and whatever is solved later. This needs that nothing reduces and that only
constants are applied.
-/
namespace Implicits

open Relation Term

theorem Level.Nonneg.value {l : Level} (hl : l.Nonneg) (v : Valuation) : 0 ≤ l.value v := by
  cases l with
  | const k => exact hl
  | var x => exact Int.natCast_nonneg _

namespace Valuation.Satisfies

variable {v : Valuation} {cs cs' : List Constraint}

theorem of_prefix (hv : v.Satisfies cs') (h : cs <+: cs') : v.Satisfies cs :=
  fun c hc => hv c (h.subset hc)

theorem holds {c : Constraint} (hv : v.Satisfies cs) (hc : c.isTrivial = true ∨ c ∈ cs) :
    c.Holds v := by
  rcases hc with htrivial | hmem
  · simp only [Constraint.isTrivial, Bool.and_eq_true, Bool.not_eq_true', beq_iff_eq] at htrivial
    rw [Constraint.Holds, if_neg (by simp [htrivial.1]), htrivial.2]
  · exact hv c hmem

/-- A constraint that has been added to a store is satisfied with the store. -/
theorem of_add {σ : Scope} {s : Solver} {c : Constraint}
    (hs : Solver.Sound σ { s with levels := s.levels.add c }) (hσ : σ.tracksStore)
    (hv : v.Satisfies (s.levels.add c).constraints) : c.Holds v :=
  hv.holds ((s.levels.add_mem c).imp_right (hs.seen hσ c))

/-- So are the constraints of a signature that has been imported. -/
theorem of_import {σ : Scope} {s : Solver} {sig : Signature} (hs : (s.importSignature sig).Sound σ)
    (hσ : σ.tracksStore) (hsig : σ.known sig)
    (hv : v.Satisfies (s.importSignature sig).levels.constraints) :
    v.Satisfies sig.constraints := by
  by_cases hempty : sig.constraints = []
  · rw [hempty]
    exact fun _ hc => absurd hc List.not_mem_nil
  · have himported : sig.name ∈ (s.importSignature sig).imported := by
      unfold Solver.importSignature
      split
      · rename_i hskip
        rcases Bool.or_eq_true_iff.mp hskip with hnone | hold
        · exact absurd (List.isEmpty_iff.mp hnone) hempty
        · exact List.contains_iff_mem.mp hold
      · exact List.mem_cons_self
    exact fun c hc => hv.holds ((hs.imports sig hsig himported c hc).imp_right (hs.seen hσ c))

end Valuation.Satisfies

/-- A setting in which types can only grow by solving holes: nothing reduces, only constants are
applied, and the declarations and the outer context have no holes. -/
structure Rigid (env : Declarations) (σ : Scope) (outer : Context) : Prop where
  within : env.Within σ
  irreducible : ∀ name args, env.reduce? name args = none
  isSealed : σ.isSealed
  firstOrder : σ.firstOrder
  tracksStore : σ.tracksStore
  known : ∀ name sig, env.signature? name = some sig → σ.known sig
  context : ∀ n, outer.Scoped σ n

namespace Rigid

variable {env : Declarations} {σ : Scope} {outer : Context}

theorem signature_holeFree (hr : Rigid env σ outer) {name : String} {sig : Signature}
    (hsig : env.signature? name = some sig) : sig.type.HoleFree := by
  have hready : sig.ReadyAt σ ⟨0, 0, sig.constraints⟩ := fun _ c hc => .inr hc
  exact (Solve.signature_type_scoped hr.within hsig hready).holeFree hr.isSealed (Nat.zero_le _)

theorem lookup_holeFree (hr : Rigid env σ outer) {name : String} {type : Term}
    (htype : outer.lookup? name = some type) : type.HoleFree :=
  Scoped.holeFree ((hr.context ⟨0, 0, []⟩).lookup htype) hr.isSealed (Nat.zero_le _)

end Rigid

/-- Only the names that function types bind can hide an outer hypothesis. -/
theorem Context.Over.lookup_eq {σ : Scope} {n : Stage} {outer hyps : Context}
    (h : Over σ n outer hyps) {name : String} (hname : ¬ σ.binder name) :
    hyps.lookup? name = outer.lookup? name := by
  obtain ⟨added, hadded, hbinder⟩ := h.inner
  have hnone : added.find? (·.name == name) = none := by
    rw [List.find?_eq_none]
    intro hyp hhyp heq
    exact hname (beq_iff_eq.mp heq ▸ hbinder hyp hhyp)
  rw [lookup?, lookup?, hadded, List.find?_append, hnone, Option.none_or]

namespace Holes

theorem subst_sort (h : Holes) (sub : Substitution) (u : Universe) :
    h.subst sub (.sort u) = .sort u := by
  unfold Holes.subst
  split
  · rfl
  · rw [expand_sort, Term.subst]

theorem subst_bound (h : Holes) {sub : Substitution} {name : String} {a : Term}
    (ha : sub.lookup name = some a) : h.subst sub (.bound name) = a := by
  unfold Holes.subst
  split
  · rename_i hempty
    simp [List.isEmpty_iff.mp hempty] at ha
  · rw [h.expand_of_holeFree (t := .bound name) rfl, Term.subst, ha, Option.getD_some]

/-- A universe behind a substitution stood there before, or is what a name stands for. -/
theorem eq_sort_of_subst {h : Holes} {sub : Substitution} {t : Term} {u : Universe}
    (ht : t.HoleFree) (hu : h.expand (h.subst sub t) = .sort u) :
    t = .sort u ∨ ∃ name a, t = .bound name ∧ sub.lookup name = some a ∧ h.expand a = .sort u := by
  by_cases hempty : sub.isEmpty
  · rw [Holes.subst, if_pos hempty, expand_of_holeFree h ht] at hu
    exact .inl hu
  · rw [Holes.subst, if_neg hempty, expand_of_holeFree h ht] at hu
    cases t with
    | bound name =>
      cases ha : sub.lookup name with
      | none =>
        rw [Term.subst, ha, Option.getD_none] at hu
        exact absurd (eq_sort_of_expand hu (by simp)) (by simp)
      | some a =>
        rw [Term.subst, ha, Option.getD_some] at hu
        exact .inr ⟨name, a, rfl, ha, hu⟩
    | sort => exact .inl (eq_sort_of_expand hu (by simp))
    | hole => simp [HoleFree, holes] at ht
    | _ => exact absurd (eq_sort_of_expand hu (by simp [Term.subst])) (by simp [Term.subst])

end Holes

structure Solver.Reads (σ : Scope) (s : Solver) (t : Term) : Prop where
  inScope : t.Scoped σ s.stage
  isOpen : ∀ i, t.Shows i → s.holes.solution? i = none

theorem Solver.Reads.retypes {σ : Scope} {s s' : Solver} {t : Term} (h : s.Reads σ t)
    (hstep : s.Retypes s') : s'.Reads σ t :=
  ⟨h.inScope.mono hstep.stage, fun i hi => by rw [hstep.holes, h.isOpen i hi]⟩

namespace Solve

section Lives

variable {env : Declarations} {σ : Scope} {outer : Context} {s : Solver}

/-- Where constraints hold and the type of a term is read as a universe, the term lives there. -/
def LivesBy (env : Declarations) (σ : Scope) (outer : Context) (h : Holes) (cs : List Constraint)
    (t type : Term) : Prop :=
  ∀ v : Valuation, v.Satisfies cs → ∀ l, h.expand type = .sort (.level l) →
    Lives env σ.binder outer v h t (l.value v)

theorem constant_lives (hr : Rigid env σ outer) {name : String} {sig : Signature}
    (hsig : env.signature? name = some sig) (hs : (s.importSignature sig).Sound σ) :
    LivesBy env σ outer s.holes (s.importSignature sig).levels.constraints
      (.const name) sig.type := by
  intro v hv l hl
  rw [Holes.expand_of_holeFree _ (hr.signature_holeFree hsig)] at hl
  exact .const hsig (hv.of_import hs hr.tracksStore (hr.known name sig hsig)) hl (Int.le_refl _)

/-- The type of an application of a declared function. -/
theorem application_lives (hr : Rigid env σ outer) {name : String} {sig : Signature}
    {args : List Term} {params : List (Param Term)} {result : Term} {h : Holes} {v : Valuation}
    (hsig : env.signature? name = some sig) (hcs : v.Satisfies sig.constraints)
    (htype : sig.type = .pi params result) (hlen : args.length ≤ params.length) {l : Level}
    (hl : h.expand (h.subst ((params.map (·.name)).zip args).reverse
      (if (params.drop args.length).isEmpty then result
        else .pi (params.drop args.length) result)) = .sort (.level l)) :
    Lives env σ.binder outer v h (.app (.const name) args) (l.value v) := by
  have hfree := hr.signature_holeFree hsig
  rw [htype, HoleFree, Term.holes, List.append_eq_nil_iff, holeFree_params] at hfree
  -- A function type that is left over is no universe.
  have hrest : params.drop args.length = [] := by
    by_contra hne
    rw [if_neg (by simpa using hne)] at hl
    have hfree' : (Term.pi (params.drop args.length) result).HoleFree := by
      rw [HoleFree, Term.holes, List.append_eq_nil_iff, holeFree_params]
      exact ⟨fun p hp => hfree.1 p (List.mem_of_mem_drop hp), hfree.2⟩
    rcases Holes.eq_sort_of_subst hfree' hl with hsort | ⟨x, a, hbound, -⟩
    · simp at hsort
    · simp at hbound
  rw [hrest, List.isEmpty_nil, if_pos rfl] at hl
  have hlen' : params.length = args.length :=
    Nat.le_antisymm (List.drop_eq_nil_iff.mp hrest) hlen
  refine .app hsig hcs ?_ (Int.le_refl _)
  rcases Holes.eq_sort_of_subst hfree.2 hl with rfl | ⟨x, a, rfl, ha, hread⟩
  · exact .result htype hlen'
  · exact .argument htype hlen' ha hread

/-- A universe lives at the new level above its own. -/
theorem universeAbove_lives (hr : Rigid env σ outer) (hs : s.Sound σ) {l : Level}
    (hl : l.Made σ s.stage) (hnonneg : l.Nonneg) :
    Types σ s (universeAbove l) fun type s' =>
      LivesBy env σ outer s.holes s'.levels.constraints (.sort (.level l)) type := by
  refine (Types.freshLevel hs).bind fun above s₁ hs₁ hstep₁ hfresh => ?_
  obtain ⟨-, -, hmade⟩ := hfresh
  refine (Types.add hs₁ ⟨hl.mono hstep₁.stage, hmade⟩).bind fun _ s₂ hs₂ hstep₂ h₂ => ?_
  subst h₂
  refine .pure hs₂ fun v hv m hm => ?_
  obtain rfl := Universe.level.inj (sort.inj ((Holes.expand_sort _ _).symm.trans hm))
  have hlt : l.value v < above.value v := hv.of_add hs₂ hr.tracksStore
  exact .sort (hnonneg.value v) hlt

def InfersLiving (env : Declarations) (σ : Scope) (outer : Context)
    (levelOfType : Context → Term → Solve Level) (t : Term) : Prop :=
  ∀ (s : Solver) (hyps : Context), s.Sound σ → Context.Over σ s.stage outer hyps → s.Reads σ t →
    Types σ s (infer env levelOfType hyps t) fun type s' => type.Scoped σ s'.stage ∧
      LivesBy env σ outer s.holes s'.levels.constraints t type

theorem InfersLiving.of_lives (hr : Rigid env σ outer) {levelOfType : Context → Term → Solve Level}
    (hlevel : ∀ (s : Solver) hyps type, s.Sound σ → hyps.Scoped σ s.stage →
      type.Scoped σ s.stage →
        Types σ s (levelOfType hyps type) fun l s' => l.Made σ s'.stage) {t : Term}
    (ht : ∀ (s : Solver) (hyps : Context), s.Sound σ → Context.Over σ s.stage outer hyps →
      s.Reads σ t → Types σ s (infer env levelOfType hyps t) fun type s' =>
        LivesBy env σ outer s.holes s'.levels.constraints t type) :
    InfersLiving env σ outer levelOfType t := fun s hyps hs hhyps hread =>
  (infer_types hr.within hlevel hs hhyps.types hread.inScope).and (ht s hyps hs hhyps hread)

/-- A type that is bounded by a level lives there. -/
theorem inferBelow_lives (hr : Rigid env σ outer) {levelOfType : Context → Term → Solve Level}
    {level : Level} {t : Term} {hyps : Context} (hinfer : InfersLiving env σ outer levelOfType t)
    (hs : s.Sound σ) (hlevel : level.Made σ s.stage) (hhyps : Context.Over σ s.stage outer hyps)
    (ht : s.Reads σ t) (origin : String → String) :
    Types σ s (inferBelow env levelOfType level hyps t origin) fun _ s' =>
      ∀ v : Valuation, v.Satisfies s'.levels.constraints →
        Lives env σ.binder outer v s.holes t (level.value v) := by
  refine (hinfer s hyps hs hhyps ht).bind fun type s₁ hs₁ hstep₁ htype => ?_
  obtain ⟨htype, hlives⟩ := htype
  refine (asUniverse_types hs₁ t type).bind fun lo s₂ _ _ hlo => ?_
  obtain ⟨rfl, hlo⟩ := hlo
  refine (Types.text hs₁ t).bind fun shown s₃ _ _ h₃ => ?_
  subst h₃
  have hmade := made_of_normalize hr.within hs₁ htype hlo
  have hadded := hs₁.add (c := ⟨lo, level, false, origin shown⟩) ⟨hmade, hlevel.mono hstep₁.stage⟩
  refine (Types.add hs₁ ⟨hmade, hlevel.mono hstep₁.stage⟩).mono fun _ s₄ hstep₄ h₄ v hv => ?_
  subst h₄
  have hread : s.holes.expand type = .sort (.level lo) := by
    rw [← hstep₁.holes, ← Holes.normalize_eq_expand hr.irreducible]
    exact hlo
  have hle : lo.value v ≤ level.value v := hv.of_add hadded hr.tracksStore
  exact (hlives v (hv.of_prefix hstep₄.levels.constraints) lo hread).mono hle

theorem inferParts_lives (hr : Rigid env σ outer) {levelOfType : Context → Term → Solve Level}
    {level : Level} {params : List (Param Term)} {result : Term} {hyps : Context}
    (hinfer : ∀ p ∈ params, InfersLiving env σ outer levelOfType p.type)
    (hinfer' : InfersLiving env σ outer levelOfType result) (hs : s.Sound σ)
    (hlevel : level.Made σ s.stage) (hparams : ∀ p ∈ params, σ.binder p.name ∧ s.Reads σ p.type)
    (hresult : s.Reads σ result) (hhyps : Context.Over σ s.stage outer hyps) :
    Types σ s (inferParts env levelOfType level result hyps params) fun _ s' =>
      ∀ v : Valuation, v.Satisfies s'.levels.constraints →
        (∀ p ∈ params, Lives env σ.binder outer v s.holes p.type (level.value v)) ∧
          Lives env σ.binder outer v s.holes result (level.value v) := by
  induction params generalizing hyps s with
  | nil =>
    refine (inferBelow_lives hr hinfer' hs hlevel hhyps hresult _).mono fun _ _ _ hlives v hv => ?_
    exact ⟨by simp, hlives v hv⟩
  | cons p params ih =>
    obtain ⟨hname, hp⟩ := hparams p (by simp)
    refine (inferBelow_lives hr (hinfer p (by simp)) hs hlevel hhyps hp _).bind
      fun _ s₁ hs₁ hstep₁ hlives => ?_
    refine (ih (fun q hq => hinfer q (by simp [hq])) hs₁ (hlevel.mono hstep₁.stage)
      (fun q hq => (hparams q (by simp [hq])).imp_right fun hq => hq.retypes hstep₁)
      (hresult.retypes hstep₁) ((hhyps.mono hstep₁.stage).extend hname
        (hp.inScope.mono hstep₁.stage))).mono fun _ s₂ hstep₂ hrest v hv => ?_
    obtain ⟨hrest, hlast⟩ := hrest v hv
    rw [hstep₁.holes] at hrest hlast
    refine ⟨List.forall_mem_cons.mpr ⟨?_, hrest⟩, hlast⟩
    exact hlives v (hv.of_prefix hstep₂.levels.constraints)

/-- An application whose type is a universe lives there. -/
theorem infer_app_lives (hr : Rigid env σ outer) {levelOfType : Context → Term → Solve Level}
    {fn : Term} {args : List Term} {hyps : Context} (hs : s.Sound σ)
    (ht : s.Reads σ (.app fn args)) :
    Types σ s (infer env levelOfType hyps (.app fn args)) fun type s' =>
      LivesBy env σ outer s.holes s'.levels.constraints (.app fn args) type := by
  obtain - | - | - | - | - | ⟨hhead, _, hargs⟩ := ht.inScope
  obtain ⟨name, rfl⟩ := hhead hr.firstOrder
  rw [infer, infer, bind_assoc]
  refine (Types.lookupSignature? hr.within hs name).bind fun found s' hs' hstep hfound => ?_
  cases found with
  | none => exact .throw_bind hs' _ _
  | some sig =>
    obtain rfl := hfound.2 sig rfl
    have hscoped := signature_type_scoped hr.within hfound.1.symm (hs.readyAt sig)
    refine (applyType_types hr.within hs' hscoped fun a ha => (hargs a ha).mono hstep.stage).mono ?_
    rintro type s'' _ ⟨rfl, -, params, result, hpi, hlen, rfl⟩ v hv l hl
    rw [Holes.normalize_eq_expand hr.irreducible,
      Holes.expand_of_holeFree _ (hr.signature_holeFree hfound.1.symm)] at hpi
    rw [hstep.holes] at hl
    have hsat := hv.of_import hs' hr.tracksStore (hr.known name sig hfound.1.symm)
    exact application_lives hr hfound.1.symm hsat hpi hlen hl

/-- A function type lives at its new level, because its parts do. -/
theorem infer_pi_lives (hr : Rigid env σ outer) {levelOfType : Context → Term → Solve Level}
    {params : List (Param Term)} {result : Term} {hyps : Context}
    (hinfer : ∀ p ∈ params, InfersLiving env σ outer levelOfType p.type)
    (hinfer' : InfersLiving env σ outer levelOfType result) (hs : s.Sound σ)
    (hhyps : Context.Over σ s.stage outer hyps) (ht : s.Reads σ (.pi params result)) :
    Types σ s (infer env levelOfType hyps (.pi params result)) fun type s' =>
      LivesBy env σ outer s.holes s'.levels.constraints (.pi params result) type := by
  obtain - | - | - | - | - | - | ⟨hnames, _, htypes, hresult⟩ := ht.inScope
  have hparams : ∀ p ∈ params, σ.binder p.name ∧ s.Reads σ p.type := fun p hp =>
    ⟨hnames p hp, htypes p hp, fun i hi => ht.isOpen i (shows_pi.mpr (.inl ⟨p, hp, hi⟩))⟩
  have hbody : s.Reads σ result := ⟨hresult, fun i hi => ht.isOpen i (shows_pi.mpr (.inr hi))⟩
  rw [infer_pi]
  refine (Types.freshLevel hs).bind fun level s₁ hs₁ hstep₁ hfresh => ?_
  obtain ⟨rfl, -, hmade⟩ := hfresh
  refine (inferParts_lives hr hinfer hinfer' hs₁ hmade
    (fun p hp => (hparams p hp).imp_right fun hp => hp.retypes hstep₁) (hbody.retypes hstep₁)
    (hhyps.mono hstep₁.stage)).bind fun _ s₂ hs₂ hstep₂ hlives => ?_
  refine .pure hs₂ fun v hv l hl => ?_
  obtain rfl := Universe.level.inj (sort.inj ((Holes.expand_sort _ _).symm.trans hl))
  obtain ⟨htypes, hresult⟩ := hlives v hv
  rw [hstep₁.holes] at htypes hresult
  exact .pi (Int.natCast_nonneg _) htypes hresult

/-- A term whose type is a universe lives there. -/
theorem infer_lives (hr : Rigid env σ outer) {levelOfType : Context → Term → Solve Level}
    (hlevel : ∀ (s : Solver) hyps type, s.Sound σ → hyps.Scoped σ s.stage →
      type.Scoped σ s.stage →
        Types σ s (levelOfType hyps type) fun l s' => l.Made σ s'.stage)
    {t : Term} {hyps : Context} (hs : s.Sound σ) (hhyps : Context.Over σ s.stage outer hyps)
    (ht : s.Reads σ t) :
    Types σ s (infer env levelOfType hyps t) fun type s' =>
      LivesBy env σ outer s.holes s'.levels.constraints t type := by
  induction t using Term.induct generalizing hyps s with
  | missing =>
    exact (Types.text hs .missing).bind fun _ _ hs' _ _ => .throw hs' _
  | const name =>
    rw [infer]
    refine (Types.lookupSignature? hr.within hs name).bind fun found s' hs' _ hfound => ?_
    split
    · exact .throw hs' _
    · rename_i sig
      obtain rfl := hfound.2 sig rfl
      exact .pure hs' (constant_lives hr hfound.1.symm hs')
  | lit text type =>
    obtain - | - | ⟨hsealed, _⟩ := ht.inScope
    have hlives : LivesBy env σ outer s.holes s.levels.constraints (.lit text type) type := by
      intro v _ l hl
      rw [Holes.expand_of_holeFree _ (hsealed hr.isSealed)] at hl
      exact hl ▸ .lit (Int.le_refl _)
    cases type with
    | missing => exact .throw hs _
    | _ => exact .pure hs hlives
  | bound name =>
    rw [infer]
    split
    · exact .throw hs _
    · rename_i type htype
      refine .pure hs fun v _ l hl => ?_
      by_cases hname : σ.binder name
      · exact .captured hname
      · rw [hhyps.lookup_eq hname] at htype
        rw [Holes.expand_of_holeFree _ (hr.lookup_holeFree htype)] at hl
        exact .bound (hl ▸ htype) (Int.le_refl _)
  | hole id =>
    rw [infer]
    refine (Types.holes hs).bind fun h s' hs' _ hh => ?_
    obtain ⟨rfl, rfl⟩ := hh
    split
    · exact .throw hs' _
    · refine .pure hs' fun v _ l hl => ?_
      exact .unsolved (ht.isOpen id (shows_hole.mpr rfl)) hl (Int.le_refl _)
  | app fn args => exact infer_app_lives hr hs ht
  | pi params result ihparams ihr =>
    exact infer_pi_lives hr
      (fun p hp => .of_lives hr hlevel fun s hyps hs hhyps hp' => ihparams p hp hs hhyps hp')
      (.of_lives hr hlevel fun s hyps hs hhyps hbody => ihr hs hhyps hbody) hs hhyps ht
  | sort u =>
    cases u with
    | unassigned k => exact .throw hs _
    | level l =>
      rw [infer_universe]
      split
      · rename_i hnonneg
        exact universeAbove_lives hr hs (scoped_universe.mp ht.inScope) hnonneg
      · exact .throw hs _
  | eq lhs rhs ihl =>
    obtain - | - | - | - | - | - | - | - | ⟨hlhs, _⟩ := ht.inScope
    rw [infer]
    refine (infer_types hr.within hlevel hs hhyps.types hlhs).bind
      fun type s₁ hs₁ hstep₁ htype => ?_
    refine (hlevel s₁ hyps type hs₁ (hhyps.types.mono hstep₁.stage) htype).bind
      fun l s₂ hs₂ _ _ => ?_
    exact .pure hs₂ fun _ _ _ _ => .eq
  | refl value =>
    refine .pure hs fun v _ l hl => ?_
    exact absurd (Holes.eq_sort_of_expand hl (by simp)) (by simp)

theorem typeOfN_lives (hr : Rigid env σ outer) (k : Nat) {t : Term} {hyps : Context}
    (hs : s.Sound σ) (hhyps : Context.Over σ s.stage outer hyps) (ht : t.Scoped σ s.stage) :
    Types σ s (typeOfN env k hyps t) fun type s' =>
      LivesBy env σ outer s.holes s'.levels.constraints t type := by
  cases k with
  | zero => exact .throw hs _
  | succ k =>
    rw [typeOfN]
    refine (Types.holes hs).bind fun h s' _ _ hh => ?_
    obtain ⟨rfl, rfl⟩ := hh
    have hread : s'.Reads σ (s'.holes.expand t) := by
      refine ⟨hs.table.expand ht, fun i hi => ?_⟩
      exact ((Holes.shows_expand fun j hj => hs.table.grounded_of_shows ht hj).mp hi).1
    refine (infer_lives hr ?_ hs hhyps hread).mono fun type s'' _ hlives => ?_
    · exact fun s hyps type hs hhyps htype =>
        universe_types hr.within (typeOfN_types hr.within k hs hhyps htype) type
    · exact fun v hv l hl => .of_instantiateN hr.firstOrder hs.table ht (hlives v hv l hl)

/-- A type lives at the level that is found for it. -/
theorem levelOf_lives (hr : Rigid env σ outer) {t : Term} {hyps : Context} (hs : s.Sound σ)
    (hhyps : Context.Over σ s.stage outer hyps) (ht : t.Scoped σ s.stage) :
    Types σ s (levelOf env hyps t) fun l s' => ∀ v : Valuation,
      v.Satisfies s'.levels.constraints → Lives env σ.binder outer v s.holes t (l.value v) := by
  unfold levelOf typeOf
  rw [bind_assoc]
  refine (Types.holes hs).bind fun h s' _ _ hh => ?_
  obtain ⟨rfl, rfl⟩ := hh
  refine (typeOfN_lives hr _ hs hhyps ht).bind fun type s₁ hs₁ hstep hlives => ?_
  refine (asUniverse_types hs₁ t type).mono ?_
  rintro l s₂ _ ⟨rfl, hl⟩ v hv
  rw [Holes.normalize_eq_expand hr.irreducible, hstep.holes] at hl
  exact hlives v hv l hl

/-- After a hole has been solved, its solution lives where the hole did. -/
theorem bind_lives (hr : Rigid env σ outer) {hyps : Context} {id : HoleId} {t : Term}
    {s' : Solver} (hs : s.Sound σ) (hhyps : Context.Over σ s.stage outer hyps)
    (hid : (Term.hole id).Scoped σ s.stage) (ht : t.Scoped σ s.stage)
    (hopen : s.holes.solution? id = none) (hrun : (Solve.bind env hyps id t).run s = (.ok (), s'))
    {v : Valuation} (hv : v.Satisfies s'.levels.constraints) :
    s'.holes = s.holes.solve id t ∧ s.levels.constraints <+: s'.levels.constraints ∧
      ∀ l, s.holes.expand (s.holes.type id) = .sort (.level l) →
        Lives env σ.binder outer v s'.holes (.hole id) (l.value v) := by
  obtain ⟨hocc, s₁, hstep, hs₁, rfl, hbound⟩ :=
    (bind_outcome hr.within hs hhyps.types hid ht (levelOf_lives hr hs hhyps ht)).of_ok hrun
  have hholes : (s₁.solve id t).holes = s.holes.solve id t := by
    rw [Solver.solve, hstep.holes]
  refine ⟨hholes, hstep.levels.constraints, fun l hl => ?_⟩
  rw [← Holes.normalize_eq_expand hr.irreducible] at hl
  obtain ⟨level, s₂, origin, hlives, rfl⟩ := hbound l hl
  have hle : level.value v ≤ l.value v := Valuation.Satisfies.of_add hs₁ hr.tracksStore hv
  have hthere := (hlives v (hv.of_prefix (LevelStore.Grows.add _ _).constraints)).mono hle
  have hsome : t.toOption = some t := by
    cases t with
    | missing => cases hthere
    | _ => rfl
  obtain - | - | - | - | ⟨_, hmade⟩ := hid
  rw [hholes]
  refine .solved ?_ (hthere.solve hopen fun hbehind => ?_)
  · rw [Holes.solve, Holes.solution?_setSolution, if_pos rfl,
      if_pos (show id < s.holes.size from hmade), hsome]
  · exact absurd hbehind (Holes.not_behind_of_occurs hopen
      (fun i hi => hs.table.grounded_of_shows ht hi) hocc)

end Lives

end Solve

/-- Every hole of the unit whose type is a universe lives there, in each valuation that satisfies
the store. -/
def Ledger.universes {env : Declarations} {σ : Scope} {outer : Context} (hr : Rigid env σ outer) :
    Ledger env σ outer where
  holds h cs := ∀ v : Valuation, v.Satisfies cs → ∀ i l, σ.base ≤ i → h.type i = .sort (.level l) →
    Lives env σ.binder outer v h (.hole i) (l.value v)
  grow hholds hprefix v hv := hholds v (hv.of_prefix hprefix)
  add := by
    intro h n cs type name number _ _ hholds v hv i l hbase hl
    rw [Holes.type_add] at hl
    split at hl
    · rename_i hnew
      refine .unsolved ?_ ?_ (Int.le_refl _)
      · rw [Holes.solution?_add, Holes.solution?, Array.getElem?_eq_none (Nat.le_of_eq hnew.symm)]
        rfl
      · rw [Holes.type_add, if_pos hnew, hl, Holes.expand_sort]
    · exact (hholds v hv i l hbase hl).add name number type
  solve := by
    intro s s' hyps id t hs hholds hhyps hid ht hopen hrun v hv i l hbase hl
    obtain ⟨hholes, hgrows, hlives⟩ := Solve.bind_lives hr hs hhyps hid ht hopen hrun hv
    rw [hholes] at hl hlives ⊢
    rw [Holes.solve, Holes.type_setSolution] at hl
    exact (hholds v (hv.of_prefix hgrows) i l hbase hl).solve hopen fun _ => hlives

end Implicits
