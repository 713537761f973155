import Implicits.Proofs.Outcome
import Implicits.Proofs.Solver.Inference
import Implicits.Proofs.Solver.Soundness

/-!
Typing touches only levels and imports: holes, stash and mode stay as they are, whether it succeeds
or fails. The types it finds stay within the scope of the terms, the context and the declarations.
-/
namespace Implicits

open Term

structure Solver.Retypes (s s' : Solver) : Prop where
  holes : s'.holes = s.holes
  stash : s'.stash = s.stash
  speculative : s'.speculative = s.speculative
  levels : s.levels.Grows s'.levels
  imports : Entered s.importLog s.imported s'.importLog s'.imported

namespace Solver.Retypes

variable {s s' s'' : Solver}

theorem refl (s : Solver) : s.Retypes s :=
  ⟨rfl, rfl, rfl, .refl _, .refl _ _⟩

theorem trans (h : s.Retypes s') (h' : s'.Retypes s'') : s.Retypes s'' where
  holes := h'.holes.trans h.holes
  stash := h'.stash.trans h.stash
  speculative := h'.speculative.trans h.speculative
  levels := h.levels.trans h'.levels
  imports := h.imports.trans h'.imports

theorem of_levels {levels : LevelStore} (h : s.levels.Grows levels) : s.Retypes { s with levels } :=
  { refl s with levels := h }

theorem stage (h : s.Retypes s') : s.stage ≤ s'.stage :=
  ⟨Nat.le_of_eq (congrArg Holes.size h.holes).symm, h.levels.nextId, h.levels.seen.subset⟩

theorem importSignature (s : Solver) (sig : Signature) : s.Retypes (s.importSignature sig) := by
  obtain ⟨-, -, -, hlevels, himports, hspeculative, -⟩ := Recorded.importSignature s sig
  refine ⟨?_, ?_, hspeculative, hlevels, himports⟩
  all_goals
    unfold Solver.importSignature
    split <;> rfl

theorem toExtends (h : s.Retypes s') : s.Extends s' where
  size := by rw [h.holes]
  name i := by rw [h.holes]
  type i := by rw [h.holes]
  solved i t hi := by rwa [h.holes]
  levels := h.levels
  imports := h.imports
  speculative := h.speculative
  stash := by
    refine ⟨[], h.stash, fun _ => ?_, fun _ => rfl⟩
    exact h.holes

end Solver.Retypes

namespace LevelStore

/-- A constraint that was added to a store is not a trivial one. -/
theorem mem_add {store : LevelStore} {c d : Constraint} (hd : d ∈ (store.add c).constraints) :
    d ∈ store.constraints ∨ d = c ∧ c.isTrivial = false := by
  unfold add at hd
  split at hd
  · exact .inl hd
  · rename_i hnew
    rcases List.mem_append.mp hd with hold | hadded
    · exact .inl hold
    · simp only [Bool.or_eq_true, not_or, Bool.not_eq_true] at hnew
      exact .inr ⟨List.mem_singleton.mp hadded, hnew.1⟩

/-- The constraints of a list are those of the store or have been added to it. -/
theorem mem_importAll {store : LevelStore} {cs : List Constraint} {c : Constraint}
    (hc : c ∈ (store.importAll cs).constraints) :
    c ∈ store.constraints ∨ c ∈ cs ∧ c.isTrivial = false := by
  unfold importAll at hc
  induction cs generalizing store with
  | nil => exact .inl hc
  | cons d cs ih =>
    rcases ih hc with hold | ⟨hnew, hproper⟩
    · rcases mem_add hold with hold | ⟨rfl, hproper⟩
      · exact .inl hold
      · exact .inr ⟨List.mem_cons_self, hproper⟩
    · exact .inr ⟨List.mem_cons_of_mem d hnew, hproper⟩

/-- A constraint that is added is seen, unless it is trivial. -/
theorem add_mem (store : LevelStore) (c : Constraint) :
    c.isTrivial = true ∨ c ∈ (store.add c).seen := by
  unfold add
  split
  · rename_i hskip
    rcases Bool.or_eq_true_iff.mp hskip with htrivial | hpresent
    · exact .inl htrivial
    · exact .inr (List.contains_iff_mem.mp hpresent)
  · exact .inr List.mem_cons_self

theorem importAll_mem (store : LevelStore) {cs : List Constraint} {c : Constraint}
    (hc : c ∈ cs) : c.isTrivial = true ∨ c ∈ (store.importAll cs).seen := by
  induction cs generalizing store with
  | nil => simp at hc
  | cons d cs ih =>
    rcases List.mem_cons.mp hc with rfl | hc
    · exact (store.add_mem c).imp_right fun hmem =>
        (Grows.importAll (store.add c) cs).seen.subset hmem
    · exact ih (store.add d) hc

end LevelStore

namespace Solver.Sound

variable {σ : Scope} {s : Solver}

/-- What is known does not depend on the order in which the store grew. -/
theorem retypes {s' : Solver} (hs : s.Sound σ) (h : s.Retypes s')
    (hnew : ∀ c ∈ s'.levels.constraints, c ∈ s.levels.constraints ∨
      c.Made σ s'.stage ∧ c.isTrivial = false)
    (himports : ∀ sig, σ.known sig → sig.name ∈ s'.imported → sig.name ∈ s.imported ∨
      ∀ c ∈ sig.constraints, c.SeenAt s'.stage) : s'.Sound σ where
  table := by
    rw [h.holes]
    exact hs.table.mono h.stage (congrArg Holes.size h.holes).symm
  constraints c hc := by
    rcases hnew c hc with hold | ⟨hmade, -⟩
    · obtain ⟨hlo, hhi⟩ := hs.constraints c hold
      exact ⟨hlo.mono h.stage, hhi.mono h.stage⟩
    · exact hmade
  imports sig hsig hname c hc := by
    rcases himports sig hsig hname with hold | hseen
    · exact (hs.imports sig hsig hold c hc).mono h.stage
    · exact hseen c hc
  seen htracks := h.levels.entered.subset (hs.seen htracks)
  proper htracks c hc := by
    rcases hnew c hc with hold | ⟨-, hproper⟩
    · exact hs.proper htracks c hold
    · exact hproper
  supply id c := by
    rw [h.levels.owner, h.levels.ofDecl]
    exact hs.supply id c

theorem fresh (hs : s.Sound σ) : Solver.Sound σ { s with levels := s.levels.fresh.2 } :=
  hs.retypes (.of_levels (.fresh s.levels)) (fun _ hc => .inl hc) fun _ _ hname => .inl hname

theorem add (hs : s.Sound σ) {c : Constraint} (hc : c.Made σ s.stage) :
    Solver.Sound σ { s with levels := s.levels.add c } := by
  have hstep : s.Retypes { s with levels := s.levels.add c } := .of_levels (.add s.levels c)
  refine hs.retypes hstep (fun d hd => ?_) fun _ _ hname => .inl hname
  rcases LevelStore.mem_add hd with hold | ⟨rfl, hproper⟩
  · exact .inl hold
  · exact .inr ⟨⟨hc.1.mono hstep.stage, hc.2.mono hstep.stage⟩, hproper⟩

/-- The import of a signature brings all its constraints. -/
theorem importSignature (hs : s.Sound σ) {sig : Signature} (hsig : sig.Within σ) :
    (s.importSignature sig).Sound σ := by
  have hstep : s.Retypes (s.importSignature sig) := .importSignature s sig
  unfold Solver.importSignature at hstep ⊢
  split
  · exact hs
  · rename_i himport
    rw [if_neg himport] at hstep
    refine hs.retypes hstep (fun c hc => ?_) fun other hother hname => ?_
    · refine (LevelStore.mem_importAll hc).imp_right fun hnew => ⟨?_, hnew.2⟩
      refine hsig.constraints _ ?_ c hnew.1
      exact fun d hd => s.levels.importAll_mem hd
    · rcases List.mem_cons.mp hname with hnew | hold
      · obtain rfl := hsig.only other hother hnew
        exact .inr fun c hc => s.levels.importAll_mem hc
      · exact .inl hold

/-- After its import a signature can be used. -/
theorem readyAt (hs : s.Sound σ) (sig : Signature) :
    sig.ReadyAt σ (s.importSignature sig).stage := by
  intro hknown c hc
  unfold Solver.importSignature
  split
  · rename_i hskip
    simp only [Bool.or_eq_true, List.isEmpty_iff, List.contains_iff_mem] at hskip
    rcases hskip with hnone | himported
    · simp [hnone] at hc
    · exact hs.imports sig hknown himported c hc
  · exact s.levels.importAll_mem hc

end Solver.Sound

def Context.Scoped (σ : Scope) (n : Stage) (hyps : Context) : Prop :=
  ∀ hyp ∈ hyps.hypotheses, hyp.type.Scoped σ n

namespace Context.Scoped

variable {σ : Scope} {n m : Stage} {hyps : Context}

theorem mono (h : hyps.Scoped σ n) (hnm : n ≤ m) : hyps.Scoped σ m :=
  fun hyp hhyp => (h hyp hhyp).mono hnm

theorem lookup (h : hyps.Scoped σ n) {name : String} {type : Term}
    (htype : hyps.lookup? name = some type) : type.Scoped σ n := by
  obtain ⟨hyp, hfind, hsome⟩ := Option.bind_eq_some_iff.mp htype
  have hscoped := h hyp (List.mem_of_find?_eq_some hfind)
  cases hmissing : hyp.type with
  | missing => simp [hmissing, toOption] at hsome
  | _ =>
    rw [hmissing] at hsome hscoped
    exact Option.some.inj hsome ▸ hscoped

theorem extend (h : hyps.Scoped σ n) {type : Term} (htype : type.Scoped σ n) (name : String) :
    (hyps.extend name type).Scoped σ n := by
  intro hyp hhyp
  rcases List.mem_cons.mp hhyp with rfl | hold
  · exact htype
  · exact h hyp hold

end Context.Scoped

namespace Solve

variable {α β : Type}

/-- A typing step: it changes only levels and imports, keeps the solver sound, and its value and the
state that it leads to satisfy a condition. -/
def Types (σ : Scope) (s : Solver) (x : Solve α) (Q : α → Solver → Prop) : Prop :=
  Ends x s (fun a s' => s.Retypes s' ∧ s'.Sound σ ∧ Q a s') fun _ s' => s.Retypes s' ∧ s'.Sound σ

namespace Types

variable {σ : Scope} {s : Solver} {x : Solve α} {Q Q' : α → Solver → Prop}
  {R : β → Solver → Prop}

theorem pure {a : α} (hs : s.Sound σ) (ha : Q a s) : Types σ s (pure a) Q := ⟨.refl s, hs, ha⟩

theorem throw (hs : s.Sound σ) (e : Fault) : Types σ s (throw e) Q := ⟨.refl s, hs⟩

theorem throw_bind (hs : s.Sound σ) (e : Fault) (f : β → Solve α) :
    Types σ s (MonadExcept.throw e >>= f) Q :=
  ends_bind.mpr ⟨.refl s, hs⟩

theorem bind {f : α → Solve β} (hx : Types σ s x Q)
    (hf : ∀ a s', s'.Sound σ → s.Retypes s' → Q a s' → Types σ s' (f a) R) :
    Types σ s (x >>= f) R := by
  rw [Types, ends_bind]
  apply Ends.mono hx
  · rintro a s' ⟨hstep, hs', ha⟩
    apply Ends.mono (hf a s' hs' hstep ha)
    · rintro b s'' ⟨hstep', hs'', hb⟩
      exact ⟨hstep.trans hstep', hs'', hb⟩
    · rintro _ s'' ⟨hstep', hs''⟩
      exact ⟨hstep.trans hstep', hs''⟩
  · exact fun _ _ h => h

theorem tryCatch {f : Fault → Solve α} (hx : Types σ s x Q)
    (hf : ∀ e s', s'.Sound σ → s.Retypes s' → Types σ s' (f e) Q) :
    Types σ s (tryCatch x f) Q := by
  rw [Types, ends_tryCatch]
  apply Ends.mono hx
  · exact fun _ _ h => h
  · rintro e s' ⟨hstep, hs'⟩
    apply Ends.mono (hf e s' hs' hstep)
    · rintro a s'' ⟨hstep', hs'', ha⟩
      exact ⟨hstep.trans hstep', hs'', ha⟩
    · rintro _ s'' ⟨hstep', hs''⟩
      exact ⟨hstep.trans hstep', hs''⟩

theorem mono (hx : Types σ s x Q) (hQ : ∀ a s', s.Retypes s' → Q a s' → Q' a s') :
    Types σ s x Q' := by
  apply Ends.mono hx
  · rintro a s' ⟨hstep, hs', ha⟩
    exact ⟨hstep, hs', hQ a s' hstep ha⟩
  · exact fun _ _ h => h

theorem and (hx : Types σ s x Q) (hx' : Types σ s x Q') :
    Types σ s x fun a s' => Q a s' ∧ Q' a s' := by
  unfold Types Ends at *
  generalize x.run s = r at hx hx' ⊢
  rcases r with ⟨e | a, s'⟩
  · exact hx
  · exact ⟨hx.1, hx.2.1, hx.2.2, hx'.2.2⟩

theorem holes (hs : s.Sound σ) : Types σ s holes fun h s' => h = s.holes ∧ s' = s :=
  ⟨.refl s, hs, rfl, rfl⟩

theorem text (hs : s.Sound σ) (t : Term) : Types σ s (text t) fun _ s' => s' = s :=
  ⟨.refl s, hs, rfl⟩

theorem add (hs : s.Sound σ) {c : Constraint} (hc : c.Made σ s.stage) :
    Types σ s (modifyLevels (·.add c)) fun _ s' => s' = { s with levels := s.levels.add c } :=
  ⟨.of_levels (.add s.levels c), hs.add hc, rfl⟩

/-- Equating two levels adds two constraints. -/
theorem equate (hs : s.Sound σ) {l m : Level} (hl : l.Made σ s.stage) (hm : m.Made σ s.stage)
    (origin : String) : Types σ s (modifyLevels (·.equate l m origin)) fun _ s' =>
      s' = { s with levels := s.levels.equate l m origin } := by
  have hs₁ := hs.add (c := ⟨l, m, false, origin⟩) ⟨hl, hm⟩
  have hle : s.stage ≤ Solver.stage { s with levels := s.levels.le l m origin } :=
    (Solver.Retypes.of_levels (.le s.levels l m origin)).stage
  exact ⟨.of_levels (.equate s.levels l m origin),
    hs₁.add (c := ⟨m, l, false, origin⟩) ⟨hm.mono hle, hl.mono hle⟩, rfl⟩

theorem freshLevel (hs : s.Sound σ) : Types σ s freshLevel fun l s' =>
    l = .var s.levels.fresh.1 ∧ s' = { s with levels := s.levels.fresh.2 } ∧ l.Made σ s'.stage := by
  refine ⟨.of_levels (.fresh s.levels), hs.fresh, rfl, rfl, fun _ => ?_, fun c hc => ?_⟩
  · exact Int.ofNat_lt.mpr (Nat.lt_succ_self s.levels.nextId)
  · exact absurd hc (hs.supply _ c)

theorem lookupSignature? {env : Declarations} (henv : env.Within σ) (hs : s.Sound σ)
    (name : String) : Types σ s (lookupSignature? env name) fun r s' =>
      r = env.signature? name ∧ ∀ sig, r = some sig → s' = s.importSignature sig := by
  unfold Solve.lookupSignature?
  split
  · rename_i hsig
    exact pure hs ⟨hsig.symm, by simp⟩
  · rename_i sig hsig
    refine ⟨.importSignature s sig, hs.importSignature (henv.signature name sig hsig),
      hsig.symm, ?_⟩
    rintro _ ⟨⟩
    rfl

end Types

section Scoping

variable {σ : Scope} {env : Declarations} {s : Solver}

theorem asUniverse_types (hs : s.Sound σ) (t type : Term) :
    Types σ s (asUniverse env t type) fun l s' =>
      s' = s ∧ s.holes.normalize env type = .sort (.level l) := by
  unfold asUniverse
  refine (Types.holes hs).bind fun h s' hs' _ hh => ?_
  obtain ⟨rfl, rfl⟩ := hh
  split
  · rename_i l hl
    exact .pure hs' ⟨rfl, hl⟩
  · exact (Types.text hs' t).bind fun _ _ hs'' _ _ => .throw hs'' _
  · exact (Types.text hs' t).bind fun _ _ hs'' _ _ => .throw hs'' _

/-- The level of a universe that a type of the scope is read as has been made. -/
theorem made_of_normalize (henv : env.Within σ) (hs : s.Sound σ) {type : Term}
    (htype : type.Scoped σ s.stage) {l : Level}
    (hl : s.holes.normalize env type = .sort (.level l)) : l.Made σ s.stage := by
  have hnormal := hs.table.normalize henv.toReducesWithin htype
  rw [hl] at hnormal
  exact scoped_universe.mp hnormal

/-- The type of an application is the rest of the function type behind the arguments. -/
theorem applyType_types (henv : env.Within σ) (hs : s.Sound σ) {fn fnType : Term} {args : List Term}
    (htype : fnType.Scoped σ s.stage) (hargs : ∀ a ∈ args, a.Scoped σ s.stage) :
    Types σ s (applyType env fn fnType args) fun type s' => s' = s ∧ type.Scoped σ s.stage ∧
      ∃ params result, s.holes.normalize env fnType = .pi params result ∧
        args.length ≤ params.length ∧
        type = s.holes.subst ((params.map (·.name)).zip args).reverse
          (if (params.drop args.length).isEmpty then result
            else .pi (params.drop args.length) result) := by
  have hrefuse : ∀ Q : Term → Solver → Prop, Types σ s (do throw (.notApplicable (← text fn)
      (← text fnType) (← text (.app fn args)))) Q := by
    intro Q
    refine (Types.text hs fn).bind fun _ s₁ hs₁ _ _ => ?_
    refine (Types.text hs₁ fnType).bind fun _ s₂ hs₂ _ _ => ?_
    exact (Types.text hs₂ (.app fn args)).bind fun _ _ hs₃ _ _ => .throw hs₃ _
  unfold applyType
  refine (Types.holes hs).bind fun h s' _ _ hh => ?_
  obtain ⟨rfl, rfl⟩ := hh
  have hnormal := hs.table.normalize henv.toReducesWithin htype
  split
  · rename_i params result hpi
    rw [hpi] at hnormal
    obtain - | - | - | - | - | - | ⟨hnames, hsealed, htypes, hresult⟩ := hnormal
    split
    · exact hrefuse _
    · rename_i hlen
      refine .pure hs ⟨rfl, hs.table.subst ?_ ?_, params, result, hpi, Nat.le_of_not_lt hlen, rfl⟩
      · have hdrop : ∀ {p}, p ∈ params.drop args.length → p ∈ params := List.mem_of_mem_drop
        split
        · exact hresult
        · exact .pi (fun p hp => hnames p (hdrop hp)) (fun hσ p hp => hsealed hσ p (hdrop hp))
            (fun p hp => htypes p (hdrop hp)) hresult
      · intro entry hentry
        have hzip := List.mem_reverse.mp hentry
        exact hargs entry.2 (List.of_mem_zip hzip).2
  · exact hrefuse _

theorem signature_type_scoped (henv : env.Within σ) {name : String} {sig : Signature}
    (hsig : env.signature? name = some sig) {n : Stage} (hready : sig.ReadyAt σ n) :
    sig.type.Scoped σ n := by
  have hpi := (henv.signature name sig hsig).pi n hready
  unfold Signature.type
  split
  · obtain - | - | - | - | - | - | ⟨_, _, _, hresult⟩ := hpi
    exact hresult
  · exact hpi

theorem universeAbove_types (hs : s.Sound σ) {l : Level} (hl : l.Made σ s.stage) :
    Types σ s (universeAbove l) fun type s' => type.Scoped σ s'.stage := by
  refine (Types.freshLevel hs).bind fun above s₁ hs₁ hstep₁ hfresh => ?_
  obtain ⟨-, -, hmade⟩ := hfresh
  refine (Types.add hs₁ ⟨hl.mono hstep₁.stage, hmade⟩).bind fun _ s₂ hs₂ hstep₂ _ => ?_
  exact .pure hs₂ (scoped_universe.mpr (hmade.mono hstep₂.stage))

def InfersWithin (σ : Scope) (env : Declarations) (levelOfType : Context → Term → Solve Level)
    (t : Term) : Prop :=
  ∀ (s : Solver) (hyps : Context), s.Sound σ → hyps.Scoped σ s.stage → t.Scoped σ s.stage →
    Types σ s (infer env levelOfType hyps t) fun type s' => type.Scoped σ s'.stage

theorem inferBelow_types (henv : env.Within σ) {levelOfType : Context → Term → Solve Level}
    {level : Level} {t : Term} {hyps : Context} (hinfer : InfersWithin σ env levelOfType t)
    (hs : s.Sound σ) (hlevel : level.Made σ s.stage) (hhyps : hyps.Scoped σ s.stage)
    (ht : t.Scoped σ s.stage) (origin : String → String) :
    Types σ s (inferBelow env levelOfType level hyps t origin) fun _ _ => True := by
  refine (hinfer s hyps hs hhyps ht).bind fun type s₁ hs₁ hstep₁ htype => ?_
  refine (asUniverse_types hs₁ t type).bind fun lo s₂ _ _ hlo => ?_
  obtain ⟨rfl, hlo⟩ := hlo
  refine (Types.text hs₁ t).bind fun shown s₃ _ _ h₃ => ?_
  subst h₃
  have hmade := made_of_normalize henv hs₁ htype hlo
  exact (Types.add hs₁ ⟨hmade, hlevel.mono hstep₁.stage⟩).mono fun _ _ _ _ => trivial

theorem inferParts_types (henv : env.Within σ) {levelOfType : Context → Term → Solve Level}
    {level : Level} {params : List (Param Term)} {result : Term} {hyps : Context}
    (hinfer : ∀ p ∈ params, InfersWithin σ env levelOfType p.type)
    (hinfer' : InfersWithin σ env levelOfType result) (hs : s.Sound σ)
    (hlevel : level.Made σ s.stage) (hparams : ∀ p ∈ params, p.type.Scoped σ s.stage)
    (hresult : result.Scoped σ s.stage) (hhyps : hyps.Scoped σ s.stage) :
    Types σ s (inferParts env levelOfType level result hyps params) fun _ _ => True := by
  induction params generalizing hyps s with
  | nil => exact inferBelow_types henv hinfer' hs hlevel hhyps hresult _
  | cons p params ih =>
    have hp := hparams p (by simp)
    refine (inferBelow_types henv (hinfer p (by simp)) hs hlevel hhyps hp _).bind
      fun _ s₁ hs₁ hstep _ => ?_
    exact ih (fun q hq => hinfer q (by simp [hq])) hs₁ (hlevel.mono hstep.stage)
      (fun q hq => (hparams q (by simp [hq])).mono hstep.stage) (hresult.mono hstep.stage)
      ((hhyps.mono hstep.stage).extend (hp.mono hstep.stage) p.name)

theorem infer_types (henv : env.Within σ) {levelOfType : Context → Term → Solve Level}
    (hlevel : ∀ (s : Solver) hyps type, s.Sound σ → hyps.Scoped σ s.stage →
      type.Scoped σ s.stage →
        Types σ s (levelOfType hyps type) fun l s' => l.Made σ s'.stage)
    {t : Term} {hyps : Context} (hs : s.Sound σ) (hhyps : hyps.Scoped σ s.stage)
    (ht : t.Scoped σ s.stage) :
    Types σ s (infer env levelOfType hyps t) fun type s' => type.Scoped σ s'.stage := by
  induction t using Term.induct generalizing hyps s with
  | missing =>
    exact (Types.text hs .missing).bind fun _ _ hs' _ _ => .throw hs' _
  | const name =>
    rw [infer]
    refine (Types.lookupSignature? henv hs name).bind fun found s' hs' _ hfound => ?_
    split
    · exact .throw hs' _
    · rename_i sig
      obtain rfl := hfound.2 sig rfl
      exact .pure hs' (signature_type_scoped henv hfound.1.symm (hs.readyAt sig))
  | lit text type =>
    obtain - | - | ⟨_, htype⟩ := ht
    cases type with
    | missing => exact .throw hs _
    | _ => exact .pure hs htype
  | bound name =>
    rw [infer]
    split
    · exact .throw hs _
    · rename_i type htype
      exact .pure hs (hhyps.lookup htype)
  | hole id =>
    obtain - | - | - | - | ⟨hbase, hmade⟩ := ht
    rw [infer]
    refine (Types.holes hs).bind fun h s' hs' _ hh => ?_
    obtain ⟨rfl, rfl⟩ := hh
    split
    · exact .throw hs' _
    · exact .pure hs' (hs'.table.type id hbase hmade)
  | app fn args ihf =>
    obtain - | - | - | - | - | ⟨_, hfn, hargs⟩ := ht
    rw [infer]
    refine (ihf hs hhyps hfn).bind fun fnType s' hs' hstep hfnType => ?_
    refine (applyType_types henv hs' hfnType fun a ha => (hargs a ha).mono hstep.stage).mono ?_
    rintro type s'' _ ⟨rfl, htype, -⟩
    exact htype
  | pi params result ihparams ihr =>
    obtain - | - | - | - | - | - | ⟨_, _, htypes, hresult⟩ := ht
    rw [infer_pi]
    refine (Types.freshLevel hs).bind fun level s₁ hs₁ hstep₁ hfresh => ?_
    obtain ⟨-, -, hmade⟩ := hfresh
    refine (inferParts_types henv (fun p hp s hyps hs hhyps htype => ihparams p hp hs hhyps htype)
      (fun s hyps hs hhyps hresult => ihr hs hhyps hresult) hs₁ hmade
      (fun p hp => (htypes p hp).mono hstep₁.stage) (hresult.mono hstep₁.stage)
      (hhyps.mono hstep₁.stage)).bind fun _ s₂ hs₂ hstep₂ _ => ?_
    exact .pure hs₂ (scoped_universe.mpr (hmade.mono hstep₂.stage))
  | sort u =>
    cases u with
    | unassigned k => exact .throw hs _
    | level l =>
      rw [infer_universe]
      split
      · exact universeAbove_types hs (scoped_universe.mp ht)
      · exact .throw hs _
  | eq lhs rhs ihl =>
    obtain - | - | - | - | - | - | - | - | ⟨hlhs, _⟩ := ht
    rw [infer]
    refine (ihl hs hhyps hlhs).bind fun type s₁ hs₁ hstep₁ htype => ?_
    refine (hlevel s₁ hyps type hs₁ (hhyps.mono hstep₁.stage) htype).bind fun l s₂ hs₂ _ hl => ?_
    exact .pure hs₂ (scoped_universe.mpr hl)
  | refl value =>
    obtain - | - | - | - | - | - | - | - | - | hvalue := ht
    exact .pure hs (.eq hvalue hvalue)

/-- A type of the scope that is read as a universe gives a level that has been made. -/
theorem universe_types (henv : env.Within σ) {x : Solve Term}
    (hx : Types σ s x fun type s' => type.Scoped σ s'.stage) (t : Term) :
    Types σ s (x >>= asUniverse env t) fun l s' => l.Made σ s'.stage := by
  refine hx.bind fun type s₁ hs₁ _ htype => ?_
  refine (asUniverse_types hs₁ t type).mono ?_
  rintro l s₂ _ ⟨rfl, hl⟩
  exact made_of_normalize henv hs₁ htype hl

theorem typeOfN_types (henv : env.Within σ) (k : Nat) {t : Term} {hyps : Context} (hs : s.Sound σ)
    (hhyps : hyps.Scoped σ s.stage) (ht : t.Scoped σ s.stage) :
    Types σ s (typeOfN env k hyps t) fun type s' => type.Scoped σ s'.stage := by
  induction k generalizing hyps t s with
  | zero => exact .throw hs _
  | succ k ih =>
    rw [typeOfN]
    refine (Types.holes hs).bind fun h s' hs' _ hh => ?_
    obtain ⟨rfl, rfl⟩ := hh
    refine infer_types henv ?_ hs' hhyps (hs'.table.expand ht)
    exact fun s hyps type hs hhyps htype => universe_types henv (ih hs hhyps htype) type

/-- The type of a term lies within the scope of the term and its context. -/
theorem typeOf_types (henv : env.Within σ) {t : Term} {hyps : Context} (hs : s.Sound σ)
    (hhyps : hyps.Scoped σ s.stage) (ht : t.Scoped σ s.stage) :
    Types σ s (typeOf env hyps t) fun type s' => type.Scoped σ s'.stage := by
  unfold typeOf
  refine (Types.holes hs).bind fun h s' hs' _ hh => ?_
  obtain ⟨rfl, rfl⟩ := hh
  exact typeOfN_types henv _ hs' hhyps ht

theorem levelOf_types (henv : env.Within σ) {t : Term} {hyps : Context} (hs : s.Sound σ)
    (hhyps : hyps.Scoped σ s.stage) (ht : t.Scoped σ s.stage) :
    Types σ s (levelOf env hyps t) fun l s' => l.Made σ s'.stage :=
  universe_types henv (typeOf_types henv hs hhyps ht) t

end Scoping

end Solve

end Implicits
