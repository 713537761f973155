import Implicits.Proofs.Solver.Rollback
import Implicits.Proofs.Solver.Typing
import Implicits.Proofs.Term.Literals

/-!
Solutions without circles. A hole is solved only while it is open and only by a term in which it
does not occur, so no chain of links closes; and a rollback only takes solutions away, since the
stash holds open holes. Both stay true through every operation, whatever terms, contexts and
declarations it is given.
-/
namespace Implicits

open Relation

namespace Holes

variable {h h' : Holes} {id : HoleId} {t : Term}

/-- Taking solutions away closes no circle. -/
theorem Acyclic.of_solved (hh : h.Acyclic)
    (hsolved : ∀ i t, h'.solution? i = some t → h.solution? i = some t) : h'.Acyclic := by
  intro i hcircle
  refine hh i (TransGen.mono ?_ _ _ hcircle)
  rintro j k ⟨t, ht, hk⟩
  exact ⟨t, hsolved j t ht, hk⟩

theorem acyclic_of_open (hopen : ∀ i, h.solution? i = none) : h.Acyclic := by
  intro i hcircle
  rcases TransGen.head'_iff.mp hcircle with ⟨j, ⟨t, ht, -⟩, -⟩
  simp [hopen] at ht

/-- A solution behind the solving of a hole is an old one or the new one. -/
theorem solution?_solve {i : HoleId} {u : Term} (hu : (h.solve id t).solution? i = some u) :
    h.solution? i = some u ∨ u = t := by
  rw [solve, solution?_setSolution] at hu
  by_cases hi : id = i
  · rw [if_pos hi] at hu
    split at hu
    · cases t with
      | missing => simp [Term.toOption] at hu
      | _ => exact .inr (Option.some.inj hu).symm
    · simp at hu
  · rw [if_neg hi] at hu
    exact .inl hu

theorem Acyclic.solve (hh : h.Acyclic) (hopen : h.solution? id = none)
    (hocc : h.occurs id t = false) : (h.solve id t).Acyclic := by
  cases hmissing : t.toOption with
  | none =>
    refine hh.of_solved fun i u hu => ?_
    rw [Holes.solve, hmissing, solution?_setSolution] at hu
    by_cases hi : id = i
    · simp [hi] at hu
    · rwa [if_neg hi] at hu
  | some u =>
    have hut : u = t := by
      cases t with
      | missing => simp [Term.toOption] at hmissing
      | _ => exact (Option.some.inj hmissing).symm
    intro i
    rw [Holes.solve, hmissing, hut]
    exact not_transGen_setSolution hopen (fun j _ => hh.grounded j) hocc (hh i)

theorem Sealed.solve (hh : h.Sealed) (ht : t.Sealed) : (h.solve id t).Sealed := by
  intro i u hu
  rcases solution?_solve hu with hold | rfl
  · exact hh i u hold
  · exact ht

/-- Restoring open holes only takes solutions away. -/
theorem solution?_foldl_restore {stash : List SavedSolution}
    (hstash : ∀ saved ∈ stash, saved.before = none) {i : HoleId} {u : Term}
    (hu : (stash.foldl Solver.restore h).solution? i = some u) : h.solution? i = some u := by
  induction stash generalizing h with
  | nil => exact hu
  | cons saved stash ih =>
    have hrest := ih (fun entry hentry => hstash entry (by simp [hentry])) hu
    rw [Solver.restore, hstash saved (by simp), solution?_setSolution] at hrest
    by_cases hi : saved.hole = i
    · simp [hi] at hrest
    · rwa [if_neg hi] at hrest

end Holes

namespace Solver

/-- What keeps solutions from being circular: no chain of links closes, and what a rollback may
restore are open holes. Under the assumption `σ` the solutions are also sealed. -/
structure Guarded (σ : Prop) (s : Solver) : Prop where
  acyclic : s.holes.Acyclic
  stashed : ∀ saved ∈ s.stash, saved.before = none
  isSealed : σ → s.holes.Sealed

namespace Guarded

variable {σ : Prop} {s s' : Solver}

/-- A state with fewer solutions and a smaller stash. -/
theorem of_solved (hs : s.Guarded σ)
    (hsolved : ∀ i t, s'.holes.solution? i = some t → s.holes.solution? i = some t)
    (hstash : s'.stash ⊆ s.stash) : s'.Guarded σ where
  acyclic := hs.acyclic.of_solved hsolved
  stashed saved hsaved := hs.stashed saved (hstash hsaved)
  isSealed hσ i t ht := hs.isSealed hσ i t (hsolved i t ht)

theorem speculate (hs : s.Guarded σ) : s.speculate.Guarded σ :=
  ⟨hs.acyclic, hs.stashed, hs.isSealed⟩

theorem rollback (hs : s.Guarded σ) (m : Mark) : (s.rollback m).Guarded σ := by
  refine hs.of_solved (fun i t ht => ?_) (List.drop_subset _ _)
  exact Holes.solution?_foldl_restore
    (fun saved hsaved => hs.stashed saved (List.take_subset _ _ hsaved)) ht

theorem commit (hs : s.Guarded σ) (m : Mark) : (s.commit m).Guarded σ := by
  refine hs.of_solved (fun i t ht => ht) ?_
  unfold Solver.commit
  dsimp only
  split
  · exact List.Subset.refl _
  · exact List.drop_subset _ _

theorem retypes (hs : s.Guarded σ) (h : s.Retypes s') : s'.Guarded σ :=
  hs.of_solved (fun i t ht => by rwa [h.holes] at ht) (by rw [h.stash]; exact List.Subset.refl _)

theorem addHole (hs : s.Guarded σ) (name : String) (type : Term) :
    (s.addHole name type).2.Guarded σ :=
  hs.of_solved (fun i t ht => by rwa [Solver.addHole, Holes.solution?_add] at ht)
    (List.Subset.refl _)

theorem solve (hs : s.Guarded σ) {id : HoleId} {t : Term} (hopen : s.holes.solution? id = none)
    (hocc : s.holes.occurs id t = false) (ht : σ → t.Sealed) : (s.solve id t).Guarded σ where
  acyclic := hs.acyclic.solve hopen hocc
  stashed saved hsaved := by
    unfold Solver.solve at hsaved
    dsimp only at hsaved
    split at hsaved
    · rcases List.mem_cons.mp hsaved with rfl | hold
      · exact hopen
      · exact hs.stashed saved hold
    · exact hs.stashed saved hsaved
  isSealed hσ := (hs.isSealed hσ).solve (ht hσ)

end Guarded

theorem Admits.retypes : Admits Retypes :=
  ⟨.refl, .trans, fun hgrows _ => .of_levels hgrows, .importSignature⟩

end Solver

namespace Solve

variable {σ : Prop} {s : Solver} {α β : Type}

def Guards (σ : Prop) (s : Solver) (x : Solve α) (Q : α → Prop) : Prop :=
  Ends x s (fun a s' => s.Extends s' ∧ s'.Guarded σ ∧ Q a) fun _ s' => s.Extends s' ∧ s'.Guarded σ

namespace Guards

variable {x : Solve α} {Q : α → Prop} {R : β → Prop}

theorem pure (hs : s.Guarded σ) {a : α} (ha : Q a) : Guards σ s (pure a) Q := ⟨.refl s, hs, ha⟩

theorem throw (hs : s.Guarded σ) (e : Fault) : Guards σ s (throw e) Q := ⟨.refl s, hs⟩

theorem holes (hs : s.Guarded σ) : Guards σ s holes (· = s.holes) := ⟨.refl s, hs, rfl⟩

theorem text (hs : s.Guarded σ) (t : Term) : Guards σ s (text t) fun _ => True :=
  ⟨.refl s, hs, trivial⟩

theorem modifyLevels (hs : s.Guarded σ) {f : LevelStore → LevelStore}
    (hf : ∀ store, LevelStore.Grows store (f store)) :
    Guards σ s (modifyLevels f) fun _ => True := by
  have hstep : s.Retypes { s with levels := f s.levels } := .of_levels (hf s.levels)
  exact ⟨hstep.toExtends, hs.retypes hstep, trivial⟩

theorem bind {f : α → Solve β} (hx : Guards σ s x Q)
    (hf : ∀ a s', s.Extends s' → s'.Guarded σ → Q a → Guards σ s' (f a) R) :
    Guards σ s (x >>= f) R := by
  rw [Guards, ends_bind]
  apply Ends.mono hx
  · rintro a s' ⟨hstep, hs', ha⟩
    apply Ends.mono (hf a s' hstep hs' ha)
    · rintro b s'' ⟨hstep', hs'', hb⟩
      exact ⟨hstep.trans hstep', hs'', hb⟩
    · rintro e s'' ⟨hstep', hs''⟩
      exact ⟨hstep.trans hstep', hs''⟩
  · exact fun _ _ h => h

theorem tryCatch {f : Fault → Solve α} (hx : Guards σ s x Q)
    (hf : ∀ e s', s.Extends s' → s'.Guarded σ → Guards σ s' (f e) Q) :
    Guards σ s (tryCatch x f) Q := by
  rw [Guards, ends_tryCatch]
  apply Ends.mono hx
  · exact fun _ _ h => h
  · rintro e s' ⟨hstep, hs'⟩
    apply Ends.mono (hf e s' hstep hs')
    · rintro a s'' ⟨hstep', hs'', ha⟩
      exact ⟨hstep.trans hstep', hs'', ha⟩
    · rintro e' s'' ⟨hstep', hs''⟩
      exact ⟨hstep.trans hstep', hs''⟩

theorem attempt (hx : Guards σ s.speculate x Q) : Guards σ s (attempt x) Q := by
  rw [Guards, ends_attempt]
  apply Ends.mono hx
  · rintro a s' ⟨hstep, hs', ha⟩
    exact ⟨hstep.of_commit, hs'.commit s.mark, ha⟩
  · rintro e s' ⟨hstep, hs'⟩
    exact ⟨hstep.of_rollback, hs'.rollback s.mark⟩

theorem run (hx : Guards σ s x Q) : s.Extends (x.run s).2 ∧ (x.run s).2.Guarded σ := by
  unfold Guards Ends at hx
  generalize x.run s = r at hx ⊢
  obtain ⟨e | a, s'⟩ := r
  · exact hx
  · exact ⟨hx.1, hx.2.1⟩

end Guards

section Unify

variable {env : Declarations} {recur : Context → Term → Term → Solve Unit} {a b : Term}

theorem mismatch_guards (hs : s.Guarded σ) (a b : Term) {Q : α → Prop} :
    Guards σ s (mismatch a b : Solve α) Q :=
  (Guards.text hs a).bind fun _ _ _ hs₁ _ =>
    (Guards.text hs₁ b).bind fun _ _ _ hs₂ _ => .throw hs₂ _

/-- The level of a solution is found before the hole is solved, and finding it solves nothing. -/
theorem bind_guards (hs : s.Guarded σ) {id : HoleId}
    (hopen : s.holes.solution? id = none) {t : Term} (ht : σ → t.Sealed) (hyps : Context) :
    Guards σ s (bind env hyps id t) fun _ => True := by
  have hsolve : ∀ s', s.Retypes s' → s.holes.occurs id t = false →
      s.Extends (s'.solve id t) ∧ (s'.solve id t).Guarded σ ∧ True := by
    intro s' hstep hocc
    rw [← hstep.holes] at hocc hopen
    exact ⟨hstep.toExtends.trans (.solve hopen t), (hs.retypes hstep).solve hopen hocc ht, trivial⟩
  unfold bind
  rw [Guards, ends_bind, ends_holes]
  dsimp only
  split
  · exact (Guards.text hs t).bind fun _ _ _ hs₁ _ => .throw hs₁ _
  · rename_i hocc
    rw [Bool.not_eq_true] at hocc
    split
    · exact hsolve s (.refl s) hocc
    · rename_i l _
      have hlevel : Leads Solver.Retypes (do
          let level ← tryCatch (levelOf env hyps t) fun e => do
            throw (.badSolution (s.holes.name id) (← text t) e)
          modifyLevels
            (·.le level l ("solution of ?" ++ s.holes.name id ++ " : Type " ++ l.text))) :=
        .bind .retypes (.tryCatch .retypes (levelOf_leads .retypes hyps t) fun e =>
          .bind .retypes (.text .retypes t) fun _ => .throw .retypes _) fun level =>
            .modifyLevels .retypes (fun store => .le store _ _ _) fun store => .add store _
      have hstep := hlevel s
      rw [ends_bind] at hstep
      rw [ends_bind]
      refine hstep.mono (fun level s₁ h₁ => ?_) fun e s' h' => ⟨h'.toExtends, hs.retypes h'⟩
      rw [ends_bind]
      exact h₁.mono (fun _ s₂ h₂ => hsolve s₂ h₂ hocc) fun e s' h' => ⟨h'.toExtends, hs.retypes h'⟩

theorem unifyUniverses_guards (hs : s.Guarded σ) (u v : Universe) :
    Guards σ s (unifyUniverses u v) fun _ => True := by
  unfold unifyUniverses
  split
  · split
    · exact .pure hs trivial
    · exact mismatch_guards hs _ _
  · exact .modifyLevels hs fun store => .equate store _ _ _
  · split
    · exact .pure hs trivial
    · exact .throw hs _

def AlwaysGuards (σ : Prop) (recur : Context → Term → Term → Solve Unit) : Prop :=
  ∀ s hyps a b, s.Guarded σ → (σ → a.Sealed) → (σ → b.Sealed) →
    Guards σ s (recur hyps a b) fun _ => True

theorem unifyArgs_guards (hrecur : AlwaysGuards σ recur) (hs : s.Guarded σ) (hyps : Context)
    {as bs : List Term} (has : σ → ∀ a ∈ as, a.Sealed) (hbs : σ → ∀ b ∈ bs, b.Sealed) :
    Guards σ s (unifyArgs (recur hyps) as bs) fun _ => True := by
  induction as generalizing bs s with
  | nil => exact .pure hs trivial
  | cons a as ih =>
    cases bs with
    | nil => exact .pure hs trivial
    | cons b bs =>
      have ha : σ → a.Sealed := fun hσ => has hσ a (by simp)
      have hb : σ → b.Sealed := fun hσ => hbs hσ b (by simp)
      refine (hrecur s hyps a b hs ha hb).bind fun _ s₁ _ hs₁ _ => ?_
      exact ih hs₁ (fun hσ c hc => has hσ c (by simp [hc])) fun hσ c hc => hbs hσ c (by simp [hc])

def OnlyRenames (names : Substitution) : Prop := ∀ entry ∈ names, ∃ name, entry.2 = .bound name

theorem OnlyRenames.cons {names : Substitution} (hnames : OnlyRenames names) (n m : String) :
    OnlyRenames ((n, .bound m) :: names) := by
  intro entry hentry
  rcases List.mem_cons.mp hentry with rfl | hentry
  · exact ⟨m, rfl⟩
  · exact hnames entry hentry

theorem OnlyRenames.isSealed {names : Substitution} (hnames : OnlyRenames names) :
    ∀ entry ∈ names, entry.2.Sealed := by
  intro entry hentry
  obtain ⟨name, hname⟩ := hnames entry hentry
  rw [hname]
  exact .bound

theorem unifyParams_guards (hrecur : AlwaysGuards σ recur) {whole : Solve Unit}
    (hwhole : ∀ s : Solver, s.Guarded σ → Guards σ s whole fun _ => True) (hs : s.Guarded σ)
    (hyps : Context) {names : Substitution} (hnames : OnlyRenames names) {ps qs : List (Param Term)}
    (hps : σ → ∀ p ∈ ps, p.type.Sealed) (hqs : σ → ∀ q ∈ qs, q.type.Sealed) :
    Guards σ s (unifyParams recur whole hyps names ps qs) fun r => OnlyRenames r.2 := by
  induction ps generalizing qs hyps names s with
  | nil => exact .pure hs hnames
  | cons p ps ih =>
    cases qs with
    | nil => exact .pure hs hnames
    | cons q qs =>
      have hrest : ∀ s : Solver, s.Guarded σ → Guards σ s (do
          recur hyps p.type ((← holes).subst names q.type)
          unifyParams recur whole (hyps.extend p.name p.type) ((q.name, .bound p.name) :: names)
            ps qs) fun r => OnlyRenames r.2 := by
        intro s hs
        refine (Guards.holes hs).bind fun h s₁ _ hs₁ hh => ?_
        have hp : σ → p.type.Sealed := fun hσ => hps hσ p (by simp)
        have hq : σ → (h.subst names q.type).Sealed := by
          intro hσ
          rw [hh]
          exact (hs.isSealed hσ).subst (hqs hσ q (by simp)) hnames.isSealed
        refine (hrecur s₁ hyps _ _ hs₁ hp hq).bind fun _ s₂ _ hs₂ _ => ?_
        exact ih hs₂ _ (hnames.cons q.name p.name) (fun hσ c hc => hps hσ c (by simp [hc]))
          fun hσ c hc => hqs hσ c (by simp [hc])
      rw [unifyParams]
      split
      · exact (hwhole s hs).bind fun _ s₁ _ hs₁ _ => hrest s₁ hs₁
      · exact hrest s hs

theorem unifyForms_guards (hrecur : AlwaysGuards σ recur) (hs : s.Guarded σ) (hyps : Context)
    (ha : σ → a.Sealed) (hb : σ → b.Sealed) :
    Guards σ s (unifyForms recur hyps a b) fun _ => True := by
  unfold unifyForms
  split
  · exact .pure hs trivial
  · split
    · exact .pure hs trivial
    · exact mismatch_guards hs _ _
  · split
    · exact .pure hs trivial
    · exact mismatch_guards hs _ _
  · split
    · exact .pure hs trivial
    · exact mismatch_guards hs _ _
  · have hfn : ∀ {fn args}, (σ → (Term.app fn args).Sealed) → σ → fn.Sealed := by
      rintro fn args h hσ
      cases h hσ with
      | app hfn hargs => exact hfn
    have hargs : ∀ {fn args}, (σ → (Term.app fn args).Sealed) → σ → ∀ a ∈ args, a.Sealed := by
      rintro fn args h hσ
      cases h hσ with
      | app hfn hargs => exact hargs
    split
    · refine (hrecur s hyps _ _ hs (hfn ha) (hfn hb)).bind fun _ s₁ _ hs₁ _ => ?_
      exact unifyArgs_guards hrecur hs₁ hyps (hargs ha) (hargs hb)
    · exact mismatch_guards hs _ _
  · have hparams : ∀ {params result}, (σ → (Term.pi params result).Sealed) →
        σ → ∀ p ∈ params, p.type.Sealed := by
      rintro params result h hσ
      cases h hσ with
      | pi hparams hresult => exact hparams
    have hresult : ∀ {params result}, (σ → (Term.pi params result).Sealed) → σ → result.Sealed := by
      rintro params result h hσ
      cases h hσ with
      | pi hparams hresult => exact hresult
    split
    · refine (unifyParams_guards hrecur (fun s hs => mismatch_guards hs _ _) hs hyps
        (by simp [OnlyRenames])
        (hparams ha) (hparams hb)).bind fun r s₁ _ hs₁ hr => ?_
      refine (Guards.holes hs₁).bind fun h s₂ _ hs₂ hh => ?_
      refine hrecur s₂ _ _ _ hs₂ (hresult ha) fun hσ => ?_
      rw [hh]
      exact (hs₁.isSealed hσ).subst (hresult hb hσ) hr.isSealed
    · exact mismatch_guards hs _ _
  · exact unifyUniverses_guards hs _ _
  · have hsides : ∀ {lhs rhs}, (σ → (Term.eq lhs rhs).Sealed) → σ → lhs.Sealed ∧ rhs.Sealed := by
      rintro lhs rhs h hσ
      cases h hσ with
      | eq hlhs hrhs => exact ⟨hlhs, hrhs⟩
    refine (hrecur s hyps _ _ hs (fun hσ => (hsides ha hσ).1) fun hσ => (hsides hb hσ).1).bind
      fun _ s₁ _ hs₁ _ => ?_
    exact hrecur s₁ hyps _ _ hs₁ (fun hσ => (hsides ha hσ).2) fun hσ => (hsides hb hσ).2
  · have hvalue : ∀ {value}, (σ → (Term.refl value).Sealed) → σ → value.Sealed := by
      rintro value h hσ
      cases h hσ with
      | refl hvalue => exact hvalue
    exact hrecur s hyps _ _ hs (hvalue ha) (hvalue hb)
  · exact mismatch_guards hs _ _

/-- Where following a term ends at a hole, the hole is open. -/
theorem unifyHeads_guards (hs : s.Guarded σ) {compare : Term → Term → Solve Unit}
    (hcompare : ∀ a b, (σ → a.Sealed) → (σ → b.Sealed) → Guards σ s (compare a b) fun _ => True)
    (hyps : Context) (ha : σ → a.Sealed) (hb : σ → b.Sealed) :
    Guards σ s (unifyHeads env compare hyps a b) fun _ => True := by
  have hopen : ∀ {t : Term} {i : HoleId}, s.holes.follow t = .hole i →
      s.holes.solution? i = none :=
    fun hi => (Holes.follow_eq_hole (fun j _ => hs.acyclic.grounded j) hi).1
  have hfollow : ∀ {t : Term}, (σ → t.Sealed) → σ → (s.holes.follow t).Sealed :=
    fun ht hσ => (hs.isSealed hσ).followN _ (ht hσ)
  unfold unifyHeads
  rw [Guards, ends_bind, ends_holes]
  split
  · rename_i v w hv hw
    split
    · exact ⟨.refl s, hs, trivial⟩
    · exact bind_guards hs (hopen hv) (fun _ => .hole) hyps
  · rename_i v hv _
    exact bind_guards hs (hopen hv) (hfollow hb) hyps
  · rename_i w hw _
    exact bind_guards hs (hopen hw) (hfollow ha) hyps
  · exact hcompare _ _ (hfollow ha) (hfollow hb)

theorem unifyNormalN_guards (env : Declarations) (n : Nat) :
    AlwaysGuards σ (unifyNormalN env n) := by
  induction n with
  | zero => exact fun s hyps a b hs _ _ => .throw hs _
  | succ n ih =>
    intro s hyps a b hs ha hb
    exact unifyHeads_guards hs (fun a b ha hb => unifyForms_guards ih hs hyps ha hb) hyps ha hb

theorem unifyN_guards (henv : σ → env.KeepsSealed) (n : Nat) : AlwaysGuards σ (unifyN env n) := by
  induction n with
  | zero => exact fun s hyps a b hs _ _ => .throw hs _
  | succ n ih =>
    intro s hyps a b hs ha hb
    refine unifyHeads_guards hs (fun a b ha hb => ?_) hyps ha hb
    refine (Guards.attempt (unifyForms_guards ih hs.speculate hyps ha hb)).tryCatch
      fun _ s₁ _ hs₁ => ?_
    refine (Guards.holes hs₁).bind fun h s₂ _ hs₂ hh => ?_
    refine (Guards.holes hs₂).bind fun _ s₃ _ hs₃ _ => ?_
    rw [hh]
    exact unifyNormalN_guards env _ s₃ hyps _ _ hs₃
      (fun hσ => (hs₁.isSealed hσ).normalize (henv hσ) (ha hσ))
      fun hσ => (hs₁.isSealed hσ).normalize (henv hσ) (hb hσ)

theorem unify_guards (henv : σ → env.KeepsSealed) : AlwaysGuards σ (unify env) :=
  fun _ hyps a b hs ha hb => (Guards.holes hs).bind fun _ s₁ _ hs₁ _ =>
    unifyN_guards henv _ s₁ hyps a b hs₁ ha hb

theorem subsume_guards (henv : σ → env.KeepsSealed) : AlwaysGuards σ (subsume env) := by
  intro s hyps a b hs ha hb
  unfold subsume
  refine (Guards.holes hs).bind fun h s₁ _ hs₁ _ => ?_
  split
  · exact .modifyLevels hs₁ fun store => .le store _ _ _
  · exact unify_guards henv s₁ hyps a b hs₁ ha hb

end Unify

end Solve

def Operation.Sealed : Operation → Prop
  | unify env _ a b | tryUnify env _ a b => env.KeepsSealed ∧ a.Sealed ∧ b.Sealed
  | subsume env _ actual expected | trySubsume env _ actual expected =>
    env.KeepsSealed ∧ actual.Sealed ∧ expected.Sealed
  | typeOf _ _ _ | levelOf _ _ _ | importSignature _ | lookupSignature _ _ => True

namespace Solver

variable {σ : Prop} {s : Solver}

/-- What one operation keeps. -/
theorem Guarded.perform (hs : s.Guarded σ) {op : Operation} (hop : σ → op.Sealed) :
    (op.perform s).Guarded σ := by
  have htyping : ∀ {α : Type} {x : Solve α}, Solve.Leads Retypes x → (x.run s).2.Guarded σ :=
    fun hx => hs.retypes (hx.run s)
  cases op with
  | unify env hyps a b =>
    exact (Solve.unify_guards (fun hσ => (hop hσ).1) s hyps a b hs (fun hσ => (hop hσ).2.1)
      fun hσ => (hop hσ).2.2).run.2
  | subsume env hyps a b =>
    exact (Solve.subsume_guards (fun hσ => (hop hσ).1) s hyps a b hs (fun hσ => (hop hσ).2.1)
      fun hσ => (hop hσ).2.2).run.2
  | tryUnify env hyps a b =>
    exact (Solve.Guards.attempt (Solve.unify_guards (fun hσ => (hop hσ).1) _ hyps a b hs.speculate
      (fun hσ => (hop hσ).2.1) fun hσ => (hop hσ).2.2)).run.2
  | trySubsume env hyps a b =>
    exact (Solve.Guards.attempt (Solve.subsume_guards (fun hσ => (hop hσ).1) _ hyps a b hs.speculate
      (fun hσ => (hop hσ).2.1) fun hσ => (hop hσ).2.2)).run.2
  | typeOf env hyps t => exact htyping (Solve.typeOf_leads .retypes hyps t)
  | levelOf env hyps t => exact htyping (Solve.levelOf_leads .retypes hyps t)
  | importSignature sig => exact hs.retypes (.importSignature s sig)
  | lookupSignature env name => exact htyping (.lookupSignature? .retypes env name)

/-- The states that operations lead to from one in which all holes are open. Speculative steps may
be started, undone and kept at any time and with any mark. Under the assumption `σ` the operations
are given sealed terms only. -/
inductive Operated (σ : Prop) : Solver → Prop
  | start {s : Solver} (hopen : ∀ i, s.holes.solution? i = none)
    (hstash : ∀ saved ∈ s.stash, saved.before = none) : Operated σ s
  | addHole {s : Solver} (name : String) (type : Term) (hs : Operated σ s) :
    Operated σ (s.addHole name type).2
  | perform {s : Solver} (op : Operation) (hop : σ → op.Sealed) (hs : Operated σ s) :
    Operated σ (op.perform s)
  | speculate {s : Solver} (hs : Operated σ s) : Operated σ s.speculate
  | rollback {s : Solver} (m : Mark) (hs : Operated σ s) : Operated σ (s.rollback m)
  | commit {s : Solver} (m : Mark) (hs : Operated σ s) : Operated σ (s.commit m)

/-- What a run of operations keeps. -/
theorem Operated.guarded (hs : s.Operated σ) : s.Guarded σ := by
  induction hs with
  | start hopen hstash =>
    exact ⟨Holes.acyclic_of_open hopen, hstash, fun _ i t ht => by simp [hopen] at ht⟩
  | addHole name type _ ih => exact ih.addHole name type
  | perform op hop _ ih => exact ih.perform hop
  | speculate _ ih => exact ih.speculate
  | rollback m _ ih => exact ih.rollback m
  | commit m _ ih => exact ih.commit m

end Solver

end Implicits
