import Implicits.Proofs.Solver.Typing
import Implicits.Solver.Unify

/-!
Unification keeps a solver sound. Whether it succeeds or fails, it only extends the state: it solves
open holes by terms of the scope and adds constraints. A ledger is anything else that is to be known
of solutions and constraints, as long as each single solution keeps it.
-/
namespace Implicits

open Term

theorem Term.universeLevel?_eq_some {t : Term} {l : Level} :
    t.universeLevel? = some l ↔ t = .sort (.level l) := by
  unfold universeLevel?
  split
  · rename_i u
    cases u <;> simp [Universe.level?]
  · rename_i hne
    exact ⟨by simp, fun h => absurd h (hne (.level l))⟩

structure Context.Over (σ : Scope) (n : Stage) (outer hyps : Context) : Prop where
  types : hyps.Scoped σ n
  inner : ∃ added, hyps.hypotheses = added ++ outer.hypotheses ∧ ∀ hyp ∈ added, σ.binder hyp.name

namespace Context.Over

variable {σ : Scope} {n m : Stage} {outer hyps : Context}

theorem refl (h : outer.Scoped σ n) : Over σ n outer outer := ⟨h, [], rfl, by simp⟩

theorem mono (h : Over σ n outer hyps) (hnm : n ≤ m) : Over σ m outer hyps :=
  ⟨h.types.mono hnm, h.inner⟩

theorem extend (h : Over σ n outer hyps) {name : String} {type : Term} (hname : σ.binder name)
    (htype : type.Scoped σ n) : Over σ n outer (hyps.extend name type) := by
  obtain ⟨added, hadded, hnames⟩ := h.inner
  refine ⟨h.types.extend htype name, ⟨name, type⟩ :: added, ?_, ?_⟩
  · rw [Context.extend, hadded, List.cons_append]
  · intro hyp hhyp
    rcases List.mem_cons.mp hhyp with rfl | hold
    · exact hname
    · exact hnames hyp hold

end Context.Over

/-- Knowledge about solutions and constraints that every step keeps. -/
structure Ledger (env : Declarations) (σ : Scope) (outer : Context) where
  holds : Holes → List Constraint → Prop
  grow : ∀ {h cs cs'}, holds h cs → cs <+: cs' → holds h cs'
  add : ∀ {h n cs type} (name : String) (number : Int), h.Sound σ n → type.Scoped σ n →
    holds h cs → holds (h.add name number type) cs
  solve : ∀ {s s' hyps id t}, s.Sound σ → holds s.holes s.levels.constraints →
    Context.Over σ s.stage outer hyps → (Term.hole id).Scoped σ s.stage →
    t.Scoped σ s.stage → s.holes.solution? id = none →
    (Solve.bind env hyps id t).run s = (.ok (), s') → holds s'.holes s'.levels.constraints

def Ledger.empty (env : Declarations) (σ : Scope) (outer : Context) : Ledger env σ outer where
  holds _ _ := True
  grow _ _ := trivial
  add _ _ _ _ _ := trivial
  solve _ _ _ _ _ _ _ := trivial

namespace Ledger

variable {env : Declarations} {σ : Scope} {outer : Context} (L : Ledger env σ outer)

structure Valid (s : Solver) : Prop where
  sound : s.Sound σ
  holds : L.holds s.holes s.levels.constraints

def Keeps {α : Type} (x : Solve α) (s : Solver) (Q : α → Solver → Prop) : Prop :=
  Ends x s (fun a s' => L.Valid s' ∧ s.Extends s' ∧ Q a s') fun _ s' => L.Valid s' ∧ s.Extends s'

variable {L} {α β : Type} {x : Solve α} {s : Solver} {Q : α → Solver → Prop}
  {R : β → Solver → Prop}

namespace Valid

theorem table (hs : L.Valid s) : s.holes.Sound σ s.stage := hs.sound.table

theorem retypes {s' : Solver} (hs : L.Valid s) (h : s.Retypes s') (hs' : s'.Sound σ) :
    L.Valid s' := by
  refine ⟨hs', ?_⟩
  rw [h.holes]
  exact L.grow hs.holds h.levels.constraints

theorem addHole (hs : L.Valid s) {type : Term} (htype : type.Scoped σ s.stage) (name : String) :
    L.Valid (s.addHole name type).2 := by
  have htable := hs.table.add htype name s.holes.size
  rw [show s.stage.holes + 1 = (s.holes.add name s.holes.size type).size from
    (Holes.size_add _ _ _ _).symm] at htable
  have hstage : s.stage ≤ (s.addHole name type).2.stage :=
    ⟨Nat.le_of_lt (Nat.lt_of_lt_of_eq (Nat.lt_succ_self _) (Holes.size_add _ _ _ _).symm),
      Nat.le_refl _, List.Subset.refl _⟩
  refine ⟨{ hs.sound with table := htable, constraints := fun c hc => ?_, imports := ?_ },
    L.add name s.holes.size hs.table htype hs.holds⟩
  · obtain ⟨hlo, hhi⟩ := hs.sound.constraints c hc
    exact ⟨hlo.mono hstage, hhi.mono hstage⟩
  · exact hs.sound.imports

/-- Validity does not depend on what can be undone. -/
theorem unstashed {s' : Solver} (hs : L.Valid s) (hholes : s'.holes = s.holes)
    (hlevels : s'.levels = s.levels) (himported : s'.imported = s.imported) : L.Valid s' := by
  have hstage : s'.stage = s.stage := by rw [Solver.stage, hholes, hlevels]; rfl
  obtain ⟨⟨htable, hconstraints, himports, hseen, hproper, hsupply⟩, hholds⟩ := hs
  refine ⟨⟨?_, ?_, ?_, ?_, ?_, ?_⟩, ?_⟩
  · rwa [hstage, hholes]
  · rwa [hstage, hlevels]
  · rwa [hstage, himported]
  · rwa [hlevels]
  · rwa [hlevels]
  · rwa [hlevels]
  · rwa [hholes, hlevels]

theorem rollback {s' : Solver} (hs : L.Valid s) (h : s.speculate.Extends s') :
    L.Valid (s'.rollback s.mark) := by
  have hext := h.of_rollback
  rw [h.toRecorded.rollback] at hext ⊢
  refine ⟨{ hs.sound with table := hs.table.mono hext.stage rfl, constraints := fun c hc => ?_ },
    hs.holds⟩
  obtain ⟨hlo, hhi⟩ := hs.sound.constraints c hc
  exact ⟨hlo.mono hext.stage, hhi.mono hext.stage⟩

end Valid

namespace Keeps

theorem pure {a : α} (hs : L.Valid s) (ha : Q a s) : L.Keeps (pure a) s Q := ⟨hs, .refl s, ha⟩

theorem of_types (hs : L.Valid s) (hx : Solve.Types σ s x Q) : L.Keeps x s Q := by
  apply Ends.mono hx
  · rintro a s' ⟨hstep, hs', ha⟩
    exact ⟨hs.retypes hstep hs', hstep.toExtends, ha⟩
  · rintro _ s' ⟨hstep, hs'⟩
    exact ⟨hs.retypes hstep hs', hstep.toExtends⟩

theorem holes (hs : L.Valid s) : L.Keeps Solve.holes s fun h s' => h = s.holes ∧ s' = s :=
  of_types hs (.holes hs.sound)

theorem bind {f : α → Solve β} (hx : L.Keeps x s Q)
    (hf : ∀ a s', L.Valid s' → s.Extends s' → Q a s' → L.Keeps (f a) s' R) :
    L.Keeps (x >>= f) s R := by
  rw [Keeps, ends_bind]
  apply Ends.mono hx
  · rintro a s' ⟨hs', hstep, ha⟩
    apply Ends.mono (hf a s' hs' hstep ha)
    · rintro b s'' ⟨hs'', hstep', hb⟩
      exact ⟨hs'', hstep.trans hstep', hb⟩
    · rintro _ s'' ⟨hs'', hstep'⟩
      exact ⟨hs'', hstep.trans hstep'⟩
  · exact fun _ _ h => h

theorem tryCatch {f : Fault → Solve α} (hx : L.Keeps x s Q)
    (hf : ∀ e s', L.Valid s' → s.Extends s' → L.Keeps (f e) s' Q) :
    L.Keeps (tryCatch x f) s Q := by
  rw [Keeps, ends_tryCatch]
  apply Ends.mono hx
  · exact fun _ _ h => h
  · rintro e s' ⟨hs', hstep⟩
    apply Ends.mono (hf e s' hs' hstep)
    · rintro a s'' ⟨hs'', hstep', ha⟩
      exact ⟨hs'', hstep.trans hstep', ha⟩
    · rintro _ s'' ⟨hs'', hstep'⟩
      exact ⟨hs'', hstep.trans hstep'⟩

end Keeps

end Ledger

/-- An attempt keeps a state if the step does, started in the speculative mode. -/
theorem Ledger.Keeps.attempt {env : Declarations} {σ : Scope} {outer : Context}
    {L : Ledger env σ outer} {α : Type} {x : Solve α} {s : Solver} (hs : L.Valid s)
    (hx : L.Valid s.speculate → L.Keeps x s.speculate fun _ _ => True) :
    L.Keeps (Solve.attempt x) s fun _ _ => True := by
  rw [Keeps, Solve.ends_attempt]
  apply Ends.mono (hx (hs.unstashed rfl rfl rfl))
  · rintro a s' ⟨hs', hstep, -⟩
    exact ⟨hs'.unstashed rfl rfl rfl, hstep.of_commit, trivial⟩
  · rintro _ s' ⟨hs', hstep⟩
    exact ⟨hs.rollback hstep, hstep.of_rollback⟩

namespace Solve

section Unify

variable {env : Declarations} {σ : Scope} {outer : Context} {L : Ledger env σ outer} {s : Solver}
  {hyps : Context} {a b : Term}

/-- A failed binding changes at most levels. A successful one also solves its hole, and if the type
of the hole is a universe, the level of the solution is bounded. -/
theorem bind_outcome (henv : env.Within σ) (hs : s.Sound σ) (hhyps : hyps.Scoped σ s.stage)
    {id : HoleId} (hid : (Term.hole id).Scoped σ s.stage) {t : Term} (ht : t.Scoped σ s.stage)
    {Q : Level → Solver → Prop} (hlevel : Types σ s (levelOf env hyps t) Q) :
    Ends (bind env hyps id t) s
      (fun _ s' => s.holes.occurs id t = false ∧
        ∃ s₁, s.Retypes s₁ ∧ s₁.Sound σ ∧ s' = s₁.solve id t ∧
          ∀ l, s.holes.normalize env (s.holes.type id) = .sort (.level l) →
            ∃ level s₂ origin, Q level s₂ ∧
              s₁ = { s₂ with levels := s₂.levels.le level l origin })
      fun _ s' => s.Retypes s' ∧ s'.Sound σ := by
  obtain - | - | - | - | ⟨hbase, hmade⟩ := hid
  -- The check of the universe is a typing step.
  have hcheck : ∀ l, l.Made σ s.stage → Types σ s (do
      let level ← tryCatch (levelOf env hyps t) fun e => do
        throw (.badSolution (s.holes.name id) (← text t) e)
      modifyLevels (·.le level l ("solution of ?" ++ s.holes.name id ++ " : Type " ++ l.text)))
      fun _ s₁ => ∃ level s₂ origin, Q level s₂ ∧
        s₁ = { s₂ with levels := s₂.levels.le level l origin } := by
    intro l hl
    refine (Types.tryCatch ((levelOf_types henv hs hhyps ht).and hlevel) fun e s₁ hs₁ _ => ?_).bind
      fun level s₂ hs₂ hstep₂ hfound => ?_
    · exact (Types.text hs₁ t).bind fun _ _ hs₂ _ _ => .throw hs₂ _
    · exact (Types.add hs₂ ⟨hfound.1, hl.mono hstep₂.stage⟩).mono fun _ _ _ h =>
        ⟨level, s₂, _, hfound.2, h⟩
  unfold bind
  rw [ends_bind, ends_holes]
  by_cases hocc : s.holes.occurs id t = true
  · simp only [if_pos hocc]
    rw [ends_bind]
    exact ⟨.refl s, hs⟩
  · have hfalse : s.holes.occurs id t = false := by simpa using hocc
    simp only [if_neg hocc]
    split
    · rename_i hnone
      refine ⟨hfalse, s, .refl s, hs, rfl, fun l hl => ?_⟩
      simp [universeLevel?_eq_some.mpr hl] at hnone
    · rename_i l hl
      have hlevel : l.Made σ s.stage :=
        made_of_normalize henv hs (hs.table.type id hbase hmade) (universeLevel?_eq_some.mp hl)
      have hends := hcheck l hlevel
      unfold Types at hends
      rw [ends_bind] at hends ⊢
      apply hends.mono
      · intro level s' hlevel
        rw [ends_bind]
        apply hlevel.mono
        · rintro _ s₁ ⟨hstep, hs₁, hbound⟩
          refine ⟨hfalse, s₁, hstep, hs₁, rfl, fun m hm => ?_⟩
          rw [universeLevel?_eq_some.mpr hm, Option.some.injEq] at hl
          exact hl ▸ hbound
        · exact fun _ _ h => h
      · exact fun _ _ h => h

theorem bind_keeps (henv : env.Within σ) (hs : L.Valid s)
    (hhyps : Context.Over σ s.stage outer hyps) {id : HoleId} {t : Term}
    (hid : (Term.hole id).Scoped σ s.stage) (ht : t.Scoped σ s.stage)
    (hopen : s.holes.solution? id = none) : L.Keeps (bind env hyps id t) s fun _ _ => True := by
  have hout := bind_outcome henv hs.sound hhyps.types hid ht
    (levelOf_types henv hs.sound hhyps.types ht)
  have hsolve : ∀ s', (bind env hyps id t).run s = (.ok (), s') →
      L.holds s'.holes s'.levels.constraints :=
    fun _ hrun => L.solve hs.sound hs.holds hhyps hid ht hopen hrun
  unfold Ledger.Keeps Ends at *
  generalize (bind env hyps id t).run s = r at hout hsolve ⊢
  rcases r with ⟨e | ⟨⟩, s'⟩
  · exact ⟨hs.retypes hout.1 hout.2, hout.1.toExtends⟩
  · obtain ⟨hocc, s₁, hstep, hs₁, rfl, -⟩ := hout
    rw [← hstep.holes] at hocc hopen
    have hext := Solver.Extends.solve hopen t
    have hstage : (s₁.solve id t).stage = s₁.stage := by rw [Solver.stage, hext.size]; rfl
    refine ⟨⟨⟨?_, ?_, ?_, hs₁.seen, hs₁.proper, hs₁.supply⟩, hsolve _ rfl⟩,
      hstep.toExtends.trans hext, trivial⟩
    · rw [hstage]
      exact hs₁.table.solve hopen (ht.mono hstep.stage) hocc
    · rw [hstage]
      exact hs₁.constraints
    · rw [hstage]
      exact hs₁.imports

theorem mismatch_types {α : Type} {Q : α → Solver → Prop} (hs : s.Sound σ) (a b : Term) :
    Types σ s (mismatch a b) Q :=
  (Types.text hs a).bind fun _ _ hs₁ _ _ => (Types.text hs₁ b).bind fun _ _ hs₂ _ _ => .throw hs₂ _

theorem unifyUniverses_types (hs : s.Sound σ) {u v : Universe} (hu : (Term.sort u).Scoped σ s.stage)
    (hv : (Term.sort v).Scoped σ s.stage) : Types σ s (unifyUniverses u v) fun _ _ => True := by
  unfold unifyUniverses
  split
  · split
    · exact .pure hs trivial
    · exact mismatch_types hs _ _
  · rename_i l m _
    have hl := scoped_universe.mp hu
    have hm := scoped_universe.mp hv
    exact (Types.equate hs hl hm _).mono fun _ _ _ _ => trivial
  · split
    · exact .pure hs trivial
    · exact .throw hs _

def Compares (L : Ledger env σ outer) (recur : Context → Term → Term → Solve Unit) : Prop :=
  ∀ s hyps a b, L.Valid s → Context.Over σ s.stage outer hyps → a.Scoped σ s.stage →
    b.Scoped σ s.stage → L.Keeps (recur hyps a b) s fun _ _ => True

section Forms

variable {recur : Context → Term → Term → Solve Unit}

theorem unifyArgs_keeps (hrecur : Compares L recur) {as bs : List Term} (hs : L.Valid s)
    (hhyps : Context.Over σ s.stage outer hyps) (has : ∀ a ∈ as, a.Scoped σ s.stage)
    (hbs : ∀ b ∈ bs, b.Scoped σ s.stage) :
    L.Keeps (unifyArgs (recur hyps) as bs) s fun _ _ => True := by
  induction as generalizing bs s with
  | nil => exact .pure hs trivial
  | cons a as ih =>
    cases bs with
    | nil => exact .pure hs trivial
    | cons b bs =>
      refine (hrecur s hyps a b hs hhyps (has a (by simp)) (hbs b (by simp))).bind ?_
      intro _ s' hs' hstep _
      exact ih hs' (hhyps.mono hstep.stage) (fun c hc => (has c (by simp [hc])).mono hstep.stage)
        fun c hc => (hbs c (by simp [hc])).mono hstep.stage

theorem unifyParams_keeps (hrecur : Compares L recur) {whole : Solve Unit} {names : Substitution}
    {ps qs : List (Param Term)} (hwhole : ∀ s, s.Sound σ → Types σ s whole fun _ _ => True)
    (hs : L.Valid s) (hhyps : Context.Over σ s.stage outer hyps)
    (hnames : ∀ entry ∈ names, entry.2.Scoped σ s.stage)
    (hps : ∀ p ∈ ps, σ.binder p.name ∧ p.type.Scoped σ s.stage)
    (hqs : ∀ q ∈ qs, q.type.Scoped σ s.stage) :
    L.Keeps (unifyParams recur whole hyps names ps qs) s fun r s' =>
      Context.Over σ s'.stage outer r.1 ∧ ∀ entry ∈ r.2, entry.2.Scoped σ s'.stage := by
  induction ps generalizing qs s hyps names with
  | nil => exact .pure hs ⟨hhyps, hnames⟩
  | cons p ps ih =>
    cases qs with
    | nil => exact .pure hs ⟨hhyps, hnames⟩
    | cons q qs =>
      -- The comparison of the two parameters and of those behind them.
      have hrest : ∀ s', L.Valid s' → s.stage ≤ s'.stage → L.Keeps (do
          recur hyps p.type ((← holes).subst names q.type)
          unifyParams recur whole (hyps.extend p.name p.type) ((q.name, .bound p.name) :: names)
            ps qs) s' fun r s'' =>
          Context.Over σ s''.stage outer r.1 ∧ ∀ entry ∈ r.2, entry.2.Scoped σ s''.stage := by
        intro s' hs' hle
        refine (Ledger.Keeps.holes hs').bind fun h s₁ _ _ hh => ?_
        obtain ⟨rfl, rfl⟩ := hh
        have hp := (hps p (by simp)).2.mono hle
        have hq := hs'.table.subst ((hqs q (by simp)).mono hle) fun entry hentry =>
          (hnames entry hentry).mono hle
        refine (hrecur s₁ hyps _ _ hs' (hhyps.mono hle) hp hq).bind fun _ s₂ hs₂ hstep₂ _ => ?_
        have hle₂ := Stage.le_trans hle hstep₂.stage
        refine ih hs₂ ((hhyps.mono hle₂).extend (hps p (by simp)).1 (hp.mono hstep₂.stage)) ?_
          (fun r hr => ⟨(hps r (by simp [hr])).1, (hps r (by simp [hr])).2.mono hle₂⟩)
          fun r hr => (hqs r (by simp [hr])).mono hle₂
        intro entry hentry
        rcases List.mem_cons.mp hentry with rfl | hold
        · exact .bound
        · exact (hnames entry hold).mono hle₂
      rw [unifyParams]
      split
      · refine (Ledger.Keeps.of_types hs (hwhole s hs.sound)).bind fun _ s' hs' hstep _ => ?_
        exact hrest s' hs' hstep.stage
      · exact hrest s hs (Stage.le_refl _)

theorem unifyForms_keeps (hrecur : Compares L recur) (hs : L.Valid s)
    (hhyps : Context.Over σ s.stage outer hyps) (ha : a.Scoped σ s.stage)
    (hb : b.Scoped σ s.stage) :
    L.Keeps (unifyForms recur hyps a b) s fun _ _ => True := by
  have hfail : ∀ a b, L.Keeps (mismatch a b : Solve Unit) s fun _ _ => True :=
    fun a b => .of_types hs (mismatch_types hs.sound a b)
  unfold unifyForms
  split
  · exact .pure hs trivial
  · split
    · exact .pure hs trivial
    · exact hfail _ _
  · split
    · exact .pure hs trivial
    · exact hfail _ _
  · split
    · exact .pure hs trivial
    · exact hfail _ _
  · obtain - | - | - | - | - | ⟨_, hf, hxs⟩ := ha
    obtain - | - | - | - | - | ⟨_, hg, hys⟩ := hb
    split
    · refine (hrecur s hyps _ _ hs hhyps hf hg).bind fun _ s' hs' hstep _ => ?_
      exact unifyArgs_keeps hrecur hs' (hhyps.mono hstep.stage)
        (fun x hx => (hxs x hx).mono hstep.stage) fun y hy => (hys y hy).mono hstep.stage
    · exact hfail _ _
  · obtain - | - | - | - | - | - | ⟨hnames, _, htypes, hresult⟩ := ha
    obtain - | - | - | - | - | - | ⟨_, _, htypes', hresult'⟩ := hb
    split
    · refine (unifyParams_keeps hrecur (fun s hs => mismatch_types hs _ _) hs hhyps (by simp)
        (fun p hp => ⟨hnames p hp, htypes p hp⟩) htypes').bind fun r s' hs' hstep hr => ?_
      obtain ⟨inner, names⟩ := r
      obtain ⟨hinner, hentries⟩ := hr
      refine (Ledger.Keeps.holes hs').bind fun h s'' _ _ hh => ?_
      obtain ⟨rfl, rfl⟩ := hh
      exact hrecur s'' inner _ _ hs' hinner (hresult.mono hstep.stage)
        (hs'.table.subst (hresult'.mono hstep.stage) hentries)
    · exact hfail _ _
  · exact .of_types hs (unifyUniverses_types hs.sound ha hb)
  · obtain - | - | - | - | - | - | - | - | ⟨hl, hr⟩ := ha
    obtain - | - | - | - | - | - | - | - | ⟨hl', hr'⟩ := hb
    refine (hrecur s hyps _ _ hs hhyps hl hl').bind fun _ s' hs' hstep _ => ?_
    exact hrecur s' hyps _ _ hs' (hhyps.mono hstep.stage) (hr.mono hstep.stage)
      (hr'.mono hstep.stage)
  · obtain - | - | - | - | - | - | - | - | - | hx := ha
    obtain - | - | - | - | - | - | - | - | - | hy := hb
    exact hrecur s hyps _ _ hs hhyps hx hy
  · exact hfail _ _

/-- Following solved holes and solving open ones keeps a state, if comparing other terms does. -/
theorem unifyHeads_keeps (henv : env.Within σ) {compare : Term → Term → Solve Unit}
    (hs : L.Valid s) (hhyps : Context.Over σ s.stage outer hyps) (ha : a.Scoped σ s.stage)
    (hb : b.Scoped σ s.stage)
    (hcompare : ∀ a b, a.Scoped σ s.stage → b.Scoped σ s.stage →
      L.Keeps (compare a b) s fun _ _ => True) :
    L.Keeps (unifyHeads env compare hyps a b) s fun _ _ => True := by
  have hfa := hs.table.follow ha
  have hfb := hs.table.follow hb
  unfold unifyHeads
  rw [Ledger.Keeps, ends_bind, ends_holes]
  change L.Keeps _ s fun _ _ => True
  split
  · rename_i v w hv hw
    split
    · exact .pure hs trivial
    · exact bind_keeps henv hs hhyps (hv ▸ hfa) (hw ▸ hfb) (hs.table.isOpen_of_follow ha hv)
  · rename_i v hv _
    exact bind_keeps henv hs hhyps (hv ▸ hfa) hfb (hs.table.isOpen_of_follow ha hv)
  · rename_i w hw _
    exact bind_keeps henv hs hhyps (hw ▸ hfb) hfa (hs.table.isOpen_of_follow hb hw)
  · exact hcompare _ _ hfa hfb

end Forms

theorem unifyNormalN_keeps (henv : env.Within σ) (k : Nat) : Compares L (unifyNormalN env k) := by
  induction k with
  | zero => exact fun s hyps a b hs _ _ _ => .of_types hs (.throw hs.sound _)
  | succ k ih =>
    intro s hyps a b hs hhyps ha hb
    exact unifyHeads_keeps henv hs hhyps ha hb fun a b ha hb => unifyForms_keeps ih hs hhyps ha hb

theorem unifyNormal_keeps (henv : env.Within σ) : Compares L (unifyNormal env) := by
  intro s hyps a b hs hhyps ha hb
  unfold unifyNormal
  refine (Ledger.Keeps.holes hs).bind fun h s' hs' _ hh => ?_
  obtain ⟨rfl, rfl⟩ := hh
  exact unifyNormalN_keeps henv _ s' hyps a b hs' hhyps ha hb

theorem unifyN_keeps (henv : env.Within σ) (k : Nat) : Compares L (unifyN env k) := by
  induction k with
  | zero => exact fun s hyps a b hs _ _ _ => .of_types hs (.throw hs.sound _)
  | succ k ih =>
    intro s hyps a b hs hhyps ha hb
    refine unifyHeads_keeps henv hs hhyps ha hb fun a b ha hb => ?_
    refine Ledger.Keeps.tryCatch (.attempt hs fun hs' => ?_) fun e s' hs' hstep => ?_
    · exact unifyForms_keeps ih hs' hhyps ha hb
    · refine (Ledger.Keeps.holes hs').bind fun h s'' _ _ hh => ?_
      obtain ⟨rfl, rfl⟩ := hh
      exact unifyNormal_keeps henv s'' hyps _ _ hs' (hhyps.mono hstep.stage)
        (hs'.table.normalize henv.toReducesWithin (ha.mono hstep.stage))
        (hs'.table.normalize henv.toReducesWithin (hb.mono hstep.stage))

/-- Unification keeps every valid state, whether it succeeds or fails. -/
theorem unify_keeps (henv : env.Within σ) : Compares L (unify env) := by
  intro s hyps a b hs hhyps ha hb
  unfold unify
  refine (Ledger.Keeps.holes hs).bind fun h s' hs' _ hh => ?_
  obtain ⟨rfl, rfl⟩ := hh
  exact unifyN_keeps henv _ s' hyps a b hs' hhyps ha hb

theorem subsume_keeps (henv : env.Within σ) : Compares L (subsume env) := by
  intro s hyps a b hs hhyps ha hb
  unfold subsume
  refine (Ledger.Keeps.holes hs).bind fun h s' hs' _ hh => ?_
  obtain ⟨rfl, rfl⟩ := hh
  split
  · rename_i l m hl hm
    have hmade := made_of_normalize henv hs'.sound ha (universeLevel?_eq_some.mp hl)
    have hmade' := made_of_normalize henv hs'.sound hb (universeLevel?_eq_some.mp hm)
    exact .of_types hs' ((Types.add hs'.sound ⟨hmade, hmade'⟩).mono fun _ _ _ _ => trivial)
  · exact unify_keeps henv s' hyps a b hs' hhyps ha hb

theorem tryUnify_keeps (henv : env.Within σ) : Compares L (tryUnify env) := by
  intro s hyps a b hs hhyps ha hb
  exact .attempt hs fun hs' => unify_keeps henv _ hyps a b hs' hhyps ha hb

theorem trySubsume_keeps (henv : env.Within σ) : Compares L (trySubsume env) := by
  intro s hyps a b hs hhyps ha hb
  exact .attempt hs fun hs' => subsume_keeps henv _ hyps a b hs' hhyps ha hb

end Unify

end Solve

end Implicits
