import Implicits.Proofs.Solver.Unify
import Implicits.Checker.Search

/-!
Steps of checking lead from a valid state to a later valid state of the same unit. If they succeed,
holes are made and solved, and arguments that wait and open obligations are only added.
-/
namespace Implicits

open Term

namespace Checker

structure Continues (c c' : Checker) : Prop where
  options : c'.options = c.options
  session : c'.session = c.session
  own : c'.own = c.own

theorem Continues.refl (c : Checker) : c.Continues c := ⟨rfl, rfl, rfl⟩

theorem Continues.trans {c c' c'' : Checker} (h : c.Continues c') (h' : c'.Continues c'') :
    c.Continues c'' :=
  ⟨h'.options.trans h.options, h'.session.trans h.session, h'.own.trans h.own⟩

structure Grows (c c' : Checker) : Prop extends Continues c c' where
  size : c.solver.holes.size ≤ c'.solver.holes.size
  type : ∀ i, i < c.solver.holes.size → c'.solver.holes.type i = c.solver.holes.type i
  solved : ∀ i t, c.solver.holes.solution? i = some t → c'.solver.holes.solution? i = some t
  levels : c.solver.levels.Grows c'.solver.levels
  pending : c.pending <+: c'.pending
  openObligations : c.openObligations <+: c'.openObligations
  strict : c.options.deferUnresolved = false → c'.openObligations = c.openObligations

namespace Grows

variable {c c' c'' : Checker}

theorem refl (c : Checker) : c.Grows c where
  toContinues := .refl c
  size := Nat.le_refl _
  type _ _ := rfl
  solved _ _ h := h
  levels := .refl _
  pending := List.prefix_refl _
  openObligations := List.prefix_refl _
  strict _ := rfl

theorem trans (h : c.Grows c') (h' : c'.Grows c'') : c.Grows c'' where
  toContinues := h.toContinues.trans h'.toContinues
  size := Nat.le_trans h.size h'.size
  type i hi := (h'.type i (Nat.lt_of_lt_of_le hi h.size)).trans (h.type i hi)
  solved i t hi := h'.solved i t (h.solved i t hi)
  levels := h.levels.trans h'.levels
  pending := h.pending.trans h'.pending
  openObligations := h.openObligations.trans h'.openObligations
  strict hc := by
    rw [h'.strict (h.options ▸ hc), h.strict hc]

theorem stage (h : c.Grows c') : c.solver.stage ≤ c'.solver.stage :=
  ⟨h.size, h.levels.nextId, h.levels.seen.subset⟩

theorem isOpen_of_isOpen (h : c.Grows c') {i : HoleId} (hi : c'.solver.holes.solution? i = none) :
    c.solver.holes.solution? i = none := by
  cases hsol : c.solver.holes.solution? i with
  | none => rfl
  | some t => simp [h.solved i t hsol] at hi

theorem of_solver {s : Solver} (h : c.solver.Extends s) : c.Grows { c with solver := s } :=
  { refl c with
    size := Nat.le_of_eq h.size.symm
    type := fun i _ => h.type i
    solved := h.solved
    levels := h.levels }

end Grows

/-- Every open hole from `n` on waits for its value or is the value of an open obligation. -/
def AccountedFrom (n : Nat) (c : Checker) : Prop :=
  ∀ i, n ≤ i → i < c.solver.holes.size → c.solver.holes.solution? i = none →
    (∃ p ∈ c.pending, p.hole = i) ∨ ∃ ob ∈ c.openObligations, ob.value = .hole i

namespace AccountedFrom

variable {n : Nat} {c c' : Checker}

theorem of_size (h : c.solver.holes.size ≤ n) : c.AccountedFrom n := by
  intro i hn hlt _
  omega

/-- What is accounted for stays so; new holes have to be accounted for by the step that makes them.
-/
theorem grows (h : c.AccountedFrom n) (hstep : c.Grows c')
    (hnew : c'.AccountedFrom c.solver.holes.size) : c'.AccountedFrom n := by
  intro i hn hlt hopen
  by_cases hold : i < c.solver.holes.size
  · rcases h i hn hold (hstep.isOpen_of_isOpen hopen) with ⟨p, hp, hi⟩ | ⟨ob, hob, hi⟩
    · exact .inl ⟨p, hstep.pending.subset hp, hi⟩
    · exact .inr ⟨ob, hstep.openObligations.subset hob, hi⟩
  · exact hnew i (by omega) hlt hopen

theorem grows_of_size (h : c.AccountedFrom n) (hstep : c.Grows c')
    (hsize : c'.solver.holes.size = c.solver.holes.size) : c'.AccountedFrom n :=
  h.grows hstep (.of_size (Nat.le_of_eq hsize))

end AccountedFrom

end Checker

namespace Ledger

variable {env : Declarations} {σ : Scope} {outer : Context} (L : Ledger env σ outer)

def Checks {α : Type} (x : Check α) (c : Checker) (Q : α → Checker → Prop) : Prop :=
  Ends x c (fun a c' => L.Valid c'.solver ∧ c.Grows c' ∧ Q a c') fun _ c' =>
    L.Valid c'.solver ∧ c.Continues c'

variable {L} {α β : Type} {x : Check α} {c : Checker} {Q Q' : α → Checker → Prop}
  {R : β → Checker → Prop}

namespace Checks

theorem pure {a : α} (hc : L.Valid c.solver) (ha : Q a c) : L.Checks (pure a) c Q :=
  ⟨hc, .refl c, ha⟩

theorem fail (hc : L.Valid c.solver) (site : Expr) (e : CheckError) :
    L.Checks (Check.fail site e) c Q := by
  rw [Checks, Check.fail, ends_bind, ends_modify, ends_throw]
  split
  · exact ⟨hc, rfl, rfl, rfl⟩
  · exact ⟨hc, .refl c⟩

theorem bind {f : α → Check β} (hx : L.Checks x c Q)
    (hf : ∀ a c', L.Valid c'.solver → c.Grows c' → Q a c' → L.Checks (f a) c' R) :
    L.Checks (x >>= f) c R := by
  rw [Checks, ends_bind]
  apply Ends.mono hx
  · rintro a c' ⟨hc', hstep, ha⟩
    apply Ends.mono (hf a c' hc' hstep ha)
    · rintro b c'' ⟨hc'', hstep', hb⟩
      exact ⟨hc'', hstep.trans hstep', hb⟩
    · rintro _ c'' ⟨hc'', hstep'⟩
      exact ⟨hc'', hstep.toContinues.trans hstep'⟩
  · exact fun _ _ h => h

theorem fail_bind (hc : L.Valid c.solver) (site : Expr) (e : CheckError) (f : α → Check β) :
    L.Checks (Check.fail site e >>= f) c R := by
  have hfail : L.Checks (Check.fail site e : Check α) c fun _ _ => False := .fail hc site e
  exact hfail.bind fun _ _ _ _ h => h.elim

theorem mono (hx : L.Checks x c Q) (hQ : ∀ a c', c.Grows c' → Q a c' → Q' a c') :
    L.Checks x c Q' := by
  apply Ends.mono hx
  · rintro a c' ⟨hc', hstep, ha⟩
    exact ⟨hc', hstep, hQ a c' hstep ha⟩
  · exact fun _ _ h => h

theorem holes (hc : L.Valid c.solver) :
    L.Checks Check.holes c fun h c' => h = c.solver.holes ∧ c' = c := ⟨hc, .refl c, rfl, rfl⟩

theorem text (hc : L.Valid c.solver) (t : Term) : L.Checks (Check.text t) c fun _ c' => c' = c :=
  ⟨hc, .refl c, rfl⟩

theorem exprText (hc : L.Valid c.solver) (e : Expr) :
    L.Checks (Check.exprText e) c fun _ c' => c' = c := ⟨hc, .refl c, rfl⟩

theorem note (hc : L.Valid c.solver) (e : Event) :
    L.Checks (Check.note e) c fun _ c' => c'.solver = c.solver := by
  unfold Check.note
  rw [Checks, ends_modify]
  split
  · exact ⟨hc, { Checker.Grows.refl c with }, rfl⟩
  · exact ⟨hc, .refl c, rfl⟩

/-- A step of the solver changes nothing but the solver. -/
theorem solve {y : Solve α} {P : α → Solver → Prop} (hy : L.Keeps y c.solver P) :
    L.Checks (Check.solve y) c fun r c' =>
      c.solver.Extends c'.solver ∧ ∀ a, r = .ok a → P a c'.solver := by
  unfold Ledger.Keeps Ends at hy
  unfold Checks Check.solve
  rw [ends_bind, ends_get]
  generalize y.run c.solver = r at hy
  rcases r with ⟨e | a, s'⟩
  · obtain ⟨hs', hstep⟩ := hy
    exact ⟨hs', .of_solver hstep, hstep, by simp⟩
  · obtain ⟨hs', hstep, ha⟩ := hy
    exact ⟨hs', .of_solver hstep, hstep, by simpa using ha⟩

theorem orFail {y : Solve α} {P : α → Solver → Prop} (hy : L.Keeps y c.solver P) (site : Expr)
    (wrap : Fault → CheckError) :
    L.Checks (Check.orFail site wrap y) c fun a c' =>
      c.solver.Extends c'.solver ∧ P a c'.solver := by
  unfold Check.orFail
  refine (solve hy).bind fun r c' hc' hstep hr => ?_
  split
  · exact .pure hc' ⟨hr.1, hr.2 _ rfl⟩
  · exact .fail hc' site _

theorem importSignature (hc : L.Valid c.solver) {sig : Signature} (hsig : sig.Within σ) :
    L.Checks (modify fun c => { c with solver := c.solver.importSignature sig }) c
      fun _ c' => c.solver.Extends c'.solver ∧ sig.ReadyAt σ c'.solver.stage := by
  have hstep : c.solver.Retypes (c.solver.importSignature sig) := .importSignature c.solver sig
  exact ⟨hc.retypes hstep (hc.sound.importSignature hsig), .of_solver hstep.toExtends,
    hstep.toExtends, hc.sound.readyAt sig⟩

theorem lookupSignature? (henv : env.Within σ) (hc : L.Valid c.solver) (name : String) :
    L.Checks (Check.lookupSignature? env name) c fun r c' =>
      r = env.signature? name ∧ c.solver.Extends c'.solver ∧
        ∀ sig, r = some sig → sig.ReadyAt σ c'.solver.stage := by
  unfold Check.lookupSignature?
  split
  · rename_i hnone
    exact .pure hc ⟨hnone.symm, .refl _, by simp⟩
  · rename_i sig hsig
    refine (importSignature hc (henv.signature name sig hsig)).bind fun _ c' hc' _ himport => ?_
    exact .pure hc' ⟨hsig.symm, himport.1, fun other hother => Option.some.inj hother ▸ himport.2⟩

theorem requireActive (hc : L.Valid c.solver) :
    L.Checks Check.requireActive c fun _ c' => c' = c := by
  unfold Check.requireActive
  rw [Checks, ends_bind, ends_get]
  split
  · exact ⟨hc, .refl c⟩
  · exact ⟨hc, .refl c, rfl⟩

/-- A loop keeps what each of its steps keeps. -/
theorem forM {f : β → Check PUnit} {xs : List β} {I : Checker → Prop} (hc : L.Valid c.solver)
    (hI : I c) (hf : ∀ y ∈ xs, ∀ c', L.Valid c'.solver → c.Grows c' → I c' →
      L.Checks (f y) c' fun _ c'' => I c'') : L.Checks (xs.forM f) c fun _ c' => I c' := by
  induction xs generalizing c with
  | nil => exact .pure hc hI
  | cons y ys ih =>
    change L.Checks (f y >>= fun _ => ys.forM f) c fun _ c' => I c'
    refine (hf y (by simp) c hc (.refl c) hI).bind fun _ c' hc' hstep hI' => ?_
    exact ih hc' hI' fun z hz c'' hc'' hstep' => hf z (by simp [hz]) c'' hc'' (hstep.trans hstep')

/-- A loop that collects values keeps what each of its steps keeps, and gives one value per
argument, related to it. -/
theorem mapM {γ : Type} {f : β → Check γ} {xs : List β} {I : Checker → Prop}
    {P : β → γ → Checker → Prop} (hP : ∀ y z c c', P y z c → Checker.Grows c c' → P y z c')
    (hc : L.Valid c.solver) (hI : I c)
    (hf : ∀ y ∈ xs, ∀ c', L.Valid c'.solver → c.Grows c' → I c' →
      L.Checks (f y) c' fun z c'' => I c'' ∧ P y z c'') :
    L.Checks (xs.mapM f) c fun zs c' => I c' ∧ zs.length = xs.length ∧
      (∀ y ∈ xs, ∃ z ∈ zs, P y z c') ∧ ∀ z ∈ zs, ∃ y ∈ xs, P y z c' := by
  induction xs generalizing c with
  | nil => exact .pure hc ⟨hI, rfl, by simp, by simp⟩
  | cons y ys ih =>
    rw [List.mapM_cons]
    refine (hf y (by simp) c hc (.refl c) hI).bind fun z c' hc' hstep hz => ?_
    refine (ih hc' hz.1 fun w hw c'' hc'' hstep' =>
      hf w (by simp [hw]) c'' hc'' (hstep.trans hstep')).bind fun zs c'' hc'' hstep' hzs => ?_
    obtain ⟨hI'', hlen, hfrom, hto⟩ := hzs
    have hyz : P y z c'' := hP y z c' c'' hz.2 hstep'
    refine .pure hc'' ⟨hI'', by simp [hlen], ?_, ?_⟩
    · intro w hw
      rcases List.mem_cons.mp hw with rfl | hw
      · exact ⟨z, by simp, hyz⟩
      · obtain ⟨v, hv, hP'⟩ := hfrom w hw
        exact ⟨v, by simp [hv], hP'⟩
    · intro w hw
      rcases List.mem_cons.mp hw with rfl | hw
      · exact ⟨y, by simp, hyz⟩
      · obtain ⟨v, hv, hP'⟩ := hto w hw
        exact ⟨v, by simp [hv], hP'⟩

end Checks

def Carries (L : Ledger env σ outer) (x : Check α) (c : Checker) : Prop :=
  Ends x c (fun _ c' => L.Valid c'.solver ∧ c.Continues c') fun _ c' =>
    L.Valid c'.solver ∧ c.Continues c'

theorem Checks.carries (hx : L.Checks x c Q) : L.Carries x c :=
  Ends.mono hx (fun _ _ h => ⟨h.1, h.2.1.toContinues⟩) fun _ _ h => h

theorem Carries.of_run (hx : L.Carries x c) {r : Except CheckError α} {c' : Checker}
    (hrun : x.run c = (r, c')) : L.Valid c'.solver ∧ c.Continues c' := by
  cases r with
  | error e => exact Ends.of_error hx hrun
  | ok a => exact Ends.of_ok hx hrun

theorem Carries.bind {f : α → Check β} (hx : L.Carries x c)
    (hf : ∀ a c', L.Valid c'.solver → L.Carries (f a) c') : L.Carries (x >>= f) c := by
  rw [Carries, ends_bind]
  apply Ends.mono hx
  · intro a c' h
    have hstep : ∀ c'', L.Valid c''.solver ∧ c'.Continues c'' →
        L.Valid c''.solver ∧ c.Continues c'' := fun _ h' => ⟨h'.1, h.2.trans h'.2⟩
    exact Ends.mono (hf a c' h.1) (fun _ => hstep) fun _ => hstep
  · exact fun _ _ h => h

end Ledger

end Implicits
