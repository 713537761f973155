import Implicits.Conversion
import Implicits.Proofs.Checker.Elaborate

/-!
Inputs without holes: signatures, contexts, expressions and declarations. They lie within every
scope that allows their level variables, and within the scope that asks for nothing but holes of the
current unit.
-/
namespace Implicits

open Relation Term

structure Scope.IsLoose (σ : Scope) : Prop where
  binder : ∀ name, σ.binder name
  firstOrder : ¬ σ.firstOrder

def Scope.unit (base : Nat) : Scope := { base }

theorem Scope.IsLoose.unit (base : Nat) : (Scope.unit base).IsLoose :=
  ⟨fun _ => trivial, fun h => h⟩

theorem LevelVar.made_unit (v : LevelVar) (base : Nat) (n : Stage) : v.Made (.unit base) n :=
  ⟨fun hv => hv.elim, fun _ hc => hc.elim⟩

theorem Level.made_unit (l : Level) (base : Nat) (n : Stage) : l.Made (.unit base) n := by
  cases l with
  | const => trivial
  | var v => exact v.made_unit base n

section Closed

variable {P Q : LevelVar → Prop} {σ : Scope}

structure Term.ClosedOver (P : LevelVar → Prop) (t : Term) : Prop where
  holeFree : t.HoleFree
  levels : ∀ v ∈ t.levels, P v

theorem Term.ClosedOver.mono {t : Term} (ht : t.ClosedOver P) (hPQ : ∀ v, P v → Q v) :
    t.ClosedOver Q :=
  ⟨ht.holeFree, fun v hv => hPQ v (ht.levels v hv)⟩

theorem Term.ClosedOver.scoped {t : Term} {n : Stage} (ht : t.ClosedOver P) (hσ : σ.IsLoose)
    (hP : ∀ v, P v → v.Made σ n) : t.Scoped σ n :=
  ht.holeFree.scoped hσ.binder hσ.firstOrder fun v hv => hP v (ht.levels v hv)

theorem Term.HoleFree.closedOver {t : Term} (ht : t.HoleFree) : t.ClosedOver fun _ => True :=
  ⟨ht, fun _ _ => trivial⟩

theorem Term.HoleFree.within_unit {t : Term} (ht : t.HoleFree) (base : Nat) (n : Stage) :
    t.Scoped (.unit base) n :=
  ht.closedOver.scoped (.unit base) fun v _ => v.made_unit base n

structure Param.ClosedOver (P : LevelVar → Prop) (p : Param Term) : Prop where
  type : p.type.ClosedOver P
  fallback : ∀ value, p.fallback = some (.exact value) → value.ClosedOver P

theorem Param.ClosedOver.holesFallback {p : Param Term} (hp : p.ClosedOver P) :
    Term.holesFallback p.fallback = [] := by
  have hvalue := hp.fallback
  generalize p.fallback = fallback at hvalue
  cases fallback with
  | none => rfl
  | some tactic =>
    cases tactic with
    | trivial => rfl
    | exact value => exact (hvalue value rfl).holeFree

structure Signature.ClosedOver (P : LevelVar → Prop) (sig : Signature) : Prop where
  params : ∀ p ∈ sig.params, p.ClosedOver P
  result : sig.result.ClosedOver P

theorem Signature.ClosedOver.mono {sig : Signature} (h : sig.ClosedOver P) (hPQ : ∀ v, P v → Q v) :
    sig.ClosedOver Q where
  params p hp := ⟨(h.params p hp).type.mono hPQ, fun value hvalue =>
    ((h.params p hp).fallback value hvalue).mono hPQ⟩
  result := h.result.mono hPQ

theorem Signature.ClosedOver.pi {sig : Signature} (h : sig.ClosedOver P) : sig.pi.ClosedOver P where
  holeFree := by
    refine List.append_eq_nil_iff.mpr ⟨holeFree_params.mpr fun p hp => ?_, h.result.holeFree⟩
    exact ⟨(h.params p hp).type.holeFree, (h.params p hp).holesFallback⟩
  levels v hv := by
    simp only [Signature.pi, Term.levels, List.mem_append, mem_levelsParams] at hv
    rcases hv with ⟨p, hp, hv⟩ | hv
    · exact (h.params p hp).type.levels v hv
    · exact h.result.levels v hv

def Signature.HoleFree (sig : Signature) : Prop := sig.pi.HoleFree

instance (sig : Signature) : Decidable sig.HoleFree := inferInstanceAs (Decidable sig.pi.HoleFree)

theorem Signature.HoleFree.closedOver {sig : Signature} (h : sig.HoleFree) :
    sig.ClosedOver fun _ => True := by
  obtain ⟨hparams, hresult⟩ := List.append_eq_nil_iff.mp h
  refine ⟨fun p hp => ?_, Term.HoleFree.closedOver hresult⟩
  obtain ⟨htype, hfallback⟩ := holeFree_params.mp hparams p hp
  refine ⟨htype.closedOver, fun value hvalue => ?_⟩
  rw [hvalue] at hfallback
  exact Term.HoleFree.closedOver hfallback

theorem Signature.HoleFree.within {sig : Signature} (h : sig.HoleFree) (base : Nat) :
    sig.Within (.unit base) where
  pi n _ := Term.HoleFree.within_unit h base n
  fallback p hp value hvalue n _ :=
    ((h.closedOver.params p hp).fallback value hvalue).holeFree.within_unit base n
  constraints n _ c _ := ⟨c.lo.made_unit base n, c.hi.made_unit base n⟩
  only _ hknown := hknown.elim

def Context.ClosedOver (P : LevelVar → Prop) (hyps : Context) : Prop :=
  ∀ hyp ∈ hyps.hypotheses, hyp.type.ClosedOver P

theorem Context.ClosedOver.scoped {hyps : Context} {n : Stage} (h : hyps.ClosedOver P)
    (hσ : σ.IsLoose) (hP : ∀ v, P v → v.Made σ n) : hyps.Scoped σ n :=
  fun hyp hhyp => (h hyp hhyp).scoped hσ hP

theorem Context.ClosedOver.extend {hyps : Context} (h : hyps.ClosedOver P) {type : Term}
    (htype : type.ClosedOver P) (name : String) : (hyps.extend name type).ClosedOver P :=
  List.forall_mem_cons.mpr ⟨htype, h⟩

def Context.HoleFree (hyps : Context) : Prop := ∀ hyp ∈ hyps.hypotheses, hyp.type.HoleFree

instance (hyps : Context) : Decidable hyps.HoleFree :=
  inferInstanceAs (Decidable (∀ hyp ∈ hyps.hypotheses, hyp.type.HoleFree))

theorem Context.HoleFree.closedOver {hyps : Context} (h : hyps.HoleFree) :
    hyps.ClosedOver fun _ => True :=
  fun hyp hhyp => (h hyp hhyp).closedOver

theorem Context.HoleFree.within {hyps : Context} (h : hyps.HoleFree) (base : Nat) (n : Stage) :
    hyps.Scoped (.unit base) n :=
  fun hyp hhyp => (h hyp hhyp).within_unit base n

namespace Expr

mutual

def holes : Expr → List HoleId
  | missing => []
  | var _ => []
  | type _ => []
  | lit _ t => t.holes
  | call fn args => fn.holes ++ holesArgs args
  | term value => value.holes

def holesArgs : List (Arg Expr) → List HoleId
  | [] => []
  | ⟨_, value⟩ :: args => value.holes ++ holesArgs args

end

mutual

def levels : Expr → List LevelVar
  | missing => []
  | var _ => []
  | type _ => []
  | lit _ t => t.levels
  | call fn args => fn.levels ++ levelsArgs args
  | term value => value.levels

def levelsArgs : List (Arg Expr) → List LevelVar
  | [] => []
  | ⟨_, value⟩ :: args => value.levels ++ levelsArgs args

end

def HoleFree (e : Expr) : Prop := e.holes = []

instance (e : Expr) : Decidable e.HoleFree := inferInstanceAs (Decidable (e.holes = []))

structure ClosedOver (P : LevelVar → Prop) (e : Expr) : Prop where
  holeFree : e.HoleFree
  levels : ∀ v ∈ e.levels, P v

theorem holeFree_args {args : List (Arg Expr)} :
    holesArgs args = [] ↔ ∀ a ∈ args, a.value.HoleFree := by
  induction args with
  | nil => simp [holesArgs]
  | cons a args ih => simp [holesArgs, HoleFree, ih]

theorem mem_levelsArgs {v : LevelVar} {args : List (Arg Expr)} :
    v ∈ levelsArgs args ↔ ∃ a ∈ args, v ∈ a.value.levels := by
  induction args with
  | nil => simp [levelsArgs]
  | cons a args ih => simp [levelsArgs, ih]

/-- Induction over expressions. -/
@[elab_as_elim]
theorem induct {motive : Expr → Prop} (missing : motive .missing)
    (lit : ∀ text type, motive (.lit text type)) (var : ∀ name, motive (.var name))
    (call : ∀ fn args, motive fn → (∀ a ∈ args, motive a.value) → motive (.call fn args))
    (type : ∀ level, motive (.type level)) (term : ∀ value, motive (.term value)) (e : Expr) :
    motive e := by
  refine @Expr.rec motive (fun args => ∀ a ∈ args, motive a.value) (fun a => motive a.value)
    missing lit var call type term ?_ ?_ ?_ e
  · simp
  · intro a args ha hargs
    simpa using ⟨ha, hargs⟩
  · exact fun _ _ h => h

theorem ClosedOver.arg {fn : Expr} {args : List (Arg Expr)} (h : (call fn args).ClosedOver P)
    {a : Arg Expr} (ha : a ∈ args) : a.value.ClosedOver P := by
  obtain ⟨hfree, hlevels⟩ := h
  unfold HoleFree holes at hfree
  refine ⟨holeFree_args.mp (List.append_eq_nil_iff.mp hfree).2 a ha, fun v hv => hlevels v ?_⟩
  exact List.mem_append_right _ (mem_levelsArgs.mpr ⟨a, ha, hv⟩)

theorem ClosedOver.scoped {e : Expr} (he : e.ClosedOver P) (hσ : σ.IsLoose)
    (hP : ∀ v n, P v → v.Made σ n) : e.Scoped σ := by
  induction e using induct with
  | missing => exact .missing
  | lit text type =>
    have htype : (Term.lit text type).ClosedOver P := ⟨he.holeFree, he.levels⟩
    exact .lit fun n => htype.scoped hσ fun v => hP v n
  | var name => exact .var
  | call fn args _ ihargs => exact .call fun a ha => ihargs a ha (he.arg ha)
  | type level => exact .type
  | term value =>
    have hvalue : value.ClosedOver P := ⟨he.holeFree, he.levels⟩
    exact .term fun n => hvalue.scoped hσ fun v => hP v n

theorem HoleFree.closedOver {e : Expr} (he : e.HoleFree) : e.ClosedOver fun _ => True :=
  ⟨he, fun _ _ => trivial⟩

theorem HoleFree.within {e : Expr} (he : e.HoleFree) (base : Nat) : e.Scoped (.unit base) :=
  he.closedOver.scoped (.unit base) fun v n _ => v.made_unit base n

end Expr

def Reduction.ClosedOver (P : LevelVar → Prop) (r : Reduction) : Prop :=
  ∃ arity rules, r = .ofRules arity rules ∧ ∀ rule ∈ rules, rule.rhs.ClosedOver P

theorem Reduction.ClosedOver.mono {r : Reduction} (h : r.ClosedOver P) (hPQ : ∀ v, P v → Q v) :
    r.ClosedOver Q := by
  obtain ⟨arity, rules, rfl, hrules⟩ := h
  exact ⟨arity, rules, rfl, fun rule hrule => (hrules rule hrule).mono hPQ⟩

def Reduction.HoleFree (r : Reduction) : Prop :=
  ∃ arity rules, r = .ofRules arity rules ∧ ∀ rule ∈ rules, rule.rhs.HoleFree

end Closed

structure Declarations.HoleFree (env : Declarations) : Prop where
  signature : ∀ sig ∈ env.signatures, sig.HoleFree
  reduction : ∀ r ∈ env.reductions, r.2.HoleFree
  conversion : ∀ entry ∈ env.conversions, entry.2.source.HoleFree ∧ entry.2.target.HoleFree

section Patterns

variable {P : Term → Prop}

namespace Pattern

mutual

/-- A pattern binds names to parts of the term, which have what passes from an application to its
arguments. -/
theorem forall_of_match?
    (hP : ∀ name args, P (.app (.const name) args) → ∀ a ∈ args, P a) (p : Pattern)
    {t : Term} {sub sub' : Substitution} (ht : P t) (hsub : ∀ entry ∈ sub, P entry.2)
    (h : p.match? t sub = some sub') : ∀ entry ∈ sub', P entry.2 := by
  cases p with
  | any =>
    obtain rfl : sub = sub' := Option.some.inj h
    exact hsub
  | named name =>
    obtain rfl : (name, t) :: sub = sub' := Option.some.inj h
    exact List.forall_mem_cons.mpr ⟨ht, hsub⟩
  | const name =>
    simp only [match?] at h
    split at h
    · split at h
      · obtain rfl : sub = sub' := Option.some.inj h
        exact hsub
      · simp at h
    · simp at h
  | lit text =>
    simp only [match?] at h
    split at h
    · split at h
      · obtain rfl : sub = sub' := Option.some.inj h
        exact hsub
      · simp at h
    · simp at h
  | head name =>
    simp only [match?] at h
    split at h
    · split at h
      · obtain rfl : sub = sub' := Option.some.inj h
        exact hsub
      · simp at h
    · simp at h
  | app name pats =>
    simp only [match?] at h
    split at h
    · split at h
      · exact forall_of_matchAll? hP pats (hP _ _ ht) hsub h
      · simp at h
    · simp at h

theorem forall_of_matchAll? (hP : ∀ name args, P (.app (.const name) args) → ∀ a ∈ args, P a)
    (ps : List Pattern) {ts : List Term} {sub sub' : Substitution} (hts : ∀ t ∈ ts, P t)
    (hsub : ∀ entry ∈ sub, P entry.2) (h : matchAll? ps ts sub = some sub') :
    ∀ entry ∈ sub', P entry.2 := by
  match ps, ts with
  | [], [] =>
    obtain rfl : sub = sub' := Option.some.inj h
    exact hsub
  | p :: ps, t :: ts =>
    rw [matchAll?] at h
    obtain ⟨sub₁, hp, hps⟩ := Option.bind_eq_some_iff.mp h
    have hsub₁ := forall_of_match? hP p (hts t (by simp)) hsub hp
    exact forall_of_matchAll? hP ps (fun u hu => hts u (by simp [hu])) hsub₁ hps
  | [], _ :: _ => simp [matchAll?] at h
  | _ :: _, [] => simp [matchAll?] at h

end

end Pattern

end Patterns

/-- A rule gives its right side with parts of the arguments. -/
theorem Rule.forall_of_fire? {P : Term → Prop}
    (hP : ∀ name args, P (.app (.const name) args) → ∀ a ∈ args, P a) {rule : Rule}
    {args : List Term} {out : Term} (hargs : ∀ a ∈ args, P a) (hout : rule.fire? args = some out) :
    ∃ sub : Substitution, (∀ entry ∈ sub, P entry.2) ∧ out = rule.rhs.subst sub := by
  obtain ⟨sub, hmatch, rfl⟩ := Option.map_eq_some_iff.mp hout
  refine ⟨sub, ?_, rfl⟩
  exact Pattern.forall_of_matchAll? hP rule.patterns (fun t ht => hargs t (List.mem_of_mem_take ht))
    (by simp) hmatch

/-- Closed rules keep the scope of their arguments. -/
theorem Reduction.ClosedOver.scoped {P : LevelVar → Prop} {r : Reduction} (hr : r.ClosedOver P)
    {σ : Scope} (hσ : σ.IsLoose) {n : Stage} (hP : ∀ v, P v → v.Made σ n) {args : List Term}
    {out : Term} (hargs : ∀ a ∈ args, a.Scoped σ n) (hout : r.reduce args = some out) :
    out.Scoped σ n := by
  obtain ⟨arity, rules, rfl, hrules⟩ := hr
  obtain ⟨rule, hrule, hfire⟩ := List.exists_of_findSome?_eq_some hout
  have hparts : ∀ name args, (Term.app (.const name) args).Scoped σ n →
      ∀ a ∈ args, a.Scoped σ n := by
    rintro name args (_ | _ | _ | _ | _ | ⟨-, -, hargs⟩)
    exact hargs
  obtain ⟨sub, hsub, rfl⟩ := Rule.forall_of_fire? hparts hargs hfire
  exact ((hrules rule hrule).scoped hσ hP).subst hsub

theorem Declarations.scoped_of_reduce? {P : LevelVar → Prop} {env : Declarations}
    (henv : ∀ r ∈ env.reductions, r.2.ClosedOver P) {σ : Scope} (hσ : σ.IsLoose) {n : Stage}
    (hP : ∀ v, P v → v.Made σ n) {name : String} {args : List Term} {out : Term}
    (hargs : ∀ a ∈ args, a.Scoped σ n) (hout : env.reduce? name args = some out) :
    out.Scoped σ n := by
  obtain ⟨r, hr, hout⟩ := Option.bind_eq_some_iff.mp hout
  split at hout
  · exact (henv (name, r) (mem_of_lookup hr)).scoped hσ hP hargs hout
  · simp at hout

theorem Declarations.HoleFree.within {env : Declarations} (henv : env.HoleFree) (base : Nat) :
    env.Within (.unit base) where
  signature _ sig hsig := (henv.signature sig (mem_of_signature? hsig)).within base
  conversion entry hentry n _ := (henv.conversion entry hentry).2.within_unit base n
  reduce n name args out hargs hout := by
    have hclosed : ∀ r ∈ env.reductions, r.2.ClosedOver fun _ => True := by
      intro r hr
      obtain ⟨arity, rules, heq, hrules⟩ := henv.reduction r hr
      exact ⟨arity, rules, heq, fun rule hrule => (hrules rule hrule).closedOver⟩
    exact scoped_of_reduce? hclosed (.unit base) (fun v _ => v.made_unit base n) hargs hout
  firstOrder hfirst := hfirst.elim

/-- A function of one explicit parameter whose result, as it is read, does not depend on it. -/
def Signature.Converts (sig : Signature) (h : Holes) (p : Param Term) : Prop :=
  sig.params = [p] ∧ p.plicity = .explicit ∧ (h.expand sig.result).mentions p.name = false

def Declarations.filed (env : Declarations) (h : Holes) (sig : Signature) (p : Param Term) :
    String × Conversion :=
  let source := h.normalize env p.type
  let target := h.normalize env sig.result
  (Check.conversionKey h source target, ⟨sig.name, source, target⟩)

/-- A conversion is what a declared function is filed as. -/
theorem Declarations.filed_of_conversion {env : Declarations} {name : String} {h : Holes}
    {entry : String × Conversion} (hentry : env.conversion name h = .ok entry) :
    ∃ sig p, env.signature? name = some sig ∧ sig.Converts h p ∧ entry = env.filed h sig p := by
  unfold conversion at hentry
  split at hentry
  · simp at hentry
  · rename_i sig hsig
    have hname := name_of_signature? hsig
    split at hentry
    · rename_i p hparams
      split at hentry
      · simp at hentry
      · rename_i hexplicit
        split at hentry
        · simp at hentry
        · rename_i hresult
          dsimp only at hentry
          split at hentry
          · simp at hentry
          · obtain rfl := Except.ok.inj hentry
            refine ⟨sig, p, hsig, ⟨hparams, not_not.mp hexplicit, Bool.not_eq_true _ ▸ hresult⟩, ?_⟩
            rw [filed, hname]
    · simp at hentry

theorem Declarations.key_of_conversion {env : Declarations} {name : String} {h : Holes}
    {entry : String × Conversion} (hentry : env.conversion name h = .ok entry) :
    entry.1 = Check.conversionKey h entry.2.source entry.2.target := by
  obtain ⟨sig, p, -, -, rfl⟩ := filed_of_conversion hentry
  rfl

/-- The scope of a unit asks nothing of constraints and imports. -/
theorem Solver.sound_unit {s : Solver} {base : Nat} (h : s.holes.Sound (.unit base) s.stage) :
    s.Sound (.unit base) :=
  ⟨h, fun c _ => ⟨c.lo.made_unit base _, c.hi.made_unit base _⟩, fun _ hknown => hknown.elim,
    fun htracks => htracks.elim, fun htracks => htracks.elim, fun _ _ h => h.elim⟩

namespace Holes

/-- For a unit that begins now there is nothing to ask of the table. -/
theorem sound_start (h : Holes) {σ : Scope} (hσ : σ.base = h.size) (levels : Nat)
    {seen : List Constraint} : h.Sound σ ⟨h.size, levels, seen⟩ where
  size := rfl
  base := Nat.le_of_eq hσ
  solution _ _ hi ht := absurd (lt_size_of_solution? ht) (Nat.not_lt.mpr (hσ ▸ hi))
  type _ hi hlt := absurd hlt (Nat.not_lt.mpr (hσ ▸ hi))
  acyclic i hi hcircle := by
    obtain ⟨j, ⟨t, ht, _⟩, _⟩ := TransGen.head'_iff.mp hcircle
    exact absurd (lt_size_of_solution? ht) (Nat.not_lt.mpr (hσ ▸ hi))

section

variable {env : Declarations} {h h' : Holes} {t : Term}

theorem expand_of_holeFree (h : Holes) (ht : t.HoleFree) : h.expand t = t := by
  unfold expand
  cases h.size with
  | zero => rfl
  | succ n => exact fill_of_holeFree ht

theorem normalizeN_holeFree (henv : env.HoleFree) (h : Holes) (k left : Nat) (ht : t.HoleFree) :
    (h.normalizeN env k t left).1.HoleFree := by
  have hstart : h.Sound (.unit h.size) ⟨h.size, 0, []⟩ := h.sound_start rfl 0
  have hscoped := hstart.normalizeN (henv.within _).toReducesWithin k left (ht.within_unit _ _)
  exact hscoped.holeFree trivial (Nat.le_refl _)

/-- The normal form of a term without holes does not depend on the table. -/
theorem normalizeN_congr (henv : env.HoleFree) (h h' : Holes) (k left : Nat) (ht : t.HoleFree) :
    h.normalizeN env k t left = h'.normalizeN env k t left := by
  induction k generalizing t left with
  | zero => rfl
  | succ k ih =>
    rw [normalizeN, normalizeN, expand_of_holeFree h ht, expand_of_holeFree h' ht]
    have hreduce : ∀ name args out, (∀ a ∈ args, a.Scoped (.unit 0) ⟨0, 0, []⟩) →
        env.reduce? name args = some out → out.HoleFree := fun name args out hargs hout =>
      ((henv.within 0).reduce ⟨0, 0, []⟩ name args out hargs hout).holeFree trivial (Nat.le_refl 0)
    refine (ht.within_unit 0 ⟨0, 0, []⟩).normalizeWith_congr ?_ (fun hfirst => hfirst.elim) ?_ left
    · intro name args left out hargs hout
      cases left with
      | zero => simp at hout
      | succ left =>
        obtain ⟨u, hu, rfl⟩ := Option.map_eq_some_iff.mp hout
        exact (normalizeN_holeFree henv h k left (hreduce name args u hargs hu)).within_unit 0
          ⟨0, 0, []⟩
    · intro name args left hargs
      cases left with
      | zero => rfl
      | succ left =>
        cases hred : env.reduce? name args with
        | none => rfl
        | some out => simp only [Option.map_some, ih left (hreduce name args out hargs hred)]

/-- What a term is read as determines its normal form. -/
theorem normalize_congr {u : Term} (henv : env.HoleFree) (hfree : (h.expand t).HoleFree)
    (heq : h'.expand u = h.expand t) : h'.normalize env u = h.normalize env t := by
  have hread : ∀ (g : Holes) (v : Term), g.expand v = h.expand t →
      g.normalize env v = g.normalize env (h.expand t) := by
    intro g v hv
    rw [normalize, normalize, normalizeCount, normalizeCount, normalizeN, normalizeN, hv,
      expand_of_holeFree g hfree]
  rw [hread h' u heq, hread h t rfl]
  exact congrArg Prod.fst (normalizeN_congr henv h' h _ _ hfree)

theorem normalize_holeFree (henv : env.HoleFree) (hfree : (h.expand t).HoleFree) :
    (h.normalize env t).HoleFree := by
  have hsame : h.normalize env (h.expand t) = h.normalize env t :=
    normalize_congr henv hfree (expand_of_holeFree h hfree)
  rw [← hsame]
  exact normalizeN_holeFree henv h _ _ hfree

end

end Holes

end Implicits
