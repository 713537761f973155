import Implicits.Proofs.Solver.Pairing
import Implicits.Proofs.Term.Written
import Implicits.Unit

/-!
Elaboration in two runs side by side. The checkers may have different pasts: other holes,
constraints and obligations, and other arguments that still wait. An expression without holes is
elaborated in both runs or fails in both with the same kind of error, and the terms, obligations and
arguments that are left waiting go together. The only place where the numbers of level variables
could be seen are the texts under which conversions are filed.
-/
namespace Implicits

structure Attempt.Alike (a b : Attempt) : Prop where
  strategy : b.strategy = a.strategy
  ok : b.ok = a.ok
  hypothesis : a.strategy = .contextScan → b.candidate = a.candidate

structure Obligation.Paired (ρ : Pairing) (o o' : Obligation) : Prop where
  function : o'.function = o.function
  param : o'.param = o.param
  goal : o.goal.Paired ρ o'.goal
  context : o.context.Paired ρ o'.context
  value : o.value.Paired ρ o'.value
  strategy : o'.strategy = o.strategy
  trace : List.Forall₂ Attempt.Alike o.trace o'.trace

structure Pending.Paired (ρ : Pairing) (p p' : Pending) : Prop where
  site : p'.site = p.site
  function : p'.function = p.function
  param : p'.param = p.param
  hole : ρ.hole p.hole p'.hole
  context : p.context.Paired ρ p'.context

def CheckError.kind : CheckError → CheckError
  | typing fault => typing fault.kind
  | mismatch site param _ _ cause => mismatch site param .missing .missing cause.kind
  | ambiguous site _ _ candidates => ambiguous site .missing .missing candidates
  | unresolved site function param _ _ => unresolved site function param .missing []
  | badParam param function fault => badParam param function fault.kind
  | badDefault param function fault => badDefault param function fault.kind
  | badResult function fault => badResult function fault.kind
  | inconsistent _ => inconsistent ⟨[]⟩
  | inBody name e => inBody name e.kind
  | inUnit unit e => inUnit unit e.kind
  | e => e

def Check.SameKind (e f : CheckError) : Prop := f.kind = e.kind

def GrownBy {α β : Type} (R : α → β → Prop) (old : List α) (old' : List β) (xs : List α)
    (ys : List β) : Prop :=
  ∃ new new', xs = old ++ new ∧ ys = old' ++ new' ∧ List.Forall₂ R new new'

namespace GrownBy

variable {α β : Type} {R : α → β → Prop} {old xs : List α} {old' ys : List β}

theorem refl : GrownBy R old old' old old' :=
  ⟨[], [], (List.append_nil _).symm, (List.append_nil _).symm, .nil⟩

theorem append (h : GrownBy R old old' xs ys) {more : List α} {more' : List β}
    (hmore : List.Forall₂ R more more') : GrownBy R old old' (xs ++ more) (ys ++ more') := by
  obtain ⟨new, new', rfl, rfl, hnew⟩ := h
  exact ⟨new ++ more, new' ++ more', List.append_assoc _ _ _, List.append_assoc _ _ _,
    List.rel_append hnew hmore⟩

theorem forall₂ (h : GrownBy R [] [] xs ys) : List.Forall₂ R xs ys := by
  obtain ⟨new, new', rfl, rfl, hnew⟩ := h
  exact hnew

end GrownBy

structure Checker.Standing where
  session : Option SessionId
  own : Declarations
  failure : Option CheckError
  invalid : Expr

def Checker.standing (c : Checker) : Checker.Standing := ⟨c.session, c.own, c.failure, c.invalid⟩

def Checker.Standing.fail (x : Checker.Standing) (site : Expr) (e : CheckError) :
    Checker.Standing :=
  if x.failure.isNone then { x with failure := some e, invalid := site } else x

/-- How the checkers of two runs compare: what each of them has found, and how far they agree in the
unit that they are in. -/
structure Checker.Comparison (ρ : Pairing) extends Solver.Comparison ρ where
  left : Checker
  right : Checker
  standing : Checker.Standing → Checker.Standing → Prop
  fail : ∀ {x y : Checker.Standing} {e f : CheckError} (site : Expr), standing x y →
    Check.SameKind e f → standing (x.fail site e) (y.fail site f)

structure Checker.Paired {ρ : Pairing} (K : Checker.Comparison ρ) (c d : Checker) : Prop where
  solver : c.solver.Paired K.toComparison d.solver
  options : d.options = c.options
  pending : GrownBy (Pending.Paired ρ) K.left.pending K.right.pending c.pending d.pending
  obligations :
    GrownBy (Obligation.Paired ρ) K.left.obligations K.right.obligations c.obligations d.obligations
  openObligations : GrownBy (Obligation.Paired ρ) K.left.openObligations K.right.openObligations
    c.openObligations d.openObligations
  standing : K.standing c.standing d.standing

theorem Checker.Paired.withSolver {ρ : Pairing} {K : Checker.Comparison ρ} {c d : Checker}
    (hcd : c.Paired K d) {s t : Solver} (hst : s.Paired K.toComparison t) :
    Checker.Paired K { c with solver := s } { d with solver := t } :=
  { hcd with solver := hst }

structure Declarations.Indifferent (ρ : Pairing) (env env' : Declarations) : Prop
    extends Declarations.Paired ρ env env' where
  targets : ∀ entry ∈ env.conversions, entry.2.target.ClosedOver ρ.known
  conversions : ∀ (h h' : Holes) (a a' b b' : Term), h.Paired ρ h' → a.Paired ρ a' → b.Paired ρ b' →
    h.hasOpen a = false → h.hasOpen b = false →
    env'.conversionsAt (Check.conversionKey h' a' b') =
      env.conversionsAt (Check.conversionKey h a b)

/-- Declarations whose conversions are not filed under a text in which some kind of universe is
written. -/
def Declarations.Unwritten (P : LevelVar → Prop) (env : Declarations) : Prop :=
  ∀ entry ∈ env.conversions, ¬ Writes P entry.1

namespace Declarations

variable {P : LevelVar → Prop} {ρ : Pairing} {env env' : Declarations}

theorem Unwritten.conversionsAt_eq_nil (henv : env.Unwritten P) {key : String}
    (hkey : Writes P key) :
    env.conversionsAt key = [] := by
  have hnone : env.conversions.filter (·.1 == key) = [] := by
    refine List.filter_eq_nil_iff.mpr fun entry hentry heq => ?_
    exact henv entry hentry (beq_iff_eq.mp heq ▸ hkey)
  rw [conversionsAt, hnone, List.map_nil]

/-- Known terms that go together have the same text, or both texts show a level variable that is not
its own partner. -/
theorem text_paired (hlevel : ∀ v w, ρ.level v w → v = w ∨ P v ∧ P w) {h h' : Holes}
    (hh : h.Paired ρ h') {a b : Term} (hab : a.Paired ρ b) (ha : h.hasOpen a = false) :
    h'.text b = h.text a ∨ Writes P (h.text a) ∧ Writes P (h'.text b) := by
  have hshown := (hh.expand hab).eq_or_shown hlevel ha h.label h'.label
  have hrender : (h'.expand b).render h'.label false = (h.expand a).render h.label false ∨
      Writes P ((h.expand a).render h.label false) ∧
      Writes P ((h'.expand b).render h'.label false) := by
    rcases hshown with heq | ⟨hleft, hright⟩
    · rw [← heq]
      exact .inl (Term.render_congr ha _ _ _)
    · exact .inr ⟨hleft false, hright false⟩
  cases hab with
  | missing => exact .inl rfl
  | _ => exact hrender

theorem Unwritten.indifferent (henv : env.Unwritten P) (hpaired : env.Paired ρ env')
    (hconversions : env'.conversions = env.conversions)
    (htargets : ∀ entry ∈ env.conversions, entry.2.target.ClosedOver ρ.known)
    (hlevel : ∀ v w, ρ.level v w → v = w ∨ P v ∧ P w) : env.Indifferent ρ env' := by
  refine ⟨hpaired, htargets, fun h h' a a' b b' hh ha hb hknown hknown' => ?_⟩
  have hsame : ∀ key, env'.conversionsAt key = env.conversionsAt key := by
    intro key
    rw [conversionsAt, conversionsAt, hconversions]
  have hboth : ∀ {key key' : String}, Writes P key ∧ Writes P key' →
      env.conversionsAt key' = env.conversionsAt key := by
    intro key key' hwrites
    rw [henv.conversionsAt_eq_nil hwrites.1, henv.conversionsAt_eq_nil hwrites.2]
  rw [hsame]
  unfold Check.conversionKey
  rcases text_paired hlevel hh ha hknown with hsource | ⟨hsource, hsource'⟩
  · rcases text_paired hlevel hh hb hknown' with htarget | ⟨htarget, htarget'⟩
    · rw [hsource, htarget]
    · exact hboth ⟨htarget.append_left _, htarget'.append_left _⟩
  · exact hboth ⟨(hsource.append_right _).append_right _, (hsource'.append_right _).append_right _⟩

end Declarations

namespace Check

abbrev ChecksPaired {α β : Type} {ρ : Pairing} (K : Checker.Comparison ρ) (V : α → β → Prop)
    (x : Check α) (y : Check β) : Prop :=
  Simulates (Checker.Paired K) V SameKind x y

section Steps

variable {ρ : Pairing} {K : Checker.Comparison ρ} {α β : Type} {V : α → β → Prop}
    {env env' : Declarations}

theorem solve_paired {x : Solve α} {y : Solve β} (hxy : Solve.SolvesPaired K.toComparison V x y) :
    ChecksPaired K (Outcomes V Solve.SameKind) (solve x) (solve y) := by
  intro c d hcd
  obtain ⟨houtcome, hsolver⟩ := hxy _ _ hcd.solver
  exact ⟨.ok houtcome, hcd.withSolver hsolver⟩

theorem holes_paired : ChecksPaired K (Holes.Paired ρ) holes holes :=
  fun _ _ hcd => ⟨.ok hcd.solver.holes, hcd⟩

theorem text_paired (t u : Term) : ChecksPaired K (fun _ _ => True) (text t) (text u) :=
  fun _ _ hcd => ⟨.ok trivial, hcd⟩

theorem exprText_paired (e f : Expr) : ChecksPaired K (fun _ _ => True) (exprText e) (exprText f) :=
  fun _ _ hcd => ⟨.ok trivial, hcd⟩

theorem note_paired (e f : Event) : ChecksPaired K (fun _ _ => True) (note e) (note f) := by
  refine .modify fun c d hcd => ?_
  have hlog : d.options.log = c.options.log := by rw [hcd.options]
  rw [hlog]
  split
  · exact { hcd with }
  · exact hcd

theorem fail_paired (site : Expr) {e f : CheckError} (hef : SameKind e f) :
    ChecksPaired K V (fail site e : Check α) (fail site f : Check β) := by
  have hkeep : ∀ (c : Checker) (e : CheckError), ∃ failure invalid,
      (if c.failure.isNone then { c with failure := some e, invalid := site } else c : Checker) =
        { c with failure, invalid } ∧
        c.standing.fail site e = ⟨c.session, c.own, failure, invalid⟩ := by
    intro c e
    unfold Checker.Standing.fail
    change ∃ failure invalid, _ ∧ ite (c.failure.isNone = true) _ _ = _
    split
    · exact ⟨_, _, rfl, rfl⟩
    · exact ⟨c.failure, c.invalid, rfl, rfl⟩
  refine .bind (.modify fun c d hcd => ?_) fun _ _ _ => .throw hef
  have hstanding := K.fail site hcd.standing hef
  obtain ⟨failure, invalid, hc, hleft⟩ := hkeep c e
  obtain ⟨failure', invalid', hd, hright⟩ := hkeep d f
  rw [hleft, hright] at hstanding
  rw [hc, hd]
  exact { hcd with standing := hstanding }

theorem fail_bind_paired {γ δ : Type} {W : γ → δ → Prop} (site : Expr) {e f : CheckError}
    (hef : SameKind e f) (x : α → Check γ) (y : β → Check δ) :
    ChecksPaired K W (fail site e >>= x) (fail site f >>= y) :=
  .bind (V := fun _ _ => False) (fail_paired site hef) fun _ _ hfalse => hfalse.elim

theorem orFail_paired (site : Expr) {wrap wrap' : Fault → CheckError}
    (hwrap : ∀ e f, Solve.SameKind e f → SameKind (wrap e) (wrap' f)) {x : Solve α} {y : Solve β}
    (hxy : Solve.SolvesPaired K.toComparison V x y) :
    ChecksPaired K V (orFail site wrap x) (orFail site wrap' y) := by
  refine .bind (solve_paired hxy) fun a b hab => ?_
  cases hab with
  | ok hab => exact .pure hab
  | error hef => exact fail_paired site (hwrap _ _ hef)

theorem importSignature_paired {sig sig' : Signature}
    (hsig : sig.Alike ρ.known sig') :
    ChecksPaired K (fun _ _ => True)
      (modify fun c => { c with solver := c.solver.importSignature sig })
      (modify fun c => { c with solver := c.solver.importSignature sig' }) :=
  .modify fun _ _ hcd => hcd.withSolver (hcd.solver.importSignature hsig)

theorem lookupSignature?_paired (henv : env.Paired ρ env') (name : String) :
    ChecksPaired K (Option.Rel (Signature.Alike ρ.known)) (lookupSignature? env name)
      (lookupSignature? env' name) := by
  have hsig := Declarations.signature?_alike henv.signatures name
  unfold lookupSignature?
  generalize env.signature? name = x, env'.signature? name = y at hsig
  cases hsig with
  | none => exact .pure .none
  | some hsig => exact .bind (importSignature_paired hsig) fun _ _ _ => .pure (.some hsig)

end Steps

end Check

namespace Search

open Check

variable {ρ : Pairing} {K : Checker.Comparison ρ} {env env' : Declarations} {hyps hyps' : Context}
    {goal goal' : Term}

def FindsPaired (ρ : Pairing) (x y : Option Term × List Attempt) : Prop :=
  Option.Rel (Term.Paired ρ) x.1 y.1 ∧ List.Forall₂ Attempt.Alike x.2 y.2

def ScansPaired (x y : Option Term × List Attempt) : Prop :=
  Option.Rel (fun t u => ∃ name, t = .bound name ∧ u = .bound name) x.1 y.1 ∧
    List.Forall₂ Attempt.Alike x.2 y.2

theorem scan_paired (henv : env.Paired ρ env') (hhyps : hyps.Paired ρ hyps')
    (hgoal : goal.Paired ρ goal') (seen : List String) {xs ys : List Hypothesis}
    (hxs : List.Forall₂ (fun x y => y.name = x.name ∧ x.type.Paired ρ y.type) xs ys) :
    ChecksPaired K ScansPaired (scan env hyps goal seen xs) (scan env' hyps' goal' seen ys) := by
  induction hxs generalizing seen with
  | nil => exact .pure ⟨.none, .nil⟩
  | @cons x y _ _ hxy _ ih =>
    obtain ⟨hname, htype⟩ := hxy
    rw [scan, scan, hname]
    split
    · exact ih seen
    · refine .bind holes_paired fun h h' hh => ?_
      refine .bind (solve_paired (Solve.tryUnify_paired henv hhyps (hh.normalize henv htype) hgoal))
        fun _ _ houtcome => ?_
      cases houtcome with
      | ok =>
        exact .pure ⟨.some ⟨x.name, rfl, rfl⟩, .cons ⟨rfl, rfl, fun _ => rfl⟩ .nil⟩
      | error =>
        refine .bind (ih _) fun r r' hr => ?_
        exact .pure ⟨hr.1, .cons ⟨rfl, rfl, fun _ => rfl⟩ hr.2⟩

theorem contextScan_paired (henv : env.Paired ρ env') (hgoal : goal.Paired ρ goal')
    (hhyps : hyps.Paired ρ hyps') :
    ChecksPaired K ScansPaired (contextScan env goal hyps) (contextScan env' goal' hyps') := by
  unfold contextScan
  rw [isEmpty_of_forall₂ hhyps]
  split
  · exact .pure ⟨.none, .cons ⟨rfl, rfl, fun _ => rfl⟩ .nil⟩
  · refine .bind holes_paired fun h h' hh => ?_
    exact scan_paired henv hhyps (hh.normalize henv hgoal) [] hhyps

/-- A single step other than a scan, of which the texts do not count. -/
theorem tried_paired {a b : Attempt} (hother : a.strategy ≠ .contextScan)
    (hstrategy : b.strategy = a.strategy) (hok : b.ok = a.ok) :
    List.Forall₂ Attempt.Alike [a] [b] :=
  .cons ⟨hstrategy, hok, fun hscan => absurd hscan hother⟩ .nil

theorem reflexivity_paired (henv : env.Paired ρ env') (hgoal : goal.Paired ρ goal')
    (hhyps : hyps.Paired ρ hyps') :
    ChecksPaired K (FindsPaired ρ) (reflexivity env goal hyps) (reflexivity env' goal' hyps') := by
  unfold reflexivity
  refine .bind holes_paired fun h h' hh => ?_
  have hnormal := hh.normalize henv hgoal
  generalize h.normalize env goal = x, h'.normalize env' goal' = y at hnormal
  cases hnormal with
  | eq hlhs hrhs =>
    refine .bind (solve_paired (Solve.tryUnify_paired henv hhyps hlhs hrhs)) fun _ _ houtcome => ?_
    cases houtcome with
    | ok =>
      refine .bind (text_paired _ _) fun _ _ _ => .bind holes_paired fun g g' hg => ?_
      exact .pure ⟨.some (.refl (hg.deref hlhs)), tried_paired nofun rfl rfl⟩
    | error =>
      exact .bind (text_paired _ _) fun _ _ _ => .pure ⟨.none, tried_paired nofun rfl rfl⟩
  | _ => exact .pure ⟨.none, tried_paired nofun rfl rfl⟩

theorem givenValue_paired (henv : env.Paired ρ env') {value : Term}
    (hvalue : value.ClosedOver ρ.known) (hgoal : goal.Paired ρ goal') (hhyps : hyps.Paired ρ hyps')
    {sub sub' : Substitution} (hsub : sub.Paired ρ sub') :
    ChecksPaired K (FindsPaired ρ) (givenValue env value goal hyps sub)
      (givenValue env' value goal' hyps' sub') := by
  refine .bind holes_paired fun h h' hh => ?_
  have hfilled := hh.subst hvalue.paired hsub
  refine .bind (text_paired _ _) fun _ _ _ => ?_
  refine .bind (solve_paired (.bind (Solve.TypesPaired.solvesPaired fun _ _ hg =>
    Solve.typeOf_paired hg henv hhyps hfilled) fun _ _ htype =>
    Solve.trySubsume_paired henv hhyps htype hgoal)) fun _ _ houtcome => ?_
  cases houtcome with
  | ok => exact .pure ⟨.some hfilled, tried_paired nofun rfl rfl⟩
  | error => exact .pure ⟨.none, tried_paired nofun rfl rfl⟩

structure FoundPaired (ρ : Pairing) (x y : Term × Strategy) : Prop where
  value : x.1.Paired ρ y.1
  strategy : y.2 = x.2
  hypothesis : x.2 = .contextScan → ∃ name, x.1 = .bound name

def RunPaired (ρ : Pairing) (x y : Option (Term × Strategy) × List Attempt) : Prop :=
  Option.Rel (FoundPaired ρ) x.1 y.1 ∧ List.Forall₂ Attempt.Alike x.2 y.2

theorem run_paired (henv : env.Paired ρ env') {tactic : Tactic Term}
    (htactic : ∀ value, tactic = .exact value → value.ClosedOver ρ.known)
    (hgoal : goal.Paired ρ goal') (hhyps : hyps.Paired ρ hyps') {sub sub' : Substitution}
    (hsub : sub.Paired ρ sub') :
    ChecksPaired K (RunPaired ρ) (run env tactic goal hyps sub)
      (run env' tactic goal' hyps' sub') := by
  have hlabel : ∀ {x y : Option Term} {strategy : Strategy}, strategy ≠ .contextScan →
      Option.Rel (Term.Paired ρ) x y →
      Option.Rel (FoundPaired ρ) (x.map (·, strategy)) (y.map (·, strategy)) := by
    intro x y strategy hother hxy
    cases hxy with
    | none => exact .none
    | some hxy => exact .some ⟨hxy, rfl, fun hscan => absurd hscan hother⟩
  cases tactic with
  | exact value =>
    refine .bind (givenValue_paired henv (htactic value rfl) hgoal hhyps hsub) fun r r' hr => ?_
    exact .pure ⟨hlabel (by decide) hr.1, hr.2⟩
  | trivial =>
    refine .bind (contextScan_paired henv hgoal hhyps) fun r r' hr => ?_
    obtain ⟨found, trace⟩ := r
    obtain ⟨found', trace'⟩ := r'
    obtain ⟨hfound, htrace⟩ := hr
    cases hfound with
    | some hvalue =>
      obtain ⟨name, rfl, rfl⟩ := hvalue
      exact .pure ⟨.some ⟨.bound, rfl, fun _ => ⟨name, rfl⟩⟩, htrace⟩
    | none =>
      refine .bind (reflexivity_paired henv hgoal hhyps) fun r r' hr => ?_
      exact .pure ⟨hlabel (by decide) hr.1, List.rel_append htrace hr.2⟩

end Search

namespace Signature

variable {α β : Type} {P : α → β → Prop} {Q : LevelVar → Prop} {sig sig' : Signature}

theorem getElem?_alike {R : α → β → Prop} {xs : List α} {ys : List β} (h : List.Forall₂ R xs ys)
    (i : Nat) : Option.Rel R xs[i]? ys[i]? := by
  induction h generalizing i with
  | nil => exact .none
  | cons hxy _ ih =>
    cases i with
    | zero => exact .some hxy
    | succ i => simpa using ih i

theorem set_paired {R : α → β → Prop} {xs : List α} {ys : List β}
    (h : List.Forall₂ R xs ys) (i : Nat) {a : α} {b : β} (hab : R a b) :
    List.Forall₂ R (xs.set i a) (ys.set i b) := by
  induction h generalizing i with
  | nil => exact .nil
  | cons hxy hrest ih =>
    cases i with
    | zero => exact .cons hab hrest
    | succ i => exact .cons hxy (ih i)

abbrev SlotsPaired (P : α → β → Prop) (xs : List (Option α)) (ys : List (Option β)) : Prop :=
  List.Forall₂ (Option.Rel P) xs ys

theorem isSome_paired {x : Option α} {y : Option β} (h : Option.Rel P x y) :
    y.isSome = x.isSome := by
  cases h with
  | none => rfl
  | some => rfl

theorem placeNamed_paired (hsig : sig.Alike Q sig') {args : List (Arg (Option α))}
    {args' : List (Arg (Option β))}
    (hargs : List.Forall₂ (fun x y => y.name = x.name ∧ Option.Rel P x.value y.value) args args')
    {slots : List (Option α)} {slots' : List (Option β)} (hslots : SlotsPaired P slots slots') :
    Outcomes (SlotsPaired P) Eq (sig.placeNamed args slots) (sig'.placeNamed args' slots') := by
  induction hargs generalizing slots slots' with
  | nil => exact .ok hslots
  | @cons x y _ _ hxy _ ih =>
    obtain ⟨name, value⟩ := x
    obtain ⟨name', value'⟩ := y
    obtain ⟨rfl, hvalue⟩ := hxy
    have hindex : sig'.paramIndex? name' = sig.paramIndex? name' := by
      rw [paramIndex?, paramIndex?, hsig.params]
    rw [placeNamed, placeNamed, hindex, hsig.name]
    by_cases hname : name' = ""
    · rw [if_pos hname, if_pos hname]
      exact ih hslots
    · rw [if_neg hname, if_neg hname]
      cases sig.paramIndex? name' with
      | none => exact .error rfl
      | some i =>
        have hfilled : slots'[i]?.join.isSome = slots[i]?.join.isSome := by
          have hslot := getElem?_alike hslots i
          generalize slots[i]? = u, slots'[i]? = v at hslot
          cases hslot with
          | none => rfl
          | some huv => exact isSome_paired huv
        simp only [hfilled]
        split
        · exact .error rfl
        · exact ih (set_paired hslots i hvalue)

theorem placePositional_paired (params : List (Param Term)) {slots values : List (Option α)}
    {slots' values' : List (Option β)} (hslots : SlotsPaired P slots slots')
    (hvalues : SlotsPaired P values values') :
    SlotsPaired P (placePositional params slots values).1
      (placePositional params slots' values').1 ∧
      SlotsPaired P (placePositional params slots values).2
        (placePositional params slots' values').2 := by
  induction params generalizing slots slots' values values' with
  | nil => exact ⟨hslots, hvalues⟩
  | cons p params ih =>
    cases hslots with
    | nil => exact ⟨.nil, hvalues⟩
    | cons hslot hslots =>
      cases hvalues with
      | nil => exact ⟨.cons hslot hslots, .nil⟩
      | cons hvalue hvalues =>
        simp only [placePositional, isSome_paired hslot]
        split
        · obtain ⟨hfirst, hsecond⟩ := ih hslots (.cons hvalue hvalues)
          exact ⟨.cons hslot hfirst, hsecond⟩
        · obtain ⟨hfirst, hsecond⟩ := ih hslots hvalues
          exact ⟨.cons hvalue hfirst, hsecond⟩

theorem firstMissing?_alike (params : List (Param Term)) {slots : List (Option α)}
    {slots' : List (Option β)} (hslots : SlotsPaired P slots slots') :
    firstMissing? params slots' = firstMissing? params slots := by
  induction params generalizing slots slots' with
  | nil => rfl
  | cons p params ih =>
    cases hslots with
    | nil => rfl
    | @cons x y _ _ hslot hslots =>
      have hnone : y.isNone = x.isNone := by
        rw [← Option.not_isSome, ← Option.not_isSome, isSome_paired hslot]
      unfold firstMissing? at ih ⊢
      simp only [List.zip_cons_cons, List.find?_cons, hnone]
      split
      · rfl
      · exact ih hslots

/-- Arguments are placed alike. -/
theorem matchArguments_paired (hsig : sig.Alike Q sig') {args : List (Arg (Option α))}
    {args' : List (Arg (Option β))}
    (hargs : List.Forall₂ (fun x y => y.name = x.name ∧ Option.Rel P x.value y.value) args args') :
    Outcomes (SlotsPaired P) Eq (sig.matchArguments args) (sig'.matchArguments args') := by
  have hfree : SlotsPaired P (List.replicate sig.params.length none)
      (List.replicate sig'.params.length none) := by
    rw [hsig.params]
    induction sig.params.length with
    | zero => exact .nil
    | succ n ih => exact .cons .none ih
  have hvalues : SlotsPaired P ((args.filter (·.name == "")).map (·.value))
      ((args'.filter (·.name == "")).map (·.value)) := by
    induction hargs with
    | nil => exact .nil
    | cons hxy _ ih =>
      rw [List.filter_cons, List.filter_cons, hxy.1]
      split
      · exact .cons hxy.2 ih
      · exact ih
  have hnamed := placeNamed_paired hsig hargs hfree
  unfold matchArguments
  generalize sig.placeNamed args _ = x, sig'.placeNamed args' _ = y at hnamed
  cases hnamed with
  | error heq => exact .error heq
  | ok hnamed =>
    obtain ⟨hslots, hleft⟩ := placePositional_paired sig.params hnamed hvalues
    simp only [bind, Except.bind, hsig.params, hsig.name, isEmpty_of_forall₂ hleft,
      firstMissing?_alike sig.params hslots]
    split
    · exact .error rfl
    · split
      · exact .error rfl
      · exact .ok hslots

end Signature

def PairPaired (ρ : Pairing) (x y : Term × Term) : Prop := x.1.Paired ρ y.1 ∧ x.2.Paired ρ y.2

structure Supplied.Paired {ρ : Pairing} (K : Checker.Comparison ρ) (a b : Supplied) : Prop where
  site : b.site = a.site
  elaborate : ∀ (nested : Bool) (hyps hyps' : Context) (expected expected' : Term),
    hyps.Paired ρ hyps' → expected.Paired ρ expected' →
    Check.ChecksPaired K (PairPaired ρ) (a.elaborate nested hyps expected)
      (b.elaborate nested hyps' expected')

structure Slot.Paired {ρ : Pairing} (K : Checker.Comparison ρ) (a b : Slot) : Prop where
  param : b.param = a.param
  fallback : ∀ value, a.param.fallback = some (.exact value) → value.ClosedOver ρ.known
  hole : ρ.hole a.hole b.hole
  supplied : Option.Rel (Supplied.Paired K) a.supplied b.supplied

structure Resolved.Paired (ρ : Pairing) (r r' : Resolved) : Prop where
  args : List.Forall₂ (Term.Paired ρ) r.args r'.args
  term : r.term.Paired ρ r'.term
  type : r.type.Paired ρ r'.type
  obligations : List.Forall₂ (Obligation.Paired ρ) r.obligations r'.obligations
  openObligations : List.Forall₂ (Obligation.Paired ρ) r.openObligations r'.openObligations

namespace Check

section Elaborate

variable {ρ : Pairing} {K : Checker.Comparison ρ} {env env' : Declarations} {hyps hyps' : Context}
  {term term' actual actual' expected expected' : Term}

theorem convert_paired (henv : env.Indifferent ρ env') (site : Expr) (param : String)
    (hhyps : hyps.Paired ρ hyps') (hterm : term.Paired ρ term') (hactual : actual.Paired ρ actual')
    (hexpected : expected.Paired ρ expected') {cause cause' : Fault}
    (hcause : Solve.SameKind cause cause') :
    ChecksPaired K (Term.Paired ρ) (convert env site param hyps term actual expected cause)
      (convert env' site param hyps' term' actual' expected' cause') := by
  unfold convert
  refine .bind holes_paired fun h h' hh => ?_
  have hsource := hh.normalize henv.toPaired hactual
  have htarget := hh.normalize henv.toPaired hexpected
  have hmismatch : ∀ {cause cause' : Fault}, Solve.SameKind cause cause' →
      SameKind (.mismatch site param (h.deref expected) (h.deref actual) cause)
        (.mismatch site param (h'.deref expected') (h'.deref actual') cause') := by
    intro cause cause' hcause
    simp only [SameKind, CheckError.kind]
    rw [hcause]
  dsimp only
  rw [hh.hasOpen_eq hsource, hh.hasOpen_eq htarget]
  split
  · exact fail_paired site (hmismatch hcause)
  · rename_i hknown
    simp only [Bool.or_eq_true, not_or, Bool.not_eq_true] at hknown
    rw [henv.conversions h h' _ _ _ _ hh hsource htarget hknown.1 hknown.2]
    split
    · exact fail_paired site (hmismatch hcause)
    · rename_i conv hconv
      have hclosed : conv.target.ClosedOver ρ.known := by
        have hmem : conv ∈ env.conversionsAt (conversionKey h (h.normalize env actual)
          (h.normalize env expected)) := by rw [hconv]; simp
        obtain ⟨entry, hentry, rfl⟩ := List.mem_map.mp hmem
        exact henv.targets entry (List.mem_of_mem_filter hentry)
      refine .bind (lookupSignature?_paired henv.toPaired conv.name) fun _ _ hsig => ?_
      cases hsig with
      | none => exact fail_paired site rfl
      | some =>
        refine .bind (solve_paired (Solve.trySubsume_paired henv.toPaired hhyps
          hclosed.paired hexpected))
          fun _ _ houtcome => ?_
        cases houtcome with
        | error hcause => exact fail_paired site (hmismatch hcause)
        | ok =>
          refine .bind (text_paired _ _) fun _ _ _ => .bind (text_paired _ _) fun _ _ _ => ?_
          refine .bind (exprText_paired _ _) fun _ _ _ => .bind (note_paired _ _) fun _ _ _ => ?_
          exact .pure (.ofArgs .const (.cons hterm .nil))
    · exact fail_paired site (by simp only [SameKind, CheckError.kind])

theorem fitArgument_paired (henv : env.Indifferent ρ env') (site : Expr) (param : String)
    (hhyps : hyps.Paired ρ hyps') (hterm : term.Paired ρ term') (hactual : actual.Paired ρ actual')
    (hexpected : expected.Paired ρ expected') :
    ChecksPaired K (Term.Paired ρ) (fitArgument env site param hyps term actual expected)
      (fitArgument env' site param hyps' term' actual' expected') := by
  refine .bind (solve_paired (Solve.trySubsume_paired henv.toPaired hhyps hactual hexpected))
    fun _ _ houtcome => ?_
  cases houtcome with
  | ok => exact .pure hterm
  | error hcause => exact convert_paired henv site param hhyps hterm hactual hexpected hcause

theorem checkArgument_paired (henv : env.Indifferent ρ env') {arg arg' : Supplied}
    (harg : arg.Paired K arg') (nested : Bool) (param : String) (hhyps : hyps.Paired ρ hyps')
    (hexpected : expected.Paired ρ expected') :
    ChecksPaired K (Term.Paired ρ) (checkArgument env arg nested param hyps expected)
      (checkArgument env' arg' nested param hyps' expected') := by
  refine .bind (harg.elaborate nested _ _ _ _ hhyps hexpected) fun r r' hr => ?_
  rw [harg.site]
  exact fitArgument_paired henv arg.site param hhyps hr.1 hr.2 hexpected

theorem makeHoles_paired {params : List (Param Term)}
    (hparams : ∀ p ∈ params, p.type.ClosedOver ρ.known) {sub sub' : Substitution}
    (hsub : sub.Paired ρ sub') :
    ChecksPaired K (fun x y => List.Forall₂ ρ.hole x.1 y.1 ∧ x.2.Paired ρ y.2)
      (makeHoles params sub) (makeHoles params sub') := by
  induction params generalizing sub sub' with
  | nil => exact .pure ⟨.nil, hsub⟩
  | cons p params ih =>
    rw [makeHoles, makeHoles]
    refine .bind holes_paired fun h h' hh => ?_
    have htype := hh.subst (hparams p (by simp)).paired hsub
    have hadd : ChecksPaired K ρ.hole
        (modifyGet fun c =>
          let added := c.solver.addHole p.name (h.subst sub p.type)
          (added.1, { c with solver := added.2 }))
        (modifyGet fun c =>
          let added := c.solver.addHole p.name (h'.subst sub' p.type)
          (added.1, { c with solver := added.2 })) := by
      refine .modifyGet fun c d hcd => ?_
      obtain ⟨hid, hsolver⟩ := hcd.solver.addHole p.name htype
      exact ⟨hid, hcd.withSolver hsolver⟩
    refine .bind hadd fun i j hij => ?_
    have hnext : Substitution.Paired ρ (if p.isAnonymous then sub else (p.name, .hole i) :: sub)
        (if p.isAnonymous then sub' else (p.name, .hole j) :: sub') := by
      split
      · exact hsub
      · exact .cons ⟨rfl, .hole hij⟩ hsub
    refine .bind (ih (fun q hq => hparams q (by simp [hq])) hnext) fun r r' hr => ?_
    exact .pure ⟨.cons hij hr.1, hr.2⟩

theorem supply_paired (henv : env.Indifferent ρ env') (hhyps : hyps.Paired ρ hyps')
    {slot slot' : Slot} (hslot : slot.Paired K slot') :
    ChecksPaired K (fun _ _ => True) (supply env hyps slot) (supply env' hyps' slot') := by
  obtain ⟨param, i, supplied⟩ := slot
  obtain ⟨param', j, supplied'⟩ := slot'
  obtain ⟨rfl, -, hij, hsupplied⟩ := hslot
  dsimp only at hij hsupplied
  cases hsupplied with
  | none => exact .pure trivial
  | @some arg arg' harg =>
    refine .bind holes_paired fun h h' hh => ?_
    refine .bind (checkArgument_paired henv harg true _ hhyps (hh.type i j hij)) fun t u htu => ?_
    refine .bind (solve_paired (Solve.unify_paired henv.toPaired hhyps (.hole hij) htu))
      fun _ _ houtcome => ?_
    cases houtcome with
    | ok => exact .pure trivial
    | error hcause =>
      refine .bind holes_paired fun g g' hg => ?_
      rw [harg.site]
      refine fail_paired arg.site ?_
      simp only [SameKind, CheckError.kind]
      rw [hcause]

theorem isUnsolved_paired {i j : HoleId} (hij : ρ.hole i j) :
    ChecksPaired K Eq (isUnsolved i) (isUnsolved j) := by
  refine .bind holes_paired fun h h' hh => ?_
  have hfollow := hh.follow (.hole hij)
  generalize h.follow (.hole i) = x, h'.follow (.hole j) = y at hfollow
  cases hfollow with
  | _ => exact .pure rfl

def SearchPaired (ρ : Pairing) (x y : Option Obligation × List Attempt) : Prop :=
  Option.Rel (Obligation.Paired ρ) x.1 y.1 ∧ List.Forall₂ Attempt.Alike x.2 y.2

/-- The text of a hypothesis is its name. -/
theorem value_text_paired {value value' : Term} (hvalue : value.Paired ρ value') {P : Prop}
    (hbound : P → ∃ name, value = .bound name) :
    ChecksPaired K (fun x y => P → y = x) (text value) (text value') := by
  intro c d hcd
  refine ⟨.ok fun hP => ?_, hcd⟩
  obtain ⟨name, rfl⟩ := hbound hP
  have htext : ∀ c : Checker, c.text (.bound name) = name := by
    intro c
    change (c.solver.holes.expand (.bound name)).render c.solver.holes.label false = name
    rw [Holes.expand_of_holeFree _ (show (Term.bound name).HoleFree from rfl)]
    rfl
  cases hvalue with
  | bound => exact (htext d).trans (htext c).symm

theorem searchSlot_paired (henv : env.Paired ρ env') (function : String)
    (hhyps : hyps.Paired ρ hyps')
    {sub sub' : Substitution} (hsub : sub.Paired ρ sub') {slot slot' : Slot}
    (hslot : slot.Paired K slot') :
    ChecksPaired K (SearchPaired ρ) (searchSlot env function hyps sub slot)
      (searchSlot env' function hyps' sub' slot') := by
  have htactic : ∀ value, slot.param.tactic? = some (.exact value) → value.ClosedOver ρ.known := by
    intro value htactic
    cases hplicity : slot.param.plicity with
    | default => exact hslot.fallback value (by simpa [Param.tactic?, hplicity] using htactic)
    | _ => simp [Param.tactic?, hplicity] at htactic
  unfold searchSlot
  rw [hslot.param, Signature.isSome_paired hslot.supplied]
  cases hfound : slot.param.tactic? with
  | none => exact .pure ⟨.none, .nil⟩
  | some tactic =>
    refine .bind (isUnsolved_paired hslot.hole) fun unsolved _ heq => ?_
    subst heq
    split
    · exact .pure ⟨.none, .nil⟩
    · refine .bind holes_paired fun h h' hh => ?_
      have hgoal := hh.type _ _ hslot.hole
      refine .bind
        (Search.run_paired henv (fun value heq => htactic value (heq ▸ hfound)) hgoal hhyps
        hsub) fun r r' hr => ?_
      obtain ⟨found, trace⟩ := r
      obtain ⟨found', trace'⟩ := r'
      obtain ⟨hfound, htrace⟩ := hr
      cases hfound with
      | none =>
        refine .bind (text_paired _ _) fun _ _ _ => .bind (note_paired _ _) fun _ _ _ => ?_
        exact .pure ⟨.none, htrace⟩
      | @some x y hxy =>
        obtain ⟨value, strategy⟩ := x
        obtain ⟨value', strategy'⟩ := y
        obtain ⟨hvalue, hstrategy, hhypothesis⟩ := hxy
        dsimp only at hvalue hstrategy hhypothesis
        subst hstrategy
        refine .bind holes_paired fun g g' hg => ?_
        refine .bind (solve_paired (Solve.unify_paired henv hhyps (.hole hslot.hole)
          hvalue)) fun _ _ houtcome => ?_
        cases houtcome with
        | error =>
          refine .bind (value_text_paired hvalue hhypothesis) fun _ _ htext => ?_
          exact .pure ⟨.none, List.rel_append htrace (.cons ⟨rfl, rfl, htext⟩ .nil)⟩
        | ok =>
          refine .bind (text_paired _ _) fun _ _ _ => .bind (note_paired _ _) fun _ _ _ => ?_
          exact .pure ⟨.some ⟨rfl, rfl, hg.deref hgoal, hhyps, hvalue, rfl, htrace⟩, htrace⟩

theorem openObligation_paired (function param : String) {i j : HoleId} (hij : ρ.hole i j)
    (hhyps : hyps.Paired ρ hyps')
    {trace trace' : List Attempt} (htrace : List.Forall₂ Attempt.Alike trace trace') :
    ChecksPaired K (Obligation.Paired ρ) (openObligation function param i hyps trace)
      (openObligation function param j hyps' trace') := by
  refine .bind holes_paired fun h h' hh => .bind (note_paired _ _) fun _ _ _ => ?_
  exact .pure ⟨rfl, rfl, hh.deref (hh.type i j hij), hhyps, hh.follow (.hole hij), rfl, htrace⟩

theorem settle_paired (site : Expr) (function : String) (nested : Bool)
    (hhyps : hyps.Paired ρ hyps')
    {slot slot' : Slot} (hslot : slot.Paired K slot') {trace trace' : List Attempt}
    (htrace : List.Forall₂ Attempt.Alike trace trace') :
    ChecksPaired K (Option.Rel (Obligation.Paired ρ)) (settle site function nested hyps slot trace)
      (settle site function nested hyps' slot' trace') := by
  unfold settle
  rw [hslot.param]
  refine .bind (isUnsolved_paired hslot.hole) fun unsolved _ heq => ?_
  subst heq
  split
  · exact .pure .none
  · dsimp only
    split
    · refine .bind (.modify fun c d hcd => ?_) fun _ _ _ => .pure .none
      exact { hcd with
        pending := hcd.pending.append (.cons ⟨rfl, rfl, rfl, hslot.hole, hhyps⟩ .nil) }
    · refine .bind .get fun c d hcd => ?_
      have hdefer : d.options.deferUnresolved = c.options.deferUnresolved := by rw [hcd.options]
      rw [hdefer]
      split
      · refine .bind (openObligation_paired _ _ hslot.hole hhyps htrace) fun _ _ hob => ?_
        exact .pure (.some hob)
      · refine .bind holes_paired fun h h' hh => ?_
        exact fail_paired site rfl

theorem useHint_paired (henv : env.Paired ρ env') (function : String) (hhyps : hyps.Paired ρ hyps')
    {result result' : Term} (hresult : result.Paired ρ result')
    (hexpected : expected.Paired ρ expected') :
    ChecksPaired K (fun _ _ => True) (useHint env function hyps result expected)
      (useHint env' function hyps' result' expected') := by
  unfold useHint
  rw [hexpected.isMissing_eq]
  split
  · exact .pure trivial
  · refine .bind (solve_paired (Solve.trySubsume_paired henv hhyps hresult hexpected))
      fun _ _ houtcome => ?_
    cases houtcome with
    | ok => exact .pure trivial
    | error => exact .bind (text_paired _ _) fun _ _ _ => note_paired _ _

def ObligationsPaired (ρ : Pairing) (x y : List Obligation × List Obligation) : Prop :=
  List.Forall₂ (Obligation.Paired ρ) x.1 y.1 ∧ List.Forall₂ (Obligation.Paired ρ) x.2 y.2

theorem filterMap_paired {α β γ δ : Type} {P : α → β → Prop} {Q : γ → δ → Prop} {f : α → Option γ}
    {g : β → Option δ} {xs : List α} {ys : List β} (hxs : List.Forall₂ P xs ys)
    (hfg : ∀ x y, P x y → Option.Rel Q (f x) (g y)) :
    List.Forall₂ Q (xs.filterMap f) (ys.filterMap g) := by
  induction hxs with
  | nil => exact .nil
  | @cons x y _ _ hxy _ ih =>
    have hfirst := hfg x y hxy
    rw [List.filterMap_cons, List.filterMap_cons]
    generalize f x = u, g y = v at hfirst
    cases hfirst with
    | none => exact ih
    | some huv => exact .cons huv ih

theorem completeSlots_paired (henv : env.Indifferent ρ env') (site : Expr) (function : String)
    (nested : Bool) (hhyps : hyps.Paired ρ hyps') {sub sub' : Substitution}
    (hsub : sub.Paired ρ sub') {slots slots' : List Slot}
    (hslots : List.Forall₂ (Slot.Paired K) slots slots') :
    ChecksPaired K (ObligationsPaired ρ) (completeSlots env site function nested hyps sub slots)
      (completeSlots env' site function nested hyps' sub' slots') := by
  unfold completeSlots
  refine .bind (.forM hslots fun _ _ hslot => supply_paired henv hhyps hslot) fun _ _ _ => ?_
  refine .bind
    (.mapM hslots fun _ _ hslot => searchSlot_paired henv.toPaired function hhyps hsub hslot)
    fun searched searched' hsearched => ?_
  have hzip : List.Forall₂ (fun x y => Slot.Paired K x.1 y.1 ∧ SearchPaired ρ x.2 y.2)
      (slots.zip searched) (slots'.zip searched') := by
    clear henv hsub
    induction hslots generalizing searched searched' with
    | nil => exact .nil
    | cons hslot _ ih =>
      cases hsearched with
      | nil => exact .nil
      | cons hfirst hsearched => exact .cons ⟨hslot, hfirst⟩ (ih _ _ hsearched)
  refine .bind (.mapM hzip fun x y hxy => settle_paired site function nested hhyps hxy.1 hxy.2.2)
    fun settled settled' hsettled => ?_
  have hobligations := filterMap_paired hsearched fun x y (hxy : SearchPaired ρ x y) => hxy.1
  have hopen :=
    filterMap_paired hsettled fun x y (hxy : Option.Rel (Obligation.Paired ρ) x y) => hxy
  refine .bind (.modify fun c d hcd => ?_) fun _ _ _ => .pure ⟨hobligations, hopen⟩
  exact { hcd with
    obligations := hcd.obligations.append hobligations
    openObligations := hcd.openObligations.append hopen }

/-- Slots for the same parameters. -/
theorem slots_paired {params : List (Param Term)}
    (hparams : ∀ p ∈ params, ∀ value, p.fallback = some (.exact value) → value.ClosedOver ρ.known)
    {ids ids' : List HoleId} (hids : List.Forall₂ ρ.hole ids ids')
    {supplied supplied' : List (Option Supplied)}
    (hsupplied : Signature.SlotsPaired (Supplied.Paired K) supplied supplied') :
    List.Forall₂ (Slot.Paired K)
      ((params.zip (ids.zip supplied)).map fun (p, id, arg) => Slot.mk p id arg)
      ((params.zip (ids'.zip supplied')).map fun (p, id, arg) => Slot.mk p id arg) := by
  induction params generalizing ids ids' supplied supplied' with
  | nil => exact .nil
  | cons p params ih =>
    cases hids with
    | nil => exact .nil
    | cons hid hids =>
      cases hsupplied with
      | nil => exact .nil
      | cons harg hsupplied =>
        refine .cons ⟨rfl, hparams p (by simp), hid, harg⟩ ?_
        exact ih (fun q hq => hparams q (by simp [hq])) hids hsupplied

def SuppliedPaired (K : Checker.Comparison ρ) (args args' : List (Arg (Option Supplied))) : Prop :=
  List.Forall₂
    (fun x y => y.name = x.name ∧ Option.Rel (Supplied.Paired K) x.value y.value) args args'

theorem resolve_paired (henv : env.Indifferent ρ env') (site : Expr) {sig sig' : Signature}
    (hsig : sig.Alike ρ.known sig') {args args' : List (Arg (Option Supplied))}
    (hargs : SuppliedPaired K args args') (nested : Bool) (hhyps : hyps.Paired ρ hyps')
    (hexpected : expected.Paired ρ expected') :
    ChecksPaired K (Resolved.Paired ρ) (resolve env site sig args nested hyps expected)
      (resolve env' site sig' args' nested hyps' expected') := by
  have hclosed := hsig.closed
  unfold resolve
  refine .bind (importSignature_paired hsig) fun _ _ _ => ?_
  have hplaced := Signature.matchArguments_paired hsig hargs
  generalize sig.matchArguments args = x, sig'.matchArguments args' = y at hplaced
  cases hplaced with
  | error heq =>
    subst heq
    exact fail_paired site rfl
  | ok hsupplied =>
    simp only [hsig.params, hsig.result, hsig.name]
    refine .bind (makeHoles_paired (fun p hp => (hclosed.params p hp).type) .nil)
      fun r r' hr => ?_
    obtain ⟨hids, hsub⟩ := hr
    refine .bind holes_paired fun h h' hh => ?_
    have hresult := hh.subst hclosed.result.paired hsub
    refine .bind (useHint_paired henv.toPaired sig.name hhyps hresult hexpected) fun _ _ _ => ?_
    refine .bind (completeSlots_paired henv site sig.name nested hhyps hsub
      (slots_paired (fun p hp => (hclosed.params p hp).fallback)
        hids hsupplied)) fun obs obs' hobs => ?_
    have hholes : List.Forall₂ (Term.Paired ρ) (r.1.map Term.hole) (r'.1.map Term.hole) :=
      List.forall₂_map_left_iff.mpr
        (List.forall₂_map_right_iff.mpr (hids.imp fun _ _ hij => .hole hij))
    refine .pure ⟨hholes, ?_, hresult, hobs.1, hobs.2⟩
    dsimp only
    rw [isEmpty_of_forall₂ hholes]
    split
    · exact .const
    · exact .ofArgs .const hholes

theorem suppliedArgs_paired {args : List (Arg Expr)}
    (hargs : ∀ a ∈ args, Supplied.Paired K ⟨a.value, elaborate env a.value⟩
      ⟨a.value, elaborate env' a.value⟩) :
    SuppliedPaired K (suppliedArgs env args) (suppliedArgs env' args) := by
  induction args with
  | nil => exact .nil
  | cons a args ih =>
    rw [suppliedArgs, suppliedArgs]
    refine .cons ⟨rfl, ?_⟩ (ih fun b hb => hargs b (by simp [hb]))
    dsimp only
    split
    · exact .none
    · exact .some (hargs a (by simp))

/-- An expression without holes is elaborated alike. -/
theorem elaborate_paired (henv : env.Indifferent ρ env') {e : Expr} (he : e.ClosedOver ρ.known)
    (nested : Bool) (hhyps : hyps.Paired ρ hyps') (hexpected : expected.Paired ρ expected') :
    ChecksPaired K (PairPaired ρ) (elaborate env e nested hyps expected)
      (elaborate env' e nested hyps' expected') := by
  have hresolved : ∀ {x y : Check Resolved}, ChecksPaired K (Resolved.Paired ρ) x y →
      ChecksPaired K (PairPaired ρ) (do let r ← x; return (r.term, r.type))
        (do let r ← y; return (r.term, r.type)) :=
    fun hxy => .bind hxy fun _ _ hr => .pure ⟨hr.term, hr.type⟩
  induction e using Expr.induct generalizing nested hyps hyps' expected expected' with
  | missing => exact fail_paired .missing rfl
  | lit s type =>
    rw [elaborate, elaborate]
    split
    · exact fail_paired _ rfl
    · have htype : type.ClosedOver ρ.known := ⟨he.holeFree, he.levels⟩
      exact .pure ⟨.lit htype, htype.paired⟩
  | var name =>
    rw [elaborate, elaborate]
    have hlocal := hhyps.lookup? name
    dsimp only
    generalize hyps.lookup? name = x, hyps'.lookup? name = y at hlocal
    cases hlocal with
    | some htype => exact .pure ⟨.bound, htype⟩
    | none =>
      refine .bind (lookupSignature?_paired henv.toPaired name) fun _ _ hsig => ?_
      cases hsig with
      | none => exact fail_paired _ rfl
      | @some sig sig' hsig =>
        have hcount : sig'.explicitCount = sig.explicitCount := by
          rw [Signature.explicitCount, Signature.explicitCount, hsig.params]
        simp only [hsig.params, hcount, hsig.name]
        split
        · exact .pure ⟨.const, hsig.type_paired⟩
        · exact hresolved (resolve_paired henv _ hsig .nil nested hhyps hexpected)
  | call fn args _ ihargs =>
    have hsupplied : SuppliedPaired K (suppliedArgs env args) (suppliedArgs env' args) :=
      suppliedArgs_paired fun a ha =>
        ⟨rfl, fun nested _ _ _ _ hhyps hexpected => ihargs a ha (he.arg ha) nested hhyps hexpected⟩
    rw [elaborate, elaborate]
    cases fn with
    | var name =>
      have hlocal : (hyps'.lookup? name).isSome = (hyps.lookup? name).isSome :=
        Signature.isSome_paired (hhyps.lookup? name)
      dsimp only
      rw [hlocal]
      split
      · exact fail_bind_paired _ rfl _ _
      · refine .bind (lookupSignature?_paired henv.toPaired name) fun _ _ hsig => ?_
        cases hsig with
        | none => exact fail_paired _ rfl
        | some hsig => exact hresolved (resolve_paired henv _ hsig hsupplied nested hhyps hexpected)
    | _ => exact fail_paired _ rfl
  | type level =>
    have hwrap : ∀ e f, Solve.SameKind e f → SameKind (.typing e) (.typing f) := by
      intro e f hef
      simp only [SameKind, CheckError.kind]
      rw [hef]
    have htyped : ∀ l m : Level, l.Paired ρ m → ChecksPaired K (PairPaired ρ)
        (do
          let type ← orFail (.type level) .typing (Solve.typeOf env hyps (.sort (.level l)))
          return (Term.sort (.level l), type))
        (do
          let type ← orFail (.type level) .typing (Solve.typeOf env' hyps' (.sort (.level m)))
          return (Term.sort (.level m), type)) := fun l m hlm =>
      .bind (orFail_paired _ hwrap (Solve.TypesPaired.solvesPaired fun _ _ hh =>
        Solve.typeOf_paired hh henv.toPaired hhyps (.sort (.level hlm)))) fun _ _ htype =>
          .pure ⟨.sort (.level hlm), htype⟩
    rw [elaborate, elaborate]
    cases level with
    | none =>
      exact .bind (orFail_paired _ hwrap (Solve.TypesPaired.solvesPaired fun _ _ _ =>
        Solve.freshLevel_paired)) fun l m hlm => htyped l m hlm
    | some n =>
      dsimp only
      split
      · exact fail_bind_paired _ rfl _ _
      · exact htyped (.const n) (.const n) .const
  | term value =>
    have hvalue : value.ClosedOver ρ.known := ⟨he.holeFree, he.levels⟩
    rw [elaborate, elaborate]
    refine .bind (orFail_paired _ (fun e f hef => ?_) (Solve.TypesPaired.solvesPaired fun _ _ hh =>
      Solve.typeOf_paired hh henv.toPaired hhyps hvalue.paired)) fun _ _ htype =>
        .pure ⟨hvalue.paired, htype⟩
    simp only [SameKind, CheckError.kind]
    rw [hef]

theorem elaborateAgainst_paired (henv : env.Indifferent ρ env') {e : Expr}
    (he : e.ClosedOver ρ.known) (hhyps : hyps.Paired ρ hyps')
    (hexpected : expected.Paired ρ expected') :
    ChecksPaired K (PairPaired ρ) (elaborateAgainst env e hyps expected)
      (elaborateAgainst env' e hyps' expected') := by
  unfold elaborateAgainst
  rw [hexpected.isMissing_eq]
  split
  · exact elaborate_paired henv he false hhyps hexpected
  · have harg : Supplied.Paired K ⟨e, elaborate env e⟩ ⟨e, elaborate env' e⟩ :=
      ⟨rfl, fun nested _ _ _ _ hhyps hexpected => elaborate_paired henv he nested hhyps hexpected⟩
    refine .bind (checkArgument_paired henv harg false "" hhyps hexpected) fun _ _ hterm => ?_
    exact .pure ⟨hterm, hexpected⟩

end Elaborate

end Check

end Implicits
