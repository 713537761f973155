import Implicits.Proofs.Checker.Pairing

/-!
Checking with holes that are numbered from a later start. A checker that has made holes before the
current unit behaves like one that has made none: it accepts and refuses the same, and its terms,
obligations and open obligations differ only in the numbers of their holes.
-/
namespace Implicits

/-- Declarations without holes that agree in everything but the origins and repetitions of
constraints. -/
structure Declarations.Alike (env env' : Declarations) : Prop where
  signatures : List.Forall₂ (Signature.Alike fun _ => True) env.signatures env'.signatures
  reductions : env'.reductions = env.reductions
  conversions : env'.conversions = env.conversions
  uniform : ∀ r ∈ env.reductions, r.2.Uniform
  free : ∀ entry ∈ env.conversions, entry.2.source.HoleFree ∧ entry.2.target.HoleFree

namespace Declarations.Alike

variable {env env' : Declarations}

theorem paired (henv : env.Alike env') (past : Holes) : env.Paired (.after past) env' :=
  ⟨henv.signatures, henv.reductions, fun r hr => henv.uniform r hr past⟩

theorem indifferent (henv : env.Alike env') (past : Holes) :
    env.Indifferent (.after past) env' := by
  have hunwritten : env.Unwritten fun _ => False := fun _ _ ⟨_, hfalse, _⟩ => hfalse
  exact hunwritten.indifferent (henv.paired past) henv.conversions
    (fun entry hentry => (henv.free entry hentry).2.closedOver) fun v w hvw => .inl hvw

theorem append {inner inner' outer outer' : Declarations} (hinner : inner.Alike inner')
    (houter : outer.Alike outer') : (inner.append outer).Alike (inner'.append outer') where
  signatures := List.rel_append hinner.signatures houter.signatures
  reductions := by
    rw [Declarations.append, Declarations.append, hinner.reductions, houter.reductions]
  conversions := by
    rw [Declarations.append, Declarations.append, hinner.conversions, houter.conversions]
  uniform := List.forall_mem_append.mpr ⟨hinner.uniform, houter.uniform⟩
  free := List.forall_mem_append.mpr ⟨hinner.free, houter.free⟩

end Declarations.Alike

theorem Level.Paired.eq_after {past : Holes} {l m : Level} (h : l.Paired (.after past) m) :
    m = l := by
  cases h with
  | const => rfl
  | var hvw => exact congrArg Level.var hvw.symm

def Solver.Comparison.after (past : Holes) : Solver.Comparison (.after past) where
  collected x y := x.1.SameDemands y.1 ∧ y.2 = x.2
  fresh h := ⟨h.1.fresh.1.symm, h.1.fresh.2, h.2⟩
  add strict origin origin' h hlo hhi := by
    obtain rfl := hlo.eq_after
    obtain rfl := hhi.eq_after
    exact ⟨h.1.add _ _ strict origin origin', h.2⟩
  importSignature := by
    intro s t sig sig' h hsig
    have hempty : sig'.constraints.isEmpty = sig.constraints.isEmpty := by
      have hnil : sig'.constraints = [] ↔ sig.constraints = [] := by
        rw [← demands_eq_nil_iff, hsig.constraints, demands_eq_nil_iff]
      rw [Bool.eq_iff_iff, List.isEmpty_iff, List.isEmpty_iff, hnil]
    have himported : t.imported = s.imported := h.2
    unfold Solver.importSignature
    rw [hempty, himported, hsig.name]
    split
    · exact h
    · exact ⟨h.1.importAll hsig.constraints, rfl⟩
  undo h h' _ _ := by
    rw [h'.1.issued]
    exact ⟨h.1.withIssued _, h.2⟩

structure Checker.Standing.Alike (x y : Checker.Standing) : Prop where
  session : y.session = x.session
  own : x.own.Alike y.own
  failure : Option.Rel Check.SameKind x.failure y.failure
  invalid : y.invalid = x.invalid

theorem Checker.Standing.Alike.fail {x y : Checker.Standing} (h : x.Alike y) (site : Expr)
    {e f : CheckError} (hef : Check.SameKind e f) : (x.fail site e).Alike (y.fail site f) := by
  obtain ⟨session, own, failure, invalid⟩ := x
  obtain ⟨session', own', failure', invalid'⟩ := y
  obtain ⟨hsession, hown, hfailure, hinvalid⟩ := h
  dsimp only at hfailure
  cases hfailure with
  | none => exact ⟨hsession, hown, .some hef, rfl⟩
  | some hfirst => exact ⟨hsession, hown, .some hfirst, hinvalid⟩

def Checker.Comparison.after (past : Holes) : Checker.Comparison (.after past) where
  toComparison := .after past
  left := {}
  right := {}
  standing := Checker.Standing.Alike
  fail site h hef := h.fail site hef

/-- Both ask for the same constraints. -/
theorem Checker.Paired.demands_eq {past : Holes} {c d : Checker} (hcd : c.Paired (.after past) d) :
    demands d.constraints = demands c.constraints := by
  have hsession : d.session = c.session := hcd.standing.session
  unfold Checker.constraints Checker.isActive
  rw [hsession]
  split
  · exact hcd.solver.collected.1.demands
  · rfl

namespace Check

variable {past : Holes} {env env' : Declarations} {hyps hyps' : Context} {expected expected' : Term}

theorem requireActive_alike :
    ChecksPaired (.after past) (fun _ _ => True) requireActive requireActive := by
  refine .bind .get fun c d hcd => ?_
  rw [Checker.isActive, Checker.isActive, show d.session = c.session from hcd.standing.session]
  split
  · exact .throw rfl
  · exact .pure trivial

theorem checkUniverses_alike : ChecksPaired (.after past) Eq checkUniverses checkUniverses := by
  refine .bind .get fun c d hcd => ?_
  have hactive : d.isActive = c.isActive := congrArg Option.isSome hcd.standing.session
  have hlevels := checkLevels_congr hcd.demands_eq
  rw [hactive]
  dsimp only
  split
  · exact .throw_bind (by rfl) _ _
  · cases hx : checkLevels c.constraints with
    | ok a =>
      cases hy : checkLevels d.constraints with
      | ok b =>
        rw [hx, hy] at hlevels
        exact .pure (Option.some.inj hlevels).symm
      | error f => simp [hx, hy, Except.toOption] at hlevels
    | error e =>
      cases hy : checkLevels d.constraints with
      | ok b => simp [hx, hy, Except.toOption] at hlevels
      | error f =>
        refine .bind (.set ?_) fun _ _ _ => .throw rfl
        exact { hcd with standing := { hcd.standing with failure := .some rfl } }

theorem finishWaiting_alike {p p' : Pending} (hp : p.Paired (.after past) p') :
    ChecksPaired (.after past) (fun _ _ => True) (finishWaiting p) (finishWaiting p') := by
  unfold finishWaiting
  rw [hp.site, hp.function, hp.param]
  refine .bind (isUnsolved_paired hp.hole) fun unsolved _ heq => ?_
  subst heq
  split
  · refine .bind .get fun c d hcd => ?_
    have hdefer : d.options.deferUnresolved = c.options.deferUnresolved := by rw [hcd.options]
    rw [hdefer]
    split
    · refine .bind (openObligation_paired _ _ hp.hole hp.context .nil) fun ob ob' hob => ?_
      refine .modify fun c d hcd => ?_
      exact { hcd with openObligations := hcd.openObligations.append (.cons hob .nil) }
    · exact .bind holes_paired fun _ _ _ => fail_paired _ rfl
  · exact .pure trivial

theorem finishPending_alike :
    ChecksPaired (.after past) (fun _ _ => True) finishPending finishPending := by
  refine .bind .get fun c d hcd => ?_
  refine .bind (.modify fun _ _ hcd => { hcd with pending := .refl }) fun _ _ _ => ?_
  exact .forM hcd.pending.forall₂ fun _ _ hp => finishWaiting_alike hp

theorem elaborateTop_alike (henv : env.Alike env') {e : Expr} (he : e.HoleFree)
    (hhyps : hyps.Paired (.after past) hyps')
    (hexpected : expected.Paired (.after past) expected') :
    ChecksPaired (.after past) (PairPaired (.after past)) (elaborateTop env e hyps expected)
      (elaborateTop env' e hyps' expected') := by
  refine .bind requireActive_alike fun _ _ _ => ?_
  split
  · exact .throw_bind (by rfl) _ _
  · refine .bind (elaborateAgainst_paired (henv.indifferent past) he.closedOver hhyps hexpected)
      fun r r' hr => ?_
    refine .bind finishPending_alike fun _ _ _ => .bind holes_paired fun h h' hh => ?_
    exact .pure ⟨hh.deref hr.1, hh.deref hr.2⟩

theorem resolveTop_alike (henv : env.Alike env') {sig : Signature} (hsig : sig.HoleFree)
    {args : List (Arg Expr)} (hargs : ∀ a ∈ args, a.value.HoleFree)
    (hhyps : hyps.Paired (.after past) hyps')
    (hexpected : expected.Paired (.after past) expected') :
    ChecksPaired (.after past) (Resolved.Paired (.after past))
      (resolveTop env sig args hyps expected)
      (resolveTop env' sig args hyps' expected') := by
  have hsupplied : SuppliedPaired (.after past) (suppliedArgs env args) (suppliedArgs env' args) :=
    suppliedArgs_paired fun a ha => ⟨rfl, fun nested _ _ _ _ hhyps hexpected =>
      elaborate_paired (henv.indifferent past) (hargs a ha).closedOver nested hhyps hexpected⟩
  refine .bind requireActive_alike fun _ _ _ => ?_
  refine .bind (resolve_paired (henv.indifferent past) _ hsig.closedOver.alike hsupplied false hhyps
    hexpected) fun r r' hr => ?_
  refine .bind finishPending_alike fun _ _ _ => .bind holes_paired fun h h' hh => ?_
  refine .pure ⟨?_, hh.deref hr.term, hh.deref hr.type, hr.obligations, hr.openObligations⟩
  exact List.forall₂_map_left_iff.mpr (List.forall₂_map_right_iff.mpr
    (hr.args.imp fun _ _ harg => hh.deref harg))

end Check

end Implicits
