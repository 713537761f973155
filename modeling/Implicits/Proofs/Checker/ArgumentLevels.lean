import Implicits.Proofs.Checker.Obligations
import Implicits.Proofs.Given
import Implicits.Proofs.Level.Consistency
import Implicits.Proofs.Solver.LevelFound
import Implicits.Session

/-!
The arguments of a completed call inhabit their universes. If a parameter is declared to be a type
of a universe and the levels of the call can be satisfied, then the argument that was found for it
has a level, and the level may be bounded by that of the universe. This is false for a parameter
whose declared type becomes a universe only later, through the argument of another one.
-/
namespace Implicits

open Term

def Valuation.reserve (v : Valuation) (owner : String) (next value : Nat) : Valuation := fun x =>
  if (x.owner = owner ∧ x.ofDecl = false) ∧ (next : Int) ≤ x.id then value else v x

section Reserve

variable {base : Nat} {binders : List String} {owner : String} {env : Declarations} {n : Stage}
  {v : Valuation}

/-- A level that has been made keeps its value. -/
theorem Level.Made.value_reserve {l : Level} (hl : l.Made (.given base binders owner env) n)
    (value : Nat) : l.value (v.reserve owner n.levels value) = l.value v := by
  cases l with
  | const => rfl
  | var x =>
    have hold : ¬ ((x.owner = owner ∧ x.ofDecl = false) ∧ (n.levels : Int) ≤ x.id) :=
      fun h => absurd (hl.supplied h.1) (Int.not_lt.mpr h.2)
    simp only [Level.value, Valuation.reserve, if_neg hold]

theorem Valuation.Satisfies.reserve {cs : List Constraint} (hv : v.Satisfies cs)
    (hcs : ∀ c ∈ cs, c.Made (.given base binders owner env) n) (value : Nat) :
    (v.reserve owner n.levels value).Satisfies cs := by
  intro c hc
  obtain ⟨hlo, hhi⟩ := hcs c hc
  rw [Constraint.holds_iff_gap, hlo.value_reserve, hhi.value_reserve, ← Constraint.holds_iff_gap]
  exact hv c hc

end Reserve

namespace Check

theorem checkLevels_of_checkUniverses {c c' : Checker} {a : Assignment}
    (hrun : checkUniverses.run c = (.ok a, c')) :
    checkLevels c.solver.levels.constraints = .ok a := by
  have hends : Ends checkUniverses c (fun a _ => checkLevels c.solver.levels.constraints = .ok a)
      fun _ _ => True := by
    unfold checkUniverses
    rw [ends_bind, ends_get]
    dsimp only
    split
    · trivial
    · rename_i hactive
      have hconstraints : c.constraints = c.solver.levels.constraints :=
        if_pos (by simpa using hactive)
      split
      · rename_i b hb
        exact hconstraints ▸ hb
      · trivial
  exact hends.of_ok hrun

section Inhabits

variable {env : Declarations} {binders : List String} {hyps : Context} {owner : String}

/-- At the start of a unit there are no holes to speak of. -/
theorem universes_valid_start (c : Checker) (session : SessionId)
    (hr : Rigid env (.given c.solver.holes.size binders owner env) hyps) :
    (Ledger.universes hr).Valid (c.start session { owner }).solver := by
  refine ⟨⟨c.solver.holes.sound_start rfl 0, ?_, ?_, ?_, ?_, fun _ _ h => h⟩, ?_⟩
  · exact fun _ hc => absurd hc List.not_mem_nil
  · exact fun _ _ hname => absurd hname List.not_mem_nil
  · exact fun _ _ hc => absurd hc List.not_mem_nil
  · exact fun _ _ hc => absurd hc List.not_mem_nil
  · intro v _ i l hbase htype
    have hnone : c.solver.holes.table[i]? = none := Array.getElem?_eq_none hbase
    rw [show (c.start session { owner }).solver.holes = c.solver.holes from rfl, Holes.type,
      hnone] at htype
    exact absurd htype (by simp)

variable {c c' : Checker} {session : SessionId} {sig : Signature} {args : List (Arg Expr)}
  {expected : Term} {r : Resolved} {i : Nat} {p : Param Term} {l : Level} {arg : Term}

/-- What is known of the argument for a parameter that is declared to be a type of a universe. -/
structure Inhabits (base : Nat) (binders : List String) (owner : String) (env : Declarations)
    (hyps : Context) (s : Solver) (l : Level) (arg : Term) : Prop where
  sound : s.Sound (.given base binders owner env)
  owner_eq : s.levels.owner = owner
  ofDecl : s.levels.ofDecl = false
  inScope : arg.Scoped (.given base binders owner env) s.stage
  holeFree : arg.HoleFree
  lives : ∀ v : Valuation, v.Satisfies s.levels.constraints →
    Lives env (· ∈ binders) hyps v s.holes arg (l.value v)

/-- In each valuation that satisfies the store, such an argument lives in its universe. -/
theorem inhabits_of_resolveTop (henv : env.isGiven binders = true)
    (hhyps : hyps.isGiven binders = true) (hexpected : expected.isGiven binders = true)
    (hargs : ∀ a ∈ args, a.value.isGiven binders = true)
    (hsig : env.signature? sig.name = some sig) (hstrict : c.options.deferUnresolved = false)
    (hrun : (resolveTop env sig args hyps expected).run (c.start session { owner }) = (.ok r, c'))
    (hp : sig.params[i]? = some p) (htype : p.type = .sort (.level l))
    (harg : r.args[i]? = some arg) :
    Inhabits c.solver.holes.size binders owner env hyps c'.solver l arg := by
  have hr : Rigid env (.given c.solver.holes.size binders owner env) hyps :=
    Declarations.rigid_of_isGiven henv hhyps
  have hvalid := universes_valid_start c session hr
  obtain ⟨hvalid', hfinished, hoptions, hgrows, r', hr', rfl⟩ := (resolveTop_finishes hr.within
    hr.context (scoped_of_isGiven hexpected) (hr.within.signature _ sig hsig)
    (fun a ha => Expr.scoped_of_isGiven (hargs a ha)) (.start rfl hvalid.sound) hvalid).of_ok hrun
  -- The argument is the reading of the hole that was made for the parameter.
  have hi : i < sig.params.length := (List.getElem?_eq_some_iff.mp hp).1
  have hhole : r'.args[i]? = some (.hole (c.solver.holes.size + i)) := by
    rw [hr'.args, List.getElem?_map, List.getElem?_range' hi, Nat.one_mul]
    rfl
  have hscoped := hr'.args_scoped _ (List.mem_of_getElem? hhole)
  obtain rfl : c'.solver.holes.deref (.hole (c.solver.holes.size + i)) = arg := by
    simpa [hhole] using harg
  have htable := hvalid'.sound.table
  refine ⟨hvalid'.sound, hgrows.owner, hgrows.ofDecl, htable.deref hscoped,
    hfinished.holeFree trivial hscoped (hoptions ▸ hstrict), fun v hv => ?_⟩
  obtain ⟨h, sub, hholeType⟩ := hr'.holeTypes i p hp
  rw [htype, Holes.subst_sort] at hholeType
  rw [htable.deref_eq_expand trivial hscoped]
  exact (hvalid'.holds v hv _ l (Nat.le_add_right _ _) hholeType).expand htable hscoped

/-- Such an argument has a level, and the store stays satisfiable when the level is bounded. -/
theorem Inhabits.exists_level {base : Nat} {s : Solver}
    (h : Inhabits base binders owner env hyps s l arg)
    (hr : Rigid env (.given base binders owner env) hyps)
    (hl : l.Made (.given base binders owner env) s.stage)
    (hsettled : arg.Settled (· ∈ binders)) {v : Valuation} (hv : v.Satisfies s.levels.constraints)
    (origin : String) :
    ∃ k s', (Solve.levelOf env hyps arg).run s = (.ok k, s') ∧
      Satisfiable (s'.levels.le k l origin).constraints := by
  -- The variables that are made for the level of the argument all get the value of `l`.
  let w : Valuation := v.reserve owner s.stage.levels (l.value v).toNat
  have hw : w.Satisfies s.levels.constraints := hv.reserve h.sound.constraints _
  have hlw : l.value w = l.value v := hl.value_reserve _
  have hspare : s.Spare w (l.value w) := by
    refine ⟨hw, fun id hid => ?_⟩
    rw [hlw, h.owner_eq, h.ofDecl]
    exact if_pos ⟨⟨rfl, rfl⟩, Int.ofNat_le.mpr hid⟩
  obtain ⟨k, s', hrun, -, hspare', hle⟩ :=
    (Solve.levelOf_finds hr (h.lives w hw) hsettled h.holeFree h.inScope hspare).exists_ok
  exact ⟨k, s', hrun, w, hspare'.satisfies.add (c := ⟨k, l, false, origin⟩) hle⟩

/-- The arguments of a call inhabit their universes. If the levels of a call that succeeded can be
satisfied, the argument for a parameter of type `Type l` has a level, which may be bounded by `l`.
The inputs are given ones, and the argument means the same inside and outside of function types. -/
theorem argument_inhabits_universe (henv : env.isGiven binders = true)
    (hhyps : hyps.isGiven binders = true) (hexpected : expected.isGiven binders = true)
    (hargs : ∀ a ∈ args, a.value.isGiven binders = true)
    (hsig : env.signature? sig.name = some sig) (hstrict : c.options.deferUnresolved = false)
    (hrun : (resolveTop env sig args hyps expected).run (c.start session { owner }) = (.ok r, c'))
    (hmoderate : Moderate c'.solver.levels.constraints)
    (huniverses : ∃ a c'', checkUniverses.run c' = (.ok a, c''))
    (hp : sig.params[i]? = some p) (htype : p.type = .sort (.level l))
    (harg : r.args[i]? = some arg) (hsettled : arg.Settled (· ∈ binders)) (origin : String) :
    ∃ k s, (Solve.levelOf env hyps arg).run c'.solver = (.ok k, s) ∧
      Satisfiable (s.levels.le k l origin).constraints ∧
      (Moderate (s.levels.le k l origin).constraints →
        ∃ a, checkLevels (s.levels.le k l origin).constraints = .ok a) := by
  have hr : Rigid env (.given c.solver.holes.size binders owner env) hyps :=
    Declarations.rigid_of_isGiven henv hhyps
  have hl : l.Made (.given c.solver.holes.size binders owner env) c'.solver.stage := by
    obtain - | - | - | - | - | - | ⟨-, -, htypes, -⟩ :=
      Declarations.pi_scoped_of_isGiven henv hsig c'.solver.stage
    have hscoped := htypes p (List.mem_of_getElem? hp)
    rw [htype] at hscoped
    exact scoped_universe.mp hscoped
  obtain ⟨a, c'', huniverses⟩ := huniverses
  have hv := a.valuation_satisfies hmoderate (checkLevels_of_checkUniverses huniverses)
  obtain ⟨k, s, hlevel, hsat⟩ :=
    (inhabits_of_resolveTop henv hhyps hexpected hargs hsig hstrict hrun
    hp htype harg).exists_level hr hl hsettled hv origin
  exact ⟨k, s, hlevel, hsat, fun hroom => LevelGraph.exists_assignment_of_satisfiable hroom hsat⟩

end Inhabits

/-! ### Calls with wrapped types -/

def wrapSignature : Signature where
  name := "Wrap"
  params := [{ name := "A", type := .sort (.level (.const 9)) }]
  result := .sort (.level (.const 0))

def wrap (t : Term) : Term := .app (.const "Wrap") [t]

def unwrapSignature : Signature where
  name := "unwrap"
  params :=
    [{ name := "A", type := .sort (.level (.const 5)), plicity := .implicit },
     { name := "x", type := wrap (.bound "A") }]
  result := .const "Int"

def memberSignature : Signature where
  name := "member"
  params :=
    [{ name := "U", type := .sort (.level (.const 5)), plicity := .implicit },
     { name := "A", type := .bound "U", plicity := .implicit },
     { name := "x", type := wrap (.bound "A") },
     { name := "u", type := wrap (.bound "U") }]
  result := .const "Int"

def wrapSession (sig : Signature) : Except CheckError Sessions := do
  let (id, t) := Sessions.create {} none
  let (_, t) ← t.declare id wrapSignature
  let (_, t) ← t.declare id sig
  return t

def wrapContext : Context :=
  ⟨[⟨"q", wrap (.sort (.level (.const 0)))⟩, ⟨"p", wrap (.sort (.level (.const 3)))⟩]⟩

def wrapCall (env : Declarations) (sig : Signature) (names : List String) :
    Except CheckError Resolved × Checker :=
  (resolveTop env sig (names.map fun name => { value := .var name }) wrapContext .missing).run
    (Checker.start {} 0 { owner := "u" })

def passesCall (sig : Signature) (names : List String)
    (test : Declarations → Signature → Resolved → Checker → Bool) : Bool :=
  match wrapSession sig with
  | .error _ => false
  | .ok t =>
    match (t.visible 0).signature? sig.name with
    | none => false
    | some checked =>
      match wrapCall (t.visible 0) checked names with
      | (.error _, _) => false
      | (.ok r, c) => test (t.visible 0) checked r c

theorem exists_of_passesCall {sig : Signature} {names : List String}
    {test : Declarations → Signature → Resolved → Checker → Bool}
    (h : passesCall sig names test = true) :
    ∃ t checked r c, wrapSession sig = .ok t ∧ (t.visible 0).signature? sig.name = some checked ∧
      wrapCall (t.visible 0) checked names = (.ok r, c) ∧
      test (t.visible 0) checked r c = true := by
  unfold passesCall at h
  cases hsession : wrapSession sig with
  | error e => simp [hsession] at h
  | ok t =>
    cases hsig : (t.visible 0).signature? sig.name with
    | none => simp [hsession, hsig] at h
    | some checked =>
      simp only [hsession, hsig] at h
      generalize hcall : wrapCall (t.visible 0) checked names = out at h
      obtain ⟨_ | r, c⟩ := out
      · simp at h
      · exact ⟨t, checked, r, c, rfl, hsig, hcall, h⟩

def isUniverse (k : Int64) : Option Term → Bool
  | some (.sort (.level (.const j))) => j = k
  | _ => false

theorem eq_of_isUniverse {k : Int64} {t : Option Term} (h : isUniverse k t = true) :
    t = some (.sort (.level (.const k))) := by
  unfold isUniverse at h
  split at h
  · rw [of_decide_eq_true h]
  · simp at h

def levelsPass (c : Checker) : Bool :=
  match checkUniverses.run c with
  | (.ok _, _) => true
  | (.error _, _) => false

theorem exists_of_levelsPass {c : Checker} (h : levelsPass c = true) :
    ∃ a c', checkUniverses.run c = (.ok a, c') := by
  unfold levelsPass at h
  generalize checkUniverses.run c = out at h ⊢
  obtain ⟨_ | a, c'⟩ := out
  · simp at h
  · exact ⟨a, c', rfl⟩

/-- The universe `Type 3` is found for a parameter of type `Type 5`, and inhabits it. -/
theorem argument_inhabits_universe_unwrap : ∃ t checked r c,
    wrapSession unwrapSignature = .ok t ∧ (t.visible 0).signature? "unwrap" = some checked ∧
      wrapCall (t.visible 0) checked ["p"] = (.ok r, c) ∧
      r.args[0]? = some (.sort (.level (.const 3))) ∧
      ∃ k s, (Solve.levelOf (t.visible 0) wrapContext (.sort (.level (.const 3)))).run c.solver =
          (.ok k, s) ∧
        Satisfiable (s.levels.le k (.const 5) "bound").constraints := by
  have htest : passesCall unwrapSignature ["p"] (fun env checked r c =>
      env.isGiven ["A", "x"] && isUniverse 5 (checked.params[0]?.map (·.type)) &&
        isUniverse 3 r.args[0]? && levelsPass c && decide (Moderate c.solver.levels.constraints)) =
      true := by decide +kernel
  obtain ⟨t, checked, r, c, hsession, hsig, hcall, htest⟩ := exists_of_passesCall htest
  simp only [Bool.and_eq_true, decide_eq_true_eq] at htest
  obtain ⟨⟨⟨⟨henv, hparam⟩, harg⟩, hlevels⟩, hmoderate⟩ := htest
  obtain ⟨p, hp, htype⟩ := Option.map_eq_some_iff.mp (eq_of_isUniverse hparam)
  have harg := eq_of_isUniverse harg
  have hname : checked.name = "unwrap" := Declarations.name_of_signature? hsig
  obtain ⟨k, s, hrun, hsat, -⟩ :=
    argument_inhabits_universe henv (by decide) (by decide) (by decide)
    (hname.symm ▸ hsig) rfl hcall hmoderate
      (exists_of_levelsPass hlevels) hp htype harg .sort "bound"
  exact ⟨t, checked, r, c, hsession, hsig, hcall, harg, k, s, hrun, hsat⟩

def isUnbounded (env : Declarations) (c : Checker) (t : Term) (bound : Level) : Bool :=
  match (Solve.levelOf env wrapContext t).run c.solver with
  | (.error _, _) => false
  | (.ok k, s) =>
    match checkLevels (s.levels.le k bound "bound").constraints with
    | .error _ => true
    | .ok _ => false

/-- A parameter whose declared type becomes a universe through another argument escapes the check:
the universe `Type 3` is found for a parameter of type `U`, then `Type 0` for `U`, and the levels
pass. -/
theorem member_escapes_universe : ∃ t checked r c,
    wrapSession memberSignature = .ok t ∧ (t.visible 0).signature? "member" = some checked ∧
      wrapCall (t.visible 0) checked ["p", "q"] = (.ok r, c) ∧
      (∃ a c', checkUniverses.run c = (.ok a, c')) ∧
      checked.params[1]?.map (·.name) = some "A" ∧
      r.args[0]? = some (.sort (.level (.const 0))) ∧
      r.args[1]? = some (.sort (.level (.const 3))) ∧
      ∃ k s, (Solve.levelOf (t.visible 0) wrapContext (.sort (.level (.const 3)))).run c.solver =
          (.ok k, s) ∧
        ∃ e, checkLevels (s.levels.le k (.const 0) "bound").constraints = .error e := by
  have htest : passesCall memberSignature ["p", "q"] (fun env checked r c =>
      levelsPass c && checked.params[1]?.map (·.name) == some "A" && isUniverse 0 r.args[0]? &&
        isUniverse 3 r.args[1]? &&
        isUnbounded env c (.sort (.level (.const 3))) (.const 0)) = true := by decide +kernel
  obtain ⟨t, checked, r, c, hsession, hsig, hcall, htest⟩ := exists_of_passesCall htest
  simp only [Bool.and_eq_true, beq_iff_eq] at htest
  obtain ⟨⟨⟨⟨hlevels, hname⟩, huniverse⟩, harg⟩, hunbounded⟩ := htest
  refine ⟨t, checked, r, c, hsession, hsig, hcall, exists_of_levelsPass hlevels, hname,
    eq_of_isUniverse huniverse, eq_of_isUniverse harg, ?_⟩
  unfold isUnbounded at hunbounded
  generalize (Solve.levelOf (t.visible 0) wrapContext (.sort (.level (.const 3)))).run c.solver =
    out
    at hunbounded ⊢
  obtain ⟨_ | k, s⟩ := out
  · simp at hunbounded
  · refine ⟨k, s, rfl, ?_⟩
    dsimp only at hunbounded
    split at hunbounded
    · rename_i e he
      exact ⟨e, he⟩
    · simp at hunbounded

end Check

end Implicits
