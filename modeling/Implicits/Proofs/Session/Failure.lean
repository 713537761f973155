import Implicits.Proofs.Checker.Waiting
import Implicits.Proofs.Session.Calls
import Implicits.Proofs.Solver.Renumber

/-!
Calls after a call that has failed. The holes, constraints and obligations of the failed call do not
matter to a later call, and neither do the numbers of the level variables that it has used up. Only
the arguments that it left waiting do: the next call is not finished before they all have values.
-/
namespace Implicits

open Term

namespace Checker

/-- Two checkers side by side. The holes and level variables that they make from now on go together
in the order of their making. Level variables of some kind are known to both. -/
def beside (c : Checker) (P : LevelVar → Prop) (d : Checker) : Pairing where
  left := c.solver.holes
  right := d.solver.holes
  level v w := P v ∧ v = w ∨ ∃ n, v = c.solver.levels.upcoming n ∧ w = d.solver.levels.upcoming n
  known := P
  level_refl _ hv := .inl ⟨hv, rfl⟩

def Comparison.beside (c : Checker) (P : LevelVar → Prop) (d : Checker) :
    Checker.Comparison (c.beside P d) where
  toComparison := .supplies _
  left := c
  right := d
  standing _ _ := True
  fail _ _ _ := trivial

variable {c c' d : Checker} {P : LevelVar → Prop}

theorem paired_beside (P : LevelVar → Prop) (hoptions : d.options = c.options) :
    c.Paired (.beside c P d) d where
  solver := ⟨Holes.paired_start (ρ := c.beside P d), fun n => .inr ⟨n, rfl, rfl⟩⟩
  options := hoptions
  pending := .refl
  obligations := .refl
  openObligations := .refl
  standing := trivial

/-- Checkers with the same supply of level variables. -/
theorem indifferent_beside_same {env : Declarations} (henv : env.HoleFree)
    (hlevels : d.solver.levels = c.solver.levels) :
    env.Indifferent (c.beside (fun _ => True) d) env := by
  have hunwritten : env.Unwritten fun _ => False := fun _ _ ⟨_, hfalse, _⟩ => hfalse
  refine hunwritten.indifferent henv.closedOver.paired rfl henv.closedOver.conversion
    fun v w hvw => .inl ?_
  rcases hvw with ⟨_, heq⟩ | ⟨n, hv, hw⟩
  · exact heq
  · rw [hv, hw, hlevels]

/-- Checkers of which one has gone on. -/
theorem indifferent_beside {env : Declarations} (henv : env.ClosedOver P)
    (hkeys : env.Unwritten c.solver.levels.Awaits)
    (hlevels : c.solver.levels.Grows d.solver.levels) :
    env.Indifferent (c.beside P d) env := by
  refine hkeys.indifferent henv.paired rfl henv.conversion fun v w hvw => ?_
  rcases hvw with ⟨_, heq⟩ | ⟨n, hv, hw⟩
  · exact .inl heq
  · exact .inr ⟨⟨n, hv⟩, hw ▸ hlevels.awaits n⟩

theorem unnumber_eq_of_beside (hlevels : c.solver.levels.Grows d.solver.levels) {v w : LevelVar}
    (hvw : (c.beside P d).level v w) : c.solver.levels.unnumber v = c.solver.levels.unnumber w := by
  rcases hvw with ⟨_, rfl⟩ | ⟨n, rfl, rfl⟩
  · rfl
  · rw [LevelStore.unnumber, LevelStore.unnumber, if_pos ⟨n, rfl⟩, if_pos (hlevels.awaits n)]

theorem renumber_eq_of_beside (hlevels : c.solver.levels.Grows d.solver.levels) {v w : LevelVar}
    (hvw : (c.beside (¬ c.solver.levels.Awaits ·) d).level v w) :
    c.solver.levels.renumber (d.solver.levels.nextId - c.solver.levels.nextId) v = w := by
  rcases hvw with ⟨hmade, rfl⟩ | ⟨n, rfl, rfl⟩
  · exact (c.solver.levels.renumbers_renumber _).made v hmade
  · rw [LevelStore.renumber_upcoming, hlevels.upcoming_eq]

/-- What a call leaves behind: the holes it has found are as they were, the others are sound, and
its own arguments that wait have holes of their own. -/
structure Aftermath (c c' : Checker) : Prop extends Advances [] c c' where
  later : c.solver.holes.Later c'.solver.holes
  sound : c'.solver.Sound (.unit c.solver.holes.size)
  waiting : ∀ p ∈ c'.pending, p ∈ c.pending ∨ c.solver.holes.size ≤ p.hole

/-- Arguments that wait after a call get no values later. -/
theorem Aftermath.solved_iff (hc' : c.Aftermath c') (hc : c.Settled) {h : Holes}
    (hh : c'.solver.holes.Later h) : (∀ p ∈ c'.pending, h.Solved p.hole) ↔ c'.Settled := by
  constructor
  · intro hall p hp
    have hold : p ∈ c.pending → c'.solver.holes.Solved p.hole :=
      fun hp => hc'.later.solved (hc p hp)
    rcases hc'.waiting p hp with hfound | hbase
    · exact hold hfound
    · rcases hc'.pending p hp with hfound | hlt
      · exact hold hfound
      · exact (hh.solved_iff hc'.sound.table hbase hlt).mp (hall p hp)
  · exact fun hall p hp => hh.solved (hall p hp)

end Checker

namespace Check

section Calls

variable {env : Declarations} (henv : env.HoleFree) {e : Expr} (he : e.HoleFree) {hyps : Context}
  (hhyps : hyps.HoleFree) {expected : Term} (hexpected : expected.HoleFree) (c : Checker)

include henv he hhyps hexpected

theorem elaborateAgainst_later :
    c.solver.holes.Later ((elaborateAgainst env e hyps expected).run c).2.solver.holes ∧
      ∀ p ∈ ((elaborateAgainst env e hyps expected).run c).2.pending,
        p ∈ c.pending ∨ c.solver.holes.size ≤ p.hole := by
  -- A run beside itself.
  obtain ⟨-, hpaired⟩ :=
    elaborateAgainst_paired (Checker.indifferent_beside_same henv rfl) he.closedOver
    hhyps.closedOver.paired hexpected.closedOver.paired c c (Checker.paired_beside _ rfl)
  refine ⟨hpaired.solver.holes.left, fun p hp => ?_⟩
  obtain ⟨new, new', hpending, -, hnew⟩ := hpaired.pending
  rw [hpending, List.mem_append] at hp
  rcases hp with hp | hp
  · exact .inl hp
  · obtain ⟨q, -, hpq⟩ := exists_of_forall₂ hnew hp
    exact .inr hpq.hole.1

variable {c}

theorem elaborateTop_aftermath (hstrict : c.options.deferUnresolved = false) {err : CheckError}
    {c' : Checker} (hrun : (elaborateTop env e hyps expected).run c = (.error err, c')) :
    c.Aftermath c' := by
  have hsteps : IsAdvance [] (elaborateTop env e hyps expected) := elaborateTop_advance e expected
  have hadvances := (hsteps c).of_error hrun
  have hvalid : (Ledger.empty env (.unit c.solver.holes.size) hyps).Valid c.solver :=
    ⟨Solver.sound_unit (c.solver.holes.sound_start rfl _), trivial⟩
  have hcarries := (elaborateTop_carries (henv.within _) (hhyps.within _) (hexpected.within_unit _)
    (he.within _) hvalid).of_error hrun
  obtain ⟨hlater, hwaiting⟩ := elaborateAgainst_later henv he hhyps hexpected c
  have hleaves := ((elaborateTop_ends hstrict).of_error hrun).2
  refine ⟨hadvances, ?_, hcarries.1.sound, fun p hp => ?_⟩
  · rcases hleaves with ⟨hsolver, _⟩ | ⟨hsolver, _⟩
    · rw [hsolver]
      exact .refl _
    · rw [hsolver]
      exact hlater
  · rcases hleaves with ⟨_, hpending⟩ | ⟨_, hpending | hpending⟩
    · exact .inl (hpending ▸ hp)
    · exact hwaiting p (hpending ▸ hp)
    · rw [hpending] at hp
      exact absurd hp List.not_mem_nil

/-- A call that succeeds gives back no holes, in whatever state the checker is. -/
theorem holeFree_of_yields (hstrict : c.options.deferUnresolved = false) {r : Term × Term}
    (hr : Yields env e hyps expected c r) : r.1.HoleFree ∧ r.2.HoleFree := by
  -- The same call beside a checker in which nothing waits and nothing is owed.
  let blank : Checker := { c with pending := [], openObligations := [] }
  have hpaired : blank.Paired (.beside blank (fun _ => True) c) c := Checker.paired_beside _ rfl
  have hindifferent : env.Indifferent (blank.beside (fun _ => True) c) env :=
    Checker.indifferent_beside_same henv rfl
  obtain ⟨hiff, hresults⟩ := yields_paired (c := blank) (d := c) hindifferent he.closedOver
    hhyps.closedOver hexpected.closedOver rfl hpaired fun p hp => absurd hp List.not_mem_nil
  obtain ⟨⟨r', hr'⟩, -⟩ := hiff.mp ⟨r, hr⟩
  obtain ⟨c', hrun⟩ := (elaborateTop_ok_iff (c := blank) hstrict).mpr hr'
  have haccounts : blank.Accounts (.unit c.solver.holes.size) :=
    ⟨Solver.sound_unit (c.solver.holes.sound_start rfl _), .of_size (Nat.le_refl _), fun _ => rfl⟩
  obtain ⟨hfinished, hoptions, t, u, ht, hu, rfl⟩ := (elaborateTop_finishes (henv.within _)
    (hhyps.within _) (hexpected.within_unit _) (he.within _) haccounts).of_ok hrun
  have hstrict' : c'.options.deferUnresolved = false := hoptions ▸ hstrict
  obtain ⟨hterm, htype⟩ := hresults _ r hr' hr
  exact ⟨hterm.holeFree (hfinished.holeFree trivial ht hstrict'),
    htype.holeFree (hfinished.holeFree trivial hu hstrict')⟩

end Calls

end Check

def Sessions.Elaborates (t : Sessions) (c : Checker) (e : Expr) (hyps : Context) (expected : Term)
    (r : Term × Term) : Prop :=
  ∃ c', (Check.elaborateTop (t.environment c) e hyps expected).run c = (.ok r, c')

/-- Whether a call succeeds. -/
theorem Sessions.elaborates_iff {t : Sessions} {c : Checker} {e : Expr} {hyps : Context}
    {expected : Term} :
    ((Check.elaborateTop (t.environment c) e hyps expected).run c).1.isOk = true ↔
      ∃ r, t.Elaborates c e hyps expected r := by
  unfold Elaborates
  rcases (Check.elaborateTop (t.environment c) e hyps expected).run c with ⟨_ | r, c'⟩
  · refine iff_of_false Bool.false_ne_true fun ⟨_, _, hok⟩ => ?_
    cases (Prod.mk.inj hok).1
  · exact iff_of_true rfl ⟨r, c', rfl⟩

instance (t : Sessions) (c : Checker) (e : Expr) (hyps : Context) (expected : Term) :
    Decidable (∃ r, t.Elaborates c e hyps expected r) := decidable_of_iff _ Sessions.elaborates_iff

/-- A failed elaboration does not get in the way of later ones, but for the arguments that it leaves
waiting. Let no argument wait without a value, let unresolved arguments not be deferred, and let no
conversion be filed under a text with a universe whose level the unit has yet to make. After a call
that has failed another call then succeeds if and only if it succeeds in place of the failed one and
no argument waits without a value. Both give back the same term and type up to the numbers of the
new level variables; if all that they are about mentions none of these variables, the one result is
the other renumbered. -/
theorem elaborates_after_failure {t : Sessions} {c c₁ : Checker}
    (hstrict : c.options.deferUnresolved = false) (hsettled : c.Settled)
    (henv : (t.environment c).HoleFree) (hkeys : (t.environment c).Unwritten c.solver.levels.Awaits)
    {e₁ e₂ : Expr} (he₁ : e₁.HoleFree) (he₂ : e₂.HoleFree) {hyps₁ hyps₂ : Context}
    (hhyps₁ : hyps₁.HoleFree) (hhyps₂ : hyps₂.HoleFree) {expected₁ expected₂ : Term}
    (hexpected₁ : expected₁.HoleFree) (hexpected₂ : expected₂.HoleFree) {err : CheckError}
    (hfailed : (Check.elaborateTop (t.environment c) e₁ hyps₁ expected₁).run c = (.error err, c₁)) :
    ((∃ r₁, t.Elaborates c₁ e₂ hyps₂ expected₂ r₁) ↔
      (∃ r, t.Elaborates c e₂ hyps₂ expected₂ r) ∧ c₁.Settled) ∧
    ∀ r r₁, t.Elaborates c e₂ hyps₂ expected₂ r → t.Elaborates c₁ e₂ hyps₂ expected₂ r₁ →
      (r.1.relevel c.solver.levels.unnumber = r₁.1.relevel c.solver.levels.unnumber ∧
        r.2.relevel c.solver.levels.unnumber = r₁.2.relevel c.solver.levels.unnumber) ∧
      ((t.environment c).ClosedOver (¬ c.solver.levels.Awaits ·) →
        e₂.ClosedOver (¬ c.solver.levels.Awaits ·) → hyps₂.ClosedOver (¬ c.solver.levels.Awaits ·) →
        expected₂.ClosedOver (¬ c.solver.levels.Awaits ·) →
        ∃ f, c.solver.levels.Renumbers f ∧ r₁ = (r.1.relevel f, r.2.relevel f)) := by
  have hafter := Check.elaborateTop_aftermath henv he₁ hhyps₁ hexpected₁ hstrict hfailed
  have hstrict₁ : c₁.options.deferUnresolved = false := hafter.options ▸ hstrict
  have hactive : c₁.isActive = c.isActive := by
    rw [Checker.isActive, hafter.session, Checker.isActive]
  simp only [Sessions.Elaborates, hafter.environment t, Check.elaborateTop_ok_iff hstrict,
    Check.elaborateTop_ok_iff hstrict₁]
  have hlater := (Check.elaborateAgainst_later henv he₂ hhyps₂ hexpected₂ c₁).1
  obtain ⟨hiff, hresults⟩ := Check.yields_paired
    (Checker.indifferent_beside henv.closedOver hkeys hafter.levels) he₂.closedOver
      hhyps₂.closedOver
    hexpected₂.closedOver hactive (Checker.paired_beside _ hafter.options) hsettled
  refine ⟨hiff.trans (and_congr_right fun _ => hafter.solved_iff hsettled hlater),
    fun r r₁ hr hr₁ => ?_⟩
  obtain ⟨hterm, htype⟩ := Check.holeFree_of_yields henv he₂ hhyps₂ hexpected₂ hstrict hr
  constructor
  · obtain ⟨hterms, htypes⟩ := hresults r r₁ hr hr₁
    have hlevel : ∀ v w, (c.beside (fun _ => True) c₁).level v w →
        c.solver.levels.unnumber v = c.solver.levels.unnumber w :=
      fun _ _ => Checker.unnumber_eq_of_beside hafter.levels
    exact ⟨hterms.relevel_eq hlevel hterm, htypes.relevel_eq hlevel htype⟩
  · intro henv₂ he₂ hhyps₂ hexpected₂
    have hrenumbered :=
      Check.yields_paired (Checker.indifferent_beside henv₂ hkeys hafter.levels) he₂
      hhyps₂ hexpected₂ hactive (Checker.paired_beside _ hafter.options) hsettled
    obtain ⟨hterms, htypes⟩ := hrenumbered.2 r r₁ hr hr₁
    let k := c₁.solver.levels.nextId - c.solver.levels.nextId
    have hlevel : ∀ v w, (c.beside (¬ c.solver.levels.Awaits ·) c₁).level v w →
        c.solver.levels.renumber k v = w :=
      fun _ _ => Checker.renumber_eq_of_beside hafter.levels
    refine ⟨c.solver.levels.renumber k, c.solver.levels.renumbers_renumber k, Prod.ext ?_ ?_⟩
    · exact hterms.eq_relevel hlevel hterm
    · exact htypes.eq_relevel hlevel htype

def floatDeclarations : Declarations where
  signatures :=
    [{ name := "toFloat", params := [⟨"x", .const "Int", .explicit, none⟩],
       result := .const "Float" }]
  conversions := [("Int -> Float", ⟨"toFloat", .const "Int", .const "Float"⟩)]

theorem floatDeclarations_closedOver (P : LevelVar → Prop) : floatDeclarations.ClosedOver P where
  signature := by
    refine List.forall_mem_singleton.mpr ⟨List.forall_mem_singleton.mpr ⟨⟨rfl, ?_⟩, ?_⟩, rfl, ?_⟩
    · exact fun v hv => absurd hv List.not_mem_nil
    · exact fun value hvalue => nomatch hvalue
    · exact fun v hv => absurd hv List.not_mem_nil
  reduction r hr := absurd hr List.not_mem_nil
  conversion := List.forall_mem_singleton.mpr ⟨rfl, fun v hv => absurd hv List.not_mem_nil⟩

theorem floatDeclarations_holeFree : floatDeclarations.HoleFree where
  signature := by decide
  reduction r hr := absurd hr List.not_mem_nil
  conversion := by decide

theorem floatDeclarations_unwritten (P : LevelVar → Prop) : floatDeclarations.Unwritten P := by
  refine List.forall_mem_singleton.mpr fun ⟨v, _, hinfix⟩ => ?_
  have hletter : 'T' ∈ "Int -> Float".toList := hinfix.subset (by simp)
  simp at hletter

def freshUnit : Checker := Checker.start {} 0 { owner := "m" }

def floatSessions : Sessions := ⟨#[{ own := floatDeclarations }]⟩

/-- A universe is no integer. After a failed attempt to use one as an integer, it is elaborated as
before, but that the level of its type has the next number. -/
theorem elaborates_after_failure_universe : ∃ err c₁,
    (Check.elaborateTop (floatSessions.environment freshUnit) (.type (some 0)) {}
      (.const "Int")).run
      freshUnit = (.error err, c₁) ∧ c₁.Settled ∧
    ∃ r r₁ f, floatSessions.Elaborates freshUnit (.type (some 0)) {} .missing r ∧
      floatSessions.Elaborates c₁ (.type (some 0)) {} .missing r₁ ∧
      freshUnit.solver.levels.Renumbers f ∧ r₁ = (r.1.relevel f, r.2.relevel f) := by
  have htest : (match (Check.elaborateTop (floatSessions.environment freshUnit) (.type (some 0)) {}
      (.const "Int")).run freshUnit with
      | (.error _, c₁) => c₁.pending.isEmpty
      | (.ok _, _) => false) = true := by decide +kernel
  rcases hfailed : (Check.elaborateTop (floatSessions.environment freshUnit) (.type (some 0)) {}
    (.const "Int")).run freshUnit with ⟨err | _, c₁⟩
  · have hsettled : c₁.Settled := by
      rw [hfailed] at htest
      exact .of_nil (List.isEmpty_iff.mp htest)
    have hint : (Term.const "Int").HoleFree := rfl
    have htype : (Expr.type (some 0)).ClosedOver (¬ freshUnit.solver.levels.Awaits ·) :=
      ⟨rfl, fun v hv => absurd hv List.not_mem_nil⟩
    have hempty : Context.HoleFree {} := by decide
    have hhyps : Context.ClosedOver (¬ freshUnit.solver.levels.Awaits ·) {} :=
      fun hyp hhyp => absurd hhyp List.not_mem_nil
    have hmissing : Term.missing.ClosedOver (¬ freshUnit.solver.levels.Awaits ·) :=
      ⟨rfl, fun v hv => absurd hv List.not_mem_nil⟩
    obtain ⟨hiff, hresults⟩ := elaborates_after_failure (t := floatSessions) (c := freshUnit) rfl
      (.of_nil rfl) floatDeclarations_holeFree
        (floatDeclarations_unwritten _) htype.holeFree htype.holeFree
      hempty hempty hint hmissing.holeFree hfailed
    have hinstead : ∃ r, floatSessions.Elaborates freshUnit (.type (some 0)) {} .missing r := by
      decide +kernel
    obtain ⟨r₁, hr₁⟩ := hiff.mpr ⟨hinstead, hsettled⟩
    obtain ⟨r, hr⟩ := hinstead
    obtain ⟨f, hf, heq⟩ :=
      (hresults r r₁ hr hr₁).2 (floatDeclarations_closedOver _) htype hhyps hmissing
    exact ⟨err, c₁, rfl, hsettled, r, r₁, f, hr, hr₁, hf, heq⟩
  · simp [hfailed] at htest

/-- A call fails, and another one that succeeds in its place fails after it. -/
def Sessions.Blocks (t : Sessions) (c : Checker) (e₁ : Expr) (expected₁ : Term) (e₂ : Expr)
    (expected₂ : Term) : Prop :=
  match (Check.elaborateTop (t.environment c) e₁ {} expected₁).run c with
  | (.error _, c₁) => (∃ r, t.Elaborates c e₂ {} expected₂ r) ∧
    ¬ ∃ r₁, t.Elaborates c₁ e₂ {} expected₂ r₁
  | (.ok _, _) => False

instance (t : Sessions) (c : Checker) (e₁ : Expr) (expected₁ : Term) (e₂ : Expr)
    (expected₂ : Term) :
    Decidable (t.Blocks c e₁ expected₁ e₂ expected₂) :=
  match hrun : (Check.elaborateTop (t.environment c) e₁ {} expected₁).run c with
  | (.error _, c₁) =>
    decidable_of_iff
      ((∃ r, t.Elaborates c e₂ {} expected₂ r) ∧ ¬ ∃ r₁, t.Elaborates c₁ e₂ {} expected₂ r₁)
      (by rw [Sessions.Blocks, hrun])
  | (.ok _, _) => .isFalse (by rw [Sessions.Blocks, hrun]; exact id)

def numberSessions : Sessions where
  table := #[{ own := { signatures :=
    [{ name := "N", params := [⟨"A", .sort (.level (.const 0)), .implicit, none⟩],
       result := .const "Int" },
     { name := "f",
       params := [⟨"x", .const "Int", .explicit, none⟩, ⟨"y", .const "Int", .explicit, none⟩],
       result := .const "Int" }] } }]

def universeSessions : Sessions where
  table := #[{ own := {
    signatures :=
      [{ name := "size", params := [⟨"x", .sort (.level (.var ⟨"m", 0, false⟩)), .explicit, none⟩],
         result := .const "Float" }]
    conversions := [("Type m/u0 -> Float",
      ⟨"size", .sort (.level (.var ⟨"m", 0, false⟩)), .const "Float"⟩)] } }]

/-- The number leaves its omitted type waiting, and the other argument of the function is unknown.
The call fails, but the type is still waiting when the next call is finished. In the other session
the failed call uses up the level under which the conversion is filed. -/
theorem failure_blocks_next_call :
    numberSessions.Blocks freshUnit (.call (.var "f") [⟨"", .var "N"⟩, ⟨"", .var "bad"⟩]) .missing
      (.type (some 0)) .missing ∧
    universeSessions.Blocks freshUnit (.type (some 0)) (.const "Int") (.type (some 0))
      (.const "Float") := by
  decide +kernel

end Implicits
