import Implicits.Proofs.Checker.ResultType
import Implicits.Proofs.Session.Shift

/-!
A checker that is used again. Beginning a unit forgets all of the past but the number of holes, so
that from then on a used checker and a new one give the same outcomes, up to the numbers of their
holes.
-/
namespace Implicits

open Term

/-- Declarations without holes whose reductions do not depend on the numbers of holes. -/
structure Declarations.Uniform (env : Declarations) : Prop where
  signature : ∀ sig ∈ env.signatures, sig.HoleFree
  reduction : ∀ r ∈ env.reductions, r.2.Uniform
  conversion : ∀ entry ∈ env.conversions, entry.2.source.HoleFree ∧ entry.2.target.HoleFree

theorem Declarations.Uniform.alike {env : Declarations} (h : env.Uniform) : env.Alike env where
  signatures := List.forall₂_same.mpr fun sig hsig => (h.signature sig hsig).closedOver.alike
  reductions := rfl
  conversions := rfl
  uniform := h.reduction
  free := h.conversion

/-- Reductions by rules are uniform. -/
theorem Declarations.HoleFree.uniform {env : Declarations} (h : env.HoleFree) : env.Uniform where
  signature := h.signature
  reduction r hr := by
    obtain ⟨arity, rules, heq, hrules⟩ := h.reduction r hr
    rw [heq]
    exact fun past => Reduction.respects_ofRules fun rule hrule => (hrules rule hrule).closedOver
  conversion := h.conversion

def Sessions.Uniform (t : Sessions) : Prop := ∀ id, (t.visible id).Uniform

inductive Answer.Paired (ρ : Pairing) : Answer → Answer → Prop
  | begun : Paired ρ .begun .begun
  | elaborated {term type term' type' : Term} (hterm : term.Paired ρ term')
    (htype : type.Paired ρ type') : Paired ρ (.elaborated term type) (.elaborated term' type')
  | resolved {r r' : Resolved} (hr : r.Paired ρ r') : Paired ρ (.resolved r) (.resolved r')
  | signature (checked : Signature) : Paired ρ (.signature checked) (.signature checked)
  | unit {u u' : CheckedUnit} (hu : u.Paired ρ u') : Paired ρ (.unit u) (.unit u')
  | levels (a : Assignment) : Paired ρ (.levels a) (.levels a)

namespace Call

/-- The outcome and the visible state after a call, the same up to the numbers of holes, which go on
after those of a table. -/
structure SameStep (past : Holes) (x y : Except CheckError Answer × Checker) : Prop where
  outcome : Outcomes (Answer.Paired (.after past)) Check.SameKind x.1 y.1
  obligations : List.Forall₂ (Obligation.Paired (.after past)) x.2.obligations y.2.obligations
  openObligations :
    List.Forall₂ (Obligation.Paired (.after past)) x.2.openObligations y.2.openObligations
  constraints : demands y.2.constraints = demands x.2.constraints
  failure : Option.Rel Check.SameKind x.2.failure y.2.failure

def runAll (c : Checker) : List (Sessions × Call) → List (Except CheckError Answer × Checker)
  | [] => []
  | (t, call) :: rest => call.run t c :: runAll (call.run t c).2 rest

/-- Whether a call begins a unit. A unit without a name or of a committed name is refused before it
begins. -/
def Begins (t : Sessions) : Call → Prop
  | .begin _ _ => True
  | .unit session u => u.name ≠ "" ∧ t.hasUnit session u.name = false
  | _ => False

end Call

namespace Checker

variable {past : Holes} {c d : Checker}

/-- A unit that begins forgets everything but the table of holes and the options. -/
theorem start_paired (hholes : c.solver.holes.Paired (.after past) d.solver.holes)
    (hoptions : d.options = c.options) (session : SessionId) {levels : LevelStore}
    (hlevels : levels.seen = []) :
    (c.start session levels).Paired (.after past) (d.start session levels) where
  solver := ⟨hholes, .of_empty hlevels, rfl⟩
  options := hoptions
  pending := .refl
  obligations := .refl
  openObligations := .refl
  standing :=
    ⟨rfl, ⟨.nil, rfl, rfl, by simp [standing, start, reset], by simp [standing, start, reset]⟩,
    .none, rfl⟩

theorem Paired.environment (hcd : c.Paired (.after past) d) {t : Sessions} (ht : t.Uniform) :
    (t.environment c).Alike (t.environment d) := by
  unfold Sessions.environment
  rw [show d.session = c.session from hcd.standing.session]
  split
  · exact ⟨.nil, rfl, rfl, by simp, by simp⟩
  · exact hcd.standing.own.append (ht _).alike

end Checker

namespace Call

variable {past : Holes} {c d : Checker} {t : Sessions}

def RunsAlike (past : Holes) (x y : Except CheckError Answer × Checker) : Prop :=
  Outcomes (Answer.Paired (.after past)) Check.SameKind x.1 y.1 ∧ x.2.Paired (.after past) y.2

theorem RunsAlike.sameStep {x y : Except CheckError Answer × Checker} (h : RunsAlike past x y) :
    SameStep past x y :=
  ⟨h.1, h.2.obligations.forall₂, h.2.openObligations.forall₂, h.2.demands_eq, h.2.standing.failure⟩

theorem ofRun_alike {α : Type} {V : α → α → Prop} {x y : Check α}
    (hxy : Check.ChecksPaired (.after past) V x y) (hcd : c.Paired (.after past) d) {f : α → Answer}
    (hf : ∀ a b, V a b → (f a).Paired (.after past) (f b)) :
    RunsAlike past (Answer.ofRun f (x.run c)) (Answer.ofRun f (y.run d)) := by
  obtain ⟨houtcome, hcd'⟩ := hxy c d hcd
  refine ⟨?_, hcd'⟩
  simp only [Answer.ofRun]
  generalize (x.run c).1 = u, (y.run d).1 = v at houtcome
  cases houtcome with
  | ok hab => exact .ok (hf _ _ hab)
  | error hef => exact .error hef

/-- Checking a unit that is not refused. -/
theorem unit_alike (hholes : c.solver.holes.Paired (.after past) d.solver.holes)
    (hoptions : d.options = c.options) (ht : t.Uniform) {session : SessionId} {u : SourceUnit}
    (hu : ∀ e ∈ u.declarations, e.HoleFree) (hbegins : (Call.unit session u).Begins t) :
    RunsAlike past ((Call.unit session u).run t c) ((Call.unit session u).run t d) := by
  simp only [run, Sessions.checkUnit, if_neg hbegins.1, hbegins.2, Bool.false_eq_true, if_false]
  exact ofRun_alike (Check.checkUnit_alike (ht session).alike hu)
    (Checker.start_paired hholes hoptions session rfl) fun _ _ hunit => .unit hunit

/-- A call that begins a unit finds the same, whatever the checkers have been used for. -/
theorem run_begins (hholes : c.solver.holes.Paired (.after past) d.solver.holes)
    (hoptions : d.options = c.options) (ht : t.Uniform) {call : Call} (hcall : call.HoleFree)
    (hbegins : call.Begins t) : RunsAlike past (call.run t c) (call.run t d) := by
  cases call with
  | begin session owner =>
    exact ⟨.ok .begun, Checker.start_paired hholes hoptions session rfl⟩
  | unit session u => exact unit_alike hholes hoptions ht hcall hbegins
  | elaborate | resolve | signature | universes => exact hbegins.elim

/-- Any call of related checkers. -/
theorem run_alike (hcd : c.Paired (.after past) d) (ht : t.Uniform) {call : Call}
    (hcall : call.HoleFree) :
    RunsAlike past (call.run t c) (call.run t d) := by
  have henv := hcd.environment ht
  cases call with
  | begin session owner =>
    exact ⟨.ok .begun, Checker.start_paired hcd.solver.holes hcd.options session rfl⟩
  | elaborate e hyps expected =>
    obtain ⟨he, hhyps, hexpected⟩ := hcall
    exact ofRun_alike
      (Check.elaborateTop_alike henv he (hhyps.after past) (hexpected.after past)) hcd
      fun _ _ h => .elaborated h.1 h.2
  | resolve sig args hyps expected =>
    obtain ⟨hsig, hargs, hhyps, hexpected⟩ := hcall
    exact ofRun_alike
      (Check.resolveTop_alike henv hsig hargs (hhyps.after past) (hexpected.after past)) hcd
      fun _ _ h => .resolved h
  | signature sig =>
    refine ofRun_alike (Check.checkSignature_alike henv hcall) hcd fun _ checked h => ?_
    obtain ⟨rfl, -⟩ := h
    exact .signature checked
  | unit session u =>
    by_cases hbegins : (Call.unit session u).Begins t
    · exact unit_alike hcd.solver.holes hcd.options ht hcall hbegins
    · simp only [run, Sessions.checkUnit]
      split
      · exact ⟨.error rfl, hcd⟩
      · rename_i hname
        have hcommitted : t.hasUnit session u.name = true := by simpa [Begins, hname] using hbegins
        rw [if_pos hcommitted, if_pos hcommitted]
        exact ⟨.error rfl, hcd⟩
  | universes =>
    refine ofRun_alike Check.checkUniverses_alike hcd fun a _ h => ?_
    subst h
    exact .levels a

theorem runAll_alike (hcd : c.Paired (.after past) d) {calls : List (Sessions × Call)}
    (hcalls : ∀ step ∈ calls, step.1.Uniform ∧ step.2.HoleFree) :
    List.Forall₂ (SameStep past) (runAll c calls) (runAll d calls) := by
  induction calls generalizing c d with
  | nil => exact .nil
  | cons step rest ih =>
    obtain ⟨ht, hcall⟩ := hcalls step (by simp)
    have hstep := run_alike hcd ht hcall
    exact .cons hstep.sameStep (ih hstep.2 fun other hother => hcalls other (by simp [hother]))

end Call

/-- A used checker behaves like a new one with the same options from the next call on that begins a
unit. Its holes are numbered after those of the past. -/
theorem Checker.reused_like_new (c : Checker) {t : Sessions} {first : Call}
    (hfirst : first.Begins t) {rest : List (Sessions × Call)}
    (hcalls : ∀ step ∈ (t, first) :: rest, step.1.Uniform ∧ step.2.HoleFree) :
    List.Forall₂ (Call.SameStep c.solver.holes)
      (Call.runAll { options := c.options } ((t, first) :: rest))
      (Call.runAll c ((t, first) :: rest)) := by
  obtain ⟨ht, hcall⟩ := hcalls (t, first) (by simp)
  have hholes : ({ options := c.options } : Checker).solver.holes.Paired (.after c.solver.holes)
      c.solver.holes := Holes.paired_start (ρ := .after c.solver.holes)
  have hbegin := Call.run_begins hholes rfl ht hcall hfirst
  exact .cons hbegin.sameStep
    (Call.runAll_alike hbegin.2 fun step hstep => hcalls step (List.mem_cons_of_mem _ hstep))

namespace Check

theorem listSessions_uniform : listSessions.Uniform := fun id => (listSessions_holeFree id).uniform

def usedChecker : Checker :=
  ((Call.resolve nilSignature [] {} .missing).run listSessions
    ((Call.begin 0 "main").run listSessions { options := { deferUnresolved := true } }).2).2

def nilCalls : List (Sessions × Call) :=
  [(listSessions, .resolve nilSignature [] {} .missing), (listSessions, .universes)]

/-- The second open hole has another number than the first hole of a new checker. -/
theorem reused_like_new_nil :
    (Call.runAll usedChecker ((listSessions, .begin 0 "main") :: nilCalls)).map
      (fun step => step.2.openObligations.map fun o => step.2.text o.value) =
        [[], ["?A1"], ["?A1"]] ∧
    List.Forall₂ (Call.SameStep usedChecker.solver.holes)
      (Call.runAll { options := usedChecker.options } ((listSessions, .begin 0 "main") :: nilCalls))
      (Call.runAll usedChecker ((listSessions, .begin 0 "main") :: nilCalls)) := by
  have hbegins : (Call.begin 0 "main").Begins listSessions := trivial
  refine ⟨by decide +kernel, usedChecker.reused_like_new hbegins fun step hstep => ?_⟩
  simp only [nilCalls, List.mem_cons, List.not_mem_nil, or_false] at hstep
  obtain rfl | rfl | rfl := hstep
  · exact ⟨listSessions_uniform, trivial⟩
  · exact ⟨listSessions_uniform, by decide, by simp, by decide, rfl⟩
  · exact ⟨listSessions_uniform, trivial⟩

end Check

/-- The same calls succeed. -/
theorem Call.map_isOk_eq {past : Holes} {xs ys : List (Except CheckError Answer × Checker)}
    (h : List.Forall₂ (SameStep past) xs ys) : ys.map (·.1.isOk) = xs.map (·.1.isOk) := by
  induction h with
  | nil => rfl
  | @cons x y _ _ hstep _ ih =>
    have hok : y.1.isOk = x.1.isOk := by
      have houtcome := hstep.outcome
      generalize x.1 = u, y.1 = v at houtcome
      cases houtcome with
      | ok => rfl
      | error => rfl
    rw [List.map_cons, List.map_cons, ih, hok]

namespace Check

def refusedCalls : List (Sessions × Call) :=
  [(listSessions, .unit 0 { name := "" }), (listSessions, .elaborate (.type (some 0)) {} .missing)]

def fiberSignature : Signature where
  name := "f"
  params := [⟨"n", .const "Int", .implicit, none⟩,
    ⟨"y", .app (.const "F") [.bound "n"], .explicit, none⟩]
  result := .const "Int"

def numberingSessions : Sessions where
  table := #[{ own := {
    signatures :=
      [{ name := "Int", result := .sort (.level (.const 0)) },
       { name := "F", params := [⟨"n", .const "Int", .explicit, none⟩],
         result := .sort (.level (.const 0)) },
       fiberSignature]
    reductions := [("F", ⟨1, fun args =>
      match args with
      | [.hole 0] => some (.const "Int")
      | _ => none⟩)] } }]

def numberingCalls : List (Sessions × Call) :=
  [(numberingSessions, .begin 0 "main"),
    (numberingSessions,
      .resolve fiberSignature [⟨"", .var "z"⟩] (({} : Context).extend "z" (.const "Int")) .missing)]

def openSessions : Sessions where
  table := #[{ own := {
    signatures :=
      [{ name := "Int", result := .sort (.level (.const 0)) },
       { name := "String", result := .sort (.level (.const 0)) },
       { name := "f", result := .hole 0 }] } }]

def openChecker : Checker :=
  { solver := { holes := ({} : Holes).add "R" 0 (.sort (.level (.const 0))) } }

def openCalls (expected : String) : List (Sessions × Call) :=
  [(openSessions, .begin 0 "main"), (openSessions, .elaborate (.var "f") {} (.const expected))]

def afterCalls (c : Checker) (calls : List (Sessions × Call)) : Checker :=
  calls.foldl (fun c step => (step.2.run step.1 c).2) c

/-- The first call has to begin a unit: one that is refused leaves the earlier unit open. Reductions
have to be uniform: one that reads the number of a hole sees how many holes have been made.
Signatures must not have holes: the past may have solved them. -/
theorem past_observable :
    (¬ ∃ past, List.Forall₂ (Call.SameStep past)
      (Call.runAll { options := usedChecker.options } refusedCalls)
      (Call.runAll usedChecker refusedCalls)) ∧
    (¬ ∃ past, List.Forall₂ (Call.SameStep past)
      (Call.runAll { options := usedChecker.options } numberingCalls)
      (Call.runAll usedChecker numberingCalls)) ∧
    ¬ ∃ past, List.Forall₂ (Call.SameStep past) (Call.runAll openChecker (openCalls "String"))
      (Call.runAll (afterCalls openChecker (openCalls "Int")) (openCalls "String")) := by
  have hrefused : (Call.runAll usedChecker refusedCalls).map (·.1.isOk) ≠
      (Call.runAll { options := usedChecker.options } refusedCalls).map (·.1.isOk) := by
    decide +kernel
  have hnumbering : (Call.runAll usedChecker numberingCalls).map (·.1.isOk) ≠
      (Call.runAll { options := usedChecker.options } numberingCalls).map (·.1.isOk) := by
    decide +kernel
  have hsolved : (Call.runAll (afterCalls openChecker (openCalls "Int")) (openCalls "String")).map
      (·.1.isOk) ≠ (Call.runAll openChecker (openCalls "String")).map (·.1.isOk) := by
    decide +kernel
  refine ⟨?_, ?_, ?_⟩
  · rintro ⟨past, hsteps⟩
    exact hrefused (Call.map_isOk_eq hsteps)
  · rintro ⟨past, hsteps⟩
    exact hnumbering (Call.map_isOk_eq hsteps)
  · rintro ⟨past, hsteps⟩
    exact hsolved (Call.map_isOk_eq hsteps)

end Check

end Implicits
