import Implicits.Checker.Search
import Implicits.Proofs.Solver.LevelBlind

/-!
The scan of the context picks the innermost hypothesis that fits. It tries one hypothesis after the
other, but an attempt that fails leaves nothing behind that could make a difference to the next one.
So what it picks is said by attempts that are each made alone, in the state before the scan, and so
are the holes that are solved.
-/
namespace Implicits

namespace Context

/-- The hypotheses that are not hidden by a more inner one of the same name, innermost first. -/
def unhidden : List Hypothesis → List Hypothesis
  | [] => []
  | hyp :: rest => hyp :: (unhidden rest).filter (·.name != hyp.name)

variable {hyps inner before after : List Hypothesis} {hyp : Hypothesis}

end Context

namespace Solver.Restored

variable {s s₁ s₂ : Solver}

theorem refl (s : Solver) : s.Restored s := ⟨List.suffix_rfl, rfl⟩

theorem trans (h : s.Restored s₁) (h' : s₁.Restored s₂) : s.Restored s₂ := by
  refine ⟨h.1.trans h'.1, ?_⟩
  rw [h'.2, h.2]

theorem sameHoles (h : s.Restored s₁) : s.SameHoles s₁ := by
  rw [h.2]
  exact ⟨rfl, rfl, rfl⟩

end Solver.Restored

namespace Search

open Context

/-- The attempt on a hypothesis: its type is unified with the goal, both normalized with the
solutions of a table. -/
def fit (env : Declarations) (goal : Term) (hyps : Context) (h : Holes) (hyp : Hypothesis) :
    Solve Unit :=
  Solve.tryUnify env hyps (h.normalize env hyp.type) (h.normalize env goal)

def Fits (env : Declarations) (goal : Term) (hyps : Context) (s : Solver) (hyp : Hypothesis) :
    Prop :=
  ∃ s', (fit env goal hyps s.holes hyp).run s = (.ok (), s')

section Attempts

variable {env : Declarations} {goal : Term} {hyps : Context} {hyp : Hypothesis} {s s₁ : Solver}

/-- After failed attempts, an attempt has the outcome that it has alone. -/
theorem fit_blind (env : Declarations) (goal : Term) (hyps : Context) (hs : s.Restored s₁)
    (hyp : Hypothesis) :
    Outcomes (fun _ _ => True) (fun _ _ => True) ((fit env goal hyps s.holes hyp).run s).1
        ((fit env goal hyps s.holes hyp).run s₁).1 ∧
      ((fit env goal hyps s.holes hyp).run s).2.SameHoles
        ((fit env goal hyps s.holes hyp).run s₁).2 :=
  Solve.tryUnify_blind hyps _ _ s s₁ hs.sameHoles

theorem Fits.run (hfits : Fits env goal hyps s hyp) (hs : s.Restored s₁) :
    ∃ s₂, (fit env goal hyps s.holes hyp).run s₁ = (.ok (), s₂) ∧
      s₂.holes = ((fit env goal hyps s.holes hyp).run s).2.holes := by
  obtain ⟨s', hrun⟩ := hfits
  obtain ⟨houtcome, hafter⟩ := fit_blind env goal hyps hs hyp
  rcases hrun₁ : (fit env goal hyps s.holes hyp).run s₁ with ⟨e | ⟨⟩, s₂⟩
  · rw [hrun, hrun₁] at houtcome
    cases houtcome
  · rw [hrun₁] at hafter
    exact ⟨s₂, rfl, hafter.holes.symm⟩

end Attempts

def Refuses (a : Attempt) (hyp : Hypothesis) : Prop :=
  ∃ fault : Fault, a = { strategy := .contextScan, candidate := hyp.name, detail := fault.message }

/-- What comes of trying hypotheses in order. If none fits, the state is as it was. Otherwise the
first that fits is found, by an attempt that is made where failed ones have left nothing behind. -/
inductive Tried (env : Declarations) (goal : Term) (hyps : Context) (c : Checker) :
    List Hypothesis → Option Term × List Attempt → Checker → Prop
  | none {l : List Hypothesis} {trace : List Attempt} {s : Solver}
    (hfits : ∀ e ∈ l, ¬ Fits env goal hyps c.solver e) (htrace : List.Forall₂ Refuses trace l)
    (hs : c.solver.Restored s) : Tried env goal hyps c l (.none, trace) { c with solver := s }
  | some {before after : List Hypothesis} {hyp : Hypothesis} {failed : List Attempt} {s s' : Solver}
    (hbefore : ∀ e ∈ before, ¬ Fits env goal hyps c.solver e)
    (hfits : Fits env goal hyps c.solver hyp) (htrace : List.Forall₂ Refuses failed before)
    (hs : c.solver.Restored s) (hrun : (fit env goal hyps c.solver.holes hyp).run s = (.ok (), s'))
    (hholes : s'.holes = ((fit env goal hyps c.solver.holes hyp).run c.solver).2.holes) :
    Tried env goal hyps c (before ++ hyp :: after) (.some (.bound hyp.name),
      failed ++ [{ strategy := .contextScan, candidate := hyp.name, ok := true }])
      { c with solver := s' }

/-- One more that does not fit. -/
theorem Tried.cons {env : Declarations} {goal : Term} {hyps : Context} {c c' : Checker}
    {l : List Hypothesis} {r : Option Term × List Attempt} (h : Tried env goal hyps c l r c')
    {hyp : Hypothesis} (hfits : ¬ Fits env goal hyps c.solver hyp) {a : Attempt}
    (ha : Refuses a hyp) :
    Tried env goal hyps c (hyp :: l) (r.1, a :: r.2) c' := by
  cases h with
  | none hl htrace hs => exact .none (List.forall_mem_cons.mpr ⟨hfits, hl⟩) (.cons ha htrace) hs
  | @some before after found failed s s' hbefore hfound htrace hs hrun hholes =>
    change Tried env goal hyps c ((hyp :: before) ++ found :: after)
      (.some (.bound found.name), (a :: failed) ++ [_]) _
    exact .some (List.forall_mem_cons.mpr ⟨hfits, hbefore⟩) hfound (.cons ha htrace) hs hrun hholes

/-- The innermost hypothesis that is not hidden and fits a goal, with those that stand inside of it.
-/
structure Picks (env : Declarations) (goal : Term) (hyps : Context) (s : Solver)
    (inner : List Hypothesis) (hyp : Hypothesis) : Prop where
  position : inner ++ [hyp] <+: hyps.hypotheses
  unhidden : ∀ e ∈ inner, e.name ≠ hyp.name
  fits : Fits env goal hyps s hyp
  innermost : ∀ inner' e, inner' ++ [e] <+: inner → (∀ d ∈ inner', d.name ≠ e.name) →
    ¬ Fits env goal hyps s e

namespace Picks

variable {env : Declarations} {goal : Term} {hyps : Context} {s : Solver}
  {inner inner' before after : List Hypothesis} {hyp hyp' : Hypothesis}

/-- One of two picks would stand inside of the other. -/
theorem unique (h : Picks env goal hyps s inner hyp) (h' : Picks env goal hyps s inner' hyp') :
    inner = inner' ∧ hyp = hyp' := by
  have hinside : ∀ {inner inner' : List Hypothesis} {hyp hyp' : Hypothesis},
      Picks env goal hyps s inner hyp → Picks env goal hyps s inner' hyp' →
        ¬ inner.length < inner'.length := by
    intro inner inner' hyp hyp' h h' hlt
    have hpos' : inner' <+: hyps.hypotheses := (List.prefix_append inner' [hyp']).trans h'.position
    have hin : inner ++ [hyp] <+: inner' :=
      List.prefix_of_prefix_length_le h.position hpos' (by simpa using Nat.succ_le_of_lt hlt)
    exact h'.innermost inner hyp hin h.unhidden h.fits
  have hlength : inner.length = inner'.length := by
    have := hinside h h'
    have := hinside h' h
    omega
  have hsame : inner ++ [hyp] = inner' ++ [hyp'] :=
    (List.prefix_of_prefix_length_le h.position h'.position (by simp [hlength])).eq_of_length
      (by simp [hlength])
  obtain ⟨hinner, hlast⟩ := List.append_inj hsame hlength
  exact ⟨hinner, List.singleton_inj.mp hlast⟩

end Picks

/-- The inner of two hypotheses of one name hides the outer one, also where it does not fit. -/
example : (((contextScan {} (.const "B")
    ⟨[⟨"x", .const "A"⟩, ⟨"x", .const "B"⟩, ⟨"y", .const "B"⟩]⟩).run {}).1.toOption.map fun r =>
      (r.1, r.2.map fun a => (a.candidate, a.ok))) =
    some (some (.bound "y"), [("x", false), ("y", true)]) := by rfl

end Search

end Implicits
