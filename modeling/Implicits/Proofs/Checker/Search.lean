import Implicits.Proofs.Checker.State

/-!
Search for omitted arguments keeps the state valid, makes no holes, and finds values within the
scope of the goal and the context.
-/
namespace Implicits

open Term

namespace Search

def Found (σ : Scope) (c : Checker) (value : Option Term) (c' : Checker) : Prop :=
  c.solver.Extends c'.solver ∧ ∀ v, value = some v → v.Scoped σ c'.solver.stage

section

variable {env : Declarations} {σ : Scope} {outer : Context} {L : Ledger env σ outer} {c : Checker}
  {goal : Term}

theorem scan_checks (henv : env.Within σ) (houter : ∀ n, outer.Scoped σ n) {seen : List String}
    {rest : List Hypothesis} (hrest : ∀ hyp ∈ rest, ∀ n, hyp.type.Scoped σ n)
    (hc : L.Valid c.solver) (hgoal : goal.Scoped σ c.solver.stage) :
    L.Checks (scan env outer goal seen rest) c fun r c' => Found σ c r.1 c' := by
  induction rest generalizing seen c with
  | nil => exact .pure hc ⟨.refl _, by simp⟩
  | cons hyp rest ih =>
    have hrest' : ∀ hyp ∈ rest, ∀ n, hyp.type.Scoped σ n := fun h hh => hrest h (by simp [hh])
    rw [scan]
    split
    · exact ih hrest' hc hgoal
    · refine (Ledger.Checks.holes hc).bind fun h c' hc' _ hh => ?_
      obtain ⟨rfl, rfl⟩ := hh
      have htype := hc.table.normalize henv.toReducesWithin (hrest hyp (by simp) c'.solver.stage)
      refine (Ledger.Checks.solve (Solve.tryUnify_keeps henv c'.solver outer _ _ hc
        (.refl (houter _)) htype hgoal)).bind fun r c₁ hc₁ _ hr => ?_
      obtain ⟨hext, -⟩ := hr
      split
      · exact .pure hc₁ ⟨hext, fun v hv => Option.some.inj hv ▸ .bound⟩
      · refine (ih hrest' hc₁ (hgoal.mono hext.stage)).bind fun r c₂ hc₂ _ hfound => ?_
        exact .pure hc₂ ⟨hext.trans hfound.1, hfound.2⟩

theorem contextScan_checks (henv : env.Within σ) (houter : ∀ n, outer.Scoped σ n)
    (hc : L.Valid c.solver) (hgoal : goal.Scoped σ c.solver.stage) :
    L.Checks (contextScan env goal outer) c fun r c' => Found σ c r.1 c' := by
  unfold contextScan
  split
  · exact .pure hc ⟨.refl _, by simp⟩
  · refine (Ledger.Checks.holes hc).bind fun h c' _ _ hh => ?_
    obtain ⟨rfl, rfl⟩ := hh
    exact scan_checks henv houter (fun hyp hhyp n => houter n hyp hhyp) hc
      (hc.table.normalize henv.toReducesWithin hgoal)

theorem reflexivity_checks (henv : env.Within σ) (houter : ∀ n, outer.Scoped σ n)
    (hc : L.Valid c.solver) (hgoal : goal.Scoped σ c.solver.stage) :
    L.Checks (reflexivity env goal outer) c fun r c' => Found σ c r.1 c' := by
  unfold reflexivity
  refine (Ledger.Checks.holes hc).bind fun h c' _ _ hh => ?_
  obtain ⟨rfl, rfl⟩ := hh
  have hnormal := hc.table.normalize henv.toReducesWithin hgoal
  split
  · rename_i lhs rhs heq
    rw [heq] at hnormal
    obtain - | - | - | - | - | - | - | - | ⟨hl, hr⟩ := hnormal
    refine (Ledger.Checks.solve (Solve.tryUnify_keeps henv c'.solver outer _ _ hc
      (.refl (houter _)) hl hr)).bind fun r c₁ hc₁ _ hr => ?_
    obtain ⟨hext, -⟩ := hr
    split
    · refine (Ledger.Checks.text hc₁ _).bind fun _ c₂ _ _ h₂ => ?_
      subst h₂
      refine (Ledger.Checks.holes hc₁).bind fun h c₃ _ _ hh => ?_
      obtain ⟨rfl, rfl⟩ := hh
      refine .pure hc₁ ⟨hext, fun v hv => ?_⟩
      rw [← Option.some.inj hv]
      exact .refl (hc₁.table.deref (hl.mono hext.stage))
    · refine (Ledger.Checks.text hc₁ _).bind fun _ c₂ hc₂ _ h₂ => ?_
      subst h₂
      exact .pure hc₂ ⟨hext, by simp⟩
  · exact .pure hc ⟨.refl _, by simp⟩

theorem givenValue_checks (henv : env.Within σ) (houter : ∀ n, outer.Scoped σ n) {value : Term}
    {sub : Substitution} (hvalue : value.Scoped σ c.solver.stage)
    (hsub : ∀ entry ∈ sub, entry.2.Scoped σ c.solver.stage)
    (hc : L.Valid c.solver) (hgoal : goal.Scoped σ c.solver.stage) :
    L.Checks (givenValue env value goal outer sub) c fun r c' => Found σ c r.1 c' := by
  unfold givenValue
  refine (Ledger.Checks.holes hc).bind fun h c' _ _ hh => ?_
  obtain ⟨rfl, rfl⟩ := hh
  have hsubst := hc.table.subst hvalue hsub
  refine (Ledger.Checks.text hc _).bind fun _ c₁ _ _ h₁ => ?_
  subst h₁
  have hfits : L.Keeps (do
      let type ← Solve.typeOf env outer (c₁.solver.holes.subst sub value)
      Solve.trySubsume env outer type goal) c₁.solver fun _ _ => True := by
    refine (Ledger.Keeps.of_types hc (Solve.typeOf_types henv hc.sound (houter _) hsubst)).bind
      fun type s' hs' hext htype => ?_
    exact Solve.trySubsume_keeps henv s' outer type goal hs' (.refl (houter _)) htype
      (hgoal.mono hext.stage)
  refine (Ledger.Checks.solve hfits).bind fun r c₂ hc₂ _ hr => ?_
  obtain ⟨hext, -⟩ := hr
  split
  · refine .pure hc₂ ⟨hext, fun v hv => ?_⟩
    rw [← Option.some.inj hv]
    exact hsubst.mono hext.stage
  · exact .pure hc₂ ⟨hext, by simp⟩

/-- Whatever a tactic finds lies within the scope of the call. -/
theorem run_checks (henv : env.Within σ) (houter : ∀ n, outer.Scoped σ n) {tactic : Tactic Term}
    {sub : Substitution}
    (htactic : ∀ value, tactic = .exact value → value.Scoped σ c.solver.stage)
    (hsub : ∀ entry ∈ sub, entry.2.Scoped σ c.solver.stage)
    (hc : L.Valid c.solver) (hgoal : goal.Scoped σ c.solver.stage) :
    L.Checks (run env tactic goal outer sub) c fun r c' => Found σ c (r.1.map (·.1)) c' := by
  unfold run
  split
  · rename_i value
    refine (givenValue_checks henv houter (htactic value rfl) hsub hc hgoal).bind
      fun ⟨found, trace⟩ c' hc' _ hfound => ?_
    refine Ledger.Checks.pure hc' ⟨hfound.1, fun v hv => hfound.2 v ?_⟩
    simpa using hv
  · refine (contextScan_checks henv houter hc hgoal).bind fun ⟨found, trace⟩ c' hc' _ hfound => ?_
    dsimp only
    split
    · refine Ledger.Checks.pure hc' ⟨hfound.1, fun v hv => hfound.2 v ?_⟩
      simpa using hv
    · refine (reflexivity_checks henv houter hc' (hgoal.mono hfound.1.stage)).bind
        fun ⟨found', more⟩ c'' hc'' _ hfound' => ?_
      refine Ledger.Checks.pure hc'' ⟨hfound.1.trans hfound'.1, fun v hv => hfound'.2 v ?_⟩
      simpa using hv

end

end Search

end Implicits
