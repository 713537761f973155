import Implicits.Checker.State

/-!
Outcomes of steps that keep their state changes when they fail. `Ends x s Q E` says that the step
`x`, taken in state `s`, leads to a value and a state with `Q` or to an error and a state with `E`.
-/
namespace Implicits

section Ends

variable {ε σ α β : Type}

def Ends (x : ExceptT ε (StateM σ) α) (s : σ) (Q : α → σ → Prop) (E : ε → σ → Prop) : Prop :=
  match x.run s with
  | (.ok a, s') => Q a s'
  | (.error e, s') => E e s'

variable {x : ExceptT ε (StateM σ) α} {s : σ} {Q Q' : α → σ → Prop} {E E' : ε → σ → Prop}

theorem ends_pure {a : α} : Ends (pure a : ExceptT ε (StateM σ) α) s Q E ↔ Q a s := Iff.rfl

theorem ends_throw {e : ε} : Ends (throw e : ExceptT ε (StateM σ) α) s Q E ↔ E e s := Iff.rfl

theorem ends_get {Q : σ → σ → Prop} : Ends (get : ExceptT ε (StateM σ) σ) s Q E ↔ Q s s := Iff.rfl

theorem ends_modify {f : σ → σ} {Q : PUnit → σ → Prop} :
    Ends (modify f : ExceptT ε (StateM σ) PUnit) s Q E ↔ Q ⟨⟩ (f s) := Iff.rfl

theorem run_bind (y : ExceptT ε (StateM σ) β) (f : β → ExceptT ε (StateM σ) α) (s : σ) :
    (y >>= f).run s = match y.run s with
      | (.ok b, s') => (f b).run s'
      | (.error e, s') => (.error e, s') := by
  change (match (y.run s).1 with
    | .ok b => (f b).run
    | .error e => pure (.error e)) (y.run s).2 = _
  generalize y.run s = r
  rcases r with ⟨_ | _, s'⟩ <;> rfl

theorem run_tryCatch (f : ε → ExceptT ε (StateM σ) α) :
    (tryCatch x f).run s = match x.run s with
      | (.ok a, s') => (.ok a, s')
      | (.error e, s') => (f e).run s' := by
  change (match (x.run s).1 with
    | .ok a => pure (Except.ok a)
    | .error e => (f e).run) (x.run s).2 = _
  generalize x.run s = r
  rcases r with ⟨_ | _, s'⟩ <;> rfl

theorem ends_bind {y : ExceptT ε (StateM σ) β} {f : β → ExceptT ε (StateM σ) α} :
    Ends (y >>= f) s Q E ↔ Ends y s (fun b s' => Ends (f b) s' Q E) E := by
  unfold Ends
  rw [run_bind]
  generalize y.run s = r
  rcases r with ⟨_ | _, s'⟩ <;> rfl

theorem ends_tryCatch {f : ε → ExceptT ε (StateM σ) α} :
    Ends (tryCatch x f) s Q E ↔ Ends x s Q fun e s' => Ends (f e) s' Q E := by
  unfold Ends
  rw [run_tryCatch]
  generalize x.run s = r
  rcases r with ⟨_ | _, s'⟩ <;> rfl

theorem Ends.mono (h : Ends x s Q E) (hQ : ∀ a s', Q a s' → Q' a s')
    (hE : ∀ e s', E e s' → E' e s') : Ends x s Q' E' := by
  unfold Ends at *
  generalize x.run s = r at h ⊢
  rcases r with ⟨e | a, s'⟩
  · exact hE e s' h
  · exact hQ a s' h

theorem Ends.and (h : Ends x s Q E) (h' : Ends x s Q' E') :
    Ends x s (fun a s' => Q a s' ∧ Q' a s') fun e s' => E e s' ∧ E' e s' := by
  unfold Ends at *
  generalize x.run s = r at h h' ⊢
  rcases r with ⟨e | a, s'⟩
  · exact ⟨h, h'⟩
  · exact ⟨h, h'⟩

/-- A sequence of steps of which only success matters. -/
theorem Ends.andThen {y : ExceptT ε (StateM σ) β} {f : β → ExceptT ε (StateM σ) α}
    {R : β → σ → Prop} (h : Ends y s R E)
    (hf : ∀ b s', R b s' → Ends (f b) s' Q fun _ _ => True) :
    Ends (y >>= f) s Q fun _ _ => True :=
  ends_bind.mpr (h.mono hf fun _ _ _ => trivial)

/-- What holds after a step that succeeds. -/
theorem Ends.of_ok (h : Ends x s Q E) {a : α} {s' : σ} (hrun : x.run s = (.ok a, s')) :
    Q a s' := by
  simpa only [Ends, hrun] using h

/-- What holds after a step that fails. -/
theorem Ends.of_error (h : Ends x s Q E) {e : ε} {s' : σ} (hrun : x.run s = (.error e, s')) :
    E e s' := by
  simpa only [Ends, hrun] using h

theorem ends_trivial {ε σ α : Type} (x : ExceptT ε (StateM σ) α) (s : σ) :
    Ends x s (fun _ _ => True) fun _ _ => True := by
  unfold Ends
  rcases x.run s with ⟨_ | _, _⟩
  · trivial
  · trivial

/-- What a step leads to is what its run says. -/
theorem ends_run (x : ExceptT ε (StateM σ) α) (s : σ) :
    Ends x s (fun a s' => x.run s = (.ok a, s')) fun e s' => x.run s = (.error e, s') := by
  unfold Ends
  rcases x.run s with ⟨_ | _, _⟩
  · rfl
  · rfl

/-- A step that cannot fail gives a value. -/
theorem Ends.exists_ok (h : Ends x s Q fun _ _ => False) :
    ∃ a s', x.run s = (.ok a, s') ∧ Q a s' := by
  unfold Ends at h
  rcases hrun : x.run s with ⟨e | a, s'⟩
  · rw [hrun] at h
    exact h.elim
  · rw [hrun] at h
    exact ⟨a, s', rfl, h⟩

end Ends

namespace Solve

theorem ends_holes {s : Solver} {Q : Holes → Solver → Prop} {E : Fault → Solver → Prop} :
    Ends holes s Q E ↔ Q s.holes s := Iff.rfl

/-- An attempt commits a success and undoes a failure. -/
theorem ends_attempt {α : Type} {x : Solve α} {s : Solver} {Q : α → Solver → Prop}
    {E : Fault → Solver → Prop} :
    Ends (attempt x) s Q E ↔ Ends x s.speculate (fun a s' => Q a (s'.commit s.mark))
      fun e s' => E e (s'.rollback s.mark) := by
  unfold attempt
  rw [ends_bind, ends_get, ends_bind, ends_modify, ends_bind, ends_tryCatch, ends_bind]
  rfl

theorem run_attempt {α : Type} (x : Solve α) (s : Solver) :
    (attempt x).run s = match x.run s.speculate with
      | (.ok a, s') => (.ok a, s'.commit s.mark)
      | (.error e, s') => (.error e, s'.rollback s.mark) := by
  have hself := ends_run (attempt x) s
  rw [ends_attempt] at hself
  unfold Ends at hself
  generalize x.run s.speculate = r at hself ⊢
  obtain ⟨e | a, s'⟩ := r
  · exact hself
  · exact hself

end Solve

namespace Check

variable {c : Checker} {E : CheckError → Checker → Prop}

theorem ends_holes {Q : Holes → Checker → Prop} : Ends holes c Q E ↔ Q c.solver.holes c := Iff.rfl

/-- The outcome of a step of the solver is handed on, also if it fails. -/
theorem ends_solve {α : Type} {x : Solve α} {Q : Except Fault α → Checker → Prop} :
    Ends (solve x) c Q E ↔ Q (x.run c.solver).1 { c with solver := (x.run c.solver).2 } := Iff.rfl

end Check

end Implicits
