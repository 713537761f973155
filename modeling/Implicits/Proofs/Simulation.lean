import Mathlib.Data.List.Forall2
import Implicits.Proofs.Outcome

/-!
Two runs side by side. `Simulates R V E x y` says that the steps `x` and `y`, taken in states
related by `R`, both succeed with values related by `V` or both fail with errors related by `E`, and
that the states behind them are related again.
-/
namespace Implicits

variable {ε ε' σ τ α β γ δ : Type}

inductive Outcomes (V : α → β → Prop) (E : ε → ε' → Prop) : Except ε α → Except ε' β → Prop
  | ok {a : α} {b : β} (h : V a b) : Outcomes V E (.ok a) (.ok b)
  | error {e : ε} {f : ε'} (h : E e f) : Outcomes V E (.error e) (.error f)

def Simulates (R : σ → τ → Prop) (V : α → β → Prop) (E : ε → ε' → Prop)
    (x : ExceptT ε (StateM σ) α) (y : ExceptT ε' (StateM τ) β) : Prop :=
  ∀ s t, R s t → Outcomes V E (x.run s).1 (y.run t).1 ∧ R (x.run s).2 (y.run t).2

namespace Simulates

variable {R : σ → τ → Prop} {V : α → β → Prop} {W : γ → δ → Prop} {E E' : ε → ε' → Prop}
  {x : ExceptT ε (StateM σ) α} {y : ExceptT ε' (StateM τ) β}

theorem pure {a : α} {b : β} (hab : V a b) :
    Simulates R V E (pure a : ExceptT ε (StateM σ) α) (pure b : ExceptT ε' (StateM τ) β) :=
  fun _ _ hR => ⟨.ok hab, hR⟩

theorem throw {e : ε} {f : ε'} (hef : E e f) :
    Simulates R V E (throw e : ExceptT ε (StateM σ) α) (throw f : ExceptT ε' (StateM τ) β) :=
  fun _ _ hR => ⟨.error hef, hR⟩

theorem get : Simulates R R E (get : ExceptT ε (StateM σ) σ) (get : ExceptT ε' (StateM τ) τ) :=
  fun _ _ hR => ⟨.ok hR, hR⟩

theorem set {s : σ} {t : τ} (hst : R s t) :
    Simulates R (fun _ _ => True) E (set s : ExceptT ε (StateM σ) PUnit)
      (set t : ExceptT ε' (StateM τ) PUnit) :=
  fun _ _ _ => ⟨.ok trivial, hst⟩

theorem modify {f : σ → σ} {g : τ → τ} (hfg : ∀ s t, R s t → R (f s) (g t)) :
    Simulates R (fun _ _ => True) E (modify f : ExceptT ε (StateM σ) PUnit)
      (modify g : ExceptT ε' (StateM τ) PUnit) :=
  fun s t hR => ⟨.ok trivial, hfg s t hR⟩

theorem modifyGet {f : σ → α × σ} {g : τ → β × τ}
    (hfg : ∀ s t, R s t → V (f s).1 (g t).1 ∧ R (f s).2 (g t).2) :
    Simulates R V E (modifyGet f : ExceptT ε (StateM σ) α)
      (modifyGet g : ExceptT ε' (StateM τ) β) :=
  fun s t hR => ⟨.ok (hfg s t hR).1, (hfg s t hR).2⟩

/-- A sequence of steps, the second of which may leave a weaker relation between the states. -/
theorem bind_at {R' : σ → τ → Prop} {f : α → ExceptT ε (StateM σ) γ}
    {g : β → ExceptT ε' (StateM τ) δ} (hx : Simulates R V E x y) (hR' : ∀ s t, R s t → R' s t)
    {s : σ} {t : τ} (hst : R s t)
    (hf : ∀ a b s t, V a b → R s t → Outcomes W E ((f a).run s).1 ((g b).run t).1 ∧
      R' ((f a).run s).2 ((g b).run t).2) :
    Outcomes W E ((x >>= f).run s).1 ((y >>= g).run t).1 ∧
      R' ((x >>= f).run s).2 ((y >>= g).run t).2 := by
  obtain ⟨houtcome, hst'⟩ := hx s t hst
  rw [run_bind, run_bind]
  generalize x.run s = r, y.run t = r' at houtcome hst'
  obtain ⟨u, s'⟩ := r
  obtain ⟨v, t'⟩ := r'
  cases houtcome with
  | ok hab => exact hf _ _ s' t' hab hst'
  | error hef => exact ⟨.error hef, hR' s' t' hst'⟩

theorem bind {f : α → ExceptT ε (StateM σ) γ} {g : β → ExceptT ε' (StateM τ) δ}
    (hx : Simulates R V E x y) (hf : ∀ a b, V a b → Simulates R W E (f a) (g b)) :
    Simulates R W E (x >>= f) (y >>= g) :=
  fun _ _ hst => hx.bind_at (fun _ _ h => h) hst fun a b s t hab => hf a b hab s t

theorem throw_bind {e : ε} {e' : ε'} (hee : E e e') (f : α → ExceptT ε (StateM σ) γ)
    (g : β → ExceptT ε' (StateM τ) δ) :
    Simulates R W E ((MonadExcept.throw e : ExceptT ε (StateM σ) α) >>= f)
      ((MonadExcept.throw e' : ExceptT ε' (StateM τ) β) >>= g) :=
  fun _ _ hst => ⟨.error hee, hst⟩

theorem tryCatch {f : ε → ExceptT ε (StateM σ) α} {g : ε' → ExceptT ε' (StateM τ) β}
    (hx : Simulates R V E x y) (hf : ∀ e e', E e e' → Simulates R V E' (f e) (g e')) :
    Simulates R V E' (tryCatch x f) (tryCatch y g) := by
  intro s t hR
  obtain ⟨houtcome, hR'⟩ := hx s t hR
  rw [run_tryCatch, run_tryCatch]
  generalize x.run s = r, y.run t = r' at houtcome hR'
  obtain ⟨u, s'⟩ := r
  obtain ⟨v, t'⟩ := r'
  cases houtcome with
  | ok hab => exact ⟨.ok hab, hR'⟩
  | error hef => exact hf _ _ hef s' t' hR'

section Lists

variable {P : γ → δ → Prop} {xs : List γ} {ys : List δ}

theorem forM {f : γ → ExceptT ε (StateM σ) PUnit} {g : δ → ExceptT ε' (StateM τ) PUnit}
    (hxs : List.Forall₂ P xs ys)
    (hf : ∀ a b, P a b → Simulates R (fun _ _ => True) E (f a) (g b)) :
    Simulates R (fun _ _ => True) E (xs.forM f) (ys.forM g) := by
  induction hxs with
  | nil => exact pure trivial
  | cons hab _ ih => exact bind (hf _ _ hab) fun _ _ _ => ih

theorem mapM {f : γ → ExceptT ε (StateM σ) α} {g : δ → ExceptT ε' (StateM τ) β}
    (hxs : List.Forall₂ P xs ys) (hf : ∀ a b, P a b → Simulates R V E (f a) (g b)) :
    Simulates R (List.Forall₂ V) E (xs.mapM f) (ys.mapM g) := by
  induction hxs with
  | nil => exact pure .nil
  | cons hab _ ih =>
    rw [List.mapM_cons, List.mapM_cons]
    refine bind (hf _ _ hab) fun a b hab => bind ih fun as bs has => ?_
    exact pure (.cons hab has)

end Lists

end Simulates

end Implicits
