import Implicits.Proofs.Term.Holes
import Implicits.Solver.Normalize

/-!
Normal forms where nothing reduces: a term is read through the table of holes and otherwise left
alone. Where something does, a normalization uses up its reductions, so that the bound on how deeply
outcomes are normalized inside each other is never met.
-/
namespace Implicits

open Term

namespace Term

section Irreducible

variable {fire : String → List Term → Nat → Option (Term × Nat)}

theorem normalizeArgs_eq_self {args : List Term}
    (hargs : ∀ a ∈ args, ∀ left, a.normalizeWith fire left = (a, left)) (left : Nat) :
    normalizeArgs fire args left = (args, left) := by
  induction args generalizing left with
  | nil => rfl
  | cons a args ih =>
    have hrest := ih fun b hb => hargs b (by simp [hb])
    simp only [normalizeArgs, hargs a (by simp), hrest]

theorem normalizeParams_eq_self {params : List (Param Term)}
    (hparams : ∀ p ∈ params, ∀ left, p.type.normalizeWith fire left = (p.type, left)) (left : Nat) :
    normalizeParams fire params left = (params, left) := by
  induction params generalizing left with
  | nil => rfl
  | cons p params ih =>
    have hrest := ih fun q hq => hparams q (by simp [hq])
    simp only [normalizeParams, hparams p (by simp), hrest]

/-- Where nothing reduces, a term is its own normal form. -/
theorem normalizeWith_eq_self (hfire : ∀ name args left, fire name args left = none) (t : Term) :
    ∀ left, t.normalizeWith fire left = (t, left) := by
  induction t using induct with
  | missing | lit | bound | hole | sort => exact fun left => rfl
  | const name => exact fun left => by rw [normalizeWith, hfire, Option.getD_none]
  | app fn args ihf ihargs =>
    intro left
    simp only [normalizeWith, ihf, normalizeArgs_eq_self ihargs, hfire, Option.getD_none]
    cases fn <;> rfl
  | pi params result ihparams ihr =>
    intro left
    simp only [normalizeWith, normalizeParams_eq_self ihparams, ihr]
  | eq lhs rhs ihl ihr =>
    intro left
    simp only [normalizeWith, ihl, ihr]
  | refl value ih =>
    intro left
    simp only [normalizeWith, ih]

end Irreducible

section Spending

variable {fire fire' : String → List Term → Nat → Option (Term × Nat)}

def Spends (fire : String → List Term → Nat → Option (Term × Nat)) : Prop :=
  ∀ name args left out, fire name args left = some out → out.2 ≤ left

theorem normalizeArgs_le {args : List Term}
    (hargs : ∀ a ∈ args, ∀ left, (a.normalizeWith fire left).2 ≤ left) (left : Nat) :
    (normalizeArgs fire args left).2 ≤ left := by
  induction args generalizing left with
  | nil => exact Nat.le_refl _
  | cons a args ih =>
    simp only [normalizeArgs]
    exact (ih (fun b hb => hargs b (by simp [hb])) _).trans (hargs a (by simp) left)

theorem normalizeParams_le {params : List (Param Term)}
    (hparams : ∀ p ∈ params, ∀ left, (p.type.normalizeWith fire left).2 ≤ left) (left : Nat) :
    (normalizeParams fire params left).2 ≤ left := by
  induction params generalizing left with
  | nil => exact Nat.le_refl _
  | cons p params ih =>
    simp only [normalizeParams]
    exact (ih (fun q hq => hparams q (by simp [hq])) _).trans (hparams p (by simp) left)

theorem Spends.getD_le (hfire : Spends fire) (name : String) (args : List Term) (left : Nat)
    (t : Term) : ((fire name args left).getD (t, left)).2 ≤ left := by
  cases hout : fire name args left with
  | none => exact Nat.le_refl _
  | some out => exact hfire name args left out hout

theorem Spends.normalizeWith_le (hfire : Spends fire) (t : Term) :
    ∀ left, (t.normalizeWith fire left).2 ≤ left := by
  induction t using induct with
  | missing | lit | bound | hole | sort => exact fun left => Nat.le_refl _
  | const name => exact fun left => hfire.getD_le name [] left _
  | app fn args ihf ihargs =>
    intro left
    have hparts := (normalizeArgs_le ihargs (fn.normalizeWith fire left).2).trans (ihf left)
    simp only [normalizeWith]
    split
    · exact (hfire.getD_le _ _ _ _).trans hparts
    · exact hparts
  | pi params result ihparams ihr =>
    intro left
    exact (ihr _).trans (normalizeParams_le ihparams left)
  | eq lhs rhs ihl ihr =>
    intro left
    exact (ihr _).trans (ihl left)
  | refl value ih => exact fun left => ih left

/-- Only reductions within what is left matter. -/
theorem Spends.normalizeWith_congr (hfire : Spends fire) {bound : Nat}
    (hsame : ∀ name args left, left ≤ bound → fire name args left = fire' name args left)
    (t : Term) :
    ∀ left, left ≤ bound → t.normalizeWith fire left = t.normalizeWith fire' left := by
  induction t using induct with
  | missing | lit | bound | hole | sort => exact fun left _ => rfl
  | const name =>
    intro left hleft
    rw [normalizeWith, normalizeWith, hsame name [] left hleft]
  | app fn args ihf ihargs =>
    have hargs : ∀ left, left ≤ bound →
        normalizeArgs fire args left = normalizeArgs fire' args left := by
      induction args with
      | nil => exact fun left _ => rfl
      | cons a args ih =>
        intro left hleft
        have hrest := ih fun b hb => ihargs b (by simp [hb])
        simp only [normalizeArgs, ← ihargs a (by simp) left hleft,
          ← hrest _ ((hfire.normalizeWith_le a left).trans hleft)]
    intro left hleft
    have hfn := (hfire.normalizeWith_le fn left).trans hleft
    have hparts : (normalizeArgs fire args (fn.normalizeWith fire left).2).2 ≤ bound :=
      (normalizeArgs_le (fun a _ => hfire.normalizeWith_le a) _).trans hfn
    simp only [normalizeWith, ← ihf left hleft, ← hargs _ hfn]
    split
    · rw [hsame _ _ _ hparts]
    · rfl
  | pi params result ihparams ihr =>
    have hparams : ∀ left, left ≤ bound →
        normalizeParams fire params left = normalizeParams fire' params left := by
      induction params with
      | nil => exact fun left _ => rfl
      | cons p params ih =>
        intro left hleft
        have hrest := ih fun q hq => ihparams q (by simp [hq])
        simp only [normalizeParams, ← ihparams p (by simp) left hleft,
          ← hrest _ ((hfire.normalizeWith_le p.type left).trans hleft)]
    intro left hleft
    have hle : (normalizeParams fire params left).2 ≤ bound :=
      (normalizeParams_le (fun p _ => hfire.normalizeWith_le p.type) left).trans hleft
    simp only [normalizeWith, ← hparams left hleft, ← ihr _ hle]
  | eq lhs rhs ihl ihr =>
    intro left hleft
    simp only [normalizeWith, ← ihl left hleft,
      ← ihr _ ((hfire.normalizeWith_le lhs left).trans hleft)]
  | refl value ih =>
    intro left hleft
    simp only [normalizeWith, ← ih left hleft]

end Spending

end Term

/-- Where there are no rules, nothing reduces. -/
theorem Declarations.reduce?_eq_none {env : Declarations} (henv : env.reductions = [])
    (name : String) (args : List Term) : env.reduce? name args = none := by
  rw [reduce?, reduction?, henv]
  rfl

theorem Holes.normalize_eq_expand {env : Declarations}
    (henv : ∀ name args, env.reduce? name args = none) (h : Holes) (t : Term) :
    h.normalize env t = h.expand t := by
  rw [normalize, normalizeCount, normalizeN, normalizeWith_eq_self]
  intro name args left
  cases left with
  | zero => rfl
  | succ left => simp only [henv, Option.map_none]

namespace Holes

variable {h : Holes} {env : Declarations}

def fireN (h : Holes) (env : Declarations) (n : Nat) (name : String) (args : List Term) :
    Nat → Option (Term × Nat)
  | 0 => none
  | left + 1 => (env.reduce? name args).map fun out => h.normalizeN env n out left

theorem normalizeN_succ (n : Nat) (t : Term) (left : Nat) :
    h.normalizeN env (n + 1) t left = (h.expand t).normalizeWith (h.fireN env n) left := by
  rw [normalizeN]
  rfl

section Attempts

variable {n left : Nat} {name : String} {args : List Term} {out : Term × Nat}

theorem fireN_eq_some (hout : h.fireN env n name args left = some out) :
    ∃ u rest, left = rest + 1 ∧ env.reduce? name args = some u ∧
    out = h.normalizeN env n u rest := by
  cases left with
  | zero => simp [fireN] at hout
  | succ rest =>
    obtain ⟨u, hu, rfl⟩ := Option.map_eq_some_iff.mp hout
    exact ⟨u, rest, rfl, hu, rfl⟩

theorem fireN_eq_none :
    h.fireN env n name args left = none ↔ left = 0 ∨ env.reduce? name args = none := by
  cases left with
  | zero => simp [fireN]
  | succ rest => simp [fireN]

end Attempts

theorem normalizeN_le (n : Nat) (t : Term) (left : Nat) : (h.normalizeN env n t left).2 ≤ left := by
  induction n generalizing t left with
  | zero => exact Nat.le_refl _
  | succ n ih =>
    rw [normalizeN_succ]
    refine Term.Spends.normalizeWith_le (fun name args left out hout => ?_) _ left
    obtain ⟨u, rest, rfl, -, rfl⟩ := fireN_eq_some hout
    exact (ih u rest).trans (Nat.le_succ rest)

end Holes

end Implicits
