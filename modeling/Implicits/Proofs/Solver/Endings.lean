import Implicits.Proofs.Solver.Circles
import Implicits.Proofs.Solver.Normalize
import Implicits.Proofs.Term.Deref
import Mathlib.Data.Prod.Lex

/-!
Where solutions are not circular, comparing terms comes to an end. A comparison of two terms goes on
to smaller parts of them as they are read now, or follows the solving of a hole, and there are only
so many holes. So from some depth on the bound on the depth makes no difference, and neither does
what would happen at the bound.
-/
namespace Implicits

open Relation

namespace Term

section Renaming

variable {t : Term} {sub : Substitution}

/-- Renaming shows no other holes. -/
theorem shows_of_shows_subst (hsub : Solve.OnlyRenames sub) {i : HoleId}
    (hi : (t.subst sub).Shows i) : t.Shows i := by
  induction t using induct generalizing sub with
  | missing | const | lit | hole | sort => exact hi
  | bound name =>
    rw [subst] at hi
    cases hu : sub.lookup name with
    | none => simp [hu] at hi
    | some u =>
      obtain ⟨m, hm⟩ := hsub (name, u) (mem_of_lookup hu)
      rw [hu, show u = .bound m from hm] at hi
      simp at hi
  | app fn args ihf ihargs =>
    rw [subst, substArgs_eq_map] at hi
    rcases shows_app.mp hi with hi | ⟨b, hb, hi⟩
    · exact shows_app.mpr (.inl (ihf hsub hi))
    · obtain ⟨a, ha, rfl⟩ := List.mem_map.mp hb
      exact shows_app.mpr (.inr ⟨a, ha, ihargs a ha hsub hi⟩)
  | pi params result ihparams ihr =>
    rw [subst] at hi
    rcases shows_pi.mp hi with ⟨q, hq, hi⟩ | hi
    · obtain ⟨p, hp, sub', hsub', rfl⟩ := mem_substParams hq
      exact shows_pi.mpr (.inl ⟨p, hp, ihparams p hp (fun e he => hsub e (hsub' he)) hi⟩)
    · exact shows_pi.mpr (.inr (ihr (fun e he => hsub e (behind_subset sub _ he)) hi))
  | eq lhs rhs ihl ihr =>
    rw [subst] at hi
    exact shows_eq.mpr ((shows_eq.mp hi).imp (ihl hsub) (ihr hsub))
  | refl value ih =>
    rw [subst] at hi
    exact shows_refl.mpr (ih hsub (shows_refl.mp hi))

/-- Renaming keeps the size. -/
theorem size_subst (hsub : Solve.OnlyRenames sub) : (t.subst sub).size = t.size := by
  induction t using induct generalizing sub with
  | missing | const | lit | hole | sort => rfl
  | bound name =>
    rw [subst]
    cases hu : sub.lookup name with
    | none => rfl
    | some u =>
      obtain ⟨m, hm⟩ := hsub (name, u) (mem_of_lookup hu)
      rw [show u = .bound m from hm]
      rfl
  | app fn args ihf ihargs =>
    have hargs : sizeArgs (substArgs sub args) = sizeArgs args := by
      induction args with
      | nil => rfl
      | cons a args ih =>
        rw [substArgs, sizeArgs, sizeArgs, ihargs a (by simp) hsub,
          ih fun b hb => ihargs b (by simp [hb])]
    rw [subst, size, size, ihf hsub, hargs]
  | pi params result ihparams ihr =>
    have hparams : ∀ {sub : Substitution}, Solve.OnlyRenames sub →
        sizeParams (substParams sub params) = sizeParams params := by
      induction params with
      | nil => exact fun _ => rfl
      | cons p params ih =>
        intro sub hsub
        rw [substParams, sizeParams, sizeParams, ihparams p (by simp) hsub]
        rw [ih (fun q hq => ihparams q (by simp [hq]))
          fun e he => hsub e (without_subset sub p.name he)]
    rw [subst, size, size, hparams hsub, ihr fun e he => hsub e (behind_subset sub _ he)]
  | eq lhs rhs ihl ihr => rw [subst, size, size, ihl hsub, ihr hsub]
  | refl value ih => rw [subst, size, size, ih hsub]

end Renaming

end Term

namespace Holes

variable {h h' : Holes}

/-- A term with open holes only is read as it is. -/
theorem expand_of_shows {t : Term} (ht : ∀ i, t.Shows i → h.solution? i = none) :
    h.expand t = t := by
  rw [expand_eq_fill]
  conv_rhs => rw [← Term.fill_hole t]
  exact Term.fill_congr fun i hi => expand_of_open (ht i hi)

/-- A renamed term is read with the same size. -/
theorem size_expand_subst (hh : h.Acyclic) {names : Substitution} (hnames : Solve.OnlyRenames names)
    (t : Term) : (h.expand (h.subst names t)).size = (h.expand t).size := by
  unfold subst
  split
  · rfl
  · rw [expand_of_shows fun i hi => open_of_shows_expand hh (Term.shows_of_shows_subst hnames hi),
      Term.size_subst hnames]

theorem expand_congr (hsize : h'.size = h.size) (hsame : ∀ i, h'.solution? i = h.solution? i)
    (t : Term) : h'.expand t = h.expand t := by
  unfold expand
  rw [hsize]
  generalize h.size = n
  induction n generalizing t with
  | zero => rfl
  | succ n ih =>
    rw [instantiateN, instantiateN]
    refine Term.fill_congr fun i _ => ?_
    rw [hsame i]
    cases h.solution? i with
    | none => rfl
    | some u => exact ih u

def openHoles (h : Holes) : Finset HoleId := (Finset.range h.size).filter fun i => h.isOpen i

/-- What is left to compare: open holes first, then the size of the terms as they are read. -/
def weight (h : Holes) (a b : Term) : Nat ×ₗ Nat :=
  toLex (h.openHoles.card, (h.expand a).size + (h.expand b).size)

end Holes

namespace Solver

variable {s s' : Solver}

theorem Extends.openHoles_subset (h : s.Extends s') : s'.holes.openHoles ⊆ s.holes.openHoles := by
  intro i hi
  simp only [Holes.openHoles, Finset.mem_filter, Finset.mem_range, Holes.isOpen,
    Option.isNone_iff_eq_none] at hi ⊢
  exact ⟨h.size ▸ hi.1, h.isOpen_of_isOpen hi.2⟩

/-- A step that solves no hole leaves what is read as it was. -/
theorem Extends.expand_eq_of_openHoles (h : s.Extends s')
    (hopen : s'.holes.openHoles = s.holes.openHoles) (t : Term) :
    s'.holes.expand t = s.holes.expand t := by
  refine Holes.expand_congr h.size (fun i => ?_) t
  cases hsol : s.holes.solution? i with
  | some u => exact h.solved i u hsol
  | none =>
    cases hsol' : s'.holes.solution? i with
    | none => rfl
    | some u =>
      have hlt : i < s.holes.size := h.size ▸ Holes.lt_size_of_solution? hsol'
      have hi : i ∈ s'.holes.openHoles := by
        rw [hopen]
        simp [Holes.openHoles, Holes.isOpen, hsol, hlt]
      simp [Holes.openHoles, Holes.isOpen, hsol'] at hi

/-- After a step, terms that were read smaller weigh less. -/
theorem Extends.weight_lt (h : s.Extends s') {a b a' b' : Term}
    (hlt : (s.holes.expand a').size + (s.holes.expand b').size <
      (s.holes.expand a).size + (s.holes.expand b).size) :
    s'.holes.weight a' b' < s.holes.weight a b := by
  have hsubset := h.openHoles_subset
  rw [Holes.weight, Holes.weight, Prod.Lex.toLex_lt_toLex]
  by_cases hopen : s'.holes.openHoles = s.holes.openHoles
  · right
    rw [hopen, h.expand_eq_of_openHoles hopen, h.expand_eq_of_openHoles hopen]
    exact ⟨rfl, hlt⟩
  · left
    exact Finset.card_lt_card (hsubset.ssubset_of_ne hopen)

end Solver

namespace Solve

/-- Where a comparison to a bounded depth stops: what it does there, and the depth to which it
compares normal forms. -/
structure Limit where
  bottom : Solve Unit
  depth : Holes → Term → Term → Nat

def Limit.Allows (limit : Limit) (n : Nat) : Prop := ∀ h a b, n ≤ limit.depth h a b

variable {α β : Type} {s : Solver} {Q : α → Prop} {R : β → Prop}

def Leaves (s : Solver) (Q : α → Prop) : Except Fault α × Solver → Prop
  | (.ok a, s') => s.Extends s' ∧ s'.Guarded False ∧ Q a
  | (.error _, s') => s.Extends s' ∧ s'.Guarded False

theorem Leaves.trans {s' : Solver} {r : Except Fault α × Solver} (hr : Leaves s' Q r)
    (hstep : s.Extends s') : Leaves s Q r := by
  obtain ⟨e | a, s''⟩ := r
  · exact ⟨hstep.trans hr.1, hr.2⟩
  · exact ⟨hstep.trans hr.1, hr.2⟩

/-- Steps for all limits and depths that have one outcome from some depth on. -/
def Converges (s : Solver) (x : Limit → Nat → Solve α) (Q : α → Prop) : Prop :=
  ∃ N r, (∀ limit n, N ≤ n → limit.Allows N → (x limit n).run s = r) ∧ Leaves s Q r

namespace Converges

variable {x : Limit → Nat → Solve α}

theorem bind {f : α → Limit → Nat → Solve β} (hx : Converges s x Q)
    (hf : ∀ a s', s.Extends s' → s'.Guarded False → Q a → Converges s' (f a) R) :
    Converges s (fun limit n => x limit n >>= fun a => f a limit n) R := by
  obtain ⟨N, ⟨e | a, s'⟩, hrun, hr⟩ := hx
  · refine ⟨N, (.error e, s'), fun limit n hn hlimit => ?_, hr⟩
    rw [run_bind, hrun limit n hn hlimit]
  · obtain ⟨N', r, hrun', hr'⟩ := hf a s' hr.1 hr.2.1 hr.2.2
    refine ⟨max N N', r, fun limit n hn hlimit => ?_, hr'.trans hr.1⟩
    rw [run_bind, hrun limit n (by omega) fun h a b => (Nat.le_max_left N N').trans (hlimit h a b)]
    exact hrun' limit n (by omega) fun h a b => (Nat.le_max_right N N').trans (hlimit h a b)

theorem tryCatch {f : Fault → Limit → Nat → Solve α} (hx : Converges s x Q)
    (hf : ∀ e s', s.Extends s' → s'.Guarded False → Converges s' (f e) Q) :
    Converges s (fun limit n => tryCatch (x limit n) fun e => f e limit n) Q := by
  obtain ⟨N, ⟨e | a, s'⟩, hrun, hr⟩ := hx
  · obtain ⟨N', r, hrun', hr'⟩ := hf e s' hr.1 hr.2
    refine ⟨max N N', r, fun limit n hn hlimit => ?_, hr'.trans hr.1⟩
    rw [run_tryCatch,
      hrun limit n (by omega) fun h a b => (Nat.le_max_left N N').trans (hlimit h a b)]
    exact hrun' limit n (by omega) fun h a b => (Nat.le_max_right N N').trans (hlimit h a b)
  · refine ⟨N, (.ok a, s'), fun limit n hn hlimit => ?_, hr⟩
    rw [run_tryCatch, hrun limit n hn hlimit]

theorem attempt (hx : Converges s.speculate x Q) :
    Converges s (fun limit n => attempt (x limit n)) Q := by
  obtain ⟨N, ⟨e | a, s'⟩, hrun, hr⟩ := hx
  · refine ⟨N, (.error e, s'.rollback s.mark), fun limit n hn hlimit => ?_,
      hr.1.of_rollback, hr.2.rollback s.mark⟩
    rw [run_attempt, hrun limit n hn hlimit]
  · refine ⟨N, (.ok a, s'.commit s.mark), fun limit n hn hlimit => ?_,
      hr.1.of_commit, hr.2.1.commit s.mark, hr.2.2⟩
    rw [run_attempt, hrun limit n hn hlimit]

/-- Reading the table is no step. -/
theorem holes {f : Holes → Limit → Nat → Solve α} (hf : Converges s (f s.holes) Q) :
    Converges s (fun limit n => Solve.holes >>= fun h => f h limit n) Q := hf

/-- It is enough to look at depths above zero. -/
theorem of_succ (hx : Converges s (fun limit n => x limit (n + 1)) Q) : Converges s x Q := by
  obtain ⟨N, r, hrun, hr⟩ := hx
  refine ⟨N + 1, r, fun limit n hn hlimit => ?_, hr⟩
  obtain ⟨n, rfl⟩ : ∃ k, n = k + 1 := ⟨n - 1, by omega⟩
  exact hrun limit n (by omega) fun h a b => (Nat.le_succ N).trans (hlimit h a b)

end Converges

def ConvergesBelow (w : Nat ×ₗ Nat) (recur : Limit → Nat → Context → Term → Term → Solve Unit) :
    Prop :=
  ∀ s hyps a b, s.Guarded False → s.holes.weight a b < w →
    Converges s (fun limit n => recur limit n hyps a b) fun _ => True

section Unify

variable {env : Declarations} {recur : Limit → Nat → Context → Term → Term → Solve Unit}
  {a b : Term} {s' : Solver}

/-- Parts of two terms are compared after some steps, the second part perhaps renamed. -/
theorem ConvergesBelow.parts (hrecur : ConvergesBelow (s.holes.weight a b) recur)
    (hstep : s.Extends s') (hs' : s'.Guarded False) {a' b' : Term} (ha : a'.Part a) (hb : b'.Part b)
    (names : Substitution) (hnames : OnlyRenames names) (hyps : Context) :
    Converges s' (fun limit n => recur limit n hyps a' (s'.holes.subst names b'))
      fun _ => True := by
  refine hrecur s' hyps _ _ hs' ?_
  have hweight : s'.holes.weight a' (s'.holes.subst names b') = s'.holes.weight a' b' := by
    rw [Holes.weight, Holes.weight, Holes.size_expand_subst hs'.acyclic hnames]
  rw [hweight]
  have hlt := (s.holes.part_expand ha).size_lt
  have hlt' := (s.holes.part_expand hb).size_lt
  exact hstep.weight_lt (by omega)

end Unify

end Solve

namespace Holes

end Holes

end Implicits
