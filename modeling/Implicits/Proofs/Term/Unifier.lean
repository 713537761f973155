import Implicits.Proofs.Term.Holes

/-!
Fillings of holes as solutions of equations between terms. A filling agrees with a table if it gives
every solved hole what its solution becomes; then a term and its reading are filled alike. Literals
are known by their text, so that terms are compared without the types of their literals.
-/
namespace Implicits

open Relation

namespace Term

mutual

def skeleton : Term → Term
  | missing => missing
  | const name => const name
  | lit text _ => lit text missing
  | bound name => bound name
  | hole id => hole id
  | app fn args => app fn.skeleton (skeletonArgs args)
  | pi params result => pi (skeletonParams params) result.skeleton
  | sort u => sort u
  | eq lhs rhs => eq lhs.skeleton rhs.skeleton
  | refl value => refl value.skeleton

def skeletonArgs : List Term → List Term
  | [] => []
  | t :: ts => t.skeleton :: skeletonArgs ts

def skeletonParams : List (Param Term) → List (Param Term)
  | [] => []
  | ⟨name, type, plicity, fallback⟩ :: ps =>
    ⟨name, type.skeleton, plicity, fallback⟩ :: skeletonParams ps

end

/-- Identity of terms whose literals are known by their text. -/
def Same (t u : Term) : Prop := t.skeleton = u.skeleton

theorem Same.symm {t u : Term} (h : t.Same u) : u.Same t := Eq.symm h

theorem Same.trans {t u v : Term} (h : t.Same u) (h' : u.Same v) : t.Same v := Eq.trans h h'

theorem skeletonArgs_eq_map (args : List Term) : skeletonArgs args = args.map skeleton := by
  induction args with
  | nil => rfl
  | cons a args ih => rw [skeletonArgs, ih, List.map_cons]

theorem skeletonParams_eq_map (params : List (Param Term)) :
    skeletonParams params = params.map fun p => { p with type := p.type.skeleton } := by
  induction params with
  | nil => rfl
  | cons p params ih => rw [skeletonParams, ih, List.map_cons]

theorem skeleton_fill (f : HoleId → Term) (t : Term) :
    (t.fill false f).skeleton = t.skeleton.fill false fun i => (f i).skeleton := by
  induction t using induct with
  | missing | const | lit | bound | sort | hole => rfl
  | app fn args ihf ihargs =>
    simp only [fill, skeleton, ihf, fillArgs_eq_map, skeletonArgs_eq_map, List.map_map, app.injEq,
      true_and]
    exact List.map_congr_left ihargs
  | pi params result ihparams ihr =>
    simp only [fill, skeleton, ihr, fillParams_eq_map, skeletonParams_eq_map,
      List.map_map, pi.injEq,
      and_true]
    refine List.map_congr_left fun p hp => ?_
    simp only [Function.comp_apply, ihparams p hp]
  | eq lhs rhs ihl ihr => simp only [fill, skeleton, ihl, ihr]
  | refl value ih => simp only [fill, skeleton, ih]

theorem fill_fill (f g : HoleId → Term) (t : Term) :
    (t.fill false f).fill false g = t.fill false fun i => (f i).fill false g := by
  induction t using induct with
  | missing | const | lit | bound | sort | hole => rfl
  | app fn args ihf ihargs =>
    simp only [fill, ihf, fillArgs_eq_map, List.map_map, app.injEq, true_and]
    exact List.map_congr_left ihargs
  | pi params result ihparams ihr =>
    simp only [fill, ihr, fillParams_eq_map, List.map_map, pi.injEq, and_true]
    refine List.map_congr_left fun p hp => ?_
    simp only [Function.comp_apply, ihparams p hp]
  | eq lhs rhs ihl ihr => simp only [fill, ihl, ihr]
  | refl value ih => simp only [fill, ih]

theorem Same.fill {f g : HoleId → Term} (hfg : ∀ i, (f i).Same (g i)) (t : Term) :
    (t.fill false f).Same (t.fill false g) := by
  have hskeletons : (fun i => (f i).skeleton) = fun i => (g i).skeleton := funext hfg
  rw [Same, skeleton_fill, skeleton_fill, hskeletons]

/-- What fills a hole is smaller than a larger term that the hole occurs in. -/
theorem size_fill_of_shows (f : HoleId → Term) {t : Term} {i : HoleId} (hi : t.Shows i) :
    t = .hole i ∨ (f i).size < (t.fill false f).size := by
  have hle : ∀ u : Term, u = .hole i ∨ (f i).size < (u.fill false f).size →
      (f i).size ≤ (u.fill false f).size := by
    intro u hu
    rcases hu with rfl | hlt
    · exact Nat.le_refl _
    · exact Nat.le_of_lt hlt
  induction t using induct with
  | missing | const | lit | bound | sort => simp at hi
  | hole id => exact .inl (congrArg _ (shows_hole.mp hi))
  | app fn args ihf ihargs =>
    simp only [fill, size, fillArgs_eq_map]
    rcases shows_app.mp hi with hfn | ⟨a, ha, hia⟩
    · have hfn := hle fn (ihf hfn)
      exact .inr (by omega)
    · have ha' := hle a (ihargs a ha hia)
      have hmem := size_le_sizeArgs (List.mem_map_of_mem (f := Term.fill false f) ha)
      exact .inr (by omega)
  | pi params result ihparams ihr =>
    simp only [fill, size, fillParams_eq_map]
    rcases shows_pi.mp hi with ⟨p, hp, hip⟩ | hresult
    · have hp' := hle p.type (ihparams p hp hip)
      have hmem := size_le_sizeParams (List.mem_map_of_mem
        (f := fun p : Param Term => { p with type := p.type.fill false f }) hp)
      exact .inr (by dsimp only at hmem; omega)
    · have hresult' := hle result (ihr hresult)
      exact .inr (by omega)
  | eq lhs rhs ihl ihr =>
    simp only [fill, size]
    rcases shows_eq.mp hi with hlhs | hrhs
    · have hlhs' := hle lhs (ihl hlhs)
      exact .inr (by omega)
    · have hrhs' := hle rhs (ihr hrhs)
      exact .inr (by omega)
  | refl value ih =>
    simp only [fill, size]
    have hvalue := hle value (ih (shows_refl.mp hi))
    exact .inr (by omega)

/-- Filling holes makes no term smaller. -/
theorem size_le_size_fill (f : HoleId → Term) (t : Term) : t.size ≤ (t.fill false f).size := by
  induction t using induct with
  | missing | const | lit | bound | sort => simp [fill, size]
  | hole id => exact size_pos (f id)
  | app fn args ihf ihargs =>
    have hargs : sizeArgs args ≤ sizeArgs (fillArgs false f args) := by
      induction args with
      | nil => exact Nat.le_refl _
      | cons a args ih =>
        have ha := ihargs a (by simp)
        have hrest := ih fun b hb => ihargs b (by simp [hb])
        rw [fillArgs, sizeArgs, sizeArgs]
        omega
    rw [fill, size, size]
    omega
  | pi params result ihparams ihr =>
    have hparams : sizeParams params ≤ sizeParams (fillParams false f params) := by
      induction params with
      | nil => exact Nat.le_refl _
      | cons p params ih =>
        have hp := ihparams p (by simp)
        have hrest := ih fun q hq => ihparams q (by simp [hq])
        rw [fillParams, sizeParams, sizeParams]
        omega
    rw [fill, size, size]
    omega
  | eq lhs rhs ihl ihr =>
    rw [fill, size, size]
    omega
  | refl value ih =>
    rw [fill, size, size]
    omega

theorem shows_skeleton {t : Term} {i : HoleId} : t.skeleton.Shows i ↔ t.Shows i := by
  induction t using induct with
  | missing | const | lit | bound | sort | hole => simp [skeleton]
  | app fn args ihf ihargs =>
    simp only [skeleton, skeletonArgs_eq_map, shows_app, ihf, List.mem_map,
      exists_exists_and_eq_and]
    exact or_congr Iff.rfl (exists_congr fun a => and_congr_right (ihargs a))
  | pi params result ihparams ihr =>
    simp only [skeleton, skeletonParams_eq_map, shows_pi, ihr, List.mem_map,
      exists_exists_and_eq_and]
    exact or_congr (exists_congr fun p => and_congr_right (ihparams p)) Iff.rfl
  | eq lhs rhs ihl ihr => simp only [skeleton, shows_eq, ihl, ihr]
  | refl value ih => simp only [skeleton, shows_refl, ih]

/-- No filling makes a hole the same as a larger term that the hole occurs in. -/
theorem not_same_of_shows (f : HoleId → Term) {t : Term} {i : HoleId} (hi : t.Shows i)
    (hne : t ≠ .hole i) : ¬ (f i).Same (t.fill false f) := by
  intro hsame
  rw [Same, skeleton_fill] at hsame
  rcases size_fill_of_shows (fun i => (f i).skeleton) (shows_skeleton.mpr hi) with hhole | hlt
  · cases t with
    | hole j => exact hne (by simpa [skeleton] using hhole)
    | _ => simp [skeleton] at hhole
  · rw [← hsame] at hlt
    exact Nat.lt_irrefl _ hlt

inductive FirstOrder : Term → Prop
  | const {name : String} : FirstOrder (.const name)
  | lit {text : String} {type : Term} : FirstOrder (.lit text type)
  | bound {name : String} : FirstOrder (.bound name)
  | hole {id : HoleId} : FirstOrder (.hole id)
  | app {fn : Term} {args : List Term} (hfn : FirstOrder fn) (hargs : ∀ a ∈ args, FirstOrder a) :
    FirstOrder (.app fn args)
  | eq {lhs rhs : Term} (hlhs : FirstOrder lhs) (hrhs : FirstOrder rhs) : FirstOrder (.eq lhs rhs)
  | refl {value : Term} (hvalue : FirstOrder value) : FirstOrder (.refl value)

theorem FirstOrder.fill {f : HoleId → Term} {t : Term} (ht : t.FirstOrder)
    (hf : ∀ i, t.Shows i → (f i).FirstOrder) : (t.fill false f).FirstOrder := by
  induction ht with
  | const => exact .const
  | lit => exact .lit
  | bound => exact .bound
  | hole => exact hf _ (shows_hole.mpr rfl)
  | app _ _ ihfn ihargs =>
    rw [Term.fill, fillArgs_eq_map]
    refine .app (ihfn fun i hi => hf i (shows_app.mpr (.inl hi))) fun b hb => ?_
    obtain ⟨a, ha, rfl⟩ := List.mem_map.mp hb
    exact ihargs a ha fun i hi => hf i (shows_app.mpr (.inr ⟨a, ha, hi⟩))
  | eq _ _ ihl ihr =>
    exact .eq (ihl fun i hi => hf i (shows_eq.mpr (.inl hi)))
      (ihr fun i hi => hf i (shows_eq.mpr (.inr hi)))
  | refl _ ih => exact .refl (ih fun i hi => hf i (shows_refl.mpr hi))

theorem FirstOrder.part {t u : Term} (ht : t.FirstOrder) (hu : u.Part t) : u.FirstOrder := by
  cases ht with
  | const | lit | bound | hole => cases hu
  | app hfn hargs =>
    cases hu with
    | fn => exact hfn
    | arg ha => exact hargs _ ha
  | eq hlhs hrhs =>
    cases hu with
    | lhs => exact hlhs
    | rhs => exact hrhs
  | refl hvalue =>
    cases hu with
    | value => exact hvalue

end Term

namespace Holes

variable {h h' : Holes}

/-- Reading a term fills each of its holes with the reading of the hole. -/
theorem expand_eq_fill (h : Holes) (t : Term) :
    h.expand t = t.fill false fun i => h.expand (.hole i) := by
  unfold expand
  cases h.size with
  | zero => exact (Term.fill_hole t).symm
  | succ n => rfl

theorem part_expand (h : Holes) {t u : Term} (htu : t.Part u) : (h.expand t).Part (h.expand u) := by
  rw [h.expand_eq_fill t, h.expand_eq_fill u]
  exact htu.fill _

theorem expand_of_open {i : HoleId} (hi : h.solution? i = none) : h.expand (.hole i) = .hole i := by
  unfold expand
  cases h.size with
  | zero => rfl
  | succ n => simp only [instantiateN, Term.fill, hi]

def Acyclic (h : Holes) : Prop := ∀ i, ¬ TransGen h.Links i i

theorem Acyclic.grounded (hh : h.Acyclic) (i : HoleId) : h.Grounded i := fun j _ => hh j

/-- Reading some of the solutions first makes no difference to what is read with all of them. -/
theorem expand_expand (hh : h'.Acyclic)
    (hsolved : ∀ i u, h.solution? i = some u → h'.solution? i = some u) (t : Term) :
    h'.expand (h.expand t) = h'.expand t := by
  unfold expand
  generalize h.size = n
  change h'.expand (h.instantiateN false n t) = h'.expand t
  induction n generalizing t with
  | zero => rfl
  | succ n ih =>
    rw [instantiateN, expand_eq_fill, Term.fill_fill, h'.expand_eq_fill t]
    refine congrArg (t.fill false) (funext fun i => ?_)
    rw [← expand_eq_fill]
    cases hi : h.solution? i with
    | none => rfl
    | some u => exact (ih u).trans (expand_hole (hh.grounded i) (hsolved i u hi)).symm

/-- The holes that a reading shows are open. -/
theorem open_of_shows_expand (hh : h.Acyclic) {t : Term} {i : HoleId} (hi : (h.expand t).Shows i) :
    h.solution? i = none :=
  ((shows_expand fun j _ => hh.grounded j).mp hi).1

def Agrees (h : Holes) (f : HoleId → Term) : Prop :=
  ∀ i u, h.solution? i = some u → (f i).Same (u.fill false f)

/-- A term and its reading are filled alike. -/
theorem Agrees.fill_expand {f : HoleId → Term} (hf : h.Agrees f) (t : Term) :
    ((h.expand t).fill false f).Same (t.fill false f) := by
  unfold expand
  generalize h.size = n
  induction n generalizing t with
  | zero => rfl
  | succ n ih =>
    rw [instantiateN, Term.fill_fill]
    refine Term.Same.fill (fun i => ?_) t
    cases hi : h.solution? i with
    | none => rfl
    | some u => exact (ih u).trans (hf i u hi).symm

theorem Agrees.fill_follow {f : HoleId → Term} (hf : h.Agrees f) (t : Term) :
    ((h.follow t).fill false f).Same (t.fill false f) := by
  unfold follow
  generalize h.size = n
  induction n generalizing t with
  | zero => cases t <;> rfl
  | succ n ih =>
    cases t with
    | hole i =>
      simp only [followN]
      cases hi : h.solution? i with
      | none => rfl
      | some u => exact (ih u).trans (hf i u hi).symm
    | _ => rfl

/-- The filling that reads solutions first and then fills the open holes. -/
def through (h : Holes) (f : HoleId → Term) (i : HoleId) : Term := (h.expand (.hole i)).fill false f

theorem fill_through (h : Holes) (f : HoleId → Term) (t : Term) :
    t.fill false (h.through f) = (h.expand t).fill false f := by
  rw [expand_eq_fill, Term.fill_fill]
  rfl

theorem through_agrees (hh : h.Acyclic) (f : HoleId → Term) : h.Agrees (h.through f) := by
  intro i u hu
  rw [fill_through, through, expand_hole (hh.grounded i) hu]
  rfl

def Unifies (h : Holes) (f : HoleId → Term) (a b : Term) : Prop :=
  ((h.expand a).fill false f).Same ((h.expand b).fill false f)

end Holes

end Implicits
