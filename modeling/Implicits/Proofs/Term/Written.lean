import Implicits.Proofs.Term.Pairing

/-!
Level variables in the texts of terms. A level variable is only written as the level of a universe,
and the text of a term contains the texts of all universes in it. So where terms without holes go
together and one of them has another text than its partner, both texts name a universe whose level
is not its own partner.
-/
namespace Implicits

/-- A text in which a universe is written whose level is a variable of some kind. -/
def Writes (P : LevelVar → Prop) (text : String) : Prop :=
  ∃ v, P v ∧ ("Type " ++ v.text).toList <:+: text.toList

namespace Writes

variable {P : LevelVar → Prop} {s : String}

theorem append_left (h : Writes P s) (before : String) : Writes P (before ++ s) := by
  obtain ⟨v, hv, hinfix⟩ := h
  exact ⟨v, hv, hinfix.trans (String.toList_append ▸ (List.suffix_append _ _).isInfix)⟩

theorem append_right (h : Writes P s) (after : String) : Writes P (s ++ after) := by
  obtain ⟨v, hv, hinfix⟩ := h
  exact ⟨v, hv, hinfix.trans (String.toList_append ▸ (List.prefix_append _ _).isInfix)⟩

theorem parenthesize (h : Writes P s) (wanted : Bool) : Writes P (parenthesize wanted s) := by
  unfold Implicits.parenthesize
  split
  · exact (h.append_left _).append_right _
  · exact h

theorem intercalate (h : Writes P s) (sep : String) {parts : List String} (hs : s ∈ parts) :
    Writes P (sep.intercalate parts) := by
  induction parts with
  | nil => simp at hs
  | cons part parts ih =>
    cases parts with
    | nil =>
      obtain rfl := List.mem_singleton.mp hs
      simpa using h
    | cons next parts =>
      rw [String.intercalate_cons_cons]
      rcases List.mem_cons.mp hs with rfl | hs
      · exact (h.append_right _).append_right _
      · exact (ih hs).append_left _

theorem param (h : Writes P s) (p : Param Term) : Writes P (p.text s) := by
  unfold Param.text
  dsimp only
  split
  · exact ((h.append_left _).append_left _).append_right _
  · exact ((h.append_left _).append_left _).append_right _

end Writes

namespace Term

variable {P : LevelVar → Prop} {label : HoleId → String}

def Shown (P : LevelVar → Prop) (label : HoleId → String) (t : Term) : Prop :=
  ∀ isTight, Writes P (t.render label isTight)

theorem renderArgs_eq_map (isTight : Bool) (args : List Term) :
    renderArgs label isTight args = args.map (render label isTight) := by
  induction args with
  | nil => rfl
  | cons a args ih => rw [renderArgs, ih, List.map_cons]

theorem Shown.arg {args : List Term} {a : Term} (ha : a ∈ args) (h : a.Shown P label) (fn : Term) :
    (app fn args).Shown P label := by
  intro isTight
  have hargs : ∀ isTight, a.render label isTight ∈ renderArgs label isTight args := by
    intro isTight
    rw [renderArgs_eq_map]
    exact List.mem_map_of_mem ha
  rw [render]
  split
  · exact ((h true).intercalate _ (hargs true)).parenthesize _
  · exact (((h false).intercalate _ (hargs false)).append_left _).append_right _

theorem Shown.fn {fn : Term} (hfn : fn.operator? = none) (h : fn.Shown P label) (args : List Term) :
    (app fn args).Shown P label := by
  intro isTight
  rw [render, hfn]
  exact (((h true).append_right _).append_right _).append_right _

theorem Shown.type {params : List (Param Term)} {p : Param Term} (hp : p ∈ params)
    (h : p.type.Shown P label) (result : Term) : (pi params result).Shown P label := by
  have hparams : Writes P (renderParams label params) := by
    induction params with
    | nil => simp at hp
    | cons q params ih =>
      rw [renderParams]
      rcases List.mem_cons.mp hp with rfl | hp
      · exact (((h false).param _).append_right _).append_right _
      · exact (ih hp).append_left _
  intro isTight
  rw [render]
  exact (hparams.append_right _).parenthesize _

theorem Shown.result {result : Term} (h : result.Shown P label) (params : List (Param Term)) :
    (pi params result).Shown P label := by
  intro isTight
  rw [render]
  exact ((h false).append_left _).parenthesize _

/-- Lists of entries that are equal or marked on both sides are equal or have marked entries. -/
theorem eq_or_exists_of_forall₂ {α : Type} {p q : α → Prop} {xs ys : List α}
    (h : List.Forall₂ (fun x y => x = y ∨ p x ∧ q y) xs ys) :
    xs = ys ∨ (∃ x ∈ xs, p x) ∧ ∃ y ∈ ys, q y := by
  induction h with
  | nil => exact .inl rfl
  | cons hxy _ ih =>
    rcases hxy with rfl | ⟨hx, hy⟩
    · rcases ih with rfl | ⟨⟨a, ha, hpa⟩, b, hb, hqb⟩
      · exact .inl rfl
      · exact .inr ⟨⟨a, List.mem_cons_of_mem _ ha, hpa⟩, b, List.mem_cons_of_mem _ hb, hqb⟩
    · exact .inr ⟨⟨_, List.mem_cons_self, hx⟩, _, List.mem_cons_self, hy⟩

/-- Terms without holes that go together are equal, or both of them show a level variable that has a
partner other than itself. -/
theorem Paired.eq_or_shown {ρ : Pairing}
    (hlevel : ∀ v w, ρ.level v w → v = w ∨ P v ∧ P w) {a b : Term}
    (h : a.Paired ρ b) (ha : a.anyHole (fun _ => true) = false) (label label' : HoleId → String) :
    a = b ∨ a.Shown P label ∧ b.Shown P label' := by
  induction h using induct with
  | missing | const | lit | bound => exact .inl rfl
  | hole => simp [anyHole] at ha
  | app f g xs ys hfn ihf ihargs =>
    rw [anyHole, Bool.or_eq_false_iff, anyHoleArgs_eq_false] at ha
    obtain ⟨hf, hxs⟩ := ha
    have hargs : xs = ys ∨ (∃ x ∈ xs, x.Shown P label) ∧ ∃ y ∈ ys, y.Shown P label' := by
      refine eq_or_exists_of_forall₂ (forall₂_of_zip ihargs.length_eq fun e he => ?_)
      obtain ⟨_, hxy⟩ := forall_zip_of_forall₂ ihargs e he
      exact hxy (hxs e.1 (List.of_mem_zip he).1)
    rcases hargs with rfl | ⟨⟨x, hx, hshown⟩, y, hy, hshown'⟩
    · rcases ihf hf with rfl | ⟨hshown, hshown'⟩
      · exact .inl rfl
      · -- The name of an operator is written between its arguments, but names are the same on
        -- both sides.
        cases hfn with
        | const => exact .inl rfl
        | _ => exact .inr ⟨hshown.fn rfl _, hshown'.fn rfl _⟩
    · exact .inr ⟨hshown.arg hx f, hshown'.arg hy g⟩
  | pi ps qs r s _ iht ihr =>
    rw [anyHole, Bool.or_eq_false_iff, anyHoleParams_eq_false] at ha
    obtain ⟨hps, hr⟩ := ha
    have hparams : ps = qs ∨ (∃ p ∈ ps, p.type.Shown P label) ∧
        ∃ q ∈ qs, q.type.Shown P label' := by
      refine eq_or_exists_of_forall₂ (forall₂_of_zip iht.length_eq fun e he => ?_)
      obtain ⟨hpq, htype⟩ := forall_zip_of_forall₂ iht e he
      exact (htype (hps e.1 (List.of_mem_zip he).1)).imp_left hpq.toSameShape.eq_of_type
    rcases hparams with rfl | ⟨⟨p, hp, hshown⟩, q, hq, hshown'⟩
    · rcases ihr hr with rfl | ⟨hshown, hshown'⟩
      · exact .inl rfl
      · exact .inr ⟨hshown.result _, hshown'.result _⟩
    · exact .inr ⟨hshown.type hp r, hshown'.type hq s⟩
  | sort u v huv =>
    cases huv with
    | unassigned => exact .inl rfl
    | level hlm =>
      cases hlm with
      | const => exact .inl rfl
      | @var v w hvw =>
        rcases hlevel v w hvw with rfl | ⟨hv, hw⟩
        · exact .inl rfl
        · exact .inr ⟨fun _ => ⟨v, hv, List.infix_refl _⟩, fun _ => ⟨w, hw, List.infix_refl _⟩⟩
  | eq a b l r _ _ ihl ihr =>
    rw [anyHole, Bool.or_eq_false_iff] at ha
    rcases ihl ha.1 with rfl | ⟨hshown, hshown'⟩
    · rcases ihr ha.2 with rfl | ⟨hshown, hshown'⟩
      · exact .inl rfl
      · exact .inr ⟨fun _ => ((hshown true).append_left _).parenthesize _,
          fun _ => ((hshown' true).append_left _).parenthesize _⟩
    · exact .inr ⟨fun _ => (((hshown true).append_right _).append_right _).parenthesize _,
        fun _ => (((hshown' true).append_right _).append_right _).parenthesize _⟩
  | refl a b _ ih =>
    rcases ih ha with rfl | ⟨hshown, hshown'⟩
    · exact .inl rfl
    · exact .inr ⟨fun _ => ((hshown false).append_left _).append_right _,
        fun _ => ((hshown' false).append_left _).append_right _⟩

/-- The text of a term without holes does not depend on the texts of holes. -/
theorem render_congr {t : Term} (ht : t.anyHole (fun _ => true) = false)
    (label label' : HoleId → String) (isTight : Bool) :
    t.render label isTight = t.render label' isTight := by
  induction t using induct generalizing isTight with
  | missing | const | lit | bound | sort => rfl
  | hole => simp [anyHole] at ht
  | app fn args ihf ihargs =>
    rw [anyHole, Bool.or_eq_false_iff, anyHoleArgs_eq_false] at ht
    have hargs : ∀ isTight, renderArgs label isTight args = renderArgs label' isTight args := by
      intro isTight
      obtain ⟨-, ht⟩ := ht
      clear ihf
      induction args with
      | nil => rfl
      | cons a args ih =>
        rw [renderArgs, renderArgs, ihargs a (by simp) (ht a (by simp)),
          ih (fun b hb => ihargs b (by simp [hb])) fun b hb => ht b (by simp [hb])]
    rw [render, render, ihf ht.1, hargs, hargs]
  | pi params result ihparams ihr =>
    rw [anyHole, Bool.or_eq_false_iff, anyHoleParams_eq_false] at ht
    have hparams : renderParams label params = renderParams label' params := by
      obtain ⟨ht, -⟩ := ht
      clear ihr
      induction params with
      | nil => rfl
      | cons p params ih =>
        rw [renderParams, renderParams, ihparams p (by simp) (ht p (by simp)),
          ih (fun q hq => ihparams q (by simp [hq])) fun q hq => ht q (by simp [hq])]
    rw [render, render, ihr ht.2, hparams]
  | eq lhs rhs ihl ihr =>
    rw [anyHole, Bool.or_eq_false_iff] at ht
    rw [render, render, ihl ht.1, ihr ht.2]
  | refl value ih => rw [render, render, ih ht]

/-- Where level variables go together with themselves only, terms without holes outside the types of
literals are the same. -/
theorem Paired.eq_of_anyHole {ρ : Pairing} (hlevel : ∀ v w, ρ.level v w → v = w) {a b : Term}
    (h : a.Paired ρ b) (ha : a.anyHole (fun _ => true) = false) : a = b := by
  have hnever : ∀ label, ¬ a.Shown (fun _ => False) label := fun label hshown => by
    obtain ⟨_, hfalse, _⟩ := hshown false
    exact hfalse
  rcases h.eq_or_shown (fun v w hvw => .inl (hlevel v w hvw)) ha (fun _ => "") (fun _ => "") with
    heq | ⟨hshown, _⟩
  · exact heq
  · exact absurd hshown (hnever _)

end Term

theorem Term.HoleFree.anyHole {t : Term} (ht : t.HoleFree) : t.anyHole (fun _ => true) = false := by
  rw [Bool.eq_false_iff]
  intro hany
  obtain ⟨i, hi, -⟩ := Term.anyHole_iff.mp hany
  exact ht.not_shows i hi

theorem Holes.text_of_holeFree {t : Term} (ht : t.HoleFree) (h h' : Holes) :
    h.text t = h'.text t := by
  unfold Holes.text
  split
  · rfl
  · rw [h.expand_of_holeFree ht, h'.expand_of_holeFree ht]
    exact Term.render_congr ht.anyHole _ _ false

theorem Check.conversionKey_of_holeFree {source target : Term} (hsource : source.HoleFree)
    (htarget : target.HoleFree) (h h' : Holes) :
    conversionKey h source target = conversionKey h' source target := by
  rw [conversionKey, conversionKey, Holes.text_of_holeFree hsource h h',
    Holes.text_of_holeFree htarget h h']

end Implicits
