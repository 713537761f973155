import Mathlib.Data.Finset.Card
import Implicits.Solver.Unify
import Implicits.Proofs.Solver.Normalize
import Implicits.Proofs.Term.Unifier

/-!
Equations between first-order terms. A table solves equations if the fillings that agree with it are
those that agree with the table before and make both sides the same. The depth of terms under a
table is bounded: a path that passes a solved hole never comes back to it, so it passes each hole
once.
-/
namespace Implicits

open Relation Term

namespace Holes

variable {env : Declarations} {h h' h'' : Holes} {a b t u : Term} {M n : Nat}

/-- A term that is read as a first-order term over holes of the table that do not range over types.
-/
structure Plain (env : Declarations) (h : Holes) (t : Term) : Prop where
  firstOrder : (h.expand t).FirstOrder
  made : ∀ i, (h.expand t).Shows i → i < h.size
  untyped : ∀ i, (h.expand t).Shows i → (h.normalize env (h.type i)).universeLevel? = none

/-- The terms at hand when a comparison begins, as they are read then: a bound for their size, and
their open holes. -/
structure Horizon where
  table : Holes
  acyclic : table.Acyclic
  holes : Finset HoleId
  bound : Nat

namespace Horizon

structure Within (H : Horizon) (t : Term) : Prop where
  size : (H.table.expand t).size ≤ H.bound
  shows : ∀ i, (H.table.expand t).Shows i → i ∈ H.holes

theorem Within.part {H : Horizon} (ht : H.Within t) (hu : u.Part t) : H.Within u where
  size := (H.table.part_expand hu).size_lt.le.trans ht.size
  shows i hi := ht.shows i ((H.table.part_expand hu).shows hi)

/-- A later table in which only open holes of the horizon have been solved, by terms inside the
bounds. -/
structure Bounds (H : Horizon) (h : Holes) : Prop where
  kept : ∀ i u, H.table.solution? i = some u → h.solution? i = some u
  within : ∀ i u, H.table.solution? i = none → h.solution? i = some u → i ∈ H.holes ∧ H.Within u

/-- What a chain of solutions leads to stays inside the bounds. -/
theorem Bounds.within_followN {H : Horizon} (hH : H.Bounds h) (ht : H.Within t) (k : Nat) :
    H.Within (h.followN k t) := by
  induction k generalizing t with
  | zero => cases t <;> exact ht
  | succ k ih =>
    cases t with
    | hole i =>
      simp only [followN]
      cases hi : h.solution? i with
      | none => exact ht
      | some u =>
        refine ih ?_
        cases hi' : H.table.solution? i with
        | none => exact (hH.within i u hi' hi).2
        | some w =>
          obtain rfl := Option.some.inj ((hH.kept i w hi').symm.trans hi)
          have hread := expand_hole (H.acyclic.grounded i) hi'
          exact ⟨hread ▸ ht.size, hread ▸ ht.shows⟩
    | _ => exact ht

end Horizon

def Holds (f : HoleId → Term) (eqs : List (Term × Term)) : Prop :=
  ∀ e ∈ eqs, (e.1.fill false f).Same (e.2.fill false f)

/-- A later table whose new solutions are equivalent to some equations. Where the depth was enough,
they are parts of the terms at hand. -/
structure Unified (env : Declarations) (enough : Prop) (h h' : Holes) (eqs : List (Term × Term)) :
    Prop where
  size : h'.size = h.size
  type : ∀ i, h'.type i = h.type i
  solved : ∀ i u, h.solution? i = some u → h'.solution? i = some u
  acyclic : h'.Acyclic
  exact : ∀ f, h'.Agrees f ↔ h.Agrees f ∧ Holds f eqs
  plain : ∀ t, h.Plain env t → h'.Plain env t
  bounded : enough → ∀ H : Horizon, H.Bounds h →
    (∀ e ∈ eqs, H.Within e.1 ∧ H.Within e.2) → H.Bounds h'

namespace Unified

variable {eqs eqs' : List (Term × Term)} {enough enough' : Prop}

theorem refl (hh : h.Acyclic) (heqs : ∀ f, Holds f eqs) : Unified env enough h h eqs where
  size := rfl
  type _ := rfl
  solved _ _ hi := hi
  acyclic := hh
  exact f := (and_iff_left (heqs f)).symm
  plain _ ht := ht
  bounded _ _ hM _ := hM

theorem trans (hu : Unified env enough h h' eqs) (hu' : Unified env enough h' h'' eqs') :
    Unified env enough h h'' (eqs ++ eqs') where
  size := hu'.size.trans hu.size
  type i := (hu'.type i).trans (hu.type i)
  solved i u hi := hu'.solved i u (hu.solved i u hi)
  acyclic := hu'.acyclic
  exact f := by
    rw [hu'.exact, hu.exact, and_assoc]
    exact and_congr_right fun _ => List.forall_mem_append.symm
  plain t ht := hu'.plain t (hu.plain t ht)
  bounded hen H hH heqs :=
    hu'.bounded hen H (hu.bounded hen H hH fun e he => heqs e (List.mem_append_left _ he))
      fun e he => heqs e (List.mem_append_right _ he)

/-- Equations that the same fillings satisfy can stand for each other, if theirs are not the smaller
terms. -/
theorem of_iff (hu : Unified env enough h h' eqs)
    (hiff : ∀ f, h.Agrees f → (Holds f eqs ↔ Holds f eqs'))
    (hwithin : ∀ H : Horizon, H.Bounds h → (∀ e ∈ eqs', H.Within e.1 ∧ H.Within e.2) →
      ∀ e ∈ eqs, H.Within e.1 ∧ H.Within e.2) : Unified env enough h h' eqs' :=
  { hu with
    exact := fun f => (hu.exact f).trans (and_congr_right (hiff f))
    bounded := fun hen H hH heqs => hu.bounded hen H hH (hwithin H hH heqs) }

theorem mono (hu : Unified env enough h h' eqs) (hen : enough' → enough) :
    Unified env enough' h h' eqs :=
  { hu with bounded := fun hen' => hu.bounded (hen hen') }

end Unified

def Clash (h : Holes) (eqs : List (Term × Term)) : Prop := ∀ f, h.Agrees f → ¬ Holds f eqs

section Solve

variable {v : HoleId} {enough : Prop}

theorem solution?_setSolution_of_some {x : Option Term} {i : HoleId} (hopen : h.solution? v = none)
    (hi : h.solution? i = some u) : (h.setSolution v x).solution? i = some u := by
  have hne : v ≠ i := by
    rintro rfl
    simp [hopen] at hi
  rwa [solution?_setSolution, if_neg hne]

theorem solution?_setSolution_self (hlt : v < h.size) :
    (h.setSolution v (some t)).solution? v = some t := by
  rw [solution?_setSolution, if_pos rfl, if_pos hlt]

/-- The only new solution is the one that was given. -/
theorem new_or_old_of_setSolution {i : HoleId} (hlt : v < h.size)
    (hi : (h.setSolution v (some t)).solution? i = some u) :
    i = v ∧ u = t ∨ h.solution? i = some u := by
  by_cases heq : i = v
  · subst heq
    rw [solution?_setSolution_self hlt] at hi
    exact .inl ⟨rfl, (Option.some.inj hi).symm⟩
  · rw [solution?_setSolution, if_neg (Ne.symm heq)] at hi
    exact .inr hi

theorem agrees_solve (hopen : h.solution? v = none) (hlt : v < h.size) (f : HoleId → Term) :
    (h.setSolution v (some t)).Agrees f ↔ h.Agrees f ∧ Holds f [(.hole v, t)] := by
  have hsingle : Holds f [(.hole v, t)] ↔ (f v).Same (t.fill false f) := by
    simp [Holds, fill]
  rw [hsingle]
  constructor
  · intro hf
    exact ⟨fun i u hi => hf i u (solution?_setSolution_of_some hopen hi),
      hf v t (solution?_setSolution_self hlt)⟩
  · intro hf i u hi
    rcases new_or_old_of_setSolution hlt hi with ⟨rfl, rfl⟩ | hi
    · exact hf.2
    · exact hf.1 i u hi

/-- After a hole has been solved, its solution is read in its place. -/
theorem expand_setSolution (hh : h.Acyclic) (hopen : h.solution? v = none) (hlt : v < h.size)
    (hocc : h.occurs v t = false) (u : Term) :
    (h.setSolution v (some t)).expand u =
      (h.expand u).fill false fun i => if i = v then h.expand t else .hole i := by
  have hsolved : ∀ i w, h.solution? i = some w → (h.setSolution v (some t)).solution? i = some w :=
    fun _ _ hi => solution?_setSolution_of_some hopen hi
  have hacyclic : (h.setSolution v (some t)).Acyclic := fun i =>
    not_transGen_setSolution hopen (fun j _ => hh.grounded j) hocc (hh i)
  have hother : ∀ i, h.solution? i = none → i ≠ v →
      (h.setSolution v (some t)).expand (.hole i) = .hole i := by
    intro i hi hne
    apply expand_of_open
    rwa [solution?_setSolution, if_neg (Ne.symm hne)]
  have hread : ∀ w : Term, (∀ i, (h.expand w).Shows i → i ≠ v) →
      (h.setSolution v (some t)).expand w = h.expand w := by
    intro w hw
    rw [← expand_expand hacyclic hsolved, expand_eq_fill]
    conv_rhs => rw [← fill_hole (h.expand w)]
    exact fill_congr fun i hi => hother i (open_of_shows_expand hh hi) (hw i hi)
  rw [← expand_expand hacyclic hsolved, expand_eq_fill]
  refine fill_congr fun i hi => ?_
  by_cases heq : i = v
  · subst heq
    rw [if_pos rfl, expand_hole (hacyclic.grounded i) (solution?_setSolution_self hlt)]
    refine hread t fun j hj => ?_
    rintro rfl
    have hoccurs : h.occurs j t = true := hj
    simp [hocc] at hoccurs
  · rw [if_neg heq]
    exact hother i (open_of_shows_expand hh hi) heq

theorem not_universe_of_firstOrder (ht : t.FirstOrder) : t.universeLevel? = none := by
  cases ht <;> rfl

theorem universeLevel?_fill {f : HoleId → Term} (ht : t.universeLevel? = none)
    (hf : ∀ i, t.Shows i → (f i).universeLevel? = none) :
    (t.fill false f).universeLevel? = none := by
  cases t with
  | hole i => exact hf i (shows_hole.mpr rfl)
  | sort u => exact ht
  | _ => rfl

/-- A hole of the new reading is one of the old reading or of the solution. -/
theorem shows_expand_setSolution (hh : h.Acyclic) (hopen : h.solution? v = none) (hlt : v < h.size)
    (hocc : h.occurs v t = false) {i : HoleId}
    (hi : ((h.setSolution v (some t)).expand u).Shows i) :
    (h.expand u).Shows i ∨ (h.expand t).Shows i := by
  rw [expand_setSolution hh hopen hlt hocc, shows_fill] at hi
  obtain ⟨j, hj, hi⟩ := hi
  by_cases heq : j = v
  · rw [if_pos heq] at hi
    exact .inr hi
  · rw [if_neg heq, shows_hole] at hi
    exact .inl (hi ▸ hj)

/-- Plain terms stay plain when a hole is solved by one. -/
theorem Plain.setSolution (hu : h.Plain env u) (henv : ∀ name args, env.reduce? name args = none)
    (hh : h.Acyclic) (hopen : h.solution? v = none) (hlt : v < h.size) (ht : h.Plain env t)
    (hocc : h.occurs v t = false) : (h.setSolution v (some t)).Plain env u := by
  have hread := expand_setSolution hh hopen hlt hocc
  have huntyped : ∀ w : Term, (h.normalize env w).universeLevel? = none →
      ((h.setSolution v (some t)).normalize env w).universeLevel? = none := by
    intro w hw
    rw [normalize_eq_expand henv] at hw ⊢
    rw [hread]
    refine universeLevel?_fill hw fun i _ => ?_
    split
    · exact not_universe_of_firstOrder ht.firstOrder
    · rfl
  refine ⟨?_, fun i hi => ?_, fun i hi => ?_⟩
  · rw [hread]
    refine hu.firstOrder.fill fun i _ => ?_
    split
    · exact ht.firstOrder
    · exact .hole
  · rw [size_setSolution]
    rcases shows_expand_setSolution hh hopen hlt hocc hi with hold | hnew
    · exact hu.made i hold
    · exact ht.made i hnew
  · rw [type_setSolution]
    rcases shows_expand_setSolution hh hopen hlt hocc hi with hold | hnew
    · exact huntyped _ (hu.untyped i hold)
    · exact huntyped _ (ht.untyped i hnew)

theorem Horizon.Bounds.setSolution {H : Horizon} (hH : H.Bounds h) (hopen : h.solution? v = none)
    (hlt : v < h.size) (hv : H.Within (.hole v)) (ht : H.Within t) :
    H.Bounds (h.setSolution v (some t)) where
  kept i u hi := solution?_setSolution_of_some hopen (hH.kept i u hi)
  within i u hi' hi := by
    rcases new_or_old_of_setSolution hlt hi with ⟨rfl, rfl⟩ | hi
    · refine ⟨hv.shows i ?_, ht⟩
      rw [expand_of_open hi']
      exact shows_hole.mpr rfl
    · exact hH.within i u hi' hi

/-- Solving an open hole by a term in which it does not occur is equivalent to one equation. -/
theorem unified_solve (henv : ∀ name args, env.reduce? name args = none) (hh : h.Acyclic)
    (hopen : h.solution? v = none) (hlt : v < h.size) (ht : h.Plain env t)
    (hocc : h.occurs v t = false) : Unified env enough h (h.solve v t) [(.hole v, t)] := by
  have hsome : t.toOption = some t := by
    have hfirst := ht.firstOrder
    cases t with
    | missing =>
      rw [expand_eq_fill] at hfirst
      cases hfirst
    | _ => rfl
  rw [solve, hsome]
  exact
    { size := size_setSolution _ _ _
      type := type_setSolution _ _ _
      solved := fun _ _ hi => solution?_setSolution_of_some hopen hi
      acyclic := fun i => not_transGen_setSolution hopen (fun j _ => hh.grounded j) hocc (hh i)
      exact := agrees_solve hopen hlt
      plain := fun _ hu => hu.setSolution henv hh hopen hlt ht hocc
      bounded := fun _ H hH heqs =>
        hH.setSolution hopen hlt (heqs _ (List.mem_singleton_self _)).1
          (heqs _ (List.mem_singleton_self _)).2 }

/-- A hole that occurs in another term cannot become the same. -/
theorem clash_of_occurs (hocc : h.occurs v t = true) (hne : h.expand t ≠ .hole v) :
    h.Clash [(.hole v, t)] := by
  intro f hf hholds
  have hsame : (f v).Same (t.fill false f) := hholds _ (List.mem_singleton_self _)
  exact not_same_of_shows f hocc hne (hsame.trans (hf.fill_expand t).symm)

end Solve

section Equations

variable {f : HoleId → Term} {enough : Prop}

theorem holds_singleton : Holds f [(a, b)] ↔ (a.fill false f).Same (b.fill false f) := by
  simp [Holds]

theorem clash_of_not_same (hne : ∀ f, ¬ (a.fill false f).Same (b.fill false f)) :
    h.Clash [(a, b)] := fun f _ hholds => hne f (hholds (a, b) (List.mem_singleton_self _))

theorem holds_congr {a' b' : Term} (hleft : (a'.fill false f).Same (a.fill false f))
    (hright : (b'.fill false f).Same (b.fill false f)) :
    Holds f [(a', b')] ↔ Holds f [(a, b)] := by
  rw [holds_singleton, holds_singleton]
  exact ⟨fun hsame => hleft.symm.trans (hsame.trans hright),
    fun hsame => hleft.trans (hsame.trans hright.symm)⟩

theorem holds_swap : Holds f [(a, b)] ↔ Holds f [(b, a)] := by
  rw [holds_singleton, holds_singleton]
  exact ⟨Same.symm, Same.symm⟩

theorem map_eq_map_iff {α β : Type} (F : α → β) {xs ys : List α} (hlen : xs.length = ys.length) :
    xs.map F = ys.map F ↔ ∀ e ∈ xs.zip ys, F e.1 = F e.2 := by
  induction xs generalizing ys with
  | nil =>
    obtain rfl := List.length_eq_zero_iff.mp hlen.symm
    simp
  | cons x xs ih =>
    cases ys with
    | nil => simp at hlen
    | cons y ys =>
      rw [List.map_cons, List.map_cons, List.cons.injEq, ih (by simpa using hlen),
        List.zip_cons_cons,
        List.forall_mem_cons]

/-- Applications are the same if their functions and arguments are. -/
theorem holds_app {fn fn' : Term} {xs ys : List Term} (hlen : xs.length = ys.length) :
    Holds f ([(fn, fn')] ++ xs.zip ys) ↔ Holds f [(.app fn xs, .app fn' ys)] := by
  have hargs := map_eq_map_iff (fun x : Term => (x.fill false f).skeleton) hlen
  simp only [Holds, List.singleton_append, List.forall_mem_cons, List.not_mem_nil, false_imp_iff,
    implies_true, and_true, Same, fill, skeleton, fillArgs_eq_map,
    skeletonArgs_eq_map, List.map_map,
    app.injEq]
  exact and_congr_right fun _ => hargs.symm

/-- To satisfy an equation through the table is to unify its sides. -/
theorem holds_through : Holds (h.through f) [(a, b)] ↔ h.Unifies f a b := by
  rw [holds_singleton, fill_through, fill_through]
  rfl

/-- The new solutions are a most general unifier: every unifier of the open holes fills a hole as it
fills what the hole has become. -/
theorem factors_of_unified (hh : h.Acyclic) (hu : Unified env enough h h' [(a, b)])
    (hf : h.Unifies f a b) {i : HoleId} (hi : h.solution? i = none) :
    (f i).Same ((h'.expand (.hole i)).fill false f) := by
  have hopen : ∀ j, h.solution? j = none → h.through f j = f j := by
    intro j hj
    rw [through, expand_of_open hj, fill]
  have hagrees : h'.Agrees (h.through f) :=
    (hu.exact _).mpr ⟨through_agrees hh f, holds_through.mpr hf⟩
  have hread := hagrees.fill_expand (.hole i)
  rw [fill, hopen i hi] at hread
  have hfill : (h'.expand (.hole i)).fill false (h.through f) =
      (h'.expand (.hole i)).fill false f := by
    refine fill_congr fun j hj => hopen j ?_
    cases hj' : h.solution? j with
    | none => rfl
    | some u =>
      have hnone := open_of_shows_expand hu.acyclic hj
      rw [hu.solved j u hj'] at hnone
      cases hnone
  exact hfill ▸ hread.symm

end Equations

section Parts

/-- A term that shows no other holes than a plain term is plain if it is first-order. -/
theorem Plain.of_shows (ht : h.Plain env t) (hfirst : (h.expand u).FirstOrder)
    (hshows : ∀ i, (h.expand u).Shows i → (h.expand t).Shows i) : h.Plain env u :=
  ⟨hfirst, fun i hi => ht.made i (hshows i hi), fun i hi => ht.untyped i (hshows i hi)⟩

theorem Plain.part (ht : h.Plain env t) (hu : u.Part t) : h.Plain env u :=
  ht.of_shows (ht.firstOrder.part (h.part_expand hu)) fun _ hi => (h.part_expand hu).shows hi

theorem Plain.follow (hh : h.Acyclic) (ht : h.Plain env t) : h.Plain env (h.follow t) := by
  have hread := expand_follow (h := h) (t := t) fun i _ => hh.grounded i
  exact ht.of_shows (by rw [hread]; exact ht.firstOrder) fun i hi => by rwa [hread] at hi

theorem Plain.expand (hh : h.Acyclic) (ht : h.Plain env t) : h.Plain env (h.expand t) := by
  have hread : h.expand (h.expand t) = h.expand t := expand_expand hh (fun _ _ hi => hi) t
  exact ht.of_shows (by rw [hread]; exact ht.firstOrder) fun i hi => by rwa [hread] at hi

end Parts

section Depth

variable {H : Horizon} {passed : Finset HoleId}

/-- The depth `n` suffices for comparing two terms behind some solved holes that the left one was
reached through: these are not met again, and between two holes a path stays inside a term of a
bounded size. -/
structure Fits (h : Holes) (H : Horizon) (passed : Finset HoleId) (n : Nat)
    (a b : Term) : Prop where
  made : passed ⊆ H.holes
  behind : ∀ w ∈ passed, ∀ i, a.Shows i → TransGen h.Links w i
  bounds : H.Bounds h
  left : H.Within a
  right : H.Within b
  depth : (H.holes.card - passed.card) * H.bound + (H.table.expand a).size ≤ n

theorem Fits.part {x y : Term} (hf : h.Fits H passed (n + 1) a b) (hx : x.Part a) (hy : y.Part b) :
    h.Fits H passed n x y where
  made := hf.made
  behind w hw i hi := hf.behind w hw i (hx.shows hi)
  bounds := hf.bounds
  left := hf.left.part hx
  right := hf.right.part hy
  depth := by
    have hdepth := hf.depth
    have hsize := (H.table.part_expand hx).size_lt
    omega

theorem Fits.unified {eqs : List (Term × Term)} {enough : Prop} (hf : h.Fits H passed n a b)
    (hu : Unified env enough h h' eqs) (hen : enough)
    (heqs : ∀ e ∈ eqs, H.Within e.1 ∧ H.Within e.2) :
    h'.Fits H passed n a b where
  made := hf.made
  behind w hw i hi := by
    refine TransGen.mono ?_ _ _ (hf.behind w hw i hi)
    intro j k hjk
    obtain ⟨u, hj, hk⟩ := hjk
    exact ⟨u, hu.solved j u hj, hk⟩
  bounds := hu.bounded hen H hf.bounds heqs
  left := hf.left
  right := hf.right
  depth := hf.depth

/-- Passing a hole that was open at the beginning costs a share of the depth, and the hole has not
been passed before. -/
theorem Fits.followN (hh : h.Acyclic) (hf : h.Fits H passed n a b) (k : Nat) :
    ∃ passed', h.Fits H passed' n (h.followN k a) b := by
  induction k generalizing passed a with
  | zero => cases a <;> exact ⟨passed, hf⟩
  | succ k ih =>
    cases a with
    | hole i =>
      simp only [Holes.followN]
      cases hi : h.solution? i with
      | none => exact ⟨passed, hf⟩
      | some u =>
        have hlink : ∀ j, u.Shows j → h.Links i j := fun j hj => ⟨u, hi, hj⟩
        have hbehind : ∀ w ∈ passed, ∀ j, u.Shows j → TransGen h.Links w j :=
          fun w hw j hj => (hf.behind w hw i (shows_hole.mpr rfl)).tail (hlink j hj)
        cases hi' : H.table.solution? i with
        | some w =>
          obtain rfl := Option.some.inj ((hf.bounds.kept i w hi').symm.trans hi)
          have hread := expand_hole (H.acyclic.grounded i) hi'
          have hleft := hf.left
          have hdepth := hf.depth
          refine ih ⟨hf.made, hbehind, hf.bounds, ⟨?_, ?_⟩, hf.right, ?_⟩
          · exact hread ▸ hleft.size
          · exact hread ▸ hleft.shows
          · exact hread ▸ hdepth
        | none =>
          obtain ⟨hmem, hwithin⟩ := hf.bounds.within i u hi' hi
          have hnew : i ∉ passed := fun hin => hh i (hf.behind i hin i (shows_hole.mpr rfl))
          have hmade : insert i passed ⊆ H.holes := Finset.insert_subset hmem hf.made
          refine ih ⟨hmade, ?_, hf.bounds, hwithin, hf.right, ?_⟩
          · intro w hw j hj
            rcases Finset.mem_insert.mp hw with rfl | hw
            · exact .single (hlink j hj)
            · exact hbehind w hw j hj
          · have hcard : passed.card + 1 ≤ H.holes.card := by
              rw [← Finset.card_insert_of_notMem hnew]
              exact Finset.card_le_card hmade
            obtain ⟨m, hm⟩ : ∃ m, H.holes.card - passed.card = m + 1 :=
              ⟨H.holes.card - passed.card - 1, by omega⟩
            have hdepth := hf.depth
            have hsize := hwithin.size
            rw [hm, Nat.add_mul, Nat.one_mul] at hdepth
            rw [Finset.card_insert_of_notMem hnew,
              show H.holes.card - (passed.card + 1) = m by omega]
            omega
    | _ => exact ⟨passed, hf⟩

theorem Fits.follow (hh : h.Acyclic) (hf : h.Fits H passed n a b) :
    ∃ passed', h.Fits H passed' n (h.follow a) (h.follow b) := by
  obtain ⟨passed', hfits⟩ := hf.followN hh h.size
  exact ⟨passed', { hfits with right := hf.bounds.within_followN hf.right h.size }⟩

def AtMost (n : Nat) (P : HoleId → Prop) : Prop :=
  ∃ U : Finset HoleId, U.card ≤ n ∧ ∀ i, P i → i ∈ U

namespace AtMost

variable {m n : Nat} {P Q : HoleId → Prop}

theorem mono (h : AtMost m P) (hmn : m ≤ n) (hQP : ∀ i, Q i → P i) : AtMost n Q := by
  obtain ⟨U, hcard, hU⟩ := h
  exact ⟨U, hcard.trans hmn, fun i hi => hU i (hQP i hi)⟩

theorem empty (hP : ∀ i, ¬ P i) : AtMost 0 P := ⟨∅, by simp, fun i hi => absurd hi (hP i)⟩

theorem or (h : AtMost m P) (h' : AtMost n Q) : AtMost (m + n) fun i => P i ∨ Q i := by
  obtain ⟨U, hcard, hU⟩ := h
  obtain ⟨V, hcard', hV⟩ := h'
  refine ⟨U ∪ V, (Finset.card_union_le U V).trans (Nat.add_le_add hcard hcard'), ?_⟩
  rintro i (hi | hi)
  · exact Finset.mem_union_left _ (hU i hi)
  · exact Finset.mem_union_right _ (hV i hi)

theorem exists_mem {α : Type} {l : List α} {size : α → Nat} {P : α → HoleId → Prop}
    (h : ∀ x ∈ l, AtMost (size x) (P x)) :
    AtMost (l.foldr (fun x n => size x + n) 0) fun i => ∃ x ∈ l, P x i := by
  induction l with
  | nil => exact empty (by simp)
  | cons x l ih =>
    have hrest := ih fun y hy => h y (by simp [hy])
    exact ((h x (by simp)).or hrest).mono (Nat.le_refl _) (by simp)

end AtMost

/-- A term does not show more holes than it has nodes. -/
theorem atMost_shows (t : Term) : AtMost t.size t.Shows := by
  induction t using induct with
  | missing | const | lit | bound | sort =>
    exact (AtMost.empty (by simp)).mono (Nat.zero_le _) fun _ h => h
  | hole id => exact ⟨{id}, by simp [Term.size], by simp [eq_comm]⟩
  | app fn args ihf ihargs =>
    refine (ihf.or (.exists_mem ihargs)).mono ?_ fun i => shows_app.mp
    rw [Term.size, sizeArgs_eq_foldr]
    omega
  | pi params result ihparams ihr =>
    refine ((AtMost.exists_mem ihparams).or ihr).mono ?_ fun i => shows_pi.mp
    rw [Term.size, sizeParams_eq_foldr]
    omega
  | eq lhs rhs ihl ihr => exact (ihl.or ihr).mono (Nat.le_succ _) fun i => shows_eq.mp
  | refl value ih => exact ih.mono (Nat.le_succ _) fun i => shows_refl.mp

/-- The depth that is allowed for two terms is enough for them. -/
theorem exists_fits_depthBound (hh : h.Acyclic) (a b : Term) :
    ∃ H : Horizon, h.Fits H ∅ (Solve.depthBound h a b) a b := by
  obtain ⟨U, hcard, hU⟩ := atMost_shows (h.expand a)
  obtain ⟨V, hcard', hV⟩ := atMost_shows (h.expand b)
  refine ⟨⟨h, hh, U ∪ V, (h.expand a).size + (h.expand b).size⟩, ?_⟩
  constructor
  · exact Finset.empty_subset _
  · simp
  · exact ⟨fun _ _ hi => hi, fun i u hi hi' => by simp [hi] at hi'⟩
  · exact ⟨Nat.le_add_right _ _, fun i hi => Finset.mem_union_left _ (hU i hi)⟩
  · exact ⟨Nat.le_add_left _ _, fun i hi => Finset.mem_union_right _ (hV i hi)⟩
  · dsimp only
    have hunion := Finset.card_union_le U V
    have hshare := Nat.mul_le_mul_right ((h.expand a).size + (h.expand b).size) (hunion.trans
      (Nat.add_le_add hcard hcard'))
    rw [Finset.card_empty, Nat.sub_zero, Solve.depthBound, Nat.add_mul _ 1,
      Nat.mul_add _ _ 1, Nat.mul_one]
    omega

end Depth

end Holes

end Implicits
