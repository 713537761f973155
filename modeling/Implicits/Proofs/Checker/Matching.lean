import Mathlib.Data.List.Nodup
import Implicits.Proofs.Checker.Elaborate

/-!
Matching is exact. A call is accepted exactly if its named arguments select different parameters and
its positional ones are as many as the explicit parameters that are left. Then every argument goes
to one parameter of its own, the named ones to the parameters they select and the others to those
that are left, in order; what remains are implicit parameters without a value.
-/
namespace Implicits

section Specification

variable {β : Type}

def positionals (args : List (Arg β)) : List (Arg β) := args.filter (·.name == "")

namespace Signature

def IsFirst (sig : Signature) (name : String) (i : Nat) : Prop :=
  (∃ p, sig.params[i]? = some p ∧ p.name = name) ∧
    ∀ j p, j < i → sig.params[j]? = some p → p.name ≠ name

def selected (sig : Signature) (args : List (Arg β)) : List Nat :=
  args.filterMap fun (a : Arg β) => if a.name = "" then none else sig.paramIndex? a.name

def unselected (sig : Signature) (args : List (Arg β)) : List Nat :=
  (List.range sig.params.length).filter fun i =>
    sig.params[i]?.any (!·.isImplicit) && !(sig.selected args).contains i

/-- What a list of arguments must be like to be matched. -/
structure Accepts (sig : Signature) (args : List (Arg β)) : Prop where
  known : ∀ a ∈ args, a.name ≠ "" → ∃ p ∈ sig.params, p.name = a.name
  once : (sig.selected args).Nodup
  count : (positionals args).length = (sig.unselected args).length

/-- The parameters that the arguments go to, one for each argument. -/
structure Destinations (sig : Signature) (args : List (Arg β)) (places : List Nat) : Prop where
  length : places.length = args.length
  nodup : places.Nodup
  named : ∀ (k : Nat) (a : Arg β), args[k]? = some a → a.name ≠ "" →
    ∃ i, places[k]? = some i ∧ sig.IsFirst a.name i
  positional : ∀ (k : Nat) (a : Arg β), args[k]? = some a → a.name = "" →
    places[k]? = (sig.unselected args)[(positionals (args.take k)).length]?

end Signature

end Specification

namespace Signature

section Selection

variable {β : Type} {sig : Signature} {args : List (Arg β)}

theorem paramIndex?_eq_some_iff {name : String} {i : Nat} :
    sig.paramIndex? name = some i ↔ sig.IsFirst name i := by
  rw [paramIndex?, List.findIdx?_eq_some_iff_getElem]
  constructor
  · rintro ⟨hi, hname, hfirst⟩
    refine ⟨⟨sig.params[i], List.getElem?_eq_getElem hi, by simpa using hname⟩, ?_⟩
    intro j p hj hp
    obtain ⟨hj', rfl⟩ := List.getElem?_eq_some_iff.mp hp
    simpa using hfirst j hj
  · rintro ⟨⟨p, hp, hname⟩, hfirst⟩
    obtain ⟨hi, rfl⟩ := List.getElem?_eq_some_iff.mp hp
    refine ⟨hi, by simpa using hname, ?_⟩
    intro j hj
    simpa using hfirst j _ hj (List.getElem?_eq_getElem (Nat.lt_trans hj hi))

theorem exists_paramIndex?_iff {name : String} :
    (∃ i, sig.paramIndex? name = some i) ↔ ∃ p ∈ sig.params, p.name = name := by
  rw [← Option.isSome_iff_exists, paramIndex?, List.findIdx?_isSome, List.any_eq_true]
  simp only [beq_iff_eq]

theorem lt_length_of_paramIndex? {name : String} {i : Nat} (h : sig.paramIndex? name = some i) :
    i < sig.params.length := by
  obtain ⟨⟨p, hp, -⟩, -⟩ := paramIndex?_eq_some_iff.mp h
  exact (List.getElem?_eq_some_iff.mp hp).1

theorem selected_cons_of_positional {a : Arg β} (ha : a.name = "") :
    sig.selected (a :: args) = sig.selected args := by
  simp [selected, ha]

theorem selected_cons_of_named {a : Arg β} (ha : a.name ≠ "") {i : Nat}
    (hi : sig.paramIndex? a.name = some i) : sig.selected (a :: args) = i :: sig.selected args := by
  simp [selected, ha, hi]

theorem mem_selected_iff {i : Nat} :
    i ∈ sig.selected args ↔ ∃ a ∈ args, a.name ≠ "" ∧ sig.paramIndex? a.name = some i := by
  rw [selected, List.mem_filterMap]
  refine exists_congr fun a => and_congr_right fun _ => ?_
  by_cases ha : a.name = ""
  · simp [ha]
  · simp [ha]

theorem mem_unselected_iff {i : Nat} :
    i ∈ sig.unselected args ↔
      (∃ p, sig.params[i]? = some p ∧ p.isImplicit = false) ∧ i ∉ sig.selected args := by
  rw [unselected, List.mem_filter, List.mem_range, Bool.and_eq_true, Option.any_eq_true]
  constructor
  · rintro ⟨-, ⟨p, hp, himplicit⟩, hi⟩
    exact ⟨⟨p, hp, by simpa using himplicit⟩, by simpa using hi⟩
  · rintro ⟨⟨p, hp, himplicit⟩, hi⟩
    exact ⟨(List.getElem?_eq_some_iff.mp hp).1,
      ⟨p, hp, by simpa using himplicit⟩, by simpa using hi⟩

end Selection

section Named

variable {α : Type} {sig : Signature} {args : List (Arg (Option α))} {slots named : List (Option α)}

structure PlacesNamed (sig : Signature) (args : List (Arg (Option α)))
    (slots named : List (Option α)) :
    Prop where
  known : ∀ a ∈ args, a.name ≠ "" → ∃ i, sig.paramIndex? a.name = some i
  once : (sig.selected args).Nodup
  free : ∀ i ∈ sig.selected args, slots[i]?.join = none
  placed : ∀ a ∈ args, a.name ≠ "" → ∀ i, sig.paramIndex? a.name = some i → named[i]? = some a.value
  kept : ∀ i, i ∉ sig.selected args → named[i]? = slots[i]?

/-- The step of a named argument. -/
theorem PlacesNamed.cons {a : Arg (Option α)} (hvalue : a.value.isSome) (ha : a.name ≠ "") {i : Nat}
    (hi : sig.paramIndex? a.name = some i) (hlt : i < slots.length) (hfree : slots[i]?.join = none)
    (h : sig.PlacesNamed args (slots.set i a.value) named) :
    sig.PlacesNamed (a :: args) slots named := by
  have hnew : i ∉ sig.selected args := by
    intro hmem
    have hnone := h.free i hmem
    rw [List.getElem?_set_self hlt, Option.join_some] at hnone
    simp [hnone] at hvalue
  have hselected : sig.selected (a :: args) = i :: sig.selected args := selected_cons_of_named ha hi
  refine ⟨?_, ?_, ?_, ?_, ?_⟩
  · intro b hb hname
    rcases List.mem_cons.mp hb with rfl | hb
    · exact ⟨i, hi⟩
    · exact h.known b hb hname
  · rw [hselected]
    exact List.nodup_cons.mpr ⟨hnew, h.once⟩
  · intro j hj
    rw [hselected] at hj
    rcases List.mem_cons.mp hj with rfl | hj
    · exact hfree
    · have hne : i ≠ j := fun heq => hnew (heq ▸ hj)
      simpa [List.getElem?_set_ne hne] using h.free j hj
  · intro b hb hname j hj
    rcases List.mem_cons.mp hb with rfl | hb
    · obtain rfl : i = j := Option.some.inj (hi.symm.trans hj)
      rw [h.kept i hnew, List.getElem?_set_self hlt]
    · exact h.placed b hb hname j hj
  · intro j hj
    rw [hselected, List.mem_cons, not_or] at hj
    rw [h.kept j hj.2, List.getElem?_set_ne (Ne.symm hj.1)]

theorem PlacesNamed.cons_positional {a : Arg (Option α)} (ha : a.name = "")
    (h : sig.PlacesNamed args slots named) : sig.PlacesNamed (a :: args) slots named := by
  have hselected : sig.selected (a :: args) = sig.selected args := selected_cons_of_positional ha
  refine ⟨?_, hselected ▸ h.once, hselected ▸ h.free, ?_, hselected ▸ h.kept⟩
  · intro b hb hname
    rcases List.mem_cons.mp hb with rfl | hb
    · exact absurd ha hname
    · exact h.known b hb hname
  · intro b hb hname
    rcases List.mem_cons.mp hb with rfl | hb
    · exact absurd ha hname
    · exact h.placed b hb hname

theorem placesNamed_of_placeNamed (hlen : slots.length = sig.params.length)
    (hvalues : ∀ a ∈ args, a.value.isSome) (h : sig.placeNamed args slots = .ok named) :
    sig.PlacesNamed args slots named := by
  induction args generalizing slots with
  | nil =>
    obtain rfl : slots = named := Except.ok.inj h
    exact ⟨by simp, List.nodup_nil, by simp [selected], by simp, fun _ _ => rfl⟩
  | cons a args ih =>
    have hrest : ∀ b ∈ args, b.value.isSome := fun b hb => hvalues b (List.mem_cons_of_mem _ hb)
    rw [placeNamed] at h
    by_cases ha : a.name = ""
    · rw [if_pos ha] at h
      exact (ih hlen hrest h).cons_positional ha
    · rw [if_neg ha] at h
      cases hi : sig.paramIndex? a.name with
      | none => simp [hi] at h
      | some i =>
        rw [hi] at h
        dsimp only at h
        by_cases hfree : (slots[i]?.join).isSome
        · simp [hfree] at h
        · rw [if_neg hfree] at h
          have hlt : i < slots.length := hlen ▸ lt_length_of_paramIndex? hi
          exact (ih (by rw [List.length_set, hlen]) hrest h).cons
            (hvalues a (List.mem_cons_self ..)) ha
            hi hlt (Option.not_isSome_iff_eq_none.mp hfree)

/-- Named arguments that select different free parameters can be placed. -/
theorem exists_placeNamed (hlen : slots.length = sig.params.length)
    (hknown : ∀ a ∈ args, a.name ≠ "" → ∃ i, sig.paramIndex? a.name = some i)
    (honce : (sig.selected args).Nodup) (hfree : ∀ i ∈ sig.selected args, slots[i]?.join = none) :
    ∃ named, sig.placeNamed args slots = .ok named := by
  induction args generalizing slots with
  | nil => exact ⟨slots, rfl⟩
  | cons a args ih =>
    have hrest := fun b (hb : b ∈ args) => hknown b (List.mem_cons_of_mem _ hb)
    rw [placeNamed]
    by_cases ha : a.name = ""
    · rw [selected_cons_of_positional ha] at honce hfree
      rw [if_pos ha]
      exact ih hlen hrest honce hfree
    · obtain ⟨i, hi⟩ := hknown a (List.mem_cons_self ..) ha
      rw [selected_cons_of_named ha hi] at honce hfree
      obtain ⟨hnew, honce⟩ := List.nodup_cons.mp honce
      rw [if_neg ha, hi]
      dsimp only
      rw [if_neg (by simp [hfree i (List.mem_cons_self ..)])]
      refine ih (by rw [List.length_set, hlen]) hrest honce fun j hj => ?_
      have hne : i ≠ j := fun heq => hnew (heq ▸ hj)
      rw [List.getElem?_set_ne hne]
      exact hfree j (List.mem_cons_of_mem _ hj)

end Named

section Positional

variable {α : Type}

def gaps (params : List (Param Term)) (slots : List (Option α)) : List Nat :=
  (List.range params.length).filter fun i =>
    params[i]?.any (!·.isImplicit) && (slots[i]?.join).isNone

theorem mem_gaps_iff {params : List (Param Term)} {slots : List (Option α)} {i : Nat} :
    i ∈ gaps params slots ↔
      (∃ p, params[i]? = some p ∧ p.isImplicit = false) ∧ slots[i]?.join = none := by
  rw [gaps, List.mem_filter, List.mem_range, Bool.and_eq_true, Option.any_eq_true,
    Option.isNone_iff_eq_none]
  constructor
  · rintro ⟨-, ⟨p, hp, himplicit⟩, hslot⟩
    exact ⟨⟨p, hp, by simpa using himplicit⟩, hslot⟩
  · rintro ⟨⟨p, hp, himplicit⟩, hslot⟩
    exact ⟨(List.getElem?_eq_some_iff.mp hp).1, ⟨p, hp, by simpa using himplicit⟩, hslot⟩

theorem gaps_cons (p : Param Term) (params : List (Param Term)) (slot : Option α)
    (slots : List (Option α)) :
    gaps (p :: params) (slot :: slots) =
      (if p.isImplicit || slot.isSome then [] else [0]) ++ (gaps params slots).map (· + 1) := by
  have htail : ((List.range params.length).map Nat.succ).filter (fun i =>
      (p :: params)[i]?.any (!·.isImplicit) && ((slot :: slots)[i]?.join).isNone) =
        (gaps params slots).map (· + 1) := by
    rw [List.filter_map]
    rfl
  rw [gaps, List.length_cons, List.range_succ_eq_map, List.filter_cons, htail]
  cases himplicit : p.isImplicit with
  | true => simp [himplicit]
  | false =>
    cases slot with
    | none => simp [himplicit]
    | some v => simp [himplicit]

/-- What placing the positional arguments does: the gaps are filled in order, as far as the values
go. -/
structure FillsGaps (params : List (Param Term)) (slots values : List (Option α))
    (r : List (Option α) × List (Option α)) : Prop where
  filled : ∀ j i : Nat, (gaps params slots)[j]? = some i → r.1[i]? = some values[j]?.join
  kept : ∀ i, i ∉ gaps params slots → r.1[i]? = slots[i]?
  left : r.2 = values.drop (gaps params slots).length

/-- Without values nothing is filled. -/
theorem FillsGaps.nil (params : List (Param Term)) {slots : List (Option α)}
    (hlen : slots.length = params.length) : FillsGaps params slots [] (slots, []) where
  filled j i hj := by
    obtain ⟨⟨p, hp, -⟩, hslot⟩ := mem_gaps_iff.mp (List.mem_of_getElem? hj)
    have hi : i < slots.length := hlen ▸ (List.getElem?_eq_some_iff.mp hp).1
    rw [List.getElem?_eq_getElem hi, Option.join_some] at hslot
    rw [List.getElem?_eq_getElem hi, hslot]
    rfl
  kept i _ := rfl
  left := by simp

theorem fillsGaps_placePositional {params : List (Param Term)} {slots : List (Option α)}
    (hlen : slots.length = params.length) (values : List (Option α)) :
    FillsGaps params slots values (placePositional params slots values) := by
  fun_induction placePositional params slots values with
  | case1 p ps slot slots value values hskip rest left heq ih =>
    rw [heq] at ih
    have h := ih (by simpa using hlen)
    have hgaps : gaps (p :: ps) (slot :: slots) = (gaps ps slots).map (· + 1) := by
      rw [gaps_cons, if_pos hskip, List.nil_append]
    refine ⟨?_, ?_, ?_⟩
    · intro j i hj
      rw [hgaps, List.getElem?_map, Option.map_eq_some_iff] at hj
      obtain ⟨i, hj, rfl⟩ := hj
      rw [List.getElem?_cons_succ]
      exact h.filled j i hj
    · intro i hi
      cases i with
      | zero => rfl
      | succ i =>
        rw [List.getElem?_cons_succ, List.getElem?_cons_succ]
        refine h.kept i fun hmem => hi ?_
        rw [hgaps]
        exact List.mem_map_of_mem hmem
    · rw [hgaps, List.length_map]
      exact h.left
  | case2 p ps slot slots value values hskip rest left heq ih =>
    rw [heq] at ih
    have h := ih (by simpa using hlen)
    have hgaps : gaps (p :: ps) (slot :: slots) = 0 :: (gaps ps slots).map (· + 1) := by
      rw [gaps_cons, if_neg hskip, List.singleton_append]
    refine ⟨?_, ?_, ?_⟩
    · intro j i hj
      rw [hgaps] at hj
      cases j with
      | zero =>
        obtain rfl : 0 = i := Option.some.inj hj
        rfl
      | succ j =>
        rw [List.getElem?_cons_succ, List.getElem?_map, Option.map_eq_some_iff] at hj
        obtain ⟨i, hj, rfl⟩ := hj
        rw [List.getElem?_cons_succ, List.getElem?_cons_succ]
        exact h.filled j i hj
    · intro i hi
      rw [hgaps] at hi
      cases i with
      | zero => exact absurd (List.mem_cons_self ..) hi
      | succ i =>
        rw [List.getElem?_cons_succ, List.getElem?_cons_succ]
        exact h.kept i fun hmem => hi (List.mem_cons_of_mem _ (List.mem_map_of_mem hmem))
    · rw [hgaps, List.length_cons, List.length_map]
      exact h.left
  | case3 params slots values hend =>
    cases values with
    | nil => exact .nil params hlen
    | cons value values =>
      cases params with
      | nil =>
        obtain rfl : slots = [] := List.length_eq_zero_iff.mp hlen
        exact ⟨by simp [gaps], fun _ _ => rfl, rfl⟩
      | cons p ps =>
        cases slots with
        | nil => simp at hlen
        | cons slot slots => exact absurd rfl (hend p ps slot slots value values rfl rfl)

theorem firstMissing?_eq_none_iff {params : List (Param Term)} {slots : List (Option α)}
    (hlen : slots.length = params.length) :
    firstMissing? params slots = none ↔ gaps params slots = [] := by
  induction params generalizing slots with
  | nil =>
    obtain rfl : slots = [] := List.length_eq_zero_iff.mp hlen
    exact iff_of_true rfl rfl
  | cons p params ih =>
    cases slots with
    | nil => exact nomatch hlen
    | cons slot slots =>
      have hrest := @ih slots (by simpa using hlen)
      rw [firstMissing?, Option.map_eq_none_iff] at hrest ⊢
      rw [List.zip_cons_cons, List.find?_cons, gaps_cons]
      cases hgap : p.isImplicit || slot.isSome with
      | true =>
        have hskip : (!p.isImplicit && slot.isNone) = false := by
          rw [← Option.not_isSome, ← Bool.not_or, hgap]
          rfl
        simp [hskip, hrest]
      | false =>
        have hfound : (!p.isImplicit && slot.isNone) = true := by
          rw [← Option.not_isSome, ← Bool.not_or, hgap]
          rfl
        simp [hfound]

end Positional

section Matching

variable {α : Type} {sig : Signature} {args : List (Arg (Option α))} {slots : List (Option α)}

def positionalValues (args : List (Arg (Option α))) : List (Option α) :=
  (positionals args).map (·.value)

/-- The three steps of a match that succeeds. -/
theorem matchArguments_eq_ok_iff :
    sig.matchArguments args = .ok slots ↔
      ∃ named, sig.placeNamed args (List.replicate sig.params.length none) = .ok named ∧
        (placePositional sig.params named (positionalValues args)).2 = [] ∧
        firstMissing? sig.params slots = none ∧
        slots = (placePositional sig.params named (positionalValues args)).1 := by
  have hvalues : (args.filter (·.name == "")).map (·.value) = positionalValues args := rfl
  unfold matchArguments
  rw [hvalues]
  cases hnamed : sig.placeNamed args (List.replicate sig.params.length none) with
  | error e => simp [bind, Except.bind]
  | ok named =>
    simp only [bind, Except.bind, Except.ok.injEq, exists_eq_left']
    generalize placePositional sig.params named (positionalValues args) = r
    obtain ⟨filled, left⟩ := r
    cases left with
    | cons v left => simp [throw, throwThe, MonadExceptOf.throw]
    | nil =>
      cases hmissing : firstMissing? sig.params filled with
      | some p =>
        simp only [List.isEmpty_nil, Bool.not_true, Bool.false_eq_true, if_false, true_and]
        refine iff_of_false nofun ?_
        rintro ⟨hnone, rfl⟩
        simp [hmissing] at hnone
      | none =>
        simp only [List.isEmpty_nil, Bool.not_true, Bool.false_eq_true, if_false, true_and]
        constructor
        · intro h
          obtain rfl : filled = slots := Except.ok.inj h
          exact ⟨hmissing, rfl⟩
        · rintro ⟨-, rfl⟩
          rfl

variable {named : List (Option α)}

/-- A parameter has a value behind the named arguments exactly if one of them selects it. -/
theorem PlacesNamed.join_eq_none_iff (hvalues : ∀ a ∈ args, a.value.isSome)
    (h : sig.PlacesNamed args (List.replicate sig.params.length none) named) {i : Nat} :
    named[i]?.join = none ↔ i ∉ sig.selected args := by
  constructor
  · intro hnone hi
    obtain ⟨a, ha, hname, hindex⟩ := mem_selected_iff.mp hi
    have hvalue := hvalues a ha
    rw [h.placed a ha hname i hindex, Option.join_some] at hnone
    simp [hnone] at hvalue
  · intro hi
    rw [h.kept i hi, List.getElem?_replicate]
    split
    · rfl
    · rfl

theorem PlacesNamed.gaps_eq (hvalues : ∀ a ∈ args, a.value.isSome)
    (h : sig.PlacesNamed args (List.replicate sig.params.length none) named) :
    gaps sig.params named = sig.unselected args := by
  refine List.filter_congr fun i _ => ?_
  congr 1
  rw [Bool.eq_iff_iff, Option.isNone_iff_eq_none, h.join_eq_none_iff hvalues]
  simp

/-- The gaps that are left behind the positional arguments are those that the values do not reach.
-/
theorem FillsGaps.gaps_eq_nil_iff {params : List (Param Term)} {values left : List (Option α)}
    (h : FillsGaps params named values (slots, left)) (hvalues : ∀ v ∈ values, v.isSome) :
    gaps params slots = [] ↔ (gaps params named).length ≤ values.length := by
  constructor
  · intro hnil
    by_contra hshort
    rw [Nat.not_le] at hshort
    obtain ⟨i, hi⟩ : ∃ i, (gaps params named)[values.length]? = some i :=
      ⟨_, List.getElem?_eq_getElem hshort⟩
    have hslot := h.filled _ i hi
    have hmem : i ∈ gaps params slots := by
      refine mem_gaps_iff.mpr ⟨(mem_gaps_iff.mp (List.mem_of_getElem? hi)).1, ?_⟩
      rw [hslot, List.getElem?_eq_none (Nat.le_refl _)]
      rfl
    rw [hnil] at hmem
    exact nomatch hmem
  · intro hle
    rw [List.eq_nil_iff_forall_not_mem]
    intro i hi
    obtain ⟨hexplicit, hslot⟩ := mem_gaps_iff.mp hi
    by_cases hgap : i ∈ gaps params named
    · obtain ⟨j, hj⟩ := List.mem_iff_getElem?.mp hgap
      have hlt : j < values.length := Nat.lt_of_lt_of_le (List.getElem?_eq_some_iff.mp hj).1 hle
      have hvalue := hvalues values[j] (List.getElem_mem hlt)
      have hfilled := h.filled j i hj
      dsimp only at hfilled
      rw [hfilled, List.getElem?_eq_getElem hlt, Option.join_some, Option.join_some] at hslot
      simp [hslot] at hvalue
    · have hkept := h.kept i hgap
      dsimp only at hkept
      exact hgap (mem_gaps_iff.mpr ⟨hexplicit, hkept ▸ hslot⟩)

theorem isSome_of_mem_positionalValues (hvalues : ∀ a ∈ args, a.value.isSome) :
    ∀ v ∈ positionalValues args, v.isSome := by
  intro v hv
  obtain ⟨a, ha, rfl⟩ := List.mem_map.mp hv
  exact hvalues a (List.mem_of_mem_filter ha)

/-- A match that succeeds has placed the named arguments and filled the gaps they leave, one value
each. -/
theorem matched_of_eq_ok (hvalues : ∀ a ∈ args, a.value.isSome)
    (h : sig.matchArguments args = .ok slots) :
    ∃ named, sig.PlacesNamed args (List.replicate sig.params.length none) named ∧
      FillsGaps sig.params named (positionalValues args) (slots, []) ∧
      (positionals args).length = (sig.unselected args).length := by
  obtain ⟨named, hnamed, hleft, hmissing, rfl⟩ := matchArguments_eq_ok_iff.mp h
  have hplaced := placesNamed_of_placeNamed List.length_replicate hvalues hnamed
  have hlen : named.length = sig.params.length := by
    rw [(sig.placeNamed_spec hnamed).1, List.length_replicate]
  have hfills := fillsGaps_placePositional hlen (positionalValues args)
  have hlen' := (placePositional_spec sig.params named (positionalValues args)).1.trans hlen
  generalize placePositional sig.params named (positionalValues args) = r
    at hleft hmissing hfills hlen' ⊢
  obtain ⟨slots, left⟩ := r
  obtain rfl : left = [] := hleft
  have hnil := (firstMissing?_eq_none_iff hlen').mp hmissing
  have hle := (hfills.gaps_eq_nil_iff (isSome_of_mem_positionalValues hvalues)).mp hnil
  have hge := List.drop_eq_nil_iff.mp hfills.left.symm
  rw [hplaced.gaps_eq hvalues, positionalValues, List.length_map] at hle hge
  exact ⟨named, hplaced, hfills, Nat.le_antisymm hge hle⟩

theorem exists_match (hvalues : ∀ a ∈ args, a.value.isSome) (h : sig.Accepts args) :
    ∃ slots, sig.matchArguments args = .ok slots := by
  have hempty :
      ∀ i : Nat, (List.replicate sig.params.length (none : Option α))[i]?.join = none := by
    intro i
    rw [List.getElem?_replicate]
    split
    · rfl
    · rfl
  obtain ⟨named, hnamed⟩ := exists_placeNamed List.length_replicate
    (fun a ha hname => exists_paramIndex?_iff.mpr (h.known a ha hname)) h.once fun i _ => hempty i
  have hplaced := placesNamed_of_placeNamed List.length_replicate hvalues hnamed
  have hlen : named.length = sig.params.length := by
    rw [(sig.placeNamed_spec hnamed).1, List.length_replicate]
  have hfills := fillsGaps_placePositional hlen (positionalValues args)
  have hcount : (gaps sig.params named).length = (positionalValues args).length := by
    rw [hplaced.gaps_eq hvalues, positionalValues, List.length_map, h.count]
  refine ⟨_, matchArguments_eq_ok_iff.mpr ⟨named, hnamed, ?_, ?_, rfl⟩⟩
  · rw [hfills.left, hcount, List.drop_length]
  · rw [firstMissing?_eq_none_iff ((placePositional_spec ..).1.trans hlen),
      hfills.gaps_eq_nil_iff (isSome_of_mem_positionalValues hvalues)]
    exact Nat.le_of_eq hcount

end Matching

section Destinations

variable {β : Type} {sig : Signature} {args : List (Arg β)}

def sendTo (sig : Signature) : List Nat → List (Arg β) → List Nat
  | _, [] => []
  | free, a :: args =>
    if a.name = "" then free.headD 0 :: sig.sendTo free.tail args
    else (sig.paramIndex? a.name).getD 0 :: sig.sendTo free args

theorem length_sendTo (free : List Nat) (args : List (Arg β)) :
    (sig.sendTo free args).length = args.length := by
  induction args generalizing free with
  | nil => rfl
  | cons a args ih =>
    rw [sendTo]
    split
    · rw [List.length_cons, ih, List.length_cons]
    · rw [List.length_cons, ih, List.length_cons]

theorem sendTo_perm (free : List Nat) {args : List (Arg β)}
    (hknown : ∀ a ∈ args, a.name ≠ "" → ∃ i, sig.paramIndex? a.name = some i)
    (hcount : (positionals args).length = free.length) :
    (sig.sendTo free args).Perm (sig.selected args ++ free) := by
  induction args generalizing free with
  | nil =>
    obtain rfl : free = [] := List.length_eq_zero_iff.mp hcount.symm
    exact List.Perm.refl _
  | cons a args ih =>
    have hrest := fun b (hb : b ∈ args) => hknown b (List.mem_cons_of_mem _ hb)
    rw [sendTo]
    by_cases ha : a.name = ""
    · rw [if_pos ha, selected_cons_of_positional ha]
      cases free with
      | nil => simp [positionals, ha] at hcount
      | cons i free =>
        have hcount' : (positionals args).length = free.length := by
          simpa [positionals, ha] using hcount
        exact ((ih free hrest hcount').cons i).trans List.perm_middle.symm
    · obtain ⟨i, hi⟩ := hknown a (List.mem_cons_self ..) ha
      have hcount' : (positionals args).length = free.length := by
        simpa [positionals, ha] using hcount
      rw [if_neg ha, selected_cons_of_named ha hi, hi]
      exact (ih free hrest hcount').cons i

theorem getElem?_sendTo_of_named {free : List Nat} {k : Nat} {a : Arg β} (hk : args[k]? = some a)
    (ha : a.name ≠ "") {i : Nat} (hi : sig.paramIndex? a.name = some i) :
    (sig.sendTo free args)[k]? = some i := by
  induction args generalizing free k with
  | nil => exact nomatch hk
  | cons b args ih =>
    rw [sendTo]
    cases k with
    | zero =>
      obtain rfl : b = a := Option.some.inj hk
      rw [if_neg ha, hi]
      rfl
    | succ k =>
      split
      · exact ih hk
      · exact ih hk

theorem getElem?_sendTo_of_positional {free : List Nat}
    (hcount : (positionals args).length = free.length) {k : Nat} {a : Arg β}
    (hk : args[k]? = some a) (ha : a.name = "") :
    (sig.sendTo free args)[k]? = free[(positionals (args.take k)).length]? := by
  induction args generalizing free k with
  | nil => exact nomatch hk
  | cons b args ih =>
    rw [sendTo]
    by_cases hb : b.name = ""
    · rw [if_pos hb]
      cases free with
      | nil => simp [positionals, hb] at hcount
      | cons i free =>
        have hcount' : (positionals args).length = free.length := by
          simpa [positionals, hb] using hcount
        cases k with
        | zero => rfl
        | succ k =>
          have hrest := ih hcount' hk
          rw [List.getElem?_cons_succ, List.tail_cons, hrest]
          simp [positionals, hb]
    · have hcount' : (positionals args).length = free.length := by
        simpa [positionals, hb] using hcount
      rw [if_neg hb]
      cases k with
      | zero =>
        obtain rfl : b = a := Option.some.inj hk
        exact absurd ha hb
      | succ k =>
        have hrest := ih hcount' hk
        rw [List.getElem?_cons_succ, hrest]
        simp [positionals, hb]

/-- A positional argument is found among them by the number of those before it. -/
theorem getElem?_positionals {k : Nat} {a : Arg β} (hk : args[k]? = some a) (ha : a.name = "") :
    (positionals args)[(positionals (args.take k)).length]? = some a := by
  obtain ⟨hlt, rfl⟩ := List.getElem?_eq_some_iff.mp hk
  have hsplit : positionals args =
      positionals (args.take k) ++ args[k] :: positionals (args.drop (k + 1)) := by
    unfold positionals
    conv_lhs => rw [← List.take_append_drop k args, List.drop_eq_getElem_cons hlt]
    rw [List.filter_append, List.filter_cons_of_pos (by simp [ha])]
  rw [hsplit, List.getElem?_append_right (Nat.le_refl _), Nat.sub_self]
  rfl

/-- Arguments that are accepted go to different parameters. -/
theorem Accepts.destinations (h : sig.Accepts args) :
    sig.Destinations args (sig.sendTo (sig.unselected args) args) := by
  have hknown : ∀ a ∈ args, a.name ≠ "" → ∃ i, sig.paramIndex? a.name = some i :=
    fun a ha hname => exists_paramIndex?_iff.mpr (h.known a ha hname)
  refine ⟨length_sendTo _ _, ?_, ?_, ?_⟩
  · rw [(sendTo_perm _ hknown h.count).nodup_iff]
    refine List.nodup_append.mpr ⟨h.once, List.nodup_range.filter _, ?_⟩
    rintro i hi _ hj rfl
    exact (mem_unselected_iff.mp hj).2 hi
  · intro k a hk ha
    obtain ⟨i, hi⟩ := hknown a (List.mem_of_getElem? hk) ha
    exact ⟨i, getElem?_sendTo_of_named hk ha hi, paramIndex?_eq_some_iff.mp hi⟩
  · intro k a hk ha
    exact getElem?_sendTo_of_positional h.count hk ha

end Destinations

section Exactness

variable {α : Type}

theorem accepts_of_eq_ok {sig : Signature} {args : List (Arg (Option α))} {slots : List (Option α)}
    (hvalues : ∀ a ∈ args, a.value.isSome) (h : sig.matchArguments args = .ok slots) :
    sig.Accepts args := by
  obtain ⟨named, hplaced, -, hcount⟩ := matched_of_eq_ok hvalues h
  exact ⟨fun a ha hname => exists_paramIndex?_iff.mp (hplaced.known a ha hname),
    hplaced.once, hcount⟩

/-- What a match that succeeds supplies. -/
theorem supplied_of_eq_ok {sig : Signature} {args : List (Arg (Option α))} {slots : List (Option α)}
    (hvalues : ∀ a ∈ args, a.value.isSome) (h : sig.matchArguments args = .ok slots) :
    slots.length = sig.params.length ∧
      (∀ a ∈ args, a.name ≠ "" → ∀ i, sig.paramIndex? a.name = some i → slots[i]? = some a.value) ∧
      (∀ j i : Nat, (sig.unselected args)[j]? = some i →
        slots[i]? = some (positionalValues args)[j]?.join) ∧
      ∀ i < sig.params.length, i ∉ sig.selected args → i ∉ sig.unselected args →
        slots[i]? = some none := by
  obtain ⟨named, hplaced, hfills, -⟩ := matched_of_eq_ok hvalues h
  have hgaps := hplaced.gaps_eq hvalues
  have hkept : ∀ i, i ∉ sig.unselected args → slots[i]? = named[i]? :=
    fun i hi => hfills.kept i (hgaps ▸ hi)
  refine ⟨(matchArguments_spec h).1, ?_, ?_, ?_⟩
  · intro a ha hname i hi
    have hselected : i ∈ sig.selected args := mem_selected_iff.mpr ⟨a, ha, hname, hi⟩
    rw [hkept i fun hun => (mem_unselected_iff.mp hun).2 hselected]
    exact hplaced.placed a ha hname i hi
  · intro j i hj
    exact hfills.filled j i (hgaps ▸ hj)
  · intro i hi hselected hunselected
    rw [hkept i hunselected, hplaced.kept i hselected, List.getElem?_replicate, if_pos hi]

/-- Matching succeeds exactly on the accepted lists of arguments. Then every argument is supplied to
its own parameter and to no other, and the remaining parameters are implicit and get no value. -/
theorem matchArguments_exact (sig : Signature) {args : List (Arg (Option α))}
    (hvalues : ∀ a ∈ args, a.value.isSome) :
    ((∃ slots, sig.matchArguments args = .ok slots) ↔ sig.Accepts args) ∧
    ∀ slots, sig.matchArguments args = .ok slots →
      slots.length = sig.params.length ∧
      ∃ places, sig.Destinations args places ∧
        (∀ (k : Nat) (a : Arg (Option α)) (i : Nat), args[k]? = some a → places[k]? = some i →
          slots[i]? = some a.value) ∧
        ∀ (i : Nat) (p : Param Term), sig.params[i]? = some p → i ∉ places →
          p.isImplicit = true ∧ slots[i]? = some none := by
  refine ⟨⟨fun ⟨slots, h⟩ => accepts_of_eq_ok hvalues h, exists_match hvalues⟩, fun slots h => ?_⟩
  have haccepts := accepts_of_eq_ok hvalues h
  have hdest := haccepts.destinations
  obtain ⟨hlen, hnamed, hpositional, hother⟩ := supplied_of_eq_ok hvalues h
  refine ⟨hlen, _, hdest, ?_, ?_⟩
  · intro k a i hk hi
    by_cases ha : a.name = ""
    · rw [hdest.positional k a hk ha] at hi
      rw [hpositional _ i hi, positionalValues, List.getElem?_map, getElem?_positionals hk ha]
      rfl
    · obtain ⟨j, hj, hfirst⟩ := hdest.named k a hk ha
      obtain rfl : j = i := Option.some.inj (hj.symm.trans hi)
      exact hnamed a (List.mem_of_getElem? hk) ha j (paramIndex?_eq_some_iff.mpr hfirst)
  · intro i p hp hi
    have hknown : ∀ a ∈ args, a.name ≠ "" → ∃ i, sig.paramIndex? a.name = some i :=
      fun a ha hname => exists_paramIndex?_iff.mpr (haccepts.known a ha hname)
    rw [(sendTo_perm _ hknown haccepts.count).mem_iff, List.mem_append, not_or] at hi
    refine ⟨?_, hother i (List.getElem?_eq_some_iff.mp hp).1 hi.1 hi.2⟩
    by_contra himplicit
    exact hi.2 (mem_unselected_iff.mpr ⟨⟨p, hp, by simpa using himplicit⟩, hi.1⟩)

def mixedSignature : Signature :=
  { name := "f"
    params := [{ name := "A", type := .const "Type", plicity := .implicit },
      { name := "x", type := .bound "A" }, { name := "y", type := .bound "A" },
      { name := "h", type := .const "True", plicity := .auto }, { name := "z", type := .bound "A" }]
    result := .bound "A" }

def mixedArgs : List (Arg (Option Nat)) :=
  [⟨"", some 1⟩, ⟨"y", some 2⟩, ⟨"", some 3⟩, ⟨"h", some 4⟩]

theorem matchArguments_exact_mixed :
    (∀ a ∈ mixedArgs, a.value.isSome) ∧ mixedSignature.Accepts mixedArgs ∧
      mixedSignature.matchArguments mixedArgs = .ok [none, some 1, some 2, some 4, some 3] ∧
      ∃ places, mixedSignature.Destinations mixedArgs places := by
  have hvalues : ∀ a ∈ mixedArgs, a.value.isSome := by decide
  have hmatch : mixedSignature.matchArguments mixedArgs =
      .ok [none, some 1, some 2, some 4, some 3] := by rfl
  obtain ⟨haccepts, hsupplied⟩ := mixedSignature.matchArguments_exact hvalues
  obtain ⟨-, places, hplaces, -⟩ := hsupplied _ hmatch
  exact ⟨hvalues, haccepts.mp ⟨_, hmatch⟩, hmatch, places, hplaces⟩

end Exactness

end Signature

end Implicits
