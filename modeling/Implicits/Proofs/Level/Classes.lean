import Implicits.Proofs.Level.Cycles
import Implicits.Proofs.Level.Overflow

/-!
Classes of level variables. The members of a component are the levels that are tied to each other,
and the member that is discovered last speaks for the variables among them. If it is a variable, the
tied variables are one class. If it is a number, each of them stays alone.
-/
namespace Implicits

def discovered (cs : List Constraint) : List Level :=
  let lg := LevelGraph.ofConstraints cs
  lg.graph.explore.found.filterMap fun i => lg.nodes[i]?

structure LastTied (cs : List Constraint) (x : LevelVar) (l : Level) : Prop where
  tied : Tied cs l (.var x)
  last : ∃ before after, discovered cs = before ++ l :: after ∧ ∀ m ∈ before, ¬ Tied cs m (.var x)

namespace LastTied

variable {cs : List Constraint} {x y : LevelVar} {l m : Level}

theorem unique (hl : LastTied cs x l) (hm : LastTied cs x m) : l = m := by
  classical
  have hfind : ∀ {k}, LastTied cs x k →
      (discovered cs).find? (fun l => decide (Tied cs l (.var x))) = some k := by
    intro k hk
    obtain ⟨before, after, hsplit, hbefore⟩ := hk.last
    refine List.find?_eq_some_iff_append.mpr ⟨by simpa using hk.tied, before, after, hsplit, ?_⟩
    exact fun a ha => by simpa using hbefore a ha
  exact Option.some.inj ((hfind hl).symm.trans (hfind hm))

/-- Tied variables are tied to the same levels. -/
theorem of_tied (h : LastTied cs x l) (hxy : Tied cs (.var x) (.var y)) : LastTied cs y l := by
  obtain ⟨before, after, hsplit, hbefore⟩ := h.last
  exact ⟨h.tied.trans hxy, before, after, hsplit,
    fun m hm hmy => hbefore m hm (hmy.trans hxy.symm)⟩

end LastTied

def Level.speaker (l : Level) (x : LevelVar) : LevelVar :=
  match l with
  | .var w => w
  | .const _ => x

/-- Two variables have one representative if they are the same, or if they are tied and the last of
the levels tied to them is a variable. -/
theorem LastTied.speaker_eq_iff {cs : List Constraint} {u v : LevelVar} {l m : Level}
    (hl : LastTied cs u l) (hm : LastTied cs v m) : l.speaker u = m.speaker v ↔
      u = v ∨ Tied cs (.var u) (.var v) ∧ ∃ w, LastTied cs u (.var w) := by
  constructor
  · intro heq
    cases l with
    | var w =>
      -- The speaker of `v` is tied to `v` in any case, and here it is tied to `u`.
      refine .inr ⟨hl.tied.symm.trans ?_, w, hl⟩
      cases m with
      | var w' =>
        obtain rfl : w = w' := heq
        exact hm.tied
      | const k =>
        obtain rfl : w = v := heq
        exact Tied.refl _ _
    | const j =>
      cases m with
      | var w' =>
        obtain rfl : u = w' := heq
        exact .inr ⟨hm.tied, u, hm.of_tied hm.tied.symm⟩
      | const k => exact .inl heq
  · rintro (rfl | ⟨htied, w, hw⟩)
    · rw [hl.unique hm]
    · obtain rfl := hl.unique hw
      obtain rfl := hm.unique (hl.of_tied htied)
      rfl

namespace LevelGraph

variable {cs : List Constraint}

/-- The first member of a component is the one that is discovered last. -/
theorem lastTied_of_head {comp : List Nat} (hcomp : comp ∈ (ofConstraints cs).graph.components)
    {i r : Nat} (hmem : i ∈ comp) (hr : comp.head? = some r) {x : LevelVar} {l : Level}
    (hi : (ofConstraints cs).nodes[i]? = some (.var x))
    (hl : (ofConstraints cs).nodes[r]? = some l) :
    LastTied cs x l := by
  have h := ofConstraints_represents cs
  have htied : ∀ {j m}, (ofConstraints cs).nodes[j]? = some m →
      (j ∈ comp ↔ Tied cs m (.var x)) := by
    intro j m hj
    rw [h.mem_component_iff_tied hcomp hmem hi hj]
    exact ⟨Tied.symm, Tied.symm⟩
  have hrmem : r ∈ comp := List.mem_of_mem_head? hr
  obtain ⟨before, after, hsplit, hbefore⟩ := Graph.component_head_found h.graph_wellFormed hcomp hr
  refine ⟨(htied hl).mp hrmem, before.filterMap fun j => (ofConstraints cs).nodes[j]?,
    after.filterMap fun j => (ofConstraints cs).nodes[j]?, ?_, ?_⟩
  · simp [discovered, hsplit, hl]
  · intro m hm
    obtain ⟨j, hj, hjm⟩ := List.mem_filterMap.mp hm
    rw [← htied hjm]
    exact hbefore j hj

/-- A variable is represented by the last of the levels tied to it, or by itself if that is a
number. -/
theorem exists_speaker {i : Nat} {x : LevelVar}
    (hi : (ofConstraints cs).nodes[i]? = some (.var x)) :
    ∃ l, LastTied cs x l ∧
      (ofConstraints cs).representative (ofConstraints cs).graph.components i x = l.speaker x := by
  have h := ofConstraints_represents cs
  have hg := h.graph_wellFormed
  have hlt : i < (ofConstraints cs).graph.size := h.size_graph ▸ (List.getElem?_eq_some_iff.mp hi).1
  obtain ⟨comp₀, hcomp₀, hmem₀⟩ := Graph.exists_component hg hlt
  have hsome : ((ofConstraints cs).graph.components.find? (·.contains i)).isSome := by
    rw [List.find?_isSome]
    exact ⟨comp₀, hcomp₀, by simpa using hmem₀⟩
  obtain ⟨comp, hfind⟩ := Option.isSome_iff_exists.mp hsome
  have hcomp := List.mem_of_find?_eq_some hfind
  have hmem : i ∈ comp := by simpa using List.find?_some hfind
  obtain ⟨r, rest, rfl⟩ := List.exists_cons_of_ne_nil (Graph.component_ne_nil hg hcomp)
  have hrlt := Graph.lt_size_of_mem_component hg hcomp (List.mem_cons_self ..)
  obtain ⟨l, hl⟩ : ∃ l, (ofConstraints cs).nodes[r]? = some l :=
    ⟨_, List.getElem?_eq_getElem (h.size_graph ▸ hrlt)⟩
  refine ⟨l, lastTied_of_head hcomp hmem rfl hi hl, ?_⟩
  rw [representative, hfind]
  cases l <;> simp [hl, Level.speaker]

end LevelGraph

open LevelGraph

/-- The representative of a variable of an accepted list. -/
theorem exists_lastTied_of_checkLevels {cs : List Constraint} {a : Assignment}
    (hok : checkLevels cs = .ok a) {x : LevelVar} (hx : .var x ∈ distinctLevels cs) :
    ∃ l, LastTied cs x l ∧ a.representative x = l.speaker x := by
  obtain ⟨k, hk⟩ := exists_eval?_of_checkLevels hok hx
  obtain ⟨e, he, -⟩ := Option.map_eq_some_iff.mp hk
  obtain ⟨-, placed, -, rfl⟩ := checkLevels_eq_ok hok
  obtain ⟨i, p, hi, -, rfl⟩ := exists_vertex_of_find? he
  obtain ⟨l, hl, hspeaker⟩ := exists_speaker hi
  exact ⟨l, hl, by rw [Assignment.representative, he, ← hspeaker]; rfl⟩

/-- Two variables of an accepted store share a class exactly if they are the same, or if each leads
to the other and the last discovered of the levels tied to them is a variable. So the classes are
the tied variables wherever these are not tied to a number. -/
theorem same_class_iff (s : LevelStore) (a : Assignment) (hok : checkLevels s.constraints = .ok a)
    (u v : LevelVar) (hu : ∃ c ∈ s.constraints, c.lo = .var u ∨ c.hi = .var u)
    (hv : ∃ c ∈ s.constraints, c.lo = .var v ∨ c.hi = .var v) :
    (a.representative u = a.representative v ↔ u = v ∨
      Tied s.constraints (.var u) (.var v) ∧ ∃ w, LastTied s.constraints u (.var w)) ∧
    ((∀ k, ¬ Tied s.constraints (.const k) (.var u)) →
      (a.representative u = a.representative v ↔
        u = v ∨ Tied s.constraints (.var u) (.var v))) := by
  have hmem : ∀ {x}, (∃ c ∈ s.constraints, c.lo = .var x ∨ c.hi = .var x) →
      .var x ∈ distinctLevels s.constraints := by
    rintro x ⟨c, hc, hlo | hhi⟩
    · exact hlo ▸ lo_mem_distinctLevels hc
    · exact hhi ▸ hi_mem_distinctLevels hc
  obtain ⟨l, hl, hspeaker⟩ := exists_lastTied_of_checkLevels hok (hmem hu)
  obtain ⟨m, hm, hspeaker'⟩ := exists_lastTied_of_checkLevels hok (hmem hv)
  have hiff := hl.speaker_eq_iff hm
  rw [← hspeaker, ← hspeaker'] at hiff
  refine ⟨hiff, fun hfree => hiff.trans (or_congr_right (and_iff_left ?_))⟩
  cases l with
  | var w => exact ⟨w, hl⟩
  | const k => exact absurd hl.tied (hfree k)

/-- The variables of the cycle between two numbers share a class, so they are tied. -/
theorem same_class_iff_boundedCycle : ∃ a, checkLevels boundedCycle.constraints = .ok a ∧
    a.representative ⟨"unit", 0, false⟩ = a.representative ⟨"unit", 1, false⟩ ∧
    Tied boundedCycle.constraints (.var ⟨"unit", 0, false⟩) (.var ⟨"unit", 1, false⟩) := by
  have htest : (checkLevels boundedCycle.constraints).toOption.any (fun a =>
      a.representative ⟨"unit", 0, false⟩ == a.representative ⟨"unit", 1, false⟩) = true := by
    decide +kernel
  cases hok : checkLevels boundedCycle.constraints with
  | error e => simp [hok, Except.toOption] at htest
  | ok a =>
    simp only [hok, Except.toOption, Option.any_some, beq_iff_eq] at htest
    have hclass := same_class_iff boundedCycle a hok ⟨"unit", 0, false⟩ ⟨"unit", 1, false⟩
      (by decide) (by decide)
    have hne : (⟨"unit", 0, false⟩ : LevelVar) ≠ ⟨"unit", 1, false⟩ := by decide
    exact ⟨a, rfl, htest, ((hclass.1.mp htest).resolve_left hne).1⟩

def numberedCycle : LevelStore where
  owner := "unit"
  constraints :=
    [⟨.var ⟨"unit", 0, false⟩, .var ⟨"unit", 1, false⟩, false, "first"⟩,
     ⟨.var ⟨"unit", 1, false⟩, .const 3, false, "second"⟩,
     ⟨.const 3, .var ⟨"unit", 0, false⟩, false, "third"⟩]

/-- Each of the two variables leads to the other, and they are in different classes. -/
theorem tied_apart : ∃ a, checkLevels numberedCycle.constraints = .ok a ∧
    Tied numberedCycle.constraints (.var ⟨"unit", 0, false⟩) (.var ⟨"unit", 1, false⟩) ∧
    a.representative ⟨"unit", 0, false⟩ ≠ a.representative ⟨"unit", 1, false⟩ := by
  have htest : (checkLevels numberedCycle.constraints).toOption.any (fun a =>
      a.representative ⟨"unit", 0, false⟩ != a.representative ⟨"unit", 1, false⟩) = true := by
    decide +kernel
  have htied : Tied numberedCycle.constraints (.var ⟨"unit", 0, false⟩)
      (.var ⟨"unit", 1, false⟩) := by
    refine ⟨⟨numberedCycle.constraints.take 1, by simp [numberedCycle, IsWalk], ?_⟩,
      ⟨numberedCycle.constraints.drop 1, by simp [numberedCycle, IsWalk], ?_⟩⟩
    · exact fun c hc => .inl (List.mem_of_mem_take hc)
    · exact fun c hc => .inl (List.mem_of_mem_drop hc)
  cases hok : checkLevels numberedCycle.constraints with
  | error e => simp [hok, Except.toOption] at htest
  | ok a =>
    simp only [hok, Except.toOption, Option.any_some, bne_iff_ne] at htest
    exact ⟨a, rfl, htied, htest⟩

end Implicits
