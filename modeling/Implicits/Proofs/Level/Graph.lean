import Implicits.Level.Check
import Implicits.Proofs.Graph.Components
import Implicits.Proofs.Level.Valuation

/-!
The graph of a constraint list says what the constraints say: its edges are constraints between the
levels at their ends, every constraint has an edge between its levels that is strict if the
constraint is, and concrete levels are joined by strict edges in their order.
-/
namespace Implicits

namespace Graph

theorem size_addEdge (g : Graph) (v w : Nat) : (g.addEdge v w).size = g.size := by
  unfold addEdge
  split
  · rfl
  · simp [size]

theorem mem_successors_addEdge (g : Graph) (a b v w : Nat) (ha : a < g.size) :
    w ∈ (g.addEdge a b).successors v ↔ w ∈ g.successors v ∨ v = a ∧ w = b := by
  unfold addEdge
  by_cases hedge : g.hasEdge a b = true
  · rw [if_pos hedge]
    have hb : b ∈ g.successors a := by simpa [hasEdge] using hedge
    constructor
    · exact Or.inl
    · rintro (h | ⟨rfl, rfl⟩)
      · exact h
      · exact hb
  · rw [if_neg hedge]
    have ha' : a < g.adjacency.size := ha
    simp only [successors, Array.getD_eq_getD_getElem?, Array.getElem?_modify]
    by_cases hav : a = v
    · subst hav
      simp [ha']
    · have hva : v ≠ a := Ne.symm hav
      simp [hav, hva]

theorem ofEdges_spec (n : Nat) (es : List (Nat × Nat)) :
    ∀ g : Graph, g.size = n → (∀ e ∈ es, e.1 < n) →
      (es.foldl (fun g e => g.addEdge e.1 e.2) g).size = n ∧
      ∀ v w, w ∈ (es.foldl (fun g e => g.addEdge e.1 e.2) g).successors v ↔
        w ∈ g.successors v ∨ (v, w) ∈ es := by
  induction es with
  | nil =>
    intro g hsize _
    exact ⟨hsize, by simp⟩
  | cons e es ih =>
    intro g hsize hes
    have he : e.1 < n := hes e (List.mem_cons_self ..)
    obtain ⟨hsize', hmem⟩ := ih (g.addEdge e.1 e.2) (by rw [size_addEdge, hsize])
      (fun x hx => hes x (List.mem_cons_of_mem _ hx))
    refine ⟨hsize', ?_⟩
    intro v w
    have hpair : (v, w) = e ↔ v = e.1 ∧ w = e.2 := Prod.ext_iff
    rw [List.foldl_cons, hmem v w, mem_successors_addEdge g e.1 e.2 v w (hsize ▸ he),
      List.mem_cons, or_assoc, hpair]

theorem size_ofEdges (n : Nat) (es : List (Nat × Nat)) (hes : ∀ e ∈ es, e.1 < n) :
    (ofEdges n es).size = n :=
  (ofEdges_spec n es (empty n) (by simp [empty, size]) hes).1

theorem mem_successors_ofEdges (n : Nat) (es : List (Nat × Nat)) (hes : ∀ e ∈ es, e.1 < n)
    (v w : Nat) : w ∈ (ofEdges n es).successors v ↔ (v, w) ∈ es := by
  have h := (ofEdges_spec n es (empty n) (by simp [empty, size]) hes).2 v w
  have hempty : (empty n).successors v = [] := by
    simp only [successors, empty, Array.getD_eq_getD_getElem?, Array.getElem?_replicate]
    split <;> rfl
  rw [hempty] at h
  simpa [ofEdges] using h

end Graph

namespace LevelGraph

theorem sameEnds_iff (e f : Edge) :
    e.sameEnds f = true ↔ e.source = f.source ∧ e.target = f.target := by
  simp [Edge.sameEnds]

def Edge.Covers (f e : Edge) : Prop :=
  f.source = e.source ∧ f.target = e.target ∧
    (e.constraint.strict = true → f.constraint.strict = true)

theorem Edge.Covers.trans {e f h : Edge} (hf : h.Covers f) (he : f.Covers e) : h.Covers e :=
  ⟨hf.1.trans he.1, hf.2.1.trans he.2.1, fun hs => hf.2.2 (he.2.2 hs)⟩

def Simple (edges : List Edge) : Prop := edges.Pairwise fun e f => e.sameEnds f = false

theorem mem_insertEdge {edges : List Edge} {e f : Edge} (hf : f ∈ insertEdge edges e) :
    f = e ∨ f ∈ edges := by
  unfold insertEdge at hf
  split at hf
  · obtain ⟨f', hf', heq⟩ := List.mem_map.mp hf
    split at heq
    · exact Or.inl heq.symm
    · exact Or.inr (heq ▸ hf')
  · rcases List.mem_append.mp hf with hf | hf
    · exact Or.inr hf
    · exact Or.inl (List.mem_singleton.mp hf)

/-- What replaces an edge with the ends of the new one. -/
theorem replace_covers (e f : Edge) :
    (if e.sameEnds f && e.constraint.strict && !f.constraint.strict then e else f).Covers f := by
  split
  · rename_i h
    simp only [Bool.and_eq_true] at h
    obtain ⟨hsource, htarget⟩ := (sameEnds_iff e f).mp h.1.1
    exact ⟨hsource, htarget, fun _ => h.1.2⟩
  · exact ⟨rfl, rfl, fun h => h⟩

theorem insertEdge_covers_old {edges : List Edge} (e : Edge) {f : Edge} (hf : f ∈ edges) :
    ∃ h ∈ insertEdge edges e, h.Covers f := by
  unfold insertEdge
  split
  · exact ⟨_, List.mem_map.mpr ⟨f, hf, rfl⟩, replace_covers e f⟩
  · exact ⟨f, List.mem_append_left _ hf, rfl, rfl, fun h => h⟩

theorem insertEdge_covers_new (edges : List Edge) (e : Edge) :
    ∃ h ∈ insertEdge edges e, h.Covers e := by
  unfold insertEdge
  split
  · rename_i hany
    obtain ⟨f, hf, hsame⟩ := List.any_eq_true.mp hany
    refine ⟨_, List.mem_map.mpr ⟨f, hf, rfl⟩, ?_⟩
    obtain ⟨hsource, htarget⟩ := (sameEnds_iff e f).mp hsame
    by_cases hstrict : (e.sameEnds f && e.constraint.strict && !f.constraint.strict) = true
    · rw [if_pos hstrict]
      exact ⟨rfl, rfl, fun h => h⟩
    · rw [if_neg hstrict]
      refine ⟨hsource.symm, htarget.symm, ?_⟩
      intro he
      simpa [hsame, he] using hstrict
  · exact ⟨e, List.mem_append_right _ (List.mem_singleton_self e), rfl, rfl, fun h => h⟩

theorem insertEdge_simple {edges : List Edge} (hsimple : Simple edges) (e : Edge) :
    Simple (insertEdge edges e) := by
  unfold insertEdge
  split
  · unfold Simple at hsimple ⊢
    rw [List.pairwise_map]
    refine hsimple.imp ?_
    intro f h hfh
    obtain ⟨hf₁, hf₂, _⟩ := replace_covers e f
    obtain ⟨hh₁, hh₂, _⟩ := replace_covers e h
    rw [Bool.eq_false_iff, ne_eq, sameEnds_iff] at hfh ⊢
    rw [hf₁, hf₂, hh₁, hh₂]
    exact hfh
  · rename_i hnone
    unfold Simple
    rw [List.pairwise_append]
    refine ⟨hsimple, List.pairwise_singleton _ _, ?_⟩
    intro f hf h hh
    rw [List.mem_singleton.mp hh, Bool.eq_false_iff, ne_eq, sameEnds_iff]
    rintro ⟨hsource, htarget⟩
    exact hnone (List.any_eq_true.mpr ⟨f, hf, (sameEnds_iff e f).mpr ⟨hsource.symm, htarget.symm⟩⟩)

theorem foldl_insertEdge_spec (es : List Edge) :
    ∀ edges : List Edge, Simple edges →
      Simple (es.foldl insertEdge edges) ∧
      (∀ f ∈ es.foldl insertEdge edges, f ∈ es ∨ f ∈ edges) ∧
      (∀ e, e ∈ es ∨ e ∈ edges → ∃ f ∈ es.foldl insertEdge edges, f.Covers e) := by
  induction es with
  | nil =>
    intro edges hsimple
    refine ⟨hsimple, fun f hf => Or.inr hf, ?_⟩
    rintro e (h | h)
    · simp at h
    · exact ⟨e, h, rfl, rfl, fun h => h⟩
  | cons a es ih =>
    intro edges hsimple
    obtain ⟨hsimple', hmem, hcover⟩ := ih (insertEdge edges a) (insertEdge_simple hsimple a)
    refine ⟨hsimple', ?_, ?_⟩
    · intro f hf
      rcases hmem f hf with h | h
      · exact Or.inl (List.mem_cons_of_mem _ h)
      · rcases mem_insertEdge h with rfl | h
        · exact Or.inl (List.mem_cons_self ..)
        · exact Or.inr h
    · have hlift : ∀ e, (∃ h ∈ insertEdge edges a, h.Covers e) →
          ∃ f ∈ es.foldl insertEdge (insertEdge edges a), f.Covers e := by
        rintro e ⟨h, hh, hhe⟩
        obtain ⟨f, hf, hfh⟩ := hcover h (Or.inr hh)
        exact ⟨f, hf, hfh.trans hhe⟩
      rintro e (h | h)
      · rcases List.mem_cons.mp h with rfl | h
        · exact hlift e (insertEdge_covers_new edges e)
        · exact hcover e (Or.inl h)
      · exact hlift e (insertEdge_covers_old a h)

theorem insertConst_perm (k : Int64) (ks : List Int64) : (insertConst k ks).Perm (k :: ks) := by
  induction ks with
  | nil => exact .refl _
  | cons j js ih =>
    rw [insertConst]
    split
    · exact .refl _
    · exact (ih.cons j).trans (.swap k j js)

theorem insertConst_pairwise (k : Int64) {ks : List Int64} (hks : ks.Pairwise (· ≤ ·)) :
    (insertConst k ks).Pairwise (· ≤ ·) := by
  induction ks with
  | nil => exact List.pairwise_singleton _ _
  | cons j js ih =>
    obtain ⟨hj, hjs⟩ := List.pairwise_cons.mp hks
    rw [insertConst]
    split
    · rename_i hkj
      refine List.pairwise_cons.mpr ⟨fun i hi => ?_, hks⟩
      rcases List.mem_cons.mp hi with rfl | hi
      · exact hkj
      · exact Int64.le_trans hkj (hj i hi)
    · rename_i hkj
      refine List.pairwise_cons.mpr ⟨fun i hi => ?_, ih hjs⟩
      rcases List.mem_cons.mp ((insertConst_perm k js).mem_iff.mp hi) with rfl | hi
      · exact Int64.le_of_lt (Int64.not_le.mp hkj)
      · exact hj i hi

theorem sortedConsts_perm (nodes : List Level) :
    (sortedConsts nodes).Perm (nodes.filterMap Level.const?) := by
  unfold sortedConsts
  induction nodes.filterMap Level.const? with
  | nil => exact .refl _
  | cons k ks ih => exact (insertConst_perm k _).trans (ih.cons k)

theorem levelOrder_eq (nodes : List Level) :
    levelOrder nodes = ((sortedConsts nodes).zip (sortedConsts nodes).tail).map
      fun p => ⟨.const p.1, .const p.2, true, "level order"⟩ := rfl

theorem mem_sortedConsts (nodes : List Level) (k : Int64) :
    k ∈ sortedConsts nodes ↔ Level.const k ∈ nodes := by
  rw [(sortedConsts_perm nodes).mem_iff, List.mem_filterMap]
  constructor
  · rintro ⟨l, hl, hk⟩
    cases l with
    | const j =>
      simp only [Level.const?, Option.some.injEq] at hk
      exact hk ▸ hl
    | var x => simp [Level.const?] at hk
  · intro hk
    exact ⟨.const k, hk, rfl⟩

theorem sortedConsts_pairwise {nodes : List Level} (hnodup : nodes.Nodup) :
    (sortedConsts nodes).Pairwise (· < ·) := by
  have hle : (sortedConsts nodes).Pairwise (· ≤ ·) := by
    unfold sortedConsts
    induction nodes.filterMap Level.const? with
    | nil => exact List.Pairwise.nil
    | cons k ks ih => exact insertConst_pairwise k ih
  have hconsts : (nodes.filterMap Level.const?).Nodup := by
    apply hnodup.filterMap
    intro l m k hl hm
    cases l <;> cases m <;> simp_all [Level.const?]
  have hne : (sortedConsts nodes).Nodup := (sortedConsts_perm nodes).nodup_iff.mpr hconsts
  refine (hle.and hne).imp ?_
  rintro a b ⟨hab, hne⟩
  have hint : a.toInt ≠ b.toInt := fun h => hne (Int64.toInt_inj.mp h)
  rw [Int64.le_iff_toInt_le] at hab
  rw [Int64.lt_iff_toInt_lt]
  omega

theorem lt_of_mem_zip_tail {ks : List Int64} (hks : ks.Pairwise (· < ·)) {p : Int64 × Int64}
    (hp : p ∈ ks.zip ks.tail) : p.1 < p.2 := by
  induction ks with
  | nil => simp at hp
  | cons k ks ih =>
    cases ks with
    | nil => simp at hp
    | cons j ks =>
      simp only [List.tail_cons, List.zip_cons_cons, List.mem_cons] at hp
      rcases hp with rfl | hp
      · exact (List.pairwise_cons.mp hks).1 j (List.mem_cons_self ..)
      · exact ih (List.pairwise_cons.mp hks).2 hp

/-- Every valuation satisfies the order of concrete levels. -/
theorem satisfies_levelOrder {nodes : List Level} (hnodup : nodes.Nodup) (v : Valuation) :
    v.Satisfies (levelOrder nodes) := by
  intro c hc
  rw [levelOrder_eq, List.mem_map] at hc
  obtain ⟨p, hp, rfl⟩ := hc
  have hlt := lt_of_mem_zip_tail (sortedConsts_pairwise hnodup) hp
  simpa [Constraint.Holds, Level.value] using Int64.lt_iff_toInt_lt.mp hlt

/-- Neighbours of an increasing list lead from each element to every larger one. -/
theorem exists_neighbour {ks : List Int64} (hks : ks.Pairwise (· < ·)) {a b : Int64} (ha : a ∈ ks)
    (hb : b ∈ ks) (hab : a < b) :
    ∃ a', (a, a') ∈ ks.zip ks.tail ∧
      Relation.ReflTransGen (fun x y => (x, y) ∈ ks.zip ks.tail) a' b := by
  induction ks generalizing a with
  | nil => simp at ha
  | cons k ks ih =>
    obtain ⟨hk, htail⟩ := List.pairwise_cons.mp hks
    have hb' : b ∈ ks := by
      rcases List.mem_cons.mp hb with rfl | hb
      · rcases List.mem_cons.mp ha with rfl | ha
        · exact absurd hab Int64.lt_irrefl
        · exact absurd (Int64.lt_trans (hk a ha) hab) Int64.lt_irrefl
      · exact hb
    cases ks with
    | nil => simp at hb'
    | cons j ks =>
      have hmono : ∀ x y, (x, y) ∈ (j :: ks).zip ks → (x, y) ∈ (k :: j :: ks).zip (j :: ks) := by
        intro x y hxy
        rw [List.zip_cons_cons]
        exact List.mem_cons_of_mem _ hxy
      rcases List.mem_cons.mp ha with rfl | ha
      · refine ⟨j, by simp, ?_⟩
        rcases List.mem_cons.mp hb' with rfl | hbk
        · exact Relation.ReflTransGen.refl
        · have hjb : j < b := (List.pairwise_cons.mp htail).1 b hbk
          obtain ⟨a', hedge, hpath⟩ := ih htail (List.mem_cons_self ..) hb' hjb
          exact Relation.ReflTransGen.head (hmono _ _ hedge)
            (Relation.ReflTransGen.mono hmono _ _ hpath)
      · obtain ⟨a', hedge, hpath⟩ := ih htail ha hb' hab
        exact ⟨a', hmono _ _ hedge, Relation.ReflTransGen.mono hmono _ _ hpath⟩

/-- A graph whose edges are the constraints of a list, up to weaker ones between the same levels. -/
structure Represents (lg : LevelGraph) (cs : List Constraint) : Prop where
  nodup : lg.nodes.Nodup
  simple : Simple lg.edges
  sound : ∀ e ∈ lg.edges, e.constraint ∈ cs ∧ lg.nodes[e.source]? = some e.constraint.lo ∧
    lg.nodes[e.target]? = some e.constraint.hi
  complete : ∀ c ∈ cs, ∃ e ∈ lg.edges, lg.nodes[e.source]? = some c.lo ∧
    lg.nodes[e.target]? = some c.hi ∧ (c.strict = true → e.constraint.strict = true)

def graphConstraints (cs : List Constraint) : List Constraint :=
  cs ++ levelOrder (distinctLevels cs)

theorem ends_mem_of_mem_graphConstraints {cs : List Constraint} {c : Constraint}
    (hc : c ∈ graphConstraints cs) : c.lo ∈ distinctLevels cs ∧ c.hi ∈ distinctLevels cs := by
  rcases List.mem_append.mp hc with hc | hc
  · exact ⟨lo_mem_distinctLevels hc, hi_mem_distinctLevels hc⟩
  · rw [levelOrder_eq, List.mem_map] at hc
    obtain ⟨p, hp, rfl⟩ := hc
    obtain ⟨h₁, h₂⟩ := List.of_mem_zip hp
    exact ⟨(mem_sortedConsts _ _).mp h₁, (mem_sortedConsts _ _).mp (List.mem_of_mem_tail h₂)⟩

theorem ofConstraints_represents (cs : List Constraint) :
    (ofConstraints cs).Represents (graphConstraints cs) := by
  let edge (c : Constraint) : Edge :=
    ⟨(distinctLevels cs).idxOf c.lo, (distinctLevels cs).idxOf c.hi, c⟩
  have hnodes : (ofConstraints cs).nodes = distinctLevels cs := rfl
  have hedges : (ofConstraints cs).edges = ((graphConstraints cs).map edge).foldl insertEdge [] :=
    rfl
  obtain ⟨hsimple, hmem, hcover⟩ :=
    foldl_insertEdge_spec ((graphConstraints cs).map edge) [] List.Pairwise.nil
  have hget : ∀ l ∈ distinctLevels cs, (distinctLevels cs)[(distinctLevels cs).idxOf l]? = some l :=
    fun l hl => List.getElem?_idxOf hl
  refine ⟨hnodes ▸ distinctLevels_nodup cs, hedges ▸ hsimple, ?_, ?_⟩
  · intro e he
    rw [hedges] at he
    rw [hnodes]
    rcases hmem e he with h | h
    · obtain ⟨c, hc, rfl⟩ := List.mem_map.mp h
      obtain ⟨hlo, hhi⟩ := ends_mem_of_mem_graphConstraints hc
      exact ⟨hc, hget c.lo hlo, hget c.hi hhi⟩
    · simp at h
  · intro c hc
    rw [hedges, hnodes]
    obtain ⟨hlo, hhi⟩ := ends_mem_of_mem_graphConstraints hc
    obtain ⟨f, hf, hsource, htarget, hstrict⟩ :=
      hcover (edge c) (Or.inl (List.mem_map_of_mem hc))
    exact ⟨f, hf, hsource ▸ hget c.lo hlo, htarget ▸ hget c.hi hhi, hstrict⟩

namespace Represents

variable {lg : LevelGraph} {cs : List Constraint}

theorem index_unique (h : lg.Represents cs) {i j : Nat} {l : Level}
    (hi : lg.nodes[i]? = some l) (hj : lg.nodes[j]? = some l) : i = j := by
  obtain ⟨hi', hil⟩ := List.getElem?_eq_some_iff.mp hi
  obtain ⟨hj', hjl⟩ := List.getElem?_eq_some_iff.mp hj
  exact (h.nodup.getElem_inj_iff).mp (hil.trans hjl.symm)

theorem source_lt (h : lg.Represents cs) {e : Edge} (he : e ∈ lg.edges) :
    e.source < lg.nodes.length :=
  (List.getElem?_eq_some_iff.mp (h.sound e he).2.1).1

theorem target_lt (h : lg.Represents cs) {e : Edge} (he : e ∈ lg.edges) :
    e.target < lg.nodes.length :=
  (List.getElem?_eq_some_iff.mp (h.sound e he).2.2).1

theorem sources_lt (h : lg.Represents cs) :
    ∀ p ∈ lg.edges.map fun e => (e.source, e.target), p.1 < lg.nodes.length := by
  intro p hp
  obtain ⟨e, he, rfl⟩ := List.mem_map.mp hp
  exact h.source_lt he

theorem size_graph (h : lg.Represents cs) : lg.graph.size = lg.nodes.length :=
  Graph.size_ofEdges _ _ h.sources_lt

theorem mem_successors_iff (h : lg.Represents cs) (v w : Nat) :
    w ∈ lg.graph.successors v ↔ ∃ e ∈ lg.edges, e.source = v ∧ e.target = w := by
  rw [graph, Graph.mem_successors_ofEdges _ _ h.sources_lt, List.mem_map]
  constructor
  · rintro ⟨e, he, heq⟩
    obtain ⟨rfl, rfl⟩ := Prod.mk.inj heq
    exact ⟨e, he, rfl, rfl⟩
  · rintro ⟨e, he, rfl, rfl⟩
    exact ⟨e, he, rfl⟩

theorem graph_wellFormed (h : lg.Represents cs) : lg.graph.WellFormed := by
  intro v w hw
  obtain ⟨e, he, _, rfl⟩ := (h.mem_successors_iff v w).mp hw
  rw [h.size_graph]
  exact h.target_lt he

/-- No two edges have the same ends, so looking up the constraint of an edge finds it. -/
theorem constraint?_eq (h : lg.Represents cs) {e : Edge} (he : e ∈ lg.edges) :
    lg.constraint? e.source e.target = some e.constraint := by
  have hsome : (lg.edges.find? fun f => f.source == e.source && f.target == e.target).isSome := by
    rw [List.find?_isSome]
    exact ⟨e, he, by simp⟩
  obtain ⟨f, hf⟩ := Option.isSome_iff_exists.mp hsome
  have hends := List.find?_some hf
  have hmem := List.mem_of_find?_eq_some hf
  simp only [Bool.and_eq_true, beq_iff_eq] at hends
  have hfe : f = e := by
    by_contra hne
    have hsame : f.sameEnds e = true := (sameEnds_iff f e).mpr hends
    have hsame' : e.sameEnds f = true := (sameEnds_iff e f).mpr ⟨hends.1.symm, hends.2.symm⟩
    rcases List.pairwise_iff_getElem.mp h.simple with hpair
    obtain ⟨i, hi, rfl⟩ := List.mem_iff_getElem.mp hmem
    obtain ⟨j, hj, rfl⟩ := List.mem_iff_getElem.mp he
    rcases Nat.lt_trichotomy i j with hij | hij | hij
    · exact absurd (hpair i j hi hj hij) (by simp [hsame])
    · exact hne (by simp [hij])
    · exact absurd (hpair j i hj hi hij) (by simp [hsame'])
  rw [constraint?, hf, hfe]
  rfl

end Represents

end LevelGraph

end Implicits
