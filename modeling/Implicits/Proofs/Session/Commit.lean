import Implicits.Proofs.Checker.Advance
import Implicits.Proofs.Session.Run

/-!
Commits are all or nothing. A unit that passed has signatures of distinct names, and each of its
conversions belongs to a signature that conversions can be made from. In a tree of sessions every
conversion has a visible signature of its name. Where the names of the unit are new, no conversion
can therefore be refused after the signatures have been installed.
-/
namespace Implicits

open Term

/-- Where the result has no holes, it is read in the same way from any table. -/
theorem Signature.Converts.of_holeFree {sig : Signature} {h : Holes} {p : Param Term}
    (hp : sig.Converts h p) (hfree : sig.result.HoleFree) (h' : Holes) : sig.Converts h' p := by
  obtain ⟨hparams, hexplicit, hresult⟩ := hp
  rw [Holes.expand_of_holeFree h hfree] at hresult
  refine ⟨hparams, hexplicit, ?_⟩
  rwa [Holes.expand_of_holeFree h' hfree]

namespace Declarations

variable {env env' : Declarations} {name : String} {h : Holes}

/-- A conversion is made of a function that allows it, unless it is filed already. -/
theorem conversion_eq_ok {sig : Signature} {p : Param Term} (hsig : env.signature? name = some sig)
    (hp : sig.Converts h p) (hnew : ∀ entry ∈ env.conversions, entry.2.name ≠ name) :
    env.conversion name h = .ok (env.filed h sig p) := by
  obtain ⟨hparams, hexplicit, hresult⟩ := hp
  have hname := name_of_signature? hsig
  have hnone : ∀ key, ((env.conversionsAt key).any (·.name == name)) = false := by
    intro key
    rw [List.any_eq_false]
    intro conv hconv
    obtain ⟨entry, hentry, rfl⟩ := List.mem_map.mp hconv
    simpa using hnew entry (List.mem_of_mem_filter hentry)
  simp [conversion, filed, hsig, hparams, hexplicit, hresult, hnone, hname]

theorem normalize_of_reductions (h : Holes) (heq : env'.reductions = env.reductions) (t : Term) :
    h.normalize env' t = h.normalize env t := by
  have hreduce : env'.reduce? = env.reduce? := by
    funext name args
    rw [reduce?, reduce?, reduction?, reduction?, heq]
  have hnormal : ∀ n t left, h.normalizeN env' n t left = h.normalizeN env n t left := by
    intro n
    induction n with
    | zero => exact fun _ _ => rfl
    | succ n ih =>
      intro t left
      simp only [Holes.normalizeN, hreduce, ih]
  rw [Holes.normalize, Holes.normalize, Holes.normalizeCount, Holes.normalizeCount, hnormal]

theorem filed_of_reductions (heq : env'.reductions = env.reductions) (h : Holes) (sig : Signature)
    (p : Param Term) : env'.filed h sig p = env.filed h sig p := by
  simp only [filed, normalize_of_reductions _ heq]

theorem foldl_addSignature (sigs : List Signature) (env : Declarations) :
    sigs.foldl addSignature env = { env with signatures := sigs.reverse ++ env.signatures } := by
  induction sigs generalizing env with
  | nil => rfl
  | cons sig sigs ih => simp [ih, addSignature]

end Declarations

/-- What a unit needs for its conversions to be made: distinct names, and for each conversion a
signature that has allowed it. -/
structure CheckedUnit.Convertible (unit : CheckedUnit) : Prop where
  names : (unit.signatures.map (·.name)).Nodup
  distinct : unit.conversions.Nodup
  conversions : ∀ name ∈ unit.conversions, ∃ sig ∈ unit.signatures, ∃ h p,
    sig.name = name ∧ sig.Converts h p

def CheckedUnit.Determined (unit : CheckedUnit) : Prop :=
  ∀ sig ∈ unit.signatures, sig.name ∈ unit.conversions → sig.result.HoleFree

namespace Check

variable {outer : Declarations} {c : Checker}

theorem declareOwn_new (outer : Declarations) (sig : Signature) (c : Checker) :
    Ends (declareOwn outer sig) c (fun _ c' => c'.own = c.own.addSignature sig ∧
      ∀ other ∈ c.own.signatures, other.name ≠ sig.name) fun _ _ => True := by
  unfold declareOwn
  rw [ends_bind, ends_visible]
  split
  · trivial
  · rename_i hnone
    rw [Option.not_isSome_iff_eq_none, Declarations.signature?_eq_none] at hnone
    exact ⟨rfl, fun other hother => hnone other (List.mem_append_left _ hother)⟩

/-- A conversion of the latest signature is only made if the signature allows it. -/
theorem declareOwnConversion_converts {sig : Signature} {sigs : List Signature}
    (hc : c.own.signatures = sig :: sigs) :
    Ends (declareOwnConversion outer sig.name) c (fun _ c' => c'.own.signatures = c.own.signatures ∧
      ∃ h p, sig.Converts h p) fun _ _ => True := by
  unfold declareOwnConversion
  rw [ends_bind, ends_visible, ends_bind, ends_holes]
  split
  · trivial
  · rename_i entry hentry
    obtain ⟨found, p, hfound, hconverts, -⟩ := Declarations.filed_of_conversion hentry
    have hlatest : (c.own.append outer).signature? sig.name = some sig := by
      simp [Declarations.signature?, Declarations.append, hc]
    obtain rfl := Option.some.inj (hlatest.symm.trans hfound)
    exact ⟨rfl, _, p, hconverts⟩

/-- A declaration adds a signature of a new name. -/
theorem checkDeclaration_adds (d : Declaration) (c : Checker) :
    Ends (checkDeclaration outer d) c (fun checked c' =>
      c'.own.signatures = checked.signature :: c.own.signatures ∧
      (∀ other ∈ c.own.signatures, other.name ≠ checked.signature.name) ∧
      (checked.implicit = true → ∃ h p, checked.signature.Converts h p)) fun _ _ => True := by
  unfold checkDeclaration
  split
  · trivial
  · rename_i sig hsig
    rw [ends_bind, ends_visible]
    have hsteps : IsAdvance [sig.name] (checkSignature (c.own.append outer) sig) :=
      checkSignature_advance (by simp)
    refine (hsteps c).andThen fun checked c₁ h₁ => ?_
    refine (declareOwn_new outer checked c₁).andThen fun _ c₂ h₂ => ?_
    obtain ⟨hown₂, hnew⟩ := h₂
    rw [h₁.own] at hown₂ hnew
    have hsigs₂ : c₂.own.signatures = checked :: c.own.signatures := by rw [hown₂]; rfl
    -- The body changes nothing, with the conversion and without it.
    have hbody : ∀ c₃ : Checker, c₃.own.signatures = c₂.own.signatures →
        (d.implicit = true → ∃ h p, checked.Converts h p) → Ends (do
          let body ← checkBody outer checked d.body
          return (⟨checked, body, d.implicit⟩ : CheckedDeclaration)) c₃ (fun checked c' =>
            c'.own.signatures = checked.signature :: c.own.signatures ∧
            (∀ other ∈ c.own.signatures, other.name ≠ checked.signature.name) ∧
            (checked.implicit = true → ∃ h p, checked.signature.Converts h p)) fun _ _ => True := by
      intro c₃ hown₃ hconverts
      have hsteps : IsAdvance [] (checkBody outer checked d.body) :=
        checkBody_advance outer checked d.body
      refine (hsteps c₃).andThen fun body c₄ h₄ => ?_
      exact ⟨by rw [h₄.own, hown₃, hsigs₂], hnew, hconverts⟩
    split
    · exact (declareOwnConversion_converts hsigs₂).andThen fun _ c₃ h => hbody c₃ h.1 fun _ => h.2
    · rename_i hexplicit
      exact hbody c₂ rfl fun himplicit => absurd himplicit hexplicit

theorem mapM_checkDeclaration_adds (ds : List Declaration) (c : Checker) :
    Ends (ds.mapM (checkDeclaration outer)) c (fun checked _ =>
      (checked.map (·.signature.name)).Nodup ∧
      (∀ d ∈ checked, ∀ other ∈ c.own.signatures, other.name ≠ d.signature.name) ∧
      ∀ d ∈ checked, d.implicit = true → ∃ h p, d.signature.Converts h p) fun _ _ => True := by
  induction ds generalizing c with
  | nil => exact ⟨List.nodup_nil, by simp, by simp⟩
  | cons d ds ih =>
    rw [List.mapM_cons]
    refine (checkDeclaration_adds d c).andThen fun d' c₁ h => ?_
    obtain ⟨hown, hnew, hconverts⟩ := h
    refine (ih c₁).andThen fun rest c₂ h => ?_
    obtain ⟨hnodup, hnew', hconverts'⟩ := h
    rw [hown] at hnew'
    refine ⟨?_, ?_, List.forall_mem_cons.mpr ⟨hconverts, hconverts'⟩⟩
    · rw [List.map_cons, List.nodup_cons]
      refine ⟨fun hmem => ?_, hnodup⟩
      obtain ⟨e, he, heq⟩ := List.mem_map.mp hmem
      exact hnew' e he d'.signature (by simp) heq.symm
    · exact List.forall_mem_cons.mpr
        ⟨hnew, fun e he other hother => hnew' e he other (by simp [hother])⟩

theorem checkDeclarations_convertible (unit : SourceUnit) (c : Checker) :
    Ends (checkDeclarations outer unit) c (fun checked _ => checked.Convertible)
      fun _ _ => True := by
  unfold checkDeclarations
  refine (mapM_checkDeclaration_adds unit.declarations c).andThen fun checked c₁ h => ?_
  obtain ⟨hnodup, -, hconverts⟩ := h
  refine (Checker.checkUniverses_ends c₁).andThen fun _ c₂ _ => ?_
  rw [ends_bind, ends_get, ends_bind, ends_modify, ends_bind, ends_get, ends_pure]
  refine ⟨by simpa [Function.comp_def] using hnodup, ?_, ?_⟩
  · exact hnodup.sublist (List.filter_sublist.map _)
  · intro name hname
    obtain ⟨d, hd, rfl⟩ := List.mem_map.mp hname
    obtain ⟨hd, himplicit⟩ := List.mem_filter.mp hd
    obtain ⟨h, p, hp⟩ := hconverts d hd himplicit
    exact ⟨_, List.mem_map_of_mem hd, h, p, rfl, hp⟩

/-- A unit that passes can have its conversions made. -/
theorem checkUnit_convertible (unit : SourceUnit) (c : Checker) :
    Ends (checkUnit outer unit) c (fun checked _ => checked.Convertible) fun _ _ => True := by
  have hchecked : Ends (tryCatch (checkDeclarations outer unit) fun e => do
      modify fun c =>
        { c with
          failure := c.failure.or (some e)
          solver := { c.solver with levels := c.solver.levels.reset } }
      throw (.inUnit unit.name e)) c (fun checked _ => checked.Convertible) fun _ _ => True := by
    rw [ends_tryCatch]
    exact (checkDeclarations_convertible unit c).mono (fun _ _ h => h) fun _ _ _ => trivial
  exact hchecked.andThen fun checked c₁ h => h

end Check

namespace Sessions

variable {t t' : Sessions} {id : SessionId}

/-- A step on a session changes this session or, if there is none, nothing. -/
theorem get_update_cases (t : Sessions) (id : SessionId) (f : Session → Session) (i : SessionId) :
    (t.update id f).get i = t.get i ∨ i = id ∧ (t.update id f).get i = f (t.get id) := by
  by_cases hid : id < t.table.size
  · by_cases hi : i = id
    · exact .inr ⟨hi, hi ▸ get_update hid f⟩
    · refine .inl ?_
      simp [get, update, Array.getD_eq_getD_getElem?, Array.getElem?_modify, Ne.symm hi]
  · refine .inl ?_
    simp [update, Array.modify, Array.modifyM, hid]

theorem update_self (t : Sessions) (id : SessionId) : (t.update id fun s => s) = t := by
  have htable : t.table.modify id (fun s => s) = t.table := by
    refine Array.ext (by simp) fun i h h' => ?_
    simp [Array.getElem_modify]
  rw [update, htable]

theorem update_update (f g : Session → Session) :
    (t.update id f).update id g = t.update id fun s => g (f s) := by
  simp only [update, mk.injEq]
  refine Array.ext (by simp) fun i h h' => ?_
  simp only [Array.getElem_modify]
  split <;> rfl

/-- A part of a session that a step keeps where it is taken is kept everywhere. -/
theorem get_update_eq {α : Type} {f : Session → Session} (part : Session → α)
    (hf : part (f (t.get id)) = part (t.get id)) (i : SessionId) :
    part ((t.update id f).get i) = part (t.get i) := by
  rcases get_update_cases t id f i with hsame | ⟨rfl, hstep⟩
  · rw [hsame]
  · rw [hstep, hf]

theorem lineage_update {f : Session → Session}
    (hf : (f (t.get id)).ancestors = (t.get id).ancestors) (i : SessionId) :
    (t.update id f).lineage i = t.lineage i := by
  rw [lineage, lineage, get_update_eq (·.ancestors) hf]

theorem get_create_self (t : Sessions) (parent : Option SessionId) :
    (t.create parent).2.get t.table.size = match parent with
      | some p => { ancestors := t.lineage p }
      | none => { own := { signatures := Prim.all.map Prim.signature } } := by
  cases parent <;> simp [create, get]

theorem get_create_of_ne {parent : Option SessionId} {i : SessionId} (hi : i ≠ t.table.size) :
    (t.create parent).2.get i = t.get i := by
  simp only [create, get, Array.getD_eq_getD_getElem?, Array.getElem?_push, if_neg hi]

/-- What is visible in a session is what its lineage declares, part by part. -/
theorem visible_flatMap {α : Type} (part : Declarations → List α)
    (happend : ∀ d e, part (d.append e) = part d ++ part e) (hempty : part {} = []) :
    part (t.visible id) = (t.lineage id).flatMap fun i => part (t.get i).own := by
  unfold visible
  induction t.lineage id with
  | nil => exact hempty
  | cons i ids ih => rw [List.foldr_cons, happend, ih, List.flatMap_cons]

/-- A part of the declarations that a step keeps where it is taken stays visible as it is. -/
theorem visible_update_eq {α : Type} {f : Session → Session} (part : Declarations → List α)
    (happend : ∀ d e, part (d.append e) = part d ++ part e) (hempty : part {} = [])
    (hancestors : (f (t.get id)).ancestors = (t.get id).ancestors)
    (hf : part (f (t.get id)).own = part (t.get id).own) (i : SessionId) :
    part ((t.update id f).visible i) = part (t.visible i) := by
  rw [visible_flatMap part happend hempty, visible_flatMap part happend hempty,
    lineage_update hancestors]
  exact congrArg (List.flatMap · _) (funext fun j => get_update_eq (fun s => part s.own) hf j)

theorem visible_signatures (t : Sessions) (id : SessionId) :
    (t.visible id).signatures = (t.lineage id).flatMap fun i => (t.get i).own.signatures :=
  visible_flatMap (·.signatures) (fun _ _ => rfl) rfl

theorem visible_conversions (t : Sessions) (id : SessionId) :
    (t.visible id).conversions = (t.lineage id).flatMap fun i => (t.get i).own.conversions :=
  visible_flatMap (·.conversions) (fun _ _ => rfl) rfl

theorem visible_reductions (t : Sessions) (id : SessionId) :
    (t.visible id).reductions = (t.lineage id).flatMap fun i => (t.get i).own.reductions :=
  visible_flatMap (·.reductions) (fun _ _ => rfl) rfl

/-- What is known of a tree of sessions: ancestors exist and see no more than their descendants, and
each conversion has a signature that can be seen where it is declared. -/
structure Rooted (t : Sessions) : Prop where
  exist : ∀ id, ∀ i ∈ (t.get id).ancestors, i < t.table.size
  lineage : ∀ id, ∀ i ∈ t.lineage id, t.lineage i ⊆ t.lineage id
  named : ∀ id, ∀ entry ∈ (t.get id).own.conversions,
    ∃ sig ∈ (t.visible id).signatures, sig.name = entry.2.name

namespace Rooted

theorem empty : Rooted {} := by
  have hget : ∀ id, ({} : Sessions).get id = {} := fun id => rfl
  refine ⟨fun id i hi => ?_, fun id i hi => ?_, fun id entry hentry => ?_⟩
  · simp [hget] at hi
  · simp only [Sessions.lineage, hget, List.mem_singleton] at hi ⊢
    exact hi ▸ List.Subset.refl _
  · simp [hget] at hentry

/-- A conversion that can be seen has a signature that can be seen. -/
theorem visible_named (h : t.Rooted) {entry : String × Conversion}
    (hentry : entry ∈ (t.visible id).conversions) :
    ∃ sig ∈ (t.visible id).signatures, sig.name = entry.2.name := by
  rw [visible_conversions, List.mem_flatMap] at hentry
  obtain ⟨i, hi, hentry⟩ := hentry
  obtain ⟨sig, hsig, hname⟩ := h.named i entry hentry
  rw [visible_signatures, List.mem_flatMap] at hsig
  obtain ⟨j, hj, hsig⟩ := hsig
  refine ⟨sig, ?_, hname⟩
  rw [visible_signatures, List.mem_flatMap]
  exact ⟨j, h.lineage id i hi hj, hsig⟩

/-- A step that adds signatures and conversions of visible names to a session. -/
theorem update (h : t.Rooted) {f : Session → Session}
    (hancestors : (f (t.get id)).ancestors = (t.get id).ancestors)
    (hsigs : (t.get id).own.signatures ⊆ (f (t.get id)).own.signatures)
    (hconversions : ∀ entry ∈ (f (t.get id)).own.conversions, entry ∈ (t.get id).own.conversions ∨
      ∃ sig ∈ (t.visible id).signatures, sig.name = entry.2.name) : (t.update id f).Rooted := by
  have hown : ∀ i, (t.get i).own.signatures ⊆ ((t.update id f).get i).own.signatures := by
    intro i
    rcases get_update_cases t id f i with hsame | ⟨rfl, hstep⟩
    · rw [hsame]
      exact List.Subset.refl _
    · rwa [hstep]
  refine ⟨fun i => ?_, fun i j => ?_, fun i entry hentry => ?_⟩
  · rw [get_update_eq (·.ancestors) hancestors]
    simpa [Sessions.update] using h.exist i
  · rw [lineage_update hancestors, lineage_update hancestors]
    exact h.lineage i j
  · have hnamed : ∃ sig ∈ (t.visible i).signatures, sig.name = entry.2.name := by
      rcases get_update_cases t id f i with hsame | ⟨rfl, hstep⟩
      · exact h.named i entry (hsame ▸ hentry)
      · rcases hconversions entry (hstep ▸ hentry) with hold | hnew
        · exact h.named i entry hold
        · exact hnew
    obtain ⟨sig, hsig, hname⟩ := hnamed
    refine ⟨sig, ?_, hname⟩
    rw [visible_signatures, List.mem_flatMap] at hsig ⊢
    obtain ⟨j, hj, hsig⟩ := hsig
    exact ⟨j, by rwa [lineage_update hancestors], hown j hsig⟩

/-- The ancestors of a new session exist, and it sees what they see. -/
theorem ancestors_create (h : t.Rooted) {parent : Option SessionId}
    (hparent : ∀ p ∈ parent, p < t.table.size) :
    ∀ i ∈ ((t.create parent).2.get t.table.size).ancestors, i < t.table.size ∧
      t.lineage i ⊆ ((t.create parent).2.get t.table.size).ancestors := by
  rw [get_create_self]
  cases parent with
  | none => simp
  | some p =>
    intro i hi
    refine ⟨?_, h.lineage p i hi⟩
    rcases List.mem_cons.mp hi with rfl | hi
    · exact hparent _ rfl
    · exact h.exist p i hi

/-- Existing sessions see existing sessions only. -/
theorem ne_of_mem_lineage (h : t.Rooted) {i j : SessionId} (hi : i ≠ t.table.size)
    (hj : j ∈ t.lineage i) : j ≠ t.table.size := by
  rcases List.mem_cons.mp hj with rfl | hj
  · exact hi
  · exact Nat.ne_of_lt (h.exist i j hj)

theorem create (h : t.Rooted) {parent : Option SessionId}
    (hparent : ∀ p ∈ parent, p < t.table.size) :
    (t.create parent).2.Rooted := by
  have hancestors := h.ancestors_create hparent
  have hsize : (t.create parent).2.table.size = t.table.size + 1 := by simp [Sessions.create]
  have hlineage : ∀ {i}, i ≠ t.table.size → (t.create parent).2.lineage i = t.lineage i := by
    intro i hi
    rw [Sessions.lineage, Sessions.lineage, get_create_of_ne hi]
  refine ⟨fun i j hj => ?_, fun i j hj => ?_, fun i entry hentry => ?_⟩
  · rw [hsize]
    by_cases hi : i = t.table.size
    · exact Nat.lt_succ_of_lt (hancestors j (hi ▸ hj)).1
    · rw [get_create_of_ne hi] at hj
      exact Nat.lt_succ_of_lt (h.exist i j hj)
  · by_cases hi : i = t.table.size
    · subst hi
      rcases List.mem_cons.mp hj with rfl | hj
      · exact List.Subset.refl _
      · obtain ⟨hlt, hsub⟩ := hancestors j hj
        rw [hlineage (Nat.ne_of_lt hlt)]
        exact List.subset_cons_of_subset _ hsub
    · rw [hlineage hi] at hj ⊢
      rw [hlineage (h.ne_of_mem_lineage hi hj)]
      exact h.lineage i j hj
  · by_cases hi : i = t.table.size
    · rw [hi, get_create_self] at hentry
      cases parent <;> simp at hentry
    · rw [get_create_of_ne hi] at hentry
      obtain ⟨sig, hsig, hname⟩ := h.named i entry hentry
      refine ⟨sig, ?_, hname⟩
      rw [visible_signatures, List.mem_flatMap] at hsig ⊢
      obtain ⟨j, hj, hsig⟩ := hsig
      rw [hlineage hi]
      exact ⟨j, hj, by rwa [get_create_of_ne (h.ne_of_mem_lineage hi hj)]⟩

end Rooted

def addConversions (t : Sessions) (id : SessionId) (entries : List (String × Conversion)) :
    Sessions :=
  t.update id fun s => { s with own := { s.own with conversions := s.own.conversions ++ entries } }

def addSignatures (t : Sessions) (id : SessionId) (sigs : List Signature) : Sessions :=
  t.update id
    fun s => { s with own := { s.own with signatures := sigs.reverse ++ s.own.signatures } }

@[simp] theorem addConversions_nil (t : Sessions) (id : SessionId) :
    t.addConversions id [] = t := by
  simp [addConversions, update_self]

theorem addConversions_addConversions (entries entries' : List (String × Conversion)) :
    (t.addConversions id entries).addConversions id entries' =
      t.addConversions id (entries ++ entries') := by
  simp [addConversions, update_update]

theorem signature?_addConversions (entries : List (String × Conversion)) :
    ((t.addConversions id entries).visible id).signature? = (t.visible id).signature? := by
  funext name
  rw [Declarations.signature?, Declarations.signature?,
    addConversions, visible_update_eq (·.signatures) (fun _ _ => rfl) rfl rfl rfl]

theorem reductions_addConversions (entries : List (String × Conversion)) :
    ((t.addConversions id entries).visible id).reductions = (t.visible id).reductions :=
  visible_update_eq (·.reductions) (fun _ _ => rfl) rfl rfl rfl id

theorem mem_conversions_addConversions {entries : List (String × Conversion)}
    {entry : String × Conversion}
    (hentry : entry ∈ ((t.addConversions id entries).visible id).conversions) :
    entry ∈ (t.visible id).conversions ∨ entry ∈ entries := by
  rw [visible_conversions, addConversions, lineage_update rfl, List.mem_flatMap] at hentry
  obtain ⟨i, hi, hentry⟩ := hentry
  rw [visible_conversions, List.mem_flatMap]
  generalize hf : (fun s : Session => { s with own :=
    { s.own with conversions := s.own.conversions ++ entries } }) = f at hentry
  rcases get_update_cases t id f i with hsame | ⟨rfl, hstep⟩
  · exact .inl ⟨i, hi, hsame ▸ hentry⟩
  · rw [hstep, ← hf] at hentry
    exact (List.mem_append.mp hentry).imp_left fun hold => ⟨i, hi, hold⟩

theorem conversions_addSignatures (sigs : List Signature) :
    ((t.addSignatures id sigs).visible id).conversions = (t.visible id).conversions :=
  visible_update_eq (·.conversions) (fun _ _ => rfl) rfl rfl rfl id

theorem reductions_addSignatures (sigs : List Signature) :
    ((t.addSignatures id sigs).visible id).reductions = (t.visible id).reductions :=
  visible_update_eq (·.reductions) (fun _ _ => rfl) rfl rfl rfl id

def install (t : Sessions) (id : SessionId) (unit : CheckedUnit)
    (entries : List (String × Conversion)) :
    Sessions :=
  t.update id fun s =>
    { s with
      own := { s.own with
        signatures := unit.signatures.reverse ++ s.own.signatures
        conversions := s.own.conversions ++ entries }
      directives := s.directives ++ unit.directives
      units := unit.name :: s.units }

/-- A foreign function is declared by its signature. -/
theorem declare_of_declareForeign {h : Holes} {f : Foreign} {checked : Signature}
    (hdeclare : t.declareForeign id f h = .ok (checked, t')) :
    t.declare id f.signature h = .ok (checked, t') := by
  unfold declareForeign at hdeclare
  split at hdeclare
  · simp [throw, throwThe, MonadExceptOf.throw] at hdeclare
  · exact hdeclare

/-- A conversion that is declared is the one that its function makes, and is added to the session.
-/
theorem declareConversion_eq_ok {h : Holes} {name : String} {conversion : Conversion}
    (hdeclare : t.declareConversion id name h = .ok (conversion, t')) :
    ∃ sig p, (t.visible id).signature? name = some sig ∧ sig.Converts h p ∧
      conversion = ((t.visible id).filed h sig p).2 ∧
      t' = t.addConversions id [(t.visible id).filed h sig p] := by
  unfold declareConversion at hdeclare
  split at hdeclare
  · simp at hdeclare
  · rename_i entry hentry
    obtain ⟨rfl, rfl⟩ := Prod.mk.inj (Except.ok.inj hdeclare)
    obtain ⟨sig, p, hsig, hp, rfl⟩ := Declarations.filed_of_conversion hentry
    exact ⟨sig, p, hsig, hp, rfl, rfl⟩

/-- However far the declaring gets, it adds conversions and nothing else. Where it gets to the end,
there is one for each name, in order. -/
theorem declareConversions_adds (t : Sessions) (id : SessionId) (h : Holes) (names : List String) :
    ∃ entries, (t.declareConversions id h names).2 = t.addConversions id entries ∧
      ((t.declareConversions id h names).1 = .ok () → List.Forall₂ (fun name entry =>
        ∃ sig, (t.visible id).signature? name = some sig ∧ ∃ p, sig.Converts h p ∧
          entry = (t.visible id).filed h sig p) names entries) := by
  induction names generalizing t with
  | nil => exact ⟨[], (addConversions_nil t id).symm, fun _ => .nil⟩
  | cons name names ih =>
    rw [declareConversions]
    split
    · exact ⟨[], (addConversions_nil t id).symm, fun hok => by simp at hok⟩
    · rename_i conversion t₁ hdeclare
      obtain ⟨sig, p, hsig, hp, -, rfl⟩ := declareConversion_eq_ok hdeclare
      generalize hfiled : (t.visible id).filed h sig p = entry
      obtain ⟨entries, hrest, hentries⟩ := ih (t.addConversions id [entry])
      rw [signature?_addConversions] at hentries
      simp only [Declarations.filed_of_reductions (reductions_addConversions [entry])] at hentries
      rw [addConversions_addConversions] at hrest
      exact ⟨entry :: entries, hrest, fun hok =>
        .cons ⟨sig, hsig, p, hp, hfiled.symm⟩ (hentries hok)⟩

/-- Conversions of new names are all made. -/
theorem declareConversions_eq_ok {h : Holes} {names : List String} (hnodup : names.Nodup)
    (hsigs : ∀ name ∈ names, ∃ sig p, (t.visible id).signature? name = some sig ∧ sig.Converts h p)
    (hnew : ∀ name ∈ names, ∀ entry ∈ (t.visible id).conversions, entry.2.name ≠ name) :
    (t.declareConversions id h names).1 = .ok () := by
  induction names generalizing t with
  | nil => rfl
  | cons name names ih =>
    obtain ⟨hname, hnodup⟩ := List.nodup_cons.mp hnodup
    obtain ⟨sig, p, hsig, hp⟩ := hsigs name (by simp)
    have hentry := Declarations.conversion_eq_ok hsig hp (hnew name (by simp))
    have hentryName : ((t.visible id).filed h sig p).2.name = name :=
      Declarations.name_of_signature? hsig
    generalize (t.visible id).filed h sig p = entry at hentry hentryName
    have hdeclare : t.declareConversion id name h = .ok (entry.2, t.addConversions id [entry]) := by
      rw [declareConversion, hentry]
      rfl
    rw [declareConversions, hdeclare]
    refine ih hnodup (fun other hother => ?_) fun other hother e he => ?_
    · rw [signature?_addConversions]
      exact hsigs other (by simp [hother])
    · rcases mem_conversions_addConversions he with hold | hnewest
      · exact hnew other (by simp [hother]) e hold
      · rw [List.mem_singleton.mp hnewest, hentryName]
        rintro rfl
        exact hname hother

namespace Rooted

theorem declare (h : t.Rooted) {holes : Holes} {sig checked : Signature}
    (hdeclare : t.declare id sig holes = .ok (checked, t')) : t'.Rooted := by
  obtain ⟨-, -, rfl⟩ := declare_eq_ok hdeclare
  exact h.update rfl (List.subset_cons_self _ _) fun _ hentry => .inl hentry

theorem declareConversion (h : t.Rooted) {holes : Holes} {name : String} {conversion : Conversion}
    (hdeclare : t.declareConversion id name holes = .ok (conversion, t')) : t'.Rooted := by
  obtain ⟨sig, p, hsig, -, -, rfl⟩ := declareConversion_eq_ok hdeclare
  refine h.update rfl (List.Subset.refl _) fun e he => ?_
  rcases List.mem_append.mp he with hold | hnew
  · exact .inl hold
  · rw [List.mem_singleton.mp hnew]
    exact .inr ⟨sig, Declarations.mem_of_signature? hsig, rfl⟩

/-- Whatever is committed, and however far it gets. -/
theorem commit (h : t.Rooted) (unit : CheckedUnit) (holes : Holes) :
    (t.commit id unit holes).2.Rooted := by
  refine commit_induct (P := Rooted) h (fun _ => ?_) (fun ht => ht.declareConversion) fun ht => ?_
  · refine h.update rfl (fun sig hsig => ?_) fun entry hentry => ?_
    · exact Declarations.mem_signatures_foldl.mpr (List.mem_append_right _ hsig)
    · rw [Declarations.foldl_addSignature] at hentry
      exact .inl hentry
  · exact ht.update rfl (List.Subset.refl _) fun _ hentry => .inl hentry

end Rooted

/-- The trees of sessions that work on them leads to, whatever the tables of holes are at the time.
Work that fails leaves a tree as it is, but for a commit, which may be of any unit. -/
inductive Reached : Sessions → Prop
  | empty : Reached {}
  | create {t : Sessions} {parent : Option SessionId} (ht : Reached t)
    (hparent : ∀ p ∈ parent, p < t.table.size) : Reached (t.create parent).2
  | declare {t t' : Sessions} {id : SessionId} {h : Holes} {sig checked : Signature}
    (ht : Reached t) (hdeclare : t.declare id sig h = .ok (checked, t')) : Reached t'
  | declareForeign {t t' : Sessions} {id : SessionId} {h : Holes} {f : Foreign}
    {checked : Signature} (ht : Reached t)
    (hdeclare : t.declareForeign id f h = .ok (checked, t')) : Reached t'
  | declareConversion {t t' : Sessions} {id : SessionId} {h : Holes} {name : String}
    {conversion : Conversion} (ht : Reached t)
    (hdeclare : t.declareConversion id name h = .ok (conversion, t')) : Reached t'
  | defineReduction {t t' : Sessions} {id : SessionId} {name : String} {r : Reduction}
    (ht : Reached t) (hdefine : t.defineReduction id name r = .ok t') : Reached t'
  | addDirective {t : Sessions} (ht : Reached t) (id : SessionId) (d : Directive) :
    Reached (t.addDirective id d)
  | commit {t : Sessions} (ht : Reached t) (id : SessionId) (unit : CheckedUnit) (h : Holes) :
    Reached (t.commit id unit h).2

theorem Reached.rooted (ht : t.Reached) : t.Rooted := by
  induction ht with
  | empty => exact .empty
  | create _ hparent ih => exact ih.create hparent
  | declare _ hdeclare ih => exact ih.declare hdeclare
  | declareForeign _ hdeclare ih => exact ih.declare (declare_of_declareForeign hdeclare)
  | declareConversion _ hdeclare ih => exact ih.declareConversion hdeclare
  | defineReduction _ hdefine ih =>
    obtain rfl := defineReduction_eq_ok hdefine
    exact ih.update rfl (List.Subset.refl _) fun _ hentry => .inl hentry
  | addDirective _ id d ih => exact ih.update rfl (List.Subset.refl _) fun _ hentry => .inl hentry
  | commit _ id unit holes ih => exact ih.commit unit holes

/-- A unit that passes was not refused before it began. -/
theorem checkUnit_eq_ok {c c' : Checker} {source : SourceUnit} {unit : CheckedUnit}
    (hcheck : t.checkUnit id c source = (.ok unit, c')) :
    source.name ≠ "" ∧ t.hasUnit id source.name = false ∧
      (Check.checkUnit (t.visible id) source).run (c.start id { owner := source.name }) =
        (.ok unit, c') := by
  unfold checkUnit at hcheck
  split at hcheck
  · simp at hcheck
  · rename_i hname
    split at hcheck
    · simp at hcheck
    · rename_i hnew
      exact ⟨hname, Bool.eq_false_iff.mpr hnew, hcheck⟩

theorem checkUnit_convertible {c c' : Checker} {source : SourceUnit} {unit : CheckedUnit}
    (hcheck : t.checkUnit id c source = (.ok unit, c')) : unit.Convertible := by
  obtain ⟨-, -, hrun⟩ := checkUnit_eq_ok hcheck
  exact (Check.checkUnit_convertible source _).of_ok hrun

/-- Signatures of distinct names that are installed in a session are found there. -/
theorem signature?_installed (hid : id < t.table.size) {f : Session → Session}
    {sigs : List Signature} (hnodup : (sigs.map (·.name)).Nodup)
    (hf : (f (t.get id)).own.signatures = sigs.reverse ++ (t.get id).own.signatures)
    {sig : Signature} (hsig : sig ∈ sigs) :
    ((t.update id f).visible id).signature? sig.name = some sig := by
  have hfound : sigs.reverse.find? (·.name == sig.name) = some sig := by
    cases hcase : sigs.reverse.find? (·.name == sig.name) with
    | none => simpa using List.find?_eq_none.mp hcase sig (by simpa using hsig)
    | some other =>
      have hother : other ∈ sigs := by simpa using List.mem_of_find?_eq_some hcase
      have hname : other.name = sig.name := by simpa using List.find?_some hcase
      rw [List.inj_on_of_nodup_map hnodup hother hsig hname]
  rw [Declarations.signature?, visible_signatures, lineage, List.flatMap_cons, get_update hid, hf,
    List.append_assoc, List.find?_append, hfound]
  rfl

theorem known_or_new (t : Sessions) (id : SessionId) (unit : CheckedUnit) :
    (t.hasUnit id unit.name = true ∨
      ∃ sig ∈ unit.signatures, ((t.visible id).signature? sig.name).isSome = true) ∨
    t.hasUnit id unit.name = false ∧
      ∀ sig ∈ unit.signatures, (t.visible id).signature? sig.name = none := by
  refine (Classical.em _).imp_right fun hnew => ?_
  simpa only [not_or, not_exists, not_and, Bool.not_eq_true, Option.isSome_eq_false_iff,
    Option.isNone_iff_eq_none] using hnew

/-- A commit of known names is refused and changes nothing. -/
theorem commit_refused {unit : CheckedUnit} (h : t.hasUnit id unit.name = true ∨
    ∃ sig ∈ unit.signatures, ((t.visible id).signature? sig.name).isSome = true) (holes : Holes) :
    ∃ e, t.commit id unit holes = (.error e, t) := by
  by_cases hname : t.hasUnit id unit.name = true
  · exact ⟨_, by rw [commit, if_pos hname]⟩
  · obtain ⟨sig, hsig, hseen⟩ := h.resolve_left hname
    cases hfind : unit.signatures.find? fun sig => ((t.visible id).signature? sig.name).isSome with
    | none => simp [List.find?_eq_none.mp hfind sig hsig] at hseen
    | some found => exact ⟨.alreadyDeclared found.name, by simp [commit, hname, hfind]⟩

/-- Where all names are new, the signatures are installed, and the conversions decide how it ends.
-/
theorem commit_of_new {unit : CheckedUnit} (hname : t.hasUnit id unit.name = false)
    (hnew : ∀ sig ∈ unit.signatures, (t.visible id).signature? sig.name = none) (holes : Holes) :
    ∃ entries,
      ((t.addSignatures id unit.signatures).declareConversions id holes unit.conversions).1 =
        .ok () ∧
          t.commit id unit holes = (.ok (), t.install id unit entries) ∧
          List.Forall₂ (fun name entry =>
            ∃ sig, ((t.addSignatures id unit.signatures).visible id).signature? name = some sig ∧
              ∃ p, sig.Converts holes p ∧ entry = (t.visible id).filed holes sig p)
            unit.conversions entries ∨
        (∃ e, ((t.addSignatures id unit.signatures).declareConversions id holes
            unit.conversions).1 = .error e ∧
          t.commit id unit holes =
            (.error e, (t.addSignatures id unit.signatures).addConversions id entries)) := by
  have hfind : (unit.signatures.find? fun sig => ((t.visible id).signature? sig.name).isSome) =
      none := by
    simpa using hnew
  have hinstalled : (t.update id fun s =>
      { s with own := unit.signatures.foldl .addSignature s.own }) =
      t.addSignatures id unit.signatures := by
    simp only [addSignatures, Declarations.foldl_addSignature]
  obtain ⟨entries, hadds, hentries⟩ :=
    (t.addSignatures id unit.signatures).declareConversions_adds id holes unit.conversions
  simp only [Declarations.filed_of_reductions (reductions_addSignatures _)] at hentries
  rw [commit, if_neg (by simp [hname])]
  dsimp only
  rw [hfind]
  dsimp only
  rw [hinstalled]
  rcases hrun : (t.addSignatures id unit.signatures).declareConversions id holes unit.conversions
    with ⟨_ | _, t₁⟩
  · rw [hrun] at hadds
    exact ⟨entries, .inr ⟨_, rfl, by rw [← hadds]⟩⟩
  · rw [hrun] at hadds hentries
    dsimp only at hadds
    refine ⟨entries, .inl ⟨rfl, ?_, hentries rfl⟩⟩
    simp only [hadds, addConversions, addSignatures, update_update, install]

/-- The conversions of a unit are made of its own signatures. -/
theorem forall₂_own (hid : id < t.table.size) {unit : CheckedUnit} (hunit : unit.Convertible)
    {R : Signature → String × Conversion → Prop} {entries : List (String × Conversion)}
    (hentries : List.Forall₂ (fun name entry => ∃ sig,
      ((t.addSignatures id unit.signatures).visible id).signature? name = some sig ∧ R sig entry)
      unit.conversions entries) :
    List.Forall₂ (fun name entry => ∃ sig ∈ unit.signatures, sig.name = name ∧ R sig entry)
      unit.conversions entries := by
  have hown : ∀ name ∈ unit.conversions, ∃ sig ∈ unit.signatures, sig.name = name := by
    intro name hmem
    obtain ⟨sig, hsig, -, -, hname, -⟩ := hunit.conversions name hmem
    exact ⟨sig, hsig, hname⟩
  refine (List.forall₂_and_left _ _ |>.mpr ⟨hown, hentries⟩).imp ?_
  rintro _ entry ⟨⟨sig, hsig, rfl⟩, found, hfound, hentry⟩
  have hsame := signature?_installed hid hunit.names (f := fun s => { s with own := { s.own with
    signatures := unit.signatures.reverse ++ s.own.signatures } }) rfl hsig
  obtain rfl : sig = found := Option.some.inj (hsame.symm.trans hfound)
  exact ⟨sig, hsig, rfl, hentry⟩

/-- Where all names are new, a commit installs everything. -/
theorem commit_eq_ok (h : t.Rooted) (hid : id < t.table.size) {unit : CheckedUnit}
    (hunit : unit.Convertible) (hfree : unit.Determined)
    (hname : t.hasUnit id unit.name = false)
    (hnew : ∀ sig ∈ unit.signatures, (t.visible id).signature? sig.name = none) (holes : Holes) :
    ∃ entries, t.commit id unit holes = (.ok (), t.install id unit entries) ∧
      List.Forall₂ (fun name entry => ∃ sig ∈ unit.signatures, sig.name = name ∧
        ∃ p, sig.Converts holes p ∧ entry = (t.visible id).filed holes sig p)
        unit.conversions entries := by
  have hrun : ((t.addSignatures id unit.signatures).declareConversions id holes
      unit.conversions).1 = .ok () := by
    refine declareConversions_eq_ok hunit.distinct (fun name hmem => ?_) ?_
    · obtain ⟨sig, hsig, _, p, rfl, hp⟩ := hunit.conversions name hmem
      exact ⟨sig, p, signature?_installed hid hunit.names rfl hsig,
        hp.of_holeFree (hfree sig hsig hmem) holes⟩
    -- A conversion of one of the names would have a visible signature already.
    · rintro _ hmem entry hentry rfl
      rw [conversions_addSignatures] at hentry
      obtain ⟨sig, hsig, -, -, hname, -⟩ := hunit.conversions _ hmem
      obtain ⟨old, hold, holdName⟩ := h.visible_named hentry
      exact Declarations.signature?_eq_none.mp (hnew sig hsig) old hold (holdName.trans hname.symm)
  obtain ⟨entries, ⟨-, hcommit, hentries⟩ | ⟨e, hfailed, -⟩⟩ := commit_of_new hname hnew holes
  · exact ⟨entries, hcommit, forall₂_own hid hunit hentries⟩
  · simp [hrun] at hfailed

/-- A commit that succeeds was of new names and has installed everything. -/
theorem installed_of_commit (hid : id < t.table.size) {unit : CheckedUnit}
    (hunit : unit.Convertible) {holes : Holes} (hcommit : t.commit id unit holes = (.ok (), t')) :
    t.hasUnit id unit.name = false ∧
      (∀ sig ∈ unit.signatures, (t.visible id).signature? sig.name = none) ∧
      ∃ entries, t' = t.install id unit entries ∧
        List.Forall₂ (fun name entry => ∃ sig ∈ unit.signatures, sig.name = name ∧
          ∃ p, sig.Converts holes p ∧ entry = (t.visible id).filed holes sig p)
          unit.conversions entries := by
  rcases t.known_or_new id unit with hknown | ⟨hname, hnew⟩
  · obtain ⟨e, hrefused⟩ := commit_refused hknown holes
    simp [hrefused] at hcommit
  · refine ⟨hname, hnew, ?_⟩
    obtain ⟨entries, ⟨-, hinstall, hentries⟩ | ⟨e, -, hfailed⟩⟩ := commit_of_new hname hnew holes
    · rw [hcommit] at hinstall
      exact ⟨entries, congrArg Prod.snd hinstall, forall₂_own hid hunit hentries⟩
    · simp [hcommit] at hfailed

/-- A commit is all or nothing, where the conversions of the unit lead to types without holes. It
fails, and leaves everything as it is, if the unit has been committed or one of its names is
declared where the session can see it. Otherwise it succeeds and adds all signatures of the unit,
one conversion for each of those that the unit asks for, the directives and the name of the unit,
and each signature is found in the session from then on. The unit may have been checked in any
session. -/
theorem commit_all_or_nothing (ht : t.Reached) (hid : id < t.table.size) {t₀ : Sessions}
    {id₀ : SessionId} {c c' : Checker} {source : SourceUnit} {unit : CheckedUnit}
    (hcheck : t₀.checkUnit id₀ c source = (.ok unit, c')) (hfree : unit.Determined) (h : Holes) :
    ((t.hasUnit id unit.name = true ∨
        ∃ sig ∈ unit.signatures, ((t.visible id).signature? sig.name).isSome = true) →
      ∃ e, t.commit id unit h = (.error e, t)) ∧
    (t.hasUnit id unit.name = false →
      (∀ sig ∈ unit.signatures, (t.visible id).signature? sig.name = none) →
      ∃ entries, t.commit id unit h = (.ok (), t.install id unit entries) ∧
        List.Forall₂ (fun name entry => ∃ sig ∈ unit.signatures, sig.name = name ∧
          ∃ p, sig.Converts h p ∧ entry = (t.visible id).filed h sig p) unit.conversions entries ∧
        ∀ sig ∈ unit.signatures,
          ((t.install id unit entries).visible id).signature? sig.name = some sig) := by
  have hunit := checkUnit_convertible hcheck
  refine ⟨fun hknown => commit_refused hknown h, fun hname hnew => ?_⟩
  obtain ⟨entries, hcommit, hentries⟩ := commit_eq_ok ht.rooted hid hunit hfree hname hnew h
  exact ⟨entries, hcommit, hentries, fun sig hsig => signature?_installed hid hunit.names rfl hsig⟩

def roundingUnit : SourceUnit where
  name := "rounding"
  declarations := [{
    signature := some {
      name := "round"
      params := [⟨"x", .const "Float", .explicit, none⟩]
      result := .const "Int" }
    implicit := true }]

/-- The unit is checked in a session and committed in its parent, once. -/
theorem commit_all_or_nothing_rounding : ∃ (t : Sessions) (unit : CheckedUnit)
    (entries : List (String × Conversion)), t.Reached ∧
    (∃ c', t.checkUnit 1 {} roundingUnit = (.ok unit, c')) ∧ unit.Determined ∧
    t.commit 0 unit = (.ok (), t.install 0 unit entries) ∧ entries.map (·.2.name) = ["round"] ∧
    ∃ e, (t.install 0 unit entries).commit 0 unit = (.error e, t.install 0 unit entries) := by
  generalize ht : ((create {} none).2.create (some 0)).2 = t
  have htest : (match t.checkUnit 1 {} roundingUnit with
      | (.error _, _) => false
      | (.ok unit, _) => decide (unit.conversions = ["round"] ∧ t.hasUnit 0 unit.name = false ∧
        ∀ sig ∈ unit.signatures, sig.result.HoleFree ∧
          ((t.visible 0).signature? sig.name).isNone = true)) = true := by
    rw [← ht]
    decide +kernel
  have hreached : t.Reached := ht ▸ (Reached.empty.create (by simp)).create (by
    simp [create])
  have hsize : 0 < t.table.size := by
    rw [← ht]
    decide
  rcases hcheck : t.checkUnit 1 {} roundingUnit with ⟨_ | unit, c'⟩
  · simp [hcheck] at htest
  · simp only [hcheck, decide_eq_true_eq, Option.isNone_iff_eq_none] at htest
    obtain ⟨hconversions, hname, hsigs⟩ := htest
    have hfree : unit.Determined := fun sig hsig _ => (hsigs sig hsig).1
    obtain ⟨entries, hcommit, hentries, -⟩ :=
      (commit_all_or_nothing hreached hsize hcheck hfree {}).2 hname
        fun sig hsig => (hsigs sig hsig).2
    refine ⟨t, unit, entries, hreached, ⟨c', hcheck⟩, hfree, hcommit, ?_, ?_⟩
    · rw [hconversions] at hentries
      cases hentries with
      | cons hround hnone =>
        cases hnone
        obtain ⟨sig, -, hsig, p, -, rfl⟩ := hround
        exact congrArg (fun name => [name]) hsig
    · have hreached' : (t.install 0 unit entries).Reached := by
        simpa only [hcommit] using hreached.commit 0 unit {}
      have hsize' : 0 < (t.install 0 unit entries).table.size := by
        simpa [install, update] using hsize
      have hunit : (t.install 0 unit entries).hasUnit 0 unit.name = true := by
        simp [hasUnit, lineage, install, get_update hsize]
      exact (commit_all_or_nothing hreached' hsize' hcheck hfree {}).1 (.inl hunit)

def reflectionUnit : SourceUnit where
  name := "reflection"
  declarations := [{
    signature := some {
      name := "reflexive"
      params := [⟨"x", .const "Int", .explicit, none⟩]
      result := .hole 0 }
    body := .term (.refl (.bound "x"))
    implicit := true }]

/-- The type that is found depends on the parameter. So the unit is checked, but its commit fails
when the signature has been installed. -/
theorem commit_stops_halfway :
    ∃ (unit : CheckedUnit) (c' : Checker) (e : CheckError) (t' : Sessions),
    Reached (create {} none).2 ∧
    (create {} none).2.checkUnit 0
      { solver := { holes := ({} : Holes).add "R" 0 (.sort (.level (.const 1))) } }
      reflectionUnit = (.ok unit, c') ∧
    (create {} none).2.commit 0 unit c'.solver.holes = (.error e, t') ∧
    ((create {} none).2.visible 0).signature? "reflexive" = none ∧
    (t'.visible 0).signature? "reflexive" ≠ none := by
  generalize ht : (create {} none).2 = t
  generalize hc : ({ solver := { holes := ({} : Holes).add "R" 0 (.sort (.level (.const 1))) } } :
    Checker) = c
  have htest : (match t.checkUnit 0 c reflectionUnit with
      | (.error _, _) => false
      | (.ok unit, c') =>
        match t.commit 0 unit c'.solver.holes with
        | (.ok _, _) => false
        | (.error _, t') => ((t.visible 0).signature? "reflexive").isNone &&
          ((t'.visible 0).signature? "reflexive").isSome) = true := by
    rw [← ht, ← hc]
    decide +kernel
  have hreached : t.Reached := ht ▸ Reached.empty.create (by simp)
  rcases hcheck : t.checkUnit 0 c reflectionUnit with ⟨_ | unit, c'⟩
  · simp [hcheck] at htest
  · rcases hcommit : t.commit 0 unit c'.solver.holes with ⟨e | _, t'⟩
    · simp only [hcheck, hcommit, Bool.and_eq_true, Option.isNone_iff_eq_none] at htest
      refine ⟨unit, c', e, t', hreached, rfl, hcommit, htest.1, ?_⟩
      exact Option.isSome_iff_ne_none.mp htest.2
    · simp [hcheck, hcommit] at htest

end Sessions

end Implicits
