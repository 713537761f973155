import Implicits.Proofs.Session.Commit
import Implicits.Proofs.Solver.Confined
import Implicits.Proofs.Term.Written
import Mathlib.Logic.Relation

/-!
Conversions that a session has registered. They stay filed under the normal forms that their types
had then, and nothing takes them out. The types may have other normal forms later, and then the
conversion is not found under these; it is as long as the rules that the types can reach stay as
they are. Types are read through the table of holes of the moment, which may be another one at each
step.
-/
namespace Implicits

open Relation Term

namespace Sessions

variable {t t' t₁ t₂ : Sessions} {id : SessionId}

inductive Works : Sessions → Sessions → Prop
  | create {t : Sessions} {parent : Option SessionId} (hparent : ∀ p ∈ parent, p < t.table.size) :
    Works t (t.create parent).2
  | declare {t t' : Sessions} {id : SessionId} {h : Holes} {sig checked : Signature}
    (hdeclare : t.declare id sig h = .ok (checked, t')) : Works t t'
  | declareForeign {t t' : Sessions} {id : SessionId} {h : Holes} {f : Foreign}
    {checked : Signature} (hdeclare : t.declareForeign id f h = .ok (checked, t')) : Works t t'
  | declareConversion {t t' : Sessions} {id : SessionId} {h : Holes} {name : String}
    {conversion : Conversion} (hdeclare : t.declareConversion id name h = .ok (conversion, t')) :
    Works t t'
  | defineReduction {t t' : Sessions} {id : SessionId} {name : String} {r : Reduction}
    (hdefine : t.defineReduction id name r = .ok t') : Works t t'
  | addDirective {t : Sessions} (id : SessionId) (d : Directive) : Works t (t.addDirective id d)
  | commit {t : Sessions} (id : SessionId) (unit : CheckedUnit) (h : Holes) :
    Works t (t.commit id unit h).2

abbrev Later : Sessions → Sessions → Prop := ReflTransGen Works

theorem Reached.later (ht : t.Reached) : Later {} t := by
  induction ht with
  | empty => exact .refl
  | create _ hparent ih => exact ih.tail (.create hparent)
  | declare _ hdeclare ih => exact ih.tail (.declare hdeclare)
  | declareForeign _ hdeclare ih => exact ih.tail (.declareForeign hdeclare)
  | declareConversion _ hdeclare ih => exact ih.tail (.declareConversion hdeclare)
  | defineReduction _ hdefine ih => exact ih.tail (.defineReduction hdefine)
  | addDirective _ id d ih => exact ih.tail (.addDirective id d)
  | commit _ id unit h ih => exact ih.tail (.commit id unit h)

def Keyed (entry : String × Conversion) : Prop :=
  ∃ h, entry.1 = Check.conversionKey h entry.2.source entry.2.target

/-- Conversions are only added, and under the text of their types. -/
structure Files (t t' : Sessions) : Prop where
  kept : ∀ i, (t.get i).own.conversions ⊆ (t'.get i).own.conversions
  keyed : ∀ i, ∀ entry ∈ (t'.get i).own.conversions, entry ∈ (t.get i).own.conversions ∨ Keyed entry

namespace Files

theorem refl (t : Sessions) : t.Files t := ⟨fun _ => List.Subset.refl _, fun _ _ => .inl⟩

theorem trans (h : t.Files t₁) (h' : t₁.Files t₂) : t.Files t₂ where
  kept i := List.Subset.trans (h.kept i) (h'.kept i)
  keyed i entry hentry := (h'.keyed i entry hentry).elim (h.keyed i entry) .inr

/-- A step that appends entries to the conversions of a session. -/
theorem update {f : Session → Session} (entries : List (String × Conversion))
    (hf : (f (t.get id)).own.conversions = (t.get id).own.conversions ++ entries)
    (hkeyed : ∀ entry ∈ entries, Keyed entry) : t.Files (t.update id f) := by
  refine ⟨fun i => ?_, fun i entry hentry => ?_⟩
  · rcases get_update_cases t id f i with hsame | ⟨rfl, hstep⟩
    · rw [hsame]
      exact List.Subset.refl _
    · rw [hstep, hf]
      exact List.subset_append_left _ _
  · rcases get_update_cases t id f i with hsame | ⟨rfl, hstep⟩
    · exact .inl (hsame ▸ hentry)
    · rw [hstep, hf] at hentry
      exact (List.mem_append.mp hentry).imp_right (hkeyed entry)

/-- A step that leaves the conversions of a session alone. -/
theorem update_same {f : Session → Session}
    (hf : (f (t.get id)).own.conversions = (t.get id).own.conversions) : t.Files (t.update id f) :=
  update [] (by rw [hf, List.append_nil]) (by simp)

theorem create (t : Sessions) (parent : Option SessionId) : t.Files (t.create parent).2 := by
  have hget : ∀ i, ((t.create parent).2.get i).own.conversions = (t.get i).own.conversions := by
    intro i
    by_cases hi : i = t.table.size
    · have hnone : t.get t.table.size = {} := by simp [get]
      rw [hi, get_create_self, hnone]
      cases parent <;> rfl
    · rw [get_create_of_ne hi]
  refine ⟨fun i => ?_, fun i entry hentry => .inl (hget i ▸ hentry)⟩
  rw [hget]
  exact List.Subset.refl _

theorem declare {h : Holes} {sig checked : Signature}
    (hdeclare : t.declare id sig h = .ok (checked, t')) : t.Files t' := by
  obtain ⟨-, -, rfl⟩ := declare_eq_ok hdeclare
  exact update_same rfl

theorem declareConversion {h : Holes} {name : String} {conversion : Conversion}
    (hdeclare : t.declareConversion id name h = .ok (conversion, t')) : t.Files t' := by
  obtain ⟨sig, p, -, -, -, rfl⟩ := declareConversion_eq_ok hdeclare
  refine update [(t.visible id).filed h sig p] rfl fun entry hentry => ?_
  rw [List.mem_singleton.mp hentry]
  exact ⟨h, rfl⟩

theorem commit (t : Sessions) (id : SessionId) (unit : CheckedUnit) (h : Holes) :
    t.Files (t.commit id unit h).2 := by
  refine commit_induct (P := t.Files) (refl t) (fun _ => ?_) (fun ht hdeclare => ?_) fun ht => ?_
  · exact update_same (by rw [Declarations.foldl_addSignature])
  · exact ht.trans (declareConversion hdeclare)
  · exact ht.trans (update_same rfl)

theorem of_works (h : t.Works t') : t.Files t' := by
  cases h with
  | create hparent => exact create t _
  | declare hdeclare => exact declare hdeclare
  | declareForeign hdeclare => exact declare (declare_of_declareForeign hdeclare)
  | declareConversion hdeclare => exact declareConversion hdeclare
  | defineReduction hdefine =>
    obtain rfl := defineReduction_eq_ok hdefine
    exact update_same rfl
  | addDirective id d => exact update_same rfl
  | commit id unit h => exact commit t id unit h

theorem of_later (h : t.Later t') : t.Files t' := by
  induction h with
  | refl => exact refl t
  | tail _ hstep ih => exact ih.trans (of_works hstep)

end Files

/-- Every entry of a session is filed under the text of its types. -/
theorem keyed_of_later (ht : Later {} t) {entry : String × Conversion}
    (hentry : entry ∈ (t.visible id).conversions) : Keyed entry := by
  rw [visible_conversions, List.mem_flatMap] at hentry
  obtain ⟨i, -, hentry⟩ := hentry
  refine ((Files.of_later ht).keyed i entry hentry).resolve_left fun hold => ?_
  have hnone : (({} : Sessions).get i).own.conversions = [] := rfl
  simp [hnone] at hold

/-- A function becomes a conversion of a session: it is declared to be one, or a unit that passed
and asks for it is committed. -/
inductive Registers (t : Sessions) (id : SessionId) (sig : Signature) (h : Holes) : Sessions → Prop
  | declared {t' : Sessions} {conversion : Conversion}
    (hsig : (t.visible id).signature? sig.name = some sig)
    (hdeclare : t.declareConversion id sig.name h = .ok (conversion, t')) : Registers t id sig h t'
  | committed {t' t₀ : Sessions} {id₀ : SessionId} {c c' : Checker} {source : SourceUnit}
    {unit : CheckedUnit} (hcheck : t₀.checkUnit id₀ c source = (.ok unit, c'))
    (hsig : sig ∈ unit.signatures) (hname : sig.name ∈ unit.conversions)
    (hcommit : t.commit id unit h = (.ok (), t')) : Registers t id sig h t'

namespace Registers

variable {sig : Signature} {holes : Holes}

theorem works (h : t.Registers id sig holes t') : t.Works t' := by
  cases h with
  | declared _ hdeclare => exact .declareConversion hdeclare
  | @committed _ _ _ _ _ unit _ _ _ hcommit =>
    have hwork : t.Works (t.commit id unit holes).2 := .commit id unit holes
    rwa [hcommit] at hwork

/-- What is registered is filed under the normal forms of the moment. -/
theorem filed (h : t.Registers id sig holes t') (hid : id < t.table.size) :
    ∃ p, sig.Converts holes p ∧
      (t.visible id).filed holes sig p ∈ (t'.get id).own.conversions := by
  cases h with
  | declared hsig hdeclare =>
    obtain ⟨found, p, hfound, hp, -, rfl⟩ := declareConversion_eq_ok hdeclare
    obtain rfl := Option.some.inj (hsig.symm.trans hfound)
    refine ⟨p, hp, ?_⟩
    rw [addConversions, get_update hid]
    exact List.mem_append_right _ (List.mem_singleton_self _)
  | @committed _ _ _ _ _ unit hcheck hsig hname hcommit =>
    have hunit := checkUnit_convertible hcheck
    obtain ⟨-, -, entries, rfl, hentries⟩ := installed_of_commit hid hunit hcommit
    obtain ⟨i, hi, hat⟩ := List.getElem_of_mem hname
    obtain ⟨other, hother, hnames, p, hp, hentry⟩ := hentries.get hi (hentries.length_eq ▸ hi)
    obtain rfl := List.inj_on_of_nodup_map hunit.names hother hsig (hnames.trans hat)
    refine ⟨p, hp, ?_⟩
    rw [install, get_update hid, ← hentry]
    exact List.mem_append_right _ (List.get_mem _ _)

end Registers

def normalForm (t : Sessions) (id : SessionId) (u : Term) (h : Holes := {}) : Term :=
  h.normalize (t.visible id) u

theorem mem_conversions_iff {source target : Term} {h : Holes} {conv : Conversion} :
    conv ∈ t.conversions id source target h ↔
      (Check.conversionKey h source target, conv) ∈ (t.visible id).conversions := by
  simp [conversions, Declarations.conversionsAt]

/-- A conversion that has been registered, by itself or by the commit of a unit, is found at any
later time under the types that it was filed under, which are the normal forms that the types of its
function had then. Under the normal forms that they have at the later time it is found if these have
the same text, and, where it was filed under types without holes, only then. They have the same text
if the types are built of constants whose rules lead to no others and are the same then and later.
-/
theorem registered_conversion_found (ht : t.Reached) (hid : id < t.table.size) {sig : Signature}
    {h : Holes} (hregisters : t.Registers id sig h t₁) (hlater : t₁.Later t₂) (h₂ : Holes) :
    ∃ p conv, sig.Converts h p ∧
      conv = ⟨sig.name, t.normalForm id p.type h, t.normalForm id sig.result h⟩ ∧
      conv ∈ t₂.conversions id conv.source conv.target h ∧
      (Check.conversionKey h₂ (t₂.normalForm id p.type h₂) (t₂.normalForm id sig.result h₂) =
          Check.conversionKey h conv.source conv.target →
        conv ∈ t₂.conversions id (t₂.normalForm id p.type h₂) (t₂.normalForm id sig.result h₂) h₂) ∧
      (conv.source.HoleFree → conv.target.HoleFree →
        conv ∈ t₂.conversions id (t₂.normalForm id p.type h₂) (t₂.normalForm id sig.result h₂) h₂ →
        Check.conversionKey h₂ (t₂.normalForm id p.type h₂) (t₂.normalForm id sig.result h₂) =
          Check.conversionKey h conv.source conv.target) ∧
      ∀ names : String → Prop, p.type.BuiltOf names → sig.result.BuiltOf names →
        (t.visible id).Confines names →
        (∀ name, names name → (t₂.visible id).reduction? name = (t.visible id).reduction? name) →
        conv ∈ t₂.conversions id (t₂.normalForm id p.type h₂)
          (t₂.normalForm id sig.result h₂) h₂ := by
  obtain ⟨p, hp, hfiled⟩ := hregisters.filed hid
  have hkept : (t.visible id).filed h sig p ∈ (t₂.visible id).conversions := by
    rw [visible_conversions, List.mem_flatMap]
    exact ⟨id, List.mem_cons_self, (Files.of_later hlater).kept id hfiled⟩
  have hreached : Later {} t₂ := ht.later.trans (hlater.head hregisters.works)
  refine ⟨p, _, hp, rfl, mem_conversions_iff.mpr hkept, fun hkey => ?_,
    fun hsource htarget hfound => ?_,
    fun names htype hresult henv hsame => ?_⟩
  · rw [mem_conversions_iff, hkey]
    exact hkept
  · obtain ⟨h', hkey⟩ := keyed_of_later hreached (mem_conversions_iff.mp hfound)
    exact hkey.trans (Check.conversionKey_of_holeFree hsource htarget h' h)
  · have hnormal : ∀ {u : Term}, u.BuiltOf names → t₂.normalForm id u h₂ = t.normalForm id u h ∧
        (t.normalForm id u h).HoleFree := fun hu =>
      ⟨Declarations.normalize_of_confines henv hsame hu h h₂, (henv.normalize hu h).holeFree⟩
    rw [mem_conversions_iff, (hnormal htype).1, (hnormal hresult).1,
      Check.conversionKey_of_holeFree (hnormal htype).2 (hnormal hresult).2 h₂ h]
    exact hkept

/-- A declared signature is found. -/
theorem signature?_of_declare (hid : id < t.table.size) {h : Holes} {sig checked : Signature}
    (hdeclare : t.declare id sig h = .ok (checked, t')) :
    (t'.visible id).signature? checked.name = some checked := by
  obtain ⟨-, -, rfl⟩ := declare_eq_ok hdeclare
  exact signature?_installed hid (by simp) rfl (List.mem_singleton_self checked)

section DefineReduction

variable {name other : String} {r : Reduction}

theorem signature?_of_defineReduction (hdefine : t.defineReduction id name r = .ok t')
    (i : SessionId) :
    (t'.visible i).signature? other = (t.visible i).signature? other := by
  obtain rfl := defineReduction_eq_ok hdefine
  rw [Declarations.signature?, visible_update_eq (·.signatures) (fun _ _ => rfl) rfl rfl rfl]
  rfl

theorem reduction?_defineReduction_self (hid : id < t.table.size)
    (hdefine : t.defineReduction id name r = .ok t') :
    (t'.visible id).reduction? name = some r := by
  obtain rfl := defineReduction_eq_ok hdefine
  rw [Declarations.reduction?, visible_reductions, lineage, List.flatMap_cons, get_update hid]
  simp [Declarations.addReduction]

/-- A rule changes nothing for other constants. -/
theorem reduction?_defineReduction_of_ne (hne : other ≠ name)
    (hdefine : t.defineReduction id name r = .ok t') (i : SessionId) :
    (t'.visible i).reduction? other = (t.visible i).reduction? other := by
  obtain rfl := defineReduction_eq_ok hdefine
  generalize hf : (fun s : Session => { s with own := s.own.addReduction name r }) = f
  have hown : ∀ j, ((t.update id f).get j).own.reductions.lookup other =
      (t.get j).own.reductions.lookup other := by
    refine get_update_eq (fun s => s.own.reductions.lookup other) ?_
    simp only [← hf, Declarations.addReduction, List.lookup_cons, beq_false_of_ne hne]
  rw [Declarations.reduction?, Declarations.reduction?, visible_reductions, visible_reductions,
    lineage_update (by rw [← hf])]
  induction t.lineage i with
  | nil => rfl
  | cons j js ih =>
    rw [List.flatMap_cons, List.flatMap_cons, List.lookup_append, List.lookup_append, hown, ih]

end DefineReduction

def numberSession : Except CheckError (Signature × Sessions) := do
  let (_, t) ← (create {} none).2.declare 0 { name := "Num", result := .sort (.level (.const 0)) }
  t.declare 0
    { name := "numString"
      params := [⟨"n", .const "Num", .explicit, none⟩]
      result := .const "String" }

def toIntegers : Reduction := .ofRules 0 [⟨[], .const "Int"⟩]

theorem reached_of_numberSession {sig : Signature} (h : numberSession = .ok (sig, t)) :
    t.Reached ∧ 0 < t.table.size ∧ (t.visible 0).signature? sig.name = some sig ∧
      (t.visible 0).reductions = [] := by
  unfold numberSession at h
  rcases htype : (create {} none).2.declare 0
    { name := "Num", result := .sort (.level (.const 0)) } with
    _ | ⟨number, t₀⟩
  · simp [htype, bind, Except.bind] at h
  simp only [htype, bind, Except.bind] at h
  have hreached : t.Reached := ((Reached.empty.create (by simp)).declare htype).declare h
  obtain ⟨-, -, rfl⟩ := declare_eq_ok htype
  have hsig := signature?_of_declare (by simp [update, create]) h
  obtain ⟨-, -, rfl⟩ := declare_eq_ok h
  exact ⟨hreached, by simp [update, create], hsig, rfl⟩

def rulesAround : Bool :=
  match numberSession with
  | .error _ => false
  | .ok (sig, t) =>
    match t.defineReduction 0 "Num" toIntegers with
    | .error _ => false
    | .ok t =>
      match t.declareConversion 0 sig.name with
      | .error _ => false
      | .ok (_, t) =>
        match t.defineReduction 0 "Float" toIntegers, sig with
        | .ok _, ⟨"numString", [⟨_, .const "Num", _, _⟩], .const "String", _⟩ => true
        | _, _ => false

/-- The type of numbers has a rule before the conversion, and a rule for another constant comes
after it. -/
theorem registered_conversion_found_numbers :
    ∃ (t t₁ t₂ : Sessions) (sig : Signature) (p : Param Term)
    (conv : Conversion), t.Reached ∧ t.Registers 0 sig {} t₁ ∧ t₁.Later t₂ ∧ sig.Converts {} p ∧
    conv.name = "numString" ∧
    conv ∈ t₂.conversions 0 (t₂.normalForm 0 p.type) (t₂.normalForm 0 sig.result) := by
  have htest : rulesAround = true := by decide +kernel
  unfold rulesAround at htest
  rcases hstart : numberSession with _ | ⟨sig, t₀⟩
  · simp [hstart] at htest
  rcases hrule : t₀.defineReduction 0 "Num" toIntegers with _ | t
  · simp [hstart, hrule] at htest
  rcases hconversion : t.declareConversion 0 sig.name with _ | ⟨conversion, t₁⟩
  · simp [hstart, hrule, hconversion] at htest
  rcases hother : t₁.defineReduction 0 "Float" toIntegers with _ | t₂
  · simp [hstart, hrule, hconversion, hother] at htest
  simp only [hstart, hrule, hconversion, hother] at htest
  obtain ⟨hreached₀, hsize₀, hsig₀, hnone⟩ := reached_of_numberSession hstart
  have hreached : t.Reached := hreached₀.defineReduction hrule
  have hsize : 0 < t.table.size := by
    rw [defineReduction_eq_ok hrule]
    simpa [update] using hsize₀
  have hsig : (t.visible 0).signature? sig.name = some sig := by
    rw [signature?_of_defineReduction hrule, hsig₀]
  have hregisters : t.Registers 0 sig {} t₁ := .declared hsig hconversion
  have hlater : t₁.Later t₂ := .single (.defineReduction hother)
  have hkept : (t₁.visible 0).reductions = (t.visible 0).reductions := by
    obtain ⟨_, _, -, -, -, rfl⟩ := declareConversion_eq_ok hconversion
    exact visible_update_eq (·.reductions) (fun _ _ => rfl) rfl rfl rfl 0
  have hrules : ∀ name r, (t.visible 0).reduction? name = some r → r = toIntegers := by
    intro name r hr
    by_cases hname : name = "Num"
    · rw [hname, reduction?_defineReduction_self hsize₀ hrule] at hr
      exact (Option.some.inj hr).symm
    · rw [reduction?_defineReduction_of_ne hname hrule, Declarations.reduction?, hnone] at hr
      simp at hr
  obtain ⟨p, conv, hp, rfl, -, -, -, hfound⟩ :=
    registered_conversion_found hreached hsize hregisters hlater {}
  split at htest
  · obtain rfl := List.singleton_inj.mp hp.1
    have hin := hfound (· ∈ ["Num", "Int", "String"]) (.const (by simp)) (.const (by simp))
      (Declarations.confines_of_rules fun name r _ hr => ?_) fun name hname => ?_
    · exact ⟨t, t₁, t₂, _, _, _, hreached, hregisters, hlater, hp, rfl, hin⟩
    · exact ⟨0, _, hrules name r hr, List.forall_mem_singleton.mpr (.const (by simp))⟩
    · have hne : name ≠ "Float" := by
        rintro rfl
        simp at hname
      rw [reduction?_defineReduction_of_ne hne hother, Declarations.reduction?, hkept,
        Declarations.reduction?]
  · simp at htest

def ruleOrderMatters : Bool :=
  match numberSession with
  | .error _ => false
  | .ok (sig, t) =>
    match t.declareConversion 0 sig.name, t.defineReduction 0 "Num" toIntegers, sig.params with
    | .ok (_, t₁), .ok t₁', [p] =>
      match t₁.defineReduction 0 "Num" toIntegers, t₁'.declareConversion 0 sig.name with
      | .ok t₂, .ok (_, t₂') => decide (sig.name = "numString" ∧
        (t₂.conversions 0 (t₂.normalForm 0 p.type) (t₂.normalForm 0 sig.result)).map (·.name) = [] ∧
        (t₂'.conversions 0 (t₂'.normalForm 0 p.type) (t₂'.normalForm 0 sig.result)).map (·.name) =
          ["numString"])
      | _, _ => false
    | _, _, _ => false

/-- A rule for the type of a conversion that comes after it. The same rule before the conversion
does no harm, so that it matters which of the two comes first. -/
theorem conversion_lost_by_rule : ∃ (t t₁ t₂ t₁' t₂' : Sessions) (sig : Signature) (p : Param Term),
    t.Reached ∧ sig.Converts {} p ∧ sig.name = "numString" ∧
    (t.Registers 0 sig {} t₁ ∧ t₁.defineReduction 0 "Num" toIntegers = .ok t₂ ∧
      t₂.conversions 0 (t₂.normalForm 0 p.type) (t₂.normalForm 0 sig.result) = []) ∧
    (t.defineReduction 0 "Num" toIntegers = .ok t₁' ∧ t₁'.Registers 0 sig {} t₂' ∧
      (t₂'.conversions 0 (t₂'.normalForm 0 p.type) (t₂'.normalForm 0 sig.result)).map (·.name) =
        ["numString"]) := by
  have htest : ruleOrderMatters = true := by decide +kernel
  unfold ruleOrderMatters at htest
  rcases hstart : numberSession with _ | ⟨sig, t⟩
  · simp [hstart] at htest
  rcases hconversion : t.declareConversion 0 sig.name with _ | ⟨conversion, t₁⟩
  · simp [hstart, hconversion] at htest
  rcases hrule' : t.defineReduction 0 "Num" toIntegers with _ | t₁'
  · simp [hstart, hconversion, hrule'] at htest
  obtain ⟨hreached, -, hsig, -⟩ := reached_of_numberSession hstart
  obtain ⟨_, p, hfound, hp, -⟩ := declareConversion_eq_ok hconversion
  obtain rfl := Option.some.inj (hsig.symm.trans hfound)
  rcases hrule : t₁.defineReduction 0 "Num" toIntegers with _ | t₂
  · simp [hstart, hconversion, hrule', hp.1, hrule] at htest
  rcases hconversion' : t₁'.declareConversion 0 sig.name with _ | ⟨conversion', t₂'⟩
  · simp [hstart, hconversion, hrule', hp.1, hrule, hconversion'] at htest
  simp only [hstart, hconversion, hrule', hp.1, hrule, hconversion', List.map_eq_nil_iff,
    decide_eq_true_eq] at htest
  obtain ⟨hname, hlost, hfound'⟩ := htest
  have hsig' : (t₁'.visible 0).signature? sig.name = some sig := by
    rw [signature?_of_defineReduction hrule', hsig]
  exact ⟨t, t₁, t₂, t₁', t₂', sig, p, hreached, hp, hname,
    ⟨.declared hsig hconversion, hrule, hlost⟩,
    hrule', .declared hsig' hconversion', hfound'⟩

end Sessions

end Implicits
