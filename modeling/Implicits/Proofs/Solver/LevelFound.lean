import Implicits.Proofs.Solver.Universes

/-!
A settled type that lives at a level is found to do so. Its typing cannot fail, and in a valuation
in which all level variables that are still to be made have the value of that level, the level that
is found is no larger.
-/
namespace Implicits

open Term

/-- A type that means the same inside and outside of function types: it is no equation and no name
that a function type may bind, and neither are the parts of a function type. -/
inductive Term.Settled (binder : String → Prop) : Term → Prop
  | const {name : String} : Settled binder (.const name)
  | lit {text : String} {type : Term} : Settled binder (.lit text type)
  | bound {name : String} (hname : ¬ binder name) : Settled binder (.bound name)
  | app {fn : Term} {args : List Term} : Settled binder (.app fn args)
  | pi {params : List (Param Term)} {result : Term} (hparams : ∀ p ∈ params, Settled binder p.type)
    (hresult : Settled binder result) : Settled binder (.pi params result)
  | sort {u : Universe} : Settled binder (.sort u)

/-- A valuation that satisfies the store and gives one value to all variables that have not been
made. -/
structure Solver.Spare (v : Valuation) (n : Int) (s : Solver) : Prop where
  satisfies : v.Satisfies s.levels.constraints
  unmade : ∀ id : Nat, s.levels.nextId ≤ id → v ⟨s.levels.owner, id, s.levels.ofDecl⟩ = n.toNat

/-- More levels can be made and more constraints added, if the valuation satisfies them. -/
theorem Solver.Spare.grows {v : Valuation} {n : Int} {s : Solver} {levels : LevelStore}
    (h : s.Spare v n) (hgrows : s.levels.Grows levels) (hv : v.Satisfies levels.constraints) :
    Solver.Spare v n { s with levels } := by
  refine ⟨hv, fun id hid => ?_⟩
  change v ⟨levels.owner, id, levels.ofDecl⟩ = n.toNat
  rw [hgrows.owner, hgrows.ofDecl]
  exact h.unmade id (Nat.le_trans hgrows.nextId hid)

theorem Valuation.Satisfies.importAll {v : Valuation} {store : LevelStore} {cs : List Constraint}
    (hstore : v.Satisfies store.constraints) (hcs : v.Satisfies cs) :
    v.Satisfies (store.importAll cs).constraints := by
  intro c hc
  rcases LevelStore.mem_importAll hc with hold | hnew
  · exact hstore c hold
  · exact hcs c hnew.1

theorem Valuation.Satisfies.add {v : Valuation} {store : LevelStore} {c : Constraint}
    (hstore : v.Satisfies store.constraints) (hc : c.Holds v) :
    v.Satisfies (store.add c).constraints := by
  have hone : v.Satisfies [c] := fun d hd => List.mem_singleton.mp hd ▸ hc
  exact hstore.importAll hone

/-- A context that has the types of an outer one for all names that function types do not bind. -/
def Context.Agrees (binder : String → Prop) (outer hyps : Context) : Prop :=
  ∀ name, ¬ binder name → hyps.lookup? name = outer.lookup? name

theorem Context.Agrees.extend {binder : String → Prop} {outer hyps : Context}
    (h : Agrees binder outer hyps) {name : String} (hname : binder name) (type : Term) :
    Agrees binder outer (hyps.extend name type) := by
  intro other hother
  have hne : (name == other) = false := by
    rw [beq_eq_false_iff_ne]
    rintro rfl
    exact hother hname
  rw [← h other hother, lookup?, lookup?, Context.extend, List.find?_cons_of_neg (by simp [hne])]

namespace Solve

variable {α β : Type}

def Finds (v : Valuation) (n : Int) (s : Solver) (x : Solve α) (Q : α → Prop) : Prop :=
  Ends x s (fun a s' => s'.holes = s.holes ∧ s'.Spare v n ∧ Q a) fun _ _ => False

namespace Finds

variable {v : Valuation} {n : Int} {s : Solver} {x : Solve α} {Q : α → Prop} {R : β → Prop}

theorem pure {a : α} (hs : s.Spare v n) (ha : Q a) : Finds v n s (pure a) Q := ⟨rfl, hs, ha⟩

theorem bind {f : α → Solve β} (hx : Finds v n s x Q)
    (hf : ∀ a s', s'.Spare v n → s'.holes = s.holes → Q a → Finds v n s' (f a) R) :
    Finds v n s (x >>= f) R := by
  rw [Finds, ends_bind]
  apply Ends.mono hx
  · rintro a s' ⟨hholes, hs', ha⟩
    apply Ends.mono (hf a s' hs' hholes ha)
    · rintro b s'' ⟨hholes', hs'', hb⟩
      exact ⟨hholes'.trans hholes, hs'', hb⟩
    · exact fun _ _ h => h
  · exact fun _ _ h => h

theorem holes (hs : s.Spare v n) : Finds v n s holes (· = s.holes) := ⟨rfl, hs, rfl⟩

theorem text (hs : s.Spare v n) (t : Term) : Finds v n s (text t) fun _ => True :=
  ⟨rfl, hs, trivial⟩

theorem add (hs : s.Spare v n) {c : Constraint} (hc : c.Holds v) :
    Finds v n s (modifyLevels (·.add c)) fun _ => True :=
  ⟨rfl, hs.grows (.add s.levels c) (hs.satisfies.add hc), trivial⟩

theorem le (hs : s.Spare v n) {l m : Level} (hle : l.value v ≤ m.value v) (origin : String) :
    Finds v n s (modifyLevels (·.le l m origin)) fun _ => True :=
  add hs (c := ⟨l, m, false, origin⟩) hle

theorem lt (hs : s.Spare v n) {l m : Level} (hlt : l.value v < m.value v) (origin : String) :
    Finds v n s (modifyLevels (·.lt l m origin)) fun _ => True :=
  add hs (c := ⟨l, m, true, origin⟩) hlt

/-- A new level has the value that has been kept for it. -/
theorem freshLevel (hs : s.Spare v n) : Finds v n s freshLevel fun l => l.value v = n.toNat :=
  ⟨rfl, hs.grows (.fresh s.levels) hs.satisfies,
    congrArg Int.ofNat (hs.unmade s.levels.nextId (Nat.le_refl _))⟩

theorem lookupSignature? {env : Declarations} (hs : s.Spare v n) {name : String} {sig : Signature}
    (hsig : env.signature? name = some sig) (hcs : v.Satisfies sig.constraints) :
    Finds v n s (lookupSignature? env name) (· = some sig) := by
  have himport : (s.importSignature sig).Spare v n := by
    unfold Solver.importSignature
    split
    · exact hs
    · have hgrown := hs.grows (.importAll s.levels sig.constraints) (hs.satisfies.importAll hcs)
      exact ⟨hgrown.satisfies, hgrown.unmade⟩
  unfold Solve.lookupSignature?
  rw [hsig]
  exact ⟨(Solver.Retypes.importSignature s sig).holes, himport, rfl⟩

end Finds

section Found

variable {env : Declarations} {σ : Scope} {outer : Context} {v : Valuation} {n : Int} {s : Solver}

def UniverseBelow (h : Holes) (v : Valuation) (n : Int) (type : Term) : Prop :=
  ∃ l, h.expand type = .sort (.level l) ∧ l.value v ≤ n

theorem asUniverse_finds (hr : Rigid env σ outer) (hs : s.Spare v n) {type : Term}
    (htype : UniverseBelow s.holes v n type) (t : Term) :
    Finds v n s (asUniverse env t type) fun l => l.value v ≤ n := by
  obtain ⟨l, hl, hle⟩ := htype
  unfold asUniverse
  refine (Finds.holes hs).bind fun h s' hs' _ hh => ?_
  subst hh
  rw [Holes.normalize_eq_expand hr.irreducible, hl]
  exact .pure hs' hle

/-- The type of an application of a declared function to all its arguments. -/
theorem applyType_finds (hr : Rigid env σ outer) (hs : s.Spare v n) {name : String}
    {sig : Signature} (hsig : env.signature? name = some sig) {args : List Term} {l : Level}
    (hresult : LeadsTo s.holes sig args l) (hle : l.value v ≤ n) (fn : Term) :
    Finds v n s (applyType env fn sig.type args) (UniverseBelow s.holes v n) := by
  -- A function that is applied to all its arguments has its result type, behind them.
  have hfull : ∀ params result, sig.type = .pi params result → params.length = args.length →
      UniverseBelow s.holes v n (s.holes.subst ((params.map (·.name)).zip args).reverse result) →
        Finds v n s (applyType env fn sig.type args) (UniverseBelow s.holes v n) := by
    intro params result htype hlen hbelow
    unfold applyType
    refine (Finds.holes hs).bind fun h s' hs' _ hh => ?_
    subst hh
    rw [Holes.normalize_eq_expand hr.irreducible,
      Holes.expand_of_holeFree _ (hr.signature_holeFree hsig), htype]
    have hrest : params.drop args.length = [] := List.drop_eq_nil_of_le (Nat.le_of_eq hlen)
    simp only [hlen, Nat.lt_irrefl, if_false, hrest, List.isEmpty_nil, if_true]
    exact .pure hs' hbelow
  cases hresult with
  | result htype hlen =>
    refine hfull _ _ htype hlen ⟨l, ?_, hle⟩
    rw [Holes.subst_sort, Holes.expand_sort]
  | argument htype hlen hlookup hread =>
    refine hfull _ _ htype hlen ⟨l, ?_, hle⟩
    rw [Holes.subst_bound _ hlookup]
    exact hread

/-- A universe below a level has a type that is at most this level. -/
theorem universeAbove_finds {h : Holes} {l : Level} (hs : s.Spare v n) (hnonneg : 0 ≤ l.value v)
    (hlt : l.value v < n) : Finds v n s (universeAbove l) (UniverseBelow h v n) := by
  refine (Finds.freshLevel hs).bind fun above s₁ hs₁ _ habove => ?_
  rw [Int.toNat_of_nonneg (Int.le_trans hnonneg (Int.le_of_lt hlt))] at habove
  refine (Finds.lt hs₁ (hlt.trans_eq habove.symm) _).bind fun _ s₂ hs₂ _ _ => ?_
  exact .pure hs₂ ⟨above, Holes.expand_sort _ _, Int.le_of_eq habove⟩

theorem inferBelow_finds (hr : Rigid env σ outer) {levelOfType : Context → Term → Solve Level}
    {level : Level} {t : Term} {hyps : Context} (hlevel : level.value v = n)
    (ht : Finds v n s (infer env levelOfType hyps t) (UniverseBelow s.holes v n))
    (origin : String → String) :
    Finds v n s (inferBelow env levelOfType level hyps t origin) fun _ => True := by
  refine ht.bind fun type s₁ hs₁ h₁ htype => ?_
  rw [← h₁] at htype
  refine (asUniverse_finds hr hs₁ htype t).bind fun lo s₂ hs₂ _ hlo => ?_
  refine (Finds.text hs₂ t).bind fun shown s₃ hs₃ _ _ => ?_
  exact Finds.le hs₃ (hlo.trans_eq hlevel.symm) _

theorem inferParts_finds (hr : Rigid env σ outer) {levelOfType : Context → Term → Solve Level}
    {level : Level} {h : Holes} {params : List (Param Term)} {result : Term} {hyps : Context}
    (hlevel : level.value v = n)
    (hparams : ∀ p ∈ params, σ.binder p.name ∧ ∀ (s : Solver) (hyps : Context), s.Spare v n →
      s.holes = h → Context.Agrees σ.binder outer hyps →
        Finds v n s (infer env levelOfType hyps p.type) (UniverseBelow h v n))
    (hresult : ∀ (s : Solver) (hyps : Context), s.Spare v n → s.holes = h →
      Context.Agrees σ.binder outer hyps →
        Finds v n s (infer env levelOfType hyps result) (UniverseBelow h v n))
    (hs : s.Spare v n) (hholes : s.holes = h) (hhyps : Context.Agrees σ.binder outer hyps) :
    Finds v n s (inferParts env levelOfType level result hyps params) fun _ => True := by
  induction params generalizing hyps s with
  | nil =>
    subst hholes
    exact inferBelow_finds hr hlevel (hresult s hyps hs rfl hhyps) _
  | cons p params ih =>
    subst hholes
    obtain ⟨hname, hinfer⟩ := hparams p (by simp)
    refine (inferBelow_finds hr hlevel (hinfer s hyps hs rfl hhyps) _).bind fun _ s₁ hs₁ h₁ _ => ?_
    exact ih (fun q hq => hparams q (by simp [hq])) hs₁ h₁ (hhyps.extend hname p.type)

/-- The type of a settled type that lives at a level is a universe of at most this level. -/
theorem infer_finds (hr : Rigid env σ outer) {levelOfType : Context → Term → Solve Level}
    {h : Holes} {t : Term} (hlives : Lives env σ.binder outer v h t n) (ht : t.Settled σ.binder)
    {stage : Stage} (hscoped : t.Scoped σ stage) {hyps : Context} (hs : s.Spare v n)
    (hholes : s.holes = h) (hhyps : Context.Agrees σ.binder outer hyps) :
    Finds v n s (infer env levelOfType hyps t) (UniverseBelow h v n) := by
  induction hlives generalizing s hyps with
  | solved | unsolved | eq => cases ht
  | captured hname =>
    cases ht with
    | bound hfree => exact absurd hname hfree
  | @sort l n hnonneg hlt =>
    have hl : l.Nonneg := by
      cases l with
      | const k => exact hnonneg
      | var x => trivial
    rw [infer_universe, if_pos hl]
    exact universeAbove_finds hs hnonneg hlt
  | const hsig hcs htype hle =>
    rw [infer]
    refine (Finds.lookupSignature? hs hsig hcs).bind fun found s' hs' _ hfound => ?_
    subst hfound
    refine .pure hs' ⟨_, ?_, hle⟩
    rw [htype, Holes.expand_sort]
  | app hsig hcs hresult hle =>
    rw [infer, infer, bind_assoc]
    refine (Finds.lookupSignature? hs hsig hcs).bind fun found s' hs' h' hfound => ?_
    subst hfound
    rw [← hholes, ← h'] at hresult ⊢
    exact applyType_finds hr hs' hsig hresult hle _
  | lit hle => exact .pure hs ⟨_, Holes.expand_sort _ _, hle⟩
  | bound hlookup hle =>
    cases ht with
    | bound hfree =>
      rw [infer, hhyps _ hfree, hlookup]
      exact .pure hs ⟨_, Holes.expand_sort _ _, hle⟩
  | @pi params result n hn hparams hresult ihparams ihresult =>
    obtain - | - | - | - | ⟨hsettled, hsettled'⟩ := ht
    obtain - | - | - | - | - | - | ⟨hnames, _, htypes, hbody⟩ := hscoped
    rw [infer_pi]
    refine (Finds.freshLevel hs).bind fun level s₁ hs₁ h₁ hlevel => ?_
    rw [Int.toNat_of_nonneg hn] at hlevel
    refine (inferParts_finds hr hlevel (fun p hp => ⟨hnames p hp, fun s hyps hs hholes hhyps =>
      ihparams p hp (hsettled p hp) (htypes p hp) hs hholes hhyps⟩) (fun s hyps hs hholes hhyps =>
      ihresult hsettled' hbody hs hholes hhyps) hs₁ (h₁.trans hholes) hhyps).bind
      fun _ s₂ hs₂ _ _ => ?_
    exact .pure hs₂ ⟨level, Holes.expand_sort _ _, Int.le_of_eq hlevel⟩

/-- The level of a settled type is found, and the valuation that has room for it bounds it. -/
theorem levelOf_finds (hr : Rigid env σ outer) {t : Term}
    (hlives : Lives env σ.binder outer v s.holes t n) (ht : t.Settled σ.binder) (hfree : t.HoleFree)
    {stage : Stage} (hscoped : t.Scoped σ stage) (hs : s.Spare v n) :
    Finds v n s (levelOf env outer t) fun l => l.value v ≤ n := by
  unfold levelOf typeOf
  rw [bind_assoc]
  refine (Finds.holes hs).bind fun h s₁ hs₁ h₁ hh => ?_
  subst hh
  rw [Holes.expand_of_holeFree _ hfree, show typeSteps + t.size = (4095 + t.size) + 1 by
    unfold typeSteps; omega, typeOfN, bind_assoc]
  refine (Finds.holes hs₁).bind fun h s₂ hs₂ h₂ hh => ?_
  subst hh
  rw [Holes.expand_of_holeFree _ hfree]
  have hholes : s₂.holes = s.holes := h₂.trans h₁
  refine (infer_finds hr hlives ht hscoped hs₂ hholes fun _ _ => rfl).bind
    fun type s₃ hs₃ h₃ htype => ?_
  rw [← hholes, ← h₃] at htype
  exact asUniverse_finds hr hs₃ htype t

end Found

end Solve

end Implicits
