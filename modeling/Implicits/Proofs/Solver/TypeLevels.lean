import Implicits.Proofs.Solver.Endings
import Implicits.Proofs.Solver.LevelFound
import Implicits.Proofs.Solver.Renumber

/-!
The level that the solver finds for a type is exact. A type that is built from universes, names of
types and function types has a rank in every valuation of the levels. The level that is found is at
least the rank in every valuation that satisfies the store afterwards. A valuation that satisfied
the store before can be changed on the level variables that were made so that it satisfies the store
afterwards and the level found is the rank. So the constraints that are added ask for as much as
they have to and for no more.
-/
namespace Implicits

open Term

/-- A type and its rank, which depends on the values of the levels: that of a universe is one more
than its level, that of a name whose type is a universe is the level of the universe, and that of a
function type is the largest rank of its parts. Later parameters and the result may refer to earlier
parameters. -/
inductive HasRank (env : Declarations) : Context → Term → (Valuation → Int) → Prop
  | sort {hyps : Context} {l : Level} (hl : l.Nonneg) :
    HasRank env hyps (.sort (.level l)) fun v => l.value v + 1
  | bound {hyps : Context} {name : String} {l : Level}
    (hname : hyps.lookup? name = some (.sort (.level l))) (hl : l.Nonneg) :
    HasRank env hyps (.bound name) fun v => l.value v
  | const {hyps : Context} {name : String} {sig : Signature} {l : Level}
    (hsig : env.signature? name = some sig) (hparams : sig.params = [])
    (hconstraints : sig.constraints = []) (hresult : sig.result = .sort (.level l))
      (hl : l.Nonneg) :
    HasRank env hyps (.const name) fun v => l.value v
  | result {hyps : Context} {result : Term} {rank : Valuation → Int}
    (hresult : HasRank env hyps result rank) : HasRank env hyps (.pi [] result) rank
  | param {hyps : Context} {p : Param Term} {ps : List (Param Term)} {result : Term}
    {rank rest : Valuation → Int} (hp : HasRank env hyps p.type rank)
    (hrest : HasRank env (hyps.extend p.name p.type) (.pi ps result) rest) :
    HasRank env hyps (.pi (p :: ps) result) fun v => max (rank v) (rest v)

namespace HasRank

variable {env : Declarations} {hyps : Context} {t : Term} {rank : Valuation → Int}

theorem nonneg (ht : HasRank env hyps t rank) (v : Valuation) : 0 ≤ rank v := by
  induction ht with
  | sort hl => exact Int.le_add_one (hl.value v)
  | bound _ hl | const _ _ _ _ hl => exact hl.value v
  | result _ ih => exact ih
  | param _ _ ihp ihrest => exact Int.le_trans ihp (Int.le_max_left _ _)

theorem not_shows (ht : HasRank env hyps t rank) (i : HoleId) : ¬ t.Shows i := by
  induction ht with
  | sort | bound | const => simp
  | result _ ih => simpa using ih
  | param _ _ ihp ihrest =>
    simp only [shows_pi, List.mem_cons, exists_eq_or_imp, not_or] at ihrest ⊢
    exact ⟨⟨ihp, ihrest.1⟩, ihrest.2⟩

end HasRank

namespace Valuation

def assign (v : Valuation) (P : LevelVar → Prop) [DecidablePred P] (m : Nat) : Valuation :=
  fun x => if P x then m else v x

variable {v : Valuation} {P : LevelVar → Prop} [DecidablePred P] {m : Nat}

theorem value_assign_le (l : Level) :
    l.value (v.assign P 0) ≤ l.value (v.assign P m) ∧
      l.value (v.assign P m) ≤ max (l.value (v.assign P 0)) m := by
  cases l with
  | const k => exact ⟨Int.le_refl _, Int.le_max_left _ _⟩
  | var x =>
    simp only [Level.value, assign]
    split <;> omega

theorem value_assign_of_not {l : Level} (hl : ∀ x, l = .var x → ¬ P x) :
    l.value (v.assign P m) = l.value v := by
  cases l with
  | const k => rfl
  | var x => simp only [Level.value, assign, if_neg (hl x rfl)]

theorem Satisfies.assign {cs : List Constraint} (hv : v.Satisfies cs)
    (hcs : ∀ c ∈ cs, ∀ x, .var x ∈ c.ends → ¬ P x) : (v.assign P m).Satisfies cs := by
  intro c hc
  have hlo : c.lo.value (v.assign P m) = c.lo.value v :=
    value_assign_of_not fun x hx => hcs c hc x (by simp [Constraint.ends, hx])
  have hhi : c.hi.value (v.assign P m) = c.hi.value v :=
    value_assign_of_not fun x hx => hcs c hc x (by simp [Constraint.ends, hx])
  rw [Constraint.holds_iff_gap, hlo, hhi, ← Constraint.holds_iff_gap]
  exact hv c hc

end Valuation

/-- The rank of a type grows with the value of variables that are not its own at most to that value.
-/
theorem HasRank.assign_le {env : Declarations} {hyps : Context} {t : Term} {rank : Valuation → Int}
    (ht : HasRank env hyps t rank) {P : LevelVar → Prop} [DecidablePred P]
    (hP : ∀ x ∈ t.levels, ¬ P x) (v : Valuation) (m : Nat) :
    rank (v.assign P 0) ≤ rank (v.assign P m) ∧
      rank (v.assign P m) ≤ max (rank (v.assign P 0)) m := by
  induction ht with
  | @sort hyps l hl =>
    have hfixed (n : Nat) : l.value (v.assign P n) = l.value v :=
      Valuation.value_assign_of_not fun x hx => hP x (by simp [hx, levels])
    simp only [hfixed]
    exact ⟨Int.le_refl _, Int.le_max_left _ _⟩
  | bound | const => exact Valuation.value_assign_le _
  | result _ ih => exact ih fun x hx => hP x (by simpa [levels, levelsParams] using hx)
  | param _ _ ihp ihrest =>
    have hp := ihp fun x hx => hP x (by simp [levels, levelsParams, hx])
    have hrest := ihrest fun x hx => hP x (by
      simp only [levels, levelsParams, List.mem_append] at hx ⊢
      tauto)
    dsimp only
    omega

/-- Some value is the rank of a type where it is given to variables that are not its own. -/
theorem HasRank.exists_assign_eq {env : Declarations} {hyps : Context} {t : Term}
    {rank : Valuation → Int} (ht : HasRank env hyps t rank) {P : LevelVar → Prop} [DecidablePred P]
    (hP : ∀ x ∈ t.levels, ¬ P x) (v : Valuation) : ∃ m : Nat, rank (v.assign P m) = m := by
  refine ⟨(rank (v.assign P 0)).toNat, ?_⟩
  have hle := ht.assign_le hP v (rank (v.assign P 0)).toNat
  have hnonneg := ht.nonneg (v.assign P 0)
  omega

namespace LevelStore

def IsClosed (s : LevelStore) : Prop :=
  ∀ c, c ∈ s.constraints ∨ c ∈ s.seen → ∀ x, .var x ∈ c.ends → ¬ s.Awaits x

def Made (base s : LevelStore) (x : LevelVar) : Prop := base.Awaits x ∧ x.id < s.nextId

instance (base s : LevelStore) : DecidablePred (base.Made s) :=
  fun x => inferInstanceAs (Decidable (base.Awaits x ∧ x.id < s.nextId))

variable {base s s' : LevelStore} {x : LevelVar}

theorem Made.mono (hx : base.Made s x) (h : s.Grows s') : base.Made s' x :=
  ⟨hx.1, Int.lt_of_lt_of_le hx.2 (Int.ofNat_le.mpr h.nextId)⟩

theorem Grows.made_fresh (h : base.Grows s) : base.Made s.fresh.2 s.fresh.1 :=
  ⟨h.awaits 0, Int.ofNat_lt.mpr (Nat.lt_succ_self s.nextId)⟩

/-- A constraint on a variable that was made since is recorded, not only seen. -/
theorem Grows.add_mem (h : base.Grows s) (hbase : base.IsClosed) {c : Constraint}
    (hc : c.hi = .var x) (hx : base.Awaits x) : c.isTrivial = true ∨ c ∈ (s.add c).constraints := by
  refine (s.add_mem c).imp_right fun hseen => ?_
  obtain ⟨added, hlog, hset, -⟩ := (h.trans (.add s c)).entered
  rw [hset, List.mem_append, List.mem_reverse] at hseen
  rw [hlog, List.mem_append]
  refine .inr (hseen.resolve_right fun hold => hbase c (.inr hold) x ?_ hx)
  simp [Constraint.ends, hc]

end LevelStore

/-- What typing a type adds to a store, with the level that is found. A valuation that gives the
variables made since some earlier state one value has room for the new constraints if this is at
least the rank, and then the level is no larger. -/
structure Places (base s s' : LevelStore) (level : Level) (rank : Valuation → Int) : Prop where
  grows : s.Grows s'
  room : ∀ (v : Valuation) (m : Nat), (∀ x, base.Made s' x → v x = m) → rank v ≤ m →
    v.Satisfies s.constraints → v.Satisfies s'.constraints
  upper : ∀ (v : Valuation) (m : Nat), (∀ x, base.Made s' x → v x = m) → rank v ≤ m →
    level.value v ≤ m
  lower : ∀ v : Valuation, v.Satisfies s'.constraints → rank v ≤ level.value v

namespace Places

variable {base s s₁ s₂ : LevelStore} {level : Level} {rank rest : Valuation → Int}

/-- The name of a type adds nothing. -/
theorem refl (base s : LevelStore) (level : Level) :
    Places base s s level fun v => level.value v where
  grows := .refl s
  room _ _ _ _ hv := hv
  upper _ _ _ hle := hle
  lower _ _ := Int.le_refl _

/-- Bounding two types by one level. -/
theorem trans (h : Places base s s₁ level rank) (h' : Places base s₁ s₂ level rest) :
    Places base s s₂ level fun v => max (rank v) (rest v) where
  grows := h.grows.trans h'.grows
  room v m hmade hle hv := by
    have hle₁ : rank v ≤ m := by omega
    have hv₁ := h.room v m (fun x hx => hmade x (hx.mono h'.grows)) hle₁ hv
    exact h'.room v m hmade (by omega) hv₁
  upper v m hmade hle := h'.upper v m hmade (by omega)
  lower v hv := by
    have hfst := h.lower v (hv.of_prefix h'.grows.constraints)
    have hsnd := h'.lower v hv
    omega

/-- A constraint that puts a new variable exactly as far up as it has to be. -/
theorem add {x : LevelVar} {c : Constraint} (hbase : base.IsClosed) (hs : base.Grows s₁)
    (hgrows : s.Grows s₁) (hx : base.Made s₁ x) (hc : c.hi = .var x)
    (hroom : ∀ (v : Valuation) (m : Nat), (∀ x, base.Made s₁ x → v x = m) → rank v ≤ m →
      v.Satisfies s.constraints → v.Satisfies s₁.constraints)
    (hupper : ∀ (v : Valuation) (m : Nat), (∀ x, base.Made s₁ x → v x = m) → rank v ≤ m →
      c.lo.value v + c.gap ≤ m)
    (hlower : ∀ v : Valuation, v.Satisfies s₁.constraints → rank v ≤ c.lo.value v + c.gap) :
    Places base s (s₁.add c) (.var x) rank where
  grows := hgrows.trans (.add s₁ c)
  room v m hmade hle hv := by
    have hmade₁ : ∀ x, base.Made s₁ x → v x = m := fun x hx => hmade x (hx.mono (.add s₁ c))
    refine (hroom v m hmade₁ hle hv).add ?_
    rw [Constraint.holds_iff_gap, hc, Level.value, hmade₁ x hx]
    exact hupper v m hmade₁ hle
  upper v m hmade hle := Int.le_of_eq (congrArg Int.ofNat (hmade x (hx.mono (.add s₁ c))))
  lower v hv := by
    have hholds : c.Holds v := hv.holds (hs.add_mem hbase hc hx.1)
    rw [Constraint.holds_iff_gap, hc] at hholds
    exact (hlower v (hv.of_prefix (LevelStore.Grows.add s₁ c).constraints)).trans hholds

end Places

namespace Solve

variable {env : Declarations} {levelOfType : Context → Term → Solve Level}
    {hyps : Context} {s : Solver}

theorem ends_asUniverse_sort (henv : env.reductions = []) {t : Term} {l : Level}
    {Q : Level → Solver → Prop} {E : Fault → Solver → Prop} :
    Ends (asUniverse env t (.sort (.level l))) s Q E ↔ Q l s := by
  unfold asUniverse
  rw [ends_bind, ends_holes, Holes.normalize_eq_expand (Declarations.reduce?_eq_none henv),
    Holes.expand_sort]
  rfl

section Placing

variable {base : LevelStore} {t : Term} {rank : Valuation → Int} {x : LevelVar}

def InfersAt (env : Declarations) (levelOfType : Context → Term → Solve Level) (base : LevelStore)
    (hyps : Context) (t : Term) (rank : Valuation → Int) : Prop :=
  ∀ s : Solver, base.Grows s.levels → Ends (infer env levelOfType hyps t) s
    (fun type s' => ∃ k, type = .sort (.level k) ∧ Places base s.levels s'.levels k rank)
    fun _ _ => False

def BoundsParts (env : Declarations) (levelOfType : Context → Term → Solve Level)
    (base : LevelStore) (hyps : Context) (params : List (Param Term)) (result : Term)
    (rank : Valuation → Int) : Prop :=
  ∀ (s : Solver) (x : LevelVar), base.Grows s.levels → base.Made s.levels x →
    Ends (inferParts env levelOfType (.var x) result hyps params) s
      (fun _ s' => Places base s.levels s'.levels (.var x) rank) fun _ _ => False

theorem inferBelow_places (henv : env.reductions = []) (hbase : base.IsClosed)
    (ht : InfersAt env levelOfType base hyps t rank) (hs : base.Grows s.levels)
    (hx : base.Made s.levels x) (origin : String → String) :
    Ends (inferBelow env levelOfType (.var x) hyps t origin) s
      (fun _ s' => Places base s.levels s'.levels (.var x) rank) fun _ _ => False := by
  rw [inferBelow, ends_bind]
  refine (ht s hs).mono ?_ fun _ _ hfalse => hfalse
  rintro _ s₁ ⟨k, rfl, hk⟩
  rw [ends_bind, ends_asUniverse_sort henv]
  change Places base s.levels (s₁.levels.add ⟨k, .var x, false, origin (s₁.text t)⟩) (.var x) rank
  refine .add hbase (hs.trans hk.grows) hk.grows (hx.mono hk.grows) rfl hk.room ?_ ?_
  · intro v m hmade hle
    simpa [Constraint.gap] using hk.upper v m hmade hle
  · intro v hv
    simpa [Constraint.gap] using hk.lower v hv

theorem infer_pi_places {params : List (Param Term)} {result : Term}
    (hparts : BoundsParts env levelOfType base hyps params result rank) :
    InfersAt env levelOfType base hyps (.pi params result) rank := by
  intro s hs
  rw [infer_pi, ends_bind]
  have hfresh := LevelStore.Grows.fresh s.levels
  change Ends (do
    inferParts env levelOfType (.var s.levels.fresh.1) result hyps params
    return Term.sort (.level (.var s.levels.fresh.1))) { s with levels := s.levels.fresh.2 } _ _
  rw [ends_bind]
  refine (hparts _ _ (hs.trans hfresh) hs.made_fresh).mono ?_ fun _ _ hfalse => hfalse
  intro _ s' hplaces
  refine ⟨_, rfl, hfresh.trans hplaces.grows, hplaces.room, hplaces.upper, hplaces.lower⟩

/-- A universe lives right above its level. -/
theorem infer_sort_places (hbase : base.IsClosed) {l : Level} (hl : l.Nonneg) :
    InfersAt env levelOfType base hyps (.sort (.level l)) fun v => l.value v + 1 := by
  intro s hs
  have hfresh := LevelStore.Grows.fresh s.levels
  rw [infer_universe, if_pos hl]
  refine ⟨_, rfl, .add hbase (hs.trans hfresh) hfresh hs.made_fresh rfl ?_ ?_ ?_⟩
  · exact fun v m _ _ hv => hv
  · exact fun v m _ hle => hle
  · exact fun v _ => Int.le_refl _

/-- The induction over the parts of a type. A function type is typed by bounding one part after the
other, so what is shown of one goes along with what is shown of the rest of its parts. -/
theorem infer_places (henv : env.reductions = []) (hbase : base.IsClosed)
    (ht : HasRank env hyps t rank) :
    InfersAt env levelOfType base hyps t rank ∧ ∀ params result, t = .pi params result →
      BoundsParts env levelOfType base hyps params result rank := by
  induction ht with
  | sort hl => exact ⟨infer_sort_places hbase hl, by simp⟩
  | bound hname hl =>
    refine ⟨fun s hs => ?_, by simp⟩
    rw [infer, hname]
    exact ⟨_, rfl, .refl base s.levels _⟩
  | @const hyps name sig l hsig hparams hconstraints hresult hl =>
    refine ⟨fun s hs => ?_, by simp⟩
    have htype : sig.type = .sort (.level l) := by simp [Signature.type, hparams, hresult]
    have himport : s.importSignature sig = s := by simp [Solver.importSignature, hconstraints]
    rw [infer, lookupSignature?, hsig]
    refine ⟨l, htype, ?_⟩
    change Places base s.levels (s.importSignature sig).levels l _
    rw [himport]
    exact .refl base s.levels l
  | @result hyps result rank _ ih =>
    have hparts : BoundsParts env levelOfType base hyps [] result rank :=
      fun s x hs hx => inferBelow_places henv hbase ih.1 hs hx _
    refine ⟨infer_pi_places hparts, fun params' result' heq => ?_⟩
    obtain ⟨rfl, rfl⟩ := Term.pi.inj heq
    exact hparts
  | @param hyps p ps result rank rest _ _ ihp ihrest =>
    have hparts : BoundsParts env levelOfType base hyps (p :: ps) result
        fun v => max (rank v) (rest v) := by
      intro s x hs hx
      rw [inferParts, ends_bind]
      refine (inferBelow_places henv hbase ihp.1 hs hx _).mono ?_ fun _ _ hfalse => hfalse
      intro _ s₁ hp
      have hrest := ihrest.2 ps result rfl s₁ x (hs.trans hp.grows) (hx.mono hp.grows)
      exact hrest.mono (fun _ s₂ hrest => hp.trans hrest) fun _ _ hfalse => hfalse
    refine ⟨infer_pi_places hparts, fun params' result' heq => ?_⟩
    obtain ⟨rfl, rfl⟩ := Term.pi.inj heq
    exact hparts

theorem levelOf_places (henv : env.reductions = []) (hs : s.levels.IsClosed)
    (ht : HasRank env hyps t rank) :
    Ends (levelOf env hyps t) s (fun k s' => Places s.levels s.levels s'.levels k rank)
      fun _ _ => False := by
  have hexpand : s.holes.expand t = t :=
    Holes.expand_of_shows fun i hi => absurd hi (ht.not_shows i)
  unfold levelOf typeOf
  rw [bind_assoc, ends_bind, ends_holes, hexpand, show typeSteps + t.size = (4095 + t.size) + 1 by
    unfold typeSteps; omega, typeOfN, bind_assoc, ends_bind, ends_holes, hexpand, ends_bind]
  refine ((infer_places henv hs ht).1 s (.refl _)).mono ?_ fun _ _ hfalse => hfalse
  rintro _ s' ⟨k, rfl, hk⟩
  exact (ends_asUniverse_sort henv).mpr hk

end Placing

/-- The level of a type is found, it is at least the rank of the type, and nothing more is asked
for: the variables that were made can have values with which it is the rank. -/
theorem levelOf_exact {t : Term} {rank : Valuation → Int} (henv : env.reductions = [])
    (ht : HasRank env hyps t rank) (hs : s.levels.IsClosed)
    (hlevels : ∀ x ∈ t.levels, ¬ s.levels.Awaits x) :
    ∃ k s', (levelOf env hyps t).run s = (.ok k, s') ∧
      (∀ v : Valuation, v.Satisfies s'.levels.constraints → rank v ≤ k.value v) ∧
      ∀ v : Valuation, v.Satisfies s.levels.constraints → ∃ v' : Valuation,
        (∀ x, v' x ≠ v x → s.levels.Made s'.levels x) ∧ v'.Satisfies s'.levels.constraints ∧
          k.value v' = rank v' := by
  obtain ⟨k, s', hrun, hplaces⟩ := (levelOf_places henv hs ht).exists_ok
  refine ⟨k, s', hrun, hplaces.lower, fun v hv => ?_⟩
  obtain ⟨m, hm⟩ := ht.exists_assign_eq (P := s.levels.Made s'.levels)
    (fun x hx hmade => hlevels x hx hmade.1) v
  have hmade : ∀ x, s.levels.Made s'.levels x → v.assign (s.levels.Made s'.levels) m x = m :=
    fun x hx => if_pos hx
  have hbefore : (v.assign (s.levels.Made s'.levels) m).Satisfies s.levels.constraints :=
    hv.assign fun c hc x hx hmade => hs c (.inl hc) x hx hmade.1
  have hafter := hplaces.room _ m hmade (Int.le_of_eq hm) hbefore
  refine ⟨v.assign (s.levels.Made s'.levels) m, fun x hne => ?_, hafter, ?_⟩
  · by_contra hold
    exact hne (if_neg hold)
  · exact Int.le_antisymm ((hplaces.upper _ m hmade (Int.le_of_eq hm)).trans_eq hm.symm)
      (hplaces.lower _ hafter)

def boundedUnit : LevelStore where
  owner := "unit"
  issued := [⟨"unit", 0, false⟩]
  constraints := [⟨.var ⟨"unit", 0, false⟩, .const 3, false, "given"⟩]
  seen := [⟨.var ⟨"unit", 0, false⟩, .const 3, false, "given"⟩]

def oneType : Declarations where
  signatures := [{ name := "Nat", result := .sort (.level (.const 0)) }]

def dependentType : Term :=
  .pi [⟨"B", .sort (.level (.var ⟨"unit", 0, false⟩)), .implicit, none⟩,
    ⟨"x", .bound "B", .explicit, none⟩,
    ⟨"f", .pi [⟨"y", .bound "A", .explicit, none⟩] (.const "Nat"), .explicit, none⟩]
    (.sort (.level (.const 1)))

theorem levelOf_exact_dependentType :
    ∃ k s', (levelOf oneType ⟨[⟨"A", .sort (.level (.const 2))⟩]⟩ dependentType).run
        { levels := boundedUnit } = (.ok k, s') ∧
      (∀ v : Valuation, v.Satisfies s'.levels.constraints →
        max (v ⟨"unit", 0, false⟩ + 1 : Int) (max (v ⟨"unit", 0, false⟩) (max (max 2 0) (1 + 1))) ≤
          k.value v) ∧
      ∃ v' : Valuation, v' ⟨"unit", 0, false⟩ = 3 ∧ v'.Satisfies s'.levels.constraints ∧
        k.value v' = 4 := by
  have hrank : HasRank oneType ⟨[⟨"A", .sort (.level (.const 2))⟩]⟩ dependentType fun v =>
      max (v ⟨"unit", 0, false⟩ + 1 : Int)
        (max (v ⟨"unit", 0, false⟩) (max (max 2 0) (1 + 1))) :=
    .param (.sort trivial) (.param (.bound (l := .var ⟨"unit", 0, false⟩) rfl trivial)
      (.param (.param (.bound (l := .const 2) rfl (by simp [Level.Nonneg]))
        (.result (.const (l := .const 0) rfl rfl rfl rfl (by simp [Level.Nonneg]))))
          (.result (.sort (l := .const 1) (by simp [Level.Nonneg])))))
  have hmade : ¬ boundedUnit.Awaits ⟨"unit", 0, false⟩ := by decide
  have hclosed : boundedUnit.IsClosed := by
    intro c hc x hx
    obtain rfl : c = ⟨.var ⟨"unit", 0, false⟩, .const 3, false, "given"⟩ := by
      simpa [boundedUnit] using hc
    obtain rfl : x = ⟨"unit", 0, false⟩ := by simpa [Constraint.ends] using hx
    exact hmade
  have hlevels : ∀ x ∈ dependentType.levels, ¬ boundedUnit.Awaits x := by decide
  obtain ⟨k, s', hrun, hlower, hexact⟩ :=
    levelOf_exact (s := { levels := boundedUnit }) rfl hrank hclosed hlevels
  obtain ⟨v', hchange, hv', hk⟩ := hexact (fun _ => 3) (by decide)
  have hsame : v' ⟨"unit", 0, false⟩ = 3 := by
    by_contra hne
    exact hmade (hchange _ hne).1
  refine ⟨k, s', hrun, hlower, v', hsame, hv', ?_⟩
  rw [hk, hsame]
  decide

end Solve

end Implicits
