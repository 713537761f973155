import Implicits.Checker.Elaborate
import Implicits.Proofs.Checker.Search

/-!
Elaboration accounts for every hole that it makes. After a successful call each of its holes is
solved, waits for an enclosing call, or is the value of an open obligation; the term and the type
that come back stay within the scope of the inputs.
-/
namespace Implicits

open Term

namespace Signature

variable {α : Type}

theorem placeNamed_spec (sig : Signature) {args : List (Arg (Option α))}
    {slots named : List (Option α)} (h : sig.placeNamed args slots = .ok named) :
    named.length = slots.length ∧ ∀ x ∈ named, x ∈ slots ∨ ∃ a ∈ args, x = a.value := by
  induction args generalizing slots with
  | nil =>
    obtain rfl : slots = named := Except.ok.inj h
    exact ⟨rfl, fun x hx => .inl hx⟩
  | cons arg args ih =>
    rw [placeNamed] at h
    split at h
    · obtain ⟨hlen, hmem⟩ := ih h
      refine ⟨hlen, fun x hx => ?_⟩
      rcases hmem x hx with hold | ⟨a, ha, rfl⟩
      · exact .inl hold
      · exact .inr ⟨a, by simp [ha], rfl⟩
    · split at h
      · simp at h
      · split at h
        · simp at h
        · obtain ⟨hlen, hmem⟩ := ih h
          refine ⟨by rw [hlen, List.length_set], fun x hx => ?_⟩
          rcases hmem x hx with hold | ⟨a, ha, rfl⟩
          · rcases List.mem_or_eq_of_mem_set hold with hold | rfl
            · exact .inl hold
            · exact .inr ⟨arg, by simp, rfl⟩
          · exact .inr ⟨a, by simp [ha], rfl⟩

theorem placePositional_spec (params : List (Param Term)) (slots values : List (Option α)) :
    (placePositional params slots values).1.length = slots.length ∧
      ∀ x ∈ (placePositional params slots values).1, x ∈ slots ∨ x ∈ values := by
  fun_induction placePositional params slots values with
  | case1 p ps slot slots value values hskip rest left heq ih =>
    rw [heq] at ih
    refine ⟨by simp [ih.1], fun x hx => ?_⟩
    rcases List.mem_cons.mp hx with rfl | hx
    · exact .inl (by simp)
    · rcases ih.2 x hx with hold | hold
      · exact .inl (by simp [hold])
      · exact .inr hold
  | case2 p ps slot slots value values hskip rest left heq ih =>
    rw [heq] at ih
    refine ⟨by simp [ih.1], fun x hx => ?_⟩
    rcases List.mem_cons.mp hx with rfl | hx
    · exact .inr (by simp)
    · rcases ih.2 x hx with hold | hold
      · exact .inl (by simp [hold])
      · exact .inr (by simp [hold])
  | case3 => exact ⟨rfl, fun x hx => .inl hx⟩

/-- Matching gives one place per parameter, each empty or filled by an argument. -/
theorem matchArguments_spec {sig : Signature} {args : List (Arg (Option α))}
    {supplied : List (Option α)} (h : sig.matchArguments args = .ok supplied) :
    supplied.length = sig.params.length ∧
      ∀ x ∈ supplied, x = none ∨ ∃ a ∈ args, x = a.value := by
  unfold matchArguments at h
  cases hnamed : sig.placeNamed args (List.replicate sig.params.length none) with
  | error e => simp [hnamed, bind, Except.bind] at h
  | ok named =>
    obtain ⟨hlen, hmem⟩ := sig.placeNamed_spec hnamed
    obtain ⟨hlen', hmem'⟩ := placePositional_spec sig.params named
      ((args.filter (·.name == "")).map (·.value))
    have hsupplied : supplied = (placePositional sig.params named
        ((args.filter (·.name == "")).map (·.value))).1 := by
      simp only [hnamed, bind, Except.bind] at h
      split at h
      · simp [throw, throwThe, MonadExceptOf.throw] at h
      · split at h
        · simp [throw, throwThe, MonadExceptOf.throw] at h
        · exact (Except.ok.inj h).symm
    subst hsupplied
    refine ⟨by rw [hlen', hlen, List.length_replicate], fun x hx => ?_⟩
    rcases hmem' x hx with hold | hold
    · rcases hmem x hold with hrep | harg
      · exact .inl (List.eq_of_mem_replicate hrep)
      · exact .inr harg
    · obtain ⟨a, ha, rfl⟩ := List.mem_map.mp hold
      exact .inr ⟨a, List.mem_of_mem_filter ha, rfl⟩

end Signature

inductive Expr.Scoped (σ : Scope) : Expr → Prop
  | missing : Expr.Scoped σ .missing
  | lit {text : String} {type : Term} (hlit : ∀ n, (Term.lit text type).Scoped σ n) :
    Expr.Scoped σ (.lit text type)
  | var {name : String} : Expr.Scoped σ (.var name)
  | call {fn : Expr} {args : List (Arg Expr)} (hargs : ∀ a ∈ args, Expr.Scoped σ a.value) :
    Expr.Scoped σ (.call fn args)
  | type {level : Option Int64} : Expr.Scoped σ (.type level)
  | term {value : Term} (hvalue : ∀ n, value.Scoped σ n) : Expr.Scoped σ (.term value)

/-- What elaboration of an expression does in every place: its term and type are in scope, and the
holes that it makes are accounted for. -/
def Ledger.Elaborates {env : Declarations} {σ : Scope} {outer : Context} (L : Ledger env σ outer)
    (e : Elaborator) : Prop :=
  ∀ nested c expected, L.Valid c.solver → expected.Scoped σ c.solver.stage →
    L.Checks (e nested outer expected) c fun r c' =>
      r.1.Scoped σ c'.solver.stage ∧ r.2.Scoped σ c'.solver.stage ∧
        c'.AccountedFrom c.solver.holes.size

structure Slot.Ready {env : Declarations} {σ : Scope} {outer : Context} (L : Ledger env σ outer)
    (n : Stage) (slot : Slot) : Prop where
  hole : (Term.hole slot.hole).Scoped σ n
  supplied : ∀ arg, slot.supplied = some arg → L.Elaborates arg.elaborate
  fallback : ∀ value, slot.param.fallback = some (.exact value) → value.Scoped σ n

theorem Slot.Ready.mono {env : Declarations} {σ : Scope} {outer : Context} {L : Ledger env σ outer}
    {n m : Stage} {slot : Slot} (h : slot.Ready L n) (hnm : n ≤ m) : slot.Ready L m :=
  { h with
    hole := h.hole.mono hnm
    fallback := fun value hvalue => (h.fallback value hvalue).mono hnm }

/-- What has become of a slot: its hole is solved, waits, or is the value of the given obligation,
which exists only if unresolved arguments are deferred. -/
structure Slot.Settled (slot : Slot) (ob : Option Obligation) (c : Checker) : Prop where
  explained : c.solver.holes.solution? slot.hole = none →
    (∃ p ∈ c.pending, p.hole = slot.hole) ∨ ∃ o, ob = some o ∧ o.value = .hole slot.hole
  strict : c.options.deferUnresolved = false → ob = none

theorem Slot.Settled.grows {slot : Slot} {ob : Option Obligation} {c c' : Checker}
    (h : slot.Settled ob c) (hstep : c.Grows c') : slot.Settled ob c' where
  explained hopen := by
    rcases h.explained (hstep.isOpen_of_isOpen hopen) with ⟨p, hp, hi⟩ | hob
    · exact .inl ⟨p, hstep.pending.subset hp, hi⟩
    · exact .inr hob
  strict hdefer := h.strict (hstep.options ▸ hdefer)

namespace Check

section

variable {env : Declarations} {σ : Scope} {outer : Context} {L : Ledger env σ outer} {c : Checker}

theorem trySubsume_checks (henv : env.Within σ) (houter : ∀ n, outer.Scoped σ n) {a b : Term}
    (hc : L.Valid c.solver) (ha : a.Scoped σ c.solver.stage)
    (hb : b.Scoped σ c.solver.stage) :
    L.Checks (solve (Solve.trySubsume env outer a b)) c fun _ c' =>
      c.solver.Extends c'.solver :=
  (Ledger.Checks.solve (Solve.trySubsume_keeps henv c.solver outer a b hc (.refl (houter _))
    ha hb)).mono fun _ _ _ h => h.1

theorem unify_checks (henv : env.Within σ) (houter : ∀ n, outer.Scoped σ n) {a b : Term}
    (hc : L.Valid c.solver) (ha : a.Scoped σ c.solver.stage)
    (hb : b.Scoped σ c.solver.stage) :
    L.Checks (solve (Solve.unify env outer a b)) c fun _ c' => c.solver.Extends c'.solver :=
  (Ledger.Checks.solve (Solve.unify_keeps henv c.solver outer a b hc (.refl (houter _))
    ha hb)).mono fun _ _ _ h => h.1

theorem mem_conversions {key : String} {conv : Conversion} {convs : List Conversion}
    (h : env.conversionsAt key = convs) (hconv : conv ∈ convs) :
    (key, conv) ∈ env.conversions := by
  rw [← h] at hconv
  obtain ⟨entry, hentry, rfl⟩ := List.mem_map.mp hconv
  obtain ⟨hmem, hkey⟩ := List.mem_filter.mp hentry
  rw [beq_iff_eq] at hkey
  rw [← hkey]
  exact hmem

/-- A conversion is inserted only if it is the only one at its key. -/
theorem convert_checks (henv : env.Within σ) (houter : ∀ n, outer.Scoped σ n) (site : Expr)
    (param : String) (cause : Fault) {term actual expected : Term} (hc : L.Valid c.solver)
    (hexpected : expected.Scoped σ c.solver.stage) :
    L.Checks (convert env site param outer term actual expected cause) c fun t c' =>
      c.solver.Extends c'.solver ∧ ∃ conv, env.conversionsAt (conversionKey c.solver.holes
        (c.solver.holes.normalize env actual) (c.solver.holes.normalize env expected)) = [conv] ∧
          t = .app (.const conv.name) [term] := by
  unfold convert
  refine (Ledger.Checks.holes hc).bind fun h c₁ _ _ hh => ?_
  obtain ⟨rfl, rfl⟩ := hh
  dsimp only
  split
  · exact .fail hc _ _
  · split
    · exact .fail hc _ _
    · rename_i conv hconv
      have htarget := henv.conversion _ (mem_conversions hconv (List.mem_singleton_self conv))
      refine (Ledger.Checks.lookupSignature? henv hc conv.name).bind fun found c₂ hc₂ _ hfound => ?_
      obtain ⟨hfound, hext₂, hready⟩ := hfound
      split
      · exact .fail hc₂ _ _
      · refine (trySubsume_checks henv houter hc₂
          (htarget _ fun sig hsig => hready sig (hfound.trans hsig))
          (hexpected.mono hext₂.stage)).bind fun r c₃ hc₃ _ hext => ?_
        split
        · exact .fail hc₃ _ _
        · refine (Ledger.Checks.text hc₃ _).bind fun _ c₄ _ _ h₄ => ?_
          subst h₄
          refine (Ledger.Checks.text hc₃ _).bind fun _ c₄ _ _ h₄ => ?_
          subst h₄
          refine (Ledger.Checks.exprText hc₃ _).bind fun _ c₄ _ _ h₄ => ?_
          subst h₄
          refine (Ledger.Checks.note hc₃ _).bind fun _ c₅ hc₅ _ h₅ => ?_
          refine .pure hc₅ ⟨?_, conv, hconv, rfl⟩
          rw [h₅]
          exact hext₂.trans hext
    · exact .fail hc _ _

/-- An argument stays as it is or gets a conversion around it, which is found in a state with the
same holes. -/
theorem fitArgument_checks (henv : env.Within σ) (houter : ∀ n, outer.Scoped σ n) (site : Expr)
    (param : String) {term actual expected : Term} (hc : L.Valid c.solver)
    (hactual : actual.Scoped σ c.solver.stage)
    (hexpected : expected.Scoped σ c.solver.stage) :
    L.Checks (fitArgument env site param outer term actual expected) c fun t c' =>
      c.solver.Extends c'.solver ∧ (t = term ∨ ∃ s conv, c.solver.Extends s ∧
        env.conversionsAt (conversionKey s.holes (s.holes.normalize env actual)
          (s.holes.normalize env expected)) = [conv] ∧ t = .app (.const conv.name) [term]) := by
  unfold fitArgument
  refine (trySubsume_checks henv houter hc hactual hexpected).bind fun r c₁ hc₁ _ hext => ?_
  split
  · exact .pure hc₁ ⟨hext, .inl rfl⟩
  · refine (convert_checks henv houter site param _ hc₁ (hexpected.mono hext.stage)).mono ?_
    rintro t c₂ _ ⟨hext', conv, hconv, ht⟩
    exact ⟨hext.trans hext', .inr ⟨c₁.solver, conv, hext, hconv, ht⟩⟩

/-- A checked argument is in scope, with or without a conversion around it. -/
theorem checkArgument_checks (henv : env.Within σ) (houter : ∀ n, outer.Scoped σ n) {arg : Supplied}
    (harg : L.Elaborates arg.elaborate) (nested : Bool) (param : String) {expected : Term}
    (hc : L.Valid c.solver) (hexpected : expected.Scoped σ c.solver.stage) :
    L.Checks (checkArgument env arg nested param outer expected) c fun t c' =>
      t.Scoped σ c'.solver.stage ∧ c'.AccountedFrom c.solver.holes.size := by
  unfold checkArgument
  refine (harg nested c expected hc hexpected).bind fun ⟨term, actual⟩ c₁ hc₁ hstep₁ hr => ?_
  obtain ⟨hterm, hactual, hacc⟩ := hr
  refine (fitArgument_checks henv houter arg.site param hc₁ hactual
    (hexpected.mono hstep₁.stage)).mono ?_
  rintro t c₂ hstep₂ ⟨hext, ht⟩
  refine ⟨?_, hacc.grows_of_size hstep₂ hext.size⟩
  rcases ht with rfl | ⟨_, conv, _, _, rfl⟩
  · exact hterm.mono hext.stage
  · refine .app (fun _ => ⟨_, rfl⟩) .const fun a ha => ?_
    rw [List.mem_singleton.mp ha]
    exact hterm.mono hext.stage

/-- The holes of a call are the next ones, and their types are the parameter types with the holes of
earlier parameters for their names. -/
theorem makeHoles_checks {params : List (Param Term)} {sub : Substitution}
    (hparams : ∀ p ∈ params, p.type.Scoped σ c.solver.stage) (hc : L.Valid c.solver)
    (hsub : ∀ entry ∈ sub, entry.2.Scoped σ c.solver.stage) :
    L.Checks (makeHoles params sub) c fun r c' =>
      r.1 = List.range' c.solver.holes.size params.length ∧
      c'.solver.holes.size = c.solver.holes.size + params.length ∧
      (∀ entry ∈ r.2, entry.2.Scoped σ c'.solver.stage) ∧
      ∀ (k : Nat) (p : Param Term), params[k]? = some p →
        ∃ h sub', c'.solver.holes.type (c.solver.holes.size + k) = Holes.subst h sub' p.type := by
  induction params generalizing c sub with
  | nil => exact .pure hc ⟨rfl, rfl, hsub, by simp⟩
  | cons p params ih =>
    rw [makeHoles]
    refine (Ledger.Checks.holes hc).bind fun h c₁ _ _ hh => ?_
    obtain ⟨rfl, rfl⟩ := hh
    have htype := hc.table.subst (hparams p (by simp)) hsub
    -- The new hole is open, in scope and has the type of the parameter.
    have hadd : L.Checks (modifyGet fun c =>
        let added := c.solver.addHole p.name (c₁.solver.holes.subst sub p.type)
        (added.1, { c with solver := added.2 })) c₁ fun id c₂ => id = c₁.solver.holes.size ∧
          c₂.solver.holes = c₁.solver.holes.add p.name c₁.solver.holes.size
            (c₁.solver.holes.subst sub p.type) := by
      refine ⟨hc.addHole htype p.name, ?_, rfl, rfl⟩
      refine { Checker.Grows.refl c₁ with size := ?_, type := fun i hi => ?_, solved := ?_ }
      · exact Nat.le_of_lt (Nat.lt_of_lt_of_eq (Nat.lt_succ_self _) (Holes.size_add _ _ _ _).symm)
      · exact (Holes.type_add _ _ _ _ i).trans (if_neg (Nat.ne_of_lt hi))
      · exact fun i t hi => (Holes.solution?_add _ _ _ _ i).trans hi
    refine hadd.bind fun id c₂ hc₂ hstep₂ hid => ?_
    obtain ⟨rfl, hholes⟩ := hid
    have hsize : c₂.solver.holes.size = c₁.solver.holes.size + 1 := by
      rw [hholes, Holes.size_add]
    have hsub' : ∀ entry ∈ (if p.isAnonymous then sub
        else (p.name, Term.hole c₁.solver.holes.size) :: sub),
        entry.2.Scoped σ c₂.solver.stage := by
      have hold : ∀ entry ∈ sub, entry.2.Scoped σ c₂.solver.stage :=
        fun entry hentry => (hsub entry hentry).mono hstep₂.stage
      split
      · exact hold
      · intro entry hentry
        rcases List.mem_cons.mp hentry with rfl | hmem
        · have hlt : c₁.solver.holes.size < c₂.solver.holes.size := by omega
          exact .hole hc.table.base hlt
        · exact hold entry hmem
    refine (ih (fun q hq => (hparams q (by simp [hq])).mono hstep₂.stage) hc₂ hsub').bind
      fun r c₃ hc₃ hstep₃ hr => ?_
    obtain ⟨ids, sub''⟩ := r
    obtain ⟨rfl, hsize₃, hentries, htypes⟩ := hr
    refine .pure hc₃ ⟨?_, ?_, hentries, ?_⟩
    · simp [List.range'_succ, hsize]
    · rw [hsize₃, hsize, List.length_cons]
      omega
    · intro k q hq
      cases k with
      | zero =>
        obtain rfl : p = q := by simpa using hq
        refine ⟨c₁.solver.holes, sub, ?_⟩
        rw [Nat.add_zero, hstep₃.type _ (by omega), hholes, Holes.type_add, if_pos rfl]
      | succ k =>
        obtain ⟨h, sub₁, heq⟩ := htypes k q (by simpa using hq)
        refine ⟨h, sub₁, ?_⟩
        rw [← heq, hsize, Nat.add_right_comm, Nat.add_assoc]

theorem supply_checks (henv : env.Within σ) (houter : ∀ n, outer.Scoped σ n) {slot : Slot}
    (hc : L.Valid c.solver) (hslot : slot.Ready L c.solver.stage) :
    L.Checks (supply env outer slot) c fun _ c' => c'.AccountedFrom c.solver.holes.size := by
  unfold supply
  split
  · exact .pure hc (.of_size (Nat.le_refl _))
  · rename_i arg harg
    refine (Ledger.Checks.holes hc).bind fun h c₁ _ _ hh => ?_
    obtain ⟨rfl, rfl⟩ := hh
    obtain - | - | - | - | ⟨hbase, hmade⟩ := hslot.hole
    refine (checkArgument_checks henv houter (hslot.supplied arg harg) true slot.param.name hc
      (hc.table.type slot.hole hbase hmade)).bind fun term c₂ hc₂ hstep₂ hterm => ?_
    refine (unify_checks henv houter hc₂ (hslot.hole.mono hstep₂.stage) hterm.1).bind
      fun r c₃ hc₃ hstep₃ hext => ?_
    split
    · exact .pure hc₃ (hterm.2.grows_of_size hstep₃ hext.size)
    · exact (Ledger.Checks.holes hc₃).bind fun _ _ hc₄ _ _ => .fail hc₄ _ _

theorem isUnsolved_checks (hc : L.Valid c.solver) (id : HoleId) :
    L.Checks (isUnsolved id) c fun r c' =>
      c' = c ∧ (c.solver.holes.solution? id = none → r = true) := by
  unfold isUnsolved
  refine (Ledger.Checks.holes hc).bind fun h c₁ _ _ hh => ?_
  obtain ⟨rfl, rfl⟩ := hh
  split
  · exact .pure hc ⟨rfl, fun _ => rfl⟩
  · rename_i hfollow
    refine .pure hc ⟨rfl, fun hopen => ?_⟩
    exact absurd (Holes.follow_of_open hopen) (hfollow id)

theorem searchSlot_checks (henv : env.Within σ) (houter : ∀ n, outer.Scoped σ n) {slot : Slot}
    (function : String) {sub : Substitution} (hc : L.Valid c.solver)
    (hslot : slot.Ready L c.solver.stage)
    (hsub : ∀ entry ∈ sub, entry.2.Scoped σ c.solver.stage) :
    L.Checks (searchSlot env function outer sub slot) c fun _ c' =>
      c'.solver.holes.size = c.solver.holes.size := by
  obtain - | - | - | - | ⟨hbase, hmade⟩ := id hslot.hole
  unfold searchSlot
  split
  · exact .pure hc rfl
  · rename_i tactic htactic
    have hvalue : ∀ value, tactic = .exact value → value.Scoped σ c.solver.stage := by
      rintro value rfl
      apply hslot.fallback value
      unfold Param.tactic? at htactic
      split at htactic
      all_goals simp_all
    refine (isUnsolved_checks hc slot.hole).bind fun r c₁ _ _ hr => ?_
    obtain ⟨rfl, -⟩ := hr
    split
    · exact .pure hc rfl
    · refine (Ledger.Checks.holes hc).bind fun h c₂ _ _ hh => ?_
      obtain ⟨rfl, rfl⟩ := hh
      have hgoal := hc.table.type slot.hole hbase hmade
      refine (Search.run_checks henv houter hvalue hsub hc hgoal).bind
        fun ⟨found, trace⟩ c₃ hc₃ _ hfound => ?_
      obtain ⟨hext, hscoped⟩ := hfound
      dsimp only
      split
      · refine (Ledger.Checks.text hc₃ _).bind fun _ c₄ _ _ h₄ => ?_
        subst h₄
        refine (Ledger.Checks.note hc₃ _).bind fun _ c₅ hc₅ _ h₅ => ?_
        exact .pure hc₅ (by rw [h₅, hext.size])
      · rename_i value strategy
        refine (Ledger.Checks.holes hc₃).bind fun h c₄ _ _ hh => ?_
        obtain ⟨rfl, rfl⟩ := hh
        refine (unify_checks henv houter hc₃ (hslot.hole.mono hext.stage)
          (hscoped value rfl)).bind fun r c₅ hc₅ _ hext₅ => ?_
        have hsize : c₅.solver.holes.size = c₂.solver.holes.size := hext₅.size.trans hext.size
        split
        · refine (Ledger.Checks.text hc₅ _).bind fun _ c₆ _ _ h₆ => ?_
          subst h₆
          exact .pure hc₅ hsize
        · refine (Ledger.Checks.text hc₅ _).bind fun _ c₆ _ _ h₆ => ?_
          subst h₆
          refine (Ledger.Checks.note hc₅ _).bind fun _ c₇ hc₇ _ h₇ => ?_
          exact .pure hc₇ (by rw [h₇, hsize])

theorem openObligation_checks (hc : L.Valid c.solver) (function param : String) (id : HoleId)
    (hyps : Context) (trace : List Attempt) :
    L.Checks (openObligation function param id hyps trace) c fun ob c' =>
      c'.solver = c.solver ∧ ob.value = c.solver.holes.follow (.hole id) := by
  unfold openObligation
  refine (Ledger.Checks.holes hc).bind fun h c₁ _ _ hh => ?_
  obtain ⟨rfl, rfl⟩ := hh
  exact (Ledger.Checks.note hc _).bind fun _ c₂ hc₂ _ h₂ => .pure hc₂ ⟨h₂, rfl⟩

/-- Settling leaves no open hole of a slot unexplained. -/
theorem settle_checks (hc : L.Valid c.solver) (site : Expr) (function : String) (nested : Bool)
    (hyps : Context) (slot : Slot) (trace : List Attempt) :
    L.Checks (settle site function nested hyps slot trace) c fun ob c' =>
      c'.solver.holes.size = c.solver.holes.size ∧ slot.Settled ob c' := by
  unfold settle
  refine (isUnsolved_checks hc slot.hole).bind fun r c₁ _ _ hr => ?_
  obtain ⟨rfl, hopen⟩ := hr
  split
  · rename_i hsolved
    refine .pure hc ⟨rfl, fun hnone => ?_, fun _ => rfl⟩
    simp [hopen hnone] at hsolved
  · split
    · refine ⟨hc, ?_, rfl, ?_⟩
      · exact { Checker.Grows.refl c₁ with pending := List.prefix_append _ _ }
      · exact ⟨fun _ => .inl ⟨_, List.mem_append_right _ (List.mem_singleton_self _), rfl⟩,
          fun _ => rfl⟩
    · rw [Ledger.Checks, ends_bind, ends_get]
      change L.Checks _ c₁ _
      split
      · rename_i hdefer
        refine (openObligation_checks hc function slot.param.name slot.hole hyps trace).bind
          fun ob c₂ hc₂ hstep hob => ?_
        refine .pure hc₂ ⟨by rw [hob.1], fun hnone => .inr ⟨ob, rfl, ?_⟩, fun hstrict => ?_⟩
        · rw [hob.2]
          rw [hob.1] at hnone
          exact Holes.follow_of_open hnone
        · rw [hstep.options, hdefer] at hstrict
          simp at hstrict
      · exact (Ledger.Checks.holes hc).bind fun _ _ hc₂ _ _ => .fail hc₂ _ _

theorem useHint_checks (henv : env.Within σ) (houter : ∀ n, outer.Scoped σ n) (function : String)
    {result expected : Term} (hc : L.Valid c.solver) (hresult : result.Scoped σ c.solver.stage)
    (hexpected : expected.Scoped σ c.solver.stage) :
    L.Checks (useHint env function outer result expected) c fun _ c' =>
      c'.solver.holes.size = c.solver.holes.size := by
  unfold useHint
  split
  · exact .pure hc rfl
  · refine (trySubsume_checks henv houter hc hresult hexpected).bind fun r c₁ hc₁ _ hext => ?_
    split
    · exact .pure hc₁ hext.size
    · refine (Ledger.Checks.text hc₁ _).bind fun _ c₂ _ _ h₂ => ?_
      subst h₂
      exact (Ledger.Checks.note hc₁ _).mono fun _ c₃ _ h₃ => by rw [h₃, hext.size]

/-- Completing the slots of a call accounts for all their holes and for those of nested calls. -/
theorem completeSlots_checks (henv : env.Within σ) (houter : ∀ n, outer.Scoped σ n) (site : Expr)
    (function : String) (nested : Bool) {sub : Substitution} {slots : List Slot} {n : Nat}
    (hc : L.Valid c.solver) (hslots : ∀ slot ∈ slots, slot.Ready L c.solver.stage)
    (hsub : ∀ entry ∈ sub, entry.2.Scoped σ c.solver.stage)
    (hcover : ∀ i, n ≤ i → i < c.solver.holes.size → ∃ slot ∈ slots, slot.hole = i) :
    L.Checks (completeSlots env site function nested outer sub slots) c fun _ c' =>
      c'.AccountedFrom n := by
  unfold completeSlots
  -- The arguments: nested calls account for their own holes.
  have hsupply : L.Checks (slots.forM (supply env outer)) c fun _ c' =>
      c'.AccountedFrom c.solver.holes.size := by
    refine .forM hc (.of_size (Nat.le_refl _)) fun slot hslot c' hc' hstep hacc => ?_
    refine (supply_checks henv houter hc' ((hslots slot hslot).mono hstep.stage)).mono ?_
    exact fun _ c'' hstep' hnew => hacc.grows hstep' hnew
  refine hsupply.bind fun _ c₁ hc₁ hstep₁ hacc₁ => ?_
  -- The search makes no holes.
  have hsearch : L.Checks (slots.mapM (searchSlot env function outer sub)) c₁ fun zs c' =>
      c'.AccountedFrom c.solver.holes.size ∧ zs.length = slots.length := by
    refine (Ledger.Checks.mapM (P := fun _ _ _ => True) (fun _ _ _ _ _ _ => trivial) hc₁ hacc₁
      fun slot hslot c' hc' hstep hacc => ?_).mono fun zs c' _ h => ⟨h.1, h.2.1⟩
    have hle := (hstep₁.trans hstep).stage
    refine (searchSlot_checks henv houter function hc' ((hslots slot hslot).mono hle)
      fun entry hentry => (hsub entry hentry).mono hle).mono ?_
    exact fun _ c'' hstep' hsame => ⟨hacc.grows_of_size hstep' hsame, trivial⟩
  refine hsearch.bind fun searched c₂ hc₂ hstep₂ hs => ?_
  obtain ⟨hacc₂, hlength⟩ := hs
  -- Whatever is still open waits or becomes an obligation.
  have hsettle : L.Checks ((slots.zip searched).mapM fun y =>
      settle site function nested outer y.1 y.2.2) c₂ fun obs c' =>
      c'.AccountedFrom c.solver.holes.size ∧
        (∀ slot ∈ slots, ∃ ob ∈ obs, slot.Settled ob c') ∧
        ∀ ob ∈ obs, ∃ slot : Slot, slot.Settled ob c' := by
    refine (Ledger.Checks.mapM (P := fun y ob c' => y.1.Settled ob c')
      (fun _ _ _ _ h hstep => h.grows hstep) hc₂ hacc₂ fun y _ c' hc' _ hacc => ?_).mono
      fun obs c' _ h => ⟨h.1, fun slot hslot => ?_, fun ob hob => ?_⟩
    · refine (settle_checks hc' site function nested outer y.1 y.2.2).mono fun ob c'' hstep' h => ?_
      exact ⟨hacc.grows_of_size hstep' h.1, h.2⟩
    · rw [← List.map_fst_zip (Nat.le_of_eq hlength.symm), List.mem_map] at hslot
      obtain ⟨y, hy, rfl⟩ := hslot
      exact h.2.2.1 y hy
    · obtain ⟨y, _, hy⟩ := h.2.2.2 ob hob
      exact ⟨y.1, hy⟩
  refine hsettle.bind fun settled c₃ hc₃ hstep₃ hs => ?_
  obtain ⟨hacc₃, hslots₃, hobs⟩ := hs
  have hstrict : c₃.options.deferUnresolved = false → settled.filterMap id = [] := by
    intro hdefer
    rw [List.filterMap_eq_nil_iff]
    intro ob hob
    obtain ⟨slot, hslot⟩ := hobs ob hob
    exact hslot.strict hdefer
  have hstep : c₃.Grows
      { c₃ with
        obligations := c₃.obligations ++ searched.filterMap (·.1)
        openObligations := c₃.openObligations ++ settled.filterMap id } :=
    { Checker.Grows.refl c₃ with
      openObligations := List.prefix_append _ _
      strict := fun hdefer => by rw [hstrict hdefer, List.append_nil] }
  refine ⟨hc₃, hstep, ?_⟩
  intro i hn hlt hopen
  by_cases hown : i < c.solver.holes.size
  · obtain ⟨slot, hslot, rfl⟩ := hcover i hn hown
    obtain ⟨ob, hob, hset⟩ := hslots₃ slot hslot
    rcases hset.explained hopen with hpending | ⟨o, rfl, hvalue⟩
    · exact .inl hpending
    · refine .inr ⟨o, List.mem_append_right _ ?_, hvalue⟩
      exact List.mem_filterMap.mpr ⟨some o, hob, rfl⟩
  · exact (hacc₃.grows_of_size hstep rfl) i (by omega) hlt hopen

/-- A completed call: its arguments are its holes, which have the types of its parameters, and its
parts are in scope. -/
structure Completes (σ : Scope) (s : Solver) (sig : Signature) (r : Resolved) (s' : Solver) :
    Prop where
  args : r.args = (List.range' s.holes.size sig.params.length).map Term.hole
  made : s.holes.size + sig.params.length ≤ s'.holes.size
  args_scoped : ∀ a ∈ r.args, a.Scoped σ s'.stage
  term : r.term.Scoped σ s'.stage
  type : r.type.Scoped σ s'.stage
  holeTypes : ∀ (k : Nat) (p : Param Term), sig.params[k]? = some p →
    ∃ h sub, s'.holes.type (s.holes.size + k) = Holes.subst h sub p.type

/-- Every hole of a call has a slot. -/
theorem slots_cover {params : List (Param Term)} {supplied : List (Option Supplied)} {n i : Nat}
    (hlen : supplied.length = params.length) (hlo : n ≤ i) (hhi : i < n + params.length) :
    ∃ slot ∈ (params.zip ((List.range' n params.length).zip supplied)).map fun (p, id, arg) =>
      Slot.mk p id arg, slot.hole = i := by
  have hid : i ∈ ((params.zip ((List.range' n params.length).zip supplied)).map (·.2)).map
      (·.1) := by
    rw [List.map_snd_zip (by simp [hlen]), List.map_fst_zip (by simp [hlen])]
    exact List.mem_range'_1.mpr ⟨hlo, hhi⟩
  simp only [List.mem_map] at hid ⊢
  obtain ⟨y, ⟨w, hw, rfl⟩, rfl⟩ := hid
  exact ⟨_, ⟨w, hw, rfl⟩, rfl⟩

theorem slots_ready {params : List (Param Term)} {ids : List HoleId}
    {supplied : List (Option Supplied)} {n : Stage} (hids : ∀ id ∈ ids, (Term.hole id).Scoped σ n)
    (hparams : ∀ p ∈ params, ∀ value, p.fallback = some (.exact value) → value.Scoped σ n)
    (hsupplied : ∀ x ∈ supplied, ∀ arg, x = some arg → L.Elaborates arg.elaborate) :
    ∀ slot ∈ (params.zip (ids.zip supplied)).map fun (p, id, arg) => Slot.mk p id arg,
      slot.Ready L n := by
  intro slot hslot
  obtain ⟨⟨p, id, arg⟩, hzip, rfl⟩ := List.mem_map.mp hslot
  obtain ⟨hp, hrest⟩ := List.of_mem_zip hzip
  obtain ⟨hid, harg⟩ := List.of_mem_zip hrest
  exact ⟨hids id hid, hsupplied arg harg, hparams p hp⟩

/-- Completing a call accounts for all holes made on the way. -/
theorem resolve_checks (henv : env.Within σ) (houter : ∀ n, outer.Scoped σ n) {sig : Signature}
    (hsig : sig.Within σ) {args : List (Arg (Option Supplied))}
    (hargs : ∀ a ∈ args, ∀ arg, a.value = some arg → L.Elaborates arg.elaborate) (site : Expr)
    (nested : Bool) {expected : Term} (hc : L.Valid c.solver)
    (hexpected : expected.Scoped σ c.solver.stage) :
    L.Checks (resolve env site sig args nested outer expected) c fun r c' =>
      Completes σ c.solver sig r c'.solver ∧ c'.AccountedFrom c.solver.holes.size := by
  unfold resolve
  refine (Ledger.Checks.importSignature hc hsig).bind fun _ c₁ hc₁ hstep₁ himport => ?_
  obtain ⟨hext₁, hready⟩ := himport
  split
  · exact .fail hc₁ _ _
  · rename_i supplied hsupplied
    obtain ⟨hlen, hmem⟩ := Signature.matchArguments_spec hsupplied
    have hparams : ∀ p ∈ sig.params, p.type.Scoped σ c₁.solver.stage := by
      intro p hp
      obtain - | - | - | - | - | - | ⟨_, _, htypes, _⟩ := hsig.pi _ hready
      exact htypes p hp
    refine (makeHoles_checks hparams hc₁ (by simp)).bind fun ⟨ids, sub⟩ c₂ hc₂ hstep₂ hr => ?_
    obtain ⟨rfl, hsize₂, hsub, htypes⟩ := hr
    refine (Ledger.Checks.holes hc₂).bind fun h c₃ _ _ hh => ?_
    obtain ⟨rfl, rfl⟩ := hh
    have hresult : sig.result.Scoped σ c₃.solver.stage := by
      obtain - | - | - | - | - | - | ⟨_, _, _, hresult⟩ := hsig.pi _ (hready.mono hstep₂.stage)
      exact hresult
    have htype := hc₂.table.subst hresult hsub
    refine (useHint_checks henv houter sig.name hc₂ htype
      (hexpected.mono (hstep₁.trans hstep₂).stage)).bind fun _ c₄ hc₄ hstep₄ hsize₄ => ?_
    have hids : ∀ id ∈ List.range' c₁.solver.holes.size sig.params.length,
        (Term.hole id).Scoped σ c₄.solver.stage := by
      intro id hid
      have hrange := List.mem_range'_1.mp hid
      have hlt : id < c₄.solver.holes.size := by omega
      exact .hole (Nat.le_trans hc₁.table.base hrange.1) hlt
    have hgiven : ∀ x ∈ supplied, ∀ arg, x = some arg → L.Elaborates arg.elaborate := by
      intro x hx arg harg
      rcases hmem x hx with hnone | ⟨a, ha, hval⟩
      · simp [hnone] at harg
      · exact hargs a ha arg (hval.symm.trans harg)
    have hslots := slots_ready hids (fun p hp value hvalue =>
      hsig.fallback p hp value hvalue _ (hready.mono (hstep₂.trans hstep₄).stage)) hgiven
    refine (completeSlots_checks henv houter site sig.name nested hc₄ hslots
      (fun entry hentry => (hsub entry hentry).mono hstep₄.stage)
      fun i hlo hhi => slots_cover hlen hlo (by omega)).bind
        fun ⟨obligations, openObligations⟩ c₅ hc₅ hstep₅ hacc => ?_
    have hargs_scoped : ∀ a ∈ (List.range' c₁.solver.holes.size sig.params.length).map Term.hole,
        a.Scoped σ c₅.solver.stage := by
      intro a ha
      obtain ⟨i, hi, rfl⟩ := List.mem_map.mp ha
      exact (hids i hi).mono hstep₅.stage
    have hle := (hstep₄.trans hstep₅).stage
    have hsize := hle.1
    change c₃.solver.holes.size ≤ c₅.solver.holes.size at hsize
    rw [hext₁.size] at *
    refine .pure hc₅ ⟨⟨rfl, by omega, hargs_scoped, ?_, htype.mono hle, ?_⟩, hacc⟩
    · dsimp only
      split
      · exact .const
      · exact .app (fun _ => ⟨_, rfl⟩) .const hargs_scoped
    · intro k p hp
      obtain ⟨h, sub', heq⟩ := htypes k p hp
      obtain ⟨hk, -⟩ := List.getElem?_eq_some_iff.mp hp
      exact ⟨h, sub', ((hstep₄.trans hstep₅).type _ (by omega)).trans heq⟩

theorem suppliedArgs_eq_map (env : Declarations) (args : List (Arg Expr)) :
    suppliedArgs env args = args.map fun a => ⟨a.name,
      if a.value.isMissing then none else some ⟨a.value, elaborate env a.value⟩⟩ := by
  induction args with
  | nil => rfl
  | cons a args ih => rw [suppliedArgs, ih, List.map_cons]

/-- What the elaboration of every argument satisfies, that of every supplied one does. -/
theorem forall_suppliedArgs (P : Elaborator → Prop) {args : List (Arg Expr)}
    (hargs : ∀ a ∈ args, P (elaborate env a.value)) :
    ∀ a ∈ suppliedArgs env args, ∀ arg, a.value = some arg → P arg.elaborate := by
  intro a ha arg harg
  rw [suppliedArgs_eq_map, List.mem_map] at ha
  obtain ⟨b, hb, rfl⟩ := ha
  dsimp only at harg
  split at harg
  · simp at harg
  · obtain rfl := Option.some.inj harg
    exact hargs b hb

/-- Elaboration of an expression accounts for its holes; one case per form of expression. -/
theorem elaborate_elaborates (henv : env.Within σ) (houter : ∀ n, outer.Scoped σ n) {e : Expr}
    (he : e.Scoped σ) : L.Elaborates (elaborate env e) := by
  induction he with
  | missing => exact fun _ _ _ hc _ => .fail hc _ _
  | @lit text type hlit =>
    intro nested c expected hc hexpected
    simp only [elaborate]
    split
    · exact .fail hc _ _
    · obtain - | - | ⟨_, htype⟩ := id (hlit c.solver.stage)
      exact .pure hc ⟨hlit _, htype, .of_size (Nat.le_refl _)⟩
  | @var name =>
    intro nested c expected hc hexpected
    simp only [elaborate]
    split
    · rename_i type htype
      exact .pure hc ⟨.bound, (houter _).lookup htype, .of_size (Nat.le_refl _)⟩
    · refine (Ledger.Checks.lookupSignature? henv hc name).bind fun found c₁ hc₁ hstep₁ hfound => ?_
      obtain ⟨hfound, hext, hready⟩ := hfound
      split
      · exact .fail hc₁ _ _
      · rename_i sig
        have hsig : sig.Within σ := henv.signature name sig hfound.symm
        split
        · refine .pure hc₁
            ⟨.const, Solve.signature_type_scoped henv hfound.symm (hready sig rfl), ?_⟩
          exact .of_size (Nat.le_of_eq hext.size)
        · refine (resolve_checks henv houter hsig (by simp) _ nested hc₁
            (hexpected.mono hstep₁.stage)).bind fun r c₂ hc₂ _ hr => ?_
          exact .pure hc₂ ⟨hr.1.term, hr.1.type, hext.size ▸ hr.2⟩
  | @call fn args _ ihargs =>
    intro nested c expected hc hexpected
    simp only [elaborate]
    split
    · rename_i name
      split
      · exact .fail_bind hc _ _ _
      · refine (Ledger.Checks.lookupSignature? henv hc name).bind
          fun found c₁ hc₁ hstep₁ hfound => ?_
        obtain ⟨hfound, hext, -⟩ := hfound
        split
        · exact .fail hc₁ _ _
        · rename_i sig
          have hsig : sig.Within σ := henv.signature name sig hfound.symm
          refine (resolve_checks henv houter hsig
            (forall_suppliedArgs L.Elaborates ihargs) _ nested hc₁
            (hexpected.mono hstep₁.stage)).bind fun r c₂ hc₂ _ hr => ?_
          exact .pure hc₂ ⟨hr.1.term, hr.1.type, hext.size ▸ hr.2⟩
    · exact .fail hc _ _
  | @type level =>
    intro nested c expected hc hexpected
    -- The type of a universe is found by a typing step.
    have huniverse : ∀ l c', L.Valid c'.solver → l.Made σ c'.solver.stage →
        c'.solver.holes.size = c.solver.holes.size → L.Checks (do
          let u := Term.sort (.level l)
          let type ← orFail (.type level) .typing (Solve.typeOf env outer u)
          return (u, type)) c' fun r c'' => r.1.Scoped σ c''.solver.stage ∧
            r.2.Scoped σ c''.solver.stage ∧ c''.AccountedFrom c.solver.holes.size := by
      intro l c' hc' hl hsize
      refine (Ledger.Checks.orFail (.of_types hc' (Solve.typeOf_types henv hc'.sound (houter _)
        (scoped_universe.mpr hl))) _ _).bind fun type c'' hc'' hstep'' htype => ?_
      have hsize'' := htype.1.size
      exact .pure hc'' ⟨scoped_universe.mpr (hl.mono hstep''.stage), htype.2, .of_size (by omega)⟩
    simp only [elaborate]
    split
    · split
      · exact .fail_bind hc _ _ _
      · exact huniverse _ c hc trivial rfl
    · refine (Ledger.Checks.orFail (.of_types hc (.freshLevel hc.sound)) _ _).bind
        fun l c' hc' _ hl => ?_
      exact huniverse l c' hc' hl.2.2.2 hl.1.size
  | @term value hvalue =>
    intro nested c expected hc hexpected
    simp only [elaborate]
    refine (Ledger.Checks.orFail (.of_types hc (Solve.typeOf_types henv hc.sound (houter _)
      (hvalue _))) _ _).bind fun type c' hc' _ htype => ?_
    exact .pure hc' ⟨hvalue _, htype.2, .of_size (Nat.le_of_eq htype.1.size)⟩

end

end Check

end Implicits
