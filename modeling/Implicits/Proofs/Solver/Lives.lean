import Implicits.Proofs.HoleFree
import Implicits.Proofs.Level.Valuation

/-!
The universe that a type lives in, judged apart from the typing steps of the solver. A type is read
through the solutions of its holes, and an open hole lives where its own type says. The judgement
survives when holes are made and solved, as long as each solution lives where its hole does.
-/
namespace Implicits

open Relation Term

namespace Holes

section Universes

variable {h h' : Holes} {t : Term} {u : Universe}

theorem instantiateN_eq_sort (hsolved : ∀ i t, h.solution? i = some t → h'.solution? i = some t)
    {k k' : Nat} (hk : k ≤ k') (ht : h.instantiateN false k t = .sort u) :
    h'.instantiateN false k' t = .sort u := by
  induction k generalizing t k' with
  | zero =>
    obtain rfl : t = .sort u := ht
    cases k' <;> rfl
  | succ k ih =>
    obtain ⟨k', rfl⟩ : ∃ m, k' = m + 1 := ⟨k' - 1, by omega⟩
    cases t with
    | hole i =>
      simp only [instantiateN, fill] at ht ⊢
      cases hsol : h.solution? i with
      | none => simp [hsol] at ht
      | some w =>
        simp only [hsol, hsolved i w hsol] at ht ⊢
        exact ih (by omega) ht
    | sort => exact ht
    | _ => simp [instantiateN, fill] at ht

/-- A term that is read as a universe stays so when holes are made and solved. -/
theorem expand_eq_sort (hsolved : ∀ i t, h.solution? i = some t → h'.solution? i = some t)
    (hsize : h.size ≤ h'.size) (ht : h.expand t = .sort u) : h'.expand t = .sort u :=
  instantiateN_eq_sort hsolved hsize ht

theorem expand_sort (h : Holes) (u : Universe) : h.expand (.sort u) = .sort u :=
  expand_of_holeFree h rfl

theorem eq_sort_of_expand (hu : h.expand t = .sort u) (hne : ∀ i, t ≠ .hole i) : t = .sort u := by
  unfold expand at hu
  generalize h.size = k at hu
  cases k with
  | zero => exact hu
  | succ k =>
    cases t with
    | hole i => exact absurd rfl (hne i)
    | sort => exact hu
    | _ => simp [instantiateN, fill] at hu

/-- Reading a part of the solutions first makes no difference to what is read as a universe. -/
theorem expand_eq_sort_of_instantiateN {σ : Scope} {n : Stage} (hh : h.Sound σ n)
    (ht : t.Scoped σ n) {k : Nat} (hk : h.expand (h.instantiateN false k t) = .sort u) :
    h.expand t = .sort u := by
  induction k generalizing t with
  | zero => exact hk
  | succ k ih =>
    cases t with
    | hole i =>
      simp only [instantiateN, fill] at hk
      cases hsol : h.solution? i with
      | none => simpa only [hsol] using hk
      | some w =>
        obtain - | - | - | - | ⟨hbase, _⟩ := ht
        simp only [hsol] at hk
        rw [expand_hole (hh.grounded hbase) hsol]
        exact ih (hh.solution i w hbase hsol) hk
    | sort => exact hk
    | _ =>
      have hsort := eq_sort_of_expand hk (by simp [instantiateN, fill])
      simp [instantiateN, fill] at hsort

end Universes

end Holes

/-- Reading through a table keeps the form of an application. -/
theorem Holes.instantiateN_app (h : Holes) (k : Nat) (fn : Term) (args : List Term) :
    h.instantiateN false k (.app fn args) =
      .app (h.instantiateN false k fn) (args.map (h.instantiateN false k)) := by
  cases k with
  | zero =>
    have hid : h.instantiateN false 0 = id := rfl
    rw [hid, List.map_id]
    rfl
  | succ k =>
    rw [instantiateN, fill, fillArgs_eq_map]
    rfl

theorem Holes.instantiateN_pi (h : Holes) (k : Nat) (params : List (Param Term)) (result : Term) :
    h.instantiateN false k (.pi params result) =
      .pi (params.map fun p => { p with type := h.instantiateN false k p.type })
        (h.instantiateN false k result) := by
  cases k with
  | zero =>
    have hid : (fun p : Param Term => { p with type := h.instantiateN false 0 p.type }) = id := rfl
    rw [hid, List.map_id]
    rfl
  | succ k =>
    rw [instantiateN, fill, fillParams_eq_map]
    rfl

theorem lookup_zip_map (names : List String) (args : List Term) (g : Term → Term) (name : String) :
    (names.zip (args.map g)).reverse.lookup name =
      ((names.zip args).reverse.lookup name).map g := by
  have hzip : names.zip (args.map g) = (names.zip args).map fun entry => (entry.1, g entry.2) :=
    List.zip_map_right
  rw [hzip, ← List.map_reverse]
  induction (names.zip args).reverse with
  | nil => rfl
  | cons entry entries ih =>
    rw [List.map_cons, List.lookup_cons, List.lookup_cons, ih]
    split <;> rfl

/-- A declared function whose type on arguments is `Type l`: its result is a universe, or the
argument of one of its parameters is. -/
inductive LeadsTo (h : Holes) (sig : Signature) (args : List Term) (l : Level) : Prop
  | result {params : List (Param Term)} (htype : sig.type = .pi params (.sort (.level l)))
    (hlen : params.length = args.length)
  | argument {params : List (Param Term)} {name : String} {a : Term}
    (htype : sig.type = .pi params (.bound name)) (hlen : params.length = args.length)
    (hlookup : ((params.map (·.name)).zip args).reverse.lookup name = some a)
    (hread : h.expand a = .sort (.level l))

namespace LeadsTo

variable {h h' : Holes} {sig : Signature} {args : List Term} {l : Level}

theorem grows (hl : LeadsTo h sig args l)
    (hread : ∀ t u, h.expand t = .sort u → h'.expand t = .sort u) : LeadsTo h' sig args l := by
  cases hl with
  | result htype hlen => exact .result htype hlen
  | argument htype hlen hlookup ha => exact .argument htype hlen hlookup (hread _ _ ha)

/-- Only how the arguments are read counts. -/
theorem of_map {g : Term → Term} (hl : LeadsTo h sig (args.map g) l)
    (hg : ∀ a ∈ args, ∀ u, h.expand (g a) = .sort u → h.expand a = .sort u) :
    LeadsTo h sig args l := by
  cases hl with
  | result htype hlen => exact .result htype (by simpa using hlen)
  | argument htype hlen hlookup ha =>
    rw [lookup_zip_map, Option.map_eq_some_iff] at hlookup
    obtain ⟨a, hlookup, rfl⟩ := hlookup
    have hmem := List.mem_reverse.mp (mem_of_lookup hlookup)
    exact .argument htype (by simpa using hlen) hlookup (hg a (List.of_mem_zip hmem).2 _ ha)

theorem map {g : Term → Term} (hl : LeadsTo h sig args l)
    (hg : ∀ a u, h.expand a = .sort u → h.expand (g a) = .sort u) :
    LeadsTo h sig (args.map g) l := by
  cases hl with
  | result htype hlen => exact .result htype (by simpa using hlen)
  | argument htype hlen hlookup ha =>
    refine .argument htype (by simpa using hlen) ?_ (hg _ _ ha)
    rw [lookup_zip_map, hlookup, Option.map_some]

end LeadsTo

/-- A type that lives at a level of at most `n` if the levels have the values of `v`. It is read
through the table of holes and in a context; the names of `binder` may be bound by function types,
so that nothing is said of them. Nothing is said of equations either, whose level depends on the
type of a side. -/
inductive Lives (env : Declarations) (binder : String → Prop) (outer : Context) (v : Valuation)
    (h : Holes) : Term → Int → Prop
  | solved {i : HoleId} {t : Term} {n : Int} (hsol : h.solution? i = some t)
    (ht : Lives env binder outer v h t n) : Lives env binder outer v h (.hole i) n
  | unsolved {i : HoleId} {l : Level} {n : Int} (hopen : h.solution? i = none)
    (htype : h.expand (h.type i) = .sort (.level l)) (hle : l.value v ≤ n) :
    Lives env binder outer v h (.hole i) n
  | sort {l : Level} {n : Int} (hnonneg : 0 ≤ l.value v) (hlt : l.value v < n) :
    Lives env binder outer v h (.sort (.level l)) n
  | const {name : String} {sig : Signature} {l : Level} {n : Int}
    (hsig : env.signature? name = some sig) (hcs : v.Satisfies sig.constraints)
    (htype : sig.type = .sort (.level l)) (hle : l.value v ≤ n) :
    Lives env binder outer v h (.const name) n
  | app {name : String} {args : List Term} {sig : Signature} {l : Level} {n : Int}
    (hsig : env.signature? name = some sig) (hcs : v.Satisfies sig.constraints)
    (hresult : LeadsTo h sig args l) (hle : l.value v ≤ n) :
    Lives env binder outer v h (.app (.const name) args) n
  | lit {text : String} {l : Level} {n : Int} (hle : l.value v ≤ n) :
    Lives env binder outer v h (.lit text (.sort (.level l))) n
  | bound {name : String} {l : Level} {n : Int}
    (hlookup : outer.lookup? name = some (.sort (.level l))) (hle : l.value v ≤ n) :
    Lives env binder outer v h (.bound name) n
  | captured {name : String} {n : Int} (hname : binder name) :
    Lives env binder outer v h (.bound name) n
  | pi {params : List (Param Term)} {result : Term} {n : Int} (hn : 0 ≤ n)
    (hparams : ∀ p ∈ params, Lives env binder outer v h p.type n)
    (hresult : Lives env binder outer v h result n) :
    Lives env binder outer v h (.pi params result) n
  | eq {lhs rhs : Term} {n : Int} : Lives env binder outer v h (.eq lhs rhs) n

namespace Lives

variable {env : Declarations} {binder : String → Prop} {outer : Context} {v : Valuation}
  {h h' : Holes} {t : Term} {n m : Int}

theorem mono (ht : Lives env binder outer v h t n) (hnm : n ≤ m) :
    Lives env binder outer v h t m := by
  induction ht generalizing m with
  | solved hsol _ ih => exact .solved hsol (ih hnm)
  | unsolved hopen htype hle => exact .unsolved hopen htype (Int.le_trans hle hnm)
  | sort hnonneg hlt => exact .sort hnonneg (Int.lt_of_lt_of_le hlt hnm)
  | const hsig hcs htype hle => exact .const hsig hcs htype (Int.le_trans hle hnm)
  | app hsig hcs hresult hle => exact .app hsig hcs hresult (Int.le_trans hle hnm)
  | lit hle => exact .lit (Int.le_trans hle hnm)
  | bound hlookup hle => exact .bound hlookup (Int.le_trans hle hnm)
  | captured hname => exact .captured hname
  | pi hn _ _ ihparams ihresult =>
    exact .pi (Int.le_trans hn hnm) (fun p hp => ihparams p hp hnm) (ihresult hnm)
  | eq => exact .eq

/-- A term whose solved holes have been read lives where the term does. -/
theorem of_instantiateN {σ : Scope} {stage : Stage} (hσ : σ.firstOrder) (hh : h.Sound σ stage)
    (ht : t.Scoped σ stage) {k : Nat}
    (hlives : Lives env binder outer v h (h.instantiateN false k t) n) :
    Lives env binder outer v h t n := by
  induction k generalizing t n with
  | zero => exact hlives
  | succ k ihk =>
    induction ht with
    | missing | const | lit | bound | sort => exact hlives
    | @hole i hbase _ =>
      simp only [Holes.instantiateN, fill] at hlives
      cases hsol : h.solution? i with
      | none => simpa only [hsol] using hlives
      | some w =>
        simp only [hsol] at hlives
        exact .solved hsol (ihk (hh.solution i w hbase hsol) hlives)
    | app hhead _ hargs =>
      obtain ⟨name, rfl⟩ := hhead hσ
      rw [Holes.instantiateN_app] at hlives
      obtain - | - | - | - | ⟨hsig, hcs, hresult, hle⟩ := hlives
      refine .app hsig hcs (hresult.of_map fun a ha u hread => ?_) hle
      exact Holes.expand_eq_sort_of_instantiateN hh (hargs a ha) hread
    | pi _ _ _ _ ihparams ihresult =>
      rw [Holes.instantiateN_pi] at hlives
      obtain - | - | - | - | - | - | - | - | ⟨hn, hparams, hresult⟩ := hlives
      refine .pi hn (fun p hp => ihparams p hp ?_) (ihresult hresult)
      exact hparams _ (List.mem_map_of_mem hp)
    | eq => exact .eq
    | refl => cases hlives

/-- A term lives where its reading does. -/
theorem expand {σ : Scope} {stage : Stage} (hh : h.Sound σ stage) (ht : t.Scoped σ stage)
    (hlives : Lives env binder outer v h t n) : Lives env binder outer v h (h.expand t) n := by
  induction hlives with
  | @solved i u n hsol _ ih =>
    obtain - | - | - | - | ⟨hbase, _⟩ := ht
    rw [Holes.expand_hole (hh.grounded hbase) hsol]
    exact ih (hh.solution i u hbase hsol)
  | @unsolved i _ _ hopen htype hle =>
    have hread : h.expand (.hole i) = .hole i := by
      unfold Holes.expand
      cases h.size with
      | zero => rfl
      | succ k => simp only [Holes.instantiateN, fill, hopen]
    rw [hread]
    exact .unsolved hopen htype hle
  | sort hnonneg hlt =>
    rw [h.expand_sort]
    exact .sort hnonneg hlt
  | const hsig hcs htype hle =>
    rw [h.expand_of_holeFree (t := .const _) rfl]
    exact .const hsig hcs htype hle
  | app hsig hcs hresult hle =>
    rw [Holes.expand, Holes.instantiateN_app, show h.instantiateN false h.size (.const _) = .const _
      from Holes.expand_of_holeFree h rfl]
    refine .app hsig hcs (hresult.map fun a u ha => ?_) hle
    rw [show h.instantiateN false h.size a = .sort u from ha, h.expand_sort]
  | lit hle =>
    rw [h.expand_of_holeFree (t := .lit _ (.sort _)) rfl]
    exact .lit hle
  | bound hlookup hle =>
    rw [h.expand_of_holeFree (t := .bound _) rfl]
    exact .bound hlookup hle
  | captured hname =>
    rw [h.expand_of_holeFree (t := .bound _) rfl]
    exact .captured hname
  | pi hn _ _ ihparams ihresult =>
    obtain - | - | - | - | - | - | ⟨_, _, htypes, hresult⟩ := ht
    rw [Holes.expand, Holes.instantiateN_pi]
    refine .pi hn (fun q hq => ?_) (ihresult hresult)
    obtain ⟨p, hp, rfl⟩ := List.mem_map.mp hq
    exact ihparams p hp (htypes p hp)
  | @eq lhs rhs n =>
    unfold Holes.expand
    cases h.size with
    | zero => exact .eq
    | succ k => exact .eq

theorem add (ht : Lives env binder outer v h t n) (name : String) (number : Int) (type : Term) :
    Lives env binder outer v (h.add name number type) t n := by
  have hread : ∀ t u, h.expand t = .sort u → (h.add name number type).expand t = .sort u := by
    intro t u
    refine Holes.expand_eq_sort (fun i t hi => (h.solution?_add name number type i).trans hi) ?_
    rw [Holes.size_add]
    exact Nat.le_succ _
  induction ht with
  | solved hsol _ ih => exact .solved ((h.solution?_add name number type _).trans hsol) ih
  | @unsolved i l n hopen htype hle =>
    refine .unsolved ((h.solution?_add name number type i).trans hopen) (hread _ _ ?_) hle
    rw [Holes.type_add]
    split
    · -- A hole that has not been made has no type.
      rename_i hnew
      have hnone : h.table[i]? = none := Array.getElem?_eq_none (Nat.le_of_eq hnew.symm)
      rw [Holes.type, hnone] at htype
      exact absurd (htype.symm.trans (h.expand_of_holeFree (t := .missing) rfl)) (by simp)
    · exact htype
  | sort hnonneg hlt => exact .sort hnonneg hlt
  | const hsig hcs htype hle => exact .const hsig hcs htype hle
  | app hsig hcs hresult hle => exact .app hsig hcs (hresult.grows hread) hle
  | lit hle => exact .lit hle
  | bound hlookup hle => exact .bound hlookup hle
  | captured hname => exact .captured hname
  | pi hn _ _ ihparams ihresult => exact .pi hn ihparams ihresult
  | eq => exact .eq

/-- Solving an open hole keeps where a type lives, if the solution lives where the hole did. Only a
type with the hole behind it depends on that. -/
theorem solve {id : HoleId} {w : Term} (hopen : h.solution? id = none)
    (ht : Lives env binder outer v h t n)
    (hid : (∃ j, t.Shows j ∧ ReflTransGen h.Links j id) → ∀ l,
      h.expand (h.type id) = .sort (.level l) →
        Lives env binder outer v (h.solve id w) (.hole id) (l.value v)) :
    Lives env binder outer v (h.solve id w) t n := by
  have hkept : ∀ i, i ≠ id → (h.solve id w).solution? i = h.solution? i := by
    intro i hi
    rw [Holes.solve, Holes.solution?_setSolution, if_neg (Ne.symm hi)]
  have hsolved : ∀ i t, h.solution? i = some t → (h.solve id w).solution? i = some t := by
    intro i t hi
    rw [hkept i, hi]
    rintro rfl
    simp [hopen] at hi
  have hread : ∀ t u, h.expand t = .sort u → (h.solve id w).expand t = .sort u := fun t u =>
    Holes.expand_eq_sort hsolved (Nat.le_of_eq (h.size_setSolution id w.toOption).symm)
  induction ht with
  | @solved i u n hsol _ ih =>
    refine .solved (hsolved i u hsol) (ih ?_)
    rintro ⟨j, hj, hreach⟩
    exact hid ⟨i, shows_hole.mpr rfl, .head ⟨u, hsol, hj⟩ hreach⟩
  | @unsolved i l n hnone htype hle =>
    by_cases hi : i = id
    · subst hi
      exact (hid ⟨i, shows_hole.mpr rfl, .refl⟩ l htype).mono hle
    · refine .unsolved ((hkept i hi).trans hnone) (hread _ _ ?_) hle
      rw [Holes.solve, Holes.type_setSolution]
      exact htype
  | sort hnonneg hlt => exact .sort hnonneg hlt
  | const hsig hcs htype hle => exact .const hsig hcs htype hle
  | app hsig hcs hresult hle => exact .app hsig hcs (hresult.grows hread) hle
  | lit hle => exact .lit hle
  | bound hlookup hle => exact .bound hlookup hle
  | captured hname => exact .captured hname
  | pi hn _ _ ihparams ihresult =>
    refine .pi hn (fun p hp => ihparams p hp ?_) (ihresult ?_)
    · rintro ⟨j, hj, hreach⟩
      exact hid ⟨j, shows_pi.mpr (.inl ⟨p, hp, hj⟩), hreach⟩
    · rintro ⟨j, hj, hreach⟩
      exact hid ⟨j, shows_pi.mpr (.inr hj), hreach⟩
  | eq => exact .eq

end Lives

end Implicits
