import Implicits.Proofs.Term.Holes
import Implicits.Solver.Normalize

/-!
Which holes and level variables a term may contain. A scoped term keeps its holes at the places that
solutions are read from: its literals and the tactics of its parameters have none. Its holes and the
level variables of its unit have been made before. Instantiation, substitution and normalization all
keep a term scoped.
-/
namespace Implicits

namespace Term

mutual

def holes : Term → List HoleId
  | missing | const _ | bound _ | sort _ => []
  | lit _ type => type.holes
  | hole id => [id]
  | app fn args => fn.holes ++ holesArgs args
  | pi params result => holesParams params ++ result.holes
  | eq lhs rhs => lhs.holes ++ rhs.holes
  | refl value => value.holes

def holesArgs : List Term → List HoleId
  | [] => []
  | t :: ts => t.holes ++ holesArgs ts

def holesParams : List (Param Term) → List HoleId
  | [] => []
  | ⟨_, type, _, fallback⟩ :: ps => type.holes ++ holesFallback fallback ++ holesParams ps

def holesFallback : Option (Tactic Term) → List HoleId
  | none => []
  | some .trivial => []
  | some (.exact value) => value.holes

end

def HoleFree (t : Term) : Prop := t.holes = []

instance (t : Term) : Decidable t.HoleFree := inferInstanceAs (Decidable (t.holes = []))

theorem mem_holesArgs {i : HoleId} {args : List Term} :
    i ∈ holesArgs args ↔ ∃ a ∈ args, i ∈ a.holes := by
  induction args with
  | nil => simp [holesArgs]
  | cons a args ih => simp [holesArgs, ih]

theorem mem_holesParams {i : HoleId} {params : List (Param Term)} :
    i ∈ holesParams params ↔
      ∃ p ∈ params, i ∈ p.type.holes ∨ i ∈ holesFallback p.fallback := by
  induction params with
  | nil => simp [holesParams]
  | cons p params ih => simp [holesParams, ih, or_assoc]

theorem holeFree_args {args : List Term} :
    holesArgs args = [] ↔ ∀ a ∈ args, a.HoleFree := by
  induction args with
  | nil => simp [holesArgs]
  | cons a args ih => simp [holesArgs, HoleFree, ih]

theorem holeFree_params {params : List (Param Term)} :
    holesParams params = [] ↔
      ∀ p ∈ params, p.type.HoleFree ∧ holesFallback p.fallback = [] := by
  induction params with
  | nil => simp [holesParams]
  | cons p params ih => simp [holesParams, HoleFree, ih, and_assoc]

mutual

/-- The level variables of a term, those in the tactics of its parameters apart. -/
def levels : Term → List LevelVar
  | missing | const _ | bound _ | hole _ => []
  | lit _ type => type.levels
  | app fn args => fn.levels ++ levelsArgs args
  | pi params result => levelsParams params ++ result.levels
  | sort (.level (.var v)) => [v]
  | sort _ => []
  | eq lhs rhs => lhs.levels ++ rhs.levels
  | refl value => value.levels

def levelsArgs : List Term → List LevelVar
  | [] => []
  | t :: ts => t.levels ++ levelsArgs ts

def levelsParams : List (Param Term) → List LevelVar
  | [] => []
  | ⟨_, type, _, _⟩ :: ps => type.levels ++ levelsParams ps

end

theorem mem_levelsArgs {v : LevelVar} {args : List Term} :
    v ∈ levelsArgs args ↔ ∃ a ∈ args, v ∈ a.levels := by
  induction args with
  | nil => simp [levelsArgs]
  | cons a args ih => simp [levelsArgs, ih]

theorem mem_levelsParams {v : LevelVar} {params : List (Param Term)} :
    v ∈ levelsParams params ↔ ∃ p ∈ params, v ∈ p.type.levels := by
  induction params with
  | nil => simp [levelsParams]
  | cons p params ih => simp [levelsParams, ih]

theorem fill_of_holeFree {deep : Bool} {f : HoleId → Term} {t : Term} (ht : t.HoleFree) :
    t.fill deep f = t := by
  induction t using induct with
  | missing | const | bound | sort => rfl
  | lit text type ih =>
    simp only [HoleFree, holes] at ht
    cases deep with
    | false => rfl
    | true => simp only [fill, if_true, ih ht]
  | hole id => simp [HoleFree, holes] at ht
  | app fn args ihf ihargs =>
    simp only [HoleFree, holes, List.append_eq_nil_iff, holeFree_args] at ht
    rw [fill, ihf ht.1, fillArgs_eq_map, List.map_congr_left fun a ha => ihargs a ha (ht.2 a ha),
      List.map_id']
  | pi params result ihparams ihr =>
    simp only [HoleFree, holes, List.append_eq_nil_iff, holeFree_params] at ht
    have hparams : ∀ p ∈ params, ({ p with type := p.type.fill deep f } : Param Term) = p := by
      intro p hp
      rw [ihparams p hp (ht.1 p hp).1]
    rw [fill, ihr ht.2, fillParams_eq_map, List.map_congr_left hparams, List.map_id']
  | eq lhs rhs ihl ihr =>
    simp only [HoleFree, holes, List.append_eq_nil_iff] at ht
    rw [fill, ihl ht.1, ihr ht.2]
  | refl value ih =>
    rw [fill, ih ht]

end Term

/-- How much a unit has made: holes, level variables from its supply, and the constraints it has
seen. -/
structure Stage where
  holes : Nat
  levels : Nat
  seen : List Constraint

namespace Stage

instance : LE Stage :=
  ⟨fun n m => n.holes ≤ m.holes ∧ n.levels ≤ m.levels ∧ n.seen ⊆ m.seen⟩

theorem le_refl (n : Stage) : n ≤ n := ⟨Nat.le_refl _, Nat.le_refl _, List.Subset.refl _⟩

theorem le_trans {n m k : Stage} (h : n ≤ m) (h' : m ≤ k) : n ≤ k :=
  ⟨Nat.le_trans h.1 h'.1, Nat.le_trans h.2.1 h'.2.1, List.Subset.trans h.2.2 h'.2.2⟩

end Stage

def Constraint.SeenAt (c : Constraint) (n : Stage) : Prop := c.isTrivial = true ∨ c ∈ n.seen

theorem Constraint.SeenAt.mono {c : Constraint} {n m : Stage} (h : c.SeenAt n) (hnm : n ≤ m) :
    c.SeenAt m := h.imp_right fun hmem => hnm.2.2 hmem

/-- Conditions on the terms of a development: holes from `base` on, names that function types may
bind, whether literals and tactics are free of holes, and whether only constants are applied. Level
variables that the unit owns come from its supply, others occur only after the constraints that they
require, the constraints of known signatures come with their import, and the store may be asked to
list what it has seen. -/
structure Scope where
  base : Nat
  binder : String → Prop := fun _ => True
  isSealed : Prop := True
  firstOrder : Prop := False
  owns : LevelVar → Prop := fun _ => False
  requires : LevelVar → Constraint → Prop := fun _ _ => False
  known : Signature → Prop := fun _ => False
  tracksStore : Prop := False

/-- A variable that may occur at a stage: if the unit owns it, it has been made, and what it
requires has been seen. -/
structure LevelVar.Made (σ : Scope) (n : Stage) (v : LevelVar) : Prop where
  supplied : σ.owns v → v.id < n.levels
  complete : ∀ c, σ.requires v c → c.SeenAt n

def Level.Made (σ : Scope) (n : Stage) : Level → Prop
  | .const _ => True
  | .var v => v.Made σ n

theorem Level.Made.mono {σ : Scope} {n m : Stage} {l : Level} (h : l.Made σ n) (hnm : n ≤ m) :
    l.Made σ m := by
  cases l with
  | const => trivial
  | var v =>
    refine ⟨fun hv => ?_, fun c hc => (h.complete c hc).mono hnm⟩
    have hlt := h.supplied hv
    have hle := hnm.2.1
    omega

namespace Term

inductive Scoped (σ : Scope) (n : Stage) : Term → Prop
  | missing : Scoped σ n .missing
  | const {name : String} : Scoped σ n (.const name)
  | lit {text : String} {type : Term} (hsealed : σ.isSealed → type.HoleFree)
    (htype : Scoped σ n type) : Scoped σ n (.lit text type)
  | bound {name : String} : Scoped σ n (.bound name)
  | hole {id : HoleId} (hbase : σ.base ≤ id) (hmade : id < n.holes) : Scoped σ n (.hole id)
  | app {fn : Term} {args : List Term} (hhead : σ.firstOrder → ∃ name, fn = .const name)
    (hfn : Scoped σ n fn) (hargs : ∀ a ∈ args, Scoped σ n a) : Scoped σ n (.app fn args)
  | pi {params : List (Param Term)} {result : Term} (hnames : ∀ p ∈ params, σ.binder p.name)
    (hsealed : σ.isSealed → ∀ p ∈ params, holesFallback p.fallback = [])
    (htypes : ∀ p ∈ params, Scoped σ n p.type) (hresult : Scoped σ n result) :
    Scoped σ n (.pi params result)
  | sort {u : Universe} (hlevel : ∀ l, u = .level l → l.Made σ n) : Scoped σ n (.sort u)
  | eq {lhs rhs : Term} (hlhs : Scoped σ n lhs) (hrhs : Scoped σ n rhs) : Scoped σ n (.eq lhs rhs)
  | refl {value : Term} (hvalue : Scoped σ n value) : Scoped σ n (.refl value)

section Scoped

variable {σ : Scope} {n m : Stage} {t : Term}

theorem scoped_universe {l : Level} : (Term.sort (.level l)).Scoped σ n ↔ l.Made σ n := by
  constructor
  · rintro ⟨⟩
    rename_i hlevel
    exact hlevel l rfl
  · intro hl
    refine .sort fun m hm => ?_
    rwa [← Universe.level.inj hm]

/-- A term without holes lies in every scope that restricts neither names nor heads and allows its
levels. -/
theorem HoleFree.scoped (ht : t.HoleFree) (hbinder : ∀ name, σ.binder name)
    (hfirst : ¬ σ.firstOrder) (hlevels : ∀ v ∈ t.levels, v.Made σ n) : t.Scoped σ n := by
  induction t using induct with
  | missing => exact .missing
  | const => exact .const
  | bound => exact .bound
  | sort u =>
    refine .sort fun l hl => ?_
    cases l with
    | const => trivial
    | var v => exact hlevels v (by simp [hl, levels])
  | lit text type ih => exact .lit (fun _ => ht) (ih ht hlevels)
  | hole id => simp [HoleFree, holes] at ht
  | app fn args ihf ihargs =>
    simp only [HoleFree, holes, List.append_eq_nil_iff, holeFree_args] at ht
    simp only [levels, List.forall_mem_append, mem_levelsArgs] at hlevels
    exact .app (fun hσ => absurd hσ hfirst) (ihf ht.1 hlevels.1) fun a ha =>
      ihargs a ha (ht.2 a ha) fun v hv => hlevels.2 v ⟨a, ha, hv⟩
  | pi params result ihparams ihr =>
    simp only [HoleFree, holes, List.append_eq_nil_iff, holeFree_params] at ht
    simp only [levels, List.forall_mem_append, mem_levelsParams] at hlevels
    exact .pi (fun p _ => hbinder p.name) (fun _ p hp => (ht.1 p hp).2)
      (fun p hp => ihparams p hp (ht.1 p hp).1 fun v hv => hlevels.1 v ⟨p, hp, hv⟩)
      (ihr ht.2 hlevels.2)
  | eq lhs rhs ihl ihr =>
    simp only [HoleFree, holes, List.append_eq_nil_iff] at ht
    simp only [levels, List.forall_mem_append] at hlevels
    exact .eq (ihl ht.1 hlevels.1) (ihr ht.2 hlevels.2)
  | refl value ih => exact .refl (ih ht hlevels)

/-- The level variables of a term in scope may occur. -/
theorem Scoped.made_of_mem_levels (ht : t.Scoped σ n) {v : LevelVar} (hv : v ∈ t.levels) :
    v.Made σ n := by
  induction ht with
  | missing | const | bound | hole => simp [levels] at hv
  | lit _ _ ih => exact ih hv
  | app _ _ _ ihf ihargs =>
    simp only [levels, List.mem_append, mem_levelsArgs] at hv
    rcases hv with hv | ⟨a, ha, hv⟩
    · exact ihf hv
    · exact ihargs a ha hv
  | pi _ _ _ _ ihtypes ihr =>
    simp only [levels, List.mem_append, mem_levelsParams] at hv
    rcases hv with ⟨p, hp, hv⟩ | hv
    · exact ihtypes p hp hv
    · exact ihr hv
  | @sort u hlevel =>
    cases u with
    | unassigned k => simp [levels] at hv
    | level l =>
      cases l with
      | const => simp [levels] at hv
      | var w =>
        obtain rfl : v = w := by simpa [levels] using hv
        exact hlevel _ rfl
  | eq _ _ ihl ihr =>
    simp only [levels, List.mem_append] at hv
    exact hv.elim ihl ihr
  | refl _ ih => exact ih hv

theorem Scoped.mono (ht : t.Scoped σ n) (hnm : n ≤ m) : t.Scoped σ m := by
  induction ht with
  | missing => exact .missing
  | const => exact .const
  | lit hsealed _ ih => exact .lit hsealed ih
  | bound => exact .bound
  | hole hbase hmade => exact .hole hbase (Nat.lt_of_lt_of_le hmade hnm.1)
  | app hhead _ _ ihf ihargs => exact .app hhead ihf ihargs
  | pi hnames hsealed _ _ ihtypes ihr => exact .pi hnames hsealed ihtypes ihr
  | sort hlevel => exact .sort fun l hl => (hlevel l hl).mono hnm
  | eq _ _ ihl ihr => exact .eq ihl ihr
  | refl _ ih => exact .refl ih

theorem Scoped.hole_of_shows (ht : t.Scoped σ n) {i : HoleId} (hi : t.Shows i) :
    (Term.hole i).Scoped σ n := by
  induction ht with
  | missing | const | lit | bound | sort => simp at hi
  | hole hbase hmade => exact shows_hole.mp hi ▸ .hole hbase hmade
  | app _ _ _ ihf ihargs =>
    rcases shows_app.mp hi with hi | ⟨a, ha, hi⟩
    · exact ihf hi
    · exact ihargs a ha hi
  | pi _ _ _ _ ihtypes ihr =>
    rcases shows_pi.mp hi with ⟨p, hp, hi⟩ | hi
    · exact ihtypes p hp hi
    · exact ihr hi
  | eq _ _ ihl ihr => exact (shows_eq.mp hi).elim ihl ihr
  | refl _ ih => exact ih (shows_refl.mp hi)

/-- In a sealed scope all holes are shown. -/
theorem Scoped.shows_of_mem_holes (ht : t.Scoped σ n) (hσ : σ.isSealed) {i : HoleId}
    (hi : i ∈ t.holes) : t.Shows i := by
  induction ht with
  | missing | const | bound | sort => simp [holes] at hi
  | lit hsealed =>
    rw [holes, show _ = [] from hsealed hσ] at hi
    simp at hi
  | hole => simpa [holes, eq_comm] using hi
  | app _ _ _ ihf ihargs =>
    simp only [holes, List.mem_append, mem_holesArgs] at hi
    rcases hi with hi | ⟨a, ha, hi⟩
    · exact shows_app.mpr (.inl (ihf hi))
    · exact shows_app.mpr (.inr ⟨a, ha, ihargs a ha hi⟩)
  | pi _ hsealed _ _ ihtypes ihr =>
    simp only [holes, List.mem_append, mem_holesParams] at hi
    rcases hi with ⟨p, hp, hi | hi⟩ | hi
    · exact shows_pi.mpr (.inl ⟨p, hp, ihtypes p hp hi⟩)
    · simp [hsealed hσ p hp] at hi
    · exact shows_pi.mpr (.inr (ihr hi))
  | eq _ _ ihl ihr =>
    simp only [holes, List.mem_append] at hi
    exact shows_eq.mpr (hi.imp ihl ihr)
  | refl _ ih => exact shows_refl.mpr (ih hi)

/-- Where no hole of the scope has been made, there is none. -/
theorem Scoped.holeFree (ht : t.Scoped σ n) (hσ : σ.isSealed) (hnone : n.holes ≤ σ.base) :
    t.HoleFree := by
  rw [HoleFree, List.eq_nil_iff_forall_not_mem]
  intro i hi
  cases ht.hole_of_shows (ht.shows_of_mem_holes hσ hi) with
  | hole hbase hmade => exact absurd hmade (Nat.not_lt.mpr (Nat.le_trans hnone hbase))

theorem Scoped.fill {deep : Bool} {f : HoleId → Term} (ht : t.Scoped σ n)
    (hf : ∀ i, (Term.hole i).Scoped σ n → (f i).Scoped σ n) : (t.fill deep f).Scoped σ n := by
  induction ht with
  | missing => exact .missing
  | const => exact .const
  | lit hsealed htype ih =>
    cases deep with
    | false => exact .lit hsealed htype
    | true =>
      refine .lit (fun hσ => ?_) ih
      rw [if_pos rfl, fill_of_holeFree (hsealed hσ)]
      exact hsealed hσ
  | bound => exact .bound
  | hole hbase hmade => exact hf _ (.hole hbase hmade)
  | app hhead _ _ ihf ihargs =>
    rw [Term.fill, fillArgs_eq_map]
    refine .app (fun hσ => ?_) ihf fun b hb => ?_
    · obtain ⟨name, rfl⟩ := hhead hσ
      exact ⟨name, rfl⟩
    · obtain ⟨a, ha, rfl⟩ := List.mem_map.mp hb
      exact ihargs a ha
  | pi hnames hsealed _ _ ihtypes ihr =>
    rw [Term.fill, fillParams_eq_map]
    refine .pi (fun q hq => ?_) (fun hσ q hq => ?_) (fun q hq => ?_) ihr
    all_goals obtain ⟨p, hp, rfl⟩ := List.mem_map.mp hq
    · exact hnames p hp
    · exact hsealed hσ p hp
    · exact ihtypes p hp
  | sort hlevel => exact .sort hlevel
  | eq _ _ ihl ihr => exact .eq ihl ihr
  | refl _ ih => exact .refl ih

/-- In a sealed scope the types of literals have nothing to fill. -/
theorem Scoped.fill_deep {f : HoleId → Term} (ht : t.Scoped σ n) (hσ : σ.isSealed) :
    t.fill true f = t.fill false f := by
  induction ht with
  | missing | const | bound | sort | hole => rfl
  | lit hsealed => simp only [Term.fill, if_true, fill_of_holeFree (hsealed hσ)]; rfl
  | app _ _ _ ihf ihargs =>
    simp only [Term.fill, fillArgs_eq_map, ihf, List.map_congr_left ihargs]
  | @pi params _ _ _ _ _ ihtypes ihr =>
    have hparams : ∀ p ∈ params, ({ p with type := p.type.fill true f } : Param Term) =
        { p with type := p.type.fill false f } := by
      intro p hp
      rw [ihtypes p hp]
    simp only [Term.fill, fillParams_eq_map, ihr, List.map_congr_left hparams]
  | eq _ _ ihl ihr => rw [Term.fill, Term.fill, ihl, ihr]
  | refl _ ih => rw [Term.fill, Term.fill, ih]

end Scoped

theorem substArgs_eq_map (sub : Substitution) (args : List Term) :
    substArgs sub args = args.map (subst sub) := by
  induction args with
  | nil => rfl
  | cons a args ih => rw [substArgs, ih, List.map_cons]

theorem mem_of_lookup {α : Type} {sub : List (String × α)} {name : String} {u : α}
    (hu : sub.lookup name = some u) : (name, u) ∈ sub := by
  induction sub with
  | nil => simp at hu
  | cons entry sub ih =>
    obtain ⟨n, v⟩ := entry
    rw [List.lookup_cons] at hu
    split at hu
    · rename_i hname
      rw [beq_iff_eq] at hname
      simp [hname, Option.some.inj hu]
    · exact List.mem_cons_of_mem _ (ih hu)

theorem without_subset (sub : Substitution) (name : String) : sub.without name ⊆ sub :=
  List.filter_subset_self sub

theorem behind_subset (sub : Substitution) (params : List (Param Term)) :
    sub.behind params ⊆ sub := by
  induction params generalizing sub with
  | nil => exact List.Subset.refl sub
  | cons r params ih =>
    exact List.Subset.trans (ih (sub.without r.name)) (without_subset sub r.name)

/-- A parameter behind a substitution keeps everything but its type, which loses the hidden names.
-/
theorem mem_substParams {sub : Substitution} {params : List (Param Term)} {s : Param Term}
    (hs : s ∈ substParams sub params) :
    ∃ r ∈ params, ∃ sub', sub' ⊆ sub ∧ s = { r with type := r.type.subst sub' } := by
  induction params generalizing sub with
  | nil => simp [substParams] at hs
  | cons r params ih =>
    rw [substParams, List.mem_cons] at hs
    rcases hs with rfl | hs
    · exact ⟨r, by simp, sub, List.Subset.refl sub, rfl⟩
    · obtain ⟨r', hr', sub', hsub, rfl⟩ := ih hs
      exact ⟨r', by simp [hr'], sub', List.Subset.trans hsub (without_subset sub r.name), rfl⟩

theorem Scoped.subst {σ : Scope} {n : Stage} {t : Term} {sub : Substitution} (ht : t.Scoped σ n)
    (hsub : ∀ entry ∈ sub, entry.2.Scoped σ n) : (t.subst sub).Scoped σ n := by
  induction ht generalizing sub with
  | missing => exact .missing
  | const => exact .const
  | lit hsealed htype => exact .lit hsealed htype
  | @bound name =>
    rw [Term.subst]
    cases hu : sub.lookup name with
    | none => exact .bound
    | some u => exact hsub (name, u) (mem_of_lookup hu)
  | hole hbase hmade => exact .hole hbase hmade
  | app hhead _ _ ihf ihargs =>
    rw [Term.subst, substArgs_eq_map]
    refine .app (fun hσ => ?_) (ihf hsub) fun b hb => ?_
    · obtain ⟨name, rfl⟩ := hhead hσ
      exact ⟨name, rfl⟩
    · obtain ⟨a, ha, rfl⟩ := List.mem_map.mp hb
      exact ihargs a ha hsub
  | pi hnames hsealed _ _ ihtypes ihr =>
    rw [Term.subst]
    refine .pi (fun q hq => ?_) (fun hσ q hq => ?_) (fun q hq => ?_)
      (ihr fun entry hentry => hsub entry (behind_subset sub _ hentry))
    all_goals obtain ⟨p, hp, sub', hsub', rfl⟩ := mem_substParams hq
    · exact hnames p hp
    · exact hsealed hσ p hp
    · exact ihtypes p hp fun entry hentry => hsub entry (hsub' hentry)
  | sort hlevel => exact .sort hlevel
  | eq _ _ ihl ihr => exact .eq (ihl hsub) (ihr hsub)
  | refl _ ih => exact .refl (ih hsub)

section Normalize

variable {fire : String → List Term → Nat → Option (Term × Nat)}

theorem mem_normalizeArgs {args : List Term} {left : Nat} {b : Term}
    (hb : b ∈ (normalizeArgs fire args left).1) :
    ∃ a ∈ args, ∃ left', b = (a.normalizeWith fire left').1 := by
  induction args generalizing left with
  | nil => simp [normalizeArgs] at hb
  | cons a args ih =>
    simp only [normalizeArgs, List.mem_cons] at hb
    rcases hb with rfl | hb
    · exact ⟨a, by simp, left, rfl⟩
    · obtain ⟨a', ha', left', rfl⟩ := ih hb
      exact ⟨a', by simp [ha'], left', rfl⟩

theorem mem_normalizeParams {params : List (Param Term)} {left : Nat} {s : Param Term}
    (hs : s ∈ (normalizeParams fire params left).1) :
    ∃ r ∈ params, ∃ left', s = { r with type := (r.type.normalizeWith fire left').1 } := by
  induction params generalizing left with
  | nil => simp [normalizeParams] at hs
  | cons r params ih =>
    simp only [normalizeParams, List.mem_cons] at hs
    rcases hs with rfl | hs
    · exact ⟨r, by simp, left, rfl⟩
    · obtain ⟨r', hr', left', rfl⟩ := ih hs
      exact ⟨r', by simp [hr'], left', rfl⟩

theorem Scoped.normalizeWith {σ : Scope} {n : Stage} {t : Term} (ht : t.Scoped σ n)
    (hfire : ∀ name args left out, (∀ a ∈ args, Scoped σ n a) → fire name args left = some out →
      out.1.Scoped σ n)
    (hconst : σ.firstOrder → ∀ name left, fire name [] left = none) (left : Nat) :
    (t.normalizeWith fire left).1.Scoped σ n := by
  -- A constant that does not reduce stays as it is.
  have hreduce : ∀ name args left (keep : Term × Nat), (∀ a ∈ args, Scoped σ n a) →
      keep.1.Scoped σ n → ((fire name args left).getD keep).1.Scoped σ n := by
    intro name args left keep hargs hkeep
    cases hout : fire name args left with
    | none => exact hkeep
    | some out => exact hfire name args left out hargs hout
  induction ht generalizing left with
  | missing => exact .missing
  | const => exact hreduce _ _ _ _ (by simp) .const
  | lit hsealed htype => exact .lit hsealed htype
  | bound => exact .bound
  | hole hbase hmade => exact .hole hbase hmade
  | @app fn args hhead _ _ ihf ihargs =>
    simp only [Term.normalizeWith]
    have hfn := ihf left
    have hhead' : σ.firstOrder → ∃ name, (fn.normalizeWith fire left).1 = .const name := by
      intro hσ
      obtain ⟨name, rfl⟩ := hhead hσ
      exact ⟨name, by simp [Term.normalizeWith, hconst hσ]⟩
    generalize fn.normalizeWith fire left = nf at hfn hhead' ⊢
    have hargs : ∀ b ∈ (normalizeArgs fire args nf.2).1, Scoped σ n b := by
      intro b hb
      obtain ⟨a, ha, left', rfl⟩ := mem_normalizeArgs hb
      exact ihargs a ha left'
    split
    · exact hreduce _ _ _ _ hargs (.app hhead' hfn hargs)
    · exact .app hhead' hfn hargs
  | pi hnames hsealed _ _ ihtypes ihr =>
    simp only [Term.normalizeWith]
    refine .pi (fun q hq => ?_) (fun hσ q hq => ?_) (fun q hq => ?_) (ihr _)
    all_goals obtain ⟨p, hp, left', rfl⟩ := mem_normalizeParams hq
    · exact hnames p hp
    · exact hsealed hσ p hp
    · exact ihtypes p hp left'
  | sort hlevel => exact .sort hlevel
  | eq _ _ ihl ihr => exact .eq (ihl _) (ihr _)
  | refl _ ih => exact .refl (ih _)

section Congr

variable {fire' : String → List Term → Nat → Option (Term × Nat)}

theorem normalizeArgs_congr {args : List Term}
    (hargs : ∀ a ∈ args, ∀ left, a.normalizeWith fire left = a.normalizeWith fire' left)
    (left : Nat) :
    normalizeArgs fire args left = normalizeArgs fire' args left := by
  induction args generalizing left with
  | nil => rfl
  | cons a args ih =>
    simp only [normalizeArgs]
    rw [hargs a (by simp), ih fun b hb => hargs b (by simp [hb])]

theorem normalizeParams_congr {params : List (Param Term)}
    (hparams : ∀ p ∈ params, ∀ left,
      p.type.normalizeWith fire left = p.type.normalizeWith fire' left)
    (left : Nat) : normalizeParams fire params left = normalizeParams fire' params left := by
  induction params generalizing left with
  | nil => rfl
  | cons p params ih =>
    simp only [normalizeParams]
    rw [hparams p (by simp), ih fun q hq => hparams q (by simp [hq])]

end Congr

/-- Normalization depends on reductions of terms within the scope only. -/
theorem Scoped.normalizeWith_congr {fire' : String → List Term → Nat → Option (Term × Nat)}
    {σ : Scope} {n : Stage} {t : Term} (ht : t.Scoped σ n)
    (hfire : ∀ name args left out, (∀ a ∈ args, Scoped σ n a) → fire name args left = some out →
      out.1.Scoped σ n)
    (hconst : σ.firstOrder → ∀ name left, fire name [] left = none)
    (heq : ∀ name args left, (∀ a ∈ args, Scoped σ n a) →
      fire name args left = fire' name args left) (left : Nat) :
    t.normalizeWith fire left = t.normalizeWith fire' left := by
  induction ht generalizing left with
  | missing | lit | bound | hole | sort => rfl
  | const => rw [Term.normalizeWith, Term.normalizeWith, heq _ _ _ (by simp)]
  | @app fn args _ _ hargs ihf ihargs =>
    have hlist := normalizeArgs_congr ihargs
    have hnormal : ∀ b ∈ (normalizeArgs fire' args (fn.normalizeWith fire' left).2).1,
        Scoped σ n b := by
      intro b hb
      rw [← hlist] at hb
      obtain ⟨a, ha, left', rfl⟩ := mem_normalizeArgs hb
      exact (hargs a ha).normalizeWith hfire hconst left'
    simp only [Term.normalizeWith]
    rw [ihf left, hlist]
    split
    · rw [heq _ _ _ hnormal]
    · rfl
  | pi _ _ _ _ ihtypes ihr =>
    simp only [Term.normalizeWith]
    rw [normalizeParams_congr ihtypes, ihr]
  | eq _ _ ihl ihr =>
    simp only [Term.normalizeWith]
    rw [ihl, ihr]
  | refl _ ih =>
    simp only [Term.normalizeWith]
    rw [ih]

end Normalize

end Term

end Implicits
