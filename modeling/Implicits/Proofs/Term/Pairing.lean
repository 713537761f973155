import Mathlib.Data.List.Forall2
import Implicits.Proofs.HoleFree
import Implicits.Proofs.Term.Subst

/-!
Terms of two runs side by side. A pairing says how many holes each run has found when it began, so
that the holes made since go together in the order of their making, and which level variables go
together. `Paired` terms differ in nothing else. Filling, substitution, matching and normalization
do not look at the numbers of holes and level variables, and respect the relation.
-/
namespace Implicits

/-- Parameters that agree in everything but the type. Their tactics have no holes. -/
structure Param.SameShape (p q : Param Term) : Prop where
  name : q.name = p.name
  plicity : q.plicity = p.plicity
  fallback : q.fallback = p.fallback
  free : Term.holesFallback p.fallback = []

theorem Param.SameShape.eq_of_type {p q : Param Term} (h : p.SameShape q)
    (htype : p.type = q.type) :
    p = q := by
  obtain ⟨name, type, plicity, fallback⟩ := p
  obtain ⟨rfl, rfl, rfl, -⟩ := h
  exact congrArg (Param.mk _ · _ _) htype

theorem forall₂_of_zip {α β : Type} {R : α → β → Prop} {xs : List α} {ys : List β}
    (hlength : xs.length = ys.length) (h : ∀ e ∈ xs.zip ys, R e.1 e.2) : List.Forall₂ R xs ys :=
  List.forall₂_iff_zip.mpr ⟨hlength, fun he => h _ he⟩

theorem forall_zip_of_forall₂ {α β : Type} {R : α → β → Prop} {xs : List α} {ys : List β}
    (h : List.Forall₂ R xs ys) : ∀ e ∈ xs.zip ys, R e.1 e.2 :=
  fun _ he => (List.forall₂_iff_zip.mp h).2 he

theorem exists_of_forall₂ {α β : Type} {R : α → β → Prop} {xs : List α} {ys : List β}
    (h : List.Forall₂ R xs ys) {x : α} (hx : x ∈ xs) : ∃ y ∈ ys, R x y := by
  induction h with
  | nil => simp at hx
  | cons hxy _ ih =>
    rcases List.mem_cons.mp hx with rfl | hx
    · exact ⟨_, by simp, hxy⟩
    · obtain ⟨y, hy, hxy⟩ := ih hx
      exact ⟨y, by simp [hy], hxy⟩

theorem isEmpty_of_forall₂ {α β : Type} {R : α → β → Prop} {xs : List α} {ys : List β}
    (h : List.Forall₂ R xs ys) : ys.isEmpty = xs.isEmpty := by
  cases h with
  | nil => rfl
  | cons => rfl

/-- Two runs: the holes that each of them has found, and the level variables that go together. Those
that are known to both runs go together with themselves. -/
structure Pairing where
  left : Holes
  right : Holes
  level : LevelVar → LevelVar → Prop
  known : LevelVar → Prop
  level_refl : ∀ v, known v → level v v

def Pairing.hole (ρ : Pairing) (i j : Nat) : Prop :=
  ρ.left.size ≤ i ∧ i + ρ.right.size = j + ρ.left.size

def Pairing.swap (ρ : Pairing) : Pairing where
  left := ρ.right
  right := ρ.left
  level v w := ρ.level w v
  known := ρ.known
  level_refl := ρ.level_refl

/-- A run that goes on after a table of holes, beside one that begins without holes. -/
def Pairing.after (past : Holes) : Pairing where
  left := {}
  right := past
  level v w := v = w
  known _ := True
  level_refl _ _ := rfl

inductive Level.Paired (ρ : Pairing) : Level → Level → Prop
  | const {k : Int64} : Paired ρ (.const k) (.const k)
  | var {v w : LevelVar} (h : ρ.level v w) : Paired ρ (.var v) (.var w)

inductive Universe.Paired (ρ : Pairing) : Universe → Universe → Prop
  | unassigned {n : Nat} : Paired ρ (.unassigned n) (.unassigned n)
  | level {l m : Level} (h : l.Paired ρ m) : Paired ρ (.level l) (.level m)

/-- Terms that are the same up to the holes and level variables that go together. The types of
literals are known, and the tactics of parameters hide no hole. -/
inductive Term.Paired (ρ : Pairing) : Term → Term → Prop
  | missing : Paired ρ .missing .missing
  | const {name : String} : Paired ρ (.const name) (.const name)
  | lit {text : String} {type : Term} (hclosed : type.ClosedOver ρ.known) :
    Paired ρ (.lit text type) (.lit text type)
  | bound {name : String} : Paired ρ (.bound name) (.bound name)
  | hole {i j : HoleId} (h : ρ.hole i j) : Paired ρ (.hole i) (.hole j)
  | app {f g : Term} {xs ys : List Term} (hfn : Paired ρ f g) (hlength : xs.length = ys.length)
    (hargs : ∀ e ∈ xs.zip ys, Paired ρ e.1 e.2) : Paired ρ (.app f xs) (.app g ys)
  | pi {ps qs : List (Param Term)} {r s : Term} (hlength : ps.length = qs.length)
    (hshape : ∀ e ∈ ps.zip qs, e.1.SameShape e.2)
    (htypes : ∀ e ∈ ps.zip qs, Paired ρ e.1.type e.2.type) (hresult : Paired ρ r s) :
    Paired ρ (.pi ps r) (.pi qs s)
  | sort {u v : Universe} (h : u.Paired ρ v) : Paired ρ (.sort u) (.sort v)
  | eq {a b l r : Term} (hlhs : Paired ρ a b) (hrhs : Paired ρ l r) : Paired ρ (.eq a l) (.eq b r)
  | refl {a b : Term} (hvalue : Paired ρ a b) : Paired ρ (.refl a) (.refl b)

structure Param.Paired (ρ : Pairing) (p q : Param Term) : Prop extends p.SameShape q where
  type : p.type.Paired ρ q.type

def Substitution.Paired (ρ : Pairing) (sub sub' : Substitution) : Prop :=
  List.Forall₂ (fun x y => y.1 = x.1 ∧ x.2.Paired ρ y.2) sub sub'

section Paired

variable {ρ : Pairing}

/-- Holes go together in at most one way. -/
theorem Pairing.hole_iff {i j i' j' : Nat} (h : ρ.hole i j) (h' : ρ.hole i' j') :
    j' = j ↔ i' = i := by
  obtain ⟨-, h⟩ := h
  obtain ⟨-, h'⟩ := h'
  omega

theorem Pairing.hole_after {past : Holes} {i j : Nat} :
    (Pairing.after past).hole i j ↔ j = i + past.size :=
  ⟨fun ⟨_, h⟩ => h.symm, fun h => ⟨Nat.zero_le _, h.symm⟩⟩

theorem Pairing.hole_swap {i j : Nat} : ρ.swap.hole j i ↔ ρ.hole i j := by
  change ρ.right.size ≤ j ∧ j + ρ.left.size = i + ρ.right.size ↔
    ρ.left.size ≤ i ∧ i + ρ.right.size = j + ρ.left.size
  omega

theorem Universe.Paired.swap {u v : Universe} (h : u.Paired ρ v) : v.Paired ρ.swap u := by
  cases h with
  | unassigned => exact .unassigned
  | level h =>
    cases h with
    | const => exact .level .const
    | var h => exact .level (.var h)

namespace Term.Paired

theorem ofArgs {f g : Term} {xs ys : List Term} (hfn : f.Paired ρ g)
    (hargs : List.Forall₂ (Term.Paired ρ) xs ys) : (Term.app f xs).Paired ρ (.app g ys) :=
  .app hfn hargs.length_eq (forall_zip_of_forall₂ hargs)

theorem ofParams {ps qs : List (Param Term)} {r s : Term}
    (hparams : List.Forall₂ (Param.Paired ρ) ps qs) (hresult : r.Paired ρ s) :
    (Term.pi ps r).Paired ρ (.pi qs s) :=
  .pi hparams.length_eq (fun e he => (forall_zip_of_forall₂ hparams e he).toSameShape)
    (fun e he => (forall_zip_of_forall₂ hparams e he).type) hresult

theorem params {ps qs : List (Param Term)} (hlength : ps.length = qs.length)
    (hshape : ∀ e ∈ ps.zip qs, e.1.SameShape e.2)
    (htypes : ∀ e ∈ ps.zip qs, e.1.type.Paired ρ e.2.type) :
    List.Forall₂ (Param.Paired ρ) ps qs :=
  forall₂_of_zip hlength fun e he => ⟨hshape e he, htypes e he⟩

/-- Induction with the arguments and the parameters compared one by one. -/
@[elab_as_elim]
theorem induct {motive : ∀ {a b : Term}, a.Paired ρ b → Prop} (missing : motive .missing)
    (const : ∀ name, @motive (.const name) _ .const)
    (lit : ∀ (text : String) (type : Term) (hclosed : type.ClosedOver ρ.known),
      @motive (.lit text type) _ (.lit hclosed))
    (bound : ∀ name, @motive (.bound name) _ .bound)
    (hole : ∀ (i j : HoleId) (h : ρ.hole i j), @motive (.hole i) (.hole j) (.hole h))
    (app : ∀ (f g : Term) (xs ys : List Term) (hfn : f.Paired ρ g), motive hfn →
      (hargs : List.Forall₂ (fun a b => ∃ h : a.Paired ρ b, motive h) xs ys) →
      motive (.ofArgs hfn (hargs.imp fun _ _ ⟨h, _⟩ => h)))
    (pi : ∀ (ps qs : List (Param Term)) (r s : Term) (hresult : r.Paired ρ s),
      (hparams : List.Forall₂ (fun p q => ∃ h : p.Paired ρ q, motive h.type) ps qs) →
      motive hresult → motive (.ofParams (hparams.imp fun _ _ ⟨h, _⟩ => h) hresult))
    (sort : ∀ (u v : Universe) (h : u.Paired ρ v), @motive (.sort u) (.sort v) (.sort h))
    (eq : ∀ (a b l r : Term) (hlhs : a.Paired ρ b) (hrhs : l.Paired ρ r),
      motive hlhs → motive hrhs →
      motive (.eq hlhs hrhs))
    (refl : ∀ (a b : Term) (hvalue : a.Paired ρ b), motive hvalue → motive (.refl hvalue))
    {a b : Term} (h : a.Paired ρ b) : motive h := by
  induction h with
  | missing => exact missing
  | const => exact const _
  | lit hclosed => exact lit _ _ hclosed
  | bound => exact bound _
  | hole h => exact hole _ _ h
  | app hfn hlength hargs ihfn ihargs =>
    exact app _ _ _ _ hfn ihfn (forall₂_of_zip hlength fun e he => ⟨hargs e he, ihargs e he⟩)
  | pi hlength hshape htypes hresult ihtypes ihresult =>
    exact pi _ _ _ _ hresult
      (forall₂_of_zip hlength fun e he => ⟨⟨hshape e he, htypes e he⟩, ihtypes e he⟩) ihresult
  | sort h => exact sort _ _ h
  | eq hlhs hrhs ihl ihr => exact eq _ _ _ _ hlhs hrhs ihl ihr
  | refl hvalue ih => exact refl _ _ hvalue ih

end Term.Paired

/-- A known term goes together with itself. -/
theorem Term.ClosedOver.paired {t : Term} (ht : t.ClosedOver ρ.known) : t.Paired ρ t := by
  have hdiagonal : ∀ {α : Type} {R : α → α → Prop} {xs : List α}, (∀ x ∈ xs, R x x) →
      List.Forall₂ R xs xs := List.forall₂_same.mpr
  obtain ⟨hfree, hlevels⟩ := ht
  induction t using Term.induct with
  | missing => exact .missing
  | const => exact .const
  | lit text type => exact .lit ⟨hfree, hlevels⟩
  | bound => exact .bound
  | hole id => simp [HoleFree, holes] at hfree
  | app fn args ihf ihargs =>
    obtain ⟨hfn, hargs⟩ := List.append_eq_nil_iff.mp hfree
    obtain ⟨hlevels, hlevels'⟩ := List.forall_mem_append.mp hlevels
    refine .ofArgs (ihf hfn hlevels) (hdiagonal fun a ha => ?_)
    exact ihargs a ha (holeFree_args.mp hargs a ha) fun v hv =>
      hlevels' v (mem_levelsArgs.mpr ⟨a, ha, hv⟩)
  | pi params result ihparams ihr =>
    obtain ⟨hparams, hresult⟩ := List.append_eq_nil_iff.mp hfree
    obtain ⟨hlevels, hlevels'⟩ := List.forall_mem_append.mp hlevels
    have hfree := holeFree_params.mp hparams
    refine .ofParams (hdiagonal fun p hp => ⟨⟨rfl, rfl, rfl, (hfree p hp).2⟩, ?_⟩)
      (ihr hresult hlevels')
    exact ihparams p hp (hfree p hp).1 fun v hv => hlevels v (mem_levelsParams.mpr ⟨p, hp, hv⟩)
  | sort u =>
    refine .sort ?_
    cases u with
    | unassigned n => exact .unassigned
    | level l =>
      cases l with
      | const k => exact .level .const
      | var v => exact .level (.var (ρ.level_refl v (hlevels v (List.mem_singleton.mpr rfl))))
  | eq lhs rhs ihl ihr =>
    obtain ⟨hlhs, hrhs⟩ := List.append_eq_nil_iff.mp hfree
    obtain ⟨hlevels, hlevels'⟩ := List.forall_mem_append.mp hlevels
    exact .eq (ihl hlhs hlevels) (ihr hrhs hlevels')
  | refl value ih => exact .refl (ih hfree hlevels)

namespace Term.Paired

variable {a b : Term}

theorem size_eq (h : a.Paired ρ b) : b.size = a.size := by
  induction h using induct with
  | missing | const | lit | bound | hole | sort => rfl
  | app f g xs ys _ ihf ihargs =>
    have hargs : sizeArgs ys = sizeArgs xs := by
      induction ihargs with
      | nil => rfl
      | cons hx _ ih =>
        obtain ⟨_, hx⟩ := hx
        rw [sizeArgs, sizeArgs, hx, ih]
    rw [size, size, ihf, hargs]
  | pi ps qs r s _ iht ihr =>
    have hparams : sizeParams qs = sizeParams ps := by
      induction iht with
      | nil => rfl
      | cons hp _ ih =>
        obtain ⟨_, hp⟩ := hp
        rw [sizeParams, sizeParams, hp, ih]
    rw [size, size, ihr, hparams]
  | eq a b l r _ _ ihl ihr => rw [size, size, ihl, ihr]
  | refl a b _ ih => rw [size, size, ih]

/-- Tests that agree on holes that go together agree on terms. -/
theorem anyHole_eq (h : a.Paired ρ b) {p q : HoleId → Bool} (hpq : ∀ i j, ρ.hole i j → q j = p i) :
    b.anyHole q = a.anyHole p := by
  induction h using induct with
  | missing | const | lit | bound | sort => rfl
  | hole i j h => exact hpq i j h
  | app f g xs ys _ ihf ihargs =>
    have hargs : anyHoleArgs q ys = anyHoleArgs p xs := by
      induction ihargs with
      | nil => rfl
      | cons hx _ ih =>
        obtain ⟨_, hx⟩ := hx
        rw [anyHoleArgs, anyHoleArgs, hx, ih]
    rw [anyHole, anyHole, ihf, hargs]
  | pi ps qs r s _ iht ihr =>
    have hparams : anyHoleParams q qs = anyHoleParams p ps := by
      induction iht with
      | nil => rfl
      | cons ht _ ih =>
        obtain ⟨_, ht⟩ := ht
        rw [anyHoleParams, anyHoleParams, ht, ih]
    rw [anyHole, anyHole, ihr, hparams]
  | eq a b l r _ _ ihl ihr => rw [anyHole, anyHole, ihl, ihr]
  | refl a b _ ih => rw [anyHole, anyHole, ih]

/-- Only holes made since are shown. -/
theorem left_le (h : a.Paired ρ b) {i : HoleId} (hi : a.Shows i) : ρ.left.size ≤ i := by
  by_contra hlt
  have hany : a.anyHole (fun i => decide (i < ρ.left.size)) = true :=
    anyHole_iff.mpr ⟨i, hi, by simpa using hlt⟩
  have hnone : b.anyHole (fun _ => false) = a.anyHole fun i => decide (i < ρ.left.size) :=
    h.anyHole_eq fun i j hij => by simpa using hij.1
  obtain ⟨_, _, hfalse⟩ := anyHole_iff.mp (hnone.trans hany)
  exact Bool.false_ne_true hfalse

theorem exists_partner (h : a.Paired ρ b) {i : HoleId} (hi : a.Shows i) : ∃ j, ρ.hole i j :=
  ⟨i - ρ.left.size + ρ.right.size, h.left_le hi, by have := h.left_le hi; omega⟩

theorem swap (h : a.Paired ρ b) : b.Paired ρ.swap a := by
  induction h using induct with
  | missing => exact .missing
  | const => exact .const
  | lit text type hclosed => exact .lit hclosed
  | bound => exact .bound
  | hole i j h => exact .hole (Pairing.hole_swap.mpr h)
  | app f g xs ys _ ihf ihargs => exact .ofArgs ihf (ihargs.flip.imp fun _ _ ⟨_, h⟩ => h)
  | pi ps qs r s _ iht ihr =>
    refine .ofParams (iht.flip.imp fun q p h => ?_) ihr
    obtain ⟨hpq, htype⟩ := h
    exact ⟨⟨hpq.name.symm, hpq.plicity.symm, hpq.fallback.symm, hpq.fallback ▸ hpq.free⟩, htype⟩
  | sort u v h => exact .sort h.swap
  | eq _ _ _ _ _ _ ihl ihr => exact .eq ihl ihr
  | refl _ _ _ ih => exact .refl ih

/-- Without holes on the one side there are none on the other. -/
theorem holeFree (h : a.Paired ρ b) (ha : a.HoleFree) : b.HoleFree := by
  induction h using induct with
  | missing | const | bound | sort => rfl
  | lit text type hclosed => exact hclosed.holeFree
  | hole i j => simp [HoleFree, holes] at ha
  | app f g xs ys _ ihf ihargs =>
    obtain ⟨hfn, hargs⟩ := List.append_eq_nil_iff.mp ha
    refine List.append_eq_nil_iff.mpr ⟨ihf hfn, holeFree_args.mpr fun y hy => ?_⟩
    obtain ⟨x, hx, _, hxy⟩ := exists_of_forall₂ ihargs.flip hy
    exact hxy (holeFree_args.mp hargs x hx)
  | pi ps qs r s _ iht ihr =>
    obtain ⟨hparams, hresult⟩ := List.append_eq_nil_iff.mp ha
    refine List.append_eq_nil_iff.mpr ⟨holeFree_params.mpr fun q hq => ?_, ihr hresult⟩
    obtain ⟨p, hp, hpq, htype⟩ := exists_of_forall₂ iht.flip hq
    have hfree := holeFree_params.mp hparams p hp
    exact ⟨htype hfree.1, hpq.fallback ▸ hpq.free⟩
  | eq a b l r _ _ ihl ihr =>
    obtain ⟨hlhs, hrhs⟩ := List.append_eq_nil_iff.mp ha
    exact List.append_eq_nil_iff.mpr ⟨ihl hlhs, ihr hrhs⟩
  | refl a b _ ih => exact ih ha

theorem universeLevel? (h : a.Paired ρ b) :
    Option.Rel (Level.Paired ρ) a.universeLevel? b.universeLevel? := by
  cases h with
  | sort h =>
    cases h with
    | unassigned => exact .none
    | level h => exact .some h
  | _ => exact .none

theorem isMissing_eq (h : a.Paired ρ b) : b.isMissing = a.isMissing := by
  cases h with
  | _ => rfl

theorem toOption (h : a.Paired ρ b) : Option.Rel (Term.Paired ρ) a.toOption b.toOption := by
  have hsome := h
  cases h with
  | missing => exact .none
  | _ => exact .some hsome

/-- Fillings that go together lead to terms that go together. -/
theorem fill (h : a.Paired ρ b) {deep : Bool} {f g : HoleId → Term}
    (hfg : ∀ i j, ρ.hole i j → (f i).Paired ρ (g j)) :
    (a.fill deep f).Paired ρ (b.fill deep g) := by
  induction h using induct with
  | missing => exact .missing
  | const => exact .const
  | lit text type hclosed =>
    have hsame : ∀ f : HoleId → Term, (Term.lit text type).fill deep f = .lit text type :=
      fun f => fill_of_holeFree hclosed.holeFree
    rw [hsame f, hsame g]
    exact .lit hclosed
  | bound => exact .bound
  | hole i j h => exact hfg i j h
  | app _ _ xs ys _ ihf ihargs =>
    rw [Term.fill, Term.fill, fillArgs_eq_map, fillArgs_eq_map]
    refine .ofArgs ihf (List.forall₂_map_left_iff.mpr (List.forall₂_map_right_iff.mpr ?_))
    exact ihargs.imp fun _ _ h => h.2
  | pi ps qs r s _ iht ihr =>
    rw [Term.fill, Term.fill, fillParams_eq_map, fillParams_eq_map]
    refine .ofParams (List.forall₂_map_left_iff.mpr (List.forall₂_map_right_iff.mpr ?_)) ihr
    exact iht.imp fun _ _ h => ⟨⟨h.1.name, h.1.plicity, h.1.fallback, h.1.free⟩, h.2⟩
  | sort _ _ h => exact .sort h
  | eq _ _ _ _ _ _ ihl ihr => exact .eq ihl ihr
  | refl _ _ _ ih => exact .refl ih

/-- Literals hide no holes, so that it does not matter whether their types are filled too. -/
theorem fill_deep (h : a.Paired ρ b) (f : HoleId → Term) : a.fill true f = a.fill false f := by
  induction h using induct with
  | missing | const | bound | hole | sort => rfl
  | lit text type hclosed => exact congrArg (Term.lit text) (fill_of_holeFree hclosed.holeFree)
  | app g _ xs _ _ ihf ihargs =>
    have hargs : xs.map (Term.fill true f) = xs.map (Term.fill false f) := by
      refine List.map_congr_left fun x hx => ?_
      obtain ⟨_, -, _, heq⟩ := exists_of_forall₂ ihargs hx
      exact heq
    rw [Term.fill, Term.fill, ihf, fillArgs_eq_map, fillArgs_eq_map, hargs]
  | pi ps _ r _ _ iht ihr =>
    have hparams : ps.map (fun p => { p with type := p.type.fill true f }) =
        ps.map fun p => { p with type := p.type.fill false f } := by
      refine List.map_congr_left fun p hp => ?_
      obtain ⟨_, -, _, heq⟩ := exists_of_forall₂ iht hp
      rw [heq]
    rw [Term.fill, Term.fill, ihr, fillParams_eq_map, fillParams_eq_map, hparams]
  | eq _ _ _ _ _ _ ihl ihr => rw [Term.fill, Term.fill, ihl, ihr]
  | refl _ _ _ ih => rw [Term.fill, Term.fill, ih]

end Term.Paired

namespace Substitution.Paired

variable {sub sub' : Substitution}

theorem lookup (h : sub.Paired ρ sub') (name : String) :
    Option.Rel (Term.Paired ρ) (sub.lookup name) (sub'.lookup name) := by
  induction h with
  | nil => exact .none
  | @cons x y _ _ hxy _ ih =>
    obtain ⟨n, t⟩ := x
    obtain ⟨m, u⟩ := y
    obtain ⟨rfl, htu⟩ := hxy
    simp only [List.lookup_cons]
    cases name == m with
    | true => exact .some htu
    | false => exact ih

theorem without (h : sub.Paired ρ sub') (name : String) :
    (sub.without name).Paired ρ (sub'.without name) := by
  induction h with
  | nil => exact .nil
  | @cons x y _ _ hxy _ ih =>
    have hkeep : (y.1 != name) = (x.1 != name) := by rw [hxy.1]
    simp only [Substitution.without, List.filter_cons, hkeep]
    split
    · exact .cons hxy ih
    · exact ih

theorem behind (h : sub.Paired ρ sub') {ps qs : List (Param Term)}
    (hparams : List.Forall₂ (Param.Paired ρ) ps qs) :
    (sub.behind ps).Paired ρ (sub'.behind qs) := by
  induction hparams generalizing sub sub' with
  | nil => exact h
  | @cons p q _ _ hpq _ ih =>
    have hnext := h.without p.name
    rw [← hpq.name] at hnext
    rw [Substitution.behind, Substitution.behind, List.foldl_cons, List.foldl_cons, ← hpq.name]
    exact ih hnext

end Substitution.Paired

namespace Term.Paired

variable {a b : Term}

theorem subst (h : a.Paired ρ b) {sub sub' : Substitution} (hsub : sub.Paired ρ sub') :
    (a.subst sub).Paired ρ (b.subst sub') := by
  induction h using induct generalizing sub sub' with
  | missing => exact .missing
  | const => exact .const
  | lit text type hclosed => exact .lit hclosed
  | bound name =>
    rw [Term.subst, Term.subst]
    have hlookup := hsub.lookup name
    generalize sub.lookup name = x, sub'.lookup name = y at hlookup
    cases hlookup with
    | none => exact .bound
    | some htu => exact htu
  | hole _ _ h => exact .hole h
  | app f g xs ys _ ihf ihargs =>
    rw [Term.subst, Term.subst, substArgs_eq_map, substArgs_eq_map]
    refine .ofArgs (ihf hsub) (List.forall₂_map_left_iff.mpr (List.forall₂_map_right_iff.mpr ?_))
    exact ihargs.imp fun _ _ h => h.2 hsub
  | pi ps qs r s _ iht ihr =>
    refine .ofParams ?_ (ihr (hsub.behind (iht.imp fun _ _ h => h.1)))
    clear ihr
    induction iht generalizing sub sub' with
    | nil => exact .nil
    | @cons p q _ _ hpq _ ih =>
      obtain ⟨hpq, htype⟩ := hpq
      rw [substParams, substParams]
      refine .cons ⟨⟨hpq.name, hpq.plicity, hpq.fallback, hpq.free⟩, htype hsub⟩ ?_
      rw [hpq.name]
      exact ih (hsub.without p.name)
  | sort _ _ h => exact .sort h
  | eq _ _ _ _ _ _ ihl ihr => exact .eq (ihl hsub) (ihr hsub)
  | refl _ _ _ ih => exact .refl (ih hsub)

end Term.Paired

def CountPaired (ρ : Pairing) (x y : Term × Nat) : Prop := x.1.Paired ρ y.1 ∧ y.2 = x.2

namespace Term.Paired

variable {a b : Term} {fire fire' : String → List Term → Nat → Option (Term × Nat)}

/-- One pass of normalization, where constants reduce alike. -/
theorem normalizeWith (h : a.Paired ρ b)
    (hfire : ∀ name xs ys left, List.Forall₂ (Term.Paired ρ) xs ys →
      Option.Rel (CountPaired ρ) (fire name xs left) (fire' name ys left)) (left : Nat) :
    CountPaired ρ (a.normalizeWith fire left) (b.normalizeWith fire' left) := by
  have hgetD : ∀ {x y : Option (Term × Nat)} {u v : Term × Nat},
      Option.Rel (CountPaired ρ) x y → CountPaired ρ u v → CountPaired ρ (x.getD u) (y.getD v) := by
    intro x y u v hxy huv
    cases hxy with
    | none => exact huv
    | some hxy => exact hxy
  induction h using induct generalizing left with
  | missing => exact ⟨.missing, rfl⟩
  | const name => exact hgetD (hfire name [] [] left .nil) ⟨.const, rfl⟩
  | lit text type hclosed => exact ⟨.lit hclosed, rfl⟩
  | bound => exact ⟨.bound, rfl⟩
  | hole _ _ h => exact ⟨.hole h, rfl⟩
  | app f g xs ys _ ihf ihargs =>
    have hargs : ∀ left, List.Forall₂ (Term.Paired ρ) (normalizeArgs fire xs left).1
        (normalizeArgs fire' ys left).1 ∧
        (normalizeArgs fire' ys left).2 = (normalizeArgs fire xs left).2 := by
      induction ihargs with
      | nil => exact fun left => ⟨.nil, rfl⟩
      | cons hx _ ih =>
        intro left
        obtain ⟨_, hx⟩ := hx
        obtain ⟨hhead, hleft⟩ := hx left
        simp only [normalizeArgs, hleft]
        exact ⟨.cons hhead (ih _).1, (ih _).2⟩
    obtain ⟨hfn, hleft⟩ := ihf left
    simp only [Term.normalizeWith, hleft]
    obtain ⟨hxs, hleft⟩ := hargs (f.normalizeWith fire left).2
    generalize (f.normalizeWith fire left).1 = fn, (g.normalizeWith fire' left).1 = gn at hfn
    have happ := Term.Paired.ofArgs hfn hxs
    cases hfn with
    | const =>
      simp only [hleft]
      exact hgetD (hfire _ _ _ _ hxs) ⟨happ, rfl⟩
    | _ => exact ⟨happ, hleft⟩
  | pi ps qs r s _ iht ihr =>
    have hparams : ∀ left, List.Forall₂ (Param.Paired ρ) (normalizeParams fire ps left).1
        (normalizeParams fire' qs left).1 ∧
        (normalizeParams fire' qs left).2 = (normalizeParams fire ps left).2 := by
      induction iht with
      | nil => exact fun left => ⟨.nil, rfl⟩
      | cons hp _ ih =>
        intro left
        obtain ⟨hp, htype⟩ := hp
        obtain ⟨hhead, hleft⟩ := htype left
        simp only [normalizeParams, hleft]
        exact ⟨.cons ⟨⟨hp.name, hp.plicity, hp.fallback, hp.free⟩, hhead⟩ (ih _).1, (ih _).2⟩
    obtain ⟨hps, hleft⟩ := hparams left
    simp only [Term.normalizeWith, hleft]
    obtain ⟨hr, hleft⟩ := ihr (normalizeParams fire ps left).2
    exact ⟨.ofParams hps hr, hleft⟩
  | sort _ _ h => exact ⟨.sort h, rfl⟩
  | eq a b l r _ _ ihl ihr =>
    obtain ⟨hl, hleft⟩ := ihl left
    simp only [Term.normalizeWith, hleft]
    obtain ⟨hr, hleft⟩ := ihr (a.normalizeWith fire left).2
    exact ⟨.eq hl hr, hleft⟩
  | refl a b _ ih =>
    obtain ⟨hvalue, hleft⟩ := ih left
    exact ⟨.refl hvalue, hleft⟩

end Term.Paired

namespace Pattern

mutual

/-- Patterns look at names and literals only. -/
theorem match?_paired (p : Pattern) {t u : Term} (htu : t.Paired ρ u) {sub sub' : Substitution}
    (hsub : sub.Paired ρ sub') :
    Option.Rel (Substitution.Paired ρ) (p.match? t sub) (p.match? u sub') := by
  cases p with
  | any => exact .some hsub
  | named name => exact .some (.cons ⟨rfl, htu⟩ hsub)
  | const name =>
    cases htu with
    | const =>
      simp only [match?]
      split
      · exact .some hsub
      · exact .none
    | _ => exact .none
  | lit text =>
    cases htu with
    | lit =>
      simp only [match?]
      split
      · exact .some hsub
      · exact .none
    | _ => exact .none
  | head name =>
    cases htu with
    | app hfn =>
      cases hfn with
      | const =>
        simp only [match?]
        split
        · exact .some hsub
        · exact .none
      | _ => exact .none
    | _ => exact .none
  | app name pats =>
    cases htu with
    | app hfn hlength hargs =>
      cases hfn with
      | const =>
        simp only [match?]
        split
        · exact matchAll?_paired pats (forall₂_of_zip hlength hargs) hsub
        · exact .none
      | _ => exact .none
    | _ => exact .none

theorem matchAll?_paired (ps : List Pattern) {ts us : List Term}
    (htu : List.Forall₂ (Term.Paired ρ) ts us) {sub sub' : Substitution}
    (hsub : sub.Paired ρ sub') :
    Option.Rel (Substitution.Paired ρ) (matchAll? ps ts sub) (matchAll? ps us sub') := by
  match ps, htu with
  | [], .nil => exact .some hsub
  | p :: ps, .cons ht hts =>
    rw [matchAll?, matchAll?]
    have hfirst := match?_paired p ht hsub
    generalize p.match? _ sub = x, p.match? _ sub' = y at hfirst
    cases hfirst with
    | none => exact .none
    | some hsub => exact matchAll?_paired ps hts hsub
  | [], .cons _ _ => exact .none
  | _ :: _, .nil => exact .none

end

end Pattern

theorem Rule.fire?_paired {rule : Rule} (hrule : rule.rhs.ClosedOver ρ.known) {xs ys : List Term}
    (hargs : List.Forall₂ (Term.Paired ρ) xs ys) :
    Option.Rel (Term.Paired ρ) (rule.fire? xs) (rule.fire? ys) := by
  have hmatch := Pattern.matchAll?_paired rule.patterns
    (List.forall₂_take rule.patterns.length hargs) (.nil : Substitution.Paired ρ [] [])
  unfold Rule.fire?
  generalize Pattern.matchAll? _ (xs.take _) [] = x,
    Pattern.matchAll? _ (ys.take _) [] = y at hmatch
  cases hmatch with
  | none => exact .none
  | some hsub => exact .some (hrule.paired.subst hsub)

def Reduction.Respects (ρ : Pairing) (r : Reduction) : Prop :=
  ∀ xs ys, List.Forall₂ (Term.Paired ρ) xs ys →
    Option.Rel (Term.Paired ρ) (r.reduce xs) (r.reduce ys)

/-- A reduction that does not look at the numbers of holes, and hides none. -/
def Reduction.Uniform (r : Reduction) : Prop := ∀ past, r.Respects (.after past)

/-- Rules reduce alike: the first that fires is the same. -/
theorem Reduction.respects_ofRules {arity : Int} {rules : List Rule}
    (hrules : ∀ rule ∈ rules, rule.rhs.ClosedOver ρ.known) :
    (Reduction.ofRules arity rules).Respects ρ := by
  intro xs ys hargs
  change Option.Rel (Term.Paired ρ) (rules.findSome? (·.fire? xs)) (rules.findSome? (·.fire? ys))
  induction rules with
  | nil => exact .none
  | cons rule rules ih =>
    have hfirst := Rule.fire?_paired (hrules rule (by simp)) hargs
    rw [List.findSome?_cons, List.findSome?_cons]
    generalize rule.fire? xs = x, rule.fire? ys = y at hfirst
    cases hfirst with
    | none => exact ih fun rule hrule => hrules rule (by simp [hrule])
    | some hout => exact .some hout

theorem Reduction.ClosedOver.respects {r : Reduction} (hr : r.ClosedOver ρ.known) :
    r.Respects ρ := by
  obtain ⟨arity, rules, rfl, hrules⟩ := hr
  exact respects_ofRules hrules

end Paired

end Implicits
