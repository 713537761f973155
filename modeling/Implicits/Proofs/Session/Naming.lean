import Mathlib.Data.List.Perm.Subperm
import Implicits.Proofs.Checker.Obligations

/-!
Checking a signature does nothing to it but name its anonymous universes. Each occurrence gets a
level variable of the declaration that no other has and that the store has not handed out before;
all else is copied.
-/
namespace Implicits

open Term

structure Signature.LevelsIn (P : LevelVar → Prop) (sig : Signature) : Prop where
  types : ∀ p ∈ sig.params, ∀ v ∈ p.type.levels, P v
  values : ∀ p ∈ sig.params, ∀ value, p.fallback = some (.exact value) → ∀ v ∈ value.levels, P v
  result : ∀ v ∈ sig.result.levels, P v

theorem Signature.LevelsIn.mono {P Q : LevelVar → Prop} {sig : Signature} (h : sig.LevelsIn P)
    (hPQ : ∀ v, P v → Q v) : sig.LevelsIn Q :=
  ⟨fun p hp v hv => hPQ v (h.types p hp v hv),
    fun p hp value hvalue v hv => hPQ v (h.values p hp value hvalue v hv),
    fun v hv => hPQ v (h.result v hv)⟩

namespace Term

mutual

/-- A term after its anonymous universes have been named: each occurrence, from left to right, by
one of the variables. The types of literals and the tactics of parameters are not looked into. -/
inductive Named : Term → List LevelVar → Term → Prop
  | missing : Named .missing [] .missing
  | const {name : String} : Named (.const name) [] (.const name)
  | lit {text : String} {type : Term} : Named (.lit text type) [] (.lit text type)
  | bound {name : String} : Named (.bound name) [] (.bound name)
  | hole {id : HoleId} : Named (.hole id) [] (.hole id)
  | app {fn fn' : Term} {args args' : List Term} {vs ws : List LevelVar} (hfn : Named fn vs fn')
    (hargs : NamedArgs args ws args') : Named (.app fn args) (vs ++ ws) (.app fn' args')
  | pi {params params' : List (Param Term)} {result result' : Term} {vs ws : List LevelVar}
    (hparams : NamedParams params vs params') (hresult : Named result ws result') :
    Named (.pi params result) (vs ++ ws) (.pi params' result')
  | anonymous {n : Nat} {v : LevelVar} : Named (.sort (.unassigned n)) [v] (.sort (.level (.var v)))
  | level {l : Level} : Named (.sort (.level l)) [] (.sort (.level l))
  | eq {lhs lhs' rhs rhs' : Term} {vs ws : List LevelVar} (hlhs : Named lhs vs lhs')
    (hrhs : Named rhs ws rhs') : Named (.eq lhs rhs) (vs ++ ws) (.eq lhs' rhs')
  | refl {value value' : Term} {vs : List LevelVar} (hvalue : Named value vs value') :
    Named (.refl value) vs (.refl value')

inductive NamedArgs : List Term → List LevelVar → List Term → Prop
  | nil : NamedArgs [] [] []
  | cons {a a' : Term} {args args' : List Term} {vs ws : List LevelVar} (ha : Named a vs a')
    (hargs : NamedArgs args ws args') : NamedArgs (a :: args) (vs ++ ws) (a' :: args')

inductive NamedParams : List (Param Term) → List LevelVar → List (Param Term) → Prop
  | nil : NamedParams [] [] []
  | cons {p : Param Term} {type : Term} {params params' : List (Param Term)} {vs ws : List LevelVar}
    (htype : Named p.type vs type) (hparams : NamedParams params ws params') :
    NamedParams (p :: params) (vs ++ ws) ({ p with type } :: params')

end

mutual

def hasAnonymous : Term → Bool
  | missing | const _ | bound _ | hole _ | sort (.level _) => false
  | sort (.unassigned _) => true
  | lit _ type => type.hasAnonymous
  | app fn args => fn.hasAnonymous || hasAnonymousArgs args
  | pi params result => hasAnonymousParams params || result.hasAnonymous
  | eq lhs rhs => lhs.hasAnonymous || rhs.hasAnonymous
  | refl value => value.hasAnonymous

def hasAnonymousArgs : List Term → Bool
  | [] => false
  | t :: ts => t.hasAnonymous || hasAnonymousArgs ts

def hasAnonymousParams : List (Param Term) → Bool
  | [] => false
  | ⟨_, type, _, fallback⟩ :: ps =>
    type.hasAnonymous || hasAnonymousFallback fallback || hasAnonymousParams ps

def hasAnonymousFallback : Option (Tactic Term) → Bool
  | none | some .trivial => false
  | some (.exact value) => value.hasAnonymous

end

mutual

/-- Whether some universe has no level in the type of a literal or in the tactic of a parameter. -/
def hidesAnonymous : Term → Bool
  | missing | const _ | bound _ | hole _ | sort _ => false
  | lit _ type => type.hasAnonymous
  | app fn args => fn.hidesAnonymous || hidesAnonymousArgs args
  | pi params result => hidesAnonymousParams params || result.hidesAnonymous
  | eq lhs rhs => lhs.hidesAnonymous || rhs.hidesAnonymous
  | refl value => value.hidesAnonymous

def hidesAnonymousArgs : List Term → Bool
  | [] => false
  | t :: ts => t.hidesAnonymous || hidesAnonymousArgs ts

def hidesAnonymousParams : List (Param Term) → Bool
  | [] => false
  | ⟨_, type, _, fallback⟩ :: ps =>
    type.hidesAnonymous || hasAnonymousFallback fallback || hidesAnonymousParams ps

end

end Term

/-- A universe without a level in place of one whose level is among the variables. The numbers of
anonymous universes are dropped. -/
def Universe.eraseLevel (vars : List LevelVar) : Universe → Universe
  | .unassigned _ => .unassigned 0
  | .level (.var v) => if v ∈ vars then .unassigned 0 else .level (.var v)
  | .level (.const k) => .level (.const k)

namespace Term

mutual

/-- Makes anonymous the universes whose level is among the variables, where they can be named. -/
def eraseLevels (vars : List LevelVar) : Term → Term
  | missing => missing
  | const name => const name
  | lit text type => lit text type
  | bound name => bound name
  | hole id => hole id
  | app fn args => app (fn.eraseLevels vars) (eraseLevelsArgs vars args)
  | pi params result => pi (eraseLevelsParams vars params) (result.eraseLevels vars)
  | sort u => sort (u.eraseLevel vars)
  | eq lhs rhs => eq (lhs.eraseLevels vars) (rhs.eraseLevels vars)
  | refl value => refl (value.eraseLevels vars)

def eraseLevelsArgs (vars : List LevelVar) : List Term → List Term
  | [] => []
  | t :: ts => t.eraseLevels vars :: eraseLevelsArgs vars ts

def eraseLevelsParams (vars : List LevelVar) : List (Param Term) → List (Param Term)
  | [] => []
  | ⟨name, type, plicity, fallback⟩ :: ps =>
    ⟨name, type.eraseLevels vars, plicity, fallback⟩ :: eraseLevelsParams vars ps

end

def eraseLevelsFallback (vars : List LevelVar) : Option (Tactic Term) → Option (Tactic Term)
  | none => none
  | some .trivial => some .trivial
  | some (.exact value) => some (.exact (value.eraseLevels vars))

mutual

/-- The universes that are left without a level are those that cannot be named. -/
theorem Named.hasAnonymous_eq {t t' : Term} {vars : List LevelVar} :
    t.Named vars t' → t'.hasAnonymous = t.hidesAnonymous
  | .missing | .const | .lit | .bound | .hole | .anonymous | .level => rfl
  | .app hfn hargs => congrArg₂ _ hfn.hasAnonymous_eq hargs.hasAnonymous_eq
  | .pi hparams hresult => congrArg₂ _ hparams.hasAnonymous_eq hresult.hasAnonymous_eq
  | .eq hlhs hrhs => congrArg₂ _ hlhs.hasAnonymous_eq hrhs.hasAnonymous_eq
  | .refl hvalue => hvalue.hasAnonymous_eq

theorem NamedArgs.hasAnonymous_eq {args args' : List Term} {vars : List LevelVar} :
    NamedArgs args vars args' → hasAnonymousArgs args' = hidesAnonymousArgs args
  | .nil => rfl
  | .cons ha hargs => congrArg₂ _ ha.hasAnonymous_eq hargs.hasAnonymous_eq

theorem NamedParams.hasAnonymous_eq {params params' : List (Param Term)} {vars : List LevelVar} :
    NamedParams params vars params' → hasAnonymousParams params' = hidesAnonymousParams params
  | .nil => rfl
  | .cons htype hparams =>
    congrArg₂ _ (congrArg (· || _) htype.hasAnonymous_eq) hparams.hasAnonymous_eq

end

theorem append_levels {xs xs' ys ys' vs ws : List LevelVar} (hx : xs' ⊆ xs ++ vs)
    (hy : ys' ⊆ ys ++ ws) :
    xs' ++ ys' ⊆ (xs ++ ys) ++ (vs ++ ws) := by
  intro v hv
  simp only [List.mem_append] at hv ⊢
  rcases hv with hv | hv
  · rcases List.mem_append.mp (hx hv) with hv | hv
    · exact .inl (.inl hv)
    · exact .inr (.inl hv)
  · rcases List.mem_append.mp (hy hv) with hv | hv
    · exact .inl (.inr hv)
    · exact .inr (.inr hv)

mutual

/-- A named term has no other level variables than before and those that name its universes. -/
theorem Named.levels {t t' : Term} {vars : List LevelVar} :
    t.Named vars t' → t'.levels ⊆ t.levels ++ vars
  | .missing | .const | .lit | .bound | .hole | .level => List.subset_append_left _ _
  | .anonymous => List.Subset.refl _
  | .app hfn hargs => append_levels hfn.levels hargs.levels
  | .pi hparams hresult => append_levels hparams.levels hresult.levels
  | .eq hlhs hrhs => append_levels hlhs.levels hrhs.levels
  | .refl hvalue => hvalue.levels

theorem NamedArgs.levels {args args' : List Term} {vars : List LevelVar} :
    NamedArgs args vars args' → levelsArgs args' ⊆ levelsArgs args ++ vars
  | .nil => List.Subset.refl _
  | .cons ha hargs => append_levels ha.levels hargs.levels

theorem NamedParams.levels {params params' : List (Param Term)} {vars : List LevelVar} :
    NamedParams params vars params' → levelsParams params' ⊆ levelsParams params ++ vars
  | .nil => List.Subset.refl _
  | .cons htype hparams => append_levels htype.levels hparams.levels

end

section Erase

variable {W : List LevelVar}

mutual

/-- Erasing the variables undoes the naming, unless one of them was there before. -/
theorem Named.eraseLevels_eq {t t' : Term} {vars : List LevelVar} (hW : vars ⊆ W)
    (hnew : ∀ v ∈ t.levels, v ∉ W) : t.Named vars t' → t'.eraseLevels W = t.eraseLevels []
  | .missing | .const | .lit | .bound | .hole => rfl
  | .app hfn hargs => by
    obtain ⟨hvs, hws⟩ := List.append_subset.mp hW
    obtain ⟨hnew, hnew'⟩ := List.forall_mem_append.mp hnew
    exact congrArg₂ app (hfn.eraseLevels_eq hvs hnew) (hargs.eraseLevels_eq hws hnew')
  | .pi hparams hresult => by
    obtain ⟨hvs, hws⟩ := List.append_subset.mp hW
    obtain ⟨hnew, hnew'⟩ := List.forall_mem_append.mp hnew
    exact congrArg₂ pi (hparams.eraseLevels_eq hvs hnew) (hresult.eraseLevels_eq hws hnew')
  | .anonymous => congrArg sort (if_pos (hW List.mem_cons_self))
  | .level (l := .const _) => rfl
  | .level (l := .var v) => by
    have hv : v ∉ W := hnew v List.mem_cons_self
    simp only [eraseLevels, Universe.eraseLevel, if_neg hv, if_neg List.not_mem_nil]
  | .eq hlhs hrhs => by
    obtain ⟨hvs, hws⟩ := List.append_subset.mp hW
    obtain ⟨hnew, hnew'⟩ := List.forall_mem_append.mp hnew
    exact congrArg₂ eq (hlhs.eraseLevels_eq hvs hnew) (hrhs.eraseLevels_eq hws hnew')
  | .refl hvalue => congrArg refl (hvalue.eraseLevels_eq hW hnew)

theorem NamedArgs.eraseLevels_eq {args args' : List Term} {vars : List LevelVar} (hW : vars ⊆ W)
    (hnew : ∀ v ∈ levelsArgs args, v ∉ W) :
    NamedArgs args vars args' → eraseLevelsArgs W args' = eraseLevelsArgs [] args
  | .nil => rfl
  | .cons ha hargs => by
    obtain ⟨hvs, hws⟩ := List.append_subset.mp hW
    obtain ⟨hnew, hnew'⟩ := List.forall_mem_append.mp hnew
    exact congrArg₂ List.cons (ha.eraseLevels_eq hvs hnew) (hargs.eraseLevels_eq hws hnew')

theorem NamedParams.eraseLevels_eq {params params' : List (Param Term)} {vars : List LevelVar}
    (hW : vars ⊆ W) (hnew : ∀ v ∈ levelsParams params, v ∉ W) :
    NamedParams params vars params' → eraseLevelsParams W params' = eraseLevelsParams [] params
  | .nil => rfl
  | .cons htype hparams => by
    obtain ⟨hvs, hws⟩ := List.append_subset.mp hW
    obtain ⟨hnew, hnew'⟩ := List.forall_mem_append.mp hnew
    have htype := htype.eraseLevels_eq hvs hnew
    simp only [eraseLevelsParams, htype, hparams.eraseLevels_eq hws hnew']

end

end Erase

end Term

inductive Tactic.Named : Option (Tactic Term) → List LevelVar → Option (Tactic Term) → Prop
  | none : Named none [] none
  | trivial : Named (some .trivial) [] (some .trivial)
  | exact {value value' : Term} {vars : List LevelVar} (hvalue : value.Named vars value') :
    Named (some (.exact value)) vars (some (.exact value'))

def Term.hidesAnonymousFallback : Option (Tactic Term) → Bool
  | none | some .trivial => false
  | some (.exact value) => value.hidesAnonymous

def Param.eraseLevels (vars : List LevelVar) (p : Param Term) : Param Term where
  name := p.name
  type := p.type.eraseLevels vars
  plicity := p.plicity
  fallback := eraseLevelsFallback vars p.fallback

namespace Tactic.Named

variable {tactic tactic' : Option (Tactic Term)} {vars W : List LevelVar}

theorem hasAnonymous_eq (h : Tactic.Named tactic vars tactic') :
    hasAnonymousFallback tactic' = hidesAnonymousFallback tactic := by
  cases h with
  | none | trivial => rfl
  | exact hvalue => exact hvalue.hasAnonymous_eq

theorem eraseLevels_eq (h : Tactic.Named tactic vars tactic') (hW : vars ⊆ W)
    (hnew : ∀ value, tactic = some (.exact value) → ∀ v ∈ value.levels, v ∉ W) :
    eraseLevelsFallback W tactic' = eraseLevelsFallback [] tactic := by
  cases h with
  | none | trivial => rfl
  | exact hvalue =>
    rw [eraseLevelsFallback, eraseLevelsFallback, hvalue.eraseLevels_eq hW (hnew _ rfl)]

end Tactic.Named

namespace Signature

/-- Parameters of a signature after their types and the values in their tactics have been named.
Their names and their kinds stay. -/
inductive NamedParams : List (Param Term) → List LevelVar → List (Param Term) → Prop
  | nil : NamedParams [] [] []
  | cons {p : Param Term} {type : Term} {fallback : Option (Tactic Term)}
    {params params' : List (Param Term)} {us vs ws : List LevelVar} (htype : p.type.Named us type)
    (hfallback : Tactic.Named p.fallback vs fallback) (hparams : NamedParams params ws params') :
    NamedParams (p :: params) (us ++ vs ++ ws) ({ p with type, fallback } :: params')

inductive Named (sig : Signature) : List LevelVar → Signature → Prop
  | intro {params : List (Param Term)} {result : Term} {constraints : List Constraint}
    {vs ws : List LevelVar} (hparams : NamedParams sig.params vs params)
    (hresult : sig.result.Named ws result) :
    Named sig (vs ++ ws) { name := sig.name, params, result, constraints }

def hasAnonymous (sig : Signature) : Bool :=
  sig.params.any (fun p => p.type.hasAnonymous || hasAnonymousFallback p.fallback) ||
    sig.result.hasAnonymous

/-- Whether some universe has no level in the type of a literal or in the tactic of a parameter, the
tactics of the signature's own parameters apart. -/
def hidesAnonymous (sig : Signature) : Bool :=
  sig.params.any (fun p => p.type.hidesAnonymous || hidesAnonymousFallback p.fallback) ||
    sig.result.hidesAnonymous

variable {params params' : List (Param Term)} {sig sig' : Signature} {vars W : List LevelVar}

theorem NamedParams.hasAnonymous_eq (h : NamedParams params vars params') :
    params'.any (fun p => p.type.hasAnonymous || hasAnonymousFallback p.fallback) =
      params.any fun p => p.type.hidesAnonymous || hidesAnonymousFallback p.fallback := by
  induction h with
  | nil => rfl
  | cons htype hfallback _ ih =>
    rw [List.any_cons, List.any_cons, ih, htype.hasAnonymous_eq, hfallback.hasAnonymous_eq]

theorem Named.hasAnonymous_eq (h : sig.Named vars sig') :
    sig'.hasAnonymous = sig.hidesAnonymous := by
  obtain ⟨hparams, hresult⟩ := h
  rw [hasAnonymous, hidesAnonymous, hparams.hasAnonymous_eq, hresult.hasAnonymous_eq]

theorem NamedParams.eraseLevels_eq (h : NamedParams params vars params') (hW : vars ⊆ W)
    (htypes : ∀ p ∈ params, ∀ v ∈ p.type.levels, v ∉ W)
    (hvalues : ∀ p ∈ params, ∀ value, p.fallback = some (.exact value) →
      ∀ v ∈ value.levels, v ∉ W) :
    params'.map (·.eraseLevels W) = params.map (·.eraseLevels []) := by
  induction h with
  | nil => rfl
  | cons htype hfallback _ ih =>
    obtain ⟨hW, hws⟩ := List.append_subset.mp hW
    obtain ⟨hus, hvs⟩ := List.append_subset.mp hW
    obtain ⟨hnew, htypes⟩ := List.forall_mem_cons.mp htypes
    obtain ⟨hnew', hvalues⟩ := List.forall_mem_cons.mp hvalues
    rw [List.map_cons, List.map_cons, ih hws htypes hvalues, Param.eraseLevels, Param.eraseLevels,
      htype.eraseLevels_eq hus hnew, hfallback.eraseLevels_eq hvs hnew']

theorem NamedParams.levelsIn {P : LevelVar → Prop} (h : NamedParams params vars params')
    (hvars : ∀ v ∈ vars, P v) (htypes : ∀ p ∈ params, ∀ v ∈ p.type.levels, P v)
    (hvalues : ∀ p ∈ params, ∀ value, p.fallback = some (.exact value) → ∀ v ∈ value.levels, P v) :
    ∀ p ∈ params', (∀ v ∈ p.type.levels, P v) ∧
      ∀ value, p.fallback = some (.exact value) → ∀ v ∈ value.levels, P v := by
  induction h with
  | nil => simp
  | cons htype hfallback _ ih =>
    obtain ⟨hvars, hws⟩ := List.forall_mem_append.mp hvars
    obtain ⟨hus, hvs⟩ := List.forall_mem_append.mp hvars
    obtain ⟨hold, htypes⟩ := List.forall_mem_cons.mp htypes
    obtain ⟨hold', hvalues⟩ := List.forall_mem_cons.mp hvalues
    refine List.forall_mem_cons.mpr
      ⟨⟨fun v hv => ?_, fun value hvalue v hv => ?_⟩, ih hws htypes hvalues⟩
    · exact List.forall_mem_append.mpr ⟨hold, hus⟩ v (htype.levels hv)
    · dsimp only at hvalue
      rw [hvalue] at hfallback
      generalize hbefore : Param.fallback _ = before at hfallback
      cases hfallback with
      | exact hnamed => exact List.forall_mem_append.mpr ⟨hold' _ hbefore, hvs⟩ v (hnamed.levels hv)

/-- The level variables of a named signature are those that it had and those that name its
universes. -/
theorem Named.levelsIn {P : LevelVar → Prop} (h : sig.Named vars sig') (hsig : sig.LevelsIn P)
    (hvars : ∀ v ∈ vars, P v) : sig'.LevelsIn P := by
  obtain ⟨hparams, hresult⟩ := h
  obtain ⟨hvs, hws⟩ := List.forall_mem_append.mp hvars
  have hin := hparams.levelsIn hvs hsig.types hsig.values
  refine ⟨fun p hp => (hin p hp).1, fun p hp => (hin p hp).2, fun v hv => ?_⟩
  exact List.forall_mem_append.mpr ⟨hsig.result, hws⟩ v (hresult.levels hv)

/-- Erasing the new variables by name gives the signature back, unless one of them was there before.
-/
theorem Named.eraseLevels_eq (h : sig.Named vars sig') (hnew : sig.LevelsIn (· ∉ vars)) :
    sig'.params.map (·.eraseLevels vars) = sig.params.map (·.eraseLevels []) ∧
      sig'.result.eraseLevels vars = sig.result.eraseLevels [] := by
  obtain ⟨hparams, hresult⟩ := h
  exact ⟨hparams.eraseLevels_eq (List.subset_append_left _ _) hnew.types hnew.values,
    hresult.eraseLevels_eq (List.subset_append_right _ _) hnew.result⟩

end Signature

/-- Different level variables of a declaration that a store has handed out on the way to another
state. -/
structure LevelVar.Drawn (decl : String) (s s' : LevelStore) (vars : List LevelVar) : Prop where
  issued : (vars ++ s.issued).Subperm s'.issued
  nodup : vars.Nodup
  mem : ∀ v ∈ vars, ∃ i : Nat, (s.nextId ≤ i ∧ i < s'.nextId) ∧ v = ⟨decl, i, true⟩

namespace LevelVar.Drawn

variable {decl : String} {s s₁ s' : LevelStore} {vs ws : List LevelVar}

theorem nil (h : s.issued <:+ s'.issued) : Drawn decl s s' [] := ⟨h.sublist.subperm, .nil, by simp⟩

theorem nextId_le (h : Drawn decl s s' vs) : s.nextId ≤ s'.nextId := by
  have hle := h.issued.length_le
  rw [List.length_append] at hle
  exact Nat.le_of_add_left_le hle

theorem append (h : Drawn decl s s₁ vs) (h' : Drawn decl s₁ s' ws) :
    Drawn decl s s' (vs ++ ws) where
  issued := by
    have hswap : (vs ++ ws ++ s.issued).Perm (ws ++ (vs ++ s.issued)) := by
      rw [← List.append_assoc]
      exact List.perm_append_comm.append_right _
    exact (hswap.subperm.trans ((List.subperm_append_left ws).mpr h.issued)).trans h'.issued
  nodup := by
    refine List.nodup_append.mpr ⟨h.nodup, h'.nodup, fun v hv w hw heq => ?_⟩
    obtain ⟨i, hi, rfl⟩ := h.mem v hv
    obtain ⟨j, hj, rfl⟩ := h'.mem w hw
    simp only [LevelVar.mk.injEq, Int.natCast_inj, true_and, and_true] at heq
    omega
  mem v hv := by
    rcases List.mem_append.mp hv with hv | hv
    · obtain ⟨i, hi, rfl⟩ := h.mem v hv
      exact ⟨i, ⟨hi.1, Nat.lt_of_lt_of_le hi.2 h'.nextId_le⟩, rfl⟩
    · obtain ⟨i, hi, rfl⟩ := h'.mem v hv
      exact ⟨i, ⟨h.nextId_le.trans hi.1, hi.2⟩, rfl⟩

theorem perm (h : Drawn decl s s' vs) (hperm : vs.Perm ws) : Drawn decl s s' ws :=
  ⟨(hperm.append_right _).symm.subperm.trans h.issued, hperm.nodup h.nodup,
    fun v hv => h.mem v (hperm.mem_iff.mpr hv)⟩

/-- The store may hand out others. -/
theorem later (h : Drawn decl s s₁ vs) (hlater : s₁.issued <:+ s'.issued) : Drawn decl s s' vs := by
  rw [← vs.append_nil]
  exact h.append (.nil hlater)

/-- Variables that are drawn are none of those that the store has handed out before. -/
theorem disjoint (h : Drawn decl s s' vs) (hs : LevelStore.Numbered s.issued) :
    vs.Disjoint s.issued := by
  intro v hv hearlier
  obtain ⟨i, hi, rfl⟩ := h.mem v hv
  have hbelow : (i : Int) < s.nextId := hs.id_lt _ hearlier
  omega

end LevelVar.Drawn

open LevelVar (Drawn)

namespace Term

/-- Naming the universes of a term puts the variables into it that the store hands out, each of them
once. -/
theorem assignLevels_named (decl : String) (t : Term) : ∀ store : LevelStore,
    ∃ vars, t.Named vars ((t.assignLevels decl).run store).1 ∧
      Drawn decl store ((t.assignLevels decl).run store).2 vars ∧
      ((t.assignLevels decl).run store).2.issued.length = vars.length + store.issued.length := by
  have hnone : ∀ store : LevelStore, Drawn decl store store [] := fun _ => .nil List.suffix_rfl
  -- What is named first and what is named second, the store going on in between.
  have htwice : ∀ {vs ws : List LevelVar} {store store₁ store₂ : LevelStore},
      store₁.issued.length = vs.length + store.issued.length →
      store₂.issued.length = ws.length + store₁.issued.length →
      store₂.issued.length = (vs ++ ws).length + store.issued.length := by
    intro vs ws store store₁ store₂ h₁ h₂
    rw [List.length_append]
    omega
  induction t using induct with
  | missing => exact fun store => ⟨[], .missing, hnone store, (Nat.zero_add _).symm⟩
  | const name => exact fun store => ⟨[], .const, hnone store, (Nat.zero_add _).symm⟩
  | lit text type => exact fun store => ⟨[], .lit, hnone store, (Nat.zero_add _).symm⟩
  | bound name => exact fun store => ⟨[], .bound, hnone store, (Nat.zero_add _).symm⟩
  | hole id => exact fun store => ⟨[], .hole, hnone store, (Nat.zero_add _).symm⟩
  | app fn args ihfn ihargs =>
    have hargs : ∀ store : LevelStore,
        ∃ vars, NamedArgs args vars ((assignLevelsArgs decl args).run store).1 ∧
          Drawn decl store ((assignLevelsArgs decl args).run store).2 vars ∧
          ((assignLevelsArgs decl args).run store).2.issued.length =
            vars.length + store.issued.length := by
      induction args with
      | nil => exact fun store => ⟨[], .nil, hnone store, (Nat.zero_add _).symm⟩
      | cons a args ih =>
        intro store
        obtain ⟨vs, ha, hvs, hcount⟩ := ihargs a (by simp) store
        obtain ⟨ws, hargs, hws, hcount'⟩ := ih (fun b hb => ihargs b (by simp [hb])) _
        exact ⟨vs ++ ws, .cons ha hargs, hvs.append hws, htwice hcount hcount'⟩
    intro store
    -- The arguments get their variables before the function.
    obtain ⟨ws, hargs, hws, hcount⟩ := hargs store
    obtain ⟨vs, hfn, hvs, hcount'⟩ := ihfn ((assignLevelsArgs decl args).run store).2
    have hperm : (ws ++ vs).Perm (vs ++ ws) := List.perm_append_comm
    exact ⟨vs ++ ws, .app hfn hargs, (hws.append hvs).perm hperm,
      hperm.length_eq ▸ htwice hcount hcount'⟩
  | pi params result ihparams ihresult =>
    have hparams : ∀ store : LevelStore,
        ∃ vars, NamedParams params vars ((assignLevelsParams decl params).run store).1 ∧
          Drawn decl store ((assignLevelsParams decl params).run store).2 vars ∧
          ((assignLevelsParams decl params).run store).2.issued.length =
            vars.length + store.issued.length := by
      induction params with
      | nil => exact fun store => ⟨[], .nil, hnone store, (Nat.zero_add _).symm⟩
      | cons p params ih =>
        intro store
        obtain ⟨vs, htype, hvs, hcount⟩ := ihparams p (by simp) store
        obtain ⟨ws, hparams, hws, hcount'⟩ := ih (fun q hq => ihparams q (by simp [hq])) _
        exact ⟨vs ++ ws, .cons htype hparams, hvs.append hws, htwice hcount hcount'⟩
    intro store
    obtain ⟨vs, hparams, hvs, hcount⟩ := hparams store
    obtain ⟨ws, hresult, hws, hcount'⟩ := ihresult _
    exact ⟨vs ++ ws, .pi hparams hresult, hvs.append hws, htwice hcount hcount'⟩
  | sort u =>
    intro store
    cases u with
    | unassigned n =>
      refine ⟨[⟨decl, store.nextId, true⟩], .anonymous,
        ⟨List.Subperm.refl _, List.nodup_singleton _, ?_⟩, Nat.add_comm _ _⟩
      exact List.forall_mem_singleton.mpr ⟨_, ⟨Nat.le_refl _, Nat.lt_succ_self _⟩, rfl⟩
    | level l => exact ⟨[], .level, hnone store, (Nat.zero_add _).symm⟩
  | eq lhs rhs ihl ihr =>
    intro store
    obtain ⟨vs, hlhs, hvs, hcount⟩ := ihl store
    obtain ⟨ws, hrhs, hws, hcount'⟩ := ihr _
    exact ⟨vs ++ ws, .eq hlhs hrhs, hvs.append hws, htwice hcount hcount'⟩
  | refl value ih =>
    intro store
    obtain ⟨vs, hvalue, hvs⟩ := ih store
    exact ⟨vs, .refl hvalue, hvs⟩

end Term

namespace Check

variable {env : Declarations} {function : String}

abbrev Names {α : Type} (decl : String) (x : Check α) (c : Checker)
    (named : List LevelVar → α → Prop) : Prop :=
  Ends x c (fun a c' => ∃ vars, named vars a ∧
    Drawn decl c.solver.levels c'.solver.levels vars) fun _ _ => True

theorem assignLevels_names (decl : String) (t : Term) (c : Checker) :
    Names decl (assignLevels decl t) c t.Named := by
  obtain ⟨vars, hnamed, hdrawn, -⟩ := t.assignLevels_named decl c.solver.levels
  exact ⟨vars, hnamed, hdrawn⟩

theorem checkFallback_names (hyps : Context) (p : Param Term) (c : Checker) :
    Names function (checkFallback env function hyps p) c (Tactic.Named p.fallback) := by
  unfold checkFallback
  split
  · rename_i value hvalue
    refine (assignLevels_names function value c).andThen fun value' c₁ h₁ => ?_
    obtain ⟨vars, hnamed, hvars⟩ := h₁
    have hcompare : Solve.IsRecorded (do
        let type ← Solve.typeOf env hyps value'
        Solve.subsume env hyps type p.type) :=
      .bind (Solve.typeOf_recorded hyps value') fun type => Solve.subsume_recorded hyps type p.type
    have hfits : IsAdvance [] _ := .orFail .missing (.badDefault p.name function) hcompare
    refine (hfits c₁).andThen fun _ c₂ h₂ => ?_
    exact ⟨vars, hvalue ▸ .exact hnamed, hvars.later h₂.levels.issued⟩
  · rename_i hother
    refine ⟨[], ?_, .nil List.suffix_rfl⟩
    rcases hfallback : p.fallback with _ | _ | value
    · exact .none
    · exact .trivial
    · exact absurd hfallback (hother value)

theorem checkParams_names (hyps : Context) (params : List (Param Term)) (c : Checker) :
    Names function (checkParams env function hyps params) c
      fun vars r => Signature.NamedParams params vars r.1 := by
  induction params generalizing hyps c with
  | nil => exact ⟨[], .nil, .nil List.suffix_rfl⟩
  | cons p params ih =>
    rw [checkParams]
    refine (assignLevels_names function p.type c).andThen fun type c₁ h₁ => ?_
    obtain ⟨us, htype, hus⟩ := h₁
    have hlevel :
        IsAdvance [] (orFail .missing (.badParam p.name function) (Solve.levelOf env hyps type)) :=
      .orFail _ _ (Solve.levelOf_recorded hyps type)
    refine (hlevel c₁).andThen fun _ c₂ h₂ => ?_
    refine (checkFallback_names hyps { p with type } c₂).andThen fun fallback c₃ h₃ => ?_
    obtain ⟨vs, hfallback, hvs⟩ := h₃
    refine (ih (hyps.extend p.name type) c₃).andThen fun r c₄ h₄ => ?_
    obtain ⟨ws, hparams, hws⟩ := h₄
    have hdrawn := ((hus.later h₂.levels.issued).append hvs).append hws
    exact ⟨us ++ vs ++ ws, .cons htype hfallback hparams, hdrawn⟩

theorem checkSignature_names (sig : Signature) (c : Checker) :
    Names sig.name (checkSignature env sig) c sig.Named := by
  have hactive : IsAdvance [] requireActive := .requireActive
  refine (hactive c).andThen fun _ c₁ h₁ => ?_
  split
  · exact ends_bind.mpr trivial
  · refine (checkParams_names {} sig.params c₁).andThen fun r c₂ h₂ => ?_
    obtain ⟨vs, hparams, hvs⟩ := h₂
    refine (assignLevels_names sig.name sig.result c₂).andThen fun result c₃ h₃ => ?_
    obtain ⟨ws, hresult, hws⟩ := h₃
    have hlevel :
        IsAdvance [] (orFail .missing (.badResult sig.name) (Solve.levelOf env r.2 result)) :=
      .orFail _ _ (Solve.levelOf_recorded r.2 result)
    refine (hlevel c₃).andThen fun _ c₄ h₄ => ?_
    have hdrawn := (hvs.append hws).later h₄.levels.issued
    exact ⟨vs ++ ws, .intro hparams hresult, (Drawn.nil h₁.levels.issued).append hdrawn⟩

end Check

/-- A signature that passes comes back with its anonymous universes named and with nothing else
changed. Each occurrence gets a variable of its own, which belongs to the declaration and which the
store hands out in the check and has not handed out before. Universes are left without a level only
where they cannot be named, in the types of literals and in the tactics of nested parameters. Where
the signature did not speak of one of the new variables itself, erasing them gives it back. -/
theorem Check.checkSignature_only_names {env : Declarations} {sig checked : Signature}
    {c c' : Checker} (hrun : (checkSignature env sig).run c = (.ok checked, c')) :
    ∃ vars, sig.Named vars checked ∧ checked.hasAnonymous = sig.hidesAnonymous ∧
      (sig.LevelsIn (· ∉ vars) →
        checked.params.map (·.eraseLevels vars) = sig.params.map (·.eraseLevels []) ∧
        checked.result.eraseLevels vars = sig.result.eraseLevels []) ∧
      vars.Nodup ∧
      (∀ v ∈ vars, v.owner = sig.name ∧ v.ofDecl = true ∧ c.solver.levels.nextId ≤ v.id) ∧
      (vars ++ c.solver.levels.issued).Subperm c'.solver.levels.issued ∧
      (c.Begun → vars.Disjoint c.solver.levels.issued) := by
  obtain ⟨vars, hnamed, hdrawn⟩ := (checkSignature_names sig c).of_ok hrun
  refine ⟨vars, hnamed, hnamed.hasAnonymous_eq, hnamed.eraseLevels_eq, hdrawn.nodup, fun v hv => ?_,
    hdrawn.issued, fun hc => hdrawn.disjoint hc.inOrder.numbered⟩
  obtain ⟨i, hi, rfl⟩ := hdrawn.mem v hv
  exact ⟨rfl, rfl, Int.ofNat_le.mpr hi.1⟩

def pickSignature : Signature where
  name := "pick"
  params := [⟨"A", .sort (.unassigned 0), .implicit, none⟩,
    ⟨"F", .pi [⟨"x", .bound "A", .explicit, none⟩, ⟨"B", .sort (.unassigned 1), .explicit, none⟩]
      (.sort (.unassigned 2)), .explicit, none⟩,
    ⟨"C", .sort (.unassigned 3), .default, some (.exact (.sort (.unassigned 4)))⟩,
    ⟨"e", .eq (.sort (.unassigned 5)) (.sort (.unassigned 6)), .auto, none⟩]
  result := .app (.bound "F") [.bound "A", .sort (.unassigned 7)]

def pickChecker : Checker :=
  ((Check.elaborateTop {} (.type none) {} .missing).run (Checker.start {} 0 { owner := "lib" })).2

theorem pickChecker_begun : pickChecker.Begun := by
  have hstart : (Checker.start {} 0 { owner := "lib" }).Begun := .start {} 0 rfl
  have hrun : (Check.elaborateTop {} (.type none) {} .missing).run
      (Checker.start {} 0 { owner := "lib" }) = (_, pickChecker) := rfl
  exact hstart.elaborate hrun

theorem Check.checkSignature_only_names_pick :
    ∃ checked c' vars, (checkSignature {} pickSignature).run pickChecker = (.ok checked, c') ∧
      pickSignature.Named vars checked ∧ checked.hasAnonymous = false ∧
      checked.params.map (·.eraseLevels vars) = pickSignature.params.map (·.eraseLevels []) ∧
      checked.result.eraseLevels vars = pickSignature.result.eraseLevels [] ∧
      vars.Nodup ∧ ⟨"lib", 0, false⟩ ∈ pickChecker.solver.levels.issued ∧
      (⟨"lib", 0, false⟩ : LevelVar) ∉ vars := by
  have hpasses : (match (checkSignature {} pickSignature).run pickChecker with
      | (.ok _, _) => true
      | (.error _, _) => false) = true := by decide +kernel
  have hearlier : ⟨"lib", 0, false⟩ ∈ pickChecker.solver.levels.issued := by decide +kernel
  rcases hrun : (checkSignature {} pickSignature).run pickChecker with ⟨_ | checked, c'⟩
  · rw [hrun] at hpasses
    cases hpasses
  obtain ⟨vars, hnamed, hanonymous, herase, hnodup, -, -, hdisjoint⟩ :=
    checkSignature_only_names hrun
  have hlevels : pickSignature.LevelsIn (· ∉ vars) := by
    constructor <;> simp [pickSignature, Term.levels, Term.levelsArgs, Term.levelsParams]
  obtain ⟨hparams, hresult⟩ := herase hlevels
  refine ⟨checked, c', vars, rfl, hnamed, hanonymous.trans (by decide), hparams, hresult, hnodup,
    hearlier, fun hmem => ?_⟩
  exact hdisjoint pickChecker_begun hmem hearlier

end Implicits
