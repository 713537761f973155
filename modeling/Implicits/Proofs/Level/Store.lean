import Implicits.Proofs.Solver.State

/-!
The constraint store as a list with a set beside it. Whatever is added, dropped and forgotten, in
any order, the list holds each constraint once and no trivial one, and the set holds what the list
holds. So the set is determined by the list, and a truncation that gives the earlier list back gives
the earlier set back as well.
-/
namespace Implicits

namespace LevelStore

inductive Request where
  | lt (lo hi : Level) (origin : String)
  | le (lo hi : Level) (origin : String)
  | equate (a b : Level) (origin : String)
  /-- A term at one level is used where another level is required. -/
  | cumulative (observed required : Level) (origin : String)
  | importAll (cs : List Constraint)
  | fresh
  | freshFor (decl : String)
  | truncate (n : Nat)
  | reset

def Request.perform (s : LevelStore) : Request → LevelStore
  | lt lo hi origin => s.lt lo hi origin
  | le lo hi origin => s.le lo hi origin
  | equate a b origin => s.equate a b origin
  | cumulative observed required origin => s.le observed required origin
  | importAll cs => s.importAll cs
  | fresh => s.fresh.2
  | freshFor decl => (s.freshFor decl).2
  | truncate n => s.truncate n
  | reset => s.reset

def performAll (s : LevelStore) (requests : List Request) : LevelStore :=
  requests.foldl Request.perform s

/-- A request that drops none of the first `n` constraints. -/
def Request.Spares (n : Nat) : Request → Prop
  | truncate m => n ≤ m
  | reset => False
  | _ => True

/-- The list holds each constraint once and no trivial one, and the set holds what the list holds.
-/
structure Tidy (s : LevelStore) : Prop where
  nodup : s.constraints.Nodup
  nontrivial : ∀ c ∈ s.constraints, c.isTrivial = false
  seen : s.seen = s.constraints.reverse

variable {s s' : LevelStore}

namespace Tidy

theorem of_empty (hlist : s.constraints = []) (hset : s.seen = []) : s.Tidy :=
  ⟨by simp [hlist], by simp [hlist], by simp [hlist, hset]⟩

theorem mem_seen (h : s.Tidy) (c : Constraint) : c ∈ s.seen ↔ c ∈ s.constraints := by
  rw [h.seen, List.mem_reverse]

/-- A constraint that is new and not trivial goes to the end of the list. -/
theorem constraints_add (h : s.Tidy) {c : Constraint} (htrivial : c.isTrivial = false)
    (hnew : c ∉ s.constraints) : (s.add c).constraints = s.constraints ++ [c] := by
  have hseen : c ∉ s.seen := fun hc => hnew ((h.mem_seen c).mp hc)
  simp [LevelStore.add, htrivial, hseen]

theorem add (h : s.Tidy) (c : Constraint) : (s.add c).Tidy := by
  by_cases hrefused : (c.isTrivial || s.seen.contains c) = true
  · rwa [LevelStore.add, if_pos hrefused]
  · rw [LevelStore.add, if_neg hrefused]
    simp only [Bool.or_eq_true, List.contains_iff_mem, not_or, Bool.not_eq_true] at hrefused
    obtain ⟨htrivial, hnew⟩ := hrefused
    refine ⟨?_, ?_, by simp [h.seen]⟩
    · refine List.nodup_append.mpr ⟨h.nodup, List.nodup_singleton c, ?_⟩
      rintro x hx y hy rfl
      rw [List.mem_singleton.mp hy] at hx
      exact hnew ((h.mem_seen c).mpr hx)
    · intro x hx
      rcases List.mem_append.mp hx with hx | hx
      · exact h.nontrivial x hx
      · exact List.mem_singleton.mp hx ▸ htrivial

theorem importAll (h : s.Tidy) (cs : List Constraint) : (s.importAll cs).Tidy := by
  unfold LevelStore.importAll
  induction cs generalizing s with
  | nil => exact h
  | cons c cs ih => exact ih (h.add c)

/-- Truncation takes the same constraints out of the list and out of the set. -/
theorem truncate (h : s.Tidy) (n : Nat) : (s.truncate n).Tidy where
  nodup := h.nodup.sublist (List.take_sublist n _)
  nontrivial c hc := h.nontrivial c (List.mem_of_mem_take hc)
  seen := by
    have hsplit : s.seen = (s.constraints.drop n).reverse ++ (s.constraints.take n).reverse := by
      rw [h.seen, ← List.reverse_append, List.take_append_drop]
    change (s.constraints.drop n).foldl List.erase s.seen = (s.constraints.take n).reverse
    rw [hsplit]
    exact Entered.foldl_erase _ (h.nodup.sublist (List.drop_sublist n _))

theorem perform (h : s.Tidy) (request : Request) : (request.perform s).Tidy := by
  cases request with
  | lt lo hi origin => exact h.add _
  | le lo hi origin => exact h.add _
  | equate a b origin => exact (h.add _).add _
  | cumulative observed required origin => exact h.add _
  | importAll cs => exact h.importAll cs
  | fresh => exact ⟨h.nodup, h.nontrivial, h.seen⟩
  | freshFor decl => exact ⟨h.nodup, h.nontrivial, h.seen⟩
  | truncate n => exact h.truncate n
  | reset => exact .of_empty rfl rfl

theorem performAll (h : s.Tidy) (requests : List Request) : (s.performAll requests).Tidy := by
  induction requests generalizing s with
  | nil => exact h
  | cons request requests ih => exact ih (h.perform request)

/-- Truncation to the length of an earlier list that is still there. -/
theorem truncate_size (h : s.Tidy) (h' : s'.Tidy) (hkept : s.constraints <+: s'.constraints) :
    (s'.truncate s.size).constraints = s.constraints ∧ (s'.truncate s.size).seen = s.seen := by
  have hlist : (s'.truncate s.size).constraints = s.constraints :=
    (List.prefix_iff_eq_take.mp hkept).symm
  exact ⟨hlist, by rw [(h'.truncate s.size).seen, hlist, h.seen]⟩

end Tidy

/-- What is at the front of the list stays there under requests that spare it. -/
theorem Request.Spares.isPrefix {front : List Constraint} {request : Request}
    (h : request.Spares front.length) (hfront : front <+: s.constraints) :
    front <+: (request.perform s).constraints := by
  cases request with
  | lt lo hi origin => exact hfront.trans (Grows.lt s lo hi origin).constraints
  | le lo hi origin => exact hfront.trans (Grows.le s lo hi origin).constraints
  | equate a b origin => exact hfront.trans (Grows.equate s a b origin).constraints
  | cumulative observed required origin =>
    exact hfront.trans (Grows.le s observed required origin).constraints
  | importAll cs => exact hfront.trans (Grows.importAll s cs).constraints
  | fresh => exact hfront
  | freshFor decl => exact hfront
  | truncate m =>
    rw [List.prefix_iff_eq_take.mp hfront]
    exact List.take_prefix_take_left h
  | reset => exact h.elim

theorem isPrefix_performAll {front : List Constraint} {requests : List Request}
    (h : ∀ request ∈ requests, request.Spares front.length) (hfront : front <+: s.constraints) :
    front <+: (s.performAll requests).constraints := by
  induction requests generalizing s with
  | nil => exact hfront
  | cons request requests ih =>
    refine ih (fun r hr => h r (List.mem_cons_of_mem _ hr)) ?_
    exact (h request List.mem_cons_self).isPrefix hfront

/-- The store keeps its representation and truncates exactly. After any requests to a new store, the
list holds each constraint once and none of a level with itself that is not strict, and the set is a
set of exactly these. If then requests follow that spare these constraints, truncation to their
number gives back the list and the set, and whatever was entered in between, also if it was dropped
again before, can be entered again. -/
theorem truncate_exact {name : String} {new s : LevelStore}
    (hnew : new = { owner := name } ∨ new = forDecl name) {requests : List Request}
    (hs : new.performAll requests = s) :
    s.constraints.Nodup ∧
    (∀ l origin, (⟨l, l, false, origin⟩ : Constraint) ∉ s.constraints) ∧
    s.seen.Nodup ∧ (∀ c, c ∈ s.seen ↔ c ∈ s.constraints) ∧
    ∀ more : List Request, (∀ request ∈ more, request.Spares s.size) →
      ((s.performAll more).truncate s.size).constraints = s.constraints ∧
      ((s.performAll more).truncate s.size).seen = s.seen ∧
      ∀ done, done <+: more → ∀ c ∈ (s.performAll done).constraints, c ∉ s.constraints →
        (((s.performAll more).truncate s.size).add c).constraints = s.constraints ++ [c] := by
  have hempty : new.Tidy := by
    rcases hnew with rfl | rfl
    · exact .of_empty rfl rfl
    · exact .of_empty rfl rfl
  have htidy : s.Tidy := hs ▸ hempty.performAll requests
  refine ⟨htidy.nodup, fun l origin hl => ?_, ?_, htidy.mem_seen, fun more hmore => ?_⟩
  · simpa [Constraint.isTrivial] using htidy.nontrivial _ hl
  · rw [htidy.seen]
    exact List.nodup_reverse.mpr htidy.nodup
  · have hback := htidy.truncate_size (htidy.performAll more)
      (isPrefix_performAll hmore (List.prefix_refl _))
    refine ⟨hback.1, hback.2, fun done _ c hc hentered => ?_⟩
    have htrivial := (htidy.performAll done).nontrivial c hc
    rw [← hback.1] at hentered ⊢
    exact ((htidy.performAll more).truncate s.size).constraints_add htrivial hentered

def ordered : Constraint := ⟨.var ⟨"k", 0, true⟩, .var ⟨"k", 1, true⟩, false, "twice"⟩

/-- A constraint is entered behind another one and dropped, then imported together with the first
one, which is there already. Truncation drops it again, and it can be entered a third time. -/
theorem truncate_exact_imported : ∃ first : Constraint, ∃ s more,
    (forDecl "k").performAll [.fresh, .lt first.lo first.hi "once", .fresh] = s ∧
    (∀ request ∈ more, request.Spares s.size) ∧
    (s.performAll more).constraints = [first, ordered, ⟨ordered.hi, ordered.lo, false, "twice"⟩] ∧
    ((s.performAll more).truncate s.size).constraints = [first] ∧
    (((s.performAll more).truncate s.size).add ordered).constraints = [first, ordered] := by
  let first : Constraint := ⟨.const 0, .var ⟨"k", 0, true⟩, true, "once"⟩
  let more : List Request :=
    [.le ordered.lo ordered.hi "twice", .truncate 1, .importAll [first, ordered],
      .equate ordered.lo ordered.hi "twice", .cumulative (.const 0) (.const 0) "self"]
  have hmore : ∀ request ∈ more, request.Spares 1 := by simp [more, Request.Spares]
  obtain ⟨-, -, -, -, hexact⟩ := truncate_exact (.inr rfl : forDecl "k" = _ ∨ _ = forDecl "k")
    (rfl : (forDecl "k").performAll [.fresh, .lt first.lo first.hi "once", .fresh] = _)
  obtain ⟨hlist, -, hagain⟩ := hexact more hmore
  refine ⟨first, _, more, rfl, hmore, by decide, hlist, ?_⟩
  exact hagain more (List.prefix_refl _) ordered (by decide) (by decide)

end LevelStore

end Implicits
