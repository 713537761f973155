import Implicits.Proofs.Term.Subst
import Implicits.Proofs.Term.Unifier

/-!
Terms up to the names of their parameters. Two terms are compared in a scope that pairs the
parameters around them. Parameters of the second term can be renamed to those of the first one by
substitution, as long as the new names are captured by nothing.
-/
namespace Implicits

/-- The parameters around two terms, in pairs: one group for each function type, innermost first,
and in a group the latest first. -/
abbrev Binders := List (List (String × String))

/-- Whether two names stand for the two parameters of one pair, or are equal and stand for none. -/
def sameName : List (String × String) → String → String → Bool
  | [], m, n => m == n
  | (x, y) :: pairs, m, n => if m = x ∨ n = y then m == x && n == y else sameName pairs m n

/-- Whether a name of the second term can be renamed without capture. If it stands for a parameter,
then no later parameter of the first term has the new name, and in the function types further inside
no parameter of the second term either; a name that stands for none is no parameter of the first
term. `passed` are the pairs further inside. -/
def isClear (passed : List (String × String)) : Binders → String → Bool
  | [], n => passed.all fun e => e.1 != n
  | group :: outer, n =>
    match group.find? fun e => e.2 == n with
    | some e =>
      ((group.takeWhile fun d => d.2 != n).all fun d => d.1 != e.1) &&
        passed.all fun d => d.1 != e.1 && d.2 != e.1
    | none => isClear (passed ++ group) outer n

def pairNames :
    List (String × String) → List (Param Term) → List (Param Term) → List (String × String)
  | group, p :: ps, q :: qs => pairNames ((p.name, q.name) :: group) ps qs
  | group, _, _ => group

namespace Term

mutual

/-- Equality up to the names of parameters. Literals are known by their text, and defaults of
parameters do not count. -/
def alphaEq (scope : Binders) : Term → Term → Bool
  | missing, missing => true
  | const m, const n => m == n
  | lit s _, lit t _ => s == t
  | bound m, bound n => sameName scope.flatten m n
  | hole i, hole j => i == j
  | app f xs, app g ys => f.alphaEq scope g && alphaEqArgs scope xs ys
  | pi ps r, pi qs s =>
    alphaEqParams scope [] ps qs && r.alphaEq (pairNames [] ps qs :: scope) s
  | sort u, sort v => u == v
  | eq l r, eq l' r' => l.alphaEq scope l' && r.alphaEq scope r'
  | refl x, refl y => x.alphaEq scope y
  | _, _ => false

def alphaEqArgs (scope : Binders) : List Term → List Term → Bool
  | [], [] => true
  | x :: xs, y :: ys => x.alphaEq scope y && alphaEqArgs scope xs ys
  | _, _ => false

def alphaEqParams (scope : Binders) (group : List (String × String)) :
    List (Param Term) → List (Param Term) → Bool
  | [], [] => true
  | ⟨m, type, plicity, _⟩ :: ps, q :: qs =>
    plicity == q.plicity && type.alphaEq (group :: scope) q.type &&
      alphaEqParams scope ((m, q.name) :: group) ps qs
  | _, _ => false

end

mutual

/-- Whether the names of the second term can all be renamed without capture, at the places where
they are compared with names of the first one. -/
def captureFree (scope : Binders) : Term → Term → Bool
  | bound _, bound n => isClear [] scope n
  | app f xs, app g ys => f.captureFree scope g && captureFreeArgs scope xs ys
  | pi ps r, pi qs s =>
    ps.length != qs.length ||
      (captureFreeParams scope [] ps qs && r.captureFree (pairNames [] ps qs :: scope) s)
  | eq l r, eq l' r' => l.captureFree scope l' && r.captureFree scope r'
  | refl x, refl y => x.captureFree scope y
  | _, _ => true

def captureFreeArgs (scope : Binders) : List Term → List Term → Bool
  | x :: xs, y :: ys => x.captureFree scope y && captureFreeArgs scope xs ys
  | _, _ => true

def captureFreeParams (scope : Binders) (group : List (String × String)) :
    List (Param Term) → List (Param Term) → Bool
  | ⟨m, type, _, _⟩ :: ps, q :: qs =>
    type.captureFree (group :: scope) q.type && captureFreeParams scope ((m, q.name) :: group) ps qs
  | _, _ => true

end

end Term

section Names

variable {pairs : List (String × String)} {m n : String}

/-- Pairs that mention neither name are passed over. -/
theorem sameName_append (inner outer : List (String × String)) (m n : String) :
    sameName (inner ++ outer) m n =
      if ∃ e ∈ inner, m = e.1 ∨ n = e.2 then sameName inner m n else sameName outer m n := by
  induction inner with
  | nil => simp
  | cons e inner ih =>
    rw [List.cons_append, sameName, sameName]
    by_cases he : m = e.1 ∨ n = e.2
    · rw [if_pos he, if_pos he, if_pos ⟨e, by simp, he⟩]
    · rw [if_neg he, if_neg he, ih]
      exact if_congr (by rw [List.exists_mem_cons_iff, or_iff_right he]) rfl rfl

/-- A name that no second parameter has is equal only to itself, where nothing hides it. -/
theorem sameName_of_not_param (hn : ∀ e ∈ pairs, e.2 ≠ n) :
    sameName pairs m n = decide (m = n ∧ ∀ e ∈ pairs, e.1 ≠ m) := by
  induction pairs with
  | nil => simp [sameName, beq_eq_decide]
  | cons e pairs ih =>
    have hne : n ≠ e.2 := fun h => hn e (by simp) h.symm
    rw [sameName]
    by_cases he : m = e.1
    · simp [he, hne]
    · rw [if_neg (by simp [he, hne]), ih fun d hd => hn d (by simp [hd])]
      refine decide_eq_decide.mpr (and_congr_right fun _ => ?_)
      rw [List.forall_mem_cons]
      exact (and_iff_right (Ne.symm he)).symm

/-- A parameter that no later one hides is matched by the other parameter of its pair. -/
theorem sameName_of_param {later earlier : List (String × String)} {x : String}
    (hn : ∀ e ∈ later, e.2 ≠ n) (hx : ∀ e ∈ later, e.1 ≠ x) :
    sameName (later ++ (x, n) :: earlier) m n = (m == x) := by
  rw [sameName_append]
  by_cases hm : ∃ e ∈ later, m = e.1 ∨ n = e.2
  · obtain ⟨e, he, hme | hne⟩ := hm
    · rw [if_pos ⟨e, he, .inl hme⟩, sameName_of_not_param hn]
      have hmx : m ≠ x := fun h => hx e he (hme.symm.trans h)
      rw [beq_eq_false_iff_ne.mpr hmx]
      exact decide_eq_false fun h => h.2 e he hme.symm
    · exact absurd hne.symm (hn e he)
  · rw [if_neg hm, sameName]
    simp

theorem isClear_of_not_param {passed : List (String × String)} {scope : Binders}
    (hn : ∀ e ∈ scope.flatten, e.2 ≠ n) :
    isClear passed scope n = (passed ++ scope.flatten).all fun e => e.1 != n := by
  induction scope generalizing passed with
  | nil => rw [isClear, List.flatten_nil, List.append_nil]
  | cons group scope ih =>
    have hnone : (group.find? fun e => e.2 == n) = none := by
      rw [List.find?_eq_none]
      intro e he
      simpa using hn e (by simp [he])
    rw [isClear, hnone]
    change isClear (passed ++ group) scope n = _
    rw [ih fun e he => hn e (by simp [List.mem_flatten.mp he]), List.flatten_cons,
      List.append_assoc]

/-- A last group matters only to the names that the groups further inside do not have. -/
theorem isClear_append (passed : List (String × String)) (inner : Binders)
    (group : List (String × String)) (n : String) :
    isClear passed (inner ++ [group]) n =
      if ∃ e ∈ inner.flatten, e.2 = n then isClear passed inner n
      else isClear (passed ++ inner.flatten) [group] n := by
  induction inner generalizing passed with
  | nil => simp
  | cons first inner ih =>
    rw [List.cons_append, isClear, isClear]
    cases hfind : first.find? fun e => e.2 == n with
    | some e =>
      have he : ∃ e ∈ (first :: inner).flatten, e.2 = n := by
        refine ⟨e, ?_, by simpa using List.find?_some hfind⟩
        rw [List.flatten_cons]
        exact List.mem_append_left _ (List.mem_of_find?_eq_some hfind)
      rw [if_pos he]
    | none =>
      have hfirst : ∀ e ∈ first, e.2 ≠ n := by simpa using hfind
      have hiff : (∃ e ∈ (first :: inner).flatten, e.2 = n) ↔ ∃ e ∈ inner.flatten, e.2 = n := by
        rw [List.flatten_cons]
        constructor
        · rintro ⟨e, he, hen⟩
          rcases List.mem_append.mp he with he | he
          · exact absurd hen (hfirst e he)
          · exact ⟨e, he, hen⟩
        · rintro ⟨e, he, hen⟩
          exact ⟨e, List.mem_append_right _ he, hen⟩
      change isClear (passed ++ first) (inner ++ [group]) n = _
      rw [ih, if_congr hiff rfl rfl, List.flatten_cons, List.append_assoc]

end Names

def renameParams (group : List (String × String)) : Substitution :=
  group.map fun e => (e.2, .bound e.1)

theorem lookup_renameParams (group : List (String × String)) (n : String) :
    (renameParams group).lookup n = (group.find? fun e => e.2 == n).map fun e => .bound e.1 := by
  induction group with
  | nil => rfl
  | cons e group ih =>
    unfold renameParams at ih ⊢
    rw [List.map_cons, List.lookup_cons, List.find?_cons, ih, BEq.comm]
    cases e.2 == n with
    | true => rfl
    | false => rfl

def Renames (sub : Substitution) (inner : Binders) (group : List (String × String)) : Prop :=
  ∀ n, sub.lookup n = if ∃ e ∈ inner.flatten, e.2 = n then none else (renameParams group).lookup n

theorem renames_renameParams (group : List (String × String)) :
    Renames (renameParams group) [] group := by
  intro n
  simp

theorem Renames.push {sub : Substitution} {first : List (String × String)} {inner : Binders}
    {group : List (String × String)} (hsub : Renames sub (first :: inner) group)
    (m hidden : String) :
    Renames (sub.without hidden) (((m, hidden) :: first) :: inner) group := by
  intro n
  rw [Substitution.lookup_without, hsub n]
  by_cases hn : n = hidden
  · rw [if_pos hn, if_pos ⟨(m, hidden), by simp, hn.symm⟩]
  · have hiff : (∃ e ∈ (((m, hidden) :: first) :: inner).flatten, e.2 = n) ↔
        ∃ e ∈ (first :: inner).flatten, e.2 = n := by
      simp only [List.flatten_cons, List.cons_append, List.exists_mem_cons_iff]
      exact or_iff_right (Ne.symm hn)
    rw [if_neg hn, if_congr hiff rfl rfl]

theorem Renames.open {sub : Substitution} {inner : Binders} {group : List (String × String)}
    (hsub : Renames sub inner group) : Renames sub ([] :: inner) group := hsub

/-- A name that can be renamed without capture is paired with the same names before and after. -/
theorem sameName_renamed {sub : Substitution} {inner : Binders} {group : List (String × String)}
    (hsub : Renames sub inner group) {n : String}
    (hclear : isClear [] (inner ++ [group]) n = true) :
    ∃ n', (Term.bound n).subst sub = .bound n' ∧ isClear [] inner n' = true ∧
      ∀ m, sameName (inner ++ [group]).flatten m n = sameName inner.flatten m n' := by
  have hflat : (inner ++ [group]).flatten = inner.flatten ++ group := by simp
  rw [isClear_append, List.nil_append] at hclear
  rw [Term.subst, hsub n, hflat]
  by_cases hinner : ∃ e ∈ inner.flatten, e.2 = n
  · -- The name belongs to a function type further inside and stays.
    rw [if_pos hinner] at hclear ⊢
    refine ⟨n, rfl, hclear, fun m => ?_⟩
    obtain ⟨e, he, hen⟩ := hinner
    rw [sameName_append, if_pos ⟨e, he, .inr hen.symm⟩]
  · rw [if_neg hinner] at hclear ⊢
    have hright : ∀ e ∈ inner.flatten, e.2 ≠ n := fun e he hen => hinner ⟨e, he, hen⟩
    rw [lookup_renameParams]
    cases hfind : group.find? fun e => e.2 == n with
    | none =>
      have hgroup : ∀ e ∈ group, e.2 ≠ n := by simpa using hfind
      rw [isClear_of_not_param (by simpa using hgroup), List.flatten_singleton] at hclear
      have hleft : ∀ e ∈ inner.flatten ++ group, e.1 ≠ n := by
        simpa only [List.all_eq_true, bne_iff_ne] using hclear
      refine ⟨n, rfl, ?_, fun m => ?_⟩
      · rw [isClear_of_not_param hright, List.nil_append, List.all_eq_true]
        intro e he
        simpa using hleft e (List.mem_append_left _ he)
      · have hboth : ∀ e ∈ inner.flatten ++ group, e.2 ≠ n := by
          intro e he
          rcases List.mem_append.mp he with he | he
          · exact hright e he
          · exact hgroup e he
        rw [sameName_of_not_param hboth, sameName_of_not_param hright]
        refine decide_eq_decide.mpr (and_congr_right fun hm => ?_)
        subst hm
        exact iff_of_true hleft fun e he => hleft e (List.mem_append_left _ he)
    | some e =>
      obtain ⟨hen, later, earlier, hgroup, hlater⟩ := List.find?_eq_some_iff_append.mp hfind
      obtain ⟨x, y⟩ := e
      obtain rfl : y = n := by simpa using hen
      have hlater : ∀ d ∈ later, d.2 ≠ y := by simpa using hlater
      have htake : (group.takeWhile fun d => d.2 != y) = later := by
        rw [hgroup, List.takeWhile_append_of_pos (by simpa using hlater),
          List.takeWhile_cons_of_neg (by simp), List.append_nil]
      rw [isClear, hfind] at hclear
      simp only [htake, Bool.and_eq_true, List.all_eq_true, bne_iff_ne] at hclear
      obtain ⟨hx, hpassed⟩ := hclear
      have hx' : ∀ d ∈ inner.flatten, d.2 ≠ x := fun d hd => (hpassed d hd).2
      refine ⟨x, rfl, ?_, fun m => ?_⟩
      · rw [isClear_of_not_param hx', List.nil_append, List.all_eq_true]
        intro d hd
        simpa using (hpassed d hd).1
      · rw [sameName_append, hgroup, sameName_of_param hlater hx, sameName_of_not_param hx']
        by_cases hm : ∃ d ∈ inner.flatten, m = d.1 ∨ y = d.2
        · obtain ⟨d, hd, hmd | hyd⟩ := hm
          · rw [if_pos ⟨d, hd, .inl hmd⟩, sameName_of_not_param hright,
              decide_eq_false fun h => h.2 d hd hmd.symm,
              decide_eq_false fun h => h.2 d hd hmd.symm]
          · exact absurd hyd.symm (hright d hd)
        · rw [if_neg hm, beq_eq_decide]
          refine decide_eq_decide.mpr (iff_self_and.mpr fun _ d hd hmd => hm ⟨d, hd, .inl hmd.symm⟩)

theorem pairNames_substParams (sub : Substitution) (group : List (String × String))
    (ps qs : List (Param Term)) :
    pairNames group ps (Term.substParams sub qs) = pairNames group ps qs := by
  induction qs generalizing sub group ps with
  | nil => rfl
  | cons q qs ih =>
    cases ps with
    | nil => rfl
    | cons p ps =>
      rw [Term.substParams, pairNames, pairNames]
      exact ih _ _ _

theorem length_substParams (sub : Substitution) (qs : List (Param Term)) :
    (Term.substParams sub qs).length = qs.length := by
  induction qs generalizing sub with
  | nil => rfl
  | cons q qs ih => rw [Term.substParams, List.length_cons, List.length_cons, ih]

theorem Renames.behind {sub : Substitution} {first : List (String × String)} {inner : Binders}
    {group : List (String × String)} (hsub : Renames sub (first :: inner) group)
    {ps qs : List (Param Term)} (hlen : ps.length = qs.length) :
    Renames (sub.behind qs) (pairNames first ps qs :: inner) group := by
  induction ps generalizing sub first qs with
  | nil =>
    cases qs with
    | nil => exact hsub
    | cons q qs => simp at hlen
  | cons p ps ih =>
    cases qs with
    | nil => simp at hlen
    | cons q qs => exact ih (hsub.push p.name q.name) (by simpa using hlen)

/-- Names are renamed to names. -/
theorem Renames.subst_bound {sub : Substitution} {inner : Binders} {group : List (String × String)}
    (hsub : Renames sub inner group) (n : String) : ∃ n', (Term.bound n).subst sub = .bound n' := by
  rw [Term.subst, hsub n]
  split
  · exact ⟨n, rfl⟩
  · rw [lookup_renameParams]
    cases group.find? fun e => e.2 == n with
    | none => exact ⟨n, rfl⟩
    | some e => exact ⟨e.1, rfl⟩

namespace Term

theorem length_eq_of_alphaEqArgs {scope : Binders} {xs ys : List Term}
    (h : alphaEqArgs scope xs ys = true) : xs.length = ys.length := by
  induction xs generalizing ys with
  | nil =>
    cases ys with
    | nil => rfl
    | cons y ys => simp [alphaEqArgs] at h
  | cons x xs ih =>
    cases ys with
    | nil => simp [alphaEqArgs] at h
    | cons y ys =>
      rw [alphaEqArgs, Bool.and_eq_true] at h
      rw [List.length_cons, List.length_cons, ih h.2]

theorem length_eq_of_alphaEqParams {scope : Binders} {group : List (String × String)}
    {ps qs : List (Param Term)} (h : alphaEqParams scope group ps qs = true) :
    ps.length = qs.length := by
  induction ps generalizing group qs with
  | nil =>
    cases qs with
    | nil => rfl
    | cons q qs => simp [alphaEqParams] at h
  | cons p ps ih =>
    cases qs with
    | nil => simp [alphaEqParams] at h
    | cons q qs =>
      rw [alphaEqParams, Bool.and_eq_true] at h
      rw [List.length_cons, List.length_cons, ih h.2]

/-- Renaming the parameters of an outer function type in a second term leaves the comparison with it
as it is, as long as nothing captures a new name. -/
def ComparesRenamed (group : List (String × String)) (a : Term) : Prop :=
  ∀ (b : Term) (inner : Binders) (sub : Substitution), Renames sub inner group →
    a.captureFree (inner ++ [group]) b = true →
      a.captureFree inner (b.subst sub) = true ∧
        a.alphaEq (inner ++ [group]) b = a.alphaEq inner (b.subst sub)

section Renaming

variable {group : List (String × String)} {inner : Binders} {sub : Substitution}

theorem alphaEqArgs_renamed {xs ys : List Term} (hxs : ∀ x ∈ xs, ComparesRenamed group x)
    (hsub : Renames sub inner group) (hfree : captureFreeArgs (inner ++ [group]) xs ys = true) :
    captureFreeArgs inner xs (substArgs sub ys) = true ∧
      alphaEqArgs (inner ++ [group]) xs ys = alphaEqArgs inner xs (substArgs sub ys) := by
  induction xs generalizing ys with
  | nil =>
    cases ys with
    | nil => exact ⟨rfl, rfl⟩
    | cons y ys => simp [substArgs, captureFreeArgs, alphaEqArgs]
  | cons x xs ih =>
    cases ys with
    | nil => simp [substArgs, captureFreeArgs, alphaEqArgs]
    | cons y ys =>
      rw [captureFreeArgs, Bool.and_eq_true] at hfree
      obtain ⟨hx, hxeq⟩ := hxs x (by simp) y inner sub hsub hfree.1
      obtain ⟨hrest, hresteq⟩ := ih (fun x hx => hxs x (by simp [hx])) hfree.2
      rw [substArgs, captureFreeArgs, alphaEqArgs, alphaEqArgs, hx, hrest, hxeq, hresteq]
      exact ⟨rfl, rfl⟩

/-- The group of the function types grows parameter by parameter, and hides names from the renaming.
-/
theorem alphaEqParams_renamed {ps qs : List (Param Term)} {first : List (String × String)}
    (hps : ∀ p ∈ ps, ComparesRenamed group p.type) (hsub : Renames sub (first :: inner) group)
    (hfree : captureFreeParams (inner ++ [group]) first ps qs = true) :
    captureFreeParams inner first ps (substParams sub qs) = true ∧
      alphaEqParams (inner ++ [group]) first ps qs =
        alphaEqParams inner first ps (substParams sub qs) := by
  induction ps generalizing qs first sub with
  | nil =>
    cases qs with
    | nil => exact ⟨rfl, rfl⟩
    | cons q qs => simp [substParams, captureFreeParams, alphaEqParams]
  | cons p ps ih =>
    cases qs with
    | nil => simp [substParams, captureFreeParams, alphaEqParams]
    | cons q qs =>
      rw [captureFreeParams, Bool.and_eq_true] at hfree
      obtain ⟨htype, htypeeq⟩ := hps p (by simp) q.type (first :: inner) sub hsub hfree.1
      obtain ⟨hrest, hresteq⟩ :=
        ih (fun p hp => hps p (by simp [hp])) (hsub.push p.name q.name) hfree.2
      rw [List.cons_append] at htypeeq
      rw [substParams, captureFreeParams, alphaEqParams, alphaEqParams, htypeeq,
        hresteq, htype, hrest]
      exact ⟨rfl, rfl⟩

/-- Function types with different numbers of parameters differ before and after. -/
theorem alphaEq_renamed_pi {params qs : List (Param Term)} {result result' : Term}
    (hparams : ∀ p ∈ params, ComparesRenamed group p.type) (hresult : ComparesRenamed group result)
    (hsub : Renames sub inner group)
    (hfree : (pi params result).captureFree (inner ++ [group]) (pi qs result') = true) :
    (pi params result).captureFree inner ((pi qs result').subst sub) = true ∧
      (pi params result).alphaEq (inner ++ [group]) (pi qs result') =
        (pi params result).alphaEq inner ((pi qs result').subst sub) := by
  rw [subst, captureFree, alphaEq, alphaEq, length_substParams, pairNames_substParams]
  by_cases hlen : params.length = qs.length
  · rw [captureFree, bne_eq_false_iff_eq.mpr hlen, Bool.false_or, Bool.and_eq_true] at hfree
    obtain ⟨hps, hpseq⟩ := alphaEqParams_renamed hparams hsub.open hfree.1
    obtain ⟨hbody, hbodyeq⟩ := hresult result' _ _ (hsub.open.behind hlen) hfree.2
    rw [List.cons_append] at hbodyeq
    rw [bne_eq_false_iff_eq.mpr hlen, hps, hpseq, hbody, hbodyeq]
    exact ⟨rfl, rfl⟩
  · have hdiffer : ∀ scope qs', qs'.length = qs.length →
        alphaEqParams scope [] params qs' = false := by
      intro scope qs' hqs'
      rw [← Bool.not_eq_true]
      exact fun h => hlen ((length_eq_of_alphaEqParams h).trans hqs')
    rw [hdiffer _ _ rfl, hdiffer _ _ (length_substParams sub qs), bne_iff_ne.mpr hlen]
    exact ⟨rfl, rfl⟩

/-- A name is renamed to a name, so it differs from all other terms before and after. -/
theorem alphaEq_renamed_bound (a : Term) {n : String} (hsub : Renames sub inner group)
    (hfree : a.captureFree (inner ++ [group]) (bound n) = true) :
    a.captureFree inner ((bound n).subst sub) = true ∧
      a.alphaEq (inner ++ [group]) (bound n) = a.alphaEq inner ((bound n).subst sub) := by
  cases a with
  | bound name =>
    rw [captureFree] at hfree
    obtain ⟨n', hn', hclear, hsame⟩ := sameName_renamed hsub hfree
    rw [hn', captureFree, alphaEq, alphaEq]
    exact ⟨hclear, hsame name⟩
  | _ =>
    obtain ⟨n', hn'⟩ := hsub.subst_bound n
    simp [hn', captureFree, alphaEq]

theorem comparesRenamed (group : List (String × String)) (a : Term) : ComparesRenamed group a := by
  induction a using induct with
  | missing | const | lit | bound | hole | sort =>
    intro b inner sub hsub hfree
    cases b with
    | bound n => exact alphaEq_renamed_bound _ hsub hfree
    | _ => simp [subst, captureFree, alphaEq]
  | app fn args ihf ihargs =>
    intro b inner sub hsub hfree
    cases b with
    | bound n => exact alphaEq_renamed_bound _ hsub hfree
    | app gn brgs =>
      rw [captureFree, Bool.and_eq_true] at hfree
      obtain ⟨hfn, hfneq⟩ := ihf gn inner sub hsub hfree.1
      obtain ⟨hargs, hargseq⟩ := alphaEqArgs_renamed ihargs hsub hfree.2
      rw [subst, captureFree, alphaEq, alphaEq, hfn, hargs, hfneq, hargseq]
      exact ⟨rfl, rfl⟩
    | _ => simp [subst, captureFree, alphaEq]
  | pi params result ihparams ihr =>
    intro b inner sub hsub hfree
    cases b with
    | bound n => exact alphaEq_renamed_bound _ hsub hfree
    | pi qs result' => exact alphaEq_renamed_pi ihparams ihr hsub hfree
    | _ => simp [subst, captureFree, alphaEq]
  | eq lhs rhs ihl ihr =>
    intro b inner sub hsub hfree
    cases b with
    | bound n => exact alphaEq_renamed_bound _ hsub hfree
    | eq lhs' rhs' =>
      rw [captureFree, Bool.and_eq_true] at hfree
      obtain ⟨hl, hleq⟩ := ihl lhs' inner sub hsub hfree.1
      obtain ⟨hr, hreq⟩ := ihr rhs' inner sub hsub hfree.2
      rw [subst, captureFree, alphaEq, alphaEq, hl, hr, hleq, hreq]
      exact ⟨rfl, rfl⟩
    | _ => simp [subst, captureFree, alphaEq]
  | refl value ih =>
    intro b inner sub hsub hfree
    cases b with
    | bound n => exact alphaEq_renamed_bound _ hsub hfree
    | refl value' =>
      rw [captureFree] at hfree
      rw [subst, captureFree, alphaEq, alphaEq]
      exact ih value' inner sub hsub hfree
    | _ => simp [subst, captureFree, alphaEq]

/-- Comparing under one group is comparing with the parameters of the group renamed. -/
theorem alphaEq_renamed {a b : Term} (hfree : a.captureFree [group] b = true) :
    a.captureFree [] (b.subst (renameParams group)) = true ∧
      a.alphaEq [group] b = a.alphaEq [] (b.subst (renameParams group)) :=
  comparesRenamed group a b [] _ (renames_renameParams group) hfree

end Renaming

end Term

end Implicits
