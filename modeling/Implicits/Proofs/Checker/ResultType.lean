import Implicits.Proofs.Session.Calls
import Implicits.Proofs.Solver.Normalize
import Implicits.Proofs.Term.Subst
import Implicits.Proofs.Term.Unifier

/-!
The type that a completed call is given is the type of its term. A call puts holes in for the names
of its parameters before they are solved, the typing of its term puts in the finished arguments;
both are read alike.
-/
namespace Implicits

open Term

namespace Holes.Sound

variable {σ : Scope} {n : Stage} {h : Holes} {t : Term}

/-- A term that has been read through the table is not changed by reading it once more. -/
theorem expand_deref (hh : h.Sound σ n) (hσ : σ.isSealed) (ht : t.Scoped σ n) :
    h.expand (h.deref t) = h.deref t := by
  have hscoped := hh.deref ht
  have hopen : ∀ i, (h.deref t).Shows i → h.expand (.hole i) = .hole i := by
    intro i hi
    rw [hh.deref_eq_expand hσ ht, shows_expand fun j hj => hh.grounded_of_shows ht hj] at hi
    exact expand_of_open hi.1
  rw [expand_eq_fill, fill_congr hopen, fill_hole]

/-- Reading a term without holes in which terms have been put in for names is reading these terms.
-/
theorem deref_subst (hh : h.Sound σ n) (hσ : σ.isSealed) (ht : t.HoleFree) (hscoped : t.Scoped σ n)
    {sub : Substitution} (hsub : ∀ entry ∈ sub, entry.2.Scoped σ n) :
    h.deref (t.subst sub) = t.subst (sub.mapTerms h.expand) := by
  have hexpand : h.expand = Term.fill false fun i => h.expand (.hole i) :=
    funext fun u => h.expand_eq_fill u
  rw [hh.deref_eq_expand hσ (hscoped.subst hsub), expand_eq_fill, ht.fill_subst false, ← hexpand]

end Holes.Sound

namespace Signature

/-- Terms put in for the names of the parameters; the last parameter of a name counts. -/
def bindings (sig : Signature) (args : List Term) : Substitution :=
  ((sig.params.map (·.name)).zip args).reverse

theorem bindings_map (sig : Signature) (f : Term → Term) (args : List Term) :
    sig.bindings (args.map f) = (sig.bindings args).mapTerms f := by
  simp only [bindings, Substitution.mapTerms, List.zip_map_right, List.map_reverse]
  rfl

theorem mem_of_mem_bindings {sig : Signature} {args : List Term} {entry : String × Term}
    (h : entry ∈ sig.bindings args) : entry.2 ∈ args :=
  (List.of_mem_zip (List.mem_reverse.mp h)).2

def call (sig : Signature) (args : List Term) : Term :=
  if args.isEmpty then .const sig.name else .app (.const sig.name) args

theorem expand_call (sig : Signature) (h : Holes) (args : List Term) :
    h.expand (sig.call args) = sig.call (args.map h.expand) := by
  rw [Holes.expand_eq_fill]
  unfold call
  cases args with
  | nil => rfl
  | cons a args =>
    have hread : ∀ b : Term, b.fill false (fun i => h.expand (.hole i)) = h.expand b :=
      fun b => (h.expand_eq_fill b).symm
    change Term.app _ (fillArgs false _ (a :: args)) = _
    rw [fillArgs_eq_map, List.map_congr_left fun b _ => hread b]
    rfl

theorem call_scoped {σ : Scope} {n : Stage} (sig : Signature) {args : List Term}
    (hargs : ∀ a ∈ args, a.Scoped σ n) : (sig.call args).Scoped σ n := by
  unfold call
  split
  · exact .const
  · exact .app (fun _ => ⟨sig.name, rfl⟩) .const hargs

end Signature

namespace Solve

variable {env : Declarations} {s : Solver} {sig : Signature}

/-- The type of a declared name. -/
theorem infer_const (hsig : env.signature? sig.name = some sig)
    (levelOfType : Context → Term → Solve Level) (hyps : Context) :
    Ends (infer env levelOfType hyps (.const sig.name)) s
      (fun u s' => u = sig.type ∧ s'.holes = s.holes) fun _ _ => False := by
  have hholes : (s.importSignature sig).holes = s.holes := by
    unfold Solver.importSignature
    split
    · rfl
    · rfl
  simp only [infer, lookupSignature?, hsig]
  exact ⟨rfl, hholes⟩

/-- The type of a call is the result type with the arguments put in for the names of the parameters.
-/
theorem typeOf_call (henv : ∀ name args, env.reduce? name args = none)
    (hsig : env.signature? sig.name = some sig) (hfree : sig.HoleFree) {args : List Term}
    (hlen : args.length = sig.params.length) (hargs : args.map s.holes.expand = args)
    (hyps : Context) :
    Ends (typeOf env hyps (sig.call args)) s
      (fun u s' => u = sig.result.subst (sig.bindings args) ∧ s'.holes = s.holes)
      fun _ _ => False := by
  have hexpand : s.holes.expand (sig.call args) = sig.call args := by
    rw [sig.expand_call, hargs]
  unfold typeOf
  rw [ends_bind, ends_holes, hexpand]
  have hsteps : typeSteps + (sig.call args).size = 4095 + (sig.call args).size + 1 := by
    unfold typeSteps
    omega
  rw [hsteps, typeOfN, ends_bind, ends_holes, hexpand]
  cases args with
  | nil =>
    have hnone : sig.params = [] := List.length_eq_zero_iff.mp hlen.symm
    refine Ends.mono (infer_const hsig _ hyps) (fun u s' h => ?_) fun _ _ h => h
    refine ⟨?_, h.2⟩
    rw [h.1, Signature.type, hnone, Signature.bindings, List.zip_nil_right, List.reverse_nil,
      subst_nil]
    rfl
  | cons a args =>
    have hsome : sig.params.isEmpty = false := by
      rw [List.isEmpty_eq_false_iff, ← List.length_pos_iff, ← hlen]
      exact Nat.succ_pos _
    have hcall : sig.call (a :: args) = .app (.const sig.name) (a :: args) := rfl
    rw [hcall, infer, ends_bind]
    refine Ends.mono (infer_const hsig _ hyps) (fun fnType s' h => ?_) fun _ _ h => h
    obtain ⟨rfl, hholes⟩ := h
    have hnormal : s'.holes.normalize env sig.type = .pi sig.params sig.result := by
      rw [Holes.normalize_eq_expand henv, Signature.type, hsome]
      exact Holes.expand_of_holeFree _ hfree
    have hdrop : sig.params.drop (a :: args).length = [] := by
      rw [hlen, List.drop_length]
    unfold applyType
    rw [ends_bind, ends_holes]
    simp only [hnormal]
    rw [if_neg (Nat.not_lt.mpr (Nat.le_of_eq hlen)), hdrop]
    refine ⟨?_, hholes⟩
    exact Holes.subst_of_expand (Holes.expand_of_holeFree _ hfree.closedOver.result.holeFree) _

end Solve

namespace Check

def IsReferable (name : String) : Prop := name ≠ "" ∧ name ≠ "_"

variable {env : Declarations} {c : Checker} {sig : Signature}

/-- The names of a call stand for its holes. -/
theorem makeHoles_ends (params : List (Param Term)) (sub : Substitution) :
    Ends (makeHoles params sub) c (fun r c' =>
      r.1 = List.range' c.solver.holes.size params.length ∧
      c'.solver.holes.size = c.solver.holes.size + params.length ∧
      ∀ name, IsReferable name → r.2.lookup name =
        (((params.map (·.name)).zip (r.1.map Term.hole)).reverse ++ sub).lookup name)
      fun _ _ => False := by
  induction params generalizing c sub with
  | nil => exact ⟨rfl, rfl, fun _ _ => rfl⟩
  | cons p params ih =>
    -- The new hole is the next one.
    have hsize : ((c.solver.addHole p.name (c.solver.holes.subst sub p.type)).2).holes.size =
        c.solver.holes.size + 1 := Holes.size_add _ _ _ _
    change Ends (makeHoles params (if p.isAnonymous then sub
      else (p.name, .hole c.solver.holes.size) :: sub) >>= fun r =>
        pure (c.solver.holes.size :: r.1, r.2))
      { c with solver := (c.solver.addHole p.name (c.solver.holes.subst sub p.type)).2 } _ _
    rw [ends_bind]
    refine Ends.mono (ih _) (fun r c' h => ?_) fun _ _ h => h
    obtain ⟨hids, hsize', hlookup⟩ := h
    rw [hsize] at hids hsize'
    refine ⟨?_, ?_, fun name hname => ?_⟩
    · rw [hids, List.length_cons, List.range'_succ]
    · rw [hsize', List.length_cons]
      omega
    · have hsub : (if p.isAnonymous then sub else
          (p.name, Term.hole c.solver.holes.size) :: sub).lookup name =
          ([(p.name, Term.hole c.solver.holes.size)] ++ sub).lookup name := by
        split
        · rename_i hanonymous
          have hne : name ≠ p.name := by
            rintro rfl
            simp only [Param.isAnonymous, Bool.or_eq_true, beq_iff_eq] at hanonymous
            exact hanonymous.elim hname.1 hname.2
          have hbeq : (name == p.name) = false := by simpa using hne
          rw [List.singleton_append, List.lookup_cons, hbeq]
        · rfl
      rw [hlookup name hname, List.map_cons, List.map_cons, List.zip_cons_cons, List.reverse_cons,
        List.append_assoc, List.lookup_append, List.lookup_append]
      exact congrArg _ hsub

/-- What a call gives back before its holes are read: the term of the call and the result type with
the holes put in for the names of the parameters. -/
structure Returns (sig : Signature) (n : Nat) (r : Resolved) : Prop where
  args : r.args = (List.range' n sig.params.length).map Term.hole
  term : r.term = sig.call r.args
  type : ∃ h sub, r.type = Holes.subst h sub sig.result ∧
    ∀ name, IsReferable name → sub.lookup name = (sig.bindings r.args).lookup name

theorem resolve_returns (site : Expr) (args : List (Arg (Option Supplied))) (nested : Bool)
    (hyps : Context) (expected : Term) :
    Ends (resolve env site sig args nested hyps expected) c
      (fun r _ => Returns sig c.solver.holes.size r) fun _ _ => True := by
  have himport : (c.solver.importSignature sig).holes = c.solver.holes := by
    unfold Solver.importSignature
    split
    · rfl
    · rfl
  unfold resolve
  rw [ends_bind, ends_modify]
  split
  · trivial
  · refine (makeHoles_ends sig.params []).andThen fun ⟨ids, sub⟩ c₁ h => ?_
    obtain ⟨hids, -, hlookup⟩ := h
    rw [himport] at hids
    refine (ends_trivial _ _).andThen fun h c₂ _ => ?_
    refine (ends_trivial _ _).andThen fun _ c₃ _ => ?_
    refine (ends_trivial _ _).andThen fun ⟨obligations, openObligations⟩ c₄ _ => ?_
    refine ⟨congrArg _ hids, rfl, h, sub, rfl, fun name hname => ?_⟩
    rw [hlookup name hname, List.append_nil]
    rfl

/-- The end of a call leaves the solver as it is. -/
theorem finishPending_ends {σ : Scope} {outer : Context} {L : Ledger env σ outer}
    (hc : L.Valid c.solver) :
    Ends finishPending c (fun _ c' => c'.solver = c.solver ∧ c.Continues c') fun _ _ => True := by
  unfold finishPending
  rw [ends_bind, ends_get, ends_bind, ends_modify]
  apply Ends.mono (finishAll_checks (c := { c with pending := [] }) hc c.pending)
  · intro _ c' h
    obtain ⟨-, hstep, hsolver, -⟩ := h
    exact ⟨hsolver, hstep.options, hstep.session, hstep.own⟩
  · exact fun _ _ _ => trivial

/-- What a call gives back is read through the holes in the end. Whatever the table holds, the call
is about holes that it makes itself. -/
theorem resolveTop_returns (c : Checker) (henv : env.HoleFree) (hsig : sig.HoleFree)
    {args : List (Arg Expr)} (hargs : ∀ a ∈ args, a.value.HoleFree) {hyps : Context}
    (hhyps : hyps.HoleFree) {expected : Term} (hexpected : expected.HoleFree) :
    Ends (resolveTop env sig args hyps expected) c (fun r c' =>
      c'.solver.Sound (.unit c.solver.holes.size) ∧ c.Continues c' ∧
      ∃ r', Completes (.unit c.solver.holes.size) c.solver sig r' c'.solver ∧
        Returns sig c.solver.holes.size r' ∧ r.term = c'.solver.holes.deref r'.term ∧
        r.type = c'.solver.holes.deref r'.type) fun _ _ => True := by
  obtain ⟨base, hbase⟩ : ∃ base, base = c.solver.holes.size := ⟨_, rfl⟩
  have hvalid : (Ledger.empty env (.unit base) hyps).Valid c.solver :=
    ⟨Solver.sound_unit (c.solver.holes.sound_start hbase _), trivial⟩
  nth_rewrite 1 2 [← hbase]
  have hsupplied := forall_suppliedArgs (Ledger.empty env (.unit base) hyps).Elaborates fun a ha =>
    elaborate_elaborates (henv.within base) (hhyps.within base) ((hargs a ha).within base)
  unfold resolveTop
  refine Ends.andThen (Ledger.Checks.requireActive hvalid) fun _ c₁ h₁ => ?_
  obtain ⟨-, -, rfl⟩ := h₁
  refine (Ends.and (resolve_checks (henv.within base) (hhyps.within base) (hsig.within base)
    hsupplied _ false hvalid (hexpected.within_unit base _)) (resolve_returns _ _ _ _ _)).andThen
    fun r c₂ h₂ => ?_
  obtain ⟨⟨hvalid₂, hstep₂, hcompletes, -⟩, hreturns⟩ := h₂
  refine (finishPending_ends hvalid₂).andThen fun _ c₃ h₃ => ?_
  obtain ⟨hsolver, hstep₃⟩ := h₃
  refine ⟨hsolver ▸ hvalid₂.sound, hstep₂.toContinues.trans hstep₃, r, ?_, hreturns, rfl, rfl⟩
  rwa [hsolver]

/-- The resolver and the typing of terms agree. If a checker in any state sees no reduction rules
and no holes in what is declared, and a call of a signature that it sees succeeds, then the term
that the call gives back has a type, and this is read as the type that the call gives back. -/
theorem typeOf_resolved {t : Sessions} {c : Checker} (henv : (t.environment c).HoleFree)
    (hrules : (t.environment c).reductions = []) {sig : Signature}
    (hsig : (t.environment c).signature? sig.name = some sig)
    (hnames : sig.result.mentions "_" = false ∧ sig.result.mentions "" = false)
    {args : List (Arg Expr)} (hargs : ∀ a ∈ args, a.value.HoleFree) {hyps : Context}
    (hhyps : hyps.HoleFree) {expected : Term} (hexpected : expected.HoleFree) {r : Resolved}
    {c' : Checker}
    (hrun : (resolveTop (t.environment c) sig args hyps expected).run c = (.ok r, c')) :
    ∃ u s, (Solve.typeOf (t.environment c') hyps r.term).run c'.solver = (.ok u, s) ∧
      s.holes.deref u = r.type := by
  have hfree : sig.HoleFree := henv.signature sig (Declarations.mem_of_signature? hsig)
  have hresult := hfree.closedOver.result.holeFree
  obtain ⟨hsound, hstep, r', hcompletes, hreturns, hterm, htype⟩ :=
    (resolveTop_returns c henv hfree hargs hhyps hexpected).of_ok hrun
  generalize c.solver.holes.size = base at hsound hcompletes
  have htable := hsound.table
  rw [hstep.environment]
  -- The arguments as they are read in the end.
  have hderef : ∀ a ∈ r'.args, c'.solver.holes.deref a = c'.solver.holes.expand a :=
    fun a ha => htable.deref_eq_expand trivial (hcompletes.args_scoped a ha)
  have hread : ∀ a ∈ r'.args, c'.solver.holes.expand (c'.solver.holes.expand a) =
      c'.solver.holes.expand a := by
    intro a ha
    rw [← hderef a ha]
    exact htable.expand_deref trivial (hcompletes.args_scoped a ha)
  have hcall : r.term = sig.call (r'.args.map c'.solver.holes.expand) := by
    rw [hterm, hreturns.term, htable.deref_eq_expand trivial
      (sig.call_scoped hcompletes.args_scoped),
      sig.expand_call]
  have hlen : (r'.args.map c'.solver.holes.expand).length = sig.params.length := by
    rw [List.length_map, hreturns.args, List.length_map, List.length_range']
  have hargs' : (r'.args.map c'.solver.holes.expand).map c'.solver.holes.expand =
      r'.args.map c'.solver.holes.expand := by
    rw [List.map_map]
    exact List.map_congr_left hread
  obtain ⟨u, s, htypeOf, rfl, hholes⟩ := (Solve.typeOf_call
    (Declarations.reduce?_eq_none hrules) hsig hfree hlen hargs' hyps).exists_ok
  refine ⟨_, s, hcall ▸ htypeOf, ?_⟩
  -- Both types are the declared one with the arguments, as they are read, put in for the names.
  have hread_type : ∀ as : List Term, (∀ a ∈ as, a.Scoped (.unit base) c'.solver.stage) →
      c'.solver.holes.deref (sig.result.subst (sig.bindings as)) =
        sig.result.subst (sig.bindings (as.map c'.solver.holes.expand)) := by
    intro as has
    rw [htable.deref_subst trivial hresult (hresult.within_unit base _) fun entry hentry =>
      has _ (Signature.mem_of_mem_bindings hentry), sig.bindings_map]
  have hreturned : r'.type = sig.result.subst (sig.bindings r'.args) := by
    obtain ⟨h, sub, htype', hlookup⟩ := hreturns.type
    rw [htype', Holes.subst_of_expand (Holes.expand_of_holeFree h hresult)]
    refine subst_congr fun name hname => hlookup name ⟨?_, ?_⟩
    · rintro rfl
      simp [hnames.2] at hname
    · rintro rfl
      simp [hnames.1] at hname
  have hscoped : ∀ a ∈ r'.args.map c'.solver.holes.expand,
      a.Scoped (.unit base) c'.solver.stage := by
    intro a ha
    obtain ⟨b, hb, rfl⟩ := List.mem_map.mp ha
    exact htable.expand (hcompletes.args_scoped b hb)
  rw [hholes, hread_type _ hscoped, hargs', htype, hreturned,
    hread_type _ hcompletes.args_scoped]

def listSessions : Sessions where
  table := #[{ own := { signatures :=
    { name := "Int", result := .sort (.level (.const 0)) } :: listDeclarations.signatures } }]

theorem listSessions_holeFree : listSessions.HoleFree := by
  intro id
  have hown : (listSessions.get id).own.HoleFree ∧ (listSessions.get id).ancestors = [] := by
    cases id with
    | zero => exact ⟨⟨by decide, by simp [listSessions, Sessions.get],
        by simp [listSessions, Sessions.get]⟩, rfl⟩
    | succ id => exact ⟨Declarations.holeFree_empty, rfl⟩
  rw [Sessions.visible, Sessions.lineage, hown.2]
  exact hown.1.append Declarations.holeFree_empty

def listChecker : Checker :=
  ((Call.elaborate (.var "cons") {} .missing).run listSessions
    ((Call.begin 0 "main").run listSessions {}).2).2

theorem listEnvironment_holeFree : (listSessions.environment listChecker).HoleFree :=
  Declarations.holeFree_empty.append (listSessions_holeFree 0)

def nilSignature : Signature where
  name := "nil"
  params := [⟨"A", .sort (.level (.const 0)), .implicit, none⟩]
  result := .app (.const "List") [.bound "A"]

/-- The empty list where a list of integers is expected: the hole for the elements is solved after
it has been put into the result type. -/
theorem typeOf_resolved_nil : ∃ r c' u s,
    (resolveTop (listSessions.environment listChecker) nilSignature [] {}
      (.app (.const "List") [.const "Int"])).run listChecker = (.ok r, c') ∧
    c'.text r.type = "List(Int)" ∧
    (Solve.typeOf (listSessions.environment c') {} r.term).run c'.solver = (.ok u, s) ∧
    s.holes.deref u = r.type := by
  have htest : (match (resolveTop (listSessions.environment listChecker) nilSignature [] {}
      (.app (.const "List") [.const "Int"])).run listChecker with
    | (.ok r, c') => decide (c'.text r.type = "List(Int)")
    | (.error _, _) => false) = true := by decide +kernel
  rcases hrun : (resolveTop (listSessions.environment listChecker) nilSignature [] {}
    (.app (.const "List") [.const "Int"])).run listChecker with ⟨_ | r, c'⟩
  · simp [hrun] at htest
  · have htext : c'.text r.type = "List(Int)" := by simpa [hrun] using htest
    have hsig : (listSessions.environment listChecker).signature? nilSignature.name =
        some nilSignature := rfl
    obtain ⟨u, s, htypeOf, htype⟩ := typeOf_resolved listEnvironment_holeFree rfl
      hsig (by decide) (by simp) (by decide) (by decide) hrun
    exact ⟨r, c', u, s, rfl, htext, htypeOf, htype⟩

/-- A call gives back a term and a type, but the term has another type. -/
def Misjudges (t : Sessions) (c : Checker) (sig : Signature) (args : List (Arg Expr))
    (hyps : Context) : Prop :=
  ∃ r c' u s, (resolveTop (t.environment c) sig args hyps .missing).run c = (.ok r, c') ∧
    (Solve.typeOf (t.environment c') hyps r.term).run c'.solver = (.ok u, s) ∧
    s.holes.deref u ≠ r.type

def resultTexts (t : Sessions) (c : Checker) (sig : Signature) (args : List (Arg Expr))
    (hyps : Context) : Option (String × String) :=
  match (resolveTop (t.environment c) sig args hyps .missing).run c with
  | (.error _, _) => none
  | (.ok r, c') =>
    match (Solve.typeOf (t.environment c') hyps r.term).run c'.solver with
    | (.error _, _) => none
    | (.ok u, s) => some (c'.text r.type, c'.text (s.holes.deref u))

theorem misjudges_of_texts {t : Sessions} {c : Checker} {sig : Signature} {args : List (Arg Expr)}
    {hyps : Context} {given found : String} (hne : given ≠ found)
    (h : resultTexts t c sig args hyps = some (given, found)) : Misjudges t c sig args hyps := by
  unfold resultTexts at h
  rcases hrun : (resolveTop (t.environment c) sig args hyps .missing).run c with ⟨_ | r, c'⟩
  · simp [hrun] at h
  rcases htype : (Solve.typeOf (t.environment c') hyps r.term).run c'.solver with ⟨_ | u, s⟩
  · simp [hrun, htype] at h
  · simp only [hrun, htype, Option.some.injEq, Prod.mk.injEq] at h
    refine ⟨r, c', u, s, hrun, htype, fun heq => hne ?_⟩
    rw [← h.1, ← h.2, heq]

def shadowUnit : SourceUnit where
  name := "unit"
  declarations := [{
    signature := some {
      name := "f"
      params := [⟨"x", .const "Int", .explicit, none⟩]
      result := .const "Int" }
    body := .var "x" }]

def shadowedSignature : Signature where
  name := "f"
  params := [⟨"x", .const "Int", .explicit, none⟩]
  result := .const "String"

def secondSignature : Signature where
  name := "second"
  params := [⟨"x", .const "Int", .explicit, none⟩, ⟨"y", .hole 0, .explicit, none⟩]
  result := .hole 0

def secondHoles : Holes := ({} : Holes).add "R" 0 (.sort (.level (.const 0)))

def secondHyps : Context :=
  (({} : Context).extend "x" (.sort (.level (.const 0)))).extend "h" (.bound "x")

def secondChecker : Checker :=
  Checker.start { solver := { holes := secondHoles } } 0 { owner := "unit" }

def secondArgs : List (Arg Expr) := [⟨"", .lit "1" (.const "Int")⟩, ⟨"", .var "h"⟩]

/-- The unit may declare the name of the signature otherwise. And a hole of the signature may be
solved by a type that mentions a parameter's name, for which only the typing of the term puts in the
argument. -/
theorem typeOf_resolved_apart : ∃ unit c f t second t',
    (Sessions.create {} none).2.checkUnit 0 {} shadowUnit = (.ok unit, c) ∧
    (Sessions.create {} none).2.declare 0 shadowedSignature = .ok (f, t) ∧
    Misjudges t c f [⟨"", .lit "1" (.const "Int")⟩] {} ∧
    (Sessions.create {} none).2.declare 0 secondSignature secondHoles = .ok (second, t') ∧
    Misjudges t' secondChecker second secondArgs secondHyps := by
  have hshadow : (match (Sessions.create {} none).2.checkUnit 0 {} shadowUnit with
      | (.error _, _) => false
      | (.ok _, c) =>
        match (Sessions.create {} none).2.declare 0 shadowedSignature with
        | .error _ => false
        | .ok (f, t) => decide (resultTexts t c f [⟨"", .lit "1" (.const "Int")⟩] {} =
          some ("String", "Int"))) = true := by
    decide +kernel
  have hhole : (match (Sessions.create {} none).2.declare 0 secondSignature secondHoles with
      | .error _ => false
      | .ok (second, t) => decide (resultTexts t secondChecker second secondArgs secondHyps =
        some ("x", "1"))) = true := by
    decide +kernel
  rcases hunit : (Sessions.create {} none).2.checkUnit 0 {} shadowUnit with ⟨_ | unit, c⟩
  · simp [hunit] at hshadow
  rcases hf : (Sessions.create {} none).2.declare 0 shadowedSignature with _ | ⟨f, t⟩
  · simp [hunit, hf] at hshadow
  rcases hsecond : (Sessions.create {} none).2.declare 0 secondSignature secondHoles with
    _ | ⟨second, t'⟩
  · simp [hsecond] at hhole
  simp only [hunit, hf, decide_eq_true_eq] at hshadow
  simp only [hsecond, decide_eq_true_eq] at hhole
  exact ⟨unit, c, f, t, second, t', rfl, rfl, misjudges_of_texts (by decide) hshadow, rfl,
    misjudges_of_texts (by decide) hhole⟩

end Check

end Implicits
