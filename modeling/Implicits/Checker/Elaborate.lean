import Implicits.Checker.Search

/-!
Elaboration of expressions. A call gets one hole per parameter; the holes are solved by the
arguments, by the expected type, by search and by enclosing calls. An argument of the wrong type
gets at most one implicit conversion.
-/
namespace Implicits

/-- What elaboration does in a place: whether it lies inside an argument, the hypotheses, and the
expected type, if any; it gives the term and its type. -/
abbrev Elaborator := Bool → Context → Term → Check (Term × Term)

/-- An argument: the expression and its elaboration. -/
structure Supplied where
  site : Expr
  elaborate : Elaborator

/-- A parameter of a call with its hole and its argument. -/
structure Slot where
  param : Param Term
  hole : HoleId
  supplied : Option Supplied

/-- A call with all its arguments. -/
structure Resolved where
  args : List Term
  term : Term
  type : Term
  obligations : List Obligation
  openObligations : List Obligation

namespace Check

/-- The key under which a conversion between two types is filed. -/
def conversionKey (h : Holes) (source target : Term) : String :=
  h.text source ++ " -> " ++ h.text target

/-- Wraps a term whose type does not fit in the conversion between the two types, if there is
exactly one. -/
def convert (env : Declarations) (site : Expr) (param : String) (hyps : Context)
    (term actual expected : Term) (cause : Fault) : Check Term := do
  let h ← holes
  let source := h.normalize env actual
  let target := h.normalize env expected
  let mismatch (cause : Fault) : CheckError :=
    .mismatch site param (h.deref expected) (h.deref actual) cause
  -- Conversions are only looked up between fully known types.
  if h.hasOpen source || h.hasOpen target then fail site (mismatch cause)
  else
    match env.conversionsAt (conversionKey h source target) with
    | [] => fail site (mismatch cause)
    | [conv] =>
      match ← lookupSignature? env conv.name with
      | none => fail site (.undeclaredConversion conv.name)
      | some _ =>
        match ← solve (Solve.trySubsume env hyps conv.target expected) with
        | .error cause => fail site (mismatch cause)
        | .ok () =>
          note (.converted conv.name (← text source) (← text target) (← exprText site))
          return .app (.const conv.name) [term]
    | convs => fail site (.ambiguous site source target (convs.map (·.name)))

/-- Checks the type of an elaborated argument, inserting a conversion if that helps. -/
def fitArgument (env : Declarations) (site : Expr) (param : String) (hyps : Context)
    (term actual expected : Term) : Check Term := do
  match ← solve (Solve.trySubsume env hyps actual expected) with
  | .ok () => return term
  | .error cause => convert env site param hyps term actual expected cause

/-- Elaborates an argument and checks its type. -/
def checkArgument (env : Declarations) (arg : Supplied) (nested : Bool) (param : String)
    (hyps : Context) (expected : Term) : Check Term := do
  let (term, actual) ← arg.elaborate nested hyps expected
  fitArgument env arg.site param hyps term actual expected

/-- Makes a hole for each parameter. Later parameter types refer to earlier holes by name. -/
def makeHoles : List (Param Term) → Substitution → Check (List HoleId × Substitution)
  | [], sub => return ([], sub)
  | p :: ps, sub => do
    let type := (← holes).subst sub p.type
    let id ← modifyGet fun c =>
      let (id, solver) := c.solver.addHole p.name type
      (id, { c with solver })
    let (ids, sub) ← makeHoles ps (if p.isAnonymous then sub else (p.name, .hole id) :: sub)
    return (id :: ids, sub)

/-- Elaborates the argument of a slot and solves its hole by it. -/
def supply (env : Declarations) (hyps : Context) (slot : Slot) : Check Unit := do
  match slot.supplied with
  | none => return
  | some arg =>
    let term ← checkArgument env arg true slot.param.name hyps ((← holes).type slot.hole)
    match ← solve (Solve.unify env hyps (.hole slot.hole) term) with
    | .ok () => return
    | .error cause =>
      let h ← holes
      fail arg.site
        (.mismatch arg.site slot.param.name (h.deref (.hole slot.hole)) (h.deref term) cause)

/-- Whether the hole of a slot is still open. -/
def isUnsolved (id : HoleId) : Check Bool := do
  match (← holes).follow (.hole id) with
  | .hole _ => return true
  | _ => return false

/-- Searches for the value of an omitted argument, if its parameter has a tactic. -/
def searchSlot (env : Declarations) (function : String) (hyps : Context) (sub : Substitution)
    (slot : Slot) : Check (Option Obligation × List Attempt) := do
  match slot.param.tactic? with
  | none => return (none, [])
  | some tactic =>
    if slot.supplied.isSome || !(← isUnsolved slot.hole) then return (none, [])
    let goal := (← holes).type slot.hole
    let (found, trace) ← Search.run env tactic goal hyps sub
    match found with
    | none =>
      note (.searchFailed function slot.param.name (← text goal) trace.length)
      return (none, trace)
    | some (value, strategy) =>
      let goal := (← holes).deref goal
      match ← solve (Solve.unify env hyps (.hole slot.hole) value) with
      | .error fault =>
        let attempt : Attempt := { strategy, candidate := ← text value, detail := fault.message }
        return (none, trace ++ [attempt])
      | .ok () =>
        note (.resolved function slot.param.name strategy (← text value))
        return (some
          { function, param := slot.param.name, goal, context := hyps, value, strategy, trace },
          trace)

/-- The open obligation for a hole. -/
def openObligation (function param : String) (id : HoleId) (hyps : Context) (trace : List Attempt) :
    Check Obligation := do
  let h ← holes
  note (.deferred function param (h.text (h.type id)))
  return { function, param, goal := h.deref (h.type id), context := hyps,
           value := h.follow (.hole id), trace }

/-- Decides what becomes of a hole that is still open: it waits for an enclosing call, becomes an
open obligation, or is an error. -/
def settle (site : Expr) (function : String) (nested : Bool) (hyps : Context) (slot : Slot)
    (trace : List Attempt) : Check (Option Obligation) := do
  if !(← isUnsolved slot.hole) then return none
  let param := slot.param.name
  if slot.param.tactic?.isNone && nested then
    modify fun c => { c with pending := c.pending ++ [⟨site, function, param, slot.hole, hyps⟩] }
    return none
  if (← get).options.deferUnresolved then
    return some (← openObligation function param slot.hole hyps trace)
  let h ← holes
  fail site (.unresolved site function param (h.deref (h.type slot.hole)) trace)

/-- Unifies the result type of a call with the expected type, if there is one. A failure is only
noted. -/
def useHint (env : Declarations) (function : String) (hyps : Context) (result expected : Term) :
    Check Unit := do
  if expected.isMissing then return
  match ← solve (Solve.trySubsume env hyps result expected) with
  | .ok () => return
  | .error fault => note (.hintNotApplied function (← text expected) fault.message)

/-- Supplies, searches and settles in the order of the parameters, and gives the new obligations,
the open ones second. -/
def completeSlots (env : Declarations) (site : Expr) (function : String) (nested : Bool)
    (hyps : Context) (sub : Substitution) (slots : List Slot) :
    Check (List Obligation × List Obligation) := do
  slots.forM (supply env hyps)
  let searched ← slots.mapM (searchSlot env function hyps sub)
  let settled ← (slots.zip searched).mapM fun (slot, _, trace) =>
    settle site function nested hyps slot trace
  let obligations := searched.filterMap (·.1)
  let openObligations := settled.filterMap id
  modify fun c =>
    { c with
      obligations := c.obligations ++ obligations
      openObligations := c.openObligations ++ openObligations }
  return (obligations, openObligations)

/-- Completes a call: matches the arguments, makes the holes, uses the expected type as a hint, and
completes the slots. -/
def resolve (env : Declarations) (site : Expr) (sig : Signature)
    (args : List (Arg (Option Supplied))) (nested : Bool) (hyps : Context) (expected : Term) :
    Check Resolved := do
  modify fun c => { c with solver := c.solver.importSignature sig }
  match sig.matchArguments args with
  | .error fault => fail site (.arguments fault)
  | .ok supplied =>
    let (ids, sub) ← makeHoles sig.params []
    let result := (← holes).subst sub sig.result
    useHint env sig.name hyps result expected
    let slots := (sig.params.zip (ids.zip supplied)).map fun (p, id, arg) => Slot.mk p id arg
    let (obligations, openObligations) ← completeSlots env site sig.name nested hyps sub slots
    let args := ids.map Term.hole
    let term := if args.isEmpty then .const sig.name else .app (.const sig.name) args
    return { args, term, type := result, obligations, openObligations }

mutual

/-- Elaborates an expression. -/
def elaborate (env : Declarations) : Expr → Elaborator
  | .missing => fun _ _ _ => fail .missing .unhandledExpression
  | .lit s type => fun _ _ _ =>
    if type.isMissing then fail (.lit s type) (.untypedLiteral s) else return (.lit s type, type)
  | .var name => fun nested hyps expected => do
    match hyps.lookup? name with
    | some type => return (.bound name, type)
    | none =>
      match ← lookupSignature? env name with
      | none => fail (.var name) (.unknownIdentifier name)
      | some sig =>
        -- A function whose parameters are all implicit stands for its call.
        if sig.params.isEmpty || 0 < sig.explicitCount then return (.const sig.name, sig.type)
        else
          let r ← resolve env (.var name) sig [] nested hyps expected
          return (r.term, r.type)
  | .call fn args => fun nested hyps expected => do
    let supplied := suppliedArgs env args
    match fn with
    | .var name =>
      if (hyps.lookup? name).isSome then fail (.call fn args) (.localFunction name)
      match ← lookupSignature? env name with
      | none => fail fn (.unknownFunction name)
      | some sig =>
        let r ← resolve env (.call fn args) sig supplied nested hyps expected
        return (r.term, r.type)
    | _ => fail (.call fn args) (.notAFunctionName fn)
  | .type level => fun _ hyps _ => do
    let site := Expr.type level
    let l : Level ←
      match level with
      | some k => if k < 0 then fail site (.negativeLevel k) else pure (Level.const k)
      | none => orFail site .typing Solve.freshLevel
    let u := Term.sort (.level l)
    let type ← orFail site .typing (Solve.typeOf env hyps u)
    return (u, type)
  | .term value => fun _ hyps _ => do
    let type ← orFail (.term value) .typing (Solve.typeOf env hyps value)
    return (value, type)

/-- The arguments of a call with their elaboration; an absent value supplies nothing. -/
def suppliedArgs (env : Declarations) : List (Arg Expr) → List (Arg (Option Supplied))
  | [] => []
  | ⟨name, value⟩ :: rest =>
    let arg := if value.isMissing then none else some ⟨value, elaborate env value⟩
    ⟨name, arg⟩ :: suppliedArgs env rest

end

/-- Settles a hole that waited for an enclosing call, if it is still open: it becomes an open
obligation or is an error. -/
def finishWaiting (p : Pending) : Check Unit := do
  if ← isUnsolved p.hole then
    if (← get).options.deferUnresolved then
      let ob ← openObligation p.function p.param p.hole p.context []
      modify fun c => { c with openObligations := c.openObligations ++ [ob] }
    else
      let h ← holes
      fail p.site (.unresolved p.site p.function p.param (h.deref (h.type p.hole)) [])

/-- Settles the holes that no enclosing call has determined. -/
def finishPending : Check Unit := do
  let waiting := (← get).pending
  modify fun c => { c with pending := [] }
  waiting.forM finishWaiting

/-- Elaborates an expression, against an expected type if one is given. -/
def elaborateAgainst (env : Declarations) (e : Expr) (hyps : Context) (expected : Term) :
    Check (Term × Term) := do
  if expected.isMissing then elaborate env e false hyps expected
  else
    let term ← checkArgument env ⟨e, elaborate env e⟩ false "" hyps expected
    return (term, expected)

/-- Elaborates an expression and gives the term and its type. -/
def elaborateTop (env : Declarations) (e : Expr) (hyps : Context) (expected : Term) :
    Check (Term × Term) := do
  requireActive
  if e.isMissing then throw .emptyExpression
  let (term, type) ← elaborateAgainst env e hyps expected
  finishPending
  let h ← holes
  return (h.deref term, h.deref type)

/-- Completes a call of a function with a given signature. -/
def resolveTop (env : Declarations) (sig : Signature) (args : List (Arg Expr)) (hyps : Context)
    (expected : Term) : Check Resolved := do
  requireActive
  let site := Expr.call (.var sig.name) args
  let r ← resolve env site sig (suppliedArgs env args) false hyps expected
  finishPending
  let h ← holes
  return { r with args := r.args.map h.deref, term := h.deref r.term, type := h.deref r.type }

end Check

end Implicits
