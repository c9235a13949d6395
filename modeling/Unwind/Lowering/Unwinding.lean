import Unwind.Lowering.Basic

/-!
# Leaving regions

A region is left in one of four ways: it completes, an exception leaves it, a jump leaves it, or
the procedure returns. The first three go through its finally block. The label variable says what
follows: `normal` and `propagating` go on behind the region, and every jump has a number of its
own that leads to the place where the jump goes on.
-/

namespace Unwind.Lowering

open Ir (Cmd)

/-- Complete a part of a region: go to its finally block. -/
def leaveNormally (region : Nat) : Lower Unit := do
  let label ← useLabelVar
  emit (.set label (.int normal))
  emit (.goto (← finallyLabel region))

/-- Send the exception in `$Exception` to the innermost handler: the catch clauses from a `try`
part, the finally block from a catch clause, and behind the region from its finally block, which
does not run again. -/
def propagate (env : Env) : Lower Unit := do
  match (← context).stack.head? with
  | none =>
    record env "<propagated exception>" .ref .exception
    emit .ret
  | some ⟨region, .inTry⟩ => emit (.goto (← catchLabel region))
  | some ⟨region, .inCatch⟩ =>
    let label ← useLabelVar
    emit (.set label (.int propagating))
    emit (.goto (← finallyLabel region))
  | some ⟨region, .inFinally⟩ => emit (.goto (← continuationLabel region))

/-- Propagate when there is an exception. -/
def propagateIfAny (env : Env) : Lower Unit := do
  let cmds ← commandsOf (propagate env)
  emit (.ifThen (.neq .exception .null) cmds)

/-- The tests on the label variable behind a finally block, around the jump to the end. -/
def resumeTests (continuation : String) : List EscapingEdge → List Cmd
  | [] => [.goto continuation]
  | edge :: edges =>
    [.ifElse (.eq (.ident labelVar) (.int edge.id)) [.goto edge.resume]
      (resumeTests continuation edges)]

/-- Behind a finally block: resume the jump that is under way, otherwise go on behind the
region. -/
def dispatchContinuation (region : Nat) : Lower Unit := do
  let continuation ← continuationLabel region
  let edges := (← context).escapingEdges region
  unless edges.isEmpty do
    let _ ← useLabelVar
  emitAll (resumeTests continuation edges)

/-- The test of a catch clause; a clause without a type catches everything. -/
def catchTest (caught : String) (type : Option Source.TypeRef) : Ir.Expr :=
  match type with
  | some t => .subtype (.dynamicType (.ident caught)) (.typeNamed t.name)
  | none => .bool true

/-- The catch clauses as nested tests: the last one declared is tested first. -/
def catchTests (arms : List (Ir.Expr × List Cmd)) : Option Cmd :=
  arms.foldl (fun inner (test, body) => some (.ifElse test body inner.toList)) none

/-! ## Jumps -/

/-- Leave the regions of a jump, innermost first, each through its finally block. -/
def escape (target : String) (span : Span) : List Entry → Lower Unit
  | [] => return
  | ⟨_, .inFinally⟩ :: _ => throw (.jumpOutOfFinally target span)
  | ⟨region, _⟩ :: entries => do
    let edge ← addEscapingEdge region
    let label ← useLabelVar
    emit (.set label (.int edge.id))
    emit (.goto (← finallyLabel region))
    emit (.label edge.resume)
    escape target span entries

/-- The number of regions on the stack that hold both the jump and its label. -/
def sharedDepth (env : Env) (cx : Context) (target : String) : Except Fault Nat :=
  match cx.scopes.innermostTry? target with
  | none => .error (.unknownLabel target)
  | some none => .ok 0
  | some (some node) =>
    match cx.position? node with
    | some position => .ok (position + 1)
    -- without exceptions no region is on the stack
    | none => if env.options.modelsExceptions then .error (.jumpIntoTry target) else .ok 0

/-- Jump to a label, through the finally block of every region left on the way. -/
def lowerGoto (env : Env) (target : String) (span : Span) : Lower Unit := do
  let cx ← context
  let keep ← sharedDepth env cx target
  escape target span (cx.stack.take (cx.depth - keep))
  emit (.goto target)

end Unwind.Lowering
