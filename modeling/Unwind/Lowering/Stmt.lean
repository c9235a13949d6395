import Unwind.Lowering.Expr

/-!
# Lowering statements

A `try` statement becomes a region of commands:

```
  (body)             $label := -1; goto $finallyN
$catchN:
  $localExcN := $Exception; $Exception := null
  (catch clauses)    $label := -1; goto $finallyN
  $Exception := $localExcN; (propagate)
$finallyN:
  (finally block, with $Exception and $label saved around it)
  (resume the jump under way, otherwise goto $continuationN)
$continuationN:
  if ($Exception != null) (propagate)
```

Without exceptions the catch clauses are dead code and nothing of this is emitted. Loops must be
gone before a body is lowered.
-/

namespace Unwind.Lowering

open Source (CatchClause Expr Stmt StmtKind SwitchCase Variable)
open Ir (Cmd)

/-! ## Marks in front of a statement -/

/-- Blocks and empty statements carry no marks. -/
def carriesMarks : StmtKind → Bool
  | .block _ | .empty => false
  | _ => true

/-- The assertion that says which source line comes next. -/
def sourceMark (env : Env) (span : Span) : Cmd :=
  let file := (env.program.fileName? span.file).getD ("file" ++ toString span.file.toNat)
  .assert (.bool true)
    [⟨"first", []⟩, ⟨"sourceFile", [.str file]⟩,
     ⟨"sourceLine", [.expr (.int (Int64.ofNat span.line.toNat))]⟩]

/-- The marks in front of a statement. -/
def emitMarks (env : Env) (span : Span) (kind : StmtKind) : Lower Unit := do
  if carriesMarks kind then
    if env.options.emitSourceContext && span.isKnown then
      emit (sourceMark env span)
    if env.options.captureState then
      let n ← withRegistry (·.nextCaptureState)
      emit (.marker ⟨"captureState", [.str ("s" ++ toString n.toNat)]⟩)

/-! ## Statements without parts -/

/-- A check, or an assumption when checks are weakened. -/
def emitAssertion (env : Env) (cond : Ir.Expr) : Lower Unit :=
  emit (if env.options.getMeHere then .suppose cond else .check cond)

/-- An expression that is an operator on a target is a compound assignment. -/
def isCompound (e : Expr) : Bool :=
  match e.kind with
  | .binary _ lhs _ => lhs.isTarget
  | _ => false

/-- A return, with or without a value. -/
def lowerReturn (env : Env) (span : Span) (result : Option Expr) : Lower Unit := do
  match result with
  | some e =>
    let lowered ← value env e
    match (← context).returnVar with
    | some slot =>
      record env "<return value>" (← irTy e.ty e.span) lowered
      emit (.set slot lowered)
    | none => throw (.noReturnSlot span)
  | none => pure ()
  emit .ret

/-- An expression that computes the default value of a type. -/
def isDefaultValue (e : Expr) : Bool :=
  match e.kind with
  | .defaultValue _ => true
  | _ => false

/-- A declaration. A struct always gets an object of its own: a copy of its initial value, or a new
one. -/
def lowerLocalDecl (env : Env) (decl : Variable) (init : Option Expr) : Lower Unit := do
  let span := (init.map (·.span)).getD {}
  let ty ← irTy decl.ty span
  declareLocal decl.name ty
  if env.types.isStruct decl.ty then
    match init.filter (!isDefaultValue ·), decl.ty.typeRef? with
    | some e, some type =>
      let proc ← withRegistry (·.structCopy type)
      let v ← value env e
      emit (.invoke proc [v] [decl.name])
    | _, _ =>
      let v ← value env (.ofKind (.defaultValue decl.ty) decl.ty)
      emit (.set decl.name v)
  else
    match init with
    | some e =>
      let v ← value env e
      record env decl.name ty v
      emit (.set decl.name v)
    | none => pure ()

/-- A throw. Without exceptions it cannot be reached. -/
def lowerThrow (env : Env) (exception : Expr) : Lower Unit := do
  if env.options.modelsExceptions then
    let v ← value env exception
    record env "<thrown exception>" .ref v
    emit (.set Ir.exceptionVar v)
    propagate env
  else emit (.suppose (.bool false))

/-- A rethrow raises what the innermost catch clause around it has caught. -/
def lowerRethrow (env : Env) (span : Span) : Lower Unit := do
  if env.options.modelsExceptions then
    match (← context).innermostCatch? with
    | some region =>
      let caught ← exceptionLocal region
      record env "<rethrown exception>" .ref (.ident caught)
      emit (.set Ir.exceptionVar (.ident caught))
      propagate env
    | none => throw (.strayRethrow span)
  else emit (.suppose (.bool false))

/-- Bind what a catch clause has caught to its variable. -/
def bindCaught (env : Env) (caught : String) (span : Span) (binding : Option Variable) :
    Lower Unit := do
  match binding with
  | some v =>
    declareLocal v.name (← irTy v.ty span)
    record env v.name .ref (.ident caught)
    emit (.set v.name (.ident caught))
  | none => pure ()

/-- The beginning of a finally block: put the pending exception and the label aside. -/
def saveForFinally : Lower (String × String) := do
  let label ← useLabelVar
  let savedExc ← freshLocal "savedExc" .ref
  let savedLabel ← freshLocal "savedLabel" .int
  emit (.set savedExc .exception)
  emit (.set savedLabel (.ident label))
  emit (.set Ir.exceptionVar .null)
  return (savedExc, savedLabel)

/-- The end of a finally block: bring them back. -/
def restoreAfterFinally (savedExc savedLabel : String) : Lower Unit := do
  emit (.set Ir.exceptionVar (.ident savedExc))
  emit (.set labelVar (.ident savedLabel))

/-- The head of the catch part: take the exception over. -/
def takeException (region : Nat) : Lower String := do
  emit (.label (← catchLabel region))
  let caught ← exceptionLocal region
  emit (.set caught .exception)
  emit (.set Ir.exceptionVar .null)
  return caught

/-- The end of the catch part: the tests of its clauses, and what happens when none holds. -/
def finishCatches (env : Env) (caught : String) (arms : List (Ir.Expr × List Cmd)) :
    Lower Unit := do
  emitAll (catchTests arms).toList
  emit (.set Ir.exceptionVar (.ident caught))
  propagate env

/-- The end of a region. -/
def finishRegion (env : Env) (region : Nat) : Lower Unit := do
  dispatchContinuation region
  emit (.label (← continuationLabel region))
  propagateIfAny env

/-- One more case in front of the tests of a switch. -/
def caseTest (scrutinee caseValue : Ir.Expr) (body : List Cmd) (chain : Option Cmd)
    (defaultCmds : List Cmd) : Cmd :=
  .ifElse (.eq scrutinee caseValue) body
    (match chain with
     | some inner => [inner]
     | none => defaultCmds)

/-! ## Statements -/

mutual

def lowerStmt (env : Env) : Stmt → Lower Unit
  | ⟨id, span, kind⟩ => do
    emitMarks env span kind
    match kind with
    | .block stmts => lowerStmts env stmts
    | .empty => return
    | .assert cond => emitAssertion env (← condition env cond)
    | .assume cond => emit (.suppose (← condition env cond))
    | .conditional cond thenBranch elseBranch =>
      let cond ← condition env cond
      let thenCmds ← commandsOf (do breadcrumb env; lowerStmt env thenBranch)
      let elseCmds ← commandsOf (do breadcrumb env; lowerStmt env elseBranch)
      emit (.ifElse cond thenCmds elseCmds)
    | .expression e =>
      let _ ← lowerExpr env e (isCompound e)
    | .breakLoop | .continueLoop | .whileLoop .. | .doUntil .. | .forLoop .. | .forEach .. =>
      throw (.unhandledStatement kind.name span)
    | .switch scrutinee cases =>
      let scrutinee ← value env scrutinee
      let defaultCmds ← lowerDefault env cases
      match ← lowerCases env scrutinee defaultCmds cases with
      | some chain => emit chain
      | none => emitAll defaultCmds
    | .localDecl decl init => lowerLocalDecl env decl init
    | .ret result => lowerReturn env span result
    | .goto target => lowerGoto env target span
    | .labeled name body =>
      emit (.label name)
      lowerStmt env body
    | .tryCatch body catches finalizer =>
      if env.options.modelsExceptions then
        let region ← enterRegion id (catches.map (·.exceptionType))
        pushPhase region .inTry
        lowerStmt env body
        leaveNormally region
        popPhase region .inTry
        let caught ← takeException region
        pushPhase region .inCatch
        let arms ← lowerCatches env region caught catches
        finishCatches env caught arms
        popPhase region .inCatch
        emit (.label (← finallyLabel region))
        lowerFinally env region finalizer
        finishRegion env region
      else
        lowerStmt env body
        lowerOptional env finalizer
    | .throw exception => lowerThrow env exception
    | .rethrow => lowerRethrow env span
    | .push e => pushOperand (← value env e)

def lowerStmts (env : Env) : List Stmt → Lower Unit
  | [] => return
  | s :: ss => do
    lowerStmt env s
    lowerStmts env ss

def lowerOptional (env : Env) : Option Stmt → Lower Unit
  | none => return
  | some s => lowerStmt env s

/-- The finally block of a region, where it has one. -/
def lowerFinally (env : Env) (region : Nat) : Option Stmt → Lower Unit
  | none => return
  | some s => do
    pushPhase region .inFinally
    let (savedExc, savedLabel) ← saveForFinally
    lowerStmt env s
    restoreAfterFinally savedExc savedLabel
    popPhase region .inFinally

/-- The catch clauses of a region, each as its test and its commands. -/
def lowerCatches (env : Env) (region : Nat) (caught : String) :
    List CatchClause → Lower (List (Ir.Expr × List Cmd))
  | [] => return []
  | ⟨span, exceptionType, binding, body⟩ :: clauses => do
    let cmds ← commandsOf do
      bindCaught env caught span binding
      lowerStmt env body
      leaveNormally region
    return (catchTest caught exceptionType, cmds) :: (← lowerCatches env region caught clauses)

/-- The commands of the last default case of a switch. -/
def lowerDefault (env : Env) : List SwitchCase → Lower (List Cmd)
  | [] => return []
  | ⟨_, value?, body⟩ :: cases => do
    if value?.isSome || cases.any (·.value.isNone) then lowerDefault env cases
    else commandsOf (lowerStmts env body)

/-- The other cases of a switch as a chain of tests, the first case outermost. They are lowered
from the last to the first; the default case goes into the innermost `else`. -/
def lowerCases (env : Env) (scrutinee : Ir.Expr) (defaultCmds : List Cmd) :
    List SwitchCase → Lower (Option Cmd)
  | [] => return none
  | ⟨_, value?, body⟩ :: cases => do
    let chain ← lowerCases env scrutinee defaultCmds cases
    match value? with
    | some e =>
      let caseValue ← value env e
      let cmds ← commandsOf (lowerStmts env body)
      return some (caseTest scrutinee caseValue cmds chain defaultCmds)
    | none => return chain

end

end Unwind.Lowering
