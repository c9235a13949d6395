import Unwind.Hierarchy.TypeTable
import Unwind.Log
import Unwind.Lowering.Context
import Unwind.Options
import Unwind.Registry

/-!
# Steps of a lowering

A lowering step works on the state of its body and on what all bodies share: the registry and the
log. A fault ends the step, but what was done before it stays done. The rest of the lowering is
written with the operations of this module only.
-/

namespace Unwind.Lowering

open Source (Program Ty TypeRef)
open Ir (Cmd)

/-- What a lowering is given and never changes. -/
structure Env where
  options : Options := {}
  program : Program := { types := [] }
  types : TypeTable := {}
  /-- What an integer literal is lowered to. -/
  literal : Int64 → Int64 := id

/-- What the bodies of one compilation share. -/
structure Shared where
  registry : Registry := {}
  log : Log := #[]

/-- The state of a body together with what all bodies share. -/
structure State extends Context, Shared

/-- A step of a lowering. -/
abbrev Lower := ExceptT Fault (StateM State)

/-! ## Emitting -/

/-- Append a command. -/
def emit (cmd : Cmd) : Lower Unit := modify fun s => { s with cmds := s.cmds ++ [cmd] }

/-- Append commands. -/
def emitAll (cmds : List Cmd) : Lower Unit := modify fun s => { s with cmds := s.cmds ++ cmds }

/-- Run a step with an empty list of commands; return what it emitted along with its result. The
commands from before stay as they were, also when the step fails. -/
def buffered (act : Lower α) : Lower (α × List Cmd) := fun s =>
  let (result, s') := act.run { s with cmds := [] }
  (result.map fun a => (a, s'.cmds), { s' with cmds := s.cmds })

/-- What a step without result emits. -/
def commandsOf (act : Lower Unit) : Lower (List Cmd) := do
  return (← buffered act).2

/-! ## Context -/

/-- Use an operation of the context. -/
def withContext (f : Context → α × Context) : Lower α :=
  modifyGet fun s =>
    let (a, cx) := f s.toContext
    (a, { s with toContext := cx })

/-- Change the context. -/
def changeContext (f : Context → Context) : Lower Unit :=
  modify fun s => { s with toContext := f s.toContext }

/-- Look at the context. -/
def context : Lower Context := return (← get).toContext

/-- Declare a variable of the source program. -/
def declareLocal (name : String) (ty : Ir.Ty) : Lower Unit := changeContext (·.declareLocal name ty)

/-- A new variable. -/
def freshLocal (stem : String) (ty : Ir.Ty) : Lower String := withContext (·.freshLocal stem ty)

/-- The label variable, declared. -/
def useLabelVar : Lower String := do
  changeContext (·.declareLabelVar)
  return labelVar

def enterRegion (node : UInt32) (catchTypes : List (Option TypeRef)) : Lower Nat :=
  withContext (·.enterRegion node catchTypes)

def catchLabel (id : Nat) : Lower String := withContext (·.catchLabel id)

def finallyLabel (id : Nat) : Lower String := withContext (·.finallyLabel id)

def continuationLabel (id : Nat) : Lower String := withContext (·.continuationLabel id)

def exceptionLocal (id : Nat) : Lower String := withContext (·.exceptionLocal id)

def addEscapingEdge (id : Nat) : Lower EscapingEdge := withContext (·.addEscapingEdge id)

/-- Report an event. -/
def report (level : Log.Level) (message : String) : Lower Unit :=
  modify fun s => { s with log := s.log.add level message }

/-- Begin a part of a region. -/
def pushPhase (id : Nat) (phase : Phase) : Lower Unit := do
  report .trace s!"region {id} enters {phase.text}"
  changeContext fun cx => { cx with stack := ⟨id, phase⟩ :: cx.stack }

/-- End a part of a region; the stack must end with it. -/
def popPhase (id : Nat) (phase : Phase) : Lower Unit := do
  let top := (← context).stack.head?
  changeContext fun cx => { cx with stack := cx.stack.tail }
  if top ≠ some ⟨id, phase⟩ then
    throw (.unbalanced (Entry.text ⟨id, phase⟩) (Entry.topText top))

def pushOperand (value : Ir.Expr) : Lower Unit :=
  changeContext fun cx => { cx with operands := value :: cx.operands }

/-- Take the operand pushed last. -/
def popOperand : Lower Ir.Expr := do
  match (← context).operands with
  | value :: rest =>
    changeContext fun cx => { cx with operands := rest }
    return value
  | [] => throw .emptyOperands

/-! ## Registry -/

/-- Use an operation of the registry. -/
def withRegistry (f : Registry → α × Registry) : Lower α :=
  modifyGet fun s =>
    let (a, registry) := f s.registry
    (a, { s with registry })

/-- Emit a breadcrumb when branches are instrumented. -/
def breadcrumb (env : Env) : Lower Unit := do
  if env.options.instrumentBranches then
    emit (.marker (.breadcrumb (← withRegistry (·.nextBreadcrumb))))

/-- Emit the recording of a value when values are recorded. -/
def record (env : Env) (label : String) (ty : Ir.Ty) (value : Ir.Expr) : Lower Unit := do
  if env.options.recordValues then
    let proc ← withRegistry (·.recorder ty)
    emit (.call [⟨"cexpr", [.str label]⟩] proc [value] [])

/-! ## Types -/

/-- The type of the variable that holds a value of a source type. -/
def irTy (ty : Ty) (span : Span) : Except Fault Ir.Ty :=
  match ty with
  | .void => .error (.voidValue span)
  | .bool => .ok .bool
  | .int => .ok .int
  | .named t => .ok (if t.name = "Type" then .type else .ref)

end Unwind.Lowering
