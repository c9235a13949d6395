import Unwind.Ir.Basic
import Unwind.LabelScopes

/-!
# The state of one body being lowered

* The commands emitted so far, only ever extended at the end.
* The variables declared so far, in order.
* The **regions**: one for each `try` statement met, with the labels and the exception variable it
  has been given. Names are given out on first use and never again. A region is known by its
  number.
* The **stack** of regions being lowered right now, innermost first, each with the part of it that
  is being emitted.
* The operands pushed and not yet popped, the last one first.
-/

namespace Unwind.Lowering

open Source (TypeRef)
open Ir (Cmd VarDecl)

/-- The variable that says how a region is left. -/
def labelVar : String := "$label"

/-- The variable that holds the result of a procedure. -/
def resultVar : String := "$result"

/-- The value of the label variable when a region completes. -/
def normal : Int64 := -1

/-- The value of the label variable when an exception leaves a region. -/
def propagating : Int64 := -2

/-- The part of a region that is being emitted. -/
inductive Phase where
  | inTry
  | inCatch
  | inFinally
deriving DecidableEq

def Phase.text : Phase → String
  | inTry => "InTry"
  | inCatch => "InCatch"
  | inFinally => "InFinally"

/-- A jump that leaves a region through its finally block: the value it stores in the label
variable, and the label where it goes on. -/
structure EscapingEdge where
  id : Int64
  resume : String
deriving DecidableEq

/-- One `try` statement being lowered. -/
structure Region where
  node : UInt32
  catchTypes : List (Option TypeRef)
  catchLabel : Option String := none
  finallyLabel : Option String := none
  continuationLabel : Option String := none
  exceptionLocal : Option String := none
  escapes : List EscapingEdge := []
deriving DecidableEq

/-- A region on the stack. -/
structure Entry where
  region : Nat
  phase : Phase
deriving DecidableEq

def Entry.text (e : Entry) : String := "(" ++ toString e.region ++ ", " ++ e.phase.text ++ ")"

/-- What the top of the stack shows. -/
def Entry.topText : Option Entry → String
  | some e => "Some(" ++ e.text ++ ")"
  | none => "None"

/-- The state of one body being lowered. -/
structure Context where
  cmds : List Cmd := []
  /-- Names that need no declaration: parameters and the result. -/
  params : List String := []
  locals : List VarDecl := []
  regions : List Region := []
  stack : List Entry := []
  scopes : LabelScopes := {}
  operands : List Ir.Expr := []
  nextTemp : Nat := 0
  returnVar : Option String := none

namespace Context

/-! ## Variables -/

/-- Declare a variable unless its name is taken. -/
def declareNew (locals : List VarDecl) (v : VarDecl) : List VarDecl :=
  if locals.any (·.name == v.name) then locals else locals ++ [v]

/-- Declare a variable; one of the same name gets the new type. -/
def redeclare (v : VarDecl) : List VarDecl → List VarDecl
  | [] => [v]
  | w :: ws => if w.name == v.name then v :: ws else w :: redeclare v ws

/-- A name that needs no declaration. -/
def bindParam (cx : Context) (name : String) : Context := { cx with params := cx.params ++ [name] }

/-- The variable that holds the result. -/
def setReturnVar (cx : Context) (name : String) : Context :=
  { cx.bindParam name with returnVar := some name }

/-- Declare a variable of the source program. Parameters and names already declared are left
alone. -/
def declareLocal (cx : Context) (name : String) (ty : Ir.Ty) : Context :=
  if cx.params.contains name then cx else { cx with locals := declareNew cx.locals ⟨name, ty⟩ }

/-- A new variable that no name of the source program can meet. -/
def freshLocal (cx : Context) (stem : String) (ty : Ir.Ty) : String × Context :=
  let name := "$" ++ stem ++ toString cx.nextTemp
  (name, { cx with locals := redeclare ⟨name, ty⟩ cx.locals, nextTemp := cx.nextTemp + 1 })

/-- Make sure that the label variable is declared. -/
def declareLabelVar (cx : Context) : Context :=
  { cx with locals := declareNew cx.locals ⟨labelVar, .int⟩ }

/-! ## Regions -/

/-- Add a region and return its number. -/
def enterRegion (cx : Context) (node : UInt32) (catchTypes : List (Option TypeRef)) :
    Nat × Context :=
  (cx.regions.length, { cx with regions := cx.regions ++ [{ node, catchTypes }] })

/-- Replace a region. -/
def setRegion (cx : Context) (id : Nat) (r : Region) : Context :=
  { cx with regions := cx.regions.set id r }

/-- The name that a region keeps in a slot; `name` is put there when the slot is empty. -/
def allot (cx : Context) (id : Nat) (slot : Region → Option String)
    (fill : Region → String → Region) (name : String) : String × Context :=
  match cx.regions[id]? with
  | some r =>
    match slot r with
    | some taken => (taken, cx)
    | none => (name, cx.setRegion id (fill r name))
  | none => (name, cx)

/-- The label of the catch clauses. -/
def catchLabel (cx : Context) (id : Nat) : String × Context :=
  cx.allot id (·.catchLabel) (fun r l => { r with catchLabel := some l }) ("$catch" ++ toString id)

/-- The label of the finally block. -/
def finallyLabel (cx : Context) (id : Nat) : String × Context :=
  cx.allot id (·.finallyLabel) (fun r l => { r with finallyLabel := some l })
    ("$finally" ++ toString id)

/-- The label behind the whole region. -/
def continuationLabel (cx : Context) (id : Nat) : String × Context :=
  cx.allot id (·.continuationLabel) (fun r l => { r with continuationLabel := some l })
    ("$continuation" ++ toString id)

/-- The variable that holds the exception caught by a region. -/
def exceptionLocal (cx : Context) (id : Nat) : String × Context :=
  match cx.regions[id]? with
  | some r =>
    match r.exceptionLocal with
    | some taken => (taken, cx)
    | none =>
      let name := "$localExc" ++ toString id
      (name, { cx.setRegion id { r with exceptionLocal := some name } with
        locals := redeclare ⟨name, .ref⟩ cx.locals })
  | none => ("$localExc" ++ toString id, cx)

/-- The jumps that leave a region through its finally block, oldest first. -/
def escapingEdges (cx : Context) (id : Nat) : List EscapingEdge :=
  match cx.regions[id]? with
  | some r => r.escapes
  | none => []

/-- Add a jump that leaves a region through its finally block. -/
def addEscapingEdge (cx : Context) (id : Nat) : EscapingEdge × Context :=
  let n := (cx.escapingEdges id).length
  let edge : EscapingEdge :=
    { id := Int64.ofNat n, resume := "$escape" ++ toString id ++ "_" ++ toString n }
  match cx.regions[id]? with
  | some r => (edge, cx.setRegion id { r with escapes := r.escapes ++ [edge] })
  | none => (edge, cx)

/-! ## The stack -/

def depth (cx : Context) : Nat := cx.stack.length

/-- The entry at a position, counted from the outermost. -/
def entryAt? (cx : Context) (index : Nat) : Option Entry := cx.stack.reverse[index]?

/-- The outermost position of the region that lowers the `try` statement `node`. -/
def position? (cx : Context) (node : UInt32) : Option Nat :=
  cx.stack.reverse.findIdx? fun e =>
    match cx.regions[e.region]? with
    | some r => r.node == node
    | none => false

/-- The innermost region whose catch clauses are being lowered. -/
def innermostCatch? (cx : Context) : Option Nat :=
  (cx.stack.find? (·.phase == .inCatch)).map (·.region)

/-- The variables and the commands of a body that is complete. -/
def finish (cx : Context) : Except Fault (List VarDecl × List Cmd) :=
  if cx.stack.isEmpty then .ok (cx.locals, cx.cmds) else .error (.openRegions cx.depth)

end Context

end Unwind.Lowering
