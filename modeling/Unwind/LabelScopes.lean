import Unwind.Fault
import Unwind.Source.Stmt

/-!
# Where labels stand

For every label of a method body, the innermost `try` statement around it: the one whose body,
catch clauses or finally block holds the labeled statement. Labels and the ids of `try` statements
must be unique in a body; the first clash met in program order is the fault.
-/

namespace Unwind

open Source

/-- The labels of a body, each with the id of the innermost `try` statement around it. -/
structure LabelScopes where
  labels : List (String × Option UInt32) := []
  /-- The ids of the `try` statements seen while collecting. -/
  tries : List UInt32 := []

namespace LabelScopes

/-- `none` for an unknown label, `some none` for a label outside every `try`. -/
def innermostTry? (s : LabelScopes) (label : String) : Option (Option UInt32) :=
  s.labels.lookup label

def size (s : LabelScopes) : Nat := s.labels.length

/-- Enter a label. -/
def addLabel (s : LabelScopes) (label : String) (enclosing : Option UInt32) :
    Except Fault LabelScopes :=
  if (s.innermostTry? label).isSome then .error (.duplicateLabel label)
  else .ok { s with labels := s.labels ++ [(label, enclosing)] }

/-- Enter a `try` statement. -/
def addTry (s : LabelScopes) (id : UInt32) : Except Fault LabelScopes :=
  if id ∈ s.tries then .error (.duplicateTry id) else .ok { s with tries := s.tries ++ [id] }

mutual

/-- Enter the labels of a statement that stands in the `try` statement `enclosing`. -/
def visit (enclosing : Option UInt32) : Stmt → LabelScopes → Except Fault LabelScopes
  | ⟨id, _, kind⟩, s =>
    match kind with
    | .block stmts => visitAll enclosing stmts s
    | .conditional _ thenBranch elseBranch => do
      visit enclosing elseBranch (← visit enclosing thenBranch s)
    | .whileLoop _ body => visit enclosing body s
    | .doUntil body _ => visit enclosing body s
    | .forEach _ _ body => visit enclosing body s
    | .forLoop init _ step body => do
      let s ← visitAll enclosing init s
      let s ← visitAll enclosing step s
      visit enclosing body s
    | .switch _ cases => visitCases enclosing cases s
    | .labeled label body => do visit enclosing body (← s.addLabel label enclosing)
    | .tryCatch body catches finalizer => do
      let s ← s.addTry id
      let s ← visit (some id) body s
      let s ← visitCatches (some id) catches s
      visitOption (some id) finalizer s
    | _ => .ok s

def visitAll (enclosing : Option UInt32) : List Stmt → LabelScopes → Except Fault LabelScopes
  | [], s => .ok s
  | stmt :: stmts, s => do visitAll enclosing stmts (← visit enclosing stmt s)

def visitCases (enclosing : Option UInt32) :
    List SwitchCase → LabelScopes → Except Fault LabelScopes
  | [], s => .ok s
  | ⟨_, _, body⟩ :: cases, s => do visitCases enclosing cases (← visitAll enclosing body s)

def visitCatches (enclosing : Option UInt32) :
    List CatchClause → LabelScopes → Except Fault LabelScopes
  | [], s => .ok s
  | ⟨_, _, _, body⟩ :: clauses, s => do visitCatches enclosing clauses (← visit enclosing body s)

def visitOption (enclosing : Option UInt32) :
    Option Stmt → LabelScopes → Except Fault LabelScopes
  | none, s => .ok s
  | some stmt, s => visit enclosing stmt s

end

/-- The labels of a method body. -/
def collect (body : Stmt) : Except Fault LabelScopes := visit none body {}

end LabelScopes

end Unwind
