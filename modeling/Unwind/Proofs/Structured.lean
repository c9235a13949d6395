import Unwind.Lowering.Basic
import Unwind.Proofs.Machine

/-!
# Exceptions in the source language

A structured semantics for bodies without jumps: a statement completes or raises an exception.

* Of the catch clauses of a `try` statement the one declared **last** among those that match runs;
  an exception that matches none goes on.
* The finally block runs in every case. When it completes, what was under way goes on; when it
  raises, its exception takes the place of what was under way.
* `rethrow` raises what the innermost catch clause around it has caught.

The semantics shares values, variables and callees with the machine. An exception that is under way
is part of the outcome, never of the data.
-/

namespace Unwind.Structured

open Source (CatchClause Expr MethodRef Stmt TypeRef Variable)
open Lowering (Env)
open Machine (Data Object Value World isGenerated)

/-- How a statement ends. -/
inductive Outcome where
  | normal
  | raised (exception : Object)

/-- The exception that is under way. -/
def Outcome.exception? : Outcome → Option Object
  | normal => none
  | raised e => some e

/-! ## The fragment -/

/-- A literal, a variable, or the receiver. -/
def isAtom (e : Expr) : Bool :=
  match e.kind with
  | .literal _ | .self => true
  | .var name => !isGenerated name
  | _ => false

/-- A direct call of a void method. -/
def isVoidCall (e : Expr) : Bool :=
  match e.kind with
  | .call ⟨_, receiver, args, isVirtual⟩ =>
    e.ty.isVoid && !isVirtual && receiver.all isAtom && args.all isAtom
  | _ => false

/-- A new object. -/
def isNew (e : Expr) : Bool :=
  match e.kind with
  | .new _ _ args => args.all isAtom
  | _ => false

/-- A catch clause binds no variable, or one that a value can be stored in. -/
def isBinding (binding : Option Variable) : Bool :=
  binding.all fun v => !isGenerated v.name && !v.ty.isVoid

mutual

/-- Blocks, conditionals, calls, `throw`, `rethrow` in a catch clause, and `try`. -/
def isStructured (inCatch : Bool) : Stmt → Bool
  | ⟨_, _, kind⟩ =>
    match kind with
    | .block stmts => allStructured inCatch stmts
    | .empty => true
    | .conditional cond thenBranch elseBranch =>
      isAtom cond && !cond.ty.isVoid && isStructured inCatch thenBranch &&
        isStructured inCatch elseBranch
    | .expression e => isVoidCall e
    | .throw e => isNew e
    | .rethrow => inCatch
    | .tryCatch body catches finalizer =>
      isStructured inCatch body && catchesStructured catches &&
        optionStructured inCatch finalizer
    | _ => false

def allStructured (inCatch : Bool) : List Stmt → Bool
  | [] => true
  | s :: ss => isStructured inCatch s && allStructured inCatch ss

def catchesStructured : List CatchClause → Bool
  | [] => true
  | ⟨_, _, binding, body⟩ :: clauses =>
    isBinding binding && isStructured true body && catchesStructured clauses

def optionStructured (inCatch : Bool) : Option Stmt → Bool
  | none => true
  | some s => isStructured inCatch s

end

/-! ## The semantics -/

/-- The value of a literal or of a variable. -/
def atomValue (env : Env) (w : World) (d : Data) (e : Expr) : Value :=
  match e.kind with
  | .literal (.int n) => .int (env.literal n)
  | .literal (.bool b) => .bool b
  | .var name => d.get w name
  | .self => d.get w "this"
  | _ => .null

/-- The truth of a value, by the type of its expression. -/
def truth (env : Env) (w : World) (d : Data) (e : Expr) : Bool :=
  match e.ty.valueKind? with
  | some .boolean => (atomValue env w d e).holds
  | some .integer => atomValue env w d e != .int 0
  | some .reference => atomValue env w d e != .null
  | none => false

/-- Call a procedure. What the callee leaves in `$Exception` is raised. -/
def perform (w : World) (d : Data) (proc : String) (args : List Value) : Outcome × Data :=
  let memory := (w.call d.calls ⟨proc, args⟩ d.memory).1
  let d' : Data :=
    { d with memory := { memory with exception := none }, calls := d.calls ++ [⟨proc, args⟩] }
  match memory.exception with
  | none => (.normal, d')
  | some e => (.raised e, d')

/-- The object that is created next. -/
def newObject (d : Data) (type : TypeRef) : Object := ⟨d.memory.objects, "T$" ++ type.name⟩

/-- The data behind the creation of an object. -/
def afterNew (d : Data) : Data :=
  { d with memory := { d.memory with objects := d.memory.objects + 1 } }

/-- Create an object, run its constructor, and raise it. The constructor may raise another
exception before. -/
def throwNew (env : Env) (w : World) (d : Data) (type : TypeRef) (ctor : Option MethodRef)
    (args : List Expr) : Outcome × Data :=
  match ctor with
  | none => (.raised (newObject d type), afterNew d)
  | some method =>
    let values := args.map (atomValue env w d)
    match perform w (afterNew d) method.procedureName (.ref (newObject d type) :: values) with
    | (.normal, d') => (.raised (newObject d type), d')
    | (.raised e, d') => (.raised e, d')

/-- Whether a catch clause takes an exception. -/
def catches (w : World) (e : Object) (type : Option TypeRef) : Bool :=
  match type with
  | none => true
  | some t => w.subtype e.type ("T$" ++ t.name)

/-- Bind an exception to the variable of a catch clause. -/
def bind (w : World) (d : Data) (e : Object) (binding : Option Variable) : Data :=
  match binding with
  | none => d
  | some v => d.set w v.name (.ref e)

mutual

/-- Run a statement; `caught` is what the innermost catch clause around it has caught. -/
def exec (env : Env) (w : World) (caught : Option Object) : Stmt → Data → Outcome × Data
  | ⟨_, _, kind⟩, d =>
    match kind with
    | .block stmts => execAll env w caught stmts d
    | .conditional cond thenBranch elseBranch =>
      if truth env w d cond then exec env w caught thenBranch d
      else exec env w caught elseBranch d
    | .expression ⟨_, _, _, .call ⟨method, receiver, args, _⟩⟩ =>
      perform w d method.procedureName ((receiver.toList ++ args).map (atomValue env w d))
    | .throw ⟨_, _, _, .new type ctor args⟩ => throwNew env w d type ctor args
    | .rethrow =>
      match caught with
      | some e => (.raised e, d)
      | none => (.normal, d)
    | .tryCatch body clauses finalizer =>
      match exec env w caught body d with
      | (.normal, d₁) => execFinally env w caught finalizer (.normal, d₁)
      | (.raised e, d₁) =>
        execFinally env w caught finalizer
          ((execCatch env w e clauses d₁).getD (.raised e, d₁))
    | _ => (.normal, d)

/-- Run statements one after the other, until one raises. -/
def execAll (env : Env) (w : World) (caught : Option Object) :
    List Stmt → Data → Outcome × Data
  | [], d => (.normal, d)
  | s :: ss, d =>
    match exec env w caught s d with
    | (.normal, d₁) => execAll env w caught ss d₁
    | (.raised e, d₁) => (.raised e, d₁)

/-- Run the last catch clause that takes the exception. -/
def execCatch (env : Env) (w : World) (e : Object) :
    List CatchClause → Data → Option (Outcome × Data)
  | [], _ => none
  | ⟨_, type, binding, body⟩ :: clauses, d =>
    match execCatch env w e clauses d with
    | some r => some r
    | none =>
      if catches w e type then some (exec env w (some e) body (bind w d e binding)) else none

/-- Run the finally block on top of what is under way. -/
def execFinally (env : Env) (w : World) (caught : Option Object) :
    Option Stmt → Outcome × Data → Outcome × Data
  | none, r => r
  | some s, (o, d) =>
    match exec env w caught s d with
    | (.normal, d₁) => (o, d₁)
    | (.raised e, d₁) => (.raised e, d₁)

end

/-- The body and the catch clauses of a `try` statement. -/
def execGuarded (env : Env) (w : World) (caught : Option Object) (body : Stmt)
    (clauses : List CatchClause) (d : Data) : Outcome × Data :=
  match exec env w caught body d with
  | (.normal, d₁) => (.normal, d₁)
  | (.raised e, d₁) => (execCatch env w e clauses d₁).getD (.raised e, d₁)

theorem exec_tryCatch (env : Env) (w : World) (caught : Option Object) (id : UInt32) (span : Span)
    (body : Stmt) (clauses : List CatchClause) (finalizer : Option Stmt) (d : Data) :
    exec env w caught ⟨id, span, .tryCatch body clauses finalizer⟩ d =
      execFinally env w caught finalizer (execGuarded env w caught body clauses d) := by
  simp only [exec, execGuarded]
  rcases exec env w caught body d with ⟨_ | e, d₁⟩ <;> rfl

end Unwind.Structured
