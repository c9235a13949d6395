import Unwind.Dispatch.Expansion
import Unwind.Proofs.Machine
import Unwind.Proofs.Lowering.Steps

/-!
# Evaluating source expressions

What an expression of the source does when it is evaluated, with the values and the memory of the
machine that lowered procedures run on. Operands are evaluated from left to right, `and` and `or`
only as far as needed; a stored value is read back from its place.

The calls that are performed are recorded in order, with the values of their operands. What they do
is a parameter, the `World`; it sees all calls made so far.
-/

namespace Unwind.Evaluation

open Source
open Machine (Memory Value)
open Lowering (binOp unOp run_bind)

/-! ## State -/

/-- A call that has been performed. -/
structure Invocation where
  method : MethodRef
  isVirtual : Bool
  receiver : Option Value
  args : List Value

/-- What an evaluation reads and changes. -/
structure Store where
  locals : String → Value
  memory : Memory := {}
  /-- The values that have been pushed, the last one first. -/
  operands : List Value := []
  /-- The calls performed so far, the oldest first. -/
  calls : List Invocation := []

/-- Why an evaluation ends early. -/
inductive Halt where
  /-- A callee left an exception. -/
  | raised
  /-- The expression has no meaning: a value is missing. -/
  | stuck

/-- The types that are copied and the behaviour of the callees. -/
structure World where
  isStruct : Ty → Bool
  /-- What a call does after the calls performed before it, and the value it returns. -/
  call : List Invocation → Invocation → Memory → Memory × Value

/-- A part of an evaluation; what it did before it ended early stays done. -/
abbrev Evaluating := ExceptT Halt (StateM Store)

/-! ## Calls, objects and fields -/

/-- Perform a call of static type `result`. -/
def perform (w : World) (i : Invocation) (result : Ty) : Evaluating (Option Value) := do
  let s ← get
  let (memory, value) := w.call s.calls i s.memory
  set { s with memory, calls := s.calls ++ [i] }
  if memory.exception.isSome then throw .raised
  return if result.isVoid then none else some value

/-- The value of an expression that must have one. -/
def demand : Option Value → Evaluating Value
  | some v => return v
  | none => throw .stuck

/-- The constant that stands for a type. -/
def typeConstant (t : TypeRef) : Value := .type ("T$" ++ t.name)

/-- A new object. -/
def create (t : TypeRef) : Evaluating Value := do
  let s ← get
  set { s with memory := { s.memory with objects := s.memory.objects + 1 } }
  return .ref (some ⟨s.memory.objects, "T$" ++ t.name⟩)

/-- The value of a local variable. -/
def readLocal (name : String) : Evaluating Value := return (← get).locals name

/-- Store a value in a local variable. -/
def writeLocal (name : String) (v : Value) : Evaluating Unit :=
  modify fun s => { s with locals := Function.update s.locals name v }

/-- The value of a field, of a static one when there is no object. -/
def readField (object : Option Value) (field : FieldRef) : Evaluating Value := do
  let s ← get
  match object with
  | none => return s.memory.globals field.mapName
  | some o => return s.memory.fields field.mapName o

/-- Memory with another value in a field. -/
def setField (memory : Memory) (object : Option Value) (field : FieldRef) (v : Value) : Memory :=
  match object with
  | none => { memory with globals := Function.update memory.globals field.mapName v }
  | some o =>
    let map := Function.update (memory.fields field.mapName) o v
    { memory with fields := Function.update memory.fields field.mapName map }

/-- Store a value in a field. -/
def writeField (object : Option Value) (field : FieldRef) (v : Value) : Evaluating Unit :=
  modify fun s => { s with memory := setField s.memory object field v }

/-! ## Values -/

def literal : Lit → Value
  | .int n => .int n
  | .bool b => .bool b
  | .null => .null

/-- The truth of a value, by the kind of value its expression has. -/
def truth (ty : Ty) (v : Value) : Evaluating Bool :=
  match ty.valueKind? with
  | some .boolean => return v.holds
  | some .integer => return v != .int 0
  | some .reference => return v != .null
  | none => throw .stuck

/-- The left operand decides the value of the operator. -/
def isDecided (op : BinOp) (left : Value) : Bool :=
  match op with
  | .and => !left.holds
  | .or => left.holds
  | _ => false

/-- A conversion; only truth values and integers change their shape. -/
def convert (source target : Ty) (v : Value) : Value :=
  match source, target with
  | .bool, .int => .int (if v.holds then 1 else 0)
  | .int, .bool => .bool (v != .int 0)
  | _, _ => v

/-- The default value of a type; a struct gets a new object. -/
def defaultValue (w : World) (ty : Ty) : Evaluating Value :=
  match ty with
  | .void => throw .stuck
  | .bool => return .bool false
  | .int => return .int 0
  | .named t => if w.isStruct ty then create t else return .null

/-- Take the value pushed last. -/
def pop : Evaluating Value := do
  let s ← get
  match s.operands with
  | v :: rest =>
    set { s with operands := rest }
    return v
  | [] => throw .stuck

/-! ## Expressions -/

mutual

/-- The value of an expression; a void call has none. -/
def eval (w : World) : Expr → Evaluating (Option Value)
  | ⟨_, _, ty, kind⟩ => do
    match kind with
    | .literal lit => return some (literal lit)
    | .var name => return some (← readLocal name)
    | .self => return some (← readLocal "this")
    | .field object field => return some (← readField (← evalOption w object) field)
    | .unary op e => return some (Machine.unary (unOp op) (← demand (← eval w e)))
    | .binary op ⟨_, _, _, .target target⟩ rhs =>
      let current ← readTarget w target
      let right ← demand (← eval w rhs)
      writeTarget w target (Machine.binary (binOp op) current right)
      return some (← readTarget w target)
    | .binary op lhs rhs =>
      let left ← demand (← eval w lhs)
      if isDecided op left then return some left
      return some (Machine.binary (binOp op) left (← demand (← eval w rhs)))
    | .conditional cond thenExpr elseExpr =>
      let c ← demand (← eval w cond)
      if ← truth cond.ty c then eval w thenExpr else eval w elseExpr
    | .assign target value =>
      writeTarget w target (← demand (← eval w value))
      return some (← readTarget w target)
    | .target target => return some (← readTarget w target)
    | .call ⟨method, receiver, args, isVirtual⟩ =>
      let receiver ← evalOption w receiver
      let args ← evalAll w args
      perform w ⟨method, isVirtual, receiver, args⟩ ty
    | .new type ctor args =>
      let args ← evalAll w args
      let object ← create type
      match ctor with
      | some method =>
        let _ ← perform w ⟨method, false, some object, args⟩ .void
        return some object
      | none => return some object
    | .typeOf type => return some (typeConstant type)
    | .getType object => return some (Machine.dynamicType (← demand (← eval w object)))
    | .conversion value newTy =>
      return some (convert value.ty newTy (← demand (← eval w value)))
    | .defaultValue valueTy => return some (← defaultValue w valueTy)
    | .pop => return some (← pop)

/-- The value at a place. -/
def readTarget (w : World) : Target → Evaluating Value
  | .var name => readLocal name
  | .field object field => do readField (← evalOption w object) field

/-- Store a value at a place. -/
def writeTarget (w : World) : Target → Value → Evaluating Unit
  | .var name, v => writeLocal name v
  | .field object field, v => do writeField (← evalOption w object) field v

/-- The value of a receiver, where there is one. -/
def evalOption (w : World) : Option Expr → Evaluating (Option Value)
  | none => return none
  | some e => return some (← demand (← eval w e))

/-- The values of arguments, from left to right. -/
def evalAll (w : World) : List Expr → Evaluating (List Value)
  | [] => return []
  | e :: es => return (← demand (← eval w e)) :: (← evalAll w es)

end

/-! ## Statements -/

/-- Evaluate for the effects alone. -/
def forEffect {α : Type} (x : Evaluating α) : Evaluating Unit := do
  let _ ← x
  return ()

mutual

/-- Execute a statement that is made of expressions, conditionals and blocks. Nothing is said of the
others, which do not stand in the place of a call. -/
def exec (w : World) : Stmt → Evaluating Unit
  | ⟨_, _, kind⟩ => do
    match kind with
    | .block stmts => execAll w stmts
    | .empty => return ()
    | .expression e => forEffect (eval w e)
    | .conditional cond thenBranch elseBranch =>
      let c ← demand (← eval w cond)
      if ← truth cond.ty c then exec w thenBranch else exec w elseBranch
    | _ => throw .stuck

def execAll (w : World) : List Stmt → Evaluating Unit
  | [] => return ()
  | s :: ss => do
    exec w s
    execAll w ss

end

/-! ## Laws -/

section

variable {w : World} {s s' : Store} {α : Type}

/-- A call is recorded once, whether it raises or not. -/
theorem calls_perform (w : World) (i : Invocation) (result : Ty) (s : Store) :
    ((perform w i result).run s).2.calls = s.calls ++ [i] := by
  unfold perform
  rw [run_bind]
  -- the call is recorded before the exception is looked at
  show ((if (w.call s.calls i s.memory).1.exception.isSome then _ else _ :
    Evaluating (Option Value)).run _).2.calls = _
  split <;> rfl

theorem run_demand_bind {e : Evaluating (Option Value)} {v : Value} (f : Value → Evaluating α)
    (h : e.run s = (.ok (some v), s')) :
    (do let v ← demand (← e); f v : Evaluating α).run s = (f v).run s' := by
  rw [run_bind, h]
  rfl

theorem run_forEffect_congr {x y : Evaluating α} (h : x.run s = y.run s) :
    (forEffect x).run s = (forEffect y).run s := by
  unfold forEffect
  rw [run_bind, run_bind, h]

/-- A local holds what was stored in it. -/
theorem writeLocal_readLocal (name : String) (v : Value) (f : Value → Evaluating α) :
    (do writeLocal name v; f (← readLocal name) : Evaluating α) = (do writeLocal name v; f v) := by
  refine funext fun s => ?_
  show (f (Function.update s.locals name v name)).run _ = (f v).run _
  rw [Function.update_self]

/-- What follows a value only matters for the values there are. -/
theorem demand_bind_congr {e : Evaluating (Option Value)} {f g : Value → Evaluating α}
    (h : ∀ v s s', e.run s = (.ok (some v), s') → (f v).run s' = (g v).run s') :
    (do let v ← demand (← e); f v : Evaluating α) = (do let v ← demand (← e); g v) := by
  refine funext fun s => ?_
  show (e >>= _ : Evaluating α).run s = (e >>= _ : Evaluating α).run s
  rw [run_bind, run_bind]
  rcases hrun : e.run s with ⟨_ | _ | v, s'⟩
  · rfl
  · rfl
  · exact h v s s' hrun

end

end Unwind.Evaluation
