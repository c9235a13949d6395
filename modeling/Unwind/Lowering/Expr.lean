import Unwind.Lowering.Unwinding

/-!
# Lowering expressions

An expression is lowered to at most one value; the commands its side effects need are emitted on
the way. Calls become commands on the procedure named after the method, objects come from `$Alloc`,
and an instance field is a map from references to values.

Evaluation goes from left to right. Where the right operand of an operator needs commands, the left
one is kept in a variable first; `and`, `or` and conditionals run the commands of a part only when
that part is evaluated.
-/

namespace Unwind.Lowering

open Source (BinOp Call Expr ExprKind Lit MethodRef Target Ty TypeRef UnOp)
open Ir (Cmd)

def binOp : BinOp → Ir.BinOp
  | .add => .add
  | .sub => .sub
  | .mul => .mul
  | .div => .div
  | .rem => .mod
  | .eq => .eq
  | .ne => .neq
  | .lt => .lt
  | .le => .le
  | .gt => .gt
  | .ge => .ge
  | .and => .and
  | .or => .or

def unOp : UnOp → Ir.UnOp
  | .not => .not
  | .neg => .neg

def literal (env : Env) : Lit → Ir.Expr
  | .int n => .int (env.literal n)
  | .bool b => .bool b
  | .null => .null

/-! ## Values and conditions -/

/-- The value of an expression that must have one. -/
def valueOf (e : Expr) (act : Lower (Option Ir.Expr)) : Lower Ir.Expr := do
  match ← act with
  | some value => return value
  | none => throw (.noValue e.ty.text e.span)

/-- The truth of a value, by the kind of value its expression has. -/
def truthOf (e : Expr) (value : Ir.Expr) : Except Fault Ir.Expr :=
  match e.ty.valueKind? with
  | some .boolean => .ok value
  | some .integer => .ok (.neq value (.int 0))
  | some .reference => .ok (.neq value .null)
  | none => .error (.voidCondition e.span)

/-- The truth of an expression that is used as a condition. -/
def conditionOf (e : Expr) (act : Lower (Option Ir.Expr)) : Lower Ir.Expr := do
  truthOf e (← valueOf e act)

/-! ## The commands of each kind -/

/-- A new object. -/
def alloc (type : TypeRef) : Lower Ir.Expr := do
  let object ← freshLocal "tmp" .ref
  emit (.invoke Ir.allocProc [.typeNamed type.name] [object])
  return .ident object

/-- A call, followed by the jump to the handler if the callee raised. -/
def emitCall (env : Env) (method : MethodRef) (args : List Ir.Expr) (outs : List String) :
    Lower Unit := do
  emit (.invoke method.procedureName args outs)
  if env.options.modelsExceptions then propagateIfAny env

/-- A call whose operands are lowered; its result goes to a new variable unless it is void. -/
def finishCall (env : Env) (method : MethodRef) (args : List Ir.Expr) (result : Ty) :
    Lower (Option Ir.Expr) := do
  if result.isVoid then
    emitCall env method args []
    return none
  else
    let out ← freshLocal "tmp" (← irTy result {})
    emitCall env method args [out]
    return some (.ident out)

/-- An object whose constructor arguments are lowered. -/
def finishNew (env : Env) (type : TypeRef) (ctor : Option MethodRef) (args : List Ir.Expr) :
    Lower Ir.Expr := do
  let object ← alloc type
  match ctor with
  | some method => emitCall env method (object :: args) []
  | none => pure ()
  return object

/-- An operator whose operands are lowered; `rightCmds` are the commands of the right one. -/
def finishBinary (op : BinOp) (lhs : Expr) (left right : Ir.Expr) (rightCmds : List Cmd) :
    Lower Ir.Expr := do
  if rightCmds.isEmpty then return .binary (binOp op) left right
  match op with
  | .and | .or =>
    let tmp ← freshLocal "tmp" .bool
    emit (.set tmp left)
    let guard : Ir.Expr := if op = .and then .ident tmp else .not (.ident tmp)
    emit (.ifThen guard (rightCmds ++ [.set tmp right]))
    return .ident tmp
  | _ =>
    let tmp ← freshLocal "tmp" (← irTy lhs.ty lhs.span)
    emit (.set tmp left)
    emitAll rightCmds
    return .binary (binOp op) (.ident tmp) right

/-- A conditional whose parts are lowered. -/
def finishConditional (ty : Ty) (span : Span) (cond : Ir.Expr)
    (thenPart elsePart : Ir.Expr × List Cmd) : Lower Ir.Expr := do
  if thenPart.2.isEmpty && elsePart.2.isEmpty then
    return .ifThenElse cond thenPart.1 elsePart.1
  let tmp ← freshLocal "tmp" (← irTy ty span)
  emit (.ifElse cond (thenPart.2 ++ [.set tmp thenPart.1]) (elsePart.2 ++ [.set tmp elsePart.1]))
  return .ident tmp

/-- A conversion; only truth values and integers change their shape. -/
def convert (source target : Ty) (value : Ir.Expr) : Ir.Expr :=
  match source, target with
  | .bool, .int => .ifThenElse value (.int 1) (.int 0)
  | .int, .bool => .neq value (.int 0)
  | _, _ => value

/-- The default value of a type; a struct gets a new object. -/
def defaultValue (env : Env) (ty : Ty) (span : Span) : Lower Ir.Expr := do
  match ty with
  | .void => throw (.voidDefault span)
  | .bool => return .bool false
  | .int => return .int 0
  | .named t => if env.types.isStruct ty then alloc t else return .null

/-! ## Expressions -/

mutual

/-- Lower an expression. `compound` allows it to be a compound assignment, an operator whose left
operand is a target. -/
def lowerExpr (env : Env) : Expr → Bool → Lower (Option Ir.Expr)
  | ⟨_, span, ty, kind⟩, compound => do
    match kind with
    | .literal lit => return some (literal env lit)
    | .var name => return some (.ident name)
    | .self => return some (.ident "this")
    | .field none field => return some (.ident field.mapName)
    | .field (some object) field =>
      let object ← valueOf object (lowerExpr env object false)
      return some (.select field.mapName object)
    | .unary op operand =>
      let operand ← valueOf operand (lowerExpr env operand false)
      return some (.unary (unOp op) operand)
    | .binary op ⟨_, _, _, .target target⟩ rhs =>
      unless compound do throw (.compoundAsValue span)
      let current ← readTarget env target
      let rhs ← valueOf rhs (lowerExpr env rhs false)
      writeTarget env target (.binary (binOp op) current rhs)
      return some (← readTarget env target)
    | .binary op lhs rhs =>
      let left ← valueOf lhs (lowerExpr env lhs false)
      let (right, rightCmds) ← buffered (valueOf rhs (lowerExpr env rhs false))
      return some (← finishBinary op lhs left right rightCmds)
    | .conditional cond thenExpr elseExpr =>
      let cond ← conditionOf cond (lowerExpr env cond false)
      let thenPart ← buffered (valueOf thenExpr (lowerExpr env thenExpr false))
      let elsePart ← buffered (valueOf elseExpr (lowerExpr env elseExpr false))
      return some (← finishConditional ty span cond thenPart elsePart)
    | .assign target value =>
      let value ← valueOf value (lowerExpr env value false)
      writeTarget env target value
      return some (← readTarget env target)
    | .target target => return some (← readTarget env target)
    | .call ⟨method, receiver, args, _⟩ =>
      let receiver ← lowerOption env receiver
      let args ← lowerArgs env args
      finishCall env method (receiver.toList ++ args) ty
    | .new type ctor args =>
      let args ← lowerArgs env args
      return some (← finishNew env type ctor args)
    | .typeOf type => return some (.typeNamed type.name)
    | .getType object =>
      let object ← valueOf object (lowerExpr env object false)
      return some (.dynamicType object)
    | .conversion value newTy =>
      let lowered ← valueOf value (lowerExpr env value false)
      return some (convert value.ty newTy lowered)
    | .defaultValue valueTy => return some (← defaultValue env valueTy span)
    | .pop => return some (← popOperand)

/-- The value at a place. -/
def readTarget (env : Env) : Target → Lower Ir.Expr
  | .var name => return .ident name
  | .field none field => return .ident field.mapName
  | .field (some object) field => do
    let object ← valueOf object (lowerExpr env object false)
    return .select field.mapName object

/-- Store a value at a place. -/
def writeTarget (env : Env) : Target → Ir.Expr → Lower Unit
  | .var name, value => emit (.set name value)
  | .field none field, value => emit (.set field.mapName value)
  | .field (some object) field, value => do
    let object ← valueOf object (lowerExpr env object false)
    emit (.assign (.map field.mapName object) value)

/-- The value of a receiver, where there is one. -/
def lowerOption (env : Env) : Option Expr → Lower (Option Ir.Expr)
  | none => return none
  | some e => return some (← valueOf e (lowerExpr env e false))

/-- The values of arguments, from left to right. -/
def lowerArgs (env : Env) : List Expr → Lower (List Ir.Expr)
  | [] => return []
  | e :: es => return (← valueOf e (lowerExpr env e false)) :: (← lowerArgs env es)

end

/-- The value of an expression. -/
def value (env : Env) (e : Expr) : Lower Ir.Expr := valueOf e (lowerExpr env e false)

/-- The truth of an expression. -/
def condition (env : Env) (e : Expr) : Lower Ir.Expr := conditionOf e (lowerExpr env e false)

end Unwind.Lowering
