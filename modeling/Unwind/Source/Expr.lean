import Unwind.Span
import Unwind.Source.Name

/-!
# Expressions of the source program

An expression is a node with an id, a place and a static type around its kind. The kinds are
those of a structured object language; `target` stands for a place that a compound assignment
reads and writes, and `pop` takes the value that the last `push` statement left.
-/

namespace Unwind.Source

/-- A literal. -/
inductive Lit where
  | int (value : Int64)
  | bool (value : Bool)
  | null
deriving DecidableEq

/-- A unary operator. -/
inductive UnOp where
  | not
  | neg
deriving DecidableEq

/-- A binary operator; `and` and `or` evaluate their right operand only when they need it. -/
inductive BinOp where
  | add
  | sub
  | mul
  | div
  | rem
  | eq
  | ne
  | lt
  | le
  | gt
  | ge
  | and
  | or
deriving DecidableEq

mutual

/-- An expression. -/
structure Expr where
  id : UInt32 := 0
  span : Span := {}
  ty : Ty
  kind : ExprKind

/-- What an expression does. -/
inductive ExprKind where
  | literal (lit : Lit)
  /-- A local variable or a parameter. -/
  | var (name : String)
  /-- The receiver of the running method. -/
  | self
  /-- An instance field, or a static one when there is no object. -/
  | field (object : Option Expr) (field : FieldRef)
  | unary (op : UnOp) (operand : Expr)
  | binary (op : BinOp) (lhs rhs : Expr)
  | conditional (cond thenExpr elseExpr : Expr)
  | assign (target : Target) (value : Expr)
  /-- A place read and written by a compound assignment, as its left operand. -/
  | target (target : Target)
  | call (call : Call)
  | new (type : TypeRef) (ctor : Option MethodRef) (args : List Expr)
  /-- The representation of a type. -/
  | typeOf (type : TypeRef)
  /-- The exact type of an object at run time. -/
  | getType (object : Expr)
  | conversion (value : Expr) (newTy : Ty)
  | defaultValue (ty : Ty)
  /-- The value most recently pushed. -/
  | pop

/-- A place that can be assigned. -/
inductive Target where
  | var (name : String)
  | field (object : Option Expr) (field : FieldRef)

/-- A call of a method. -/
structure Call where
  method : MethodRef
  receiver : Option Expr := none
  args : List Expr := []
  isVirtual : Bool := false

end

namespace Expr

/-- An expression with no id and no place. -/
def ofKind (kind : ExprKind) (ty : Ty) : Expr := { ty, kind }

def int (value : Int64) : Expr := ofKind (.literal (.int value)) .int

def bool (value : Bool) : Expr := ofKind (.literal (.bool value)) .bool

def null (ty : Ty) : Expr := ofKind (.literal .null) ty

def var (name : String) (ty : Ty) : Expr := ofKind (.var name) ty

def binary (op : BinOp) (lhs rhs : Expr) (ty : Ty) : Expr := ofKind (.binary op lhs rhs) ty

/-- An assignment has the type of the value it stores. -/
def assign (target : Target) (value : Expr) : Expr := ofKind (.assign target value) value.ty

def ofCall (call : Call) (result : Ty) : Expr := ofKind (.call call) result

/-- An object created without a constructor call. -/
def newObject (type : TypeRef) : Expr := ofKind (.new type none []) (.named type)

/-- The same expression at another place. -/
def withSpan (e : Expr) (span : Span) : Expr := { e with span }

/-- Whether the expression is a place rather than a value. -/
def isTarget (e : Expr) : Bool :=
  match e.kind with
  | .target _ => true
  | _ => false

end Expr

namespace Call

/-- A call that runs exactly the named method. -/
def direct (method : MethodRef) (receiver : Option Expr) (args : List Expr) : Call :=
  { method, receiver, args }

/-- A call that runs the method the receiver's exact type asks for. -/
def dispatched (method : MethodRef) (receiver : Expr) (args : List Expr) : Call :=
  { method, receiver := some receiver, args, isVirtual := true }

end Call

end Unwind.Source
