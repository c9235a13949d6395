/-!
# The verification language

Procedures are made of straight-line commands, structured `ifElse`, labels and jumps. There is no
exception and no virtual call: both are expressed with the variables and functions named below.

* `$Exception` holds the exception that is being propagated, `null` when there is none.
* `$DynamicType(r)` is the exact type of the object `r`, and `$Subtype(a, b)` says that `a` is `b`
  or derives from it.
* `call r := $Alloc(T$X)` creates an object of type `X`, and `$Record.<ty>` records a value.
-/

namespace Unwind.Ir

/-- The global that holds the exception being propagated. -/
def exceptionVar : String := "$Exception"

/-- The procedure that creates objects. -/
def allocProc : String := "$Alloc"

/-- The name shared by the procedures that record values. -/
def recordProc : String := "$Record"

/-- The type of a variable. -/
inductive Ty where
  | int
  | bool
  | ref
  | type
deriving DecidableEq

/-- A variable with its type. -/
structure VarDecl where
  name : String
  ty : Ty
deriving DecidableEq

/-- A literal. -/
inductive Lit where
  | int (value : Int64)
  | bool (value : Bool)
  | null
deriving DecidableEq

/-- A unary operator. -/
inductive UnOp where
  | not
  | neg
deriving DecidableEq

/-- A binary operator. -/
inductive BinOp where
  | add
  | sub
  | mul
  | div
  | mod
  | eq
  | neq
  | lt
  | le
  | gt
  | ge
  | and
  | or
deriving DecidableEq

/-- An expression; it has no side effects. -/
inductive Expr where
  | lit (lit : Lit)
  | ident (name : String)
  /-- The constant that stands for a type. -/
  | typeConst (name : String)
  | unary (op : UnOp) (operand : Expr)
  | binary (op : BinOp) (lhs rhs : Expr)
  /-- The application of a function. -/
  | app (function : String) (args : List Expr)
  /-- `map[index]`, the value of an instance field. -/
  | select (map : String) (index : Expr)
  | ifThenElse (cond thenExpr elseExpr : Expr)

namespace Expr

def int (value : Int64) : Expr := lit (.int value)

def bool (value : Bool) : Expr := lit (.bool value)

def null : Expr := lit .null

/-- The constant `T$name` of the type `name`. -/
def typeNamed (name : String) : Expr := typeConst ("T$" ++ name)

def eq (a b : Expr) : Expr := binary .eq a b

def neq (a b : Expr) : Expr := binary .neq a b

def not (a : Expr) : Expr := unary .not a

/-- The exact type of an object. -/
def dynamicType (a : Expr) : Expr := app "$DynamicType" [a]

/-- `sub` is `sup` or derives from it. -/
def subtype (sub sup : Expr) : Expr := app "$Subtype" [sub, sup]

/-- The exception being propagated. -/
def exception : Expr := ident exceptionVar

end Expr

/-- A value inside an attribute. -/
inductive AttrValue where
  | expr (expr : Expr)
  | str (text : String)

/-- A note `{:key v1, v2}` on a command. -/
structure Attr where
  key : String
  values : List AttrValue

/-- The note that marks breadcrumb `n`. -/
def Attr.breadcrumb (n : UInt64) : Attr := ⟨"breadcrumb", [.expr (.int n.toInt64)]⟩

/-- The place an assignment writes. -/
inductive Lhs where
  | var (name : String)
  /-- `map[index]`. -/
  | map (map : String) (index : Expr)

/-- A command. A chain of `else if` is an `else` part that holds exactly one `ifElse`. -/
inductive Cmd where
  | assert (cond : Expr) (attrs : List Attr)
  | assume (cond : Expr) (attrs : List Attr)
  | assign (lhs : Lhs) (rhs : Expr)
  | call (attrs : List Attr) (proc : String) (args : List Expr) (outs : List String)
  | ifElse (cond : Expr) (thenCmds elseCmds : List Cmd)
  | goto (label : String)
  | label (label : String)
  | ret

namespace Cmd

/-- `name := rhs`. -/
def set (name : String) (rhs : Expr) : Cmd := assign (.var name) rhs

/-- A check without notes. -/
def check (cond : Expr) : Cmd := assert cond []

/-- An assumption without notes. -/
def suppose (cond : Expr) : Cmd := assume cond []

/-- `assume {:attr} true`, a mark without logical content. -/
def marker (attr : Attr) : Cmd := assume (.bool true) [attr]

/-- A call without notes. -/
def invoke (proc : String) (args : List Expr) (outs : List String) : Cmd := call [] proc args outs

/-- A conditional without an `else` part. -/
def ifThen (cond : Expr) (thenCmds : List Cmd) : Cmd := ifElse cond thenCmds []

mutual

/-- The command and every command nested in it: itself, its `then` part, its `else` part. -/
def withNested : Cmd → List Cmd
  | c@(ifElse _ thenCmds elseCmds) => c :: (allNested thenCmds ++ allNested elseCmds)
  | c => [c]

/-- The commands of a list, each followed by what is nested in it. -/
def allNested : List Cmd → List Cmd
  | [] => []
  | c :: cs => withNested c ++ allNested cs

end

end Cmd

/-- A procedure; without a body it is only declared. -/
structure Procedure where
  name : String
  params : List VarDecl
  returns : List VarDecl
  locals : List VarDecl
  body : Option (List Cmd)

namespace Procedure

/-- A procedure whose body is provided elsewhere. -/
def declaration (name : String) (params returns : List VarDecl) : Procedure :=
  { name, params, returns, locals := [], body := none }

/-- Every command of the body, nested ones included. -/
def commands (p : Procedure) : List Cmd := Cmd.allNested (p.body.getD [])

end Procedure

/-- A program of the verification language. -/
structure Program where
  typeConstants : List String
  globals : List VarDecl
  /-- The instance fields, each a map from references to values. -/
  fieldMaps : List VarDecl
  procedures : List Procedure

/-- The first procedure of the given name. -/
def Program.procedure? (p : Program) (name : String) : Option Procedure :=
  p.procedures.find? (·.name == name)

end Unwind.Ir
