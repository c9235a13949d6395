import Unwind.Json.Decode
import Unwind.Ir.Basic

/-!
# Programs of the verification language as JSON

Each type has `toJson` and `ofJson?`, in the shapes of `Unwind.Json.Decode`. No field has a
default here. A variant with several unnamed parts is an array of exactly that length.
-/

namespace Unwind.Ir

open Json (Decoder tagged)

namespace Ty

def tag : Ty → String
  | int => "Int"
  | bool => "Bool"
  | ref => "Ref"
  | type => "Type"

def ofTag? : String → Option Ty
  | "Int" => some int
  | "Bool" => some bool
  | "Ref" => some ref
  | "Type" => some type
  | _ => none

def toJson (t : Ty) : Json := .str t.tag

def ofJson? : Decoder Ty := fun n j => (Json.tag? n j).bind ofTag?

end Ty

namespace VarDecl

def toJson (v : VarDecl) : Json := .obj [("name", .str v.name), ("ty", v.ty.toJson)]

def ofJson? : Decoder VarDecl
  | n + 1, j =>
    match j.slots? ["name", "ty"] with
    | some [name, ty] => do
      return { name := ← name.required Json.str?, ty := ← ty.required (Ty.ofJson? n) }
    | _ => none
  | 0, _ => none

end VarDecl

/-! ## Expressions -/

namespace Lit

def toJson : Lit → Json
  | int n => tagged "Int" (.ofInt64 n)
  | bool b => tagged "Bool" (.bool b)
  | null => .str "Null"

def ofJson? : Decoder Lit
  | _ + 1, .obj [("Int", content)] => content.int64?.map int
  | _ + 1, .obj [("Bool", content)] => content.bool?.map bool
  | n, j => (Json.tag? n j).bind fun tag => if tag = "Null" then some null else none

end Lit

namespace UnOp

def tag : UnOp → String
  | not => "Not"
  | neg => "Neg"

def ofTag? : String → Option UnOp
  | "Not" => some not
  | "Neg" => some neg
  | _ => none

def ofJson? : Decoder UnOp := fun n j => (Json.tag? n j).bind ofTag?

end UnOp

namespace BinOp

def tag : BinOp → String
  | add => "Add"
  | sub => "Sub"
  | mul => "Mul"
  | div => "Div"
  | mod => "Mod"
  | eq => "Eq"
  | neq => "Neq"
  | lt => "Lt"
  | le => "Le"
  | gt => "Gt"
  | ge => "Ge"
  | and => "And"
  | or => "Or"

def ofTag? : String → Option BinOp
  | "Add" => some add
  | "Sub" => some sub
  | "Mul" => some mul
  | "Div" => some div
  | "Mod" => some mod
  | "Eq" => some eq
  | "Neq" => some neq
  | "Lt" => some lt
  | "Le" => some le
  | "Gt" => some gt
  | "Ge" => some ge
  | "And" => some and
  | "Or" => some or
  | _ => none

def ofJson? : Decoder BinOp := fun n j => (Json.tag? n j).bind ofTag?

end BinOp

mutual

def Expr.toJson : Expr → Json
  | .lit l => tagged "Lit" l.toJson
  | .ident name => tagged "Ident" (.str name)
  | .typeConst name => tagged "TypeConst" (.str name)
  | .unary op operand => tagged "Unary" (.arr [.str op.tag, operand.toJson])
  | .binary op lhs rhs => tagged "Binary" (.arr [.str op.tag, lhs.toJson, rhs.toJson])
  | .app function args => tagged "App" (.arr [.str function, .arr (Expr.listToJson args)])
  | .select map index => tagged "Select" (.arr [.str map, index.toJson])
  | .ifThenElse cond thenExpr elseExpr =>
    tagged "IfThenElse" (.arr [cond.toJson, thenExpr.toJson, elseExpr.toJson])

def Expr.listToJson : List Expr → List Json
  | [] => []
  | e :: es => e.toJson :: Expr.listToJson es

end

mutual

def Expr.ofJson? : Decoder Expr
  | n + 1, .obj [(tag, content)] =>
    match tag with
    | "Lit" => (Lit.ofJson? n content).map .lit
    | "Ident" => content.str?.map .ident
    | "TypeConst" => content.str?.map .typeConst
    | _ => Expr.ofParts? n tag content
  | _, _ => none

/-- The kinds whose content is an array of parts. -/
def Expr.ofParts? : Nat → String → Json → Option Expr
  | n + 1, tag, .arr parts =>
    match tag, parts with
    | "Unary", [op, operand] => do return .unary (← UnOp.ofJson? n op) (← Expr.ofJson? n operand)
    | "Binary", [op, lhs, rhs] => do
      return .binary (← BinOp.ofJson? n op) (← Expr.ofJson? n lhs) (← Expr.ofJson? n rhs)
    | "App", [function, args] => do return .app (← function.str?) (← Expr.listOfJson? n args)
    | "Select", [map, index] => do return .select (← map.str?) (← Expr.ofJson? n index)
    | "IfThenElse", [cond, thenExpr, elseExpr] => do
      return .ifThenElse (← Expr.ofJson? n cond) (← Expr.ofJson? n thenExpr)
        (← Expr.ofJson? n elseExpr)
    | _, _ => none
  | _, _, _ => none

def Expr.listOfJson? : Decoder (List Expr)
  | n + 1, .arr items => items.mapM (Expr.ofJson? n)
  | _, _ => none

end

/-! ## Commands -/

namespace AttrValue

def toJson : AttrValue → Json
  | expr e => tagged "Expr" e.toJson
  | str s => tagged "Str" (.str s)

def ofJson? : Decoder AttrValue
  | n + 1, .obj [("Expr", content)] => (Expr.ofJson? n content).map expr
  | _ + 1, .obj [("Str", content)] => content.str?.map str
  | _, _ => none

end AttrValue

namespace Attr

def toJson (a : Attr) : Json :=
  .obj [("key", .str a.key), ("values", .arr (a.values.map AttrValue.toJson))]

def ofJson? : Decoder Attr
  | n + 1, j =>
    match j.slots? ["key", "values"] with
    | some [key, values] => do
      return { key := ← key.required Json.str?,
               values := ← values.required (Json.list? AttrValue.ofJson? n) }
    | _ => none
  | 0, _ => none

end Attr

namespace Lhs

def toJson : Lhs → Json
  | var name => tagged "Var" (.str name)
  | map m index => tagged "Map" (.arr [.str m, index.toJson])

def ofJson? : Decoder Lhs
  | _ + 1, .obj [("Var", content)] => content.str?.map var
  | n + 2, .obj [("Map", .arr [m, index])] => do return map (← m.str?) (← Expr.ofJson? n index)
  | _, _ => none

end Lhs

mutual

def Cmd.toJson : Cmd → Json
  | .assert cond attrs =>
    tagged "Assert" (.obj [("cond", cond.toJson), ("attrs", .arr (attrs.map Attr.toJson))])
  | .assume cond attrs =>
    tagged "Assume" (.obj [("cond", cond.toJson), ("attrs", .arr (attrs.map Attr.toJson))])
  | .assign lhs rhs => tagged "Assign" (.obj [("lhs", lhs.toJson), ("rhs", rhs.toJson)])
  | .call attrs proc args outs =>
    tagged "Call" (.obj [("attrs", .arr (attrs.map Attr.toJson)), ("proc", .str proc),
      ("args", .arr (Expr.listToJson args)), ("outs", .arr (outs.map Json.str))])
  | .ifElse cond thenCmds elseCmds =>
    tagged "If" (.obj [("cond", cond.toJson), ("then_cmds", .arr (Cmd.listToJson thenCmds)),
      ("else_cmds", .arr (Cmd.listToJson elseCmds))])
  | .goto target => tagged "Goto" (.str target)
  | .label name => tagged "Label" (.str name)
  | .ret => .str "Return"

def Cmd.listToJson : List Cmd → List Json
  | [] => []
  | c :: cs => c.toJson :: Cmd.listToJson cs

end

/-- An array of names. -/
def namesOfJson? : Decoder (List String) := Json.list? fun _ j => j.str?

mutual

def Cmd.ofJson? (positional : Bool) : Decoder Cmd
  | n + 1, .obj [(tag, content)] =>
    match tag with
    | "Goto" => content.str?.map .goto
    | "Label" => content.str?.map .label
    | "Return" => content.null?.map fun _ => .ret
    | _ => Cmd.ofContent? positional n tag content
  | _, .str "Return" => some .ret
  | _, _ => none

/-- The kinds whose content is a record. -/
def Cmd.ofContent? (positional : Bool) : Nat → String → Json → Option Cmd
  | n + 1, tag, content =>
    match tag with
    | "Assert" =>
      match content.contentSlots? positional ["cond", "attrs"] with
      | some [cond, attrs] => do
        return .assert (← cond.required (Expr.ofJson? n))
          (← attrs.required (Json.list? Attr.ofJson? n))
      | _ => none
    | "Assume" =>
      match content.contentSlots? positional ["cond", "attrs"] with
      | some [cond, attrs] => do
        return .assume (← cond.required (Expr.ofJson? n))
          (← attrs.required (Json.list? Attr.ofJson? n))
      | _ => none
    | "Assign" =>
      match content.contentSlots? positional ["lhs", "rhs"] with
      | some [lhs, rhs] => do
        return .assign (← lhs.required (Lhs.ofJson? n)) (← rhs.required (Expr.ofJson? n))
      | _ => none
    | "Call" =>
      match content.contentSlots? positional ["attrs", "proc", "args", "outs"] with
      | some [attrs, proc, args, outs] => do
        return .call (← attrs.required (Json.list? Attr.ofJson? n)) (← proc.required Json.str?)
          (← args.required (Expr.listOfJson? n)) (← outs.required (namesOfJson? n))
      | _ => none
    | "If" =>
      match content.contentSlots? positional ["cond", "then_cmds", "else_cmds"] with
      | some [cond, thenCmds, elseCmds] => do
        return .ifElse (← cond.required (Expr.ofJson? n))
          (← thenCmds.required (Cmd.listOfJson? positional n))
          (← elseCmds.required (Cmd.listOfJson? positional n))
      | _ => none
    | _ => none
  | 0, _, _ => none

def Cmd.listOfJson? (positional : Bool) : Decoder (List Cmd)
  | n + 1, .arr items => items.mapM (Cmd.ofJson? positional n)
  | _, _ => none

end

/-! ## Procedures and programs -/

namespace Procedure

def bodyToJson : Option (List Cmd) → Json
  | none => .null
  | some cmds => .arr (Cmd.listToJson cmds)

def toJson (p : Procedure) : Json :=
  .obj [("name", .str p.name), ("params", .arr (p.params.map VarDecl.toJson)),
    ("returns", .arr (p.returns.map VarDecl.toJson)),
    ("locals", .arr (p.locals.map VarDecl.toJson)), ("body", bodyToJson p.body)]

def ofJson? (positional : Bool) : Decoder Procedure
  | n + 1, j =>
    match j.slots? ["name", "params", "returns", "locals", "body"] with
    | some [name, params, returns, locals, body] => do
      return { name := ← name.required Json.str?,
               params := ← params.required (Json.list? VarDecl.ofJson? n),
               returns := ← returns.required (Json.list? VarDecl.ofJson? n),
               locals := ← locals.required (Json.list? VarDecl.ofJson? n),
               body := ← body.nullable (Cmd.listOfJson? positional n) }
    | _ => none
  | 0, _ => none

end Procedure

namespace Program

def toJson (p : Program) : Json :=
  .obj [("type_constants", .arr (p.typeConstants.map Json.str)),
    ("globals", .arr (p.globals.map VarDecl.toJson)),
    ("field_maps", .arr (p.fieldMaps.map VarDecl.toJson)),
    ("procedures", .arr (p.procedures.map Procedure.toJson))]

def ofJson? (positional : Bool) : Decoder Program
  | n + 1, j =>
    match j.slots? ["type_constants", "globals", "field_maps", "procedures"] with
    | some [typeConstants, globals, fieldMaps, procedures] => do
      return { typeConstants := ← typeConstants.required (namesOfJson? n),
               globals := ← globals.required (Json.list? VarDecl.ofJson? n),
               fieldMaps := ← fieldMaps.required (Json.list? VarDecl.ofJson? n),
               procedures := ← procedures.required (Json.list? (Procedure.ofJson? positional) n) }
    | _ => none
  | 0, _ => none

end Program

end Unwind.Ir
