import Unwind.Source.Codec.Name
import Unwind.Source.Expr

/-!
# JSON form of expressions

A kind of expression is a variant: its tag, and its content where it has any. `positional` says
whether the content of a variant may also be written as an array of its fields.
-/

namespace Unwind.Source

open Json (Decoder tagged)

/-! ## Literals and operators -/

namespace Lit

def toJson : Lit → Json
  | int n => tagged "int" (.ofInt64 n)
  | bool b => tagged "bool" (.bool b)
  | null => .str "null"

def ofJson? : Decoder Lit
  | _ + 1, .obj [("int", content)] => content.int64?.map int
  | _ + 1, .obj [("bool", content)] => content.bool?.map bool
  | n, j => (Json.tag? n j).bind fun tag => if tag = "null" then some null else none

end Lit

namespace UnOp

def tag : UnOp → String
  | not => "not"
  | neg => "neg"

def ofTag? : String → Option UnOp
  | "not" => some not
  | "neg" => some neg
  | _ => none

def ofJson? : Decoder UnOp := fun n j => (Json.tag? n j).bind ofTag?

end UnOp

namespace BinOp

def tag : BinOp → String
  | add => "add"
  | sub => "sub"
  | mul => "mul"
  | div => "div"
  | rem => "rem"
  | eq => "eq"
  | ne => "ne"
  | lt => "lt"
  | le => "le"
  | gt => "gt"
  | ge => "ge"
  | and => "and"
  | or => "or"

def ofTag? : String → Option BinOp
  | "add" => some add
  | "sub" => some sub
  | "mul" => some mul
  | "div" => some div
  | "rem" => some rem
  | "eq" => some eq
  | "ne" => some ne
  | "lt" => some lt
  | "le" => some le
  | "gt" => some gt
  | "ge" => some ge
  | "and" => some and
  | "or" => some or
  | _ => none

def ofJson? : Decoder BinOp := fun n j => (Json.tag? n j).bind ofTag?

end BinOp

/-! ## Expressions -/

/-- A value or `null`. -/
def optionalJson (toJson : α → Json) : Option α → Json
  | none => .null
  | some a => toJson a

mutual

def Expr.toJson : Expr → Json
  | ⟨id, span, ty, kind⟩ =>
    .obj [("id", .ofUInt32 id), ("span", span.toJson), ("ty", ty.toJson), ("kind", kind.toJson)]

def ExprKind.toJson : ExprKind → Json
  | .literal l => tagged "literal" l.toJson
  | .var name => tagged "local" (.str name)
  | .self => .str "this"
  | .field object field =>
    tagged "field" (.obj [("object", Expr.optionToJson object), ("field", field.toJson)])
  | .unary op operand =>
    tagged "unary" (.obj [("op", .str op.tag), ("operand", operand.toJson)])
  | .binary op lhs rhs =>
    tagged "binary" (.obj [("op", .str op.tag), ("lhs", lhs.toJson), ("rhs", rhs.toJson)])
  | .conditional cond thenExpr elseExpr =>
    tagged "conditional" (.obj [("cond", cond.toJson), ("then_expr", thenExpr.toJson),
      ("else_expr", elseExpr.toJson)])
  | .assign target value =>
    tagged "assign" (.obj [("target", target.toJson), ("value", value.toJson)])
  | .target target => tagged "target" target.toJson
  | .call call => tagged "call" call.toJson
  | .new type ctor args =>
    tagged "new" (.obj [("ty", type.toJson), ("ctor", optionalJson MethodRef.toJson ctor),
      ("args", .arr (Expr.listToJson args))])
  | .typeOf type => tagged "type_of" type.toJson
  | .getType object => tagged "get_type" object.toJson
  | .conversion value newTy =>
    tagged "conversion" (.obj [("value", value.toJson), ("to", newTy.toJson)])
  | .defaultValue ty => tagged "default_value" ty.toJson
  | .pop => .str "pop"

def Target.toJson : Target → Json
  | .var name => tagged "local" (.str name)
  | .field object field =>
    tagged "field" (.obj [("object", Expr.optionToJson object), ("field", field.toJson)])

def Call.toJson : Call → Json
  | ⟨method, receiver, args, isVirtual⟩ =>
    .obj [("method", method.toJson), ("receiver", Expr.optionToJson receiver),
      ("args", .arr (Expr.listToJson args)), ("is_virtual", .bool isVirtual)]

def Expr.optionToJson : Option Expr → Json
  | none => .null
  | some e => e.toJson

def Expr.listToJson : List Expr → List Json
  | [] => []
  | e :: es => e.toJson :: Expr.listToJson es

end

mutual

def Expr.ofJson? (positional : Bool) : Decoder Expr
  | n + 1, j =>
    match j.slots? ["id", "span", "ty", "kind"] with
    | some [id, span, ty, kind] => do
      return { id := ← id.orDefault 0 Json.uint32?, span := ← span.orDefault {} (Span.ofJson? n),
               ty := ← ty.required (Ty.ofJson? n),
               kind := ← kind.required (ExprKind.ofJson? positional n) }
    | _ => none
  | 0, _ => none

def ExprKind.ofJson? (positional : Bool) : Decoder ExprKind
  | n + 1, .obj [(tag, content)] =>
    match tag with
    | "literal" => (Lit.ofJson? n content).map .literal
    | "local" => content.str?.map .var
    | "this" => content.null?.map fun _ => .self
    | "target" => (Target.ofJson? positional n content).map .target
    | "call" => (Call.ofJson? positional n content).map .call
    | "type_of" => (TypeRef.ofJson? n content).map .typeOf
    | "get_type" => (Expr.ofJson? positional n content).map .getType
    | "default_value" => (Ty.ofJson? n content).map .defaultValue
    | "pop" => content.null?.map fun _ => .pop
    | _ => ExprKind.ofContent? positional n tag content
  | _, .str "this" => some .self
  | _, .str "pop" => some .pop
  | _, _ => none

/-- The kinds whose content is a record. -/
def ExprKind.ofContent? (positional : Bool) : Nat → String → Json → Option ExprKind
  | n + 1, tag, content =>
    match tag with
    | "field" =>
      match content.contentSlots? positional ["object", "field"] with
      | some [object, field] => do
        return .field (← object.nullable (Expr.ofJson? positional n))
          (← field.required (FieldRef.ofJson? n))
      | _ => none
    | "unary" =>
      match content.contentSlots? positional ["op", "operand"] with
      | some [op, operand] => do
        return .unary (← op.required (UnOp.ofJson? n))
          (← operand.required (Expr.ofJson? positional n))
      | _ => none
    | "binary" =>
      match content.contentSlots? positional ["op", "lhs", "rhs"] with
      | some [op, lhs, rhs] => do
        return .binary (← op.required (BinOp.ofJson? n))
          (← lhs.required (Expr.ofJson? positional n)) (← rhs.required (Expr.ofJson? positional n))
      | _ => none
    | "conditional" =>
      match content.contentSlots? positional ["cond", "then_expr", "else_expr"] with
      | some [cond, thenExpr, elseExpr] => do
        return .conditional (← cond.required (Expr.ofJson? positional n))
          (← thenExpr.required (Expr.ofJson? positional n))
          (← elseExpr.required (Expr.ofJson? positional n))
      | _ => none
    | "assign" =>
      match content.contentSlots? positional ["target", "value"] with
      | some [target, value] => do
        return .assign (← target.required (Target.ofJson? positional n))
          (← value.required (Expr.ofJson? positional n))
      | _ => none
    | "new" =>
      match content.contentSlots? positional ["ty", "ctor", "args"] with
      | some [ty, ctor, args] => do
        return .new (← ty.required (TypeRef.ofJson? n)) (← ctor.nullable (MethodRef.ofJson? n))
          (← args.orDefault [] (Expr.listOfJson? positional n))
      | _ => none
    | "conversion" =>
      match content.contentSlots? positional ["value", "to"] with
      | some [value, newTy] => do
        return .conversion (← value.required (Expr.ofJson? positional n))
          (← newTy.required (Ty.ofJson? n))
      | _ => none
    | _ => none
  | 0, _, _ => none

def Target.ofJson? (positional : Bool) : Decoder Target
  | _ + 1, .obj [("local", content)] => content.str?.map .var
  | n + 2, .obj [("field", content)] =>
    match content.contentSlots? positional ["object", "field"] with
    | some [object, field] => do
      return .field (← object.nullable (Expr.ofJson? positional n))
        (← field.required (FieldRef.ofJson? n))
    | _ => none
  | _, _ => none

def Call.ofJson? (positional : Bool) : Decoder Call
  | n + 1, j =>
    match j.slots? ["method", "receiver", "args", "is_virtual"] with
    | some [method, receiver, args, isVirtual] => do
      return { method := ← method.required (MethodRef.ofJson? n),
               receiver := ← receiver.optional (Expr.ofJson? positional n),
               args := ← args.orDefault [] (Expr.listOfJson? positional n),
               isVirtual := ← isVirtual.orDefault false Json.bool? }
    | _ => none
  | 0, _ => none

def Expr.listOfJson? (positional : Bool) : Decoder (List Expr)
  | n + 1, .arr items => items.mapM (Expr.ofJson? positional n)
  | _, _ => none

end

end Unwind.Source
