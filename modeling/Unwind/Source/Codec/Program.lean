import Unwind.Source.Codec.Stmt
import Unwind.Source.Program

/-!
# JSON form of programs

Type definitions nest, and so do their records. A method without a body has `null` for it.
-/

namespace Unwind.Source

open Json (Decoder)

namespace TypeKind

def tag : TypeKind → String
  | classType => "class"
  | interfaceType => "interface"
  | structType => "struct"

def ofTag? : String → Option TypeKind
  | "class" => some classType
  | "interface" => some interfaceType
  | "struct" => some structType
  | _ => none

def ofJson? : Decoder TypeKind := fun n j => (Json.tag? n j).bind ofTag?

end TypeKind

namespace FieldDef

def toJson (f : FieldDef) : Json :=
  .obj [("name", .str f.name), ("ty", f.ty.toJson), ("is_static", .bool f.isStatic)]

def ofJson? : Decoder FieldDef
  | n + 1, j =>
    match j.slots? ["name", "ty", "is_static"] with
    | some [name, ty, isStatic] => do
      return { name := ← name.required Json.str?, ty := ← ty.required (Ty.ofJson? n),
               isStatic := ← isStatic.orDefault false Json.bool? }
    | _ => none
  | 0, _ => none

end FieldDef

namespace MethodDef

def toJson (m : MethodDef) : Json :=
  .obj [("name", .str m.name), ("params", .arr (m.params.map Variable.toJson)),
    ("ret", m.ret.toJson), ("is_static", .bool m.isStatic), ("is_virtual", .bool m.isVirtual),
    ("is_new_slot", .bool m.isNewSlot), ("is_special_name", .bool m.isSpecialName),
    ("explicit_overrides", .arr (m.explicitOverrides.map MethodRef.toJson)),
    ("body", optionalJson Stmt.toJson m.body)]

def ofJson? (positional : Bool) : Decoder MethodDef
  | n + 1, j =>
    match j.slots? ["name", "params", "ret", "is_static", "is_virtual", "is_new_slot",
      "is_special_name", "explicit_overrides", "body"] with
    | some [name, params, ret, isStatic, isVirtual, isNewSlot, isSpecialName, explicitOverrides,
        body] => do
      return { name := ← name.required Json.str?,
               params := ← params.orDefault [] (Json.list? Variable.ofJson? n),
               ret := ← ret.orDefault .void (Ty.ofJson? n),
               isStatic := ← isStatic.orDefault false Json.bool?,
               isVirtual := ← isVirtual.orDefault false Json.bool?,
               isNewSlot := ← isNewSlot.orDefault false Json.bool?,
               isSpecialName := ← isSpecialName.orDefault false Json.bool?,
               explicitOverrides :=
                 ← explicitOverrides.orDefault [] (Json.list? MethodRef.ofJson? n),
               body := ← body.optional (Stmt.ofJson? positional n) }
    | _ => none
  | 0, _ => none

end MethodDef

mutual

def TypeDef.toJson : TypeDef → Json
  | ⟨name, kind, baseClasses, interfaces, fields, methods, nested⟩ =>
    .obj [("name", name.toJson), ("kind", .str kind.tag),
      ("base_classes", .arr (baseClasses.map TypeRef.toJson)),
      ("interfaces", .arr (interfaces.map TypeRef.toJson)),
      ("fields", .arr (fields.map FieldDef.toJson)),
      ("methods", .arr (methods.map MethodDef.toJson)),
      ("nested", .arr (TypeDef.listToJson nested))]

def TypeDef.listToJson : List TypeDef → List Json
  | [] => []
  | d :: ds => d.toJson :: TypeDef.listToJson ds

end

mutual

def TypeDef.ofJson? (positional : Bool) : Decoder TypeDef
  | n + 1, j =>
    match j.slots? ["name", "kind", "base_classes", "interfaces", "fields", "methods",
      "nested"] with
    | some [name, kind, baseClasses, interfaces, fields, methods, nested] => do
      return { name := ← name.required (TypeRef.ofJson? n),
               kind := ← kind.required (TypeKind.ofJson? n),
               baseClasses := ← baseClasses.orDefault [] (Json.list? TypeRef.ofJson? n),
               interfaces := ← interfaces.orDefault [] (Json.list? TypeRef.ofJson? n),
               fields := ← fields.orDefault [] (Json.list? FieldDef.ofJson? n),
               methods := ← methods.orDefault [] (Json.list? (MethodDef.ofJson? positional) n),
               nested := ← nested.orDefault [] (TypeDef.listOfJson? positional n) }
    | _ => none
  | 0, _ => none

def TypeDef.listOfJson? (positional : Bool) : Decoder (List TypeDef)
  | n + 1, .arr items => items.mapM (TypeDef.ofJson? positional n)
  | _, _ => none

end

namespace Program

def toJson (p : Program) : Json :=
  .obj [("types", .arr (p.types.map TypeDef.toJson)), ("files", .arr (p.files.map (·.toJson)))]

def ofJson? (positional : Bool) : Decoder Program
  | n + 1, j =>
    match j.slots? ["types", "files"] with
    | some [types, files] => do
      return { types := ← types.required (TypeDef.listOfJson? positional n),
               files := ← files.orDefault [] (Json.list? SourceFile.ofJson? n) }
    | _ => none
  | 0, _ => none

end Program

end Unwind.Source
