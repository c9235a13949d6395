import Unwind.Json.Decode
import Unwind.Source.Name
import Unwind.Span

/-!
# JSON form of names, types and places

A record is written as an object with all its fields, except that the module of a type reference is
left out when there is none. A decoder is told how deep the value may still nest.
-/

namespace Unwind

open Json (Decoder tagged)

namespace Span

def toJson (s : Span) : Json :=
  .obj [("file", .ofUInt64 s.file), ("lo", .ofUInt32 s.lo), ("hi", .ofUInt32 s.hi),
    ("line", .ofUInt32 s.line)]

def ofJson? : Decoder Span
  | _ + 1, j =>
    match j.slots? ["file", "lo", "hi", "line"] with
    | some [file, lo, hi, line] => do
      return { file := ← file.required Json.uint64?, lo := ← lo.required Json.uint32?,
               hi := ← hi.required Json.uint32?, line := ← line.orDefault 0 Json.uint32? }
    | _ => none
  | 0, _ => none

end Span

namespace SourceFile

def toJson (f : SourceFile) : Json := .obj [("file", .str f.path)]

def ofJson? : Decoder SourceFile
  | _ + 1, j =>
    match j.slots? ["file"] with
    | some [file] => do return { path := ← file.required Json.str? }
    | _ => none
  | 0, _ => none

end SourceFile

namespace Source

namespace TypeRef

def toJson (t : TypeRef) : Json :=
  match t.module with
  | some m => .obj [("name", .str t.name), ("module", .str m)]
  | none => .obj [("name", .str t.name)]

def ofJson? : Decoder TypeRef
  | _ + 1, j =>
    match j.slots? ["name", "module"] with
    | some [name, module] => do
      return { name := ← name.required Json.str?, module := ← module.optional Json.str? }
    | _ => none
  | 0, _ => none

end TypeRef

namespace Ty

def toJson : Ty → Json
  | void => .str "void"
  | bool => .str "bool"
  | int => .str "int"
  | named t => tagged "named" t.toJson

def ofTag? : String → Option Ty
  | "void" => some void
  | "bool" => some bool
  | "int" => some int
  | _ => none

def ofJson? : Decoder Ty
  | n + 1, .obj [("named", content)] => (TypeRef.ofJson? n content).map named
  | n, j => (Json.tag? n j).bind ofTag?

end Ty

namespace MethodRef

def toJson (m : MethodRef) : Json :=
  .obj [("type", m.type.toJson), ("name", .str m.name), ("params", .arr (m.params.map Ty.toJson))]

def ofJson? : Decoder MethodRef
  | n + 1, j =>
    match j.slots? ["type", "name", "params"] with
    | some [type, name, params] => do
      return { type := ← type.required (TypeRef.ofJson? n), name := ← name.required Json.str?,
               params := ← params.orDefault [] (Json.list? Ty.ofJson? n) }
    | _ => none
  | 0, _ => none

end MethodRef

namespace FieldRef

def toJson (f : FieldRef) : Json := .obj [("type", f.type.toJson), ("name", .str f.name)]

def ofJson? : Decoder FieldRef
  | n + 1, j =>
    match j.slots? ["type", "name"] with
    | some [type, name] => do
      return { type := ← type.required (TypeRef.ofJson? n), name := ← name.required Json.str? }
    | _ => none
  | 0, _ => none

end FieldRef

namespace Variable

def toJson (v : Variable) : Json := .obj [("name", .str v.name), ("ty", v.ty.toJson)]

def ofJson? : Decoder Variable
  | n + 1, j =>
    match j.slots? ["name", "ty"] with
    | some [name, ty] => do
      return { name := ← name.required Json.str?, ty := ← ty.required (Ty.ofJson? n) }
    | _ => none
  | 0, _ => none

end Variable

end Source

end Unwind
