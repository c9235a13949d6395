/-!
# Names and types of the source program

A reference to a type carries the name and, optionally, the module that declares it. **Only the
name identifies the type**: a model of a type declared in a stub module is the same type as the
real one. The equalities of this module therefore look at names alone, and so do the equalities
of everything that is built from type references.
-/

namespace Unwind.Source

/-- A reference to a type definition. -/
structure TypeRef where
  name : String
  module : Option String := none
deriving DecidableEq

namespace TypeRef

/-- Two references mean the same type when they have the same name. -/
instance : BEq TypeRef := ⟨fun a b => a.name == b.name⟩

/-- `module::name`, which tells declarations of one name apart. -/
def qualified (t : TypeRef) : String :=
  match t.module with
  | some m => s!"{m}::{t.name}"
  | none => t.name

/-- Stable sort by name. -/
def sortByName (ts : List TypeRef) : List TypeRef :=
  ts.mergeSort fun a b => decide (a.name ≤ b.name)

end TypeRef

/-- The static type of a value. -/
inductive Ty where
  | void
  | bool
  | int
  | named (type : TypeRef)
deriving DecidableEq

/-- How a value reduces to a truth value when it is used as a condition. -/
inductive ValueKind where
  | reference
  | integer
  | boolean
deriving DecidableEq

namespace Ty

/-- Equality of types; named types are compared by name. -/
instance : BEq Ty where
  beq
    | void, void => true
    | bool, bool => true
    | int, int => true
    | named a, named b => a == b
    | _, _ => false

def isVoid : Ty → Bool
  | void => true
  | _ => false

/-- The type definition a named type refers to. -/
def typeRef? : Ty → Option TypeRef
  | named t => some t
  | _ => none

/-- Every type but `void` has a kind of value. -/
def valueKind? : Ty → Option ValueKind
  | void => none
  | bool => some .boolean
  | int => some .integer
  | named _ => some .reference

/-- The type as messages and procedure names show it. -/
def text : Ty → String
  | void => "void"
  | bool => "bool"
  | int => "int"
  | named t => t.name

end Ty

/-- A method, known by its declaring type, its name and its parameter types. -/
structure MethodRef where
  type : TypeRef
  name : String
  params : List Ty := []
deriving DecidableEq

namespace MethodRef

/-- The same method of the same type, module names apart. -/
instance : BEq MethodRef where
  beq a b := a.type == b.type && a.name == b.name && a.params == b.params

/-- `Type.Name`. -/
def signature (m : MethodRef) : String := m.type.name ++ "." ++ m.name

/-- The name of the procedure that implements the method; overloads are told apart by their
parameter types. -/
def procedureName (m : MethodRef) : String :=
  if m.params.isEmpty then m.signature
  else m.signature ++ "$" ++ "$".intercalate (m.params.map Ty.text)

/-- Same name and parameter types, whatever the declaring type. -/
def sameSignature (a b : MethodRef) : Bool := a.name == b.name && a.params == b.params

/-- `Type.Name(T1, T2)`. -/
def text (m : MethodRef) : String :=
  m.signature ++ "(" ++ ", ".intercalate (m.params.map Ty.text) ++ ")"

end MethodRef

/-- A field, known by its declaring type and its name. -/
structure FieldRef where
  type : TypeRef
  name : String
deriving DecidableEq

namespace FieldRef

/-- Same type and name, module names apart. -/
instance : BEq FieldRef where
  beq a b := a.type == b.type && a.name == b.name

/-- The map (for a static field, the global) that holds the field. -/
def mapName (f : FieldRef) : String := f.type.name ++ "." ++ f.name

end FieldRef

/-- A named variable with its type: a parameter or a local. -/
structure Variable where
  name : String
  ty : Ty
deriving DecidableEq

end Unwind.Source
