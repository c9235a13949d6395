import Unwind.Source.Stmt

/-!
# Type definitions and programs

A program is the closed set of types that a compilation sees, together with the source files its
spans refer to. Type definitions nest; `Program.allTypes` lists all of them, an outer type before
the types nested in it.
-/

namespace Unwind.Source

/-- What a type definition declares. -/
inductive TypeKind where
  | classType
  | interfaceType
  | structType
deriving DecidableEq

/-- A field of a type. -/
structure FieldDef where
  name : String
  ty : Ty
  isStatic : Bool := false
deriving DecidableEq

/-- A method of a type; without a body it is only declared. -/
structure MethodDef where
  name : String
  params : List Variable := []
  ret : Ty := .void
  isStatic : Bool := false
  isVirtual : Bool := false
  /-- The method starts a slot of its own: it hides an inherited virtual method. -/
  isNewSlot : Bool := false
  /-- The method is generated for another member, such as an event accessor. -/
  isSpecialName : Bool := false
  /-- The interface methods that this method implements explicitly. -/
  explicitOverrides : List MethodRef := []
  body : Option Stmt := none

namespace MethodDef

def paramTypes (m : MethodDef) : List Ty := m.params.map (·.ty)

/-- The reference to the method as a member of `owner`. -/
def reference (m : MethodDef) (owner : TypeRef) : MethodRef :=
  { type := owner, name := m.name, params := m.paramTypes }

/-- The method has the name and the parameter types of `ref`. -/
def hasSignature (m : MethodDef) (ref : MethodRef) : Bool :=
  m.name == ref.name && m.paramTypes == ref.params

end MethodDef

/-- A type definition. -/
structure TypeDef where
  name : TypeRef
  kind : TypeKind
  baseClasses : List TypeRef := []
  interfaces : List TypeRef := []
  fields : List FieldDef := []
  methods : List MethodDef := []
  nested : List TypeDef := []

namespace TypeDef

def isInterface (d : TypeDef) : Bool := d.kind == .interfaceType

def isStruct (d : TypeDef) : Bool := d.kind == .structType

/-- The supertypes a definition lists, base classes first. -/
def supertypes (d : TypeDef) : List TypeRef := d.baseClasses ++ d.interfaces

/-- The methods declared directly on the type with the name and parameters of `ref`. -/
def methodsMatching (d : TypeDef) (ref : MethodRef) : List MethodDef :=
  d.methods.filter (·.hasSignature ref)

mutual

/-- The definition followed by everything nested in it. -/
def withNested : TypeDef → List TypeDef
  | d@⟨_, _, _, _, _, _, nested⟩ => d :: allNested nested

/-- The definitions of a list, each followed by everything nested in it. -/
def allNested : List TypeDef → List TypeDef
  | [] => []
  | d :: ds => withNested d ++ allNested ds

end

end TypeDef

/-- The closed set of types that a compilation sees. -/
structure Program where
  types : List TypeDef
  files : List SourceFile := []

namespace Program

/-- Every type definition, nested ones included, in declaration order. -/
def allTypes (p : Program) : List TypeDef := TypeDef.allNested p.types

/-- The path of source file number `file`. -/
def fileName? (p : Program) (file : UInt64) : Option String :=
  p.files[file.toNat]?.map (·.path)

end Program

end Unwind.Source
