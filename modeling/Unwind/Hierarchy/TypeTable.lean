import Unwind.Source.Program

/-!
# The type table

Every type definition of a program under its name. A name that is declared more than once keeps
its first declaration: later ones are models of it.
-/

namespace Unwind

open Source

/-- Type definitions with pairwise different names, in declaration order. -/
structure TypeTable where
  defs : List TypeDef := []

namespace TypeTable

/-- The definition of the type that `ref` names. -/
def get? (t : TypeTable) (ref : TypeRef) : Option TypeDef := t.defs.find? (·.name == ref)

/-- Add a definition unless its name is taken. -/
def insertNew (t : TypeTable) (d : TypeDef) : TypeTable :=
  if (t.get? d.name).isSome then t else { defs := t.defs ++ [d] }

/-- The table of a list of definitions. -/
def ofDefs (ds : List TypeDef) : TypeTable := ds.foldl insertNew {}

/-- The table of a program, nested types included. -/
def ofProgram (p : Program) : TypeTable := ofDefs p.allTypes

def size (t : TypeTable) : Nat := t.defs.length

/-- The names in the table. -/
def names (t : TypeTable) : List String := t.defs.map (·.name.name)

/-- Values of the type are copied bit by bit. -/
def isStruct (t : TypeTable) (ty : Ty) : Bool :=
  match ty.typeRef?.bind t.get? with
  | some d => d.isStruct
  | none => false

end TypeTable

end Unwind
