import Unwind.Hierarchy.TypeTable
import Unwind.Hierarchy.Unseen
import Unwind.Json.Value

/-!
# The subtype index

For every type that has any, its direct subtypes: the types that list it among their base classes
or interfaces. The index is built by a walk over the program. A definition is visited once, where
declarations of one name in different modules count as different definitions; visiting it enters
its edges one after the other and visits each supertype right behind its edge, then the types
nested in it. The order of entries and subtypes is the order of that walk.

## Termination

The walk keeps the list of names it has not visited yet. A visit shortens it, and every other step
shortens the work that is left without touching it.
-/

namespace Unwind

open Source

namespace SubtypeIndex

/-- The direct subtypes of one type. -/
structure Entry where
  base : TypeRef
  subtypes : List TypeRef
deriving DecidableEq

/-- Add a reference unless its name is there already. -/
def insertNew (ts : List TypeRef) (t : TypeRef) : List TypeRef :=
  if ts.any (· == t) then ts else ts ++ [t]

/-- Enter that `sub` lists `base` as a supertype. -/
def addEdge (base sub : TypeRef) : List Entry → List Entry
  | [] => [⟨base, [sub]⟩]
  | e :: es => if e.base == base then ⟨e.base, insertNew e.subtypes sub⟩ :: es
    else e :: addEdge base sub es

/-- A step that is left to do. -/
inductive Task where
  | visit (d : TypeDef)
  /-- Enter the edge from `base` to `d`, then visit `base`. -/
  | edge (base : TypeRef) (d : TypeDef)

/-- An edge is followed by at most one visit. -/
def Task.weight : Task → Nat
  | visit _ => 1
  | edge .. => 2

/-- The work a list of tasks stands for, visits of new definitions apart. -/
def work : List Task → Nat
  | [] => 0
  | task :: tasks => task.weight + work tasks

/-- The tasks behind the first visit of a definition. -/
def tasksOf (d : TypeDef) : List Task := d.supertypes.map (.edge · d) ++ d.nested.map .visit

/-- Do the tasks in order and return the entries. -/
def walk (table : TypeTable) (unvisited : List String) (entries : List Entry) :
    List Task → List Entry
  | [] => entries
  | .edge base d :: rest =>
    let entries := addEdge base d.name entries
    match table.get? base with
    | some baseDef => walk table unvisited entries (.visit baseDef :: rest)
    | none => walk table unvisited entries rest
  | .visit d :: rest =>
    if _h : d.name.qualified ∈ unvisited then
      walk table (strike unvisited d.name.qualified) entries (tasksOf d ++ rest)
    else walk table unvisited entries rest
termination_by tasks => (unvisited.length, work tasks)
decreasing_by
  · exact Prod.Lex.right _ (by simp [work, Task.weight])
  · exact Prod.Lex.right _ (by simp [work, Task.weight])
  · exact Prod.Lex.left _ _ (length_strike_lt _h)
  · exact Prod.Lex.right _ (by simp [work, Task.weight])

end SubtypeIndex

/-- The direct subtypes of every type that has any. -/
structure SubtypeIndex where
  entries : List SubtypeIndex.Entry := []
deriving DecidableEq

namespace SubtypeIndex

/-- The index of a program. -/
def build (p : Program) (table : TypeTable) : SubtypeIndex where
  entries := walk table (p.allTypes.map (·.name.qualified)) [] (p.types.map .visit)

/-- The entry of a type. -/
def entry? (x : SubtypeIndex) (t : TypeRef) : Option Entry := x.entries.find? (·.base == t)

/-- The direct subtypes of a type. -/
def subtypes (x : SubtypeIndex) (t : TypeRef) : List TypeRef :=
  match x.entry? t with
  | some e => e.subtypes
  | none => []

/-- Whether a type has subtypes. -/
def contains (x : SubtypeIndex) (t : TypeRef) : Bool := (x.entry? t).isSome

def size (x : SubtypeIndex) : Nat := x.entries.length

/-- The names of all subtypes in the index. -/
def subtypeNames (x : SubtypeIndex) : List String :=
  x.entries.flatMap fun e => e.subtypes.map (·.name)

/-- The two indexes say the same: each entry of one has its like in the other, whatever the
order. -/
def sameAs (x y : SubtypeIndex) : Bool :=
  let sameSet (a b : List TypeRef) : Bool :=
    a.length == b.length && a.all fun t => b.any (· == t)
  x.size == y.size &&
    x.entries.all fun e =>
      match y.entry? e.base with
      | some e' => sameSet e.subtypes e'.subtypes
      | none => false

/-- `{ "Base": ["Derived", ...] }`, in the order of the index. -/
def toJson (x : SubtypeIndex) : Json :=
  .obj (x.entries.map fun e => (e.base.name, .arr (e.subtypes.map (.str ·.name))))

end SubtypeIndex

end Unwind
