import Unwind.Fault
import Unwind.Hierarchy.SubtypeIndex

/-!
# Which method a call runs

For a method and the types below its declaring type, `resolve` finds the method that each of them
runs, in the closed world of the program.

* Below a **class**, the walk goes down the subtype index. A subtype runs its own override of the
  method when it declares one, and otherwise what its supertype runs. A type is entered once.
* Below an **interface**, the classes that implement it come first, each with its own
  implementation of the method; from there the walk goes on as below a class.

An answer in which every type runs the method itself is dropped: such a call needs no dispatch.

## Termination

Both walks keep the names they have not entered yet; entering one shortens that list, and passing
one over shortens the list of pending types.
-/

namespace Unwind

open Source

/-- The types of a program and how they derive from one another. -/
structure Hierarchy where
  table : TypeTable
  index : SubtypeIndex

/-- A type and the method it runs. -/
structure Override where
  type : TypeRef
  method : MethodRef
deriving DecidableEq

namespace Hierarchy

def ofProgram (p : Program) : Hierarchy :=
  let table := TypeTable.ofProgram p
  { table, index := SubtypeIndex.build p table }

/-- The method is a member of an interface. -/
def declaredOnInterface (h : Hierarchy) (m : MethodRef) : Bool :=
  match h.table.get? m.type with
  | some d => d.isInterface
  | none => false

/-- The override of `m` that a definition declares: the last virtual method of the same signature
that neither starts a new slot nor is static. -/
def overrideIn? (d : TypeDef) (m : MethodRef) : Option MethodRef :=
  ((d.methodsMatching m).filter fun x => x.isVirtual && !x.isNewSlot && !x.isStatic).getLast?.map
    (·.reference d.name)

/-- What the type `t` runs when its supertype runs `m`. -/
def runBy (h : Hierarchy) (t : TypeRef) (m : MethodRef) : MethodRef :=
  ((h.table.get? t).bind (overrideIn? · m)).getD m

/-! ## Implementations of an interface method -/

/-- The implementation of the interface method `m` that a class declares. An explicit one wins:
through the interface only that one can be reached. -/
def implementationIn? (d : TypeDef) (m : MethodRef) : Option MethodRef :=
  let explicit := (d.methods.filter fun x => x.explicitOverrides.any (· == m)).getLast?
  (explicit.or (d.methodsMatching m).getLast?).map (·.reference d.name)

/-- The definitions of the direct subtypes of a type, where there are any. -/
def subtypeDefs (h : Hierarchy) (t : TypeRef) : List TypeDef :=
  (h.index.subtypes t).filterMap h.table.get?

/-- The classes among and below the pending definitions that implement `m` themselves. Interfaces
are passed through, classes are not. -/
def implementationsBelow (h : Hierarchy) (m : MethodRef) (unseen : List String)
    (found : List Override) : List TypeDef → List Override
  | [] => found
  | d :: rest =>
    if _h : d.name.name ∈ unseen then
      let unseen := strike unseen d.name.name
      if d.isInterface then
        implementationsBelow h m unseen found (h.subtypeDefs d.name ++ rest)
      else
        let here := (implementationIn? d m).toList.map fun r => ⟨d.name, r⟩
        implementationsBelow h m unseen (found ++ here) rest
    else implementationsBelow h m unseen found rest
termination_by pending => (unseen.length, pending.length)
decreasing_by
  · exact Prod.Lex.left _ _ (length_strike_lt _h)
  · exact Prod.Lex.left _ _ (length_strike_lt _h)
  · exact Prod.Lex.right _ (by simp)

/-- The implementations of the interface method `m` by `t` and the types below it. -/
def implementations (h : Hierarchy) (t : TypeRef) (m : MethodRef) : List Override :=
  h.implementationsBelow m h.table.names [] (h.table.get? t).toList

/-! ## Overrides -/

/-- Add an override unless the type has one. -/
def addNew (found : List Override) (o : Override) : List Override :=
  if found.any (·.type == o.type) then found else found ++ [o]

/-- The implementations that are known at once when the type `t` runs `m`: those of an interface
method. -/
def seeds (h : Hierarchy) (t : TypeRef) (m : MethodRef) : List Override :=
  if h.declaredOnInterface m then h.implementations t m else []

/-- The types right below, each with the method its supertype runs. -/
def below (h : Hierarchy) (o : Override) : List Override :=
  (h.index.subtypes o.type).map fun t => ⟨t, o.method⟩

/-- The types to look at next when the type `t` runs `m`. -/
def next (h : Hierarchy) (t : TypeRef) (m : MethodRef) : List Override :=
  if h.declaredOnInterface m then (h.implementations t m).flatMap h.below else h.below ⟨t, m⟩

/-- The names of the types in a list of overrides. -/
def typeNames (os : List Override) : List String := os.map (·.type.name)

/-- Enter the pending types, each given with the method its supertype runs, and everything below
them. -/
def overridesBelow (h : Hierarchy) (unseen : List String) (found : List Override) :
    List Override → List Override
  | [] => found
  | ⟨t, inherited⟩ :: rest =>
    if _h : t.name ∈ unseen then
      let m := h.runBy t inherited
      let seeded := h.seeds t m
      overridesBelow h (strikeAll (strike unseen t.name) (typeNames seeded))
        (seeded.foldl addNew (found ++ [⟨t, m⟩])) (h.next t m ++ rest)
    else overridesBelow h unseen found rest
termination_by pending => (unseen.length, pending.length)
decreasing_by
  · exact Prod.Lex.left _ _ (Nat.lt_of_le_of_lt (length_strikeAll_le _ _) (length_strike_lt _h))
  · exact Prod.Lex.right _ (by simp)

/-- The method that each type below the declaring type of `m` runs, in the order in which they are
found; nothing when all of them run `m` itself. -/
def overrides (h : Hierarchy) (m : MethodRef) : List Override :=
  let seeded := h.seeds m.type m
  let unseen := strikeAll h.index.subtypeNames (typeNames seeded)
  let found := h.overridesBelow unseen (seeded.foldl addNew []) (h.next m.type m)
  if found.all (·.method == m) then [] else found

/-- `overrides` for a method whose declaring type the program defines. -/
def resolve (h : Hierarchy) (m : MethodRef) : Except Fault (List Override) :=
  if (h.table.get? m.type).isSome then .ok (h.overrides m)
  else .error (.unknownDeclaringType m.type.name m.text)

end Hierarchy

end Unwind
