import Unwind.Json.Value

/-!
# Reading data out of JSON values

The formats are built from two shapes.

* A **record** is an object that names its fields, or an array that lists them in their fixed
  order. Unknown names are passed over; a name that occurs twice, and an array that is too long,
  are refused. `slots?` turns both forms into one list, a slot for each field.
* A **variant** is its bare tag when it has no content, and otherwise an object whose only member
  is the tag with the content.

A decoder is given the number of arrays and objects it may still enter. That number bounds the
recursion, and it is also the limit on nesting that some readers impose.
-/

namespace Unwind.Json

/-- A decoder for values that nest at most as deep as the given number. -/
abbrev Decoder (α : Type) := Nat → Json → Option α

/-! ## Scalars -/

def str? : Json → Option String
  | str s => some s
  | _ => none

def bool? : Json → Option Bool
  | bool b => some b
  | _ => none

def null? : Json → Option Unit
  | null => some ()
  | _ => none

/-- An integer from `lo` up to but not including `hi`. -/
def intBetween? (lo hi : Int) : Json → Option Int
  | int n => if lo ≤ n && n < hi then some n else none
  | _ => none

def int64? (j : Json) : Option Int64 :=
  (j.intBetween? Int64.minValue.toInt (Int64.maxValue.toInt + 1)).map Int64.ofInt

def uint8? (j : Json) : Option UInt8 :=
  (j.intBetween? 0 UInt8.size).map fun n => UInt8.ofNat n.toNat

def uint32? (j : Json) : Option UInt32 :=
  (j.intBetween? 0 UInt32.size).map fun n => UInt32.ofNat n.toNat

def uint64? (j : Json) : Option UInt64 :=
  (j.intBetween? 0 UInt64.size).map fun n => UInt64.ofNat n.toNat

def ofInt64 (n : Int64) : Json := int n.toInt

def ofUInt8 (n : UInt8) : Json := int n.toNat

def ofUInt32 (n : UInt32) : Json := int n.toNat

def ofUInt64 (n : UInt64) : Json := int n.toNat

/-- A value or `null`. -/
def nullable? (decode : Json → Option α) : Json → Option (Option α)
  | null => some none
  | j => (decode j).map some

/-- An array of values. -/
def list? (decode : Decoder α) : Decoder (List α)
  | n + 1, arr items => items.mapM (decode n)
  | _, _ => none

/-! ## Records -/

/-- What a record says about one of its fields. -/
inductive Slot where
  | given (value : Json)
  /-- A record written with names leaves the field out. -/
  | omitted
  /-- A record written as an array ends before the field. -/
  | cutOff

namespace Slot

/-- The field must be there. -/
def required (slot : Slot) (decode : Json → Option α) : Option α :=
  match slot with
  | given j => decode j
  | _ => none

/-- The field may be missing and is then `default`. -/
def orDefault (slot : Slot) (default : α) (decode : Json → Option α) : Option α :=
  match slot with
  | given j => decode j
  | _ => some default

/-- The field may be `null`, and a record with names may leave it out. -/
def nullable (slot : Slot) (decode : Json → Option α) : Option (Option α) :=
  match slot with
  | given j => nullable? decode j
  | omitted => some none
  | cutOff => none

/-- The field may be `null` or missing. -/
def optional (slot : Slot) (decode : Json → Option α) : Option (Option α) :=
  match slot with
  | given j => nullable? decode j
  | _ => some none

end Slot

/-- The slot of the field `name` in a record written with names. -/
def slotNamed (members : List (String × Json)) (name : String) : Slot :=
  match members.lookup name with
  | some j => .given j
  | none => .omitted

/-- The slots of `names` in an array. -/
def slotsInOrder : List String → List Json → List Slot
  | [], _ => []
  | _ :: names, [] => .cutOff :: slotsInOrder names []
  | _ :: names, j :: js => .given j :: slotsInOrder names js

/-- The slots of a record with the fields `names`. -/
def slots? (names : List String) : Json → Option (List Slot)
  | obj members =>
    if names.all fun name => (members.filter (·.1 == name)).length ≤ 1 then
      some (names.map (slotNamed members))
    else none
  | arr items => if items.length ≤ names.length then some (slotsInOrder names items) else none
  | _ => none

/-- The slots of a record that is the content of a variant. An array is only taken when
`positional` says so. -/
def contentSlots? (positional : Bool) (names : List String) : Json → Option (List Slot)
  | arr items => if positional then slots? names (arr items) else none
  | j => slots? names j

/-! ## Variants -/

/-- A variant with content. -/
def tagged (tag : String) (content : Json) : Json := obj [(tag, content)]

/-- A variant without content: its tag, alone or with `null`. -/
def tag? : Decoder String
  | _, str tag => some tag
  | _ + 1, obj [(tag, null)] => some tag
  | _, _ => none

end Unwind.Json
