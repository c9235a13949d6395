/-!
# JSON values

Programs are exchanged as JSON. A number is kept as an integer when it is written as one and fits
into 64 bits, signed or unsigned; every other number is kept as its text, because no field of the
formats in use takes one. Members of an object keep their order, and a name may occur twice:
`lastWins` drops the earlier one where a reader wants that.

JSON text can say things that no value stands for, such as half of a surrogate pair. They are kept
as `unreadable`, so that a reader which passes over a part of a text need not mind them.
-/

namespace Unwind

/-- A JSON value. -/
inductive Json where
  | null
  | bool (value : Bool)
  /-- An integer of 64 bits, signed or unsigned. -/
  | int (value : Int)
  /-- Any other number, as it is written, without a plus sign. -/
  | real (text : String)
  | str (text : String)
  | arr (items : List Json)
  | obj (members : List (String × Json))
  /-- Well-formed text that stands for no value: a string with half of a surrogate pair in it, an
  object with such a name, or a number beyond the range of a double. -/
  | unreadable

namespace Json

/-- The integers that are kept as such: those of `Int64` and those of `UInt64`. -/
def fitsWord (n : Int) : Bool := Int64.minValue.toInt ≤ n && n < UInt64.size

mutual

/-- How deep arrays and objects nest. -/
def depth : Json → Nat
  | arr items => depthAll items + 1
  | obj members => depthMembers members + 1
  | _ => 0

def depthAll : List Json → Nat
  | [] => 0
  | j :: js => max j.depth (depthAll js)

def depthMembers : List (String × Json) → Nat
  | [] => 0
  | (_, j) :: ms => max j.depth (depthMembers ms)

end

mutual

/-- Of several members of one name, keep the last. -/
def lastWins : Json → Json
  | arr items => arr (lastWinsAll items)
  | obj members => obj (lastWinsMembers members)
  | j => j

def lastWinsAll : List Json → List Json
  | [] => []
  | j :: js => j.lastWins :: lastWinsAll js

def lastWinsMembers : List (String × Json) → List (String × Json)
  | [] => []
  | (k, j) :: ms =>
    let rest := lastWinsMembers ms
    if rest.any (·.1 == k) then rest else (k, j.lastWins) :: rest

end

/-- The last member of the given name. -/
def member? (name : String) : Json → Option Json
  | obj members => (members.reverse.find? (·.1 == name)).map (·.2)
  | _ => none

end Json

end Unwind
