/-!
# Values made once

A table that makes the value for a key the first time it is asked for, and gives back the same
value ever after. Keys are compared with `==`.
-/

namespace Unwind

/-- Values made so far, each under the key it was first asked for with. -/
structure Memo (κ α : Type) where
  entries : List (κ × α) := []

namespace Memo

variable {κ α : Type} [BEq κ]

/-- The value of a key that has been asked for. -/
def get? (m : Memo κ α) (key : κ) : Option α := (m.entries.find? (·.1 == key)).map (·.2)

/-- The value of `key`, made with `make` when it is asked for the first time. -/
def getOrInsertWith (m : Memo κ α) (key : κ) (make : κ → α) : α × Memo κ α :=
  match m.get? key with
  | some value => (value, m)
  | none => (make key, { entries := m.entries ++ [(key, make key)] })

def size (m : Memo κ α) : Nat := m.entries.length

/-- All values, sorted. -/
def valuesSorted (m : Memo κ α) (le : α → α → Bool) : List α :=
  (m.entries.map (·.2)).mergeSort le

end Memo

end Unwind
