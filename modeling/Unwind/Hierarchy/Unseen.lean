/-!
# Names not seen yet

A walk over the type hierarchy keeps the names it has not entered. Striking a name off makes the
list shorter, which is what lets the walks end on cyclic hierarchies too.
-/

namespace Unwind

/-- Take `name` off a list of names. -/
def strike (unseen : List String) (name : String) : List String := unseen.filter (· ≠ name)

@[simp]
theorem mem_strike {unseen : List String} {name x : String} :
    x ∈ strike unseen name ↔ x ∈ unseen ∧ x ≠ name := by
  simp [strike]

/-- Striking never makes the list longer. -/
theorem length_strike_le (unseen : List String) (name : String) :
    (strike unseen name).length ≤ unseen.length :=
  List.length_filter_le _ _

/-- Striking a name that is there makes the list shorter. -/
theorem length_strike_lt {unseen : List String} {name : String} (h : name ∈ unseen) :
    (strike unseen name).length < unseen.length :=
  List.length_filter_lt_length_iff_exists.mpr ⟨name, h, by simp⟩

/-- Take several names off a list of names. -/
def strikeAll (unseen names : List String) : List String := names.foldl strike unseen

theorem length_strikeAll_le (unseen names : List String) :
    (strikeAll unseen names).length ≤ unseen.length := by
  induction names generalizing unseen with
  | nil => exact Nat.le_refl _
  | cons name names ih => exact Nat.le_trans (ih _) (length_strike_le _ _)

end Unwind
