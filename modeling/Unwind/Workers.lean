/-!
# Work shared among workers

A list of items is dealt out to workers in strides: worker `w` of `n` takes the items at positions
`w`, `w + n`, `w + 2 n` and so on. Each result keeps the position of its item, so that the results
can be put back into the order of the items.
-/

namespace Unwind.Workers

/-- At least one worker, and no more than there are items. -/
def count (jobs items : Nat) : Nat := min (max jobs 1) (max items 1)

/-- The items in the order in which the workers come to them, each with its position, when one
worker is done before the next one starts. -/
def schedule (n : Nat) (items : List α) : List (α × Nat) :=
  (List.range n).flatMap fun w => items.zipIdx.filter fun item => item.2 % n == w

/-- Results in the order of their items. -/
def inOrder (results : List (α × Nat)) : List α :=
  (results.mergeSort fun a b => decide (a.2 ≤ b.2)).map (·.1)

/-- Apply `work` to every item and return the results in the order of the items. -/
def run [Monad m] (n : Nat) (work : α → m β) (items : List α) : m (List β) := do
  let results ← (schedule n items).mapM fun item => return (← work item.1, item.2)
  return inOrder results

end Unwind.Workers
