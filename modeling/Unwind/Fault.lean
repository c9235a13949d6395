import Unwind.Span

/-!
# Faults

Everything that can make a compilation fail. A fault is either a construct the lowering does not
handle, reported at the place where it stands, or an input that contradicts itself. The causes
are named here one by one, so that the wording of a message stands in one place.
-/

namespace Unwind

/-- The reason a compilation step failed. -/
inductive Fault where
  /-- A construct that is not handled, with the place where it stands. -/
  | unsupported (kind : String) (span : Span) (message : String)
  /-- An input that contradicts itself. -/
  | inconsistent (message : String)
  /-- Any other failure, known by its text alone. -/
  | generic (message : String)
deriving DecidableEq

namespace Fault

/-- A short name for the class of the fault. -/
def code : Fault → String
  | unsupported .. => "unsupported-construct"
  | inconsistent _ => "inconsistent-state"
  | generic _ => "generic"

/-- The place of the fault, where it has one. -/
def span? : Fault → Option Span
  | unsupported _ span _ => some span
  | _ => none

/-- The full text of the fault. -/
def message : Fault → String
  | unsupported kind span message => s!"Unsupported construct `{kind}` at {span.text}: {message}"
  | inconsistent message => s!"Inconsistent state: {message}"
  | generic message => s!"Generic error: {message}"

/-! ## Values -/

/-- A void type where a value is stored. -/
def voidValue (span : Span) : Fault :=
  unsupported "void-value" span "a void expression has no IR value"

/-- An expression that was to give a value gives none. -/
def noValue (ty : String) (span : Span) : Fault :=
  unsupported "expression" span s!"expression of type {ty} yields no value"

/-- A condition whose type cannot be reduced to a truth value. -/
def voidCondition (span : Span) : Fault :=
  unsupported "condition" span "condition has no value"

/-- A compound assignment inside a larger expression. -/
def compoundAsValue (span : Span) : Fault :=
  unsupported "compound-assignment" span "compound assignment used as a value"

/-- The default value of `void` is asked for. -/
def voidDefault (span : Span) : Fault :=
  unsupported "default-value" span "default value of void"

/-- An operand is popped although none is left. -/
def emptyOperands : Fault := inconsistent "pop from an empty operand stack"

/-! ## Statements -/

/-- A statement of a kind that must be removed before lowering. -/
def unhandledStatement (kind : String) (span : Span) : Fault :=
  unsupported kind span s!"{kind} statements are not handled"

/-- A value is returned from a procedure without a result. -/
def noReturnSlot (span : Span) : Fault :=
  unsupported "return" span "returns a value but the procedure has no return slot"

/-- A `rethrow` that stands in no catch clause. -/
def strayRethrow (span : Span) : Fault :=
  unsupported "rethrow" span "rethrow outside a catch clause"

/-! ## Labels and jumps -/

/-- Two statements carry one label. -/
def duplicateLabel (label : String) : Fault :=
  inconsistent s!"label `{label}` is declared twice"

/-- Two `try` statements carry one id. -/
def duplicateTry (id : UInt32) : Fault :=
  inconsistent s!"try statement id {id.toNat} is used by more than one try statement"

/-- A jump to a label that no statement carries. -/
def unknownLabel (label : String) : Fault :=
  inconsistent s!"goto targets unknown label `{label}`"

/-- A jump into a `try` statement from outside. -/
def jumpIntoTry (label : String) : Fault :=
  inconsistent s!"goto `{label}` jumps into a try statement that does not enclose it"

/-- A jump out of a `finally` block. -/
def jumpOutOfFinally (label : String) (span : Span) : Fault :=
  unsupported "goto" span s!"goto `{label}` leaves a finally block"

/-! ## Regions -/

/-- The region stack does not end with the expected entry. -/
def unbalanced (expected found : String) : Fault :=
  inconsistent s!"region stack out of balance: expected {expected}, found {found}"

/-- A body ends while regions are still open. -/
def openRegions (count : Nat) : Fault :=
  inconsistent s!"{count} regions still open at the end of the body"

/-! ## Types -/

/-- A method is declared on a type that the program does not define. -/
def unknownDeclaringType (ty method : String) : Fault :=
  inconsistent s!"declaring type `{ty}` of `{method}` is not in the type table"

end Fault

end Unwind
