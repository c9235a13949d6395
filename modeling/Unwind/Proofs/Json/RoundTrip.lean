import Unwind.Proofs.Json.SourceReading
import Unwind.Proofs.Json.IrReading

/-!
# Both formats are read back

A source program and a compiled program are what is read from the value they are written to, as
soon as the reader may look down to the bottom of it. A value that is no image of a program, since
it leaves fields out or lists them in an array, need not come back as it was. What it is read as
does.
-/

namespace Unwind.Json

section

variable {α : Type} {decode : Decoder α} {toJson : α → Json}

/-- To write what was read and to read it again changes nothing. -/
theorem bind_reads (h : ∀ a, Reads decode (toJson a) a) (k n : Nat) (j : Json) :
    ((decode n j).bind fun a => decode ((toJson a).depth + k) (toJson a)) = decode n j := by
  cases decode n j with
  | none => rfl
  | some a => exact h a _ (Nat.le_add_right _ k)

end

/-- Writing and then reading gives back every program, of the source and of the verification
language, whatever the reader allows beyond the depth of the value and whether or not it takes
arrays for records. So on every value that can be read, reading, writing and reading again is
reading once. -/
theorem programs_roundTrip (positional : Bool) (k : Nat) :
    (∀ p : Source.Program,
      Source.Program.ofJson? positional (p.toJson.depth + k) p.toJson = some p) ∧
    (∀ p : Ir.Program,
      Ir.Program.ofJson? positional (p.toJson.depth + k) p.toJson = some p) ∧
    ∀ (n : Nat) (j : Json),
      ((Source.Program.ofJson? positional n j).bind fun p =>
        Source.Program.ofJson? positional (p.toJson.depth + k) p.toJson) =
          Source.Program.ofJson? positional n j ∧
      ((Ir.Program.ofJson? positional n j).bind fun p =>
        Ir.Program.ofJson? positional (p.toJson.depth + k) p.toJson) =
          Ir.Program.ofJson? positional n j :=
  ⟨fun p => p.reads _ (Nat.le_add_right _ k), fun p => p.reads _ (Nat.le_add_right _ k),
    fun n j => ⟨bind_reads Source.Program.reads k n j, bind_reads Ir.Program.reads k n j⟩⟩

end Unwind.Json
