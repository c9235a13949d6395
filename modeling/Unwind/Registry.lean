import Unwind.Memo
import Unwind.Source.Name
import Unwind.Ir.Printer

/-!
# What the procedures of a compilation share

The helper procedures that lowering asks for, each declared once however often it is asked for,
and two counters that number marks across the whole compilation.
-/

namespace Unwind

open Source (TypeRef)
open Ir (Procedure VarDecl)

/-- The helpers asked for so far, and the next numbers to give out. -/
structure Registry where
  structCopies : Memo TypeRef Procedure := {}
  recorders : Memo Ir.Ty Procedure := {}
  breadcrumbs : UInt64 := 0
  captureStates : UInt64 := 0

namespace Registry

/-- The declaration of `S.#copy_ctor`, which copies a struct bit by bit. -/
def structCopyDecl (type : TypeRef) : Procedure :=
  .declaration (type.name ++ ".#copy_ctor") [⟨"this", .ref⟩] [⟨"copy", .ref⟩]

/-- The declaration of `$Record.<ty>`, which records a value. -/
def recorderDecl (ty : Ir.Ty) : Procedure :=
  .declaration (Ir.recordProc ++ "." ++ ty.text) [⟨"value", ty⟩] []

/-- The name of the procedure that copies a struct. -/
def structCopy (r : Registry) (type : TypeRef) : String × Registry :=
  let (proc, structCopies) := r.structCopies.getOrInsertWith type structCopyDecl
  (proc.name, { r with structCopies })

/-- The name of the procedure that records values of a type. -/
def recorder (r : Registry) (ty : Ir.Ty) : String × Registry :=
  let (proc, recorders) := r.recorders.getOrInsertWith ty recorderDecl
  (proc.name, { r with recorders })

/-- A breadcrumb number that was never given out. -/
def nextBreadcrumb (r : Registry) : UInt64 × Registry :=
  (r.breadcrumbs, { r with breadcrumbs := r.breadcrumbs + 1 })

/-- A state number that was never given out. -/
def nextCaptureState (r : Registry) : UInt64 × Registry :=
  (r.captureStates, { r with captureStates := r.captureStates + 1 })

/-- Procedures in the order of their names. -/
def byName (p q : Procedure) : Bool := decide (p.name ≤ q.name)

/-- The declarations of all helpers asked for: struct copies, then recorders, by name. -/
def helpers (r : Registry) : List Procedure :=
  r.structCopies.valuesSorted byName ++ r.recorders.valuesSorted byName

end Registry

end Unwind
