import Unwind.Diagnostic
import Unwind.Dispatch.Expansion
import Unwind.Lowering.Method
import Unwind.Workers

/-!
# Compiling whole programs

The virtual calls of every method are expanded, and every method is lowered. A method that fails
either stops the compilation or is left out. Around the procedures stand a constant for every type,
the global for the exception, and a variable for every field.
-/

namespace Unwind

open Source (MethodDef TypeDef)
open Ir (Procedure VarDecl)
open Lowering (Env Shared Compiling irTy)

/-- What to do with a method that cannot be lowered. -/
inductive FailurePolicy where
  /-- Stop at the first one, in declaration order. -/
  | abort
  /-- Leave it out, keep its diagnostic and carry on. -/
  | skip
deriving DecidableEq

/-- A compiled program. -/
structure Compilation where
  program : Ir.Program
  diagnostics : List Diagnostic := []
  /-- The procedures left out. -/
  skipped : List String := []

namespace Compilation

/-- A method and the type that declares it. -/
structure Member where
  owner : TypeDef
  method : MethodDef

/-- The name of the procedure for a method. -/
def Member.procedureName (m : Member) : String := (m.method.reference m.owner.name).procedureName

/-- The methods of a program, in declaration order. -/
def membersOf (p : Source.Program) : List Member :=
  p.allTypes.flatMap fun d => d.methods.map fun m => ⟨d, m⟩

/-- Report an event. -/
def report (level : Log.Level) (message : String) : Compiling Unit :=
  modify fun s => { s with log := s.log.add level message }

/-- Expand the virtual calls of a body; return the new body and the number of sites replaced. -/
def devirtualize (h : Hierarchy) (body : Source.Stmt) : Compiling (Source.Stmt × Nat) :=
  fun shared =>
    let (result, s) := (Dispatch.transform h body).run { log := shared.log }
    (result.map fun body => (body, s.replaced), { shared with log := s.log })

/-- Compile one method. -/
def compileMember (env : Env) (h : Hierarchy) (m : Member) : Compiling Procedure := do
  match m.method.body with
  | some body =>
    let (body, replaced) ← devirtualize h body
    if 0 < replaced then
      report .debug s!"{m.method.name}: {replaced} call sites devirtualized"
    Lowering.lowerMethod env m.owner { m.method with body := some body }
  | none => Lowering.lowerMethod env m.owner m.method

/-- Compile one method and keep its fault as a result. -/
def attempt (env : Env) (h : Hierarchy) (m : Member) :
    StateM Shared (Except Fault Procedure) :=
  (compileMember env h m).run

/-! ## Results -/

/-- The procedures, the diagnostics and the names left out, in order. -/
structure Outcome where
  procedures : List Procedure := []
  diagnostics : List Diagnostic := []
  skipped : List String := []

/-- Collect the results of the methods. Under `abort` the first fault is the result. -/
def collect (policy : FailurePolicy) :
    List (Member × Except Fault Procedure) → Outcome → Compiling Outcome
  | [], out => return out
  | (_, .ok procedure) :: rest, out =>
    collect policy rest { out with procedures := out.procedures ++ [procedure] }
  | (m, .error fault) :: rest, out => do
    match policy with
    | .abort => throw fault
    | .skip =>
      let name := m.procedureName
      report .warn s!"skipping {name}: {fault.message}"
      collect policy rest
        { out with diagnostics := out.diagnostics ++ [.ofFault fault name],
                   skipped := out.skipped ++ [name] }

/-! ## What stands around the procedures -/

/-- The variable of a field. -/
def fieldDecl (d : TypeDef) (f : Source.FieldDef) : Except Fault VarDecl :=
  return ⟨d.name.name ++ "." ++ f.name, ← irTy f.ty {}⟩

/-- All fields of a program, each with its variable. -/
def fieldDecls (p : Source.Program) : Except Fault (List (Source.FieldDef × VarDecl)) :=
  (p.allTypes.flatMap fun d => d.fields.map fun f => (d, f)).mapM fun (d, f) =>
    return (f, ← fieldDecl d f)

/-- The procedure that creates objects. -/
def allocDecl : Procedure := .declaration Ir.allocProc [⟨"type", .type⟩] [⟨"object", .ref⟩]

/-- The whole program around its procedures. -/
def assemble (p : Source.Program) (table : TypeTable) (procedures : List Procedure) :
    Except Fault Ir.Program := do
  let fields ← fieldDecls p
  return {
    typeConstants := table.defs.map fun d => "T$" ++ d.name.name
    globals := ⟨Ir.exceptionVar, .ref⟩ :: (fields.filter (·.1.isStatic)).map (·.2)
    fieldMaps := (fields.filter (!·.1.isStatic)).map (·.2)
    procedures }

/-- Compile a program. `literal` says what an integer literal is lowered to. -/
def run (options : Options) (policy : FailurePolicy) (p : Source.Program)
    (literal : Int64 → Int64 := id) : Compiling Compilation := do
  let h := Hierarchy.ofProgram p
  report .debug s!"subtype index built: {h.index.size} supertypes over {h.table.size} types"
  let env : Env := { options, program := p, types := h.table, literal }
  let members := membersOf p
  let workers := Workers.count options.jobs.toNat members.length
  report .info
    s!"translating {members.length} methods of {h.table.size} types with {workers} workers"
  let results ← ExceptT.lift (Workers.run workers (attempt env h) members)
  let out ← collect policy (members.zip results) {}
  let helpers := (← get).registry.helpers
  let program ← assemble p h.table (out.procedures ++ allocDecl :: helpers)
  return { program, diagnostics := out.diagnostics, skipped := out.skipped }

end Compilation

/-- Compile a program; the log of the run comes along with its result. -/
def compile (options : Options) (policy : FailurePolicy) (p : Source.Program)
    (literal : Int64 → Int64 := id) : Except Fault Compilation × Log :=
  let (result, shared) := (Compilation.run options policy p literal).run {}
  (result, shared.log)

end Unwind
