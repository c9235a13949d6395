import Unwind.Json.Decode

/-!
# Options of a compilation

The switches are inputs: no step of a compilation changes them.
-/

namespace Unwind

/-- What a compilation may be told. -/
structure Options where
  /-- `0` assumes that no exception ever escapes; anything else models unwinding. -/
  modelExceptions : UInt8 := 1
  /-- Put a numbered breadcrumb into each branch of a conditional. -/
  instrumentBranches : Bool := false
  /-- Weaken assertions to assumptions. -/
  getMeHere : Bool := false
  /-- Record initialized locals, returned values and exceptions. -/
  recordValues : Bool := false
  /-- Put a state marker in front of every statement. -/
  captureState : Bool := false
  /-- Put the source position in front of every statement whose place is known. -/
  emitSourceContext : Bool := false
  /-- The number of workers. -/
  jobs : UInt64 := 1
deriving DecidableEq

namespace Options

/-- Whether exceptions are modeled at all. -/
def modelsExceptions (o : Options) : Bool := o.modelExceptions != 0

def toJson (o : Options) : Json :=
  .obj [("model-exceptions", .ofUInt8 o.modelExceptions),
    ("instrument-branches", .bool o.instrumentBranches), ("get-me-here", .bool o.getMeHere),
    ("record-values", .bool o.recordValues), ("capture-state", .bool o.captureState),
    ("emit-source-context", .bool o.emitSourceContext), ("jobs", .ofUInt64 o.jobs)]

def ofJson? : Json.Decoder Options
  | _ + 1, j =>
    match j.slots? ["model-exceptions", "instrument-branches", "get-me-here", "record-values",
      "capture-state", "emit-source-context", "jobs"] with
    | some [modelExceptions, instrumentBranches, getMeHere, recordValues, captureState,
        emitSourceContext, jobs] => do
      return { modelExceptions := ← modelExceptions.orDefault 1 Json.uint8?,
               instrumentBranches := ← instrumentBranches.orDefault false Json.bool?,
               getMeHere := ← getMeHere.orDefault false Json.bool?,
               recordValues := ← recordValues.orDefault false Json.bool?,
               captureState := ← captureState.orDefault false Json.bool?,
               emitSourceContext := ← emitSourceContext.orDefault false Json.bool?,
               jobs := ← jobs.orDefault 1 Json.uint64? }
    | _ => none
  | 0, _ => none

end Options

end Unwind
