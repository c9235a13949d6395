import Unwind.CommandLine.Arguments
import Unwind.CommandLine.Toml.Reader
import Unwind.Options

/-!
# Configuration

A configuration supplies the options of a run: first from a file, then from the environment, then
from the arguments. Arguments only ever switch options on.
-/

namespace Unwind.CommandLine

/-- The file that is read when no other is named. -/
def defaultConfigFile : String := "bvt.toml"

/-- What a configuration says. -/
structure Config where
  options : Options := {}
  format : OutputFormat := .pretty
  skipFailures : Bool := false

namespace Config

open Toml (Document Value)

/-! ## Fields -/

/-- A truth value, `false` when nothing is given. -/
def boolOf? (d : Document) : Option Bool :=
  match d.content with
  | .nothing => some false
  | .value (.bool b) => some b
  | _ => none

/-- A number below `bound`, `1` when nothing is given. -/
def natOf? (bound : Nat) (d : Document) : Option Nat :=
  match d.content with
  | .nothing => some 1
  | .value (.int n) => if 0 ≤ n && n < bound then some n.toNat else none
  | _ => none

/-- A format. It is given by its name: as a string, or as the only entry of a section, which has
nothing in it. -/
def formatOf? (d : Document) : Option OutputFormat :=
  match d.content with
  | .nothing => some .pretty
  | .value (.str s) => OutputFormat.ofName? s
  | .section => d.onlyEmptyEntry?.bind OutputFormat.ofName?
  | _ => none

/-- The fields of a record, by their position and their name. A section gives them by name; an array
or a list of sections gives the first ones in order; a date gives none of them. Of a list only the
last section is at hand, which is enough: two fields in a row cannot both be sections. -/
def fields? (d : Document) : Option (Nat → String → Document) :=
  match d.content with
  | .nothing | .section => some fun _ name => d.within [name]
  | .list length => some fun i _ => if i < length then d.lastOfList else {}
  | .value (.array items) => some fun i _ => (items[i]?.map (Document.ofValue [])).getD {}
  | .value .date => some fun _ _ => {}
  | .value _ => none

/-! ## Sections -/

/-- The options of a compilation. -/
def optionsOf? (d : Document) : Option Options := do
  let field ← fields? d
  let modelExceptions ← natOf? UInt8.size (field 0 "model-exceptions")
  let jobs ← natOf? UInt64.size (field 6 "jobs")
  return {
    modelExceptions := UInt8.ofNat modelExceptions
    instrumentBranches := ← boolOf? (field 1 "instrument-branches")
    getMeHere := ← boolOf? (field 2 "get-me-here")
    recordValues := ← boolOf? (field 3 "record-values")
    captureState := ← boolOf? (field 4 "capture-state")
    emitSourceContext := ← boolOf? (field 5 "emit-source-context")
    jobs := UInt64.ofNat jobs }

/-- The configuration a document stands for. Unknown sections and keys are passed over. -/
def ofDocument? (d : Document) : Option Config := do
  let options ← optionsOf? (d.within ["translation"])
  let output ← fields? (d.within ["output"])
  return { options, format := ← formatOf? (output 0 "format"),
           skipFailures := ← boolOf? (output 1 "skip-failures") }

/-- The configuration a text stands for. -/
def ofText? (text : String) : Option Config := (Toml.read? text).bind ofDocument?

/-! ## Environment -/

/-- A switch is on unless its value is blank or says otherwise. -/
def isOn (value : String) : Bool :=
  let off := ["", "0", "false", "FALSE", "False"]
  !off.contains (trimBlanks value)

/-- The configuration under the variables of the environment, and what is reported about it. -/
def underEnv (config : Config) (env : List (String × String)) : Config × Log :=
  let o := config.options
  let level := (env.lookup "BV_MODEL_EXCEPTIONS").bind fun v => natBelow? UInt8.size (trimBlanks v)
  let log : Log :=
    match level with
    | some n => #[⟨.debug, s!"BV_MODEL_EXCEPTIONS overrides model_exceptions to {n}"⟩]
    | none => #[]
  let options := { o with
    modelExceptions := (level.map UInt8.ofNat).getD o.modelExceptions
    instrumentBranches := ((env.lookup "BV_INSTRUMENT_BRANCHES").map isOn).getD o.instrumentBranches
    getMeHere := ((env.lookup "BV_GET_ME_HERE").map isOn).getD o.getMeHere }
  ({ config with options }, log)

/-! ## Arguments -/

/-- The options of a compilation under the arguments of the command. -/
def optionsFor (config : Config) (args : LowerArgs) : Options :=
  let o := config.options
  { modelExceptions := args.modelExceptions.getD o.modelExceptions
    instrumentBranches := o.instrumentBranches || args.instrumentBranches
    getMeHere := o.getMeHere || args.getMeHere
    recordValues := o.recordValues || args.recordValues
    captureState := o.captureState || args.captureState
    emitSourceContext := o.emitSourceContext || args.sourceContext
    jobs := args.jobs.getD o.jobs }

end Config

end Unwind.CommandLine
