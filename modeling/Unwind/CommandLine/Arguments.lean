import Unwind.CommandLine.Numeral
import Unwind.Log

/-!
# Arguments

```
bvt [GLOBAL] lower [OPTIONS] INPUT
bvt [GLOBAL] hierarchy [OPTIONS] INPUT
bvt --version
```

The arguments are read from left to right in one pass. Global options may stand before or after
the name of the command; one that stands behind it counts. A value follows its option as the next
argument, behind `=`, or right behind a short option; short options can be joined. Behind `--`
there are no options. An option is given at most once on either side of the command's name, except
`--verbose`, which is counted.
-/

namespace Unwind.CommandLine

/-- How the compiled program is written. -/
inductive OutputFormat where
  | pretty
  | json
deriving DecidableEq

/-- The format of the given name. -/
def OutputFormat.ofName? : String → Option OutputFormat
  | "pretty" => some .pretty
  | "json" => some .json
  | _ => none

/-- The log level of the given name. -/
def levelOfName? : String → Option Log.Level
  | "error" => some .error
  | "warn" => some .warn
  | "info" => some .info
  | "debug" => some .debug
  | "trace" => some .trace
  | _ => none

/-- The arguments of `lower`. -/
structure LowerArgs where
  input : String
  output : Option String := none
  format : Option OutputFormat := none
  modelExceptions : Option UInt8 := none
  instrumentBranches : Bool := false
  getMeHere : Bool := false
  recordValues : Bool := false
  captureState : Bool := false
  sourceContext : Bool := false
  jobs : Option UInt64 := none
  skipFailures : Bool := false

/-- The arguments of `hierarchy`. -/
structure HierarchyArgs where
  input : String
  output : Option String := none
  method : Option String := none

/-- What the program is asked to do. -/
inductive Command where
  | lower (args : LowerArgs)
  | hierarchy (args : HierarchyArgs)

/-- A whole command line. -/
structure Arguments where
  verbose : Nat := 0
  quiet : Bool := false
  log : Option Log.Level := none
  config : Option String := none
  command : Command

/-- How reading the arguments can end early. -/
inductive Stop where
  /-- The version is asked for. -/
  | version
  /-- The arguments make no sense. -/
  | usage

/-! ## Options -/

/-- What an option takes. -/
inductive Takes where
  | nothing
  /-- A value of which the test holds. -/
  | value (accepts : String → Bool)

/-- An option. -/
structure Spec where
  short : Option Char := none
  long : String
  takes : Takes := .nothing
  /-- Whether it may be given more than once. -/
  repeats : Bool := false

/-- A path is not empty. -/
def isPath (s : String) : Bool := !s.isEmpty

def globalSpecs : List Spec :=
  [{ short := some 'v', long := "verbose", repeats := true },
   { short := some 'q', long := "quiet" },
   { long := "log", takes := .value fun s => (levelOfName? s).isSome },
   { long := "log-format", takes := .value fun s => s == "pretty" || s == "json" },
   { short := some 'c', long := "config", takes := .value isPath }]

def outputSpec : Spec := { short := some 'o', long := "output", takes := .value isPath }

def lowerSpecs : List Spec :=
  [outputSpec,
   { long := "format", takes := .value fun s => (OutputFormat.ofName? s).isSome },
   { long := "model-exceptions", takes := .value fun s => (signedBelow? UInt8.size s).isSome },
   { long := "instrument-branches" },
   { long := "get-me-here" },
   { long := "record-values" },
   { long := "capture-state" },
   { long := "source-context" },
   { short := some 'j', long := "jobs", takes := .value fun s => (natBelow? UInt64.size s).isSome },
   { long := "skip-failures" }]

def hierarchySpecs : List Spec := [outputSpec, { long := "method", takes := .value fun _ => true }]

/-- The commands. -/
inductive CommandName where
  | lower
  | hierarchy
deriving DecidableEq

def CommandName.ofName? : String → Option CommandName
  | "lower" => some .lower
  | "hierarchy" => some .hierarchy
  | _ => none

/-- The options that can be given before the name of the command, and behind it. -/
def specsFor : Option CommandName → List Spec
  | none => globalSpecs
  | some .lower => globalSpecs ++ lowerSpecs
  | some .hierarchy => globalSpecs ++ hierarchySpecs

/-! ## Reading -/

/-- An option that was given, with its value when it takes one. -/
structure Given where
  option : String
  value : String := ""
  /-- It stands before the name of the command. -/
  before : Bool

/-- How far the arguments have been read. -/
structure Reading where
  command : Option CommandName := none
  given : List Given := []
  words : List String := []
  /-- The option whose value comes next. -/
  pending : Option Spec := none
  /-- `--` has been read. -/
  onlyWords : Bool := false

namespace Reading

/-- Enter an option. -/
def give (r : Reading) (spec : Spec) (value : String) : Except Stop Reading :=
  let before := r.command.isNone
  let again := r.given.any fun g => g.option == spec.long && g.before == before
  let accepted :=
    match spec.takes with
    | .nothing => true
    | .value accepts => accepts value
  if accepted && (spec.repeats || !again) then
    .ok { r with given := r.given ++ [{ option := spec.long, value, before }], pending := none }
  else .error .usage

/-- The version can only be asked for before the name of the command. -/
def asksVersion (r : Reading) (name : String) : Bool := r.command.isNone && name == "version"

/-- An option by its long name, and the value behind `=` when there is one. -/
def long (r : Reading) (name : String) (value : Option String) : Except Stop Reading :=
  match (specsFor r.command).find? (·.long == name) with
  | none => if r.asksVersion name && value.isNone then .error .version else .error .usage
  | some spec =>
    match spec.takes, value with
    | .nothing, none => r.give spec ""
    | .nothing, some _ => .error .usage
    | .value _, some v => r.give spec v
    | .value _, none => .ok { r with pending := some spec }

/-- Short options joined in one argument; the first one that takes a value takes the rest. -/
def short (r : Reading) : List Char → Except Stop Reading
  | [] => .ok r
  | c :: cs =>
    match (specsFor r.command).find? (·.short == some c) with
    | none => if r.command.isNone && c == 'V' then .error .version else .error .usage
    | some spec =>
      match spec.takes, cs with
      | .nothing, cs => do (← r.give spec "").short cs
      | .value _, [] => .ok { r with pending := some spec }
      | .value _, '=' :: cs => r.give spec (String.ofList cs)
      | .value _, cs => r.give spec (String.ofList cs)

/-- An argument that is no option: the name of the command, or one of its inputs. -/
def word (r : Reading) (s : String) : Except Stop Reading :=
  match r.command with
  | some _ => .ok { r with words := r.words ++ [s] }
  | none =>
    match CommandName.ofName? s with
    | some name => if r.onlyWords then .error .usage else .ok { r with command := some name }
    | none => .error .usage

/-- Read one more argument. -/
def step (r : Reading) (arg : String) : Except Stop Reading :=
  if r.onlyWords then r.word arg
  else
    match r.pending, arg.toList with
    | some spec, ['-'] => r.give spec arg
    | some _, '-' :: _ => .error .usage
    | some spec, _ => r.give spec arg
    | none, ['-', '-'] => .ok { r with onlyWords := true }
    | none, '-' :: '-' :: cs =>
      let name := String.ofList (cs.takeWhile (· ≠ '='))
      match cs.dropWhile (· ≠ '=') with
      | _ :: value => r.long name (some (String.ofList value))
      | [] => r.long name none
    | none, '-' :: c :: cs => r.short (c :: cs)
    | none, _ => r.word arg

/-! ## Results -/

/-- The value of an option; the one behind the name of the command counts. -/
def value? (r : Reading) (option : String) : Option String :=
  let all := r.given.filter (·.option == option)
  ((all.find? (!·.before)).or (all.find? (·.before))).map (·.value)

/-- Whether an option is given. -/
def has (r : Reading) (option : String) : Bool := r.given.any (·.option == option)

/-- How often an option is given, on the side that counts. -/
def count (r : Reading) (option : String) : Nat :=
  let (before, behind) := (r.given.filter (·.option == option)).partition (·.before)
  if behind.isEmpty then before.length else behind.length

def lowerArgs (r : Reading) (input : String) : LowerArgs where
  input
  output := r.value? "output"
  format := (r.value? "format").bind OutputFormat.ofName?
  modelExceptions := ((r.value? "model-exceptions").bind (signedBelow? UInt8.size)).map UInt8.ofNat
  instrumentBranches := r.has "instrument-branches"
  getMeHere := r.has "get-me-here"
  recordValues := r.has "record-values"
  captureState := r.has "capture-state"
  sourceContext := r.has "source-context"
  jobs := ((r.value? "jobs").bind (natBelow? UInt64.size)).map UInt64.ofNat
  skipFailures := r.has "skip-failures"

def hierarchyArgs (r : Reading) (input : String) : HierarchyArgs where
  input
  output := r.value? "output"
  method := r.value? "method"

/-- The command line, when it is complete: a command with exactly one input. -/
def finish (r : Reading) : Except Stop Arguments :=
  match r.command, r.words, r.pending with
  | some name, [input], none =>
    if isPath input then
      .ok { verbose := r.count "verbose"
            quiet := r.has "quiet"
            log := (r.value? "log").bind levelOfName?
            config := r.value? "config"
            command :=
              match name with
              | .lower => .lower (r.lowerArgs input)
              | .hierarchy => .hierarchy (r.hierarchyArgs input) }
    else .error .usage
  | _, _, _ => .error .usage

end Reading

namespace Arguments

/-- Read a command line. -/
def read (args : List String) : Except Stop Arguments := do
  (← args.foldlM Reading.step {}).finish

/-- The log level: `--log`, else `--quiet`, else by the number of `--verbose`. -/
def logLevel (a : Arguments) : Log.Level :=
  match a.log with
  | some level => level
  | none =>
    if a.quiet then .error
    else
      match a.verbose with
      | 0 => .warn
      | 1 => .info
      | 2 => .debug
      | _ => .trace

end Arguments

end Unwind.CommandLine
