import Unwind.CommandLine.Config
import Unwind.CommandLine.Files
import Unwind.Ir.Codec
import Unwind.Json.Reader
import Unwind.Json.Writer
import Unwind.Source.Codec.Program
import Unwind.Compilation

/-!
# Running a command line

`run` does everything a command line asks for, on any file system. The configuration is read before
the command starts; a configuration that cannot be read ends the run without a word in the log.
-/

namespace Unwind.CommandLine

/-- What a run leaves behind besides files. -/
structure Outcome where
  exit : Nat
  stdout : String := ""
  log : List Log.Event := []

/-- Why a command failed. -/
inductive Failure where
  | file (error : FileError)
  | invalid (text : String)
  | lowering (fault : Fault)

/-- A part of a command: it reports to the log and can fail. -/
abbrev Action (m : Type → Type) := ExceptT Failure (StateT Log m)

variable {m : Type → Type} [Monad m]

/-- Report an event. -/
def note (level : Log.Level) (message : String) : Action m Unit :=
  modify (·.add level message)

/-- Take over a log that was collected elsewhere. -/
def noteAll (log : Log) : Action m Unit := modify (· ++ log)

/-- The nesting that the text of a program may have. -/
def programDepth : Nat := 127

/-- The program a text stands for. Parts of the text that say nothing about the program need only be
well formed. -/
def programOfText? (text : String) : Option Source.Program :=
  (Json.scan? text).bind (Source.Program.ofJson? true programDepth)

/-- Read a program from a file. -/
def readProgram (fs : FileSystem m) (path : String) : Action m Source.Program := do
  match ← fs.read path with
  | .error e => throw (.file e)
  | .ok text =>
    match programOfText? text with
    | some p => return p
    | none => throw (.invalid s!"{path} is not a valid program: ")

/-- Write a text to a file, or return it for the standard output when no file is named. -/
def writeOutput (fs : FileSystem m) (output : Option String) (text : String) :
    Action m String := do
  match output with
  | none => return text
  | some path =>
    match ← fs.save path text with
    | .error e => throw (.file e)
    | .ok () =>
      note .info s!"wrote {path}"
      return ""

/-! ## Commands -/

/-- The level of the log at which a diagnostic is reported. -/
def logLevelOf : Diagnostic.Level → Log.Level
  | .error => .error
  | .warning => .warn
  | .info => .info

/-- Report a diagnostic, an event for each of its lines. -/
def noteDiagnostic (d : Diagnostic) : Action m Unit :=
  (d.render "lower").forM fun line => note (logLevelOf d.level) line

/-- The result of a compilation; its log is reported. -/
def compileNoted (options : Options) (policy : FailurePolicy) (p : Source.Program) :
    Action m Compilation := do
  let (result, log) := compile options policy p
  noteAll log
  match result with
  | .ok t => return t
  | .error fault => throw (.lowering fault)

/-- Compile a program. -/
def lowerCommand (fs : FileSystem m) (config : Config) (args : LowerArgs) : Action m String := do
  let p ← readProgram fs args.input
  let policy : FailurePolicy :=
    if args.skipFailures || config.skipFailures then .skip else .abort
  let t ← compileNoted (config.optionsFor args) policy p
  t.diagnostics.forM noteDiagnostic
  unless t.skipped.isEmpty do
    note .warn (toString t.skipped.length ++ " procedures skipped: " ++ ", ".intercalate t.skipped)
  let text :=
    match args.format.getD config.format with
    | .pretty => t.program.print {}
    | .json => t.program.toJson.pretty
  writeOutput fs args.output text

/-- Split at the last point. -/
def splitLastPoint? (s : String) : Option (String × String) :=
  let reversed := s.toList.reverse
  match reversed.dropWhile (· ≠ '.') with
  | [] => none
  | _ :: front =>
    some (String.ofList front.reverse, String.ofList (reversed.takeWhile (· ≠ '.')).reverse)

/-- The overrides of the method that `name` names, which takes no parameters. -/
def overridesOf (h : Hierarchy) (name : String) : Action m Json := do
  match splitLastPoint? name with
  | none => throw (.invalid s!"expected `Type.Method`, got `{name}`")
  | some (type, method) =>
    let ref : Source.MethodRef := { type := { name := type }, name := method }
    match h.resolve ref with
    | .error fault => throw (.lowering fault)
    | .ok os =>
      note .trace s!"{ref.text} resolves to {os.length} overrides"
      return .arr (os.map fun o => .arr [.str o.type.name, .str o.method.signature])

/-- Print the subtype index, or the overrides of a method. -/
def hierarchyCommand (fs : FileSystem m) (args : HierarchyArgs) : Action m String := do
  let p ← readProgram fs args.input
  let h := Hierarchy.ofProgram p
  note .debug s!"subtype index built: {h.index.size} supertypes over {h.table.size} types"
  let json ←
    match args.method with
    | none => pure h.index.toJson
    | some name => overridesOf h name
  writeOutput fs args.output (json.pretty ++ "\n")

/-! ## Runs -/

/-- The configuration that the arguments ask for; nothing when it cannot be read. -/
def loadConfig? (fs : FileSystem m) (path : Option String) : m (Option Config) := do
  let path ←
    match path with
    | some p => pure (some p)
    | none =>
      if ← fs.pathExists defaultConfigFile then pure (some defaultConfigFile) else pure none
  match path with
  | none => return some {}
  | some p =>
    match ← fs.read p with
    | .ok text => return Config.ofText? text
    | .error _ => return none

/-- What is reported about a command that failed. -/
def Failure.events : Failure → List Log.Event
  | file e => [⟨.error, s!"IO error: {e.message}"⟩]
  | invalid text => [⟨.error, s!"Invalid input: {text}"⟩]
  | lowering fault =>
    ((Diagnostic.ofFault fault "lower").render "lower").map fun line => ⟨.error, line⟩

/-- Run a command under its configuration. -/
def runCommand (fs : FileSystem m) (args : Arguments) (config : Config) (log : Log) :
    m Outcome := do
  let action : Action m String :=
    match args.command with
    | .lower a => lowerCommand fs config a
    | .hierarchy a => hierarchyCommand fs a
  let (result, log) ← (action.run).run log
  match result with
  | .ok stdout =>
    let log := if 0 < args.verbose then log.add .info "Command completed successfully" else log
    return { exit := 0, stdout, log := Log.visibleAt log args.logLevel }
  | .error failure =>
    return { exit := 1, log := Log.visibleAt (log ++ failure.events.toArray) args.logLevel }

/-- The text that answers `--version`. -/
def versionText : String := "bvt 0.1.0\n"

/-- Run a command line under the given environment. -/
def run (fs : FileSystem m) (args : List String) (env : List (String × String)) : m Outcome := do
  match Arguments.read args with
  | .error .version => return { exit := 0, stdout := versionText }
  | .error .usage => return { exit := 2 }
  | .ok args =>
    match ← loadConfig? fs args.config with
    | none => return { exit := 1 }
    | some config =>
      let (config, log) := config.underEnv env
      runCommand fs args config log

/-- What a run on files in memory leaves behind, with the files it wrote. -/
structure MemoryOutcome extends Outcome where
  written : List (String × String)

/-- Run a command line on files in memory. What it writes to `/dev/stdout` is output as well. -/
def runOn (args : List String) (env files : List (String × String)) : MemoryOutcome :=
  let before := Files.ofList files
  let (out, after) := (run Files.fileSystem args env).run before
  let printed := (after.entries.lookup Files.stdout).getD ""
  { out with stdout := printed ++ out.stdout, written := before.changes after }

end Unwind.CommandLine
