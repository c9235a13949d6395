import Unwind.Fault

/-!
# Diagnostics

A fault as it is shown to a reader: with a level, a place, the procedure it belongs to and hints
on what to do about it.
-/

namespace Unwind

/-- How serious a diagnostic is. -/
inductive Diagnostic.Level where
  | info
  | warning
  | error
deriving DecidableEq

/-- A message for the reader. -/
structure Diagnostic where
  level : Diagnostic.Level
  message : String
  span : Option Span := none
  suggestions : List String := []
  /-- What the message is about, usually a procedure. -/
  sourceContext : Option String := none
  code : Option String := none
deriving DecidableEq

namespace Diagnostic

/-- The level in the header of a rendered diagnostic. -/
def Level.heading : Level → String
  | error => "ERROR"
  | warning => "WARNING"
  | info => "INFO"

/-- The level as the name of a case. -/
def Level.caseName : Level → String
  | error => "Error"
  | warning => "Warning"
  | info => "Info"

/-- The hint that goes with every construct that is not handled. -/
def unloopHint : String := "rewrite loops and break/continue into labels and gotos before lowering"

/-- The diagnostic for a fault found while working on `context`. -/
def ofFault (fault : Fault) (context : String) : Diagnostic where
  level := .error
  message := fault.message
  span := fault.span?
  suggestions :=
    match fault with
    | .unsupported .. => [unloopHint]
    | _ => []
  sourceContext := some context
  code := some fault.code

/-- Message, code and hints on one line. -/
def text (d : Diagnostic) : String :=
  let code :=
    match d.code with
    | some code => s!" [{code}]"
    | none => ""
  let hints :=
    if d.suggestions.isEmpty then "" else " (hints: " ++ "; ".intercalate d.suggestions ++ ")"
  d.message ++ code ++ hints

/-- The diagnostic on lines of its own; `fallback` names the context when it has none. -/
def render (d : Diagnostic) (fallback : String) : List String :=
  let context := d.sourceContext.getD fallback
  let code :=
    match d.code with
    | some code => s!" ({code})"
    | none => ""
  let header := "[" ++ context ++ "] " ++ d.level.heading ++ ": " ++ d.message ++ code
  let place :=
    match d.span with
    | some span => ["   at " ++ span.text]
    | none => []
  header :: (place ++ d.suggestions.map fun hint => "   suggestion: " ++ hint)

/-! ## All fields at once -/

/-- One character of a quoted text. -/
def quoteChar (c : Char) : String :=
  if c = '"' then "\\\""
  else if c = '\\' then "\\\\"
  else if c = '\n' then "\\n"
  else if c = '\r' then "\\r"
  else if c = '\t' then "\\t"
  else c.toString

/-- A text in quotes. -/
def quote (s : String) : String := "\"" ++ String.join (s.toList.map quoteChar) ++ "\""

/-- A value that may be absent. -/
def caseText (text : α → String) : Option α → String
  | some a => "Some(" ++ text a ++ ")"
  | none => "None"

/-- The fields of a span. -/
def spanFields (s : Span) : String :=
  "Span \x7b file: " ++ toString s.file.toNat ++ ", lo: " ++ toString s.lo.toNat ++
    ", hi: " ++ toString s.hi.toNat ++ ", line: " ++ toString s.line.toNat ++ " \x7d"

/-- Every field of the diagnostic. -/
def allFields (d : Diagnostic) : String :=
  "Diagnostic \x7b level: " ++ d.level.caseName ++ ", message: " ++ quote d.message ++
    ", span: " ++ caseText spanFields d.span ++
    ", suggestions: [" ++ ", ".intercalate (d.suggestions.map quote) ++ "]" ++
    ", source_context: " ++ caseText quote d.sourceContext ++
    ", code: " ++ caseText quote d.code ++ " \x7d"

end Diagnostic

/-- The diagnostics of a run hold an error. -/
def hasErrors (ds : List Diagnostic) : Bool := ds.any (·.level == .error)

end Unwind
