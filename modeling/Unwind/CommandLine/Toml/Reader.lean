import Unwind.CommandLine.Toml.Scalar

/-!
# Reading configuration text

A configuration is a list of statements, each on lines of its own: blank lines, comments,
`[section]` headers, `[[section]]` headers for lists of sections, and `key = value`. Keys and
sections are bare words or quoted, and may be dotted. A value is a plain one, an array in brackets,
which may go over several lines, or a section in braces, which may not.
-/

namespace Unwind.CommandLine.Toml

/-! ## Values -/

mutual

/-- A value that nests at most `depth` deep. Each step takes a character, so `fuel` need not exceed
their number. -/
def valueWithin? : Nat → Nat → List Char → Option (Value × List Char)
  | 0, _, _ => none
  | fuel + 1, depth, cs =>
    match cs, depth with
    | '"' :: _, _ | '\'' :: _, _ => (string? cs).map fun (s, rest) => (.str s, rest)
    | '[' :: rest, depth + 1 => items? fuel depth [] rest
    | '\x7b' :: rest, depth + 1 =>
      match skipSpace rest with
      | '\x7d' :: rest => some (.table [], rest)
      | rest => fields? fuel depth {} rest
    | cs, _ => word? cs

/-- The rest of an array, which holds `read` already, in reverse. -/
def items? : Nat → Nat → List Value → List Char → Option (Value × List Char)
  | 0, _, _, _ => none
  | fuel + 1, depth, read, cs =>
    match skipLines false cs with
    | ']' :: rest => some (.array read.reverse, rest)
    | cs => do
      let (value, rest) ← valueWithin? fuel depth cs
      match skipLines false rest with
      | ',' :: rest => items? fuel depth (value :: read) rest
      | ']' :: rest => some (.array (value :: read).reverse, rest)
      | _ => none

/-- The rest of a section in braces, from a key on; `read` holds its values so far. -/
def fields? : Nat → Nat → Document → List Char → Option (Value × List Char)
  | 0, _, _, _ => none
  | fuel + 1, depth, read, cs => do
    let (key, rest) ← key? cs
    match rest with
    | '=' :: rest =>
      let (value, rest) ← valueWithin? fuel depth (skipSpace rest)
      let read ← read.enter [] key value
      match skipSpace rest with
      | ',' :: rest => fields? fuel depth read rest
      | '\x7d' :: rest => some (.table read.values, rest)
      | _ => none
    | _ => none

end

/-- A value, and what follows it. -/
def value? (cs : List Char) : Option (Value × List Char) :=
  valueWithin? (2 * cs.length + 1) maxDepth cs

/-! ## Statements -/

/-- A header behind its opening bracket, and what follows its line. -/
def header? (cs : List Char) : Option (List String × List Char) := do
  let (path, rest) ← key? cs
  match rest with
  | ']' :: rest => return (path, ← lineEnd? rest)
  | _ => none

/-- The header of a list of sections behind its opening brackets, and what follows its line. -/
def listHeader? (cs : List Char) : Option (List String × List Char) := do
  let (path, rest) ← key? cs
  match rest with
  | ']' :: ']' :: rest => return (path, ← lineEnd? rest)
  | _ => none

/-- A key with its value, and what follows their line. -/
def assignment? (cs : List Char) : Option (List String × Value × List Char) := do
  let (key, rest) ← key? cs
  match rest with
  | '=' :: rest =>
    let (value, rest) ← value? (skipSpace rest)
    return (key, value, ← lineEnd? rest)
  | _ => none

/-- Read statements into the document, in the section `current`. Each statement takes a character,
so `fuel` need not exceed their number. -/
def statements? : Nat → Document → List String → List Char → Option Document
  | 0, _, _, _ => none
  | fuel + 1, d, current, cs =>
    match skipSpace cs with
    | [] => some d
    | '\n' :: rest => statements? fuel d current rest
    | '#' :: rest => do statements? fuel d current (← lineEnd? ('#' :: rest))
    | '[' :: '[' :: rest => do
      let (path, rest) ← listHeader? rest
      statements? fuel (← d.addToList path) path rest
    | '[' :: rest => do
      let (path, rest) ← header? rest
      statements? fuel (← d.openSection path) path rest
    | cs => do
      let (key, value, rest) ← assignment? cs
      statements? fuel (← d.enter current key value) current rest

/-! ## Texts -/

/-- The text with plain line ends. A carriage return that no line feed follows is kept, and refused
wherever it stands. -/
def plainLineEnds : List Char → List Char
  | '\r' :: '\n' :: cs => '\n' :: plainLineEnds cs
  | c :: cs => c :: plainLineEnds cs
  | [] => []

/-- The text without the byte order mark that may stand in front of it. -/
def withoutMark : List Char → List Char
  | '\ufeff' :: cs => cs
  | cs => cs

/-- Read a whole configuration. -/
def read? (text : String) : Option Document :=
  let cs := plainLineEnds (withoutMark text.toList)
  (statements? (cs.length + 1) {} [] cs).map Document.spread

end Unwind.CommandLine.Toml
