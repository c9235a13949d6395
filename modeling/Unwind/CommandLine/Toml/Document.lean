/-!
# Configuration documents

A configuration holds values in sections. Sections are opened by headers, by dotted keys, or as
values in braces. A `Document` keeps the paths of its sections and its values under their full
paths, and its operations see to it that nothing is defined twice. While a document is read, a
section in braces is one value and cannot be added to; `spread` makes it a section like any other.
-/

namespace Unwind.CommandLine.Toml

/-- A value. -/
inductive Value where
  | int (value : Int)
  | bool (value : Bool)
  | str (text : String)
  /-- A number that is not written as an integer. -/
  | real
  /-- A date, a time or both. -/
  | date
  | array (items : List Value)
  /-- A section in braces: its values under their paths. -/
  | table (entries : List (List String × Value))

/-- The sections of a configuration and its values under their full paths. -/
structure Document where
  sections : List (List String) := []
  /-- Sections that dotted keys have opened; no header can open them again. -/
  dotted : List (List String) := []
  /-- Lists of sections, a path for each section. What lies below belongs to the last one. -/
  lists : List (List String) := []
  values : List (List String × Value) := []

namespace Document

/-! ## Building -/

/-- The proper beginnings of `path` that go beyond the first `n` parts. -/
def inner (n : Nat) (path : List String) : List (List String) :=
  (List.range (path.length - 1 - n)).map fun i => path.take (n + 1 + i)

/-- A section is at the path: a header has opened it or one below it, or a dotted key has. -/
def hasSection (d : Document) (path : List String) : Bool :=
  d.sections.any (path.isPrefixOf ·) || d.lists.any (path.isPrefixOf ·) || d.dotted.contains path

/-- A value is at the path or on the way to it. -/
def hasValueBefore (d : Document) (path : List String) : Bool :=
  d.values.any (·.1.isPrefixOf path)

/-- Open a section. -/
def openSection (d : Document) (path : List String) : Option Document :=
  let taken := d.sections.contains path || d.lists.contains path || d.dotted.contains path ||
    d.hasValueBefore path
  if taken then none else some { d with sections := d.sections ++ [path] }

/-- The document without what lies below a path. -/
def eraseBelow (d : Document) (path : List String) : Document :=
  let stays (p : List String) : Bool := !path.isPrefixOf p || p == path
  { sections := d.sections.filter stays
    dotted := d.dotted.filter stays
    lists := d.lists.filter stays
    values := d.values.filter fun v => stays v.1 }

/-- Add a section to a list of sections, or open the list with it. -/
def addToList (d : Document) (path : List String) : Option Document :=
  let d := if d.lists.contains path then d.eraseBelow path else d
  if !d.lists.contains path && (d.hasSection path || d.hasValueBefore path) then none
  else some { d with lists := d.lists ++ [path] }

/-- Enter a value under a key of the section `current`. A dotted key leads through sections that no
header has opened; the one that holds the value is new or was opened by a dotted key as well. -/
def enter (d : Document) (current key : List String) (value : Value) : Option Document :=
  let path := current ++ key
  let through := inner current.length path
  let taken := d.hasSection path || d.hasValueBefore path ||
    through.any d.sections.contains ||
    through.getLast?.any fun holder => d.hasSection holder && !d.dotted.contains holder
  if taken then none
  else some { d with
    values := d.values ++ [(path, value)]
    dotted := d.dotted ++ through.filter (!d.hasSection ·) }

/-! ## Sections in braces -/

/-- Two documents as one. -/
def append (d e : Document) : Document :=
  { sections := d.sections ++ e.sections
    dotted := d.dotted ++ e.dotted
    lists := d.lists ++ e.lists
    values := d.values ++ e.values }

instance : Append Document := ⟨append⟩

mutual

/-- The value at a path as a document; a section in braces becomes a section. -/
def ofValue (path : List String) : Value → Document
  | .table entries =>
    let d := ofEntries path entries
    { d with sections := path :: d.sections }
  | v => { values := [(path, v)] }

def ofEntries (path : List String) : List (List String × Value) → Document
  | [] => {}
  | (p, v) :: entries => ofValue (path ++ p) v ++ ofEntries path entries

end

/-- The document with its sections in braces as sections like any other. -/
def spread (d : Document) : Document := { d with values := [] } ++ ofEntries [] d.values

/-! ## Parts -/

/-- The part of a document at a path, as a document of its own. -/
def within (d : Document) (path : List String) : Document :=
  let below (p : List String) : Option (List String) :=
    if path.isPrefixOf p then some (p.drop path.length) else none
  { sections := d.sections.filterMap below
    dotted := d.dotted.filterMap below
    lists := d.lists.filterMap below
    values := d.values.filterMap fun (p, v) => (below p).map (·, v) }

/-- What a document is as a whole. -/
inductive Content where
  | nothing
  | value (value : Value)
  | section
  | list (length : Nat)

def content (d : Document) : Content :=
  match d.values.lookup [] with
  | some v => .value v
  | none =>
    if d.lists.contains [] then .list (d.lists.count [])
    else if d.sections.isEmpty && d.lists.isEmpty && d.values.isEmpty then .nothing
    else .section

/-- The last section of a list of sections. -/
def lastOfList (d : Document) : Document :=
  { d with lists := d.lists.filter (· ≠ []), sections := [] :: d.sections }

/-- The name of the only entry of a section, when that entry is an empty section or an empty
array. -/
def onlyEmptyEntry? (d : Document) : Option String :=
  let isEmpty (v : Value) : Bool := v matches .array []
  if d.lists.isEmpty && d.values.all fun e => isEmpty e.2 then
    match (d.sections ++ d.values.map (·.1)).filter (· ≠ []) with
    | [[name]] => some name
    | _ => none
  else none

end Document

end Unwind.CommandLine.Toml
