import Unwind.CommandLine.FileSystem

/-!
# Files in memory

`Files` is a directory held in memory, the working directory of a run. Paths are followed in it
name by name: every name but the last must be that of a directory, also before a `..`. Around the
working directory are the directories above it and the root, of which little is known: a few
directories, the empty file `/dev/null`, and `/dev/stdout`, which holds what is written there.
-/

namespace Unwind.CommandLine

/-! ## Places -/

/-- A directory that is there without being listed. -/
inductive Start where
  /-- The root of all directories. -/
  | root
  /-- The directory so many levels above the working directory; at level `0`, that itself. -/
  | above (levels : Nat)
deriving DecidableEq

/-- A place for a file or a directory: the names that lead to it. -/
structure Place where
  start : Start := .above 0
  names : List String := []
deriving DecidableEq

namespace Place

/-- The working directory lies at most so many levels below the root. -/
def depthOfWork : Nat := 8

/-- The directory a place lies in. The root lies in itself. -/
def up (p : Place) : Place :=
  match p.names, p.start with
  | _ :: _, _ => { p with names := p.names.dropLast }
  | [], .root => p
  | [], .above levels =>
    { start := if levels + 1 < depthOfWork then .above (levels + 1) else .root }

/-- The place `q` lies below `p`. -/
def isOver (p q : Place) : Bool :=
  p.start = q.start && p.names.isPrefixOf q.names && p.names != q.names

/-- The most bytes that a name may have. -/
def maxName : Nat := 255

/-- The place of an entry of a directory. -/
def entry (p : Place) (name : String) : Except FileError Place :=
  if maxName < name.utf8ByteSize then .error .nameTooLong
  else .ok { p with names := p.names ++ [name] }

/-- Where a name leads from a directory. -/
def follow (p : Place) (name : String) : Except FileError Place :=
  if name = "." then .ok p else if name = ".." then .ok p.up else p.entry name

end Place

/-! ## Paths -/

/-- A path: where it starts, its names, and whether it ends in a slash. -/
structure Path where
  start : Start
  names : List String
  slash : Bool

/-- The most bytes that a path may have. -/
def Path.maxLength : Nat := 4095

/-- Read a path. The empty one leads nowhere. -/
def Path.ofText (text : String) : Except FileError Path :=
  if maxLength < text.utf8ByteSize then .error .nameTooLong
  else if text.isEmpty then .error .notFound
  else
    .ok { start := if text.toList.head? = some '/' then .root else .above 0
          names := (text.splitOn "/").filter (· ≠ "")
          slash := text.toList.getLast? = some '/' }

/-! ## Files -/

/-- What stands at a place. -/
inductive Node where
  | directory
  | file (text : String)

/-- The files and directories of a file system. A directory is there if it was made, or if a file
lies below it. -/
structure Files where
  entries : List (Place × String) := []
  made : List Place := []

/-- What a path leads to. -/
inductive Target where
  /-- A directory: the path ends in `.` or `..`, or it is the root's. -/
  | directory
  /-- The entry of a directory; with a slash behind it, it has to be a directory. -/
  | entry (directory : Place) (name : String) (slash : Bool)

namespace Files

/-- The place `/dev/stdout`. -/
def stdout : Place := ⟨.root, ["dev", "stdout"]⟩

/-- What is known of the files and directories around the working directory. -/
def surroundings : Files where
  entries := [(⟨.root, ["dev", "null"]⟩, ""), (stdout, "")]
  made := ["etc", "proc", "tmp", "usr"].map fun name => ⟨.root, [name]⟩

/-- The given files in the working directory. -/
def ofList (files : List (String × String)) : Files :=
  let place (path : String) : Place :=
    { names := (path.splitOn "/").filter fun name => name ≠ "" && name ≠ "." }
  { surroundings with
    entries := surroundings.entries ++ files.map fun (path, text) => (place path, text) }

/-- What stands at a place. -/
def node? (f : Files) (p : Place) : Option Node :=
  if p.names.isEmpty || f.made.contains p || f.entries.any (p.isOver ·.1) then some .directory
  else (f.entries.lookup p).map .file

/-- Follow names that must all lead to directories. -/
def walk (f : Files) (p : Place) : List String → Except FileError Place
  | [] => .ok p
  | name :: names => do
    let next ← p.follow name
    match f.node? next with
    | some .directory => f.walk next names
    | some (.file _) => .error .notADirectory
    | none => .error .notFound

/-- Follow a path up to its last name. -/
def locate (f : Files) (path : String) : Except FileError Target := do
  let path ← Path.ofText path
  let directory ← f.walk { start := path.start } path.names.dropLast
  match path.names.getLast? with
  | none => return .directory
  | some name =>
    return if name = "." || name = ".." then .directory else .entry directory name path.slash

/-- What stands at the end of a path. -/
def find (f : Files) (path : String) : Except FileError Node := do
  match ← f.locate path with
  | .directory => return .directory
  | .entry directory name slash =>
    match f.node? (← directory.entry name) with
    | none => .error .notFound
    | some .directory => return .directory
    | some (.file text) => if slash then .error .notADirectory else return .file text

/-- The text of a file. -/
def read (f : Files) (path : String) : Except FileError String := do
  match ← f.find path with
  | .directory => .error .isADirectory
  | .file text => return text

/-- Replace the text of a file, or add the file. -/
def put (p : Place) (text : String) : List (Place × String) → List (Place × String)
  | [] => [(p, text)]
  | e :: es => if e.1 = p then (p, text) :: es else e :: put p text es

/-- Write a file. -/
def write (f : Files) (path text : String) : Except FileError Files := do
  match ← f.locate path with
  | .directory | .entry _ _ true => .error .isADirectory
  | .entry directory name false =>
    let place ← directory.entry name
    match f.node? place with
    | some .directory => .error .isADirectory
    | _ => return { f with entries := put place text f.entries }

/-- Make a directory. -/
def makeDirectory (f : Files) (path : String) : Except FileError Files := do
  match ← f.locate path with
  | .directory => .error .alreadyExists
  | .entry directory name _ =>
    let place ← directory.entry name
    match f.node? place with
    | some _ => .error .alreadyExists
    | none => return { f with made := place :: f.made }

/-- The files of the working directory that are not in `before` or have another text there. -/
def changes (before f : Files) : List (String × String) :=
  let changed := f.entries.filter fun e =>
    e.1.start = .above 0 && before.entries.lookup e.1 != some e.2
  changed.map fun (p, text) => ("/".intercalate p.names, text)

/-- Carry out a change; one that fails leaves everything as it is. -/
def attempt (change : Files → Except FileError Files) : StateM Files (Except FileError Unit) :=
  modifyGet fun f =>
    match change f with
    | .ok f => (.ok (), f)
    | .error e => (.error e, f)

/-- The files in memory as a file system. -/
def fileSystem : FileSystem (StateM Files) where
  pathExists path := do return ((← get).find path).isOk
  isDirectory path := do return ((← get).find path) matches .ok .directory
  read path := do return (← get).read path
  makeDirectory path := attempt (·.makeDirectory path)
  write path text := attempt (·.write path text)

end Files

end Unwind.CommandLine
