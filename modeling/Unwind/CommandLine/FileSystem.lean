/-!
# File systems

The commands read and write files through the small interface `FileSystem`, so that they run on a
real file system and on `Files`, a directory held in memory, alike. What a command does beyond a
single step, making the directories that a file will lie in, is written here once for both.
-/

namespace Unwind.CommandLine

/-- Why a file could not be read or written. -/
inductive FileError where
  | notFound
  | alreadyExists
  | notADirectory
  | isADirectory
  | nameTooLong
  | other (text : String)
deriving DecidableEq

def FileError.message : FileError → String
  | notFound => "No such file or directory (os error 2)"
  | alreadyExists => "File exists (os error 17)"
  | notADirectory => "Not a directory (os error 20)"
  | isADirectory => "Is a directory (os error 21)"
  | nameTooLong => "File name too long (os error 36)"
  | other text => text

/-- The files a command can reach, by their paths. -/
structure FileSystem (m : Type → Type) where
  pathExists : String → m Bool
  isDirectory : String → m Bool
  read : String → m (Except FileError String)
  /-- Make a directory in one that is there. -/
  makeDirectory : String → m (Except FileError Unit)
  /-- Write a file in a directory that is there. -/
  write : String → String → m (Except FileError Unit)

namespace FileSystem

/-! ## Directories of a path -/

/-- A part of a path that leads nowhere else. -/
def staysPut (part : String) : Bool := part = "" || part = "."

/-- The parts of a path up to the last one that leads somewhere. -/
def trimmed (parts : List String) : List String := (parts.reverse.dropWhile staysPut).reverse

/-- The directories that a path names on its way, the innermost first. They are the shorter paths
that end in a name or in `..`. -/
def directoriesOf (path : String) : List String :=
  let parts := trimmed (path.splitOn "/")
  let shorter := (List.range parts.length).reverse.map parts.take
  (shorter.filter fun front => front.getLast?.any (!staysPut ·)).map ("/".intercalate ·)

/-! ## Writing -/

variable {m : Type → Type} [Monad m]

/-- The outcome of making a directory, where one that is there already will do. -/
def allowExisting (fs : FileSystem m) (path : String) :
    Except FileError Unit → m (Except FileError Unit)
  | .ok () => return .ok ()
  | .error e => return if ← fs.isDirectory path then .ok () else .error e

/-- Make the first of the directories. The others are those it lies in, and they are made when it
turns out that they are missing. -/
def makeDirectories (fs : FileSystem m) : List String → m (Except FileError Unit)
  | [] => return .ok ()
  | path :: outer => do
    match ← fs.makeDirectory path with
    | .error .notFound =>
      match ← fs.makeDirectories outer with
      | .error e => return .error e
      | .ok () => fs.allowExisting path (← fs.makeDirectory path)
    | result => fs.allowExisting path result

/-- Write a file and make the directories it lies in. -/
def save (fs : FileSystem m) (path text : String) : m (Except FileError Unit) := do
  match ← fs.makeDirectories (directoriesOf path) with
  | .error e => return .error e
  | .ok () => fs.write path text

end FileSystem

end Unwind.CommandLine
