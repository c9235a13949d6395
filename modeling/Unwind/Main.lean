import Unwind.CommandLine.Run

/-!
# The program `bvt`

The command line on the real file system: the compiled program goes to the standard output, the
log to the standard error. All decisions are made by `CommandLine.run`.
-/

namespace Unwind.CommandLine

/-- The reason of a failed file operation. The system gives its code as it is or negated. -/
def FileError.ofError : IO.Error → FileError
  | .noFileOrDirectory .. => .notFound
  | .alreadyExists .. => .alreadyExists
  | .inappropriateType _ code _ =>
    if code = 20 || 0 - code = 20 then .notADirectory else .isADirectory
  | .invalidArgument _ code text => if code = 36 || 0 - code = 36 then .nameTooLong else .other text
  | e => .other (toString e)

/-- The result of a file operation, failed or not. -/
def caught (act : IO α) : IO (Except FileError α) := do
  try
    return .ok (← act)
  catch e => return .error (.ofError e)

/-- The text of a file. -/
def readText (path : String) : IO (Except FileError String) := do
  match ← caught (IO.FS.readBinFile path) with
  | .error e => return .error e
  | .ok bytes =>
    match String.fromUTF8? bytes with
    | some text => return .ok text
    | none => return .error (.other "stream did not contain valid UTF-8")

/-- Whether a path names a directory. -/
def namesRealDirectory (path : String) : IO Bool := do
  match ← caught (IO.FS.Handle.mk (path ++ "/.") .read) with
  | .ok _ => return true
  | .error _ => return false

/-- The real file system. -/
def realFiles : FileSystem IO where
  pathExists path := do
    match ← caught (IO.FS.Handle.mk path .read) with
    | .error .notFound => return false
    | _ => return true
  isDirectory := namesRealDirectory
  read := readText
  makeDirectory path := caught (IO.FS.createDir path)
  write path text := caught (IO.FS.writeFile path text)

/-- The variables of the environment that are looked at. -/
def readEnv : IO (List (String × String)) := do
  let names := ["BV_MODEL_EXCEPTIONS", "BV_INSTRUMENT_BRANCHES", "BV_GET_ME_HERE"]
  names.filterMapM fun name => return (← IO.getEnv name).map fun value => (name, value)

end Unwind.CommandLine

open Unwind.CommandLine in
/-- Run the command line. -/
def main (args : List String) : IO UInt32 := do
  let out ← run realFiles args (← readEnv)
  out.log.forM fun event => IO.eprintln (event.level.text ++ " " ++ event.message)
  IO.print out.stdout
  return UInt32.ofNat out.exit
