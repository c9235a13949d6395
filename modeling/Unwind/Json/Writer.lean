import Unwind.Json.Value

/-!
# Writing JSON

Two layouts of one format: `compress` puts everything on one line, `pretty` puts every item and
member on a line of its own, two spaces deeper than what holds it. Characters outside ASCII are
written as they are; control characters are escaped. What stands for no value is written as `null`.
-/

namespace Unwind.Json

/-- The digit for a value below sixteen. -/
def hexDigit (n : Nat) : Char :=
  if n < 10 then Char.ofNat (48 + n) else Char.ofNat (87 + n)

/-- One character inside a string. -/
def writeChar (c : Char) : String :=
  if c = '"' then "\\\""
  else if c = '\\' then "\\\\"
  else if c = '\n' then "\\n"
  else if c = '\r' then "\\r"
  else if c = '\t' then "\\t"
  else if c = '\x08' then "\\b"
  else if c = '\x0c' then "\\f"
  else if c.toNat < 32 then
    "\\u00" ++ String.ofList [hexDigit (c.toNat / 16), hexDigit (c.toNat % 16)]
  else c.toString

/-- A string with its quotes. -/
def writeString (s : String) : String :=
  "\"" ++ String.join (s.toList.map writeChar) ++ "\""

/-! ## On one line -/

mutual

/-- The value on one line, without spaces. -/
def compress : Json → String
  | null => "null"
  | bool true => "true"
  | bool false => "false"
  | int n => toString n
  | real text => text
  | str s => writeString s
  | unreadable => "null"
  | arr items => "[" ++ ",".intercalate (compressAll items) ++ "]"
  | obj members => "\x7b" ++ ",".intercalate (compressMembers members) ++ "\x7d"

def compressAll : List Json → List String
  | [] => []
  | j :: js => j.compress :: compressAll js

def compressMembers : List (String × Json) → List String
  | [] => []
  | (k, j) :: ms => (writeString k ++ ":" ++ j.compress) :: compressMembers ms

end

/-! ## Indented -/

/-- A bracketed list, one entry a line; an empty one stays on its line. -/
def layOut (opening closing : String) (depth : Nat) (entries : List String) : String :=
  let margin (n : Nat) : String := String.ofList (List.replicate (2 * n) ' ')
  if entries.isEmpty then opening ++ closing
  else
    opening ++ "\n" ++
      ",\n".intercalate (entries.map fun entry => margin (depth + 1) ++ entry) ++
      "\n" ++ margin depth ++ closing

mutual

/-- The value as it stands inside `depth` arrays and objects. -/
def prettyAt (depth : Nat) : Json → String
  | arr items => layOut "[" "]" depth (prettyAll (depth + 1) items)
  | obj members => layOut "\x7b" "\x7d" depth (prettyMembers (depth + 1) members)
  | null => "null"
  | bool true => "true"
  | bool false => "false"
  | int n => toString n
  | real text => text
  | str s => writeString s
  | unreadable => "null"

def prettyAll (depth : Nat) : List Json → List String
  | [] => []
  | j :: js => j.prettyAt depth :: prettyAll depth js

def prettyMembers (depth : Nat) : List (String × Json) → List String
  | [] => []
  | (k, j) :: ms => (writeString k ++ ": " ++ j.prettyAt depth) :: prettyMembers depth ms

end

/-- The value on indented lines, without a final line end. -/
def pretty (j : Json) : String := j.prettyAt 0

end Unwind.Json
