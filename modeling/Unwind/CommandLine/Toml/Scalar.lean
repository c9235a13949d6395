import Unwind.CommandLine.Toml.Document
import Unwind.Json.Number

/-!
# Keys and plain values in configuration text

Everything here reads the front of a list of characters and returns what follows it. Strings stand
in double quotes, with escapes, or in single quotes, without; three quotes begin a string that may
have several lines. Numbers, truth values, dates and times are words: they are cut off first and
looked at as a whole.
-/

namespace Unwind.CommandLine.Toml

/-! ## Blanks -/

/-- White space inside a line. -/
def isSpace (c : Char) : Bool := c = ' ' || c = '\t'

def skipSpace (cs : List Char) : List Char := cs.dropWhile isSpace

/-- A character that may stand in a string or a comment. -/
def isPlain (c : Char) : Bool := (32 ≤ c.toNat && c.toNat ≠ 127) || c = '\t'

/-- The rest of the text behind a comment, if there is one. -/
def skipComment : List Char → List Char
  | '#' :: cs => cs.dropWhile isPlain
  | cs => cs

/-- The text behind the end of a line, which blanks and a comment may precede. -/
def lineEnd? (cs : List Char) : Option (List Char) :=
  match skipComment (skipSpace cs) with
  | [] => some []
  | '\n' :: rest => some rest
  | _ => none

/-- The text behind blanks, line ends and comments. -/
def skipLines (inComment : Bool) : List Char → List Char
  | [] => []
  | c :: cs =>
    if c = '\n' then skipLines false cs
    else if inComment then if isPlain c then skipLines true cs else c :: cs
    else if isSpace c then skipLines false cs
    else if c = '#' then skipLines true cs
    else c :: cs

/-! ## Strings -/

/-- The value of a hexadecimal digit. -/
def hexValue? (c : Char) : Option Nat :=
  if c.isDigit then some (c.toNat - 48)
  else if 'a' ≤ c && c ≤ 'f' then some (c.toNat - 87)
  else if 'A' ≤ c && c ≤ 'F' then some (c.toNat - 55)
  else none

/-- The character with the given hexadecimal code. -/
def codeChar? (ds : List Char) : Option Char := do
  let n ← ds.foldlM (fun n c => do return 16 * n + (← hexValue? c)) 0
  if n < 0xD800 || (0xDFFF < n && n < 0x110000) then some (Char.ofNat n) else none

/-- What stands behind a backslash. -/
def escape? : List Char → Option (Char × List Char)
  | 'b' :: rest => some ('\x08', rest)
  | 't' :: rest => some ('\t', rest)
  | 'n' :: rest => some ('\n', rest)
  | 'f' :: rest => some ('\x0c', rest)
  | 'r' :: rest => some ('\r', rest)
  | '"' :: rest => some ('"', rest)
  | '\\' :: rest => some ('\\', rest)
  | 'u' :: a :: b :: c :: d :: rest => (codeChar? [a, b, c, d]).map (·, rest)
  | 'U' :: a :: b :: c :: d :: e :: f :: g :: h :: rest =>
    (codeChar? [a, b, c, d, e, f, g, h]).map (·, rest)
  | _ => none

/-- The text behind a backslash at the end of a line: the blanks and empty lines after it are no
part of the string. -/
def continuation? (cs : List Char) : Option (List Char) :=
  match skipSpace cs with
  | '\n' :: rest => some (rest.dropWhile fun c => isSpace c || c = '\n')
  | _ => none

/-- The end of a string of several lines, where `cs` begins with quotes: up to two of them belong
to the string when three more follow. Fewer than three do not end it. -/
def closing? (quote : Char) (cs : List Char) : Option (Nat × List Char) :=
  let quotes := min (cs.takeWhile (· = quote)).length 5
  if quotes < 3 then none else some (quotes - 3, cs.drop quotes)

/-- The rest of a string, which holds `read` already, in reverse. Escapes count between double
quotes only. Each step takes a character, so `fuel` need not exceed their number. -/
def stringRest? (quote : Char) (lines : Bool) : Nat → List Char → List Char →
    Option (String × List Char)
  | 0, _, _ => none
  | _, _, [] => none
  | fuel + 1, read, c :: cs =>
    if c = quote then
      if lines then
        match closing? quote (c :: cs) with
        | some (kept, rest) =>
          some (String.ofList (List.replicate kept quote ++ read).reverse, rest)
        | none => stringRest? quote lines fuel (c :: read) cs
      else some (String.ofList read.reverse, cs)
    else if c = '\\' && quote = '"' then
      match if lines then continuation? cs else none with
      | some rest => stringRest? quote lines fuel read rest
      | none =>
        match escape? cs with
        | some (e, rest) => stringRest? quote lines fuel (e :: read) rest
        | none => none
    else if isPlain c || (lines && c = '\n') then stringRest? quote lines fuel (c :: read) cs
    else none

/-- The rest of a string that ends on its line. -/
def lineString? (quote : Char) (cs : List Char) : Option (String × List Char) :=
  stringRest? quote false (cs.length + 1) [] cs

/-- The rest of a string of several lines. A line end right at its beginning is no part of it. -/
def linesString? (quote : Char) (cs : List Char) : Option (String × List Char) :=
  let cs :=
    match cs with
    | '\n' :: rest => rest
    | _ => cs
  stringRest? quote true (cs.length + 1) [] cs

/-- A string. -/
def string? : List Char → Option (String × List Char)
  | '"' :: '"' :: '"' :: rest => linesString? '"' rest
  | '\'' :: '\'' :: '\'' :: rest => linesString? '\'' rest
  | '"' :: rest => lineString? '"' rest
  | '\'' :: rest => lineString? '\'' rest
  | _ => none

/-! ## Keys -/

def isBare (c : Char) : Bool := c.isAlphanum || c = '_' || c = '-'

/-- One part of a key. -/
def keyPart? (cs : List Char) : Option (String × List Char) :=
  match cs with
  | '"' :: rest => lineString? '"' rest
  | '\'' :: rest => lineString? '\'' rest
  | _ =>
    let word := cs.takeWhile isBare
    if word.isEmpty then none else some (String.ofList word, cs.dropWhile isBare)

/-- A key of at most as many parts as the given number, and what follows it. -/
def keyWithin? : Nat → List Char → Option (List String × List Char)
  | 0, _ => none
  | parts + 1, cs => do
    let (part, rest) ← keyPart? (skipSpace cs)
    match skipSpace rest with
    | '.' :: rest =>
      let (more, rest) ← keyWithin? parts rest
      some (part :: more, rest)
    | rest => some ([part], rest)

/-- Keys have at most so many parts, and values nest at most so deep. -/
def maxDepth : Nat := 79

/-- A key, and what follows it. -/
def key? (cs : List Char) : Option (List String × List Char) := keyWithin? maxDepth cs

/-! ## Numbers -/

/-- Digits of a base, single underscores between them. -/
def digitsOf? (base : Nat) (ds : List Char) : Option Nat :=
  let groups := (String.ofList ds).splitOn "_"
  let isDigit (c : Char) : Bool :=
    match hexValue? c with
    | some n => n < base
    | none => false
  if groups.all fun g => !g.isEmpty && g.toList.all isDigit then
    (ds.filter (· ≠ '_')).foldlM (fun n c => do return base * n + (← hexValue? c)) 0
  else none

/-- A decimal integer without its sign; it has no needless zero in front. -/
def decimal? (ds : List Char) : Option Nat :=
  match ds with
  | '0' :: _ :: _ => none
  | _ => digitsOf? 10 ds

/-- An integer of 64 bits. -/
def integer? (word : List Char) : Option Int := do
  let n : Int ← match word with
    | '0' :: 'x' :: ds => (digitsOf? 16 ds).map Int.ofNat
    | '0' :: 'o' :: ds => (digitsOf? 8 ds).map Int.ofNat
    | '0' :: 'b' :: ds => (digitsOf? 2 ds).map Int.ofNat
    | '-' :: ds => (decimal? ds).map fun n => -(n : Int)
    | '+' :: ds => (decimal? ds).map Int.ofNat
    | ds => (decimal? ds).map Int.ofNat
  if Int64.minValue.toInt ≤ n && n ≤ Int64.maxValue.toInt then some n else none

/-- A sign and what follows it. -/
def splitSign : List Char → Option Char × List Char
  | '-' :: cs => (some '-', cs)
  | '+' :: cs => (some '+', cs)
  | cs => (none, cs)

/-- `mantissa * 10 ^ exponent` is too large for a double. -/
def exceedsDouble (mantissa : Nat) (exponent : Int) : Bool :=
  let size : Int := (Nat.toDigits 10 mantissa).length + exponent
  if mantissa = 0 || size < 300 then false
  else if 320 < size then true
  else if 0 ≤ exponent then Json.doubleLimit ≤ mantissa * Nat.pow 10 exponent.toNat
  else Json.doubleLimit * Nat.pow 10 (-exponent).toNat ≤ mantissa

/-- A number with a fraction, an exponent or both. It must not be too large; of negative numbers
that is not asked. -/
def isDecimalFraction (word : List Char) : Bool :=
  let (sign, cs) := splitSign word
  let mantissa := cs.takeWhile fun c => c ≠ 'e' && c ≠ 'E'
  let (expSign, expDigits) := splitSign ((cs.drop mantissa.length).drop 1)
  let whole := mantissa.takeWhile (· ≠ '.')
  let frac := mantissa.drop (whole.length + 1)
  let hasExp := mantissa.length < cs.length
  let hasFrac := whole.length < mantissa.length
  let places := (frac.filter (· ≠ '_')).length
  let exp? : Option Int :=
    if !hasExp then some 0
    else (digitsOf? 10 expDigits).map fun n => if expSign = some '-' then -(n : Int) else n
  match decimal? whole, exp? with
  | some _, some exp =>
    (hasFrac || hasExp) && (!hasFrac || (digitsOf? 10 frac).isSome) &&
      (sign = some '-' ||
        !exceedsDouble (Json.digitsValue ((whole ++ frac).filter (· ≠ '_'))) (exp - places))
  | _, _ => false

/-- A number that is not written as an integer. -/
def isReal (word : List Char) : Bool :=
  let named := String.ofList (splitSign word).2
  named == "inf" || named == "nan" || isDecimalFraction word

/-! ## Dates and times -/

/-- The value of two digits, when it lies between `lo` and `hi`. -/
def twoDigits? (lo hi : Nat) (a b : Char) : Option Nat :=
  if a.isDigit && b.isDigit then
    let n := Json.digitsValue [a, b]
    if lo ≤ n && n ≤ hi then some n else none
  else none

/-- The number of days of a month. -/
def daysIn (year month : Nat) : Nat :=
  if month = 2 then
    if year % 4 = 0 && (year % 100 ≠ 0 || year % 400 = 0) then 29 else 28
  else if [4, 6, 9, 11].contains month then 30
  else 31

/-- The text behind a date. -/
def date? : List Char → Option (List Char)
  | a :: b :: c :: d :: '-' :: m :: n :: '-' :: x :: y :: rest => do
    guard ([a, b, c, d].all Char.isDigit)
    let month ← twoDigits? 1 12 m n
    let _ ← twoDigits? 1 (daysIn (Json.digitsValue [a, b, c, d]) month) x y
    some rest
  | _ => none

/-- The text behind a time of day, which may have a fraction of a second. -/
def time? : List Char → Option (List Char)
  | a :: b :: ':' :: c :: d :: ':' :: e :: f :: rest => do
    let _ ← twoDigits? 0 23 a b
    let _ ← twoDigits? 0 59 c d
    let _ ← twoDigits? 0 60 e f
    match rest with
    | '.' :: g :: rest => if g.isDigit then some (rest.dropWhile Char.isDigit) else none
    | _ => some rest
  | _ => none

/-- Nothing, or the distance of a time zone. -/
def isOffset : List Char → Bool
  | [] => true
  | [z] => z = 'Z' || z = 'z'
  | [s, a, b, ':', c, d] =>
    (s = '+' || s = '-') && (twoDigits? 0 23 a b).isSome && (twoDigits? 0 59 c d).isSome
  | _ => false

/-- A time of day, perhaps with a time zone. -/
def isZonedTime (word : List Char) : Bool := (time? word).any isOffset

/-- A date, a time of day, or both with a `T` between them. -/
def isDate (word : List Char) : Bool :=
  match date? word with
  | some [] => true
  | some (c :: rest) => (c = 'T' || c = 't') && isZonedTime rest
  | none => time? word == some []

/-! ## Words -/

/-- A character of a number, a truth value, a date or a time. -/
def isWordChar (c : Char) : Bool := isBare c || c = '+' || c = '.' || c = ':'

/-- The value that a word stands for. -/
def wordValue? (word : List Char) : Option Value :=
  match String.ofList word with
  | "true" => some (.bool true)
  | "false" => some (.bool false)
  | _ =>
    match integer? word with
    | some n => some (.int n)
    | none =>
      if isReal word then some .real
      else if isDate word then some .date
      else none

/-- A word and the value it stands for. A date may be followed by a blank and a time of day. -/
def word? (cs : List Char) : Option (Value × List Char) := do
  let word := cs.takeWhile isWordChar
  let rest := cs.dropWhile isWordChar
  let value ← wordValue? word
  match date? word, rest with
  | some [], ' ' :: c :: more =>
    let time := (c :: more).takeWhile isWordChar
    if !c.isDigit then some (value, rest)
    else if isZonedTime time then some (value, (c :: more).dropWhile isWordChar)
    else none
  | _, _ => some (value, rest)

end Unwind.CommandLine.Toml
