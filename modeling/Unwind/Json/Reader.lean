import Unwind.Json.Number

/-!
# Reading JSON

Reading takes two passes, and each looks at its input once from left to right:

* the lexer moves through the characters and collects tokens;
* the parser moves through the tokens with a stack of the arrays and objects still open.

Both are a step function folded over a list, so no bound on the nesting is needed. A text is
refused when it is not exactly one well-formed value; a control character inside a string is such a
fault. Two readers differ in what they do with well-formed text that stands for no value, half of a
surrogate pair or a number too large for a double: `read?` refuses it, and `scan?` lets it through
as `Json.unreadable`, for a decoder to refuse if it ever looks there.
-/

namespace Unwind.Json

/-! ## Words -/

/-- A bare word: `null`, a truth value or a number. -/
def word? (cs : List Char) : Option Json :=
  if cs = ['n', 'u', 'l', 'l'] then some .null
  else if cs = ['t', 'r', 'u', 'e'] then some (.bool true)
  else if cs = ['f', 'a', 'l', 's', 'e'] then some (.bool false)
  else number? cs

/-! ## Strings -/

/-- The first half of a surrogate pair. -/
def isHigh (code : Nat) : Bool := 0xD800 ≤ code && code < 0xDC00

/-- The second half of a surrogate pair. -/
def isLow (code : Nat) : Bool := 0xDC00 ≤ code && code < 0xE000

/-- The code that a pair of surrogates stands for. -/
def pairCode (high low : Nat) : Nat := 0x10000 + (high - 0xD800) * 0x400 + (low - 0xDC00)

/-- The characters with the given codes, behind those of `read`, which are in reverse. Two halves of
a pair are one character; half of a pair alone is none. -/
def chars? (read : List Char) : List Nat → Option (List Char)
  | [] => some read.reverse
  | code :: codes =>
    if isHigh code then
      match codes with
      | low :: codes =>
        if isLow low then chars? (Char.ofNat (pairCode code low) :: read) codes else none
      | [] => none
    else if isLow code then none
    else chars? (Char.ofNat code :: read) codes

/-- The text with the given codes. -/
def textOf? (codes : List Nat) : Option String := (chars? [] codes).map String.ofList

/-! ## Tokens -/

/-- A token. -/
inductive Token where
  | openArray
  | closeArray
  | openObject
  | closeObject
  | comma
  | colon
  /-- A string; it has no text when half of a surrogate pair is in it. -/
  | str (text : Option String)
  | word (value : Json)

/-- The token stands for something. -/
def Token.isReadable : Token → Bool
  | str text => text.isSome
  | word .unreadable => false
  | _ => true

/-- Where the lexer stands. What was read so far is kept in reverse, a string as its codes. -/
inductive Lexing where
  /-- Between two tokens. -/
  | between
  /-- Inside a bare word. -/
  | word (read : List Char)
  /-- Inside a string. -/
  | text (read : List Nat)
  /-- Behind a backslash in a string. -/
  | escape (read : List Nat)
  /-- Behind `\u` and `count` digits of value `value`. -/
  | code (read : List Nat) (count value : Nat)

/-- The tokens so far, in reverse, and where the lexer stands. -/
structure Lexer where
  tokens : List Token := []
  place : Lexing := .between

namespace Lexer

/-- White space between tokens. -/
def isBlank (c : Char) : Bool := c = ' ' || c = '\n' || c = '\t' || c = '\r'

/-- The token a single character stands for. -/
def mark? (c : Char) : Option Token :=
  if c = '[' then some .openArray
  else if c = ']' then some .closeArray
  else if c = '\x7b' then some .openObject
  else if c = '\x7d' then some .closeObject
  else if c = ',' then some .comma
  else if c = ':' then some .colon
  else none

/-- A character between two tokens. -/
def start (tokens : List Token) (c : Char) : Lexer :=
  if isBlank c then ⟨tokens, .between⟩
  else if c = '"' then ⟨tokens, .text []⟩
  else
    match mark? c with
    | some token => ⟨token :: tokens, .between⟩
    | none => ⟨tokens, .word [c]⟩

/-- The value of a hexadecimal digit. -/
def hexValue? (c : Char) : Option Nat :=
  if '0' ≤ c && c ≤ '9' then some (c.toNat - 48)
  else if 'a' ≤ c && c ≤ 'f' then some (c.toNat - 87)
  else if 'A' ≤ c && c ≤ 'F' then some (c.toNat - 55)
  else none

/-- The character that a letter behind a backslash stands for. -/
def escaped? (c : Char) : Option Char :=
  if c = '"' || c = '\\' || c = '/' then some c
  else if c = 'b' then some '\x08'
  else if c = 'f' then some '\x0c'
  else if c = 'n' then some '\n'
  else if c = 'r' then some '\r'
  else if c = 't' then some '\t'
  else none

/-- The end of a bare word. -/
def endWord? (tokens : List Token) (read : List Char) : Option (List Token) :=
  (word? read.reverse).map fun value => .word value :: tokens

/-- Take one more character. -/
def step (l : Lexer) (c : Char) : Option Lexer :=
  match l.place with
  | .between => some (start l.tokens c)
  | .word read =>
    if isBlank c || c = '"' || (mark? c).isSome then
      (endWord? l.tokens read).map (start · c)
    else some ⟨l.tokens, .word (c :: read)⟩
  | .text read =>
    if c = '"' then some ⟨.str (textOf? read.reverse) :: l.tokens, .between⟩
    else if c = '\\' then some ⟨l.tokens, .escape read⟩
    else if c.toNat < 32 then none
    else some ⟨l.tokens, .text (c.toNat :: read)⟩
  | .escape read =>
    if c = 'u' then some ⟨l.tokens, .code read 0 0⟩
    else (escaped? c).map fun e => ⟨l.tokens, .text (e.toNat :: read)⟩
  | .code read count value => do
    let value := 16 * value + (← hexValue? c)
    if count < 3 then some ⟨l.tokens, .code read (count + 1) value⟩
    else some ⟨l.tokens, .text (value :: read)⟩

/-- The tokens, in order, when the text may end here. -/
def finish (l : Lexer) : Option (List Token) :=
  match l.place with
  | .between => some l.tokens.reverse
  | .word read => (endWord? l.tokens read).map List.reverse
  | _ => none

end Lexer

/-- The tokens of a text. -/
def tokens? (text : String) : Option (List Token) := do
  (← text.toList.foldlM Lexer.step {}).finish

/-! ## Values -/

/-- An array or object still open. What it holds so far is kept in reverse. -/
inductive Frame where
  | array (items : List Json)
  /-- `key` is the name of the member being read. There are no members to keep when one of the names
  has no text. -/
  | object (members : Option (List (String × Json))) (key : String)

/-- What the parser waits for. -/
inductive Expected where
  | value
  | firstItem
  | firstKey
  | key
  | colon
  | separator
  /-- Nothing: the text is one whole value. -/
  | ended (value : Json)

/-- The arrays and objects still open, innermost first, and what must come next. -/
structure Parser where
  stack : List Frame := []
  expected : Expected := .value

namespace Parser

/-- A value is complete. -/
def complete (stack : List Frame) (value : Json) : Parser :=
  match stack with
  | [] => ⟨[], .ended value⟩
  | .array items :: rest => ⟨.array (value :: items) :: rest, .separator⟩
  | .object members key :: rest =>
    ⟨.object (members.map ((key, value) :: ·)) key :: rest, .separator⟩

/-- A token that begins a value. -/
def begin? (stack : List Frame) : Token → Option Parser
  | .word value => some (complete stack value)
  | .str (some text) => some (complete stack (.str text))
  | .str none => some (complete stack .unreadable)
  | .openArray => some ⟨.array [] :: stack, .firstItem⟩
  | .openObject => some ⟨.object (some []) "" :: stack, .firstKey⟩
  | _ => none

/-- The name of a member. -/
def named? (stack : List Frame) (name : Option String) : Option Parser :=
  match stack, name with
  | .object members _ :: rest, some key => some ⟨.object members key :: rest, .colon⟩
  | .object .. :: rest, none => some ⟨.object none "" :: rest, .colon⟩
  | _, _ => none

/-- The object with the given members, which are in reverse. -/
def object (members : Option (List (String × Json))) : Json :=
  match members with
  | some members => .obj members.reverse
  | none => .unreadable

/-- The end of the innermost array or object. -/
def close? (stack : List Frame) (token : Token) : Option Parser :=
  match stack, token with
  | .array items :: rest, .closeArray => some (complete rest (.arr items.reverse))
  | .object members _ :: rest, .closeObject => some (complete rest (object members))
  | _, _ => none

/-- Take one more token. -/
def step (p : Parser) (token : Token) : Option Parser :=
  match p.expected, token with
  | .value, token => begin? p.stack token
  | .firstItem, .closeArray => close? p.stack .closeArray
  | .firstItem, token => begin? p.stack token
  | .firstKey, .closeObject => close? p.stack .closeObject
  | .firstKey, .str name => named? p.stack name
  | .key, .str name => named? p.stack name
  | .colon, .colon => some ⟨p.stack, .value⟩
  | .separator, .comma =>
    match p.stack with
    | .array _ :: _ => some ⟨p.stack, .value⟩
    | .object .. :: _ => some ⟨p.stack, .key⟩
    | [] => none
  | .separator, token => close? p.stack token
  | _, _ => none

/-- The value, when the text may end here. -/
def finish (p : Parser) : Option Json :=
  match p.expected with
  | .ended value => some value
  | _ => none

end Parser

/-- The value of a list of tokens. -/
def ofTokens? (tokens : List Token) : Option Json := do
  (← tokens.foldlM Parser.step {}).finish

/-- The value a text stands for, parts of it perhaps unreadable. Members of one name are all
kept. -/
def scan? (text : String) : Option Json := (tokens? text).bind ofTokens?

/-- The value a text stands for; every part of it is readable. -/
def read? (text : String) : Option Json := do
  let tokens ← tokens? text
  if tokens.all Token.isReadable then ofTokens? tokens else none

end Unwind.Json
