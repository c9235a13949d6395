import Unwind.Ir.Printer

/-!
# A reader for printed expressions

`Expr.read?` and `Attr.read?` read the text of an expression or of an attribute back. Two notations
are shared in the text: a type constant is written like an identifier, and the negation of a
positive literal like a negative literal. `Expr.plain` settles on one of each two, the one that is
read.

A reader takes what it reads from the front of the characters and leaves the rest.
-/

namespace Unwind.Ir

/-! ## Names -/

/-- A character of a word; every character outside of ASCII counts as a letter. -/
def isWordChar (c : Char) : Bool :=
  c.isAlphanum || ['_', '.', '$', '#'].contains c || 128 ≤ c.toNat

/-- A word that does not begin like a number. -/
def isWord (x : String) : Bool :=
  !x.toList.isEmpty && x.toList.all isWordChar && x.toList.head?.all (!·.isDigit)

/-- The words that are no names. -/
def keywords : List String := ["true", "false", "null", "if", "then", "else", "div", "mod"]

def isName (x : String) : Bool := isWord x && !keywords.contains x

mutual

/-- The names in the expression are names. -/
def Expr.wellNamed : Expr → Bool
  | lit _ => true
  | ident x | typeConst x => isName x
  | unary _ e => e.wellNamed
  | binary _ a b => a.wellNamed && b.wellNamed
  | app f args => isName f && Expr.allWellNamed args
  | select m i => isName m && i.wellNamed
  | ifThenElse c t e => c.wellNamed && t.wellNamed && e.wellNamed

def Expr.allWellNamed : List Expr → Bool
  | [] => true
  | e :: es => e.wellNamed && Expr.allWellNamed es

end

def AttrValue.wellNamed : AttrValue → Bool
  | expr e => e.wellNamed
  | str _ => true

def Attr.wellNamed (a : Attr) : Bool := isName a.key && a.values.all AttrValue.wellNamed

/-! ## Shared notations -/

/-- An operator applied, the negation of a positive literal being the negative literal. -/
def UnOp.applied : UnOp → Expr → Expr
  | neg, .lit (.int n) => if 0 < n then .int (-n) else .unary neg (.int n)
  | op, e => .unary op e

mutual

/-- The expression without type constants and negations of positive literals. -/
def Expr.plain : Expr → Expr
  | lit l => lit l
  | ident x | typeConst x => ident x
  | unary op e => op.applied e.plain
  | binary op a b => binary op a.plain b.plain
  | app f args => app f (Expr.plains args)
  | select m i => select m i.plain
  | ifThenElse c t e => ifThenElse c.plain t.plain e.plain

def Expr.plains : List Expr → List Expr
  | [] => []
  | e :: es => e.plain :: Expr.plains es

end

def AttrValue.plain : AttrValue → AttrValue
  | expr e => expr e.plain
  | str s => str s

def Attr.plain (a : Attr) : Attr := { a with values := a.values.map AttrValue.plain }

/-! ## Words and marks -/

/-- What is read from the front of the characters, and the characters behind it. -/
abbrev Reader := StateT (List Char) Option

namespace Reader

/-- The characters ahead. -/
def ahead : Reader (List Char) := get

/-- Reads exactly the given text. -/
def exactly (text : String) : Reader Unit := fun cs =>
  (text.toList.isPrefixOf? cs).map ((), ·)

/-- Reads as long as the characters satisfy `p`. -/
def span (p : Char → Bool) : Reader (List Char) := fun cs => some (cs.takeWhile p, cs.dropWhile p)

def word : Reader String := String.ofList <$> Reader.span isWordChar

def number : Reader Nat := (Nat.ofDigitChars 10 · 0) <$> Reader.span Char.isDigit

/-- Reads items up to the closing mark, the first one behind `lead`, the others behind a comma; the
number bounds how many. -/
def list {α : Type} (item : Reader α) (close : Char) (lead : String) : Nat → Reader (List α)
  | 0 => failure
  | n + 1 => do
    if (← ahead).head? = some close then return []
    else
      exactly lead
      let a ← item
      return a :: (← list item close ", " n)

end Reader

/-- The binary operators. -/
def BinOp.all : List BinOp := [add, sub, mul, div, mod, eq, neq, lt, le, gt, ge, and, or]

/-- The text of a binary operator between its operands. -/
def BinOp.infixText (op : BinOp) : String := " " ++ op.text ++ " "

/-- The binary operator that comes next, if one does. -/
def BinOp.next? (cs : List Char) : Option BinOp :=
  BinOp.all.find? fun op => op.infixText.toList.isPrefixOf cs

/-! ## Expressions -/

/-- What an expression begins with. -/
inductive Opening where
  | conditional
  | unary (op : UnOp)
  | operand

/-- A minus in front of a digit belongs to a literal. -/
def Opening.of (cs : List Char) : Opening :=
  if cs.takeWhile isWordChar = "if".toList then conditional
  else
    match cs with
    | '!' :: _ => unary .not
    | '-' :: cs => if cs.head?.any Char.isDigit then operand else unary .neg
    | _ => operand

/-- The expression that a word stands for on its own. -/
def Expr.ofWord (x : String) : Expr :=
  if x = "true" then bool true
  else if x = "false" then bool false
  else if x = "null" then null
  else ident x

/-- The expression that a minus and a number stand for. -/
def Expr.ofMinus (n : Nat) : Expr :=
  if n = 0 then UnOp.neg.applied (int 0) else int (Int64.ofInt (-n))

/-- What the operand `lhs` is the beginning of, told by what is behind it. -/
def readInfix (lhs : Expr) (operand : Reader Expr) : Reader Expr := do
  match BinOp.next? (← Reader.ahead) with
  | none => return lhs
  | some op =>
    Reader.exactly op.infixText
    return .binary op lhs (← operand)

/-- What the word `x` is the beginning of, told by the character behind it. -/
def readBehind (x : String) (args : Reader (List Expr)) (index : Reader Expr) : Reader Expr := do
  match (← Reader.ahead).head? with
  | some '(' =>
    Reader.exactly "("
    let args ← args
    Reader.exactly ")"
    return .app x args
  | some '[' =>
    Reader.exactly "["
    let i ← index
    Reader.exactly "]"
    return .select x i
  | _ => return .ofWord x

mutual

/-- Reads an expression; the number bounds the depth. -/
def readExpr : Nat → Reader Expr
  | 0 => failure
  | n + 1 => do
    match Opening.of (← Reader.ahead) with
    | .conditional =>
      Reader.exactly "if "
      let cond ← readExpr n
      Reader.exactly " then "
      let thenExpr ← readExpr n
      Reader.exactly " else "
      let elseExpr ← readExpr n
      return .ifThenElse cond thenExpr elseExpr
    | .unary op =>
      Reader.exactly op.text
      return op.applied (← readOperand n)
    | .operand => readInfix (← readOperand n) (readOperand n)

/-- Reads an operand: an expression in parentheses, a literal, or what begins with a name. -/
def readOperand : Nat → Reader Expr
  | 0 => failure
  | n + 1 => do
    match (← Reader.ahead).head? with
    | some '(' =>
      Reader.exactly "("
      let e ← readExpr n
      Reader.exactly ")"
      return e
    | some '-' =>
      Reader.exactly "-"
      return .ofMinus (← Reader.number)
    | c =>
      if c.any Char.isDigit then
        return .int (Int64.ofInt (← Reader.number))
      else
        readBehind (← Reader.word) (Reader.list (readExpr n) ')' "" n) (readExpr n)

end

/-- The expression that a text stands for. -/
def Expr.read? (text : String) : Option Expr :=
  (readExpr (2 * text.length + 2)).run' text.toList

/-! ## Attributes -/

/-- The character that is escaped as `c`. -/
def unescapeChar (c : Char) : Char :=
  if c = 'n' then '\n' else if c = 't' then '\t' else c

/-- Reads a string up to its closing quote. -/
def readQuoted : List Char → Option (List Char × List Char)
  | [] => none
  | '"' :: cs => some ([], cs)
  | '\\' :: c :: cs => (readQuoted cs).map fun (s, rest) => (unescapeChar c :: s, rest)
  | c :: cs => (readQuoted cs).map fun (s, rest) => (c :: s, rest)

def readValue (n : Nat) : Reader AttrValue := do
  if (← Reader.ahead).head? = some '"' then
    Reader.exactly "\""
    return .str (String.ofList (← readQuoted))
  else
    return .expr (← readExpr n)

def readAttr (n : Nat) : Reader Attr := do
  Reader.exactly "\x7b:"
  let key ← Reader.word
  let values ← Reader.list (readValue n) '\x7d' " " n
  Reader.exactly "\x7d"
  return ⟨key, values⟩

/-- The attribute that a text stands for. -/
def Attr.read? (text : String) : Option Attr :=
  (readAttr (2 * text.length)).run' text.toList

end Unwind.Ir
