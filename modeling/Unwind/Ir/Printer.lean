import Unwind.Ir.Basic

/-!
# Text of the verification language

Operands that are operators or conditionals themselves stand in parentheses, so that the tree of
an expression can be read off its text. A command takes a line of its own, indented by its depth;
labels stand at the left margin, and a chain of `else if` is written flat.
-/

namespace Unwind.Ir

/-- How a program is laid out. -/
structure Style where
  /-- Spaces per level of nesting. -/
  indentSize : Nat := 2
  /-- Whether the notes on commands are written. -/
  showAttributes : Bool := true

/-! ## Expressions -/

def Ty.text : Ty → String
  | int => "int"
  | bool => "bool"
  | ref => "Ref"
  | type => "Type"

def BinOp.text : BinOp → String
  | add => "+"
  | sub => "-"
  | mul => "*"
  | div => "div"
  | mod => "mod"
  | eq => "=="
  | neq => "!="
  | lt => "<"
  | le => "<="
  | gt => ">"
  | ge => ">="
  | and => "&&"
  | or => "||"

def UnOp.text : UnOp → String
  | not => "!"
  | neg => "-"

def Lit.text : Lit → String
  | int value => toString value.toInt
  | bool true => "true"
  | bool false => "false"
  | null => "null"

/-- An expression that needs no parentheses as an operand. -/
def Expr.isAtomic : Expr → Bool
  | unary .. | binary .. | ifThenElse .. => false
  | _ => true

/-- Parentheses around a text unless it is atomic. -/
def parenUnless (atomic : Bool) (text : String) : String :=
  if atomic then text else "(" ++ text ++ ")"

mutual

def Expr.text : Expr → String
  | lit l => l.text
  | ident name => name
  | typeConst name => name
  | unary op operand => op.text ++ parenUnless operand.isAtomic operand.text
  | binary op lhs rhs =>
    parenUnless lhs.isAtomic lhs.text ++ " " ++ op.text ++ " " ++
      parenUnless rhs.isAtomic rhs.text
  | app function args => function ++ "(" ++ ", ".intercalate (Expr.texts args) ++ ")"
  | select map index => map ++ "[" ++ index.text ++ "]"
  | ifThenElse cond thenExpr elseExpr =>
    "if " ++ cond.text ++ " then " ++ thenExpr.text ++ " else " ++ elseExpr.text

def Expr.texts : List Expr → List String
  | [] => []
  | e :: es => e.text :: Expr.texts es

end

/-! ## Attributes -/

/-- The text of one character inside quotes. -/
def escapeChar (c : Char) : String :=
  if c = '"' then "\\\""
  else if c = '\\' then "\\\\"
  else if c = '\n' then "\\n"
  else if c = '\t' then "\\t"
  else c.toString

/-- The text of a string inside quotes. -/
def escape (s : String) : String := String.join (s.toList.map escapeChar)

def AttrValue.text : AttrValue → String
  | expr e => e.text
  | str s => "\"" ++ escape s ++ "\""

def Attr.text (a : Attr) : String :=
  let values := if a.values.isEmpty then "" else " " ++ ", ".intercalate (a.values.map (·.text))
  "\x7b:" ++ a.key ++ values ++ "\x7d"

/-- The notes in front of what they belong to, each followed by a space. -/
def Style.attrs (style : Style) (attrs : List Attr) : String :=
  if style.showAttributes then String.join (attrs.map (·.text ++ " ")) else ""

/-! ## Commands -/

def VarDecl.text (v : VarDecl) : String := v.name ++ ": " ++ v.ty.text

/-- The variables of a parameter list. -/
def VarDecl.listText (vs : List VarDecl) : String := ", ".intercalate (vs.map (·.text))

def Lhs.text : Lhs → String
  | var name => name
  | map m index => m ++ "[" ++ index.text ++ "]"

/-- The results of a call, in front of the procedure. -/
def outsText (outs : List String) : String :=
  if outs.isEmpty then "" else ", ".intercalate outs ++ " := "

/-- `width` spaces. -/
def spaces (width : Nat) : String := String.ofList (List.replicate width ' ')

/-- Labels stand at the left margin. -/
def Cmd.margin (indent : Nat) : Cmd → String
  | label _ => ""
  | _ => spaces indent

def Cmd.isIf : Cmd → Bool
  | ifElse .. => true
  | _ => false

mutual

/-- A command without the margin of its first line. -/
def Cmd.text (style : Style) (indent : Nat) : Cmd → String
  | assert cond attrs => "assert " ++ style.attrs attrs ++ cond.text ++ ";\n"
  | assume cond attrs => "assume " ++ style.attrs attrs ++ cond.text ++ ";\n"
  | assign lhs rhs => lhs.text ++ " := " ++ rhs.text ++ ";\n"
  | call attrs proc args outs =>
    "call " ++ style.attrs attrs ++ outsText outs ++ proc ++ "(" ++
      ", ".intercalate (Expr.texts args) ++ ");\n"
  | ifElse cond thenCmds elseCmds =>
    -- an `else` part that is one conditional continues on the same line
    let chained :=
      match elseCmds with
      | [c] => if c.isIf then some (c.text style indent) else none
      | _ => none
    "if (" ++ cond.text ++ ") \x7b\n" ++ Cmd.block style (indent + style.indentSize) thenCmds ++
      spaces indent ++ "\x7d" ++
      match chained with
      | some text => " else " ++ text
      | none =>
        if elseCmds.isEmpty then "\n"
        else
          " else \x7b\n" ++ Cmd.block style (indent + style.indentSize) elseCmds ++
            spaces indent ++ "\x7d\n"
  | goto l => "goto " ++ l ++ ";\n"
  | label l => l ++ ":\n"
  | ret => "return;\n"

/-- The lines of a list of commands. -/
def Cmd.block (style : Style) (indent : Nat) : List Cmd → String
  | [] => ""
  | c :: cs => c.margin indent ++ c.text style indent ++ Cmd.block style indent cs

end

/-- A command on lines of its own. -/
def Cmd.print (style : Style) (c : Cmd) : String := Cmd.block style 0 [c]

/-! ## Procedures and programs -/

/-- The locals of a body, set off by an empty line. -/
def Procedure.localsText (style : Style) (p : Procedure) : String :=
  if p.locals.isEmpty then ""
  else String.join (p.locals.map fun v => spaces style.indentSize ++ "var " ++ v.text ++ ";\n") ++
    "\n"

def Procedure.print (style : Style) (p : Procedure) : String :=
  let returns :=
    if p.returns.isEmpty then "" else " returns (" ++ VarDecl.listText p.returns ++ ")"
  let head := "procedure " ++ p.name ++ "(" ++ VarDecl.listText p.params ++ ")" ++ returns
  match p.body with
  | none => head ++ ";\n"
  | some body =>
    head ++ "\n\x7b\n" ++ p.localsText style ++ Cmd.block style style.indentSize body ++ "\x7d\n"

def Program.print (style : Style) (p : Program) : String :=
  String.join (p.typeConstants.map fun t => "const unique " ++ t ++ ": Type;\n") ++
    String.join (p.globals.map fun v => "var " ++ v.text ++ ";\n") ++
    String.join (p.fieldMaps.map fun v => "var " ++ v.name ++ ": [Ref]" ++ v.ty.text ++ ";\n") ++
    String.join (p.procedures.map fun q => "\n" ++ q.print style)

end Unwind.Ir
