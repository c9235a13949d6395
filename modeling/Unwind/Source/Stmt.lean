import Unwind.Source.Expr

/-!
# Statements of the source program

Statements carry an id and a place. The id of a `try` statement identifies it inside its method
body; labels are found relative to it. Loops, `break` and `continue` are part of the language and
are expected to be removed before a body is lowered.
-/

namespace Unwind.Source

mutual

/-- A statement. -/
structure Stmt where
  id : UInt32 := 0
  span : Span := {}
  kind : StmtKind

/-- What a statement does. -/
inductive StmtKind where
  | block (stmts : List Stmt)
  | empty
  | assert (cond : Expr)
  | assume (cond : Expr)
  | conditional (cond : Expr) (thenBranch elseBranch : Stmt)
  | expression (expr : Expr)
  | breakLoop
  | continueLoop
  | whileLoop (cond : Expr) (body : Stmt)
  | doUntil (body : Stmt) (cond : Expr)
  | forLoop (init : List Stmt) (cond : Option Expr) (step : List Stmt) (body : Stmt)
  | forEach (item : Variable) (collection : Expr) (body : Stmt)
  | switch (scrutinee : Expr) (cases : List SwitchCase)
  | localDecl (decl : Variable) (init : Option Expr)
  | ret (value : Option Expr)
  | goto (label : String)
  | labeled (label : String) (body : Stmt)
  | tryCatch (body : Stmt) (catches : List CatchClause) (finalizer : Option Stmt)
  | throw (exception : Expr)
  | rethrow
  | push (value : Expr)

/-- One case of a `switch`; without a value it is the default case. -/
structure SwitchCase where
  span : Span := {}
  value : Option Expr
  body : List Stmt

/-- One catch clause; without an exception type it catches everything. -/
structure CatchClause where
  span : Span := {}
  exceptionType : Option TypeRef
  binding : Option Variable
  body : Stmt

end

namespace Stmt

/-- A statement with no id and no place. -/
def ofKind (kind : StmtKind) : Stmt := { kind }

def block (stmts : List Stmt) : Stmt := ofKind (.block stmts)

def empty : Stmt := ofKind .empty

def expr (e : Expr) : Stmt := ofKind (.expression e)

def ifElse (cond : Expr) (thenBranch elseBranch : Stmt) : Stmt :=
  ofKind (.conditional cond thenBranch elseBranch)

def goto (label : String) : Stmt := ofKind (.goto label)

def labeled (label : String) (body : Stmt) : Stmt := ofKind (.labeled label body)

/-- The same statement under another id. -/
def withId (s : Stmt) (id : UInt32) : Stmt := { s with id }

/-- The same statement at another place. -/
def withSpan (s : Stmt) (span : Span) : Stmt := { s with span }

end Stmt

/-- The name of a kind of statement, as faults report it. -/
def StmtKind.name : StmtKind → String
  | block _ => "block"
  | empty => "empty"
  | assert _ => "assert"
  | assume _ => "assume"
  | conditional .. => "conditional"
  | expression _ => "expression"
  | breakLoop => "break"
  | continueLoop => "continue"
  | whileLoop .. => "while"
  | doUntil .. => "do-until"
  | forLoop .. => "for"
  | forEach .. => "for-each"
  | switch .. => "switch"
  | localDecl .. => "local-declaration"
  | ret _ => "return"
  | goto _ => "goto"
  | labeled .. => "labeled"
  | tryCatch .. => "try"
  | throw _ => "throw"
  | rethrow => "rethrow"
  | push _ => "push"

end Unwind.Source
