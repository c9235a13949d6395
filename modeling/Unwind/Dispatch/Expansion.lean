import Unwind.Dispatch.Cascade
import Unwind.Source.Stmt

/-!
# Expanding the virtual calls of a body

Every call of a body is expanded, operands before the call itself. A void call can only become a
statement, so it is replaced where it is a whole expression statement; elsewhere it is left as it
is. When a whole body has been expanded, the variables bound to receivers are declared at its
head.
-/

namespace Unwind.Dispatch

open Source

/-- One more call site is replaced. -/
def count : Expanding Unit := modify fun s => { s with replaced := s.replaced + 1 }

/-! ## Expressions -/

mutual

def expandExpr (h : Hierarchy) : Expr → Expanding Expr
  | ⟨id, span, ty, kind⟩ => do
    match kind with
    | .call call =>
      let call ← expandOperands h call
      match ← expandCall h call ty span with
      | .expression chain =>
        count
        return chain
      | _ => return ⟨id, span, ty, .call call⟩
    | .field object field => return ⟨id, span, ty, .field (← expandOption h object) field⟩
    | .unary op operand => return ⟨id, span, ty, .unary op (← expandExpr h operand)⟩
    | .binary op lhs rhs =>
      return ⟨id, span, ty, .binary op (← expandExpr h lhs) (← expandExpr h rhs)⟩
    | .conditional cond thenExpr elseExpr =>
      return ⟨id, span, ty, .conditional (← expandExpr h cond) (← expandExpr h thenExpr)
        (← expandExpr h elseExpr)⟩
    | .assign target value =>
      return ⟨id, span, ty, .assign (← expandTarget h target) (← expandExpr h value)⟩
    | .target target => return ⟨id, span, ty, .target (← expandTarget h target)⟩
    | .new type ctor args => return ⟨id, span, ty, .new type ctor (← expandAll h args)⟩
    | .getType object => return ⟨id, span, ty, .getType (← expandExpr h object)⟩
    | .conversion value newTy =>
      return ⟨id, span, ty, .conversion (← expandExpr h value) newTy⟩
    | kind => return ⟨id, span, ty, kind⟩

/-- The receiver and the arguments of a call, in this order. -/
def expandOperands (h : Hierarchy) : Call → Expanding Call
  | ⟨method, receiver, args, isVirtual⟩ => do
    return ⟨method, ← expandOption h receiver, ← expandAll h args, isVirtual⟩

def expandTarget (h : Hierarchy) : Target → Expanding Target
  | .var name => return .var name
  | .field object field => return .field (← expandOption h object) field

def expandOption (h : Hierarchy) : Option Expr → Expanding (Option Expr)
  | none => return none
  | some e => return some (← expandExpr h e)

def expandAll (h : Hierarchy) : List Expr → Expanding (List Expr)
  | [] => return []
  | e :: es => return (← expandExpr h e) :: (← expandAll h es)

end

/-! ## Statements -/

/-- The call of an expression that is a void call. -/
def voidCall? (e : Expr) : Option Call :=
  match e.kind with
  | .call call => if e.ty.isVoid then some call else none
  | _ => none

/-- An expression that is a whole statement; here a void call can be replaced. -/
def expandExprStmt (h : Hierarchy) (id : UInt32) (span : Span) (e : Expr) : Expanding Stmt := do
  match voidCall? e with
  | some call =>
    let call ← expandOperands h call
    match ← expandCall h call .void span with
    | .statement chain =>
      count
      return chain
    | _ => return ⟨id, span, .expression { e with kind := .call call }⟩
  | none => return ⟨id, span, .expression (← expandExpr h e)⟩

mutual

def expandStmt (h : Hierarchy) : Stmt → Expanding Stmt
  | ⟨id, span, kind⟩ => do
    match kind with
    | .block stmts => return ⟨id, span, .block (← expandStmts h stmts)⟩
    | .assert cond => return ⟨id, span, .assert (← expandExpr h cond)⟩
    | .assume cond => return ⟨id, span, .assume (← expandExpr h cond)⟩
    | .throw e => return ⟨id, span, .throw (← expandExpr h e)⟩
    | .push e => return ⟨id, span, .push (← expandExpr h e)⟩
    | .conditional cond thenBranch elseBranch =>
      return ⟨id, span, .conditional (← expandExpr h cond) (← expandStmt h thenBranch)
        (← expandStmt h elseBranch)⟩
    | .expression e => expandExprStmt h id span e
    | .whileLoop cond body =>
      return ⟨id, span, .whileLoop (← expandExpr h cond) (← expandStmt h body)⟩
    | .doUntil body cond =>
      let cond ← expandExpr h cond
      return ⟨id, span, .doUntil (← expandStmt h body) cond⟩
    | .forLoop init cond step body =>
      let init ← expandStmts h init
      let step ← expandStmts h step
      let cond ← expandOption h cond
      return ⟨id, span, .forLoop init cond step (← expandStmt h body)⟩
    | .forEach item collection body =>
      return ⟨id, span, .forEach item (← expandExpr h collection) (← expandStmt h body)⟩
    | .switch scrutinee cases =>
      return ⟨id, span, .switch (← expandExpr h scrutinee) (← expandCases h cases)⟩
    | .localDecl decl init => return ⟨id, span, .localDecl decl (← expandOption h init)⟩
    | .ret value => return ⟨id, span, .ret (← expandOption h value)⟩
    | .labeled label body => return ⟨id, span, .labeled label (← expandStmt h body)⟩
    | .tryCatch body catches finalizer =>
      return ⟨id, span, .tryCatch (← expandStmt h body) (← expandCatches h catches)
        (← expandStmtOption h finalizer)⟩
    | kind => return ⟨id, span, kind⟩

def expandStmts (h : Hierarchy) : List Stmt → Expanding (List Stmt)
  | [] => return []
  | s :: ss => return (← expandStmt h s) :: (← expandStmts h ss)

def expandCases (h : Hierarchy) : List SwitchCase → Expanding (List SwitchCase)
  | [] => return []
  | ⟨span, value, body⟩ :: cases =>
    return ⟨span, ← expandOption h value, ← expandStmts h body⟩ :: (← expandCases h cases)

def expandCatches (h : Hierarchy) : List CatchClause → Expanding (List CatchClause)
  | [] => return []
  | ⟨span, exceptionType, binding, body⟩ :: clauses =>
    return ⟨span, exceptionType, binding, ← expandStmt h body⟩ :: (← expandCatches h clauses)

def expandStmtOption (h : Hierarchy) : Option Stmt → Expanding (Option Stmt)
  | none => return none
  | some s => return some (← expandStmt h s)

end

/-! ## Bodies -/

/-- The statements of a block, or the statement itself. -/
def flatten (body : Stmt) : List Stmt :=
  match body.kind with
  | .block stmts => stmts
  | _ => [body]

/-- A declaration without an initial value. -/
def declare (v : Variable) : Stmt := .ofKind (.localDecl v none)

/-- Put declarations in front of a body. -/
def declareAll (receivers : List Variable) (body : Stmt) : Stmt :=
  if receivers.isEmpty then body
  else (Stmt.block (receivers.map declare ++ flatten body)).withSpan body.span

/-- Expand a whole body and declare the receivers bound so far. -/
def transform (h : Hierarchy) (body : Stmt) : Expanding Stmt := do
  let body ← expandStmt h body
  let s ← get
  set { s with receivers := [] }
  return declareAll s.receivers body

end Unwind.Dispatch
