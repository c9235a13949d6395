import Mathlib.Data.List.Basic
import Unwind.Proofs.Paths

/-!
# The statements of a body and the methods that it calls

`Stmt.statements` lists a statement and everything inside it. What a body calls is read off the
expressions of its statements: the methods of its calls and its constructors.
-/

namespace Unwind.Source

/-! ## Calls in expressions -/

mutual

/-- The methods that an expression calls, constructors included. -/
def Expr.callees : Expr → List MethodRef
  | ⟨_, _, _, kind⟩ =>
    match kind with
    | .field object _ => calleesInOption object
    | .unary _ e | .getType e | .conversion e _ => e.callees
    | .binary _ lhs rhs => lhs.callees ++ rhs.callees
    | .conditional cond thenExpr elseExpr => cond.callees ++ (thenExpr.callees ++ elseExpr.callees)
    | .assign target value => target.callees ++ value.callees
    | .target target => target.callees
    | .call call => call.callees
    | .new _ ctor args => ctor.toList ++ calleesInAll args
    | _ => []

def Target.callees : Target → List MethodRef
  | .var _ => []
  | .field object _ => calleesInOption object

def Call.callees : Call → List MethodRef
  | ⟨method, receiver, args, _⟩ => method :: (calleesInOption receiver ++ calleesInAll args)

def calleesInOption : Option Expr → List MethodRef
  | none => []
  | some e => e.callees

def calleesInAll : List Expr → List MethodRef
  | [] => []
  | e :: es => e.callees ++ calleesInAll es

end

/-! ## Statements -/

mutual

/-- The statement and every statement inside it. -/
def Stmt.statements : Stmt → List Stmt
  | ⟨id, span, kind⟩ =>
    ⟨id, span, kind⟩ ::
      match kind with
      | .block stmts => statementsIn stmts
      | .conditional _ thenBranch elseBranch => thenBranch.statements ++ elseBranch.statements
      | .whileLoop _ body | .doUntil body _ | .forEach _ _ body | .labeled _ body => body.statements
      | .forLoop init _ step body => statementsIn init ++ (statementsIn step ++ body.statements)
      | .switch _ cases => statementsInCases cases
      | .tryCatch body catches finalizer =>
        body.statements ++ (statementsInCatches catches ++ statementsInOption finalizer)
      | _ => []

def statementsIn : List Stmt → List Stmt
  | [] => []
  | s :: ss => s.statements ++ statementsIn ss

def statementsInCases : List SwitchCase → List Stmt
  | [] => []
  | ⟨_, _, body⟩ :: cases => statementsIn body ++ statementsInCases cases

def statementsInCatches : List CatchClause → List Stmt
  | [] => []
  | ⟨_, _, _, body⟩ :: clauses => body.statements ++ statementsInCatches clauses

def statementsInOption : Option Stmt → List Stmt
  | none => []
  | some s => s.statements

end

theorem Stmt.mem_statements (s : Stmt) : s ∈ s.statements := by
  obtain ⟨id, span, kind⟩ := s
  cases kind <;> exact List.mem_cons_self

/-- The statement is a conditional. -/
def Stmt.isConditional (s : Stmt) : Bool :=
  match s.kind with
  | .conditional .. => true
  | _ => false

/-- The expressions of a statement, those of the statements inside it apart. -/
def StmtKind.exprs : StmtKind → List Expr
  | .assert e | .assume e | .expression e | .throw e | .push e | .conditional e _ _
  | .whileLoop e _ | .doUntil _ e | .forEach _ e _ => [e]
  | .forLoop _ cond _ _ => cond.toList
  | .switch scrutinee cases => scrutinee :: cases.filterMap (·.value)
  | .localDecl _ e | .ret e => e.toList
  | _ => []

/-- The methods that a statement calls, those that the statements inside it call included. -/
def Stmt.callees (s : Stmt) : List MethodRef :=
  s.statements.flatMap fun t => t.kind.exprs.flatMap Expr.callees

/-- The expression calls these methods only. -/
def Expr.CallsOnly (P : MethodRef → Prop) (e : Expr) : Prop := ∀ m ∈ e.callees, P m

/-- The statement calls these methods only, the statements inside it apart. -/
def Stmt.CallsOnly (P : MethodRef → Prop) (s : Stmt) : Prop := ∀ e ∈ s.kind.exprs, e.CallsOnly P

theorem Stmt.forall_callees {P : MethodRef → Prop} {s : Stmt} :
    (∀ m ∈ s.callees, P m) ↔ ∀ t ∈ s.statements, t.CallsOnly P := by
  simp only [Stmt.callees, Stmt.CallsOnly, Expr.CallsOnly, List.mem_flatMap]
  constructor
  · intro h t ht e he m hm
    exact h m ⟨t, ht, e, he, hm⟩
  · rintro h m ⟨t, ht, e, he, hm⟩
    exact h t ht e he m hm

end Unwind.Source
