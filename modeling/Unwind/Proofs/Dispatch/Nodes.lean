import Unwind.Proofs.Expansion

/-!
# The nodes of a body

`Expr.nodes` lists an expression and everything inside it. An expansion is described through the
nodes of what it makes: the variable that a node reads or writes, and the call that it is.
-/

namespace Unwind

namespace Source

/-! ## Expressions -/

mutual

/-- The expression and every expression inside it. -/
def Expr.nodes : Expr → List Expr
  | ⟨id, span, ty, kind⟩ => ⟨id, span, ty, kind⟩ :: kind.nodes

/-- The expressions inside an expression of this kind. -/
def ExprKind.nodes : ExprKind → List Expr
  | .field object _ => nodesInOption object
  | .unary _ e | .getType e | .conversion e _ => e.nodes
  | .binary _ lhs rhs => lhs.nodes ++ rhs.nodes
  | .conditional cond thenExpr elseExpr => cond.nodes ++ (thenExpr.nodes ++ elseExpr.nodes)
  | .assign target value => target.nodes ++ value.nodes
  | .target target => target.nodes
  | .call call => call.nodes
  | .new _ _ args => nodesInAll args
  | _ => []

def Target.nodes : Target → List Expr
  | .var _ => []
  | .field object _ => nodesInOption object

/-- The expressions inside the receiver and the arguments. -/
def Call.nodes : Call → List Expr
  | ⟨_, receiver, args, _⟩ => nodesInOption receiver ++ nodesInAll args

def nodesInOption : Option Expr → List Expr
  | none => []
  | some e => e.nodes

def nodesInAll : List Expr → List Expr
  | [] => []
  | e :: es => e.nodes ++ nodesInAll es

end

theorem Expr.nodes_eq (e : Expr) : e.nodes = e :: e.kind.nodes := by
  obtain ⟨id, span, ty, kind⟩ := e
  rw [nodes]

theorem nodesInOption_eq (e : Option Expr) : nodesInOption e = e.toList.flatMap Expr.nodes := by
  cases e with
  | none => rfl
  | some e => exact (List.append_nil _).symm

/-- The variable that a target is. -/
def Target.name? : Target → Option String
  | .var name => some name
  | .field .. => none

/-- The variable that a node reads or writes, with the static type it has there. -/
def Expr.accessed? (e : Expr) : Option Variable :=
  match e.kind with
  | .var name => some ⟨name, e.ty⟩
  | .target target => target.name?.map (⟨·, e.ty⟩)
  | .assign target value => target.name?.map (⟨·, value.ty⟩)
  | _ => none

/-- The call that a node is. -/
def Expr.call? (e : Expr) : Option Call :=
  match e.kind with
  | .call call => some call
  | _ => none

/-- A call is not a variable. -/
theorem Expr.accessed?_of_call? {e : Expr} {call : Call} (h : e.call? = some call) :
    e.accessed? = none := by
  obtain ⟨id, span, ty, kind⟩ := e
  cases kind <;> first | rfl | cases h

/-! ## Statements -/

/-- The expressions of a statement with everything inside them, those of the statements inside it
apart. -/
def StmtKind.nodes (kind : StmtKind) : List Expr := kind.exprs.flatMap Expr.nodes

/-- The variables that a statement declares, the statements inside it apart. -/
def StmtKind.declared : StmtKind → List Variable
  | .localDecl decl _ => [decl]
  | .forEach item _ _ => [item]
  | .tryCatch _ catches _ => catches.filterMap (·.binding)
  | _ => []

/-- Every expression in a statement and in the statements inside it. -/
def Stmt.nodes (s : Stmt) : List Expr := s.statements.flatMap (·.kind.nodes)

/-- Every variable that a statement or a statement inside it declares. -/
def Stmt.declared (s : Stmt) : List Variable := s.statements.flatMap (·.kind.declared)

end Source

namespace Dispatch

open Source

/-! ## Operands -/

/-- The expressions inside a statement, all but a void call that is the statement. -/
def operands : StmtKind → List Expr
  | .expression e => if (voidCall? e).isSome then e.kind.nodes else e.nodes
  | kind => kind.nodes

theorem mem_nodes_of_mem_operands {kind : StmtKind} {e : Expr} (he : e ∈ operands kind) :
    e ∈ kind.nodes := by
  cases kind with
  | expression e' =>
    show e ∈ e'.nodes ++ []
    rw [List.append_nil, e'.nodes_eq]
    rw [operands, e'.nodes_eq] at he
    split at he
    · exact List.mem_cons_of_mem _ he
    · exact he
  | _ => exact he

end Dispatch

end Unwind
