import Unwind.Proofs.Dispatch
import Unwind.Proofs.Literals.Mapping

/-!
# Literals on their way through dispatch

What becomes of a virtual call depends on its method and on the shape of its receiver, and its
operands are only moved. Replacing literals therefore commutes with the expansion of virtual calls
(`transform_mapLiterals`): it may be done before or after, and the arguments that the expansion has
copied into every branch of a cascade are replaced in every copy.
-/

namespace Unwind.Dispatch

open Source

variable {g : Int64 → Int64} {h h' : Hierarchy}

/-! ## Cascades -/

/-- The replacement of a call site with the literals replaced. -/
def Replacement.mapLiterals (g : Int64 → Int64) : Replacement → Replacement
  | unchanged => unchanged
  | statement stmt => statement (stmt.mapLiterals g)
  | expression expr => expression (expr.mapLiterals g)

/-- A receiver with the literals replaced. -/
def Receiver.mapLiterals (g : Int64 → Int64) (r : Receiver) : Receiver :=
  ⟨r.first.mapLiterals g, r.later.mapLiterals g⟩

theorem isExempt_mapLiterals (ha : Agree h h') (call : Call) :
    isExempt h' (call.mapLiterals g) = isExempt h call := by
  obtain ⟨method, receiver, args, isVirtual⟩ := call
  rw [ha.isExempt]
  cases receiver <;> rfl

theorem exactTypeTest_mapLiterals (receiver : Expr) (type : TypeRef) (span : Span) :
    (exactTypeTest receiver type span).mapLiterals g =
      exactTypeTest (receiver.mapLiterals g) type span := rfl

theorem directCall_mapLiterals (call : Call) (receiver : Expr) (method : MethodRef) (result : Ty)
    (span : Span) : (directCall call receiver method result span).mapLiterals g =
      directCall (call.mapLiterals g) (receiver.mapLiterals g) method result span := by
  cases call; rfl

theorem branch_mapLiterals (ha : Agree h h') (call : Call) (receiver : Expr) (result : Ty)
    (span : Span) (o : Override) :
    branch h' (call.mapLiterals g) (receiver.mapLiterals g) result span o =
      (branch h call receiver result span o).mapLiterals g := by
  unfold branch
  rw [ha.resultType, ← directCall_mapLiterals]
  dsimp only
  split
  · rfl
  · rfl

/-- A cascade is mapped test by test. -/
theorem cascade_mapLiterals {α : Type} {f : α → α} {join : Expr → Expr → α → α}
    (hjoin : ∀ c e a, f (join c e a) = join (c.mapLiterals g) (e.mapLiterals g) (f a))
    {body body' : Override → Expr} (hbody : ∀ o, body' o = (body o).mapLiterals g)
    (later : Expr) (span : Span) (fallback : α) (tested : Expr) (os : List Override) :
    cascade join body' (later.mapLiterals g) span (f fallback) (tested.mapLiterals g) os =
      f (cascade join body later span fallback tested os) := by
  induction os generalizing tested with
  | nil => rfl
  | cons o os ih =>
    rw [cascade, cascade, hjoin, ih, hbody, exactTypeTest_mapLiterals]

theorem chain_mapLiterals (ha : Agree h h') (call : Call) (result : Ty) (span : Span)
    (receiver : Receiver) (os : List Override) :
    chain h' (call.mapLiterals g) result span (receiver.mapLiterals g) os =
      (chain h call result span receiver os).mapLiterals g := by
  have hmethod : (call.mapLiterals g).method = call.method := by cases call; rfl
  have hjoinStmts : ∀ c e rest, (joinStmts span c e rest).mapLiterals g =
      joinStmts span (c.mapLiterals g) (e.mapLiterals g) (rest.mapLiterals g) := fun _ _ _ => rfl
  have hjoinExprs : ∀ c e rest, (joinExprs span c e rest).mapLiterals g =
      joinExprs span (c.mapLiterals g) (e.mapLiterals g) (rest.mapLiterals g) := by
    intro c e rest
    unfold joinExprs
    rw [Expr.ty_mapLiterals]
    rfl
  let fallback := directCall call receiver.later call.method result span
  have hbody := branch_mapLiterals (g := g) ha call receiver.later result span
  unfold chain
  dsimp only [Receiver.mapLiterals]
  rw [hmethod, ← directCall_mapLiterals]
  split
  · exact congrArg Replacement.statement (cascade_mapLiterals hjoinStmts hbody receiver.later span
      ((Stmt.expr fallback).withSpan span) receiver.first os)
  · exact congrArg Replacement.expression (cascade_mapLiterals hjoinExprs hbody receiver.later span
      fallback receiver.first os)

theorem bindReceiver_mapLiterals (receiver : Expr) :
    bindReceiver (receiver.mapLiterals g) = Receiver.mapLiterals g <$> bindReceiver receiver := by
  obtain ⟨id, span, ty, kind⟩ := receiver
  cases kind <;> rfl

theorem expandCall_mapLiterals (ha : Agree h h') (call : Call) (result : Ty) (span : Span) :
    expandCall h' (call.mapLiterals g) result span =
      Replacement.mapLiterals g <$> expandCall h call result span := by
  have hmethod : (call.mapLiterals g).method = call.method := by cases call; rfl
  have hreceiver : (call.mapLiterals g).receiver = call.receiver.map (Expr.mapLiterals g) := by
    cases call
    exact mapInOption_eq_map _
  have hoverrides : overridesOf h' call.method = overridesOf h call.method := by
    unfold overridesOf
    rw [ha.resolve]
  unfold expandCall
  rw [isExempt_mapLiterals ha, hmethod, hreceiver, hoverrides]
  split
  · rfl
  · simp only [map_bind]
    refine bind_congr fun os => ?_
    cases os with
    | nil => rfl
    | cons o os =>
      cases call.receiver with
      | none => rfl
      | some receiver =>
        simp only [Option.map_some, map_bind, map_pure, bindReceiver_mapLiterals, bind_map_left,
          chain_mapLiterals ha]

/-! ## Expressions -/

mutual

theorem expandExpr_mapLiterals (ha : Agree h h') (e : Expr) :
    expandExpr h' (e.mapLiterals g) = Expr.mapLiterals g <$> expandExpr h e := by
  obtain ⟨id, span, ty, kind⟩ := e
  rw [Expr.mapLiterals]
  cases kind with
  | call call =>
    rw [ExprKind.mapLiterals, expandExpr, expandExpr]
    simp only [expandOperands_mapLiterals ha call, map_bind, bind_map_left,
      expandCall_mapLiterals ha]
    refine bind_congr fun call => bind_congr fun replacement => ?_
    cases replacement <;> rfl
  | field object field =>
    rw [ExprKind.mapLiterals, expandExpr, expandExpr]
    simp only [expandOption_mapLiterals ha object, map_bind, bind_map_left, map_pure,
      Expr.mapLiterals, ExprKind.mapLiterals]
  | unary _ e | getType e | conversion e =>
    rw [ExprKind.mapLiterals, expandExpr, expandExpr]
    simp only [expandExpr_mapLiterals ha e, map_bind, bind_map_left, map_pure, Expr.mapLiterals,
      ExprKind.mapLiterals]
  | binary op lhs rhs =>
    rw [ExprKind.mapLiterals, expandExpr, expandExpr]
    simp only [expandExpr_mapLiterals ha lhs, expandExpr_mapLiterals ha rhs, map_bind,
      bind_map_left, map_pure, Expr.mapLiterals, ExprKind.mapLiterals]
  | conditional cond thenExpr elseExpr =>
    rw [ExprKind.mapLiterals, expandExpr, expandExpr]
    simp only [expandExpr_mapLiterals ha cond, expandExpr_mapLiterals ha thenExpr,
      expandExpr_mapLiterals ha elseExpr, map_bind, bind_map_left, map_pure, Expr.mapLiterals,
      ExprKind.mapLiterals]
  | assign target value =>
    rw [ExprKind.mapLiterals, expandExpr, expandExpr]
    simp only [expandTarget_mapLiterals ha target, expandExpr_mapLiterals ha value, map_bind,
      bind_map_left, map_pure, Expr.mapLiterals, ExprKind.mapLiterals]
  | target target =>
    rw [ExprKind.mapLiterals, expandExpr, expandExpr]
    simp only [expandTarget_mapLiterals ha target, map_bind, bind_map_left, map_pure,
      Expr.mapLiterals, ExprKind.mapLiterals]
  | new type ctor args =>
    rw [ExprKind.mapLiterals, expandExpr, expandExpr]
    simp only [expandAll_mapLiterals ha args, map_bind, bind_map_left, map_pure, Expr.mapLiterals,
      ExprKind.mapLiterals]
  | literal | var | self | typeOf | defaultValue | pop =>
    simp only [ExprKind.mapLiterals, expandExpr, map_pure, Expr.mapLiterals]

theorem expandOperands_mapLiterals (ha : Agree h h') (call : Call) :
    expandOperands h' (call.mapLiterals g) = Call.mapLiterals g <$> expandOperands h call := by
  obtain ⟨method, receiver, args, isVirtual⟩ := call
  rw [Call.mapLiterals, expandOperands, expandOperands]
  simp only [expandOption_mapLiterals ha receiver, expandAll_mapLiterals ha args, map_bind,
    bind_map_left, map_pure, Call.mapLiterals]

theorem expandTarget_mapLiterals (ha : Agree h h') (target : Target) :
    expandTarget h' (target.mapLiterals g) = Target.mapLiterals g <$> expandTarget h target := by
  cases target with
  | var name => simp only [Target.mapLiterals, expandTarget, map_pure]
  | field object field =>
    simp only [Target.mapLiterals, expandTarget, expandOption_mapLiterals ha object, map_bind,
      bind_map_left, map_pure]

theorem expandOption_mapLiterals (ha : Agree h h') (e : Option Expr) :
    expandOption h' (mapInOption g e) = mapInOption g <$> expandOption h e := by
  cases e with
  | none => simp only [mapInOption, expandOption, map_pure]
  | some e =>
    simp only [mapInOption, expandOption, expandExpr_mapLiterals ha e, map_bind, bind_map_left,
      map_pure]

theorem expandAll_mapLiterals (ha : Agree h h') (es : List Expr) :
    expandAll h' (mapInAll g es) = mapInAll g <$> expandAll h es := by
  cases es with
  | nil => simp only [mapInAll, expandAll, map_pure]
  | cons e es =>
    simp only [mapInAll, expandAll, expandExpr_mapLiterals ha e, expandAll_mapLiterals ha es,
      map_bind, bind_map_left, map_pure]

end

/-! ## Statements -/

theorem voidCall?_mapLiterals (e : Expr) :
    voidCall? (e.mapLiterals g) = (voidCall? e).map (Call.mapLiterals g) := by
  obtain ⟨id, span, ty, kind⟩ := e
  cases kind with
  | call call => cases ty <;> rfl
  | _ => rfl

theorem expandExprStmt_mapLiterals (ha : Agree h h') (id : UInt32) (span : Span) (e : Expr) :
    expandExprStmt h' id span (e.mapLiterals g) =
      Stmt.mapLiterals g <$> expandExprStmt h id span e := by
  unfold expandExprStmt
  rw [voidCall?_mapLiterals]
  cases voidCall? e with
  | none =>
    simp only [Option.map_none, expandExpr_mapLiterals ha, map_bind, bind_map_left, map_pure,
      Stmt.mapLiterals, StmtKind.mapLiterals]
  | some call =>
    simp only [Option.map_some, expandOperands_mapLiterals ha call, map_bind, bind_map_left,
      expandCall_mapLiterals ha]
    refine bind_congr fun call => bind_congr fun replacement => ?_
    cases e
    cases replacement <;> rfl

mutual

theorem expandStmt_mapLiterals (ha : Agree h h') (s : Stmt) :
    expandStmt h' (s.mapLiterals g) = Stmt.mapLiterals g <$> expandStmt h s := by
  obtain ⟨id, span, kind⟩ := s
  rw [Stmt.mapLiterals]
  cases kind with
  | block stmts =>
    rw [StmtKind.mapLiterals, expandStmt, expandStmt]
    simp only [expandStmts_mapLiterals ha stmts, map_bind, bind_map_left, map_pure,
      Stmt.mapLiterals, StmtKind.mapLiterals]
  | assert e | assume e | throw e | push e =>
    rw [StmtKind.mapLiterals, expandStmt, expandStmt]
    simp only [expandExpr_mapLiterals ha e, map_bind, bind_map_left, map_pure, Stmt.mapLiterals,
      StmtKind.mapLiterals]
  | conditional cond thenBranch elseBranch =>
    rw [StmtKind.mapLiterals, expandStmt, expandStmt]
    simp only [expandExpr_mapLiterals ha cond, expandStmt_mapLiterals ha thenBranch,
      expandStmt_mapLiterals ha elseBranch, map_bind, bind_map_left, map_pure, Stmt.mapLiterals,
      StmtKind.mapLiterals]
  | expression e =>
    rw [StmtKind.mapLiterals, expandStmt, expandStmt]
    exact expandExprStmt_mapLiterals ha id span e
  | whileLoop cond body =>
    rw [StmtKind.mapLiterals, expandStmt, expandStmt]
    simp only [expandExpr_mapLiterals ha cond, expandStmt_mapLiterals ha body, map_bind,
      bind_map_left, map_pure, Stmt.mapLiterals, StmtKind.mapLiterals]
  | doUntil body cond =>
    rw [StmtKind.mapLiterals, expandStmt, expandStmt]
    simp only [expandExpr_mapLiterals ha cond, expandStmt_mapLiterals ha body, map_bind,
      bind_map_left, map_pure, Stmt.mapLiterals, StmtKind.mapLiterals]
  | forLoop init cond step body =>
    rw [StmtKind.mapLiterals, expandStmt, expandStmt]
    simp only [expandStmts_mapLiterals ha init, expandStmts_mapLiterals ha step,
      expandOption_mapLiterals ha cond, expandStmt_mapLiterals ha body, map_bind, bind_map_left,
      map_pure, Stmt.mapLiterals, StmtKind.mapLiterals]
  | forEach item collection body =>
    rw [StmtKind.mapLiterals, expandStmt, expandStmt]
    simp only [expandExpr_mapLiterals ha collection, expandStmt_mapLiterals ha body, map_bind,
      bind_map_left, map_pure, Stmt.mapLiterals, StmtKind.mapLiterals]
  | switch scrutinee cases =>
    rw [StmtKind.mapLiterals, expandStmt, expandStmt]
    simp only [expandExpr_mapLiterals ha scrutinee, expandCases_mapLiterals ha cases, map_bind,
      bind_map_left, map_pure, Stmt.mapLiterals, StmtKind.mapLiterals]
  | localDecl decl init =>
    rw [StmtKind.mapLiterals, expandStmt, expandStmt]
    simp only [expandOption_mapLiterals ha init, map_bind, bind_map_left, map_pure,
      Stmt.mapLiterals, StmtKind.mapLiterals]
  | ret value =>
    rw [StmtKind.mapLiterals, expandStmt, expandStmt]
    simp only [expandOption_mapLiterals ha value, map_bind, bind_map_left, map_pure,
      Stmt.mapLiterals, StmtKind.mapLiterals]
  | labeled label body =>
    rw [StmtKind.mapLiterals, expandStmt, expandStmt]
    simp only [expandStmt_mapLiterals ha body, map_bind, bind_map_left, map_pure,
      Stmt.mapLiterals, StmtKind.mapLiterals]
  | tryCatch body catches finalizer =>
    rw [StmtKind.mapLiterals, expandStmt, expandStmt]
    simp only [expandStmt_mapLiterals ha body, expandCatches_mapLiterals ha catches,
      expandStmtOption_mapLiterals ha finalizer, map_bind, bind_map_left, map_pure,
      Stmt.mapLiterals, StmtKind.mapLiterals]
  | empty | breakLoop | continueLoop | goto | rethrow =>
    simp only [StmtKind.mapLiterals, expandStmt, map_pure, Stmt.mapLiterals]

theorem expandStmts_mapLiterals (ha : Agree h h') (ss : List Stmt) :
    expandStmts h' (mapInStmts g ss) = mapInStmts g <$> expandStmts h ss := by
  cases ss with
  | nil => simp only [mapInStmts, expandStmts, map_pure]
  | cons s ss =>
    simp only [mapInStmts, expandStmts, expandStmt_mapLiterals ha s,
      expandStmts_mapLiterals ha ss, map_bind, bind_map_left, map_pure]

theorem expandCases_mapLiterals (ha : Agree h h') (cases : List SwitchCase) :
    expandCases h' (mapInCases g cases) = mapInCases g <$> expandCases h cases := by
  cases cases with
  | nil => simp only [mapInCases, expandCases, map_pure]
  | cons case cases =>
    obtain ⟨span, value, body⟩ := case
    simp only [mapInCases, expandCases, expandOption_mapLiterals ha value,
      expandStmts_mapLiterals ha body, expandCases_mapLiterals ha cases, map_bind, bind_map_left,
      map_pure]

theorem expandCatches_mapLiterals (ha : Agree h h') (clauses : List CatchClause) :
    expandCatches h' (mapInCatches g clauses) = mapInCatches g <$> expandCatches h clauses := by
  cases clauses with
  | nil => simp only [mapInCatches, expandCatches, map_pure]
  | cons clause clauses =>
    obtain ⟨span, type, binding, body⟩ := clause
    simp only [mapInCatches, expandCatches, expandStmt_mapLiterals ha body,
      expandCatches_mapLiterals ha clauses, map_bind, bind_map_left, map_pure]

theorem expandStmtOption_mapLiterals (ha : Agree h h') (s : Option Stmt) :
    expandStmtOption h' (mapInStmtOption g s) = mapInStmtOption g <$> expandStmtOption h s := by
  cases s with
  | none => simp only [mapInStmtOption, expandStmtOption, map_pure]
  | some s =>
    simp only [mapInStmtOption, expandStmtOption, expandStmt_mapLiterals ha s, map_bind,
      bind_map_left, map_pure]

end

/-! ## Bodies -/

theorem declareAll_mapLiterals (receivers : List Variable) (body : Stmt) :
    declareAll receivers (body.mapLiterals g) = (declareAll receivers body).mapLiterals g := by
  have hflatten : flatten (body.mapLiterals g) = mapInStmts g (flatten body) := by
    obtain ⟨id, span, kind⟩ := body
    cases kind <;> rfl
  have happend : ∀ ss : List Stmt, mapInStmts g (receivers.map declare ++ ss) =
      receivers.map declare ++ mapInStmts g ss := by
    intro ss
    rw [mapInStmts_eq_map, mapInStmts_eq_map, List.map_append, List.map_map]
    rfl
  unfold declareAll
  rw [hflatten, ← happend]
  cases body
  split
  · rfl
  · rfl

/-- Literals may be replaced before the virtual calls of a body are expanded. -/
theorem transform_mapLiterals (ha : Agree h h') (body : Stmt) :
    transform h' (body.mapLiterals g) = Stmt.mapLiterals g <$> transform h body := by
  unfold transform
  simp only [expandStmt_mapLiterals ha, map_bind, bind_map_left, map_pure, declareAll_mapLiterals]

end Unwind.Dispatch
