import Unwind.Proofs.Dispatch.Sites
import Unwind.Proofs.Modules.Hierarchy
import Unwind.Proofs.Modules.Steps

/-!
# Dispatch without modules

What becomes of a virtual call depends on names only. The expansion of a body without modules, over
the outline of the hierarchy, takes the steps of the expansion of the body itself and ends with the
expanded body without modules (`transform_unqualified`). The variables bound to receivers keep the
types of their receivers in the state of the expansion; they too lose their modules.
-/

namespace Unwind.Dispatch

open Source

variable (h : Hierarchy)

/-! ## Calls that are left alone -/

theorem isEventAccessor_outline (m : MethodRef) :
    isEventAccessor h.outline m.unqualified = isEventAccessor h m := by
  have hdecl := h.declaration_change .outline m
  unfold isEventAccessor
  rw [show h.outline = h.change .outline from rfl,
    show m.unqualified = Hierarchy.Change.outline.method m from rfl, hdecl]
  cases (h.table.get? m.type).bind fun d => (d.methodsMatching m).head? <;> rfl

theorem isExempt_outline (call : Call) :
    isExempt h.outline call.unqualified = isExempt h call := by
  obtain ⟨method, receiver, args, isVirtual⟩ := call
  have hcontains : h.outline.index.contains method.unqualified.type =
      h.index.contains method.type :=
    SubtypeIndex.contains_map TypeRef.name_unqualified h.index method.type
  simp only [isExempt, Call.unqualified, isEventAccessor_outline, hcontains,
    unqualifiedOption_eq_map, Option.isNone_map]
  rfl

theorem resultType_outline (m : MethodRef) (fallback : Ty) :
    resultType h.outline m.unqualified fallback.bare = (resultType h m fallback).bare := by
  have hdecl := h.declaration_change .outline m
  unfold resultType
  rw [show h.outline = h.change .outline from rfl,
    show m.unqualified = Hierarchy.Change.outline.method m from rfl, hdecl]
  cases (h.table.get? m.type).bind fun d => (d.methodsMatching m).head? <;> rfl

/-! ## Cascades -/

/-- What becomes of a call site, without modules. -/
def Replacement.unqualified : Replacement → Replacement
  | unchanged => unchanged
  | statement stmt => statement stmt.unqualified
  | expression expr => expression expr.unqualified

/-- The receiver of a call site without modules. -/
def Receiver.unqualified (r : Receiver) : Receiver := ⟨r.first.unqualified, r.later.unqualified⟩

/-- The state of an expansion without modules. -/
def State.unqualified (s : State) : State :=
  { s with receivers := s.receivers.map Variable.unqualified }

theorem exactTypeTest_unqualified (receiver : Expr) (type : TypeRef) (span : Span) :
    exactTypeTest receiver.unqualified type.unqualified span =
      (exactTypeTest receiver type span).unqualified := rfl

theorem directCall_unqualified (call : Call) (receiver : Expr) (method : MethodRef) (result : Ty)
    (span : Span) :
    directCall call.unqualified receiver.unqualified method.unqualified result.bare span =
      (directCall call receiver method result span).unqualified := by
  cases call
  rfl

theorem branch_unqualified (call : Call) (receiver : Expr) (result : Ty) (span : Span)
    (o : Override) :
    branch h.outline call.unqualified receiver.unqualified result.bare span o.unqualified =
      (branch h call receiver result span o).unqualified := by
  unfold branch
  rw [Override.unqualified, resultType_outline, directCall_unqualified, Ty.isVoid_bare]
  dsimp only
  split <;> rfl

/-- A cascade loses its modules test by test. -/
theorem cascade_unqualified {α : Type} {f : α → α} {join : Expr → Expr → α → α}
    (hjoin : ∀ c e a, join c.unqualified e.unqualified (f a) = f (join c e a))
    {body body' : Override → Expr} (hbody : ∀ o, body' o.unqualified = (body o).unqualified)
    (later : Expr) (span : Span) (fallback : α) (tested : Expr) (os : List Override) :
    cascade join body' later.unqualified span (f fallback) tested.unqualified
        (os.map Override.unqualified) =
      f (cascade join body later span fallback tested os) := by
  induction os generalizing tested with
  | nil => rfl
  | cons o os ih =>
    rw [List.map_cons, cascade, cascade, ih, hbody, Override.unqualified,
      exactTypeTest_unqualified, hjoin]

theorem chain_unqualified (call : Call) (result : Ty) (span : Span) (receiver : Receiver)
    (os : List Override) :
    chain h.outline call.unqualified result.bare span receiver.unqualified
        (os.map Override.unqualified) =
      (chain h call result span receiver os).unqualified := by
  have hmethod : call.unqualified.method = call.method.unqualified := by cases call; rfl
  have hjoinStmts : ∀ c e rest, joinStmts span c.unqualified e.unqualified rest.unqualified =
      (joinStmts span c e rest).unqualified := fun _ _ _ => rfl
  have hjoinExprs : ∀ c e rest, joinExprs span c.unqualified e.unqualified rest.unqualified =
      (joinExprs span c e rest).unqualified := by
    intro c e rest
    rw [joinExprs, Expr.ty_unqualified]
    rfl
  let fallback := directCall call receiver.later call.method result span
  have hbody := branch_unqualified h call receiver.later result span
  unfold chain
  dsimp only [Receiver.unqualified]
  rw [hmethod, directCall_unqualified, Ty.isVoid_bare]
  split
  · exact congrArg Replacement.statement (cascade_unqualified hjoinStmts hbody receiver.later span
      ((Stmt.expr fallback).withSpan span) receiver.first os)
  · exact congrArg Replacement.expression (cascade_unqualified hjoinExprs hbody receiver.later span
      fallback receiver.first os)

/-! ## Call sites -/

/-- The step `y` is the step `x` on things without modules. -/
abbrev Forgets {α β : Type} (f : α → β) (x : Expanding α) (y : Expanding β) : Prop :=
  Erases State.unqualified f x y

theorem report_forgets (level : Log.Level) (message : String) :
    Forgets id (report level message) (report level message) := .update fun _ => rfl

theorem count_forgets : Forgets id count count := .update fun _ => rfl

/-- A receiver that cannot be read again is bound to the variable of the next number. -/
theorem bindReceiver_eq (e : Expr) :
    bindReceiver e = if isReusable e then pure ⟨e, e⟩ else modifyGet fun s =>
      let name := receiverName s.receivers.length
      (⟨(Expr.assign (.var name) e).withSpan e.span, (Expr.var name e.ty).withSpan e.span⟩,
        { s with receivers := s.receivers ++ [⟨name, e.ty⟩] }) := by
  obtain ⟨id, span, ty, kind⟩ := e
  cases kind <;> rfl

/-- Receivers are numbered, whatever their types are. -/
theorem bindReceiver_forgets (e : Expr) :
    Forgets Receiver.unqualified (bindReceiver e) (bindReceiver e.unqualified) := by
  have hreusable : isReusable e.unqualified = isReusable e := by
    obtain ⟨id, span, ty, kind⟩ := e
    cases kind <;> rfl
  rw [bindReceiver_eq, bindReceiver_eq, hreusable]
  split
  · exact .pure rfl
  · refine .modifyGet fun s => ?_
    -- the number of the new local is the count of those that are bound
    have hlength : s.unqualified.receivers.length = s.receivers.length := List.length_map _
    have happend : ∀ v : Variable, s.unqualified.receivers ++ [v.unqualified] =
        (s.receivers ++ [v]).map Variable.unqualified := fun v => by
      rw [List.map_append]
      rfl
    obtain ⟨id, span, ty, kind⟩ := e
    dsimp only
    rw [hlength]
    exact congrArg (fun rs => (_, ({ s with receivers := rs } : State))) (happend ⟨_, ty⟩)

theorem overridesOf_forgets (m : MethodRef) :
    Forgets (List.map Override.unqualified) (overridesOf h m)
      (overridesOf h.outline m.unqualified) := by
  refine .bind (.lift (h.resolve_outline m)) fun os => ?_
  rw [MethodRef.text_unqualified, List.length_map]
  exact .bind (report_forgets _ _) fun _ => .pure rfl

theorem expandCall_forgets (call : Call) (result : Ty) (span : Span) :
    Forgets Replacement.unqualified (expandCall h call result span)
      (expandCall h.outline call.unqualified result.bare span) := by
  have hmethod : call.unqualified.method = call.method.unqualified := by cases call; rfl
  have hreceiver : call.unqualified.receiver = call.receiver.map Expr.unqualified := by
    cases call
    exact unqualifiedOption_eq_map _
  unfold expandCall
  rw [isExempt_outline, hmethod, hreceiver, MethodRef.text_unqualified]
  split
  · exact .pure rfl
  · refine .bind (overridesOf_forgets h call.method) fun os => ?_
    cases os with
    | nil => exact .pure rfl
    | cons o os =>
      cases call.receiver with
      | none => exact .pure rfl
      | some receiver =>
        simp only [List.map_cons, Option.map_some, List.length_cons, List.length_map]
        refine .bind (report_forgets _ _) fun _ => ?_
        refine .bind (bindReceiver_forgets receiver) fun receiver => ?_
        exact .pure (chain_unqualified h call result span receiver (o :: os))

/-! ## Expressions -/

mutual

theorem expandExpr_forgets (e : Expr) :
    Forgets Expr.unqualified (expandExpr h e) (expandExpr h.outline e.unqualified) := by
  obtain ⟨id, span, ty, kind⟩ := e
  rw [Expr.unqualified]
  cases kind with
  | call call =>
    rw [ExprKind.unqualified, expandExpr, expandExpr]
    refine .bind (expandOperands_forgets call) fun call => ?_
    refine .bind (expandCall_forgets h call ty span) fun replacement => ?_
    cases replacement with
    | expression chain => exact .bind count_forgets fun _ => .pure rfl
    | _ => exact .pure rfl
  | field object field =>
    rw [ExprKind.unqualified, expandExpr, expandExpr]
    exact .bind (expandOption_forgets object) fun _ => .pure rfl
  | unary _ e | getType e | conversion e =>
    rw [ExprKind.unqualified, expandExpr, expandExpr]
    exact .bind (expandExpr_forgets e) fun _ => .pure rfl
  | binary op lhs rhs =>
    rw [ExprKind.unqualified, expandExpr, expandExpr]
    exact .bind (expandExpr_forgets lhs) fun _ => .bind (expandExpr_forgets rhs) fun _ => .pure rfl
  | conditional cond thenExpr elseExpr =>
    rw [ExprKind.unqualified, expandExpr, expandExpr]
    exact .bind (expandExpr_forgets cond) fun _ => .bind (expandExpr_forgets thenExpr) fun _ =>
      .bind (expandExpr_forgets elseExpr) fun _ => .pure rfl
  | assign target value =>
    rw [ExprKind.unqualified, expandExpr, expandExpr]
    exact .bind (expandTarget_forgets target) fun _ =>
      .bind (expandExpr_forgets value) fun _ => .pure rfl
  | target target =>
    rw [ExprKind.unqualified, expandExpr, expandExpr]
    exact .bind (expandTarget_forgets target) fun _ => .pure rfl
  | new type ctor args =>
    rw [ExprKind.unqualified, expandExpr, expandExpr]
    exact .bind (expandAll_forgets args) fun _ => .pure rfl
  | literal | var | self | typeOf | defaultValue | pop =>
    rw [ExprKind.unqualified]
    unfold expandExpr
    exact .pure rfl

theorem expandOperands_forgets (call : Call) :
    Forgets Call.unqualified (expandOperands h call)
      (expandOperands h.outline call.unqualified) := by
  obtain ⟨method, receiver, args, isVirtual⟩ := call
  rw [Call.unqualified, expandOperands, expandOperands]
  exact .bind (expandOption_forgets receiver) fun _ =>
    .bind (expandAll_forgets args) fun _ => .pure rfl

theorem expandTarget_forgets (target : Target) :
    Forgets Target.unqualified (expandTarget h target)
      (expandTarget h.outline target.unqualified) := by
  cases target with
  | var name =>
    rw [Target.unqualified, expandTarget, expandTarget]
    exact .pure rfl
  | field object field =>
    rw [Target.unqualified, expandTarget, expandTarget]
    exact .bind (expandOption_forgets object) fun _ => .pure rfl

theorem expandOption_forgets (e : Option Expr) :
    Forgets unqualifiedOption (expandOption h e)
      (expandOption h.outline (unqualifiedOption e)) := by
  cases e with
  | none =>
    rw [unqualifiedOption, expandOption, expandOption]
    exact .pure rfl
  | some e =>
    rw [unqualifiedOption, expandOption, expandOption]
    exact .bind (expandExpr_forgets e) fun _ => .pure rfl

theorem expandAll_forgets (es : List Expr) :
    Forgets unqualifiedAll (expandAll h es) (expandAll h.outline (unqualifiedAll es)) := by
  cases es with
  | nil =>
    rw [unqualifiedAll, expandAll, expandAll]
    exact .pure rfl
  | cons e es =>
    rw [unqualifiedAll, expandAll, expandAll]
    exact .bind (expandExpr_forgets e) fun _ => .bind (expandAll_forgets es) fun _ => .pure rfl

end

/-! ## Statements -/

theorem voidCall?_unqualified (e : Expr) :
    voidCall? e.unqualified = (voidCall? e).map Call.unqualified := by
  obtain ⟨id, span, ty, kind⟩ := e
  cases kind with
  | call call => cases ty <;> rfl
  | _ => rfl

theorem expandExprStmt_forgets (id : UInt32) (span : Span) (e : Expr) :
    Forgets Stmt.unqualified (expandExprStmt h id span e)
      (expandExprStmt h.outline id span e.unqualified) := by
  unfold expandExprStmt
  rw [voidCall?_unqualified]
  cases voidCall? e with
  | none => exact .bind (expandExpr_forgets h e) fun _ => .pure rfl
  | some call =>
    refine .bind (expandOperands_forgets h call) fun call => ?_
    refine .bind (expandCall_forgets h call .void span) fun replacement => ?_
    cases e
    cases replacement with
    | statement chain => exact .bind count_forgets fun _ => .pure rfl
    | _ => exact .pure rfl

mutual

theorem expandStmt_forgets (s : Stmt) :
    Forgets Stmt.unqualified (expandStmt h s) (expandStmt h.outline s.unqualified) := by
  obtain ⟨id, span, kind⟩ := s
  rw [Stmt.unqualified]
  cases kind with
  | block stmts =>
    rw [StmtKind.unqualified, expandStmt, expandStmt]
    exact .bind (expandStmts_forgets stmts) fun _ => .pure rfl
  | assert e | assume e | throw e | push e =>
    rw [StmtKind.unqualified, expandStmt, expandStmt]
    exact .bind (expandExpr_forgets h e) fun _ => .pure rfl
  | conditional cond thenBranch elseBranch =>
    rw [StmtKind.unqualified, expandStmt, expandStmt]
    exact .bind (expandExpr_forgets h cond) fun _ => .bind (expandStmt_forgets thenBranch) fun _ =>
      .bind (expandStmt_forgets elseBranch) fun _ => .pure rfl
  | expression e =>
    rw [StmtKind.unqualified, expandStmt, expandStmt]
    exact expandExprStmt_forgets h id span e
  | whileLoop cond body | doUntil body cond =>
    rw [StmtKind.unqualified, expandStmt, expandStmt]
    exact .bind (expandExpr_forgets h cond) fun _ =>
      .bind (expandStmt_forgets body) fun _ => .pure rfl
  | forLoop init cond step body =>
    rw [StmtKind.unqualified, expandStmt, expandStmt]
    exact .bind (expandStmts_forgets init) fun _ => .bind (expandStmts_forgets step) fun _ =>
      .bind (expandOption_forgets h cond) fun _ =>
        .bind (expandStmt_forgets body) fun _ => .pure rfl
  | forEach item collection body =>
    rw [StmtKind.unqualified, expandStmt, expandStmt]
    exact .bind (expandExpr_forgets h collection) fun _ =>
      .bind (expandStmt_forgets body) fun _ => .pure rfl
  | switch scrutinee cases =>
    rw [StmtKind.unqualified, expandStmt, expandStmt]
    exact .bind (expandExpr_forgets h scrutinee) fun _ =>
      .bind (expandCases_forgets cases) fun _ => .pure rfl
  | localDecl decl init =>
    rw [StmtKind.unqualified, expandStmt, expandStmt]
    exact .bind (expandOption_forgets h init) fun _ => .pure rfl
  | ret value =>
    rw [StmtKind.unqualified, expandStmt, expandStmt]
    exact .bind (expandOption_forgets h value) fun _ => .pure rfl
  | labeled label body =>
    rw [StmtKind.unqualified, expandStmt, expandStmt]
    exact .bind (expandStmt_forgets body) fun _ => .pure rfl
  | tryCatch body catches finalizer =>
    rw [StmtKind.unqualified, expandStmt, expandStmt]
    exact .bind (expandStmt_forgets body) fun _ => .bind (expandCatches_forgets catches) fun _ =>
      .bind (expandStmtOption_forgets finalizer) fun _ => .pure rfl
  | empty | breakLoop | continueLoop | goto | rethrow =>
    rw [StmtKind.unqualified]
    unfold expandStmt
    exact .pure rfl

theorem expandStmts_forgets (ss : List Stmt) :
    Forgets unqualifiedStmts (expandStmts h ss) (expandStmts h.outline (unqualifiedStmts ss)) := by
  cases ss with
  | nil =>
    rw [unqualifiedStmts, expandStmts, expandStmts]
    exact .pure rfl
  | cons s ss =>
    rw [unqualifiedStmts, expandStmts, expandStmts]
    exact .bind (expandStmt_forgets s) fun _ => .bind (expandStmts_forgets ss) fun _ => .pure rfl

theorem expandCases_forgets (cases : List SwitchCase) :
    Forgets unqualifiedCases (expandCases h cases)
      (expandCases h.outline (unqualifiedCases cases)) := by
  cases cases with
  | nil =>
    rw [unqualifiedCases, expandCases, expandCases]
    exact .pure rfl
  | cons case cases =>
    obtain ⟨span, value, body⟩ := case
    rw [unqualifiedCases, expandCases, expandCases]
    exact .bind (expandOption_forgets h value) fun _ => .bind (expandStmts_forgets body) fun _ =>
      .bind (expandCases_forgets cases) fun _ => .pure rfl

theorem expandCatches_forgets (clauses : List CatchClause) :
    Forgets unqualifiedCatches (expandCatches h clauses)
      (expandCatches h.outline (unqualifiedCatches clauses)) := by
  cases clauses with
  | nil =>
    rw [unqualifiedCatches, expandCatches, expandCatches]
    exact .pure rfl
  | cons clause clauses =>
    obtain ⟨span, type, binding, body⟩ := clause
    rw [unqualifiedCatches, expandCatches, expandCatches]
    exact .bind (expandStmt_forgets body) fun _ =>
      .bind (expandCatches_forgets clauses) fun _ => .pure rfl

theorem expandStmtOption_forgets (s : Option Stmt) :
    Forgets unqualifiedStmtOption (expandStmtOption h s)
      (expandStmtOption h.outline (unqualifiedStmtOption s)) := by
  cases s with
  | none =>
    rw [unqualifiedStmtOption, expandStmtOption, expandStmtOption]
    exact .pure rfl
  | some s =>
    rw [unqualifiedStmtOption, expandStmtOption, expandStmtOption]
    exact .bind (expandStmt_forgets s) fun _ => .pure rfl

end

/-! ## Bodies -/

theorem declareAll_unqualified (receivers : List Variable) (body : Stmt) :
    declareAll (receivers.map Variable.unqualified) body.unqualified =
      (declareAll receivers body).unqualified := by
  have hflatten : flatten body.unqualified = unqualifiedStmts (flatten body) := by
    obtain ⟨id, span, kind⟩ := body
    cases kind <;> rfl
  have happend : ∀ ss : List Stmt,
      (receivers.map Variable.unqualified).map declare ++ unqualifiedStmts ss =
        unqualifiedStmts (receivers.map declare ++ ss) := by
    intro ss
    rw [unqualifiedStmts_eq_map, unqualifiedStmts_eq_map, List.map_append, List.map_map,
      List.map_map]
    rfl
  unfold declareAll
  rw [hflatten, happend, List.isEmpty_map]
  cases body
  split <;> rfl

/-- The expansion of a body without modules is the expansion of the body, without modules. -/
theorem transform_forgets (body : Stmt) :
    Forgets Stmt.unqualified (transform h body) (transform h.outline body.unqualified) := by
  refine .bind (expandStmt_forgets h body) fun body s => ?_
  exact congrArg (fun b => (Except.ok b, ({ s with receivers := [] } : State)))
    (declareAll_unqualified s.receivers body)

end Unwind.Dispatch
