import Unwind.Dispatch.Expansion
import Unwind.Proofs.Lowering.Steps

/-!
# Expansions that agree

Which calls are replaced, and by what, is decided by three questions to the hierarchy: whether a
call is exempt, what a method resolves to, and what a method returns. Hierarchies that answer them
alike (`Agree`) expand every body alike, whatever the logs hold when they begin (`transform_same`).
-/

namespace Unwind.Dispatch

open Source
open Lowering (run_bind)

/-- Hierarchies that answer every question of an expansion alike. -/
structure Agree (h h' : Hierarchy) : Prop where
  isExempt : ∀ call, isExempt h' call = isExempt h call
  resolve : ∀ m, h'.resolve m = h.resolve m
  resultType : ∀ m fallback, resultType h' m fallback = resultType h m fallback

theorem Agree.refl (h : Hierarchy) : Agree h h := ⟨fun _ => rfl, fun _ => rfl, fun _ _ => rfl⟩

/-- The result and the state that a step leads to from `s`, whatever is in the log. -/
def Leads {α : Type} (x : Expanding α) (s : State) (r : Except Fault α) (s' : State) : Prop :=
  ∀ log, ∃ log', x.run { s with log } = (r, { s' with log := log' })

/-- Two steps that lead to the same from everywhere. -/
def Same {α : Type} (x y : Expanding α) : Prop :=
  ∀ s, ∃ r s', Leads x s r s' ∧ Leads y s r s'

theorem Leads.bind {α β : Type} {x : Expanding α} {f : α → Expanding β} {s s₁ s₂ : State} {a : α}
    {r : Except Fault β} (h : Leads x s (.ok a) s₁) (h' : Leads (f a) s₁ r s₂) :
    Leads (x >>= f) s r s₂ := by
  intro log
  obtain ⟨log₁, hx⟩ := h log
  rw [run_bind, hx]
  exact h' log₁

theorem Leads.bind_error {α β : Type} {x : Expanding α} {f : α → Expanding β} {s s₁ : State}
    {e : Fault} (h : Leads x s (.error e) s₁) : Leads (x >>= f) s (.error e) s₁ := by
  intro log
  obtain ⟨log₁, hx⟩ := h log
  rw [run_bind, hx]
  exact ⟨log₁, rfl⟩

namespace Same

variable {α β : Type}

/-- One step on both sides. -/
theorem of_leads {x : Expanding α} (h : ∀ s, ∃ r s', Leads x s r s') : Same x x := by
  intro s
  obtain ⟨r, s', hx⟩ := h s
  exact ⟨r, s', hx, hx⟩

theorem pure (a : α) : Same (Pure.pure a) (Pure.pure a) :=
  of_leads fun s => ⟨.ok a, s, fun log => ⟨log, rfl⟩⟩

theorem bind {x y : Expanding α} {f g : α → Expanding β} (h : Same x y)
    (h' : ∀ a, Same (f a) (g a)) : Same (x >>= f) (y >>= g) := by
  intro s
  obtain ⟨r, s₁, hx, hy⟩ := h s
  cases r with
  | error e => exact ⟨.error e, s₁, hx.bind_error, hy.bind_error⟩
  | ok a =>
    obtain ⟨r, s₂, hf, hg⟩ := h' a s₁
    exact ⟨r, s₂, hx.bind hf, hy.bind hg⟩

theorem lift (x : Except Fault α) : Same (liftM x : Expanding α) (liftM x) := by
  cases x with
  | ok a => exact .pure a
  | error e => exact of_leads fun s => ⟨.error e, s, fun log => ⟨log, rfl⟩⟩

theorem report (level : Log.Level) (message : String) :
    Same (Dispatch.report level message) (Dispatch.report level message) :=
  of_leads fun s => ⟨.ok (), s, fun log => ⟨log.add level message, rfl⟩⟩

theorem count : Same Dispatch.count Dispatch.count :=
  of_leads fun s => ⟨.ok (), { s with replaced := s.replaced + 1 }, fun log => ⟨log, rfl⟩⟩

theorem bindReceiver (receiver : Expr) :
    Same (Dispatch.bindReceiver receiver) (Dispatch.bindReceiver receiver) := by
  unfold Dispatch.bindReceiver
  split
  · exact .pure _
  · exact .pure _
  · refine of_leads fun s => ?_
    let name := receiverName s.receivers.length
    exact ⟨.ok ⟨(Expr.assign (.var name) receiver).withSpan receiver.span,
      (Expr.var name receiver.ty).withSpan receiver.span⟩,
      { s with receivers := s.receivers ++ [⟨name, receiver.ty⟩] }, fun log => ⟨log, rfl⟩⟩

end Same

section

variable {h h' : Hierarchy}

theorem chain_eq (ha : Agree h h') (call : Call) (result : Ty) (span : Span) (receiver : Receiver)
    (os : List Override) : chain h' call result span receiver os =
      chain h call result span receiver os := by
  have hbranch : branch h' call receiver.later result span =
      branch h call receiver.later result span := by
    funext o
    simp only [branch, ha.resultType]
  simp only [chain, hbranch]

theorem expandCall_same (ha : Agree h h') (call : Call) (result : Ty) (span : Span) :
    Same (expandCall h call result span) (expandCall h' call result span) := by
  unfold expandCall
  rw [ha.isExempt]
  split
  · exact .pure _
  · have hos : Same (overridesOf h call.method) (overridesOf h' call.method) := by
      unfold overridesOf
      rw [ha.resolve]
      exact .bind (.lift _) fun os => .bind (.report _ _) fun _ => .pure _
    refine .bind hos fun os => ?_
    split
    · exact .pure _
    · exact .pure _
    · refine .bind (.report _ _) fun _ => .bind (.bindReceiver _) fun receiver => ?_
      rw [chain_eq ha]
      exact .pure _

mutual

theorem expandExpr_same (ha : Agree h h') (e : Expr) : Same (expandExpr h e) (expandExpr h' e) := by
  obtain ⟨id, span, ty, kind⟩ := e
  cases kind with
  | call call =>
    rw [expandExpr, expandExpr]
    refine .bind (expandOperands_same ha call) fun call => ?_
    refine .bind (expandCall_same ha call ty span) fun replacement => ?_
    cases replacement with
    | expression chain => exact .bind .count fun _ => .pure _
    | _ => exact .pure _
  | field object field =>
    rw [expandExpr, expandExpr]
    exact .bind (expandOption_same ha object) fun _ => .pure _
  | unary op e | getType e | conversion e ty =>
    rw [expandExpr, expandExpr]
    exact .bind (expandExpr_same ha e) fun _ => .pure _
  | binary op lhs rhs =>
    rw [expandExpr, expandExpr]
    exact .bind (expandExpr_same ha lhs) fun _ => .bind (expandExpr_same ha rhs) fun _ => .pure _
  | conditional cond thenExpr elseExpr =>
    rw [expandExpr, expandExpr]
    exact .bind (expandExpr_same ha cond) fun _ => .bind (expandExpr_same ha thenExpr) fun _ =>
      .bind (expandExpr_same ha elseExpr) fun _ => .pure _
  | assign target value =>
    rw [expandExpr, expandExpr]
    exact .bind (expandTarget_same ha target) fun _ => .bind (expandExpr_same ha value) fun _ =>
      .pure _
  | target target =>
    rw [expandExpr, expandExpr]
    exact .bind (expandTarget_same ha target) fun _ => .pure _
  | new type ctor args =>
    rw [expandExpr, expandExpr]
    exact .bind (expandAll_same ha args) fun _ => .pure _
  | _ =>
    simp only [expandExpr]
    exact .pure _

theorem expandOperands_same (ha : Agree h h') (call : Call) :
    Same (expandOperands h call) (expandOperands h' call) := by
  obtain ⟨method, receiver, args, isVirtual⟩ := call
  rw [expandOperands, expandOperands]
  exact .bind (expandOption_same ha receiver) fun _ => .bind (expandAll_same ha args) fun _ =>
    .pure _

theorem expandTarget_same (ha : Agree h h') (target : Target) :
    Same (expandTarget h target) (expandTarget h' target) := by
  cases target with
  | var name =>
    rw [expandTarget, expandTarget]
    exact .pure _
  | field object field =>
    rw [expandTarget, expandTarget]
    exact .bind (expandOption_same ha object) fun _ => .pure _

theorem expandOption_same (ha : Agree h h') (e : Option Expr) :
    Same (expandOption h e) (expandOption h' e) := by
  cases e with
  | none =>
    rw [expandOption, expandOption]
    exact .pure _
  | some e =>
    rw [expandOption, expandOption]
    exact .bind (expandExpr_same ha e) fun _ => .pure _

theorem expandAll_same (ha : Agree h h') (es : List Expr) :
    Same (expandAll h es) (expandAll h' es) := by
  cases es with
  | nil =>
    rw [expandAll, expandAll]
    exact .pure _
  | cons e es =>
    rw [expandAll, expandAll]
    exact .bind (expandExpr_same ha e) fun _ => .bind (expandAll_same ha es) fun _ => .pure _

end

theorem expandExprStmt_same (ha : Agree h h') (id : UInt32) (span : Span) (e : Expr) :
    Same (expandExprStmt h id span e) (expandExprStmt h' id span e) := by
  unfold expandExprStmt
  cases voidCall? e with
  | none => exact .bind (expandExpr_same ha e) fun _ => .pure _
  | some call =>
    refine .bind (expandOperands_same ha call) fun call => ?_
    refine .bind (expandCall_same ha call .void span) fun replacement => ?_
    cases replacement with
    | statement chain => exact .bind .count fun _ => .pure _
    | _ => exact .pure _

mutual

theorem expandStmt_same (ha : Agree h h') (s : Stmt) :
    Same (expandStmt h s) (expandStmt h' s) := by
  obtain ⟨id, span, kind⟩ := s
  cases kind with
  | block stmts =>
    rw [expandStmt, expandStmt]
    exact .bind (expandStmts_same ha stmts) fun _ => .pure _
  | assert e | assume e | throw e | push e =>
    rw [expandStmt, expandStmt]
    exact .bind (expandExpr_same ha e) fun _ => .pure _
  | conditional cond thenBranch elseBranch =>
    rw [expandStmt, expandStmt]
    exact .bind (expandExpr_same ha cond) fun _ => .bind (expandStmt_same ha thenBranch) fun _ =>
      .bind (expandStmt_same ha elseBranch) fun _ => .pure _
  | expression e =>
    rw [expandStmt, expandStmt]
    exact expandExprStmt_same ha id span e
  | whileLoop cond body =>
    rw [expandStmt, expandStmt]
    exact .bind (expandExpr_same ha cond) fun _ => .bind (expandStmt_same ha body) fun _ => .pure _
  | doUntil body cond =>
    rw [expandStmt, expandStmt]
    exact .bind (expandExpr_same ha cond) fun _ => .bind (expandStmt_same ha body) fun _ => .pure _
  | forLoop init cond step body =>
    rw [expandStmt, expandStmt]
    exact .bind (expandStmts_same ha init) fun _ => .bind (expandStmts_same ha step) fun _ =>
      .bind (expandOption_same ha cond) fun _ => .bind (expandStmt_same ha body) fun _ => .pure _
  | forEach item collection body =>
    rw [expandStmt, expandStmt]
    exact .bind (expandExpr_same ha collection) fun _ => .bind (expandStmt_same ha body) fun _ =>
      .pure _
  | switch scrutinee cases =>
    rw [expandStmt, expandStmt]
    exact .bind (expandExpr_same ha scrutinee) fun _ => .bind (expandCases_same ha cases) fun _ =>
      .pure _
  | localDecl decl init =>
    rw [expandStmt, expandStmt]
    exact .bind (expandOption_same ha init) fun _ => .pure _
  | ret value =>
    rw [expandStmt, expandStmt]
    exact .bind (expandOption_same ha value) fun _ => .pure _
  | labeled label body =>
    rw [expandStmt, expandStmt]
    exact .bind (expandStmt_same ha body) fun _ => .pure _
  | tryCatch body catches finalizer =>
    rw [expandStmt, expandStmt]
    exact .bind (expandStmt_same ha body) fun _ => .bind (expandCatches_same ha catches) fun _ =>
      .bind (expandStmtOption_same ha finalizer) fun _ => .pure _
  | _ =>
    simp only [expandStmt]
    exact .pure _

theorem expandStmts_same (ha : Agree h h') (ss : List Stmt) :
    Same (expandStmts h ss) (expandStmts h' ss) := by
  cases ss with
  | nil =>
    rw [expandStmts, expandStmts]
    exact .pure _
  | cons s ss =>
    rw [expandStmts, expandStmts]
    exact .bind (expandStmt_same ha s) fun _ => .bind (expandStmts_same ha ss) fun _ => .pure _

theorem expandCases_same (ha : Agree h h') (cases : List SwitchCase) :
    Same (expandCases h cases) (expandCases h' cases) := by
  cases cases with
  | nil =>
    rw [expandCases, expandCases]
    exact .pure _
  | cons case cases =>
    obtain ⟨span, value, body⟩ := case
    rw [expandCases, expandCases]
    exact .bind (expandOption_same ha value) fun _ => .bind (expandStmts_same ha body) fun _ =>
      .bind (expandCases_same ha cases) fun _ => .pure _

theorem expandCatches_same (ha : Agree h h') (clauses : List CatchClause) :
    Same (expandCatches h clauses) (expandCatches h' clauses) := by
  cases clauses with
  | nil =>
    rw [expandCatches, expandCatches]
    exact .pure _
  | cons clause clauses =>
    obtain ⟨span, type, binding, body⟩ := clause
    rw [expandCatches, expandCatches]
    exact .bind (expandStmt_same ha body) fun _ => .bind (expandCatches_same ha clauses) fun _ =>
      .pure _

theorem expandStmtOption_same (ha : Agree h h') (s : Option Stmt) :
    Same (expandStmtOption h s) (expandStmtOption h' s) := by
  cases s with
  | none =>
    rw [expandStmtOption, expandStmtOption]
    exact .pure _
  | some s =>
    rw [expandStmtOption, expandStmtOption]
    exact .bind (expandStmt_same ha s) fun _ => .pure _

end

/-- Hierarchies that agree expand a body alike. -/
theorem transform_same (ha : Agree h h') (body : Stmt) :
    Same (transform h body) (transform h' body) := by
  refine .bind (expandStmt_same ha body) fun body => ?_
  exact .of_leads fun s => ⟨.ok (declareAll s.receivers body), { s with receivers := [] },
    fun log => ⟨log, rfl⟩⟩

end

end Unwind.Dispatch
