import Mathlib
import Unwind.Proofs.Dispatch.Origins
import Unwind.Proofs.Hierarchy.Overrides

/-!
# Expanding twice

When void calls are whole statements, every call that an expanded body still marks as virtual is
settled: no position is missed. A body of settled calls is its own expansion, and nothing is counted
(`expandStmt_leaves`). Expanding a second time therefore changes nothing
(`transform_idempotent`).
-/

namespace Unwind.Dispatch

open Source
open Lowering (Runs)

/-! ## Steps that change nothing -/

/-- The step gives `a` from every state, and changes nothing but the log. -/
def Leaves {α : Type} (x : Expanding α) (a : α) : Prop := ∀ s, Leads x s (.ok a) s

section

variable {α β : Type} {x : Expanding α} {f : α → Expanding β} {a : α} {b : β}

theorem Leaves.pure : Leaves (Pure.pure a) a := fun _ log => ⟨log, rfl⟩

theorem Leaves.bind (hx : Leaves x a) (hf : Leaves (f a) b) : Leaves (x >>= f) b :=
  fun s => (hx s).bind (hf s)

end

/-- The node is a settled call if it is a call at all. -/
def SettledNode (h : Hierarchy) (e : Expr) : Prop := ∀ call, e.call? = some call → Settled h call

section

variable {h : Hierarchy}

/-! ## Expressions -/

mutual

theorem expandExpr_leaves (e : Expr) (he : ∀ n ∈ e.nodes, SettledNode h n) :
    Leaves (expandExpr h e) e := by
  obtain ⟨id, span, ty, kind⟩ := e
  obtain ⟨hown, hin⟩ := List.forall_mem_cons.mp he
  cases kind with
  | literal | var | self | typeOf | defaultValue | pop =>
    unfold expandExpr
    exact .pure
  | field object field =>
    unfold expandExpr
    exact (expandOption_leaves object hin).bind .pure
  | unary op e =>
    unfold expandExpr
    exact (expandExpr_leaves e hin).bind .pure
  | getType e =>
    unfold expandExpr
    exact (expandExpr_leaves e hin).bind .pure
  | conversion e newTy =>
    unfold expandExpr
    exact (expandExpr_leaves e hin).bind .pure
  | target target =>
    unfold expandExpr
    exact (expandTarget_leaves target hin).bind .pure
  | binary op lhs rhs =>
    obtain ⟨hl, hr⟩ := List.forall_mem_append.mp hin
    unfold expandExpr
    exact (expandExpr_leaves lhs hl).bind ((expandExpr_leaves rhs hr).bind .pure)
  | conditional cond thenExpr elseExpr =>
    obtain ⟨hc, hte⟩ := List.forall_mem_append.mp hin
    obtain ⟨ht, he⟩ := List.forall_mem_append.mp hte
    unfold expandExpr
    exact (expandExpr_leaves cond hc).bind ((expandExpr_leaves thenExpr ht).bind
      ((expandExpr_leaves elseExpr he).bind .pure))
  | assign target value =>
    obtain ⟨ht, hv⟩ := List.forall_mem_append.mp hin
    unfold expandExpr
    exact (expandTarget_leaves target ht).bind ((expandExpr_leaves value hv).bind .pure)
  | call call =>
    -- the operands come back as they were, so that the call looked up behind them is this one
    have hcall : Leaves (expandCall h call ty span) .unchanged :=
      expandCall_settled (hown call rfl) ty span
    unfold expandExpr
    exact (expandOperands_leaves call hin).bind (hcall.bind .pure)
  | new type ctor args =>
    unfold expandExpr
    exact (expandAll_leaves args hin).bind .pure

theorem expandOperands_leaves (call : Call) (hcall : ∀ n ∈ call.nodes, SettledNode h n) :
    Leaves (expandOperands h call) call := by
  obtain ⟨method, receiver, args, isVirtual⟩ := call
  obtain ⟨hr, ha⟩ := List.forall_mem_append.mp hcall
  unfold expandOperands
  exact (expandOption_leaves receiver hr).bind ((expandAll_leaves args ha).bind .pure)

theorem expandTarget_leaves (target : Target) (ht : ∀ n ∈ target.nodes, SettledNode h n) :
    Leaves (expandTarget h target) target := by
  cases target with
  | var name =>
    unfold expandTarget
    exact .pure
  | field object field =>
    unfold expandTarget
    exact (expandOption_leaves object ht).bind .pure

theorem expandOption_leaves (e : Option Expr)
    (he : ∀ n ∈ nodesInOption e, SettledNode h n) :
    Leaves (expandOption h e) e := by
  cases e with
  | none =>
    unfold expandOption
    exact .pure
  | some e =>
    unfold expandOption
    exact (expandExpr_leaves e he).bind .pure

theorem expandAll_leaves (es : List Expr) (hes : ∀ n ∈ nodesInAll es, SettledNode h n) :
    Leaves (expandAll h es) es := by
  cases es with
  | nil =>
    unfold expandAll
    exact .pure
  | cons e es =>
    obtain ⟨he, hes⟩ := List.forall_mem_append.mp hes
    unfold expandAll
    exact (expandExpr_leaves e he).bind ((expandAll_leaves es hes).bind .pure)

end

/-! ## Statements -/

theorem expandExprStmt_leaves {id : UInt32} {span : Span} {e : Expr}
    (he : ∀ n ∈ e.nodes, SettledNode h n) :
    Leaves (expandExprStmt h id span e) ⟨id, span, .expression e⟩ := by
  unfold expandExprStmt
  split
  · next call hcall =>
    obtain ⟨eid, espan, ty, kind⟩ := e
    -- the call is looked up as the statement; its node is not visited as an operand
    obtain ⟨rfl, -⟩ := voidCall?_eq_some.mp hcall
    obtain ⟨hown, hin⟩ := List.forall_mem_cons.mp he
    have hsettled : Leaves (expandCall h call .void span) .unchanged :=
      expandCall_settled (hown call rfl) .void span
    exact (expandOperands_leaves call hin).bind (hsettled.bind .pure)
  · exact (expandExpr_leaves e he).bind .pure

/-- A dispatched call that is a whole statement becomes its cascade, and is counted. -/
theorem expandExprStmt_dispatched (id : UInt32) (span : Span) {e object : Expr} {call : Call}
    {s : State} {os : List Override} {receiver : Receiver} {vs : List Variable}
    (hvoid : voidCall? e = some call) (hin : ∀ n ∈ call.nodes, SettledNode h n)
    (hd : Dispatched h call s.receivers object os receiver vs) :
    ∃ stmt, chain h call .void span receiver os = .statement stmt ∧
      Leads (expandExprStmt h id span e) s (.ok stmt)
        { s with receivers := vs, replaced := s.replaced + 1 } := by
  refine ⟨_, rfl, ?_⟩
  unfold expandExprStmt
  rw [hvoid]
  refine (expandOperands_leaves call hin s).bind ((hd.leads .void span).bind ?_)
  exact fun log => ⟨log, rfl⟩

mutual

theorem expandStmt_leaves (s : Stmt)
    (hs : ∀ t ∈ s.statements, ∀ n ∈ t.kind.nodes, SettledNode h n) :
    Leaves (expandStmt h s) s := by
  have hown := hs s s.mem_statements
  have hin : ∀ t ∈ s.statements.tail, ∀ n ∈ t.kind.nodes, SettledNode h n :=
    fun t ht => hs t (List.mem_of_mem_tail ht)
  obtain ⟨id, span, kind⟩ := s
  unfold expandStmt
  cases kind with
  | empty | breakLoop | continueLoop | goto | rethrow => exact .pure
  | block stmts => exact (expandStmts_leaves stmts hin).bind .pure
  | assert e => exact (expandExpr_leaves e (List.forall_mem_append.mp hown).1).bind .pure
  | assume e => exact (expandExpr_leaves e (List.forall_mem_append.mp hown).1).bind .pure
  | throw e => exact (expandExpr_leaves e (List.forall_mem_append.mp hown).1).bind .pure
  | push e => exact (expandExpr_leaves e (List.forall_mem_append.mp hown).1).bind .pure
  | conditional cond thenBranch elseBranch =>
    obtain ⟨ht, he⟩ := List.forall_mem_append.mp hin
    exact (expandExpr_leaves cond (List.forall_mem_append.mp hown).1).bind
      ((expandStmt_leaves thenBranch ht).bind ((expandStmt_leaves elseBranch he).bind .pure))
  | expression e => exact expandExprStmt_leaves (List.forall_mem_append.mp hown).1
  | whileLoop cond body =>
    exact (expandExpr_leaves cond (List.forall_mem_append.mp hown).1).bind
      ((expandStmt_leaves body hin).bind .pure)
  | doUntil body cond =>
    exact (expandExpr_leaves cond (List.forall_mem_append.mp hown).1).bind
      ((expandStmt_leaves body hin).bind .pure)
  | forLoop init cond step body =>
    obtain ⟨hi, hsb⟩ := List.forall_mem_append.mp hin
    obtain ⟨hs, hb⟩ := List.forall_mem_append.mp hsb
    exact (expandStmts_leaves init hi).bind ((expandStmts_leaves step hs).bind
      ((expandOption_leaves cond (by rwa [nodesInOption_eq])).bind
        ((expandStmt_leaves body hb).bind .pure)))
  | forEach item collection body =>
    exact (expandExpr_leaves collection (List.forall_mem_append.mp hown).1).bind
      ((expandStmt_leaves body hin).bind .pure)
  | switch scrutinee cases =>
    obtain ⟨hscrutinee, hvalues⟩ := List.forall_mem_append.mp hown
    exact (expandExpr_leaves scrutinee hscrutinee).bind
      ((expandCases_leaves cases hvalues hin).bind .pure)
  | localDecl v e => exact (expandOption_leaves e (by rwa [nodesInOption_eq])).bind .pure
  | ret e => exact (expandOption_leaves e (by rwa [nodesInOption_eq])).bind .pure
  | labeled label body => exact (expandStmt_leaves body hin).bind .pure
  | tryCatch body catches finalizer =>
    obtain ⟨hb, hcf⟩ := List.forall_mem_append.mp hin
    obtain ⟨hc, hf⟩ := List.forall_mem_append.mp hcf
    exact (expandStmt_leaves body hb).bind ((expandCatches_leaves catches hc).bind
      ((expandStmtOption_leaves finalizer hf).bind .pure))

theorem expandStmts_leaves (ss : List Stmt)
    (hs : ∀ t ∈ statementsIn ss, ∀ n ∈ t.kind.nodes, SettledNode h n) :
    Leaves (expandStmts h ss) ss := by
  cases ss with
  | nil =>
    unfold expandStmts
    exact .pure
  | cons s ss =>
    obtain ⟨hs, hss⟩ := List.forall_mem_append.mp hs
    unfold expandStmts
    exact (expandStmt_leaves s hs).bind ((expandStmts_leaves ss hss).bind .pure)

theorem expandCases_leaves (cases : List SwitchCase)
    (hvalues : ∀ n ∈ caseNodes cases, SettledNode h n)
    (hs : ∀ t ∈ statementsInCases cases, ∀ n ∈ t.kind.nodes, SettledNode h n) :
    Leaves (expandCases h cases) cases := by
  cases cases with
  | nil =>
    unfold expandCases
    exact .pure
  | cons case cases =>
    obtain ⟨span, value, body⟩ := case
    obtain ⟨hb, hc⟩ := List.forall_mem_append.mp hs
    rw [caseNodes_cons] at hvalues
    obtain ⟨hv, hvs⟩ := List.forall_mem_append.mp hvalues
    unfold expandCases
    exact (expandOption_leaves value hv).bind ((expandStmts_leaves body hb).bind
      ((expandCases_leaves cases hvs hc).bind .pure))

theorem expandCatches_leaves (clauses : List CatchClause)
    (hs : ∀ t ∈ statementsInCatches clauses, ∀ n ∈ t.kind.nodes, SettledNode h n) :
    Leaves (expandCatches h clauses) clauses := by
  cases clauses with
  | nil =>
    unfold expandCatches
    exact .pure
  | cons clause clauses =>
    obtain ⟨span, type, binding, body⟩ := clause
    obtain ⟨hb, hc⟩ := List.forall_mem_append.mp hs
    unfold expandCatches
    exact (expandStmt_leaves body hb).bind ((expandCatches_leaves clauses hc).bind .pure)

theorem expandStmtOption_leaves (s : Option Stmt)
    (hs : ∀ t ∈ statementsInOption s, ∀ n ∈ t.kind.nodes, SettledNode h n) :
    Leaves (expandStmtOption h s) s := by
  cases s with
  | none =>
    unfold expandStmtOption
    exact .pure
  | some s =>
    unfold expandStmtOption
    exact (expandStmt_leaves s hs).bind .pure

end

/-! ## Bodies -/

section

variable {stmt stmt' : Stmt} {ss ss' : List Stmt} {s s₁ s₂ : State}

theorem Leads.cons (hstmt : Leads (expandStmt h stmt) s (.ok stmt') s₁)
    (hrest : Leads (expandStmts h ss) s₁ (.ok ss') s₂) :
    Leads (expandStmts h (stmt :: ss)) s (.ok (stmt' :: ss')) s₂ :=
  hstmt.bind (hrest.bind fun log => ⟨log, rfl⟩)

theorem Leads.singleton (hstmt : Leads (expandStmt h stmt) s (.ok stmt') s₁) :
    Leads (expandStmts h [stmt]) s (.ok [stmt']) s₁ :=
  hstmt.bind fun log => ⟨log, rfl⟩

theorem Leads.block (hstmts : Leads (expandStmts h ss) s (.ok ss') s₁) :
    Leads (expandStmt h (.block ss)) s (.ok (.block ss')) s₁ :=
  hstmts.bind fun log => ⟨log, rfl⟩

end

/-- What is bound when a body has been expanded is declared in front of it. -/
theorem Leads.transform {body inner : Stmt} {s s' : State}
    (hbody : Leads (expandStmt h body) s (.ok inner) s') :
    Leads (transform h body) s (.ok (declareAll s'.receivers inner))
      { s' with receivers := [] } :=
  hbody.bind fun log => ⟨log, rfl⟩

/-- A body of settled calls is its own expansion. -/
theorem transform_settled {body : Stmt} (hbody : ∀ n ∈ body.nodes, SettledNode h n) {s : State}
    (hs : s.receivers = []) : Leads (transform h body) s (.ok body) s := by
  have hstmt : ∀ t ∈ body.statements, ∀ n ∈ t.kind.nodes, SettledNode h n :=
    fun t ht n hn => hbody n (List.mem_flatMap.mpr ⟨t, ht, hn⟩)
  refine (expandStmt_leaves body hstmt s).bind fun log => ⟨log, ?_⟩
  obtain ⟨receivers, replaced, _⟩ := s
  cases hs
  rfl

/-- Void calls stand as whole statements only. -/
def VoidCallsAreStatements (body : Stmt) : Prop :=
  ∀ t ∈ body.statements, ∀ e ∈ operands t.kind, voidCall? e = none

/-- In an expanded body every call is settled. -/
theorem Transformed.settled {body body' inner : Stmt} {s s' : State} {pending : List Variable}
    (ht : Transformed h body s body' s' pending inner) (hvoid : VoidCallsAreStatements body) :
    ∀ n ∈ body'.nodes, SettledNode h n := by
  intro n hn call hcall
  cases ht.origin hvoid n hn with
  | kept _ _ hnone => exact absurd hcall (by simp [hnone])
  | settled hcall' hsettled => exact Option.some.inj (hcall'.symm.trans hcall) ▸ hsettled
  -- a void call in the place of an operand is the one position that is left out
  | void hnone hsome => exact absurd hsome (by simp [hnone])
  | made _ hdirect => exact settled_of_not_isVirtual h (hdirect call hcall)

/-- Where void calls are whole statements, an expansion leaves no position out: every call that is
still virtual stays as it is from any state, because it is exempt or nothing overrides its method.
A second expansion changes nothing and replaces nothing. -/
theorem transform_idempotent (h : Hierarchy) (body body' : Stmt) (s' : State)
    (hvoid : VoidCallsAreStatements body) (hrun : (transform h body).run {} = (.ok body', s')) :
    (∀ e ∈ body'.nodes, ∀ call, e.call? = some call → call.isVirtual = true →
      (isExempt h call = true ∨ h.resolve call.method = .ok []) ∧
        ∀ result span s, ((expandCall h call result span).run s).1 = .ok .unchanged) ∧
      ∃ log, (transform h body').run {} = (.ok body', { receivers := [], replaced := 0, log }) := by
  obtain ⟨pending, inner, ht⟩ := runs_transform hrun
  have hsettled := ht.settled hvoid
  refine ⟨fun e he call hcall _ => ⟨hsettled e he call hcall, fun result span s => ?_⟩, ?_⟩
  · obtain ⟨log, hlog⟩ := expandCall_settled (hsettled e he call hcall) result span s s.log
    exact congrArg Prod.fst hlog
  -- a new expander has nothing pending, so that nothing is declared in front either
  · have hsecond : Leads (transform h body') {} (.ok body') {} := transform_settled hsettled rfl
    exact hsecond #[]

end

/-- A virtual call on the result of another call. -/
def drawCall : Call :=
  .dispatched ⟨⟨"Shape", none⟩, "draw", []⟩
    (.ofCall (.direct ⟨⟨"Scene", none⟩, "current", []⟩ none []) (.named ⟨"Shape", none⟩)) []

/-- A call on the result of another call, and a call on `this`. -/
def drawing (type : String) : Stmt :=
  let current := Expr.ofCall (.direct ⟨⟨"Scene", none⟩, "current", []⟩ none [])
    (.named ⟨"Shape", none⟩)
  let draw (type : String) (receiver : Expr) : Stmt :=
    .expr (.ofCall (.dispatched ⟨⟨type, none⟩, "draw", []⟩ receiver []) .void)
  .block [draw "Shape" current, draw type (.ofKind .self (.named ⟨type, none⟩))]

/-- The call of the same method on `this`. -/
def selfCall (type : String) : Call :=
  .dispatched ⟨⟨type, none⟩, "draw", []⟩ (.ofKind .self (.named ⟨type, none⟩)) []

/-- The state in which the first call is replaced and its receiver bound. -/
def State.drawn (s : State) : State :=
  { s with
    receivers := s.receivers ++ [⟨receiverName s.receivers.length, .named ⟨"Shape", none⟩⟩]
    replaced := s.replaced + 1 }

section

variable {h : Hierarchy} {o : Override} {os : List Override} {type : String}

theorem drawCall_leads (hexempt : isExempt h drawCall = false)
    (hos : h.resolve drawCall.method = .ok (o :: os)) (s : State) :
    ∃ stmt, Leads (expandStmt h (.expr (.ofCall drawCall .void))) s (.ok stmt) s.drawn := by
  have hin : ∀ n ∈ drawCall.nodes, SettledNode h n := by
    rintro n (_ | ⟨_, ⟨⟩⟩) call hcall
    cases hcall
    exact settled_of_not_isVirtual h rfl
  have hd : Dispatched h drawCall s.receivers _ (o :: os) _ _ :=
    ⟨hexempt, rfl, hos, List.cons_ne_nil o os, .named rfl⟩
  obtain ⟨stmt, -, hleads⟩ :=
    expandExprStmt_dispatched _ _ (e := .ofCall drawCall .void) rfl hin hd
  exact ⟨stmt, hleads⟩

/-- Only the first call is replaced when nothing overrides the method of the second. -/
theorem drawing_leads (hexempt : isExempt h drawCall = false)
    (hos : h.resolve drawCall.method = .ok (o :: os)) (hself : Settled h (selfCall type))
    (s : State) : ∃ stmt, Leads (expandStmt h (drawing type)) s (.ok stmt) s.drawn := by
  obtain ⟨first, hfirst⟩ := drawCall_leads hexempt hos s
  have hlast : Leads (expandStmt h (.expr (.ofCall (selfCall type) .void))) s.drawn
      (.ok (.expr (.ofCall (selfCall type) .void))) s.drawn :=
    (expandCall_settled hself .void {} s.drawn).bind fun log => ⟨log, rfl⟩
  exact ⟨_, (hfirst.cons hlast.singleton).block⟩

/-- The method of the second call is unknown. -/
theorem drawing_fails {fault : Fault} (hexempt : isExempt h drawCall = false)
    (hos : h.resolve drawCall.method = .ok (o :: os))
    (hself : isExempt h (selfCall type) = false)
    (hunknown : h.resolve (selfCall type).method = .error fault) (s : State) :
    Leads (expandStmt h (drawing type)) s (.error fault) s.drawn := by
  obtain ⟨first, hfirst⟩ := drawCall_leads hexempt hos s
  have hlast : Leads (expandStmt h (.expr (.ofCall (selfCall type) .void))) s.drawn
      (.error fault) s.drawn :=
    (expandCall_unknown hself hunknown .void {} s.drawn).bind_error
  have hstmts : Leads (expandStmts h [.expr (.ofCall drawCall .void),
      .expr (.ofCall (selfCall type) .void)]) s (.error fault) s.drawn :=
    hfirst.bind (Leads.bind_error hlast.bind_error)
  exact hstmts.bind_error

end

theorem shapes_index : (Hierarchy.ofProgram Hierarchy.shapes).index =
    ⟨[⟨⟨"Shape", none⟩, [⟨"Round", none⟩]⟩, ⟨⟨"Round", none⟩, [⟨"Disk", none⟩]⟩]⟩ := by
  cbv

theorem shapes_draw_not_exempt : isExempt (.ofProgram Hierarchy.shapes) drawCall = false :=
  isExempt_dispatched (by decide) (by decide) (by rw [shapes_index]; decide)

theorem shapes_resolve_draw : (Hierarchy.ofProgram Hierarchy.shapes).resolve drawCall.method =
    .ok [⟨⟨"Round", none⟩, ⟨⟨"Round", none⟩, "draw", []⟩⟩,
      ⟨⟨"Disk", none⟩, ⟨⟨"Round", none⟩, "draw", []⟩⟩] := by
  cbv

/-- Nothing derives from the last of the classes. -/
theorem shapes_settled : Settled (.ofProgram Hierarchy.shapes) (selfCall "Disk") :=
  .inl (isExempt_of_leaf (by rw [shapes_index]; decide))

/-- Nothing overrides the method of the second call. The first is replaced, and another expansion
finds nothing more. -/
theorem drawing_idempotent :
    let h := Hierarchy.ofProgram Hierarchy.shapes
    ∃ body' s', (transform h (drawing "Disk")).run {} = (.ok body', s') ∧ s'.replaced = 1 ∧
      ∃ log, (transform h body').run {} = (.ok body', { receivers := [], replaced := 0, log }) := by
  intro h
  have hvoid : VoidCallsAreStatements (drawing "Disk") := by
    unfold VoidCallsAreStatements
    decide
  obtain ⟨stmt, hleads⟩ :=
    drawing_leads shapes_draw_not_exempt shapes_resolve_draw shapes_settled {}
  obtain ⟨log, hrun⟩ := hleads.transform #[]
  exact ⟨_, _, hrun, rfl, (transform_idempotent _ _ _ _ hvoid hrun).2⟩

end Unwind.Dispatch
