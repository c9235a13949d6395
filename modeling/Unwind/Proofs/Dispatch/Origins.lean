import Unwind.Proofs.Dispatch.Nodes
import Unwind.Proofs.Dispatch.Sites

/-!
# Where the nodes of an expanded body come from

An expansion keeps the nodes of a body or replaces them, and every node of what it makes can be
traced back (`Origin`): it stands for a node of the source that reads or writes the same variable,
it is a call that was left as it is, or it belongs to a cascade. What holds of all nodes of an
expanded body is read off the four cases, without another induction over the syntax
(`expandStmt_delivers`).
-/

namespace Unwind.Dispatch

open Source
open Lowering (Runs run_bind runs_bind runs_pure)

/-! ## Origins -/

/-- Where a node of an expanded body comes from, when `src` holds of the operands of the source and
`bound` are the variables that receivers are bound to. -/
inductive Origin (h : Hierarchy) (src : Expr → Prop) (bound : List Variable) (e : Expr) : Prop
  /-- The node stands where a node of the source stood. -/
  | kept {m : Expr} : src m → e.accessed? = m.accessed? → e.call? = none → Origin h src bound e
  /-- The node is a call that needs no dispatch. -/
  | settled {call : Call} : e.call? = some call → Settled h call → Origin h src bound e
  /-- The node is a void call in the place of an operand. -/
  | void {m : Expr} {call : Call} : src m → voidCall? m = some call → e.accessed? = none →
      Origin h src bound e
  /-- The node belongs to a cascade. -/
  | made : (∀ v, e.accessed? = some v → v ∈ bound) →
      (∀ call, e.call? = some call → call.isVirtual = false) → Origin h src bound e

/-- The nodes of a statement have an origin, and it declares what the source declares. -/
structure Traced (h : Hierarchy) (src : Expr → Prop) (decl : Variable → Prop)
    (bound : List Variable) (kind : StmtKind) : Prop where
  nodes : ∀ e ∈ kind.nodes, Origin h src bound e
  declared : ∀ v ∈ kind.declared, decl v

/-- What is known of a statement of the source. -/
structure Given (src : Expr → Prop) (decl : Variable → Prop) (kind : StmtKind) : Prop where
  operands : ∀ e ∈ operands kind, src e
  declared : ∀ v ∈ kind.declared, decl v

/-! ## Steps -/

/-- The receivers grow along the step, and its results satisfy `Q` as soon as all receivers that
are bound behind it are among `bound`. -/
structure Delivers {α : Type} (bound : List Variable) (x : Expanding α) (Q : α → Prop) : Prop where
  grows : ∀ s, Grows s (x.run s).2
  result : ∀ {s s' : State} {a : α}, Runs x s a s' → s'.receivers ⊆ bound → Q a

section

variable {α β : Type} {bound : List Variable} {x : Expanding α} {Q : α → Prop} {R : β → Prop}
  {f : α → Expanding β}

theorem Delivers.pure {a : α} (ha : Q a) : Delivers bound (Pure.pure a) Q := by
  refine ⟨fun s => .refl s, fun h _ => ?_⟩
  rwa [(runs_pure.mp h).1]

theorem Delivers.bind (hx : Delivers bound x Q)
    (hf : ∀ a, Delivers bound (f a) fun b => Q a → R b) : Delivers bound (x >>= f) R := by
  refine ⟨Grows.bind hx.grows fun a => (hf a).grows, fun h hbound => ?_⟩
  obtain ⟨a, s₁, h₁, h₂⟩ := runs_bind.mp h
  have hgrows := (hf a).grows s₁
  rw [h₂] at hgrows
  exact (hf a).result h₂ hbound (hx.result h₁ (List.Subset.trans hgrows.keeps.subset hbound))

theorem Delivers.count : Delivers bound Dispatch.count fun _ => True :=
  ⟨fun _ => .of_eq rfl, fun _ _ => trivial⟩

end

/-! ## Cascades -/

section

variable {N : Expr → Prop}

theorem exactTypeTest_nodes (hN : ∀ e, e.accessed? = none → e.call? = none → N e) {e : Expr}
    (he : ∀ n ∈ e.nodes, N n) (type : TypeRef) (span : Span) :
    ∀ n ∈ (exactTypeTest e type span).nodes, N n :=
  List.forall_mem_cons.mpr ⟨hN _ rfl rfl, List.forall_mem_append.mpr
    ⟨List.forall_mem_cons.mpr ⟨hN _ rfl rfl, he⟩, List.forall_mem_singleton.mpr (hN _ rfl rfl)⟩⟩

theorem joinExprs_nodes (hN : ∀ e, e.accessed? = none → e.call? = none → N e) {c e rest : Expr}
    (hc : ∀ n ∈ c.nodes, N n) (he : ∀ n ∈ e.nodes, N n) (hrest : ∀ n ∈ rest.nodes, N n)
    (span : Span) : ∀ n ∈ (joinExprs span c e rest).nodes, N n :=
  List.forall_mem_cons.mpr ⟨hN _ rfl rfl, List.forall_mem_append.mpr
    ⟨hc, List.forall_mem_append.mpr ⟨he, hrest⟩⟩⟩

theorem directCall_nodes
    (hN : ∀ e call, e.accessed? = none → e.call? = some call → call.isVirtual = false → N e)
    {call : Call} (hargs : ∀ n ∈ nodesInAll call.args, N n) {e : Expr} (he : ∀ n ∈ e.nodes, N n)
    (m : MethodRef) (result : Ty) (span : Span) :
    ∀ n ∈ (directCall call e m result span).nodes, N n :=
  List.forall_mem_cons.mpr ⟨hN _ _ rfl rfl rfl, List.forall_mem_append.mpr ⟨he, hargs⟩⟩

end

section

variable {h : Hierarchy} {src : Expr → Prop} {decl : Variable → Prop} {bound : List Variable}

/-- A node that neither reads a variable nor calls anything can belong to a cascade. -/
theorem Origin.plain (e : Expr) (hv : e.accessed? = none) (hc : e.call? = none) :
    Origin h src bound e := .made (by simp [hv]) (by simp [hc])

/-- A direct call can belong to a cascade. -/
theorem Origin.direct (e : Expr) (call : Call) (hv : e.accessed? = none)
    (hc : e.call? = some call) (hd : call.isVirtual = false) : Origin h src bound e :=
  .made (by simp [hv]) (by simp [hc, hd])

/-- What becomes of a call site of static type `result`. -/
inductive Outcome (h : Hierarchy) (src : Expr → Prop) (decl : Variable → Prop)
    (bound : List Variable) (call : Call) (result : Ty) : Replacement → Prop
  | unchanged : Settled h call → Outcome h src decl bound call result .unchanged
  | statement {s : Stmt} : result.isVoid = true →
      (∀ t ∈ s.statements, Traced h src decl bound t.kind) →
      Outcome h src decl bound call result (.statement s)
  | expression {e : Expr} : result.isVoid = false → (∀ n ∈ e.nodes, Origin h src bound n) →
      e.ty = result → Outcome h src decl bound call result (.expression e)

/-- A statement without expressions that declares nothing. -/
theorem Traced.bare {kind : StmtKind} (hexprs : kind.exprs = []) (hdecl : kind.declared = []) :
    Traced h src decl bound kind := by
  refine ⟨?_, hdecl ▸ List.forall_mem_nil _⟩
  rw [StmtKind.nodes, hexprs]
  exact List.forall_mem_nil _

/-- A statement with one expression that declares nothing. -/
theorem Traced.operand {kind : StmtKind} {e : Expr} (hexprs : kind.exprs = [e])
    (hdecl : kind.declared = []) (he : ∀ n ∈ e.nodes, Origin h src bound n) :
    Traced h src decl bound kind := by
  refine ⟨?_, hdecl ▸ List.forall_mem_nil _⟩
  rwa [StmtKind.nodes, hexprs, List.flatMap_singleton]

/-- A statement that is an expression, with its nodes traced. -/
theorem Traced.expression {e : Expr} (he : ∀ n ∈ e.nodes, Origin h src bound n) :
    Traced h src decl bound (.expression e) := .operand rfl rfl he

theorem branch_nodes {call : Call} (hargs : ∀ n ∈ nodesInAll call.args, Origin h src bound n)
    {e : Expr} (he : ∀ n ∈ e.nodes, Origin h src bound n) (result : Ty) (span : Span)
    (o : Override) : ∀ n ∈ (branch h call e result span o).nodes, Origin h src bound n := by
  have hcall := directCall_nodes Origin.direct hargs he o.method (resultType h o.method result) span
  unfold branch
  dsimp only
  split
  · exact hcall
  · exact List.forall_mem_cons.mpr ⟨.plain _ rfl rfl, hcall⟩

theorem chain_outcome {call : Call} (hargs : ∀ n ∈ nodesInAll call.args, Origin h src bound n)
    {receiver : Receiver} (hfirst : ∀ n ∈ receiver.first.nodes, Origin h src bound n)
    (hlater : ∀ n ∈ receiver.later.nodes, Origin h src bound n) (result : Ty) (span : Span)
    (os : List Override) :
    Outcome h src decl bound call result (chain h call result span receiver os) := by
  have hfallback := directCall_nodes Origin.direct hargs hlater call.method result span
  have hbody : ∀ o ∈ os, ∀ n ∈ (branch h call receiver.later result span o).nodes,
      Origin h src bound n := fun o _ => branch_nodes hargs hlater result span o
  have htest : ∀ e type, (∀ n ∈ e.nodes, Origin h src bound n) →
      ∀ n ∈ (exactTypeTest e type span).nodes, Origin h src bound n :=
    fun _ type he => exactTypeTest_nodes Origin.plain he type span
  unfold chain
  dsimp only
  split
  · next hvoid =>
    have hjoin : ∀ c e rest, (∀ n ∈ c.nodes, Origin h src bound n) →
        (∀ n ∈ e.nodes, Origin h src bound n) →
        (∀ t ∈ rest.statements, Traced h src decl bound t.kind) →
        ∀ t ∈ (joinStmts span c e rest).statements, Traced h src decl bound t.kind := by
      intro c e rest hc he hrest
      refine List.forall_mem_cons.mpr ⟨.operand rfl rfl hc, ?_⟩
      exact List.forall_mem_cons.mpr ⟨.expression he, hrest⟩
    exact .statement hvoid (cascade_induct htest hjoin hbody hlater
      (List.forall_mem_singleton.mpr (.expression hfallback)) hfirst)
  · next hvalue =>
    have hjoin : ∀ c e rest, (∀ n ∈ c.nodes, Origin h src bound n) →
        (∀ n ∈ e.nodes, Origin h src bound n) →
        (∀ n ∈ rest.nodes, Origin h src bound n) ∧ rest.ty = result →
        (∀ n ∈ (joinExprs span c e rest).nodes, Origin h src bound n) ∧
          (joinExprs span c e rest).ty = result :=
      fun c e rest hc he hrest => ⟨joinExprs_nodes Origin.plain hc he hrest.1 span, hrest.2⟩
    obtain ⟨hnodes, hty⟩ := cascade_induct htest hjoin hbody hlater ⟨hfallback, rfl⟩ hfirst
    exact .expression (by simpa using hvalue) hnodes hty

/-- A receiver that is bound stands in the cascade as a variable that is bound. -/
theorem Bound.nodes {vs vs' : List Variable} {e : Expr} {receiver : Receiver}
    (hbind : Bound vs e receiver vs') (hbound : vs' ⊆ bound)
    (he : ∀ n ∈ e.nodes, Origin h src bound n) :
    (∀ n ∈ receiver.first.nodes, Origin h src bound n) ∧
      ∀ n ∈ receiver.later.nodes, Origin h src bound n := by
  cases hbind with
  | reused => exact ⟨he, he⟩
  | named =>
    -- the first test writes the new local and the later ones read it, each at the type of `e`
    have hmem : ⟨receiverName vs.length, e.ty⟩ ∈ bound :=
      hbound (List.mem_append_right _ List.mem_cons_self)
    have hread : ∀ n : Expr, n.accessed? = some ⟨receiverName vs.length, e.ty⟩ →
        n.call? = none → Origin h src bound n := fun n hv hc =>
      .made (fun v hv' => Option.some.inj (hv.symm.trans hv') ▸ hmem) (by simp [hc])
    exact ⟨List.forall_mem_cons.mpr ⟨hread _ rfl rfl, he⟩,
      List.forall_mem_singleton.mpr (hread _ rfl rfl)⟩

theorem expandCall_delivers (src : Expr → Prop) (decl : Variable → Prop) (call : Call)
    (result : Ty) (span : Span) :
    Delivers bound (expandCall h call result span) fun r =>
      (∀ n ∈ call.nodes, Origin h src bound n) → Outcome h src decl bound call result r := by
  refine ⟨expandCall_grows h call result span, fun hrun hbound hcall => ?_⟩
  obtain ⟨rfl, hsettled, -⟩ | ⟨e, os, receiver, hd, rfl⟩ := runs_expandCall hrun
  · exact .unchanged hsettled
  · obtain ⟨method, receiver?, args, isVirtual⟩ := call
    obtain ⟨he, hargs⟩ := List.forall_mem_append.mp hcall
    cases hd.receiver_eq
    obtain ⟨hfirst, hlater⟩ := hd.bound.nodes hbound he
    exact chain_outcome hargs hfirst hlater result span os

/-! ## Expressions -/

mutual

theorem expandExpr_delivers (e : Expr) (he : ∀ n ∈ e.nodes, src n) :
    Delivers bound (expandExpr h e) fun e' =>
      (∀ n ∈ e'.nodes, Origin h src bound n) ∧ e'.ty = e.ty := by
  obtain ⟨id, span, ty, kind⟩ := e
  obtain ⟨hsrc, hin⟩ := List.forall_mem_cons.mp he
  have hkept : ∀ kind' : ExprKind, (⟨id, span, ty, kind'⟩ : Expr).accessed? =
      (⟨id, span, ty, kind⟩ : Expr).accessed? → (⟨id, span, ty, kind'⟩ : Expr).call? = none →
      (∀ n ∈ kind'.nodes, Origin h src bound n) →
      (∀ n ∈ (⟨id, span, ty, kind'⟩ : Expr).nodes, Origin h src bound n) ∧ ty = ty :=
    fun _ hv hc hn => ⟨List.forall_mem_cons.mpr ⟨.kept hsrc hv hc, hn⟩, rfl⟩
  cases kind with
  | literal | var | self | typeOf | defaultValue | pop =>
    unfold expandExpr
    exact .pure (hkept _ rfl rfl (List.forall_mem_nil _))
  | field object field =>
    unfold expandExpr
    exact (expandOption_delivers object hin).bind fun _ => .pure fun ho => hkept _ rfl rfl ho
  | unary op e =>
    unfold expandExpr
    exact (expandExpr_delivers e hin).bind fun _ => .pure fun he => hkept _ rfl rfl he.1
  | getType e =>
    unfold expandExpr
    exact (expandExpr_delivers e hin).bind fun _ => .pure fun he => hkept _ rfl rfl he.1
  | conversion e newTy =>
    unfold expandExpr
    exact (expandExpr_delivers e hin).bind fun _ => .pure fun he => hkept _ rfl rfl he.1
  | target target =>
    unfold expandExpr
    refine (expandTarget_delivers target hin).bind fun _ => .pure fun ht => hkept _ ?_ rfl ht.1
    -- a place keeps the variable that it is, whatever becomes of the object of a field
    simp only [Expr.accessed?, ht.2]
  | binary op lhs rhs =>
    obtain ⟨hl, hr⟩ := List.forall_mem_append.mp hin
    unfold expandExpr
    exact (expandExpr_delivers lhs hl).bind fun _ => (expandExpr_delivers rhs hr).bind fun _ =>
      .pure fun hr hl => hkept _ rfl rfl (List.forall_mem_append.mpr ⟨hl.1, hr.1⟩)
  | conditional cond thenExpr elseExpr =>
    obtain ⟨hc, hte⟩ := List.forall_mem_append.mp hin
    obtain ⟨ht, he⟩ := List.forall_mem_append.mp hte
    unfold expandExpr
    exact (expandExpr_delivers cond hc).bind fun _ => (expandExpr_delivers thenExpr ht).bind
      fun _ => (expandExpr_delivers elseExpr he).bind fun _ => .pure fun he ht hc =>
        hkept _ rfl rfl (List.forall_mem_append.mpr
          ⟨hc.1, List.forall_mem_append.mpr ⟨ht.1, he.1⟩⟩)
  | assign target value =>
    obtain ⟨ht, hv⟩ := List.forall_mem_append.mp hin
    unfold expandExpr
    refine (expandTarget_delivers target ht).bind fun _ => (expandExpr_delivers value hv).bind
      fun _ => .pure fun hv ht => hkept _ ?_ rfl (List.forall_mem_append.mpr ⟨ht.1, hv.1⟩)
    simp only [Expr.accessed?, ht.2, hv.2]
  | call call =>
    unfold expandExpr
    refine (expandOperands_delivers call hin).bind fun call' =>
      (expandCall_delivers src (fun _ => True) call' ty span).bind fun r => ?_
    cases r with
    | expression e =>
      exact Delivers.count.bind fun _ => .pure fun _ hr hcall => by
        cases hr hcall with
        | expression _ hnodes hty => exact ⟨hnodes, hty⟩
    -- a cascade of statements does not fit here: the call stays, and its type is `void`
    | statement s =>
      refine .pure fun hr hcall => ⟨List.forall_mem_cons.mpr ⟨?_, hcall⟩, rfl⟩
      cases hr hcall with
      | statement hvoid _ => exact .void hsrc (voidCall?_eq_some.mpr ⟨rfl, hvoid⟩) rfl
    | unchanged =>
      refine .pure fun hr hcall => ⟨List.forall_mem_cons.mpr ⟨?_, hcall⟩, rfl⟩
      cases hr hcall with
      | unchanged hsettled => exact .settled rfl hsettled
  | new type ctor args =>
    unfold expandExpr
    exact (expandAll_delivers args hin).bind fun _ => .pure fun ha => hkept _ rfl rfl ha

theorem expandOperands_delivers (call : Call) (hcall : ∀ n ∈ call.nodes, src n) :
    Delivers bound (expandOperands h call) fun call' =>
      ∀ n ∈ call'.nodes, Origin h src bound n := by
  obtain ⟨method, receiver, args, isVirtual⟩ := call
  obtain ⟨hr, ha⟩ := List.forall_mem_append.mp hcall
  unfold expandOperands
  exact (expandOption_delivers receiver hr).bind fun _ => (expandAll_delivers args ha).bind fun _ =>
    .pure fun ha hr => List.forall_mem_append.mpr ⟨hr, ha⟩

theorem expandTarget_delivers (target : Target) (ht : ∀ n ∈ target.nodes, src n) :
    Delivers bound (expandTarget h target) fun target' =>
      (∀ n ∈ target'.nodes, Origin h src bound n) ∧ target'.name? = target.name? := by
  cases target with
  | var name =>
    unfold expandTarget
    exact .pure ⟨List.forall_mem_nil _, rfl⟩
  | field object field =>
    unfold expandTarget
    exact (expandOption_delivers object ht).bind fun _ => .pure fun ho => ⟨ho, rfl⟩

theorem expandOption_delivers (e : Option Expr) (he : ∀ n ∈ nodesInOption e, src n) :
    Delivers bound (expandOption h e) fun e' =>
      ∀ n ∈ nodesInOption e', Origin h src bound n := by
  cases e with
  | none =>
    unfold expandOption
    exact .pure (List.forall_mem_nil _)
  | some e =>
    unfold expandOption
    exact (expandExpr_delivers e he).bind fun _ => .pure fun he => he.1

theorem expandAll_delivers (es : List Expr) (hes : ∀ n ∈ nodesInAll es, src n) :
    Delivers bound (expandAll h es) fun es' => ∀ n ∈ nodesInAll es', Origin h src bound n := by
  cases es with
  | nil =>
    unfold expandAll
    exact .pure (List.forall_mem_nil _)
  | cons e es =>
    obtain ⟨he, hes⟩ := List.forall_mem_append.mp hes
    unfold expandAll
    exact (expandExpr_delivers e he).bind fun _ => (expandAll_delivers es hes).bind fun _ =>
      .pure fun hes he => List.forall_mem_append.mpr ⟨he.1, hes⟩

end

/-! ## Statements -/

theorem expandExprStmt_delivers {id : UInt32} {span : Span} {e : Expr}
    (he : ∀ n ∈ operands (.expression e), src n) :
    Delivers bound (expandExprStmt h id span e) fun s =>
      ∀ t ∈ s.statements, Traced h src decl bound t.kind := by
  have hstmt : ∀ {e : Expr}, (∀ n ∈ e.nodes, Origin h src bound n) →
      ∀ t ∈ (⟨id, span, .expression e⟩ : Stmt).statements, Traced h src decl bound t.kind :=
    fun he => List.forall_mem_singleton.mpr (.expression he)
  obtain ⟨eid, espan, ty, kind⟩ := e
  unfold expandExprStmt
  split
  · next call hcall =>
    rw [operands, hcall] at he
    obtain ⟨rfl, -⟩ := voidCall?_eq_some.mp hcall
    refine (expandOperands_delivers call he).bind fun call' =>
      (expandCall_delivers src decl call' .void span).bind fun r => ?_
    cases r with
    | statement s =>
      exact Delivers.count.bind fun _ => .pure fun _ hr hcall => by
        cases hr hcall with
        | statement _ hs => exact hs
    | unchanged =>
      refine .pure fun hr hcall => hstmt (List.forall_mem_cons.mpr ⟨?_, hcall⟩)
      cases hr hcall with
      | unchanged hsettled => exact .settled rfl hsettled
    | expression e =>
      refine .pure fun hr hcall => hstmt (List.forall_mem_cons.mpr ⟨?_, hcall⟩)
      -- a call of static type `void` never becomes an expression
      cases hr hcall with
      | expression hvalue => cases hvalue
  · next hcall =>
    rw [operands, hcall] at he
    exact (expandExpr_delivers _ he).bind fun _ => .pure fun he => hstmt he.1

/-- The values of cases with everything inside them. -/
def caseNodes (cases : List SwitchCase) : List Expr :=
  (cases.filterMap (·.value)).flatMap Expr.nodes

theorem caseNodes_cons (span : Span) (value : Option Expr) (body : List Stmt)
    (cases : List SwitchCase) :
    caseNodes (⟨span, value, body⟩ :: cases) = nodesInOption value ++ caseNodes cases := by
  cases value <;> rfl

mutual

theorem expandStmt_delivers (s : Stmt) (hs : ∀ t ∈ s.statements, Given src decl t.kind) :
    Delivers bound (expandStmt h s) fun s' =>
      ∀ t ∈ s'.statements, Traced h src decl bound t.kind := by
  have hown := hs s s.mem_statements
  have hin : ∀ t ∈ s.statements.tail, Given src decl t.kind :=
    fun t ht => hs t (List.mem_of_mem_tail ht)
  obtain ⟨id, span, kind⟩ := s
  obtain ⟨hops, hdecl⟩ := hown
  unfold expandStmt
  cases kind with
  | empty | breakLoop | continueLoop | goto | rethrow =>
    exact .pure (List.forall_mem_singleton.mpr (.bare rfl rfl))
  | block stmts =>
    exact (expandStmts_delivers stmts hin).bind fun _ => .pure fun hs =>
      List.forall_mem_cons.mpr ⟨.bare rfl rfl, hs⟩
  | assert e | assume e | throw e | push e =>
    exact (expandExpr_delivers e (List.forall_mem_append.mp hops).1).bind fun _ => .pure fun he =>
      List.forall_mem_singleton.mpr (.operand rfl rfl he.1)
  | conditional cond thenBranch elseBranch =>
    obtain ⟨ht, he⟩ := List.forall_mem_append.mp hin
    exact (expandExpr_delivers cond (List.forall_mem_append.mp hops).1).bind fun _ =>
      (expandStmt_delivers thenBranch ht).bind fun _ =>
        (expandStmt_delivers elseBranch he).bind fun _ => .pure fun he ht hc =>
          List.forall_mem_cons.mpr ⟨.operand rfl rfl hc.1, List.forall_mem_append.mpr ⟨ht, he⟩⟩
  | expression e => exact expandExprStmt_delivers hops
  | whileLoop cond body =>
    exact (expandExpr_delivers cond (List.forall_mem_append.mp hops).1).bind fun _ =>
      (expandStmt_delivers body hin).bind fun _ => .pure fun hb hc =>
        List.forall_mem_cons.mpr ⟨.operand rfl rfl hc.1, hb⟩
  | doUntil body cond =>
    exact (expandExpr_delivers cond (List.forall_mem_append.mp hops).1).bind fun _ =>
      (expandStmt_delivers body hin).bind fun _ => .pure fun hb hc =>
        List.forall_mem_cons.mpr ⟨.operand rfl rfl hc.1, hb⟩
  | forLoop init cond step body =>
    obtain ⟨hi, hsb⟩ := List.forall_mem_append.mp hin
    obtain ⟨hs, hb⟩ := List.forall_mem_append.mp hsb
    exact (expandStmts_delivers init hi).bind fun _ => (expandStmts_delivers step hs).bind fun _ =>
      (expandOption_delivers cond (by rwa [nodesInOption_eq])).bind fun _ =>
        (expandStmt_delivers body hb).bind fun _ => .pure fun hb hc hs hi =>
          List.forall_mem_cons.mpr ⟨⟨by rwa [nodesInOption_eq] at hc, List.forall_mem_nil _⟩,
            List.forall_mem_append.mpr ⟨hi, List.forall_mem_append.mpr ⟨hs, hb⟩⟩⟩
  | forEach item collection body =>
    exact (expandExpr_delivers collection (List.forall_mem_append.mp hops).1).bind fun _ =>
      (expandStmt_delivers body hin).bind fun _ => .pure fun hb hc =>
        List.forall_mem_cons.mpr
          ⟨⟨List.forall_mem_append.mpr ⟨hc.1, List.forall_mem_nil _⟩, hdecl⟩, hb⟩
  | switch scrutinee cases =>
    obtain ⟨hscrutinee, hvalues⟩ := List.forall_mem_append.mp hops
    exact (expandExpr_delivers scrutinee hscrutinee).bind fun _ =>
      (expandCases_delivers cases hvalues hin).bind fun _ => .pure fun hc hs =>
        List.forall_mem_cons.mpr
          ⟨⟨List.forall_mem_append.mpr ⟨hs.1, hc.1⟩, List.forall_mem_nil _⟩, hc.2⟩
  | localDecl v e =>
    exact (expandOption_delivers e (by rwa [nodesInOption_eq])).bind fun _ => .pure fun he =>
      List.forall_mem_singleton.mpr ⟨by rwa [nodesInOption_eq] at he, hdecl⟩
  | ret e =>
    exact (expandOption_delivers e (by rwa [nodesInOption_eq])).bind fun _ => .pure fun he =>
      List.forall_mem_singleton.mpr ⟨by rwa [nodesInOption_eq] at he, List.forall_mem_nil _⟩
  | labeled label body =>
    exact (expandStmt_delivers body hin).bind fun _ => .pure fun hb =>
      List.forall_mem_cons.mpr ⟨.bare rfl rfl, hb⟩
  | tryCatch body catches finalizer =>
    obtain ⟨hb, hcf⟩ := List.forall_mem_append.mp hin
    obtain ⟨hc, hf⟩ := List.forall_mem_append.mp hcf
    exact (expandStmt_delivers body hb).bind fun _ => (expandCatches_delivers catches hc).bind
      fun _ => (expandStmtOption_delivers finalizer hf).bind fun _ => .pure fun hf hc hb => by
        refine List.forall_mem_cons.mpr ⟨⟨List.forall_mem_nil _, ?_⟩,
          List.forall_mem_append.mpr ⟨hb, List.forall_mem_append.mpr ⟨hc.2, hf⟩⟩⟩
        -- the variables of the clauses are declared by this statement, not by their bodies
        rw [StmtKind.declared, hc.1]
        exact hdecl

theorem expandStmts_delivers (ss : List Stmt)
    (hs : ∀ t ∈ statementsIn ss, Given src decl t.kind) :
    Delivers bound (expandStmts h ss) fun ss' =>
      ∀ t ∈ statementsIn ss', Traced h src decl bound t.kind := by
  cases ss with
  | nil =>
    unfold expandStmts
    exact .pure (List.forall_mem_nil _)
  | cons s ss =>
    obtain ⟨hs, hss⟩ := List.forall_mem_append.mp hs
    unfold expandStmts
    exact (expandStmt_delivers s hs).bind fun _ => (expandStmts_delivers ss hss).bind fun _ =>
      .pure fun hss hs => List.forall_mem_append.mpr ⟨hs, hss⟩

theorem expandCases_delivers (cases : List SwitchCase) (hvalues : ∀ e ∈ caseNodes cases, src e)
    (hs : ∀ t ∈ statementsInCases cases, Given src decl t.kind) :
    Delivers bound (expandCases h cases) fun cases' =>
      (∀ e ∈ caseNodes cases', Origin h src bound e) ∧
        ∀ t ∈ statementsInCases cases', Traced h src decl bound t.kind := by
  cases cases with
  | nil =>
    unfold expandCases
    exact .pure ⟨List.forall_mem_nil _, List.forall_mem_nil _⟩
  | cons case cases =>
    obtain ⟨span, value, body⟩ := case
    obtain ⟨hb, hc⟩ := List.forall_mem_append.mp hs
    rw [caseNodes_cons] at hvalues
    obtain ⟨hv, hvs⟩ := List.forall_mem_append.mp hvalues
    unfold expandCases
    refine (expandOption_delivers value hv).bind fun _ => (expandStmts_delivers body hb).bind
      fun _ => (expandCases_delivers cases hvs hc).bind fun _ => .pure fun hc hb hv => ⟨?_, ?_⟩
    · rw [caseNodes_cons]
      exact List.forall_mem_append.mpr ⟨hv, hc.1⟩
    · exact List.forall_mem_append.mpr ⟨hb, hc.2⟩

theorem expandCatches_delivers (clauses : List CatchClause)
    (hs : ∀ t ∈ statementsInCatches clauses, Given src decl t.kind) :
    Delivers bound (expandCatches h clauses) fun clauses' =>
      clauses'.filterMap (·.binding) = clauses.filterMap (·.binding) ∧
        ∀ t ∈ statementsInCatches clauses', Traced h src decl bound t.kind := by
  cases clauses with
  | nil =>
    unfold expandCatches
    exact .pure ⟨rfl, List.forall_mem_nil _⟩
  | cons clause clauses =>
    obtain ⟨span, type, binding, body⟩ := clause
    obtain ⟨hb, hc⟩ := List.forall_mem_append.mp hs
    unfold expandCatches
    refine (expandStmt_delivers body hb).bind fun _ => (expandCatches_delivers clauses hc).bind
      fun _ => .pure fun hc hb => ⟨?_, List.forall_mem_append.mpr ⟨hb, hc.2⟩⟩
    rw [List.filterMap_cons, List.filterMap_cons, hc.1]

theorem expandStmtOption_delivers (s : Option Stmt)
    (hs : ∀ t ∈ statementsInOption s, Given src decl t.kind) :
    Delivers bound (expandStmtOption h s) fun s' =>
      ∀ t ∈ statementsInOption s', Traced h src decl bound t.kind := by
  cases s with
  | none =>
    unfold expandStmtOption
    exact .pure (List.forall_mem_nil _)
  | some s =>
    unfold expandStmtOption
    exact (expandStmt_delivers s hs).bind fun _ => .pure fun hs => hs

end

/-! The growth of the receivers does not depend on what is known of the source. -/

theorem expandExpr_grows (h : Hierarchy) (e : Expr) (s : State) :
    Grows s ((expandExpr h e).run s).2 := by
  have hexpr : Delivers [] (expandExpr h e) fun e' =>
      (∀ n ∈ e'.nodes, Origin h (fun _ => True) [] n) ∧ e'.ty = e.ty :=
    expandExpr_delivers e fun _ _ => trivial
  exact hexpr.grows s

theorem expandStmt_grows (h : Hierarchy) (body : Stmt) (s : State) :
    Grows s ((expandStmt h body).run s).2 := by
  have hbody : Delivers [] (expandStmt h body) fun s' =>
      ∀ t ∈ s'.statements, Traced h (fun _ => True) (fun _ => True) [] t.kind :=
    expandStmt_delivers body fun _ _ => ⟨fun _ _ => trivial, fun _ _ => trivial⟩
  exact hbody.grows s

/-! ## Bodies -/

/-- A body that was expanded: the state of the expansion, and the body before the receivers are
declared. -/
structure Transformed (h : Hierarchy) (body : Stmt) (s : State) (body' : Stmt) (s' : State)
    (pending : List Variable) (inner : Stmt) : Prop where
  body_eq : body' = declareAll pending inner
  receivers_eq : s'.receivers = []
  keeps : s.receivers <+: pending
  numbered : Numbered s.receivers → Numbered pending
  traced : ∀ (src : Expr → Prop) (decl : Variable → Prop),
    (∀ t ∈ body.statements, Given src decl t.kind) →
      ∀ t ∈ inner.statements, Traced h src decl pending t.kind

/-- An expansion that fails keeps what is bound; one that succeeds declares it. -/
theorem run_transform (h : Hierarchy) (body : Stmt) (s : State) :
    (transform h body).run s =
      match (expandStmt h body).run s with
      | (.ok inner, s₁) => (.ok (declareAll s₁.receivers inner), { s₁ with receivers := [] })
      | (.error e, s₁) => (.error e, s₁) := by
  unfold transform
  rw [run_bind]
  rcases (expandStmt h body).run s with ⟨e | inner, s₁⟩ <;> rfl

theorem runs_transform {body body' : Stmt} {s s' : State}
    (hrun : Runs (transform h body) s body' s') :
    ∃ pending inner, Transformed h body s body' s' pending inner := by
  have hgrows := expandStmt_grows h body s
  unfold Runs at hrun
  rw [run_transform] at hrun
  split at hrun
  · next inner s₁ hinner =>
    cases hrun
    rw [hinner] at hgrows
    -- the nodes are traced to what is bound at the end of this very run
    exact ⟨s₁.receivers, inner, rfl, rfl, hgrows.keeps, hgrows.numbered, fun src decl hgiven =>
      (expandStmt_delivers body hgiven).result hinner (List.Subset.refl _)⟩
  · cases hrun

/-- The statements of a flattened body are statements of the body. -/
theorem mem_statementsIn_flatten {body t : Stmt} (ht : t ∈ statementsIn (flatten body)) :
    t ∈ body.statements := by
  obtain ⟨id, span, kind⟩ := body
  unfold flatten at ht
  split at ht
  · next stmts hkind =>
    cases hkind
    exact List.mem_cons_of_mem _ ht
  · rwa [statementsIn, statementsIn, List.append_nil] at ht

theorem mem_statementsIn_declare {vs : List Variable} {t : Stmt}
    (ht : t ∈ statementsIn (vs.map declare)) : ∃ v ∈ vs, t = declare v := by
  induction vs with
  | nil => cases ht
  | cons v vs ih =>
    rcases List.mem_cons.mp ht with rfl | ht
    · exact ⟨v, List.mem_cons_self, rfl⟩
    · obtain ⟨v', hv', rfl⟩ := ih ht
      exact ⟨v', List.mem_cons_of_mem _ hv', rfl⟩

/-- The nodes of a body with declarations in front are those of the body. -/
theorem mem_nodes_declareAll {vs : List Variable} {body : Stmt} {e : Expr}
    (he : e ∈ (declareAll vs body).nodes) : e ∈ body.nodes := by
  unfold declareAll at he
  split at he
  · exact he
  · obtain ⟨t, ht, he⟩ := List.mem_flatMap.mp he
    rcases List.mem_cons.mp ht with rfl | ht
    · cases he
    · rw [show statementsIn _ = _ from statementsIn_append _ _] at ht
      rcases List.mem_append.mp ht with ht | ht
      · obtain ⟨v, -, rfl⟩ := mem_statementsIn_declare ht
        cases he
      · exact List.mem_flatMap.mpr ⟨t, mem_statementsIn_flatten ht, he⟩

/-- Every node of an expanded body can be traced back. -/
theorem Transformed.origin {body body' inner : Stmt} {s s' : State} {pending : List Variable}
    (ht : Transformed h body s body' s' pending inner)
    (hsrc : ∀ t ∈ body.statements, ∀ e ∈ operands t.kind, src e) :
    ∀ e ∈ body'.nodes, Origin h src pending e := by
  intro e he
  rw [ht.body_eq] at he
  obtain ⟨t, hmem, he⟩ := List.mem_flatMap.mp (mem_nodes_declareAll he)
  exact (ht.traced src (fun _ => True)
    (fun t hmem => ⟨hsrc t hmem, fun _ _ => trivial⟩) t hmem).nodes e he

end

end Unwind.Dispatch
