import Unwind.Proofs.Callees
import Unwind.Proofs.Lowering.Steps
import Unwind.Dispatch.Expansion

/-!
# What expanded bodies call

The expansion of virtual calls only adds calls of overrides, and these are methods that the program
declares (`overrides_declared`). It adds no `switch`. A predicate on methods that holds of all that
is declared and of all that a body calls therefore holds of all that the expanded body calls, and
a body with at most one default case in every switch is expanded to one
(`transform_expands`).
-/

namespace Unwind

open Source (Call CatchClause Expr MethodRef Stmt StmtKind SwitchCase Target Ty TypeDef TypeRef
  calleesInAll calleesInOption statementsIn statementsInCases statementsInCatches
  statementsInOption oneDefaultIn oneDefaultInCases oneDefaultInCatches oneDefaultInOption)

/-! ## Overrides -/

namespace Hierarchy

variable {h : Hierarchy} {P : MethodRef → Prop}

/-- The predicate holds of every method that a type of the table declares. -/
def Declares (h : Hierarchy) (P : MethodRef → Prop) : Prop :=
  ∀ d ∈ h.table.defs, ∀ x ∈ d.methods, P (x.reference d.name)

theorem overrideIn?_declared (hP : h.Declares P) {d : TypeDef} (hd : d ∈ h.table.defs)
    {m r : MethodRef} (hr : overrideIn? d m = some r) : P r := by
  obtain ⟨x, hx, rfl⟩ := Option.map_eq_some_iff.mp hr
  have hmem := List.mem_of_mem_filter (List.mem_of_mem_filter (List.mem_of_getLast? hx))
  exact hP d hd x hmem

theorem implementationIn?_declared (hP : h.Declares P) {d : TypeDef} (hd : d ∈ h.table.defs)
    {m r : MethodRef} (hr : implementationIn? d m = some r) : P r := by
  obtain ⟨x, hx, rfl⟩ := Option.map_eq_some_iff.mp hr
  refine hP d hd x ?_
  rcases Option.or_eq_some_iff.mp hx with hx | ⟨-, hx⟩
  · exact List.mem_of_mem_filter (List.mem_of_getLast? hx)
  · exact List.mem_of_mem_filter (List.mem_of_getLast? hx)

theorem mem_of_get? {t : TypeTable} {ref : TypeRef} {d : TypeDef} (hd : t.get? ref = some d) :
    d ∈ t.defs := List.mem_of_find?_eq_some hd

/-- What a type runs is declared when what it inherits is. -/
theorem runBy_declared (hP : h.Declares P) (t : TypeRef) {m : MethodRef} (hm : P m) :
    P (h.runBy t m) := by
  unfold runBy
  cases hr : (h.table.get? t).bind (overrideIn? · m) with
  | none => exact hm
  | some r =>
    obtain ⟨d, hd, hr⟩ := Option.bind_eq_some_iff.mp hr
    exact overrideIn?_declared hP (mem_of_get? hd) hr

theorem implementationsBelow_declared (hP : h.Declares P) (m : MethodRef) {unseen : List String}
    {found : List Override} {pending : List TypeDef} (hfound : ∀ o ∈ found, P o.method)
    (hpending : ∀ d ∈ pending, d ∈ h.table.defs) :
    ∀ o ∈ h.implementationsBelow m unseen found pending, P o.method := by
  fun_induction implementationsBelow h m unseen found pending with
  | case1 => exact hfound
  | case2 unseen found d rest hd unseen' hi ih =>
    refine ih hfound (List.forall_mem_append.mpr ⟨fun d' hd' => ?_, ?_⟩)
    · obtain ⟨t, -, ht⟩ := List.mem_filterMap.mp hd'
      exact mem_of_get? ht
    · exact (List.forall_mem_cons.mp hpending).2
  | case3 unseen found d rest hd unseen' hi here ih =>
    obtain ⟨hd, hrest⟩ := List.forall_mem_cons.mp hpending
    refine ih (List.forall_mem_append.mpr ⟨hfound, fun o ho => ?_⟩) hrest
    obtain ⟨r, hr, rfl⟩ := List.mem_map.mp ho
    exact implementationIn?_declared hP hd (Option.mem_toList.mp hr)
  | case4 unseen found d rest hd ih => exact ih hfound (List.forall_mem_cons.mp hpending).2

theorem implementations_declared (hP : h.Declares P) (t : TypeRef) (m : MethodRef) :
    ∀ o ∈ h.implementations t m, P o.method :=
  implementationsBelow_declared hP m nofun fun _ hd => mem_of_get? (Option.mem_toList.mp hd)

theorem seeds_declared (hP : h.Declares P) (t : TypeRef) (m : MethodRef) :
    ∀ o ∈ h.seeds t m, P o.method := by
  unfold seeds
  split
  · exact implementations_declared hP t m
  · nofun

theorem below_declared {o : Override} (ho : P o.method) : ∀ o' ∈ h.below o, P o'.method := by
  intro o' ho'
  obtain ⟨t, -, rfl⟩ := List.mem_map.mp ho'
  exact ho

theorem next_declared (hP : h.Declares P) (t : TypeRef) {m : MethodRef} (hm : P m) :
    ∀ o ∈ h.next t m, P o.method := by
  unfold next
  split
  · intro o ho
    obtain ⟨i, hi, ho⟩ := List.mem_flatMap.mp ho
    exact below_declared (implementations_declared hP t m i hi) o ho
  · exact below_declared hm

theorem foldl_addNew_declared {found os : List Override} (hfound : ∀ o ∈ found, P o.method)
    (hos : ∀ o ∈ os, P o.method) : ∀ o ∈ os.foldl addNew found, P o.method := by
  induction os generalizing found with
  | nil => exact hfound
  | cons o os ih =>
    obtain ⟨ho, hos⟩ := List.forall_mem_cons.mp hos
    refine ih ?_ hos
    unfold addNew
    split
    · exact hfound
    · exact List.forall_mem_append.mpr ⟨hfound, List.forall_mem_singleton.mpr ho⟩

theorem overridesBelow_declared (hP : h.Declares P) {unseen : List String}
    {found pending : List Override} (hfound : ∀ o ∈ found, P o.method)
    (hpending : ∀ o ∈ pending, P o.method) :
    ∀ o ∈ h.overridesBelow unseen found pending, P o.method := by
  fun_induction overridesBelow h unseen found pending with
  | case1 => exact hfound
  | case2 unseen found t inherited rest ht m seeded ih =>
    obtain ⟨hi, hrest⟩ := List.forall_mem_cons.mp hpending
    have hm : P m := runBy_declared hP t hi
    refine ih (foldl_addNew_declared ?_ (seeds_declared hP t m)) ?_
    · exact List.forall_mem_append.mpr ⟨hfound, List.forall_mem_singleton.mpr hm⟩
    · exact List.forall_mem_append.mpr ⟨next_declared hP t hm, hrest⟩
  | case3 unseen found t inherited rest ht ih =>
    exact ih hfound (List.forall_mem_cons.mp hpending).2

/-- The overrides of a method are declared, or they are the method itself. -/
theorem overrides_declared (hP : h.Declares P) {m : MethodRef} (hm : P m) :
    ∀ o ∈ h.overrides m, P o.method := by
  unfold overrides
  dsimp only
  split
  · nofun
  · exact overridesBelow_declared hP (foldl_addNew_declared nofun (seeds_declared hP _ _))
      (next_declared hP _ hm)

end Hierarchy

namespace Dispatch

open Lowering (Runs runs_bind runs_pure runs_lift runs_modify)

/-! ## Cascades -/

/-- Every result of the step satisfies the predicate. -/
structure Yields {α : Type} (x : Expanding α) (Q : α → Prop) : Prop where
  result : ∀ {s s' : State} {a : α}, Runs x s a s' → Q a

section

variable {α β : Type} {x : Expanding α} {Q : α → Prop} {R : β → Prop} {f : α → Expanding β}

theorem Yields.pure {a : α} (ha : Q a) : Yields (Pure.pure a) Q := by
  refine ⟨fun h => ?_⟩
  rwa [(runs_pure.mp h).1]

theorem Yields.bind (hx : Yields x Q) (hf : ∀ a, Q a → Yields (f a) R) :
    Yields (x >>= f) R := by
  refine ⟨fun h => ?_⟩
  obtain ⟨a, s₁, h₁, h₂⟩ := runs_bind.mp h
  exact (hf a (hx.result h₁)).result h₂

theorem Yields.imp {Q' : α → Prop} (hx : Yields x Q) (hQ : ∀ a, Q a → Q' a) : Yields x Q' :=
  ⟨fun h => hQ _ (hx.result h)⟩

/-- A step whose result does not matter. -/
theorem Yields.next (hf : ∀ a, Yields (f a) R) : Yields (x >>= f) R := by
  refine ⟨fun h => ?_⟩
  obtain ⟨a, s₁, h₁, h₂⟩ := runs_bind.mp h
  exact (hf a).result h₂

end

variable {h : Hierarchy} {P : MethodRef → Prop}

/-- All statements of the expanded one call these methods only, and no `switch` has more default
cases than before. -/
structure Expands (P : MethodRef → Prop) (s s' : Stmt) : Prop where
  calls : ∀ t ∈ s'.statements, t.CallsOnly P
  oneDefault : s'.oneDefault = s.oneDefault

/-- What becomes of a call site calls these methods only, and has no `switch` in it. -/
inductive Replacement.CallsOnly (P : MethodRef → Prop) : Replacement → Prop
  | unchanged : CallsOnly P .unchanged
  | statement {s : Stmt} : Expands P .empty s → CallsOnly P (.statement s)
  | expression {e : Expr} : e.CallsOnly P → CallsOnly P (.expression e)

theorem exactTypeTest_calls {e : Expr} (he : e.CallsOnly P) (type : TypeRef) (span : Span) :
    (exactTypeTest e type span).CallsOnly P :=
  List.forall_mem_append.mpr ⟨he, nofun⟩

theorem directCall_calls {call : Call} (hcall : ∀ m ∈ calleesInAll call.args, P m) {e : Expr}
    (he : e.CallsOnly P) {m : MethodRef} (hm : P m) (result : Ty) (span : Span) :
    (directCall call e m result span).CallsOnly P :=
  List.forall_mem_cons.mpr ⟨hm, List.forall_mem_append.mpr ⟨he, hcall⟩⟩

theorem branch_calls {call : Call} (hcall : ∀ m ∈ calleesInAll call.args, P m) {e : Expr}
    (he : e.CallsOnly P) {o : Override} (ho : P o.method) (result : Ty) (span : Span) :
    (branch h call e result span o).CallsOnly P := by
  unfold branch
  dsimp only
  split
  · exact directCall_calls hcall he ho (resultType h o.method result) span
  · exact directCall_calls hcall he ho (resultType h o.method result) span

/-- What holds of the fallback, and of a test around what it holds of, holds of the cascade. -/
theorem cascade_induct {α : Type} {E : Expr → Prop} {Q : α → Prop} {join : Expr → Expr → α → α}
    {body : Override → Expr} {later tested : Expr} {span : Span} {fallback : α}
    {os : List Override} (htest : ∀ e type, E e → E (exactTypeTest e type span))
    (hjoin : ∀ c e a, E c → E e → Q a → Q (join c e a))
    (hbody : ∀ o ∈ os, E (body o)) (hlater : E later) (hfallback : Q fallback)
    (htested : E tested) : Q (cascade join body later span fallback tested os) := by
  induction os generalizing tested with
  | nil => exact hfallback
  | cons o os ih =>
    obtain ⟨ho, hos⟩ := List.forall_mem_cons.mp hbody
    exact hjoin _ _ _ (htest _ _ htested) ho (ih hos hlater)

theorem chain_calls {call : Call} (hm : P call.method)
    (hcall : ∀ m ∈ calleesInAll call.args, P m) {result : Ty} {span : Span} {receiver : Receiver}
    (hfirst : receiver.first.CallsOnly P) (hlater : receiver.later.CallsOnly P)
    {os : List Override} (hos : ∀ o ∈ os, P o.method) :
    (chain h call result span receiver os).CallsOnly P := by
  have hfallback := directCall_calls hcall hlater hm result span
  have hbody : ∀ o ∈ os, (branch h call receiver.later result span o).CallsOnly P :=
    fun o ho => branch_calls hcall hlater (hos o ho) result span
  have htest : ∀ e type, e.CallsOnly P → (exactTypeTest e type span).CallsOnly P :=
    fun _ type he => exactTypeTest_calls he type span
  unfold chain
  dsimp only
  split
  · refine .statement (cascade_induct htest (fun c e s hc he hs => ?_) hbody hlater ?_ hfirst)
    · refine ⟨List.forall_mem_cons.mpr ⟨List.forall_mem_singleton.mpr hc, ?_⟩, ?_⟩
      · exact List.forall_mem_cons.mpr ⟨List.forall_mem_singleton.mpr he, hs.calls⟩
      · exact hs.oneDefault
    · exact ⟨List.forall_mem_singleton.mpr (List.forall_mem_singleton.mpr hfallback), rfl⟩
  · refine .expression (cascade_induct htest (fun c e a hc he ha => ?_) hbody hlater hfallback
      hfirst)
    exact List.forall_mem_append.mpr ⟨hc, List.forall_mem_append.mpr ⟨he, ha⟩⟩

theorem bindReceiver_calls {e : Expr} (he : e.CallsOnly P) :
    Yields (bindReceiver e) fun r => r.first.CallsOnly P ∧ r.later.CallsOnly P := by
  unfold bindReceiver
  split
  · exact .pure ⟨he, he⟩
  · exact .pure ⟨he, he⟩
  · exact .next fun s => .next fun _ => .pure ⟨he, nofun⟩

theorem expandCall_calls (hP : h.Declares P) {call : Call} (hcall : ∀ m ∈ call.callees, P m)
    (result : Ty) (span : Span) :
    Yields (expandCall h call result span) (Replacement.CallsOnly P) := by
  obtain ⟨method, receiver, args, isVirtual⟩ := call
  obtain ⟨hm, hparts⟩ := List.forall_mem_cons.mp hcall
  obtain ⟨hr, ha⟩ := List.forall_mem_append.mp hparts
  have hoverrides : Yields (overridesOf h method) fun os => ∀ o ∈ os, P o.method := by
    refine ⟨fun hrun => ?_⟩
    obtain ⟨os', s₁, h₁, hrun⟩ := runs_bind.mp hrun
    obtain ⟨_, s₂, -, hrun⟩ := runs_bind.mp hrun
    obtain ⟨rfl, -⟩ := runs_pure.mp hrun
    have hresolve := (runs_lift.mp h₁).1
    unfold Hierarchy.resolve at hresolve
    split at hresolve
    · cases hresolve
      exact Hierarchy.overrides_declared hP hm
    · cases hresolve
  unfold expandCall
  split
  · exact .pure .unchanged
  · refine hoverrides.bind fun os hos => ?_
    cases receiver with
    | none => cases os <;> exact .pure .unchanged
    | some e =>
      cases os with
      | nil => exact .pure .unchanged
      | cons o os =>
        exact .next fun _ => (bindReceiver_calls hr).bind fun r hr =>
          .pure (chain_calls hm ha hr.1 hr.2 hos)

/-! ## Expressions -/

mutual

theorem expandExpr_calls (hP : h.Declares P) (e : Expr) (he : e.CallsOnly P) :
    Yields (expandExpr h e) (Expr.CallsOnly P) := by
  obtain ⟨id, span, ty, kind⟩ := e
  cases kind with
  | literal | var | self | typeOf | defaultValue | pop =>
    unfold expandExpr
    exact .pure nofun
  | field object field =>
    unfold expandExpr
    exact (expandOption_calls hP object he).bind fun _ h => .pure h
  | unary op e =>
    unfold expandExpr
    exact (expandExpr_calls hP e he).bind fun _ h => .pure h
  | getType e =>
    unfold expandExpr
    exact (expandExpr_calls hP e he).bind fun _ h => .pure h
  | conversion e newTy =>
    unfold expandExpr
    exact (expandExpr_calls hP e he).bind fun _ h => .pure h
  | target target =>
    unfold expandExpr
    exact (expandTarget_calls hP target he).bind fun _ h => .pure h
  | binary op lhs rhs =>
    obtain ⟨hl, hr⟩ := List.forall_mem_append.mp he
    unfold expandExpr
    exact (expandExpr_calls hP lhs hl).bind fun _ hl =>
      (expandExpr_calls hP rhs hr).bind fun _ hr => .pure (List.forall_mem_append.mpr ⟨hl, hr⟩)
  | conditional cond thenExpr elseExpr =>
    obtain ⟨hc, hte⟩ := List.forall_mem_append.mp he
    obtain ⟨ht, he⟩ := List.forall_mem_append.mp hte
    unfold expandExpr
    exact (expandExpr_calls hP cond hc).bind fun _ hc =>
      (expandExpr_calls hP thenExpr ht).bind fun _ ht =>
        (expandExpr_calls hP elseExpr he).bind fun _ he =>
          .pure (List.forall_mem_append.mpr ⟨hc, List.forall_mem_append.mpr ⟨ht, he⟩⟩)
  | assign target value =>
    obtain ⟨ht, hv⟩ := List.forall_mem_append.mp he
    unfold expandExpr
    exact (expandTarget_calls hP target ht).bind fun _ ht =>
      (expandExpr_calls hP value hv).bind fun _ hv => .pure (List.forall_mem_append.mpr ⟨ht, hv⟩)
  | call call =>
    unfold expandExpr
    refine (expandOperands_calls hP call he).bind fun call hcall =>
      (expandCall_calls hP hcall ty span).bind fun r hr => ?_
    cases hr with
    | expression hr => exact .next fun _ => .pure hr
    | unchanged => exact .pure hcall
    | statement => exact .pure hcall
  | new type ctor args =>
    obtain ⟨hc, ha⟩ := List.forall_mem_append.mp he
    unfold expandExpr
    exact (expandAll_calls hP args ha).bind fun _ ha =>
      .pure (List.forall_mem_append.mpr ⟨hc, ha⟩)

theorem expandOperands_calls (hP : h.Declares P) (call : Call) (hcall : ∀ m ∈ call.callees, P m) :
    Yields (expandOperands h call) fun call => ∀ m ∈ call.callees, P m := by
  obtain ⟨method, receiver, args, isVirtual⟩ := call
  obtain ⟨hm, hparts⟩ := List.forall_mem_cons.mp hcall
  obtain ⟨hr, ha⟩ := List.forall_mem_append.mp hparts
  unfold expandOperands
  exact (expandOption_calls hP receiver hr).bind fun _ hr =>
    (expandAll_calls hP args ha).bind fun _ ha =>
      .pure (List.forall_mem_cons.mpr ⟨hm, List.forall_mem_append.mpr ⟨hr, ha⟩⟩)

theorem expandTarget_calls (hP : h.Declares P) (t : Target) (ht : ∀ m ∈ t.callees, P m) :
    Yields (expandTarget h t) fun t => ∀ m ∈ t.callees, P m := by
  cases t with
  | var name =>
    unfold expandTarget
    exact .pure nofun
  | field object field =>
    unfold expandTarget
    exact (expandOption_calls hP object ht).bind fun _ h => .pure h

theorem expandOption_calls (hP : h.Declares P) (e : Option Expr)
    (he : ∀ m ∈ calleesInOption e, P m) :
    Yields (expandOption h e) fun e => ∀ m ∈ calleesInOption e, P m := by
  cases e with
  | none =>
    unfold expandOption
    exact .pure nofun
  | some e =>
    unfold expandOption
    exact (expandExpr_calls hP e he).bind fun _ h => .pure h

theorem expandAll_calls (hP : h.Declares P) (es : List Expr) (hes : ∀ m ∈ calleesInAll es, P m) :
    Yields (expandAll h es) fun es => ∀ m ∈ calleesInAll es, P m := by
  cases es with
  | nil =>
    unfold expandAll
    exact .pure nofun
  | cons e es =>
    obtain ⟨he, hes⟩ := List.forall_mem_append.mp hes
    unfold expandAll
    exact (expandExpr_calls hP e he).bind fun _ he => (expandAll_calls hP es hes).bind fun _ hes =>
      .pure (List.forall_mem_append.mpr ⟨he, hes⟩)

end

/-! ## Statements -/

theorem voidCall?_eq_some {e : Expr} {call : Call} :
    voidCall? e = some call ↔ e.kind = .call call ∧ e.ty.isVoid = true := by
  unfold voidCall?
  split
  · next c hkind =>
    rw [hkind]
    constructor
    · intro h
      split at h
      · next hv => cases h; exact ⟨rfl, hv⟩
      · cases h
    · rintro ⟨hc, hv⟩
      cases hc
      rw [if_pos hv]
  · next hkind =>
    constructor
    · intro h
      cases h
    · rintro ⟨hc, -⟩
      exact absurd hc (hkind call)

theorem expandExprStmt_expands (hP : h.Declares P) {id : UInt32} {span : Span} {e : Expr}
    (he : e.CallsOnly P) : Yields (expandExprStmt h id span e) (Expands P .empty) := by
  have hstmt : ∀ {e : Expr}, e.CallsOnly P → Expands P .empty ⟨id, span, .expression e⟩ :=
    fun he => ⟨List.forall_mem_singleton.mpr (List.forall_mem_singleton.mpr he), rfl⟩
  obtain ⟨eid, espan, ty, kind⟩ := e
  unfold expandExprStmt
  split
  · next call hcall =>
    obtain ⟨rfl, -⟩ := voidCall?_eq_some.1 hcall
    refine (expandOperands_calls hP call he).bind fun call hcall =>
      (expandCall_calls hP hcall .void span).bind fun r hr => ?_
    cases hr with
    | statement hr => exact .next fun _ => .pure hr
    | unchanged => exact .pure (hstmt hcall)
    | expression => exact .pure (hstmt hcall)
  · exact (expandExpr_calls hP _ he).bind fun _ he => .pure (hstmt he)

/-- The cases after the expansion: their values and their bodies call these methods only, and there
are as many default cases as before. -/
structure ExpandsCases (P : MethodRef → Prop) (cases cases' : List SwitchCase) : Prop where
  values : ∀ e ∈ cases'.filterMap (·.value), e.CallsOnly P
  calls : ∀ t ∈ statementsInCases cases', t.CallsOnly P
  defaults : cases'.countP (·.value.isNone) = cases.countP (·.value.isNone)
  oneDefault : oneDefaultInCases cases' = oneDefaultInCases cases

/-- An optional expression is there after the expansion when it was there before. -/
theorem expandOption_expands (hP : h.Declares P) (e : Option Expr)
    (he : ∀ e' ∈ e.toList, e'.CallsOnly P) :
    Yields (expandOption h e) fun e' =>
      (∀ x ∈ e'.toList, x.CallsOnly P) ∧ e'.isNone = e.isNone := by
  cases e with
  | none =>
    unfold expandOption
    exact .pure ⟨nofun, rfl⟩
  | some e =>
    unfold expandOption
    exact (expandExpr_calls hP e (List.forall_mem_singleton.mp he)).bind fun _ he =>
      .pure ⟨List.forall_mem_singleton.mpr he, rfl⟩

theorem forall_mem_values_cons {case : SwitchCase} {cases : List SwitchCase} :
    (∀ e ∈ (case :: cases).filterMap (·.value), e.CallsOnly P) ↔
      (∀ e ∈ case.value.toList, e.CallsOnly P) ∧
        ∀ e ∈ cases.filterMap (·.value), e.CallsOnly P := by
  obtain ⟨span, value, body⟩ := case
  cases value <;> simp

mutual

theorem expandStmt_expands (hP : h.Declares P) (s : Stmt)
    (hs : ∀ t ∈ s.statements, t.CallsOnly P) : Yields (expandStmt h s) (Expands P s) := by
  have hown := hs s s.mem_statements
  have hin : ∀ t ∈ s.statements.tail, t.CallsOnly P := fun t ht => hs t (List.mem_of_mem_tail ht)
  obtain ⟨id, span, kind⟩ := s
  unfold expandStmt
  cases kind with
  | empty | breakLoop | continueLoop | goto | rethrow => exact .pure ⟨hs, rfl⟩
  | block stmts =>
    exact (expandStmts_expands hP stmts hin).bind fun _ hs =>
      .pure ⟨List.forall_mem_cons.mpr ⟨nofun, hs.1⟩, hs.2⟩
  | assert e =>
    exact (expandExpr_calls hP e (hown e List.mem_cons_self)).bind fun _ he =>
      .pure ⟨List.forall_mem_singleton.mpr (List.forall_mem_singleton.mpr he), rfl⟩
  | assume e =>
    exact (expandExpr_calls hP e (hown e List.mem_cons_self)).bind fun _ he =>
      .pure ⟨List.forall_mem_singleton.mpr (List.forall_mem_singleton.mpr he), rfl⟩
  | throw e =>
    exact (expandExpr_calls hP e (hown e List.mem_cons_self)).bind fun _ he =>
      .pure ⟨List.forall_mem_singleton.mpr (List.forall_mem_singleton.mpr he), rfl⟩
  | push e =>
    exact (expandExpr_calls hP e (hown e List.mem_cons_self)).bind fun _ he =>
      .pure ⟨List.forall_mem_singleton.mpr (List.forall_mem_singleton.mpr he), rfl⟩
  | conditional cond thenBranch elseBranch =>
    obtain ⟨ht, he⟩ := List.forall_mem_append.mp hin
    refine (expandExpr_calls hP cond (hown cond List.mem_cons_self)).bind fun _ hc =>
      (expandStmt_expands hP thenBranch ht).bind fun _ ht =>
        (expandStmt_expands hP elseBranch he).bind fun _ he => .pure ⟨?_, ?_⟩
    · exact List.forall_mem_cons.mpr ⟨List.forall_mem_singleton.mpr hc,
        List.forall_mem_append.mpr ⟨ht.calls, he.calls⟩⟩
    · rw [Stmt.oneDefault, ht.oneDefault, he.oneDefault, Stmt.oneDefault]
  | expression e =>
    exact (expandExprStmt_expands hP (hown e List.mem_cons_self)).imp fun _ he =>
      ⟨he.calls, he.oneDefault⟩
  | whileLoop cond body =>
    exact (expandExpr_calls hP cond (hown cond List.mem_cons_self)).bind fun _ hc =>
      (expandStmt_expands hP body hin).bind fun _ hb =>
        .pure ⟨List.forall_mem_cons.mpr ⟨List.forall_mem_singleton.mpr hc, hb.calls⟩, rfl⟩
  | doUntil body cond =>
    exact (expandExpr_calls hP cond (hown cond List.mem_cons_self)).bind fun _ hc =>
      (expandStmt_expands hP body hin).bind fun _ hb =>
        .pure ⟨List.forall_mem_cons.mpr ⟨List.forall_mem_singleton.mpr hc, hb.calls⟩, rfl⟩
  | forLoop init cond step body =>
    obtain ⟨hi, hsb⟩ := List.forall_mem_append.mp hin
    obtain ⟨hs, hb⟩ := List.forall_mem_append.mp hsb
    refine (expandStmts_expands hP init hi).bind fun _ hi =>
      (expandStmts_expands hP step hs).bind fun _ hs =>
        (expandOption_expands hP cond hown).bind fun _ hc =>
          (expandStmt_expands hP body hb).bind fun _ hb => .pure ⟨?_, rfl⟩
    exact List.forall_mem_cons.mpr ⟨hc.1,
      List.forall_mem_append.mpr ⟨hi.1, List.forall_mem_append.mpr ⟨hs.1, hb.calls⟩⟩⟩
  | forEach item collection body =>
    exact (expandExpr_calls hP collection (hown collection List.mem_cons_self)).bind fun _ hc =>
      (expandStmt_expands hP body hin).bind fun _ hb =>
        .pure ⟨List.forall_mem_cons.mpr ⟨List.forall_mem_singleton.mpr hc, hb.calls⟩, rfl⟩
  | switch scrutinee cases =>
    obtain ⟨hscrutinee, hvalues⟩ := List.forall_mem_cons.mp hown
    refine (expandExpr_calls hP scrutinee hscrutinee).bind fun _ hs =>
      (expandCases_expands hP cases hvalues hin).bind fun _ hc => .pure ⟨?_, ?_⟩
    · exact List.forall_mem_cons.mpr ⟨List.forall_mem_cons.mpr ⟨hs, hc.values⟩, hc.calls⟩
    · rw [Stmt.oneDefault, hc.defaults, hc.oneDefault, Stmt.oneDefault]
  | localDecl decl e =>
    exact (expandOption_expands hP e hown).bind fun _ he =>
      .pure ⟨List.forall_mem_singleton.mpr he.1, rfl⟩
  | ret e =>
    exact (expandOption_expands hP e hown).bind fun _ he =>
      .pure ⟨List.forall_mem_singleton.mpr he.1, rfl⟩
  | labeled name body =>
    exact (expandStmt_expands hP body hin).bind fun _ hb =>
      .pure ⟨List.forall_mem_cons.mpr ⟨nofun, hb.calls⟩, hb.oneDefault⟩
  | tryCatch body catches finalizer =>
    obtain ⟨hb, hcf⟩ := List.forall_mem_append.mp hin
    obtain ⟨hc, hf⟩ := List.forall_mem_append.mp hcf
    refine (expandStmt_expands hP body hb).bind fun _ hb =>
      (expandCatches_expands hP catches hc).bind fun _ hc =>
        (expandStmtOption_expands hP finalizer hf).bind fun _ hf => .pure ⟨?_, ?_⟩
    · exact List.forall_mem_cons.mpr ⟨nofun, List.forall_mem_append.mpr ⟨hb.calls,
        List.forall_mem_append.mpr ⟨hc.1, hf.1⟩⟩⟩
    · rw [Stmt.oneDefault, hb.oneDefault, hc.2, hf.2, Stmt.oneDefault]

theorem expandStmts_expands (hP : h.Declares P) (ss : List Stmt)
    (hs : ∀ t ∈ statementsIn ss, t.CallsOnly P) :
    Yields (expandStmts h ss) fun ss' =>
      (∀ t ∈ statementsIn ss', t.CallsOnly P) ∧ oneDefaultIn ss' = oneDefaultIn ss := by
  cases ss with
  | nil =>
    unfold expandStmts
    exact .pure ⟨nofun, rfl⟩
  | cons s ss =>
    obtain ⟨hs, hss⟩ := List.forall_mem_append.mp hs
    unfold expandStmts
    refine (expandStmt_expands hP s hs).bind fun _ hs =>
      (expandStmts_expands hP ss hss).bind fun _ hss => .pure ⟨?_, ?_⟩
    · exact List.forall_mem_append.mpr ⟨hs.calls, hss.1⟩
    · rw [oneDefaultIn, hs.oneDefault, hss.2, oneDefaultIn]

theorem expandCases_expands (hP : h.Declares P) (cases : List SwitchCase)
    (hvalues : ∀ e ∈ cases.filterMap (·.value), e.CallsOnly P)
    (hs : ∀ t ∈ statementsInCases cases, t.CallsOnly P) :
    Yields (expandCases h cases) (ExpandsCases P cases) := by
  cases cases with
  | nil =>
    unfold expandCases
    exact .pure ⟨nofun, nofun, rfl, rfl⟩
  | cons case cases =>
    obtain ⟨span, value, body⟩ := case
    obtain ⟨hb, hc⟩ := List.forall_mem_append.mp hs
    obtain ⟨hv, hvs⟩ := forall_mem_values_cons.mp hvalues
    unfold expandCases
    refine (expandOption_expands hP value hv).bind fun _ hv =>
      (expandStmts_expands hP body hb).bind fun _ hb =>
        (expandCases_expands hP cases hvs hc).bind fun _ hc => .pure ⟨?_, ?_, ?_, ?_⟩
    · exact forall_mem_values_cons.mpr ⟨hv.1, hc.values⟩
    · exact List.forall_mem_append.mpr ⟨hb.1, hc.calls⟩
    · rw [List.countP_cons, hc.defaults, hv.2, List.countP_cons]
    · rw [oneDefaultInCases, hb.2, hc.oneDefault, oneDefaultInCases]

theorem expandCatches_expands (hP : h.Declares P) (clauses : List CatchClause)
    (hs : ∀ t ∈ statementsInCatches clauses, t.CallsOnly P) :
    Yields (expandCatches h clauses) fun clauses' =>
      (∀ t ∈ statementsInCatches clauses', t.CallsOnly P) ∧
        oneDefaultInCatches clauses' = oneDefaultInCatches clauses := by
  cases clauses with
  | nil =>
    unfold expandCatches
    exact .pure ⟨nofun, rfl⟩
  | cons clause clauses =>
    obtain ⟨span, type, binding, body⟩ := clause
    obtain ⟨hb, hc⟩ := List.forall_mem_append.mp hs
    unfold expandCatches
    refine (expandStmt_expands hP body hb).bind fun _ hb =>
      (expandCatches_expands hP clauses hc).bind fun _ hc => .pure ⟨?_, ?_⟩
    · exact List.forall_mem_append.mpr ⟨hb.calls, hc.1⟩
    · rw [oneDefaultInCatches, hb.oneDefault, hc.2, oneDefaultInCatches]

theorem expandStmtOption_expands (hP : h.Declares P) (s : Option Stmt)
    (hs : ∀ t ∈ statementsInOption s, t.CallsOnly P) :
    Yields (expandStmtOption h s) fun s' =>
      (∀ t ∈ statementsInOption s', t.CallsOnly P) ∧
        oneDefaultInOption s' = oneDefaultInOption s := by
  cases s with
  | none =>
    unfold expandStmtOption
    exact .pure ⟨nofun, rfl⟩
  | some s =>
    unfold expandStmtOption
    exact (expandStmt_expands hP s hs).bind fun _ hs => .pure ⟨hs.calls, hs.oneDefault⟩

end

/-! ## Bodies -/

theorem statementsIn_append (ss ts : List Stmt) :
    statementsIn (ss ++ ts) = statementsIn ss ++ statementsIn ts := by
  induction ss with
  | nil => rfl
  | cons s ss ih => rw [List.cons_append, statementsIn, statementsIn, ih, List.append_assoc]

theorem oneDefaultIn_append (ss ts : List Stmt) :
    oneDefaultIn (ss ++ ts) = (oneDefaultIn ss && oneDefaultIn ts) := by
  induction ss with
  | nil => rfl
  | cons s ss ih => rw [List.cons_append, oneDefaultIn, oneDefaultIn, ih, Bool.and_assoc]

/-- The declarations in front of a body call nothing. -/
theorem declareAll_expands {body s : Stmt} (hs : Expands P body s)
    (receivers : List Source.Variable) : Expands P body (declareAll receivers s) := by
  have hdeclared : (∀ t ∈ statementsIn (receivers.map declare), t.CallsOnly P) ∧
      oneDefaultIn (receivers.map declare) = true := by
    induction receivers with
    | nil => exact ⟨nofun, rfl⟩
    | cons v receivers ih => exact ⟨List.forall_mem_cons.mpr ⟨nofun, ih.1⟩, ih.2⟩
  have hflat : (∀ t ∈ statementsIn (flatten s), t.CallsOnly P) ∧
      oneDefaultIn (flatten s) = s.oneDefault := by
    obtain ⟨id, span, kind⟩ := s
    unfold flatten
    split
    · next stmts hkind =>
      cases hkind
      exact ⟨(List.forall_mem_cons.mp hs.calls).2, rfl⟩
    · refine ⟨?_, ?_⟩
      · rw [statementsIn, statementsIn, List.append_nil]
        exact hs.calls
      · rw [oneDefaultIn, oneDefaultIn, Bool.and_true]
  unfold declareAll
  split
  · exact hs
  · refine ⟨List.forall_mem_cons.mpr ⟨nofun, ?_⟩, ?_⟩
    · rw [statementsIn_append]
      exact List.forall_mem_append.mpr ⟨hdeclared.1, hflat.1⟩
    · show oneDefaultIn (receivers.map declare ++ flatten s) = body.oneDefault
      rw [oneDefaultIn_append, hdeclared.2, hflat.2, Bool.true_and, hs.oneDefault]

/-- An expanded body calls what the body calls and what is declared. -/
theorem transform_expands (hP : h.Declares P) (body : Stmt)
    (hbody : ∀ t ∈ body.statements, t.CallsOnly P) :
    Yields (transform h body) (Expands P body) :=
  (expandStmt_expands hP body hbody).bind fun _ hs => .next fun _ => .next fun _ =>
    .pure (declareAll_expands hs _)

end Dispatch

end Unwind
