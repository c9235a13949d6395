import Mathlib.Data.List.Forall2
import Unwind.Proofs.Dispatch.Sites
import Unwind.Proofs.Operands.Expressions

/-!
# Pops in expanded expressions

A cascade has one copy of the arguments for every override, and one more for the fallback. They are
all lowered on the same operands, so that a `pop` in an argument takes an operand in each of them.
The receiver is evaluated once. Where the arguments of replaced calls do not pop, an expanded
expression therefore takes the operands that the expression takes, in the same order, and it is
admissible when the expression is (`expandExpr_stands`).
-/

namespace Unwind.Operands

open Dispatch
open Lowering (Runs isCompound isDefaultValue runs_bind runs_modify runs_pure)
open Source

/-! ## What is known of the nodes of a body -/

/-- What a well-typed program ensures of a node: only a call is void, a receiver is not, and an
override has a result exactly if the call has one. -/
structure Checked (h : Hierarchy) (n : Expr) : Prop where
  callIfVoid : n.CallIfVoid
  receiver : ∀ {call e}, n.call? = some call → call.receiver = some e → e.ty.isVoid = false
  overrides : ∀ {call os}, n.call? = some call → h.resolve call.method = .ok os → ∀ o ∈ os,
    (resultType h o.method n.ty).isVoid = n.ty.isVoid

/-- A call that is replaced has no `pop` in its arguments. -/
def QuietArgs (h : Hierarchy) (n : Expr) : Prop :=
  ∀ call, n.call? = some call → ¬ Settled h call → popNodesInAll call.args = []

/-- The node is what it should be, and its pops are not copied. -/
structure Fit (h : Hierarchy) (n : Expr) : Prop where
  checked : Checked h n
  quiet : QuietArgs h n

/-- The variables hold values. -/
def HoldValues (vs : List Variable) : Prop := ∀ v ∈ vs, v.ty.isVoid = false

/-! ## Steps -/

/-- Every result of the step satisfies the predicate, and the variables that it binds hold
values. -/
structure Gives {α : Type} (x : Expanding α) (Q : α → Prop) : Prop where
  result : ∀ {s s' : State} {a : α}, Runs x s a s' → Q a
  receivers : ∀ {s s' : State} {a : α}, Runs x s a s' → HoldValues s.receivers →
    HoldValues s'.receivers

namespace Gives

variable {α β : Type} {x : Expanding α} {f : α → Expanding β} {Q : α → Prop} {R : β → Prop}

theorem pure {a : α} (ha : Q a) : Gives (Pure.pure a) Q := by
  refine ⟨fun h => ?_, fun h => ?_⟩
  · rwa [(runs_pure.mp h).1]
  · rw [(runs_pure.mp h).2]
    exact id

theorem bind (hx : Gives x Q) (hf : ∀ a, Q a → Gives (f a) R) : Gives (x >>= f) R := by
  refine ⟨fun h => ?_, fun h hs => ?_⟩ <;> obtain ⟨a, s₁, h₁, h₂⟩ := runs_bind.mp h
  · exact (hf a (hx.result h₁)).result h₂
  · exact (hf a (hx.result h₁)).receivers h₂ (hx.receivers h₁ hs)

theorem count : Gives Dispatch.count fun _ => True := by
  refine ⟨fun _ => trivial, fun h => ?_⟩
  rw [runs_modify.mp h]
  exact id

end Gives

/-! ## Expressions that stand for others -/

/-- What stands in the place of some parts pops the same, is admissible when they are, and is void
in calls only. -/
structure Serves (pops pops' : List Expr) (ok ok' : Prop) (nodes' : List Expr) : Prop where
  popNodes : pops' = pops
  admissible : ok → ok'
  voids : ∀ n ∈ nodes', n.CallIfVoid

namespace Serves

variable {ps ps' qs qs' ns ms : List Expr} {ok ok' also also' : Prop}

theorem append (h : Serves ps ps' ok ok' ns) (h' : Serves qs qs' also also' ms) :
    Serves (ps ++ qs) (ps' ++ qs') (ok ∧ also) (ok' ∧ also') (ns ++ ms) :=
  ⟨by rw [h.popNodes, h'.popNodes], And.imp h.admissible h'.admissible,
    List.forall_mem_append.mpr ⟨h.voids, h'.voids⟩⟩

/-- A node with these parts. -/
theorem node (h : Serves ps ps' ok ok' ns) {n : Expr} (hn : n.CallIfVoid) :
    Serves ps ps' ok ok' (n :: ns) :=
  ⟨h.popNodes, h.admissible, List.forall_mem_cons.mpr ⟨hn, h.voids⟩⟩

end Serves

/-- The second expression can stand in the place of the first one. -/
structure StandsFor (e e' : Expr) : Prop where
  ty : e'.ty = e.ty
  serves : ∀ compound, Serves e.popNodes e'.popNodes (e.Admissible compound)
    (e'.Admissible compound) e'.nodes
  isTarget : e'.isTarget = e.isTarget
  isCompound : isCompound e' = isCompound e
  isDefaultValue : isDefaultValue e' = isDefaultValue e

section

variable {e e' : Expr}

/-- As the operand of another expression. -/
theorem StandsFor.operand (h : StandsFor e e') :
    Serves e.popNodes e'.popNodes e.Valued e'.Valued e'.nodes where
  popNodes := (h.serves false).popNodes
  admissible he := ⟨(h.serves false).admissible he.1, h.ty ▸ he.2⟩
  voids := (h.serves false).voids

theorem serves_option {e e' : Option Expr} (h : Option.Rel StandsFor e e') :
    Serves (popNodesInOption e) (popNodesInOption e') (AdmissibleOption e) (AdmissibleOption e')
      (nodesInOption e') := by
  cases h with
  | none => exact ⟨rfl, id, nofun⟩
  | some h => exact h.operand

theorem serves_all {es es' : List Expr} (h : List.Forall₂ StandsFor es es') :
    Serves (popNodesInAll es) (popNodesInAll es') (AdmissibleAll es) (AdmissibleAll es')
      (nodesInAll es') := by
  induction h with
  | nil => exact ⟨rfl, id, nofun⟩
  | cons h _ ih => exact h.operand.append ih

end

/-! ## Cascades -/

/-- The expression takes the operands `pops`, and is admissible when `ok` holds. -/
structure Spends (pops : List Expr) (ok : Prop) (e : Expr) : Prop where
  popNodes : e.popNodes = pops
  admissible : ok → ∀ compound, e.Admissible compound
  voids : ∀ n ∈ e.nodes, n.CallIfVoid

/-- The expression has a value, too. -/
structure Computes (pops : List Expr) (ok : Prop) (e : Expr) : Prop extends Spends pops ok e where
  ty : e.ty.isVoid = false

/-- A node that is not void. -/
theorem callIfVoid_of_ty {e : Expr} (h : e.ty.isVoid = false) : e.CallIfVoid := fun hv => by
  rw [h] at hv
  cases hv

section

variable {h : Hierarchy} {pops : List Expr} {ok : Prop}

namespace Computes

variable {c e rest : Expr}

theorem imp {ok' : Prop} (he : Computes pops ok e) (hok : ok' → ok) : Computes pops ok' e :=
  ⟨⟨he.popNodes, fun h => he.admissible (hok h), he.voids⟩, he.ty⟩

theorem valued (he : Computes pops ok e) (hok : ok) : e.Valued := ⟨he.admissible hok false, he.ty⟩

theorem exactTypeTest (he : Computes pops ok e) (type : TypeRef) (span : Span) :
    Computes pops ok (exactTypeTest e type span) where
  popNodes := by
    show e.popNodes ++ ([] ++ []) = pops
    rw [he.popNodes, List.append_nil, List.append_nil]
  admissible hok _ := ⟨nofun, ⟨he.valued hok, rfl⟩, trivial, rfl⟩
  voids := List.forall_mem_cons.mpr ⟨callIfVoid_of_ty rfl, List.forall_mem_append.mpr
    ⟨List.forall_mem_cons.mpr ⟨callIfVoid_of_ty rfl, he.voids⟩,
      List.forall_mem_singleton.mpr (callIfVoid_of_ty rfl)⟩⟩
  ty := rfl

theorem joinExprs (hc : Computes pops ok c) (he : Computes [] ok e) (hrest : Computes [] ok rest)
    (span : Span) : Computes pops ok (joinExprs span c e rest) where
  popNodes := by
    show c.popNodes ++ (e.popNodes ++ rest.popNodes) = pops
    rw [hc.popNodes, he.popNodes, hrest.popNodes, List.append_nil, List.append_nil]
  admissible hok _ := ⟨hc.valued hok, he.valued hok, hrest.valued hok⟩
  voids := List.forall_mem_cons.mpr ⟨callIfVoid_of_ty hrest.ty, List.forall_mem_append.mpr
    ⟨hc.voids, List.forall_mem_append.mpr ⟨he.voids, hrest.voids⟩⟩⟩
  ty := hrest.ty

end Computes

/-- A call whose arguments take nothing, on a receiver that takes nothing. -/
structure QuietCall (call : Call) (receiver : Expr) (ok : Prop) : Prop where
  receiver : Computes [] ok receiver
  args : Serves [] (popNodesInAll call.args) ok (AdmissibleAll call.args) (nodesInAll call.args)

namespace QuietCall

variable {call : Call} {receiver : Expr} {result : Ty}

theorem directCall (hc : QuietCall call receiver ok) (m : MethodRef) (result : Ty) (span : Span) :
    Spends [] ok (directCall call receiver m result span) where
  popNodes := by
    show receiver.popNodes ++ popNodesInAll call.args = []
    rw [hc.receiver.popNodes, hc.args.popNodes, List.append_nil]
  admissible hok _ := ⟨hc.receiver.valued hok, hc.args.admissible hok⟩
  voids := List.forall_mem_cons.mpr ⟨fun _ => rfl, List.forall_mem_append.mpr
    ⟨hc.receiver.voids, hc.args.voids⟩⟩

theorem branch (hc : QuietCall call receiver ok) (result : Ty) (span : Span) {o : Override}
    (ho : (resultType h o.method result).isVoid = result.isVoid) :
    Spends [] ok (branch h call receiver result span o) := by
  have hcall := hc.directCall o.method (resultType h o.method result) span
  unfold Dispatch.branch
  cases hresult : result.isVoid with
  | true => exact hcall
  | false =>
    exact ⟨hcall.popNodes, fun hok _ => ⟨hcall.admissible hok false, ho.trans hresult⟩,
      List.forall_mem_cons.mpr ⟨callIfVoid_of_ty hresult, hcall.voids⟩⟩

theorem ty_branch (h : Hierarchy) (call : Call) (receiver : Expr) (hresult : result.isVoid = false)
    (span : Span) (o : Override) :
    (Dispatch.branch h call receiver result span o).ty.isVoid = false := by
  unfold Dispatch.branch
  rw [hresult]
  exact hresult

/-- A cascade of expressions takes what its first test takes. -/
theorem cascade (hc : QuietCall call receiver ok) (hresult : result.isVoid = false) (span : Span)
    {tested : Expr} (htested : Computes pops ok tested) {o : Override} {os : List Override}
    (hos : ∀ o' ∈ o :: os, (resultType h o'.method result).isVoid = result.isVoid) :
    Computes pops ok (cascade (joinExprs span) (Dispatch.branch h call receiver result span)
      receiver span (Dispatch.directCall call receiver call.method result span) tested
      (o :: os)) := by
  have hbranch : ∀ o' ∈ o :: os, Computes [] ok (Dispatch.branch h call receiver result span o') :=
    fun o' ho' => ⟨hc.branch result span (hos o' ho'), ty_branch h call receiver hresult span o'⟩
  obtain ⟨ho, hos⟩ := List.forall_mem_cons.mp hbranch
  refine (htested.exactTypeTest o.type span).joinExprs ho ?_ span
  exact cascade_induct (fun _ type he => he.exactTypeTest type span)
    (fun _ _ _ hc he hrest => hc.joinExprs he hrest span) hos hc.receiver
    ⟨hc.directCall call.method result span, hresult⟩ hc.receiver

end QuietCall

/-- A receiver is evaluated in the first test; behind it, it is read without a `pop`. -/
theorem computes_of_bound {vs vs' : List Variable} {e : Expr} {receiver : Receiver}
    (hb : Bound vs e receiver vs') (hty : e.ty.isVoid = false)
    (hvoids : ∀ n ∈ e.nodes, n.CallIfVoid) :
    Computes e.popNodes e.Valued receiver.first ∧ Computes [] e.Valued receiver.later := by
  cases hb with
  | reused hreusable =>
    have hsame : Computes [] e.Valued e := by
      obtain ⟨id, span, ty, kind⟩ := e
      cases kind with
      | var | self => exact ⟨⟨rfl, fun _ _ => trivial, hvoids⟩, hty⟩
      | _ => cases hreusable
    exact ⟨⟨⟨rfl, hsame.admissible, hvoids⟩, hty⟩, hsame⟩
  | named =>
    refine ⟨⟨⟨?_, fun hok _ => ⟨hok, trivial⟩, ?_⟩, hty⟩, ⟨⟨rfl, fun _ _ => trivial, ?_⟩, hty⟩⟩
    · show e.popNodes ++ ([] ++ []) = e.popNodes
      rw [List.append_nil, List.append_nil]
    · exact List.forall_mem_cons.mpr ⟨callIfVoid_of_ty hty, hvoids⟩
    · exact List.forall_mem_singleton.mpr (callIfVoid_of_ty hty)

theorem holdValues_of_bound {vs vs' : List Variable} {e : Expr} {receiver : Receiver}
    (hb : Bound vs e receiver vs') (hty : e.ty.isVoid = false) (hvs : HoldValues vs) :
    HoldValues vs' := by
  cases hb with
  | reused => exact hvs
  | named => exact List.forall_mem_append.mpr ⟨hvs, List.forall_mem_singleton.mpr hty⟩

/-! ## Calls -/

/-- The second call is the first one with other operands in the place of its own. -/
structure CallStandsFor (call call' : Call) : Prop where
  method : call'.method = call.method
  isVirtual : call'.isVirtual = call.isVirtual
  receiver : Option.Rel StandsFor call.receiver call'.receiver
  args : List.Forall₂ StandsFor call.args call'.args

theorem CallStandsFor.isExempt {call call' : Call} (hs : CallStandsFor call call') :
    isExempt h call' = isExempt h call := by
  have hreceiver : call'.receiver.isNone = call.receiver.isNone := by
    have hr := hs.receiver
    generalize call.receiver = e, call'.receiver = e' at hr
    cases hr <;> rfl
  unfold Dispatch.isExempt
  rw [hs.method, hs.isVirtual, hreceiver]

theorem CallStandsFor.exists_receiver {call call' : Call} (hs : CallStandsFor call call')
    {e' : Expr} (he' : call'.receiver = some e') :
    ∃ e, call.receiver = some e ∧ StandsFor e e' := by
  have hr := hs.receiver
  rw [he'] at hr
  generalize call.receiver = receiver at hr
  cases hr with
  | some h => exact ⟨_, rfl, h⟩

theorem CallStandsFor.serves {n n' : Expr} {call call' : Call} (hs : CallStandsFor call call')
    (hn : n.call? = some call) (hn' : n'.call? = some call') (compound : Bool) :
    Serves n.popNodes n'.popNodes (n.Admissible compound) (n'.Admissible compound) n'.nodes := by
  have hr := serves_option hs.receiver
  have ha := serves_all hs.args
  rw [Expr.popNodes_of_call? hn, Expr.popNodes_of_call? hn', Expr.admissible_of_call? hn,
    Expr.admissible_of_call? hn']
  refine ⟨by rw [hr.popNodes, ha.popNodes], And.imp hr.admissible ha.admissible, ?_⟩
  obtain ⟨id, span, ty, kind⟩ := n'
  obtain ⟨method, receiver, args, isVirtual⟩ := call'
  cases kind <;> cases hn'
  exact List.forall_mem_cons.mpr ⟨fun _ => rfl, List.forall_mem_append.mpr ⟨hr.voids, ha.voids⟩⟩

/-- The cascade that replaces the call `n`, whose operands have become those of `call'`. -/
structure Cascaded (h : Hierarchy) (n : Expr) (call' : Call) (receiver : Receiver)
    (os : List Override) : Prop where
  first : Computes n.popNodes (n.Admissible false) receiver.first
  quiet : QuietCall call' receiver.later (n.Admissible false)
  results : ∀ o ∈ os, (resultType h o.method n.ty).isVoid = n.ty.isVoid
  nonempty : os ≠ []

/-- A dispatched call is replaced by a cascade that takes the operands of the call. -/
theorem cascaded_of_dispatched {n : Expr} {call call' : Call} {vs vs' : List Variable}
    {e' : Expr} {os : List Override} {receiver : Receiver} (hn : n.call? = some call)
    (hf : Fit h n) (hs : CallStandsFor call call')
    (hd : Dispatched h call' vs e' os receiver vs') : Cascaded h n call' receiver os := by
  obtain ⟨e, he, hstands⟩ := hs.exists_receiver hd.receiver_eq
  have hty : e'.ty.isVoid = false := by
    rw [hstands.ty]
    exact hf.checked.receiver hn he
  have hnot : ¬ Settled h call := by
    unfold Settled
    rw [← hs.isExempt, ← hs.method, hd.not_exempt, hd.resolves]
    simp [hd.nonempty]
  have hquiet : popNodesInAll call.args = [] := hf.quiet call hn hnot
  have hpops : n.popNodes = e'.popNodes := by
    rw [Expr.popNodes_of_call? hn, hquiet, List.append_nil, he, hstands.operand.popNodes]
    rfl
  have hadm : n.Admissible false → e'.Valued ∧ AdmissibleAll call'.args := by
    rw [Expr.admissible_of_call? hn, he]
    exact And.imp hstands.operand.admissible (serves_all hs.args).admissible
  obtain ⟨hfirst, hlater⟩ := computes_of_bound hd.bound hty hstands.operand.voids
  have hargs := serves_all hs.args
  rw [hquiet] at hargs
  refine ⟨?_, ⟨?_, hargs.popNodes, fun hok => (hadm hok).2, hargs.voids⟩, ?_, hd.nonempty⟩
  · rw [hpops]
    exact hfirst.imp fun hok => (hadm hok).1
  · exact hlater.imp fun hok => (hadm hok).1
  · exact hf.checked.overrides hn (hs.method ▸ hd.resolves)

/-- The cascade of a call that has a value stands in the place of the call. -/
theorem Cascaded.stands {n : Expr} {call call' : Call} {receiver : Receiver} {os : List Override}
    (hd : Cascaded h n call' receiver os) (hn : n.call? = some call) (hty : n.ty.isVoid = false)
    (span : Span) :
    StandsFor n (cascade (joinExprs span) (branch h call' receiver.later n.ty span) receiver.later
      span (directCall call' receiver.later call'.method n.ty span) receiver.first os) := by
  obtain ⟨id, nspan, ty, kind⟩ := n
  cases kind <;> cases hn
  cases os with
  | nil => exact absurd rfl hd.nonempty
  | cons o os =>
    have hcomputes := hd.quiet.cascade hty span hd.first hd.results
    -- the type of a cascade is that of its fallback
    have hfallback : ∀ tested,
        (cascade (joinExprs span) (branch h call' receiver.later ty span) receiver.later span
          (directCall call' receiver.later call'.method ty span) tested os).ty = ty := fun tested =>
      cascade_induct (E := fun _ => True) (Q := fun e : Expr => e.ty = ty) (fun _ _ _ => trivial)
        (fun _ _ _ _ _ h => h) (fun _ _ => trivial) trivial rfl trivial
    refine ⟨hfallback _, fun compound => ⟨hcomputes.popNodes, fun hok => ?_, hcomputes.voids⟩, rfl,
      rfl, rfl⟩
    rw [Expr.admissible_of_call? rfl] at hok
    exact hcomputes.admissible ((Expr.admissible_of_call? rfl false).mpr hok) compound

/-- A call is left as it is, or it becomes a cascade; a receiver that is bound holds a value. -/
theorem expandCall_gives {n : Expr} {call call' : Call} (hn : n.call? = some call)
    (hf : Fit h n) (hs : CallStandsFor call call') (span : Span) :
    Gives (expandCall h call' n.ty span) fun r => r = .unchanged ∨
      ∃ receiver os, Cascaded h n call' receiver os ∧ r = chain h call' n.ty span receiver os := by
  refine ⟨fun hrun => ?_, fun hrun hvs => ?_⟩
  · obtain ⟨rfl, -, -⟩ | ⟨e, os, receiver, hd, rfl⟩ := runs_expandCall hrun
    · exact .inl rfl
    · exact .inr ⟨receiver, os, cascaded_of_dispatched hn hf hs hd, rfl⟩
  · obtain ⟨-, -, heq⟩ | ⟨e', os, receiver, hd, -⟩ := runs_expandCall hrun
    · rwa [heq]
    · obtain ⟨e, he, hstands⟩ := hs.exists_receiver hd.receiver_eq
      refine holdValues_of_bound hd.bound ?_ hvs
      rw [hstands.ty]
      exact hf.checked.receiver hn he

/-! ## Expressions -/

mutual

/-- An expanded expression can stand in the place of the expression. -/
theorem expandExpr_stands (e : Expr) (hf : ∀ n ∈ e.nodes, Fit h n) :
    Gives (expandExpr h e) (StandsFor e) := by
  obtain ⟨id, span, ty, kind⟩ := e
  obtain ⟨hown, hin⟩ := List.forall_mem_cons.mp hf
  have hvoid := hown.checked.callIfVoid
  cases kind with
  | literal | var | self | typeOf | defaultValue | pop =>
    unfold expandExpr
    have hvoids := List.forall_mem_singleton.mpr hvoid
    exact .pure ⟨rfl, fun _ => ⟨rfl, fun h => h, hvoids⟩, rfl, rfl, rfl⟩
  | field object field =>
    unfold expandExpr
    exact (expandOption_stands object hin).bind fun _ ho =>
      .pure ⟨rfl, fun _ => (serves_option ho).node hvoid, rfl, rfl, rfl⟩
  | unary op e =>
    unfold expandExpr
    exact (expandExpr_stands e hin).bind fun _ he =>
      .pure ⟨rfl, fun _ => he.operand.node hvoid, rfl, rfl, rfl⟩
  | getType e =>
    unfold expandExpr
    exact (expandExpr_stands e hin).bind fun _ he =>
      .pure ⟨rfl, fun _ => he.operand.node hvoid, rfl, rfl, rfl⟩
  | conversion e newTy =>
    unfold expandExpr
    exact (expandExpr_stands e hin).bind fun _ he =>
      .pure ⟨rfl, fun _ => he.operand.node hvoid, rfl, rfl, rfl⟩
  | target target =>
    unfold expandExpr
    exact (expandTarget_stands target hin).bind fun _ ht =>
      .pure ⟨rfl, fun _ => ht.node hvoid, rfl, rfl, rfl⟩
  | new type ctor args =>
    unfold expandExpr
    exact (expandAll_stands args hin).bind fun _ ha =>
      .pure ⟨rfl, fun _ => (serves_all ha).node hvoid, rfl, rfl, rfl⟩
  | binary op lhs rhs =>
    obtain ⟨hcl, hcr⟩ := List.forall_mem_append.mp hin
    unfold expandExpr
    refine (expandExpr_stands lhs hcl).bind fun lhs' hl =>
      (expandExpr_stands rhs hcr).bind fun rhs' hr =>
        .pure ⟨rfl, fun compound => Serves.node ⟨?_, ?_, ?_⟩ hvoid, rfl, hl.isTarget, rfl⟩
    · rw [Expr.popNodes, hl.isTarget, hl.operand.popNodes, hr.operand.popNodes, Expr.popNodes]
    · rintro ⟨hplace, hlok, hrok⟩
      exact ⟨hl.isTarget ▸ hplace, hl.operand.admissible hlok, hr.operand.admissible hrok⟩
    · exact (hl.operand.append hr.operand).voids
  | conditional cond thenExpr elseExpr =>
    obtain ⟨hcc, hcte⟩ := List.forall_mem_append.mp hin
    obtain ⟨hct, hce⟩ := List.forall_mem_append.mp hcte
    unfold expandExpr
    exact (expandExpr_stands cond hcc).bind fun _ hc =>
      (expandExpr_stands thenExpr hct).bind fun _ ht =>
        (expandExpr_stands elseExpr hce).bind fun _ he => .pure ⟨rfl,
          fun _ => (hc.operand.append (ht.operand.append he.operand)).node hvoid, rfl, rfl, rfl⟩
  | assign target value =>
    obtain ⟨hct, hcv⟩ := List.forall_mem_append.mp hin
    unfold expandExpr
    refine (expandTarget_stands target hct).bind fun target' ht =>
      (expandExpr_stands value hcv).bind fun value' hv =>
        .pure ⟨rfl, fun _ => Serves.node ⟨?_, ?_, ?_⟩ hvoid, rfl, rfl, rfl⟩
    · rw [Expr.popNodes, hv.operand.popNodes, ht.popNodes, Expr.popNodes]
    · exact And.imp hv.operand.admissible ht.admissible
    · exact (ht.append hv.operand).voids
  | call call =>
    unfold expandExpr
    refine (expandOperands_stands call hin).bind fun call' hs => ?_
    have hstays : StandsFor ⟨id, span, ty, .call call⟩ ⟨id, span, ty, .call call'⟩ :=
      ⟨rfl, hs.serves rfl rfl, rfl, rfl, rfl⟩
    refine (expandCall_gives rfl hown hs span).bind fun r hr => ?_
    obtain rfl | ⟨receiver, os, hd, rfl⟩ := hr
    · exact .pure hstays
    · cases hty : ty.isVoid with
      | true =>
        rw [chain, if_pos hty]
        exact .pure hstays
      | false =>
        rw [chain, if_neg (by simp [hty])]
        exact Gives.count.bind fun _ _ => .pure (hd.stands rfl hty span)

theorem expandOperands_stands (call : Call) (hf : ∀ n ∈ call.nodes, Fit h n) :
    Gives (expandOperands h call) (CallStandsFor call) := by
  obtain ⟨method, receiver, args, isVirtual⟩ := call
  obtain ⟨hcr, hca⟩ := List.forall_mem_append.mp hf
  unfold expandOperands
  exact (expandOption_stands receiver hcr).bind fun _ hr =>
    (expandAll_stands args hca).bind fun _ ha => .pure ⟨rfl, rfl, hr, ha⟩

theorem expandTarget_stands (target : Target) (hf : ∀ n ∈ target.nodes, Fit h n) :
    Gives (expandTarget h target) fun target' =>
      Serves target.popNodes target'.popNodes target.Admissible target'.Admissible
        target'.nodes := by
  cases target with
  | var name =>
    unfold expandTarget
    exact .pure ⟨rfl, id, nofun⟩
  | field object field =>
    unfold expandTarget
    exact (expandOption_stands object hf).bind fun _ ho => .pure (serves_option ho)

theorem expandOption_stands (e : Option Expr) (hf : ∀ n ∈ nodesInOption e, Fit h n) :
    Gives (expandOption h e) (Option.Rel StandsFor e) := by
  cases e with
  | none =>
    unfold expandOption
    exact .pure .none
  | some e =>
    unfold expandOption
    exact (expandExpr_stands e hf).bind fun _ he => .pure (.some he)

theorem expandAll_stands (es : List Expr) (hf : ∀ n ∈ nodesInAll es, Fit h n) :
    Gives (expandAll h es) (List.Forall₂ StandsFor es) := by
  cases es with
  | nil =>
    unfold expandAll
    exact .pure .nil
  | cons e es =>
    obtain ⟨hce, hces⟩ := List.forall_mem_append.mp hf
    unfold expandAll
    exact (expandExpr_stands e hce).bind fun _ he =>
      (expandAll_stands es hces).bind fun _ hes => .pure (.cons he hes)

end

end

end Unwind.Operands
