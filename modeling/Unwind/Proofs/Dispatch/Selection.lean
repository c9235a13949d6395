import Unwind.Proofs.Dispatch.Evaluation
import Unwind.Proofs.Dispatch.Receivers
import Unwind.Proofs.Hierarchy.Keys

/-!
# What a cascade selects

A cascade is read in two ways. `arms?` reads its tests and calls off the syntax; evaluating it comes
down to one evaluation of the receiver, the arguments, and one direct call of the method that the
exact type of the receiver asks for (`expandCall_selects`).
-/

namespace Unwind.Dispatch

open Source
open Evaluation
open Machine (Value)
open Lowering (Runs run_bind)

/-! ## Reading a cascade -/

/-- One test of a cascade and the call behind it. -/
structure Arm where
  tested : Expr
  type : TypeRef
  call : Call

/-- The expression whose exact type is tested, and the type that it is compared with. -/
def test? (e : Expr) : Option (Expr × TypeRef) :=
  match e.kind with
  | .binary .eq ⟨_, _, _, .getType tested⟩ ⟨_, _, _, .typeOf type⟩ => some (tested, type)
  | _ => none

/-- The call that an expression is, conversions of its result apart. -/
def convertedCall? : Expr → Option Call
  | ⟨_, _, _, .call call⟩ => some call
  | ⟨_, _, _, .conversion e _⟩ => convertedCall? e
  | _ => none

/-- The arms of a cascade of expressions, and the call when no test holds. -/
def exprArms? : Expr → Option (List Arm × Call)
  | ⟨_, _, _, .conditional cond thenExpr rest⟩ => do
    let (tested, type) ← test? cond
    let call ← convertedCall? thenExpr
    let (arms, fallback) ← exprArms? rest
    return (⟨tested, type, call⟩ :: arms, fallback)
  | e => (convertedCall? e).map ([], ·)

/-- The arms of a cascade of statements, and the call when no test holds. -/
def stmtArms? : Stmt → Option (List Arm × Call)
  | ⟨_, _, .conditional cond ⟨_, _, .expression thenExpr⟩ rest⟩ => do
    let (tested, type) ← test? cond
    let call ← convertedCall? thenExpr
    let (arms, fallback) ← stmtArms? rest
    return (⟨tested, type, call⟩ :: arms, fallback)
  | ⟨_, _, .expression e⟩ => (convertedCall? e).map ([], ·)
  | _ => none

/-- The arms of what stands in the place of a call. -/
def Replacement.arms? : Replacement → Option (List Arm × Call)
  | .unchanged => none
  | .statement s => stmtArms? s
  | .expression e => exprArms? e

/-- The arms that overrides ask for: the first test is on `tested`, all else reads `later`. -/
def armsOf (args : List Expr) (later : Expr) : Expr → List Override → List Arm
  | _, [] => []
  | tested, o :: os =>
    ⟨tested, o.type, .direct o.method (some later) args⟩ :: armsOf args later later os

section

variable {h : Hierarchy} {call : Call} {later : Expr} {result : Ty} {span : Span}

theorem convertedCall?_branch (o : Override) :
    convertedCall? (branch h call later result span o) =
      some (.direct o.method (some later) call.args) := by
  unfold branch
  dsimp only
  split <;> rfl

theorem exprArms?_joinExprs {tested e rest : Expr} {type : TypeRef} {c : Call} {arms : List Arm}
    {fallback : Call} (he : convertedCall? e = some c)
    (hrest : exprArms? rest = some (arms, fallback)) :
    exprArms? (joinExprs span (exactTypeTest tested type span) e rest) =
      some (⟨tested, type, c⟩ :: arms, fallback) := by
  show (do
    let call ← convertedCall? e
    let (arms, fallback) ← exprArms? rest
    return (⟨tested, type, call⟩ :: arms, fallback) : Option (List Arm × Call)) = _
  rw [he, hrest]
  rfl

theorem stmtArms?_joinStmts {tested e : Expr} {rest : Stmt} {type : TypeRef} {c : Call}
    {arms : List Arm} {fallback : Call} (he : convertedCall? e = some c)
    (hrest : stmtArms? rest = some (arms, fallback)) :
    stmtArms? (joinStmts span (exactTypeTest tested type span) e rest) =
      some (⟨tested, type, c⟩ :: arms, fallback) := by
  show (do
    let call ← convertedCall? e
    let (arms, fallback) ← stmtArms? rest
    return (⟨tested, type, call⟩ :: arms, fallback) : Option (List Arm × Call)) = _
  rw [he, hrest]
  rfl

/-- The cascade for a call site has an arm for each override, in order. -/
theorem arms?_chain (receiver : Receiver) (os : List Override) :
    (chain h call result span receiver os).arms? =
      some (armsOf call.args receiver.later receiver.first os,
        .direct call.method (some receiver.later) call.args) := by
  unfold chain
  dsimp only
  -- the induction moves from the first test to the later ones, which read another expression
  generalize receiver.first = tested
  split
  · show stmtArms? _ = _
    induction os generalizing tested with
    | nil => rfl
    | cons o os ih => exact stmtArms?_joinStmts (convertedCall?_branch o) (ih _)
  · show exprArms? _ = _
    induction os generalizing tested with
    | nil => rfl
    | cons o os ih => exact exprArms?_joinExprs (convertedCall?_branch o) (ih _)

/-! ## Evaluating a cascade -/

/-- The exact type of the value is `type`. -/
def isExactly (v : Value) (type : TypeRef) : Bool := Machine.dynamicType v == typeConstant type

/-- The override for the exact type of the receiver. -/
def selected? (os : List Override) (v : Value) : Option Override :=
  os.find? fun o => isExactly v o.type

/-- Evaluate the arguments and call exactly the method `m` on the receiver `v`. -/
def callDirectly (w : World) (m : MethodRef) (args : List Expr) (result : Ty) (v : Value) :
    Evaluating (Option Value) := do
  let args ← evalAll w args
  perform w ⟨m, false, some v, args⟩ result

/-- Call the method of an override; a call site with a value gets it in its own type. -/
def callOverride (w : World) (h : Hierarchy) (call : Call) (result : Ty) (o : Override)
    (v : Value) : Evaluating (Option Value) := do
  let declared := resultType h o.method result
  let outcome ← callDirectly w o.method call.args declared v
  if result.isVoid then return outcome
  return some (convert declared result (← demand outcome))

/-- Call the method that the exact type of the receiver `v` asks for. -/
def callSelected (w : World) (h : Hierarchy) (call : Call) (result : Ty) (os : List Override)
    (v : Value) : Evaluating (Option Value) :=
  match selected? os v with
  | some o => callOverride w h call result o v
  | none => callDirectly w call.method call.args result v

end

section

variable {w : World} {h : Hierarchy} {call : Call} {s : Store} {later : Expr} {v : Value}

/-- Evaluating the expression gives `v` and changes nothing. -/
def Reads (w : World) (e : Expr) (v : Value) (s : Store) : Prop :=
  (eval w e).run s = (.ok (some v), s)

theorem eval_exactTypeTest (w : World) (e : Expr) (type : TypeRef) (span : Span) :
    eval w (exactTypeTest e type span) = (do
      let v ← demand (← eval w e)
      return some (.bool (isExactly v type))) := by
  simp only [exactTypeTest, Expr.binary, Expr.ofKind, Expr.withSpan, eval, bind_assoc, pure_bind]
  rfl

theorem eval_directCall (w : World) (call : Call) (e : Expr) (m : MethodRef) (result : Ty)
    (span : Span) :
    eval w (directCall call e m result span) = (do
      let v ← demand (← eval w e)
      callDirectly w m call.args result v) := by
  simp only [directCall, Expr.ofCall, Expr.ofKind, Expr.withSpan, eval, evalOption, bind_assoc,
    pure_bind, callDirectly]

theorem run_branch (result : Ty) (span : Span) (o : Override) (hv : Reads w later v s) :
    (eval w (branch h call later result span o)).run s =
      (callOverride w h call result o v).run s := by
  unfold branch callOverride
  dsimp only
  split
  · rw [eval_directCall, run_demand_bind _ hv, bind_pure]
  · simp only [Expr.withSpan, Expr.ofKind, eval, eval_directCall, bind_assoc]
    rw [run_demand_bind _ hv]
    rfl

/-- A test on a receiver that is read gives its truth to what follows, and changes nothing. -/
theorem run_exactTypeTest_bind {β : Type} (type : TypeRef) (span : Span) (hv : Reads w later v s)
    (f : Value → Evaluating β) :
    (do let b ← demand (← eval w (exactTypeTest later type span)); f b : Evaluating β).run s =
      (f (.bool (isExactly v type))).run s := by
  refine run_demand_bind f ?_
  rw [eval_exactTypeTest, run_demand_bind _ hv]
  rfl

/-- A test decides which of the two parts it joins is evaluated. -/
structure Joins {α β : Type} (w : World) (sem : α → Evaluating β) (join : Expr → Expr → α → α)
    (embed : Evaluating (Option Value) → Evaluating β) : Prop where
  eval_join : ∀ c e rest, c.ty = .bool → sem (join c e rest) = (do
    let b ← demand (← eval w c)
    if b.holds then embed (eval w e) else sem rest)

theorem joins_joinExprs (w : World) (span : Span) : Joins w (eval w) (joinExprs span) id where
  eval_join c e rest hc := by
    simp only [joinExprs, Expr.ofKind, Expr.withSpan, eval, hc, truth, Ty.valueKind?, pure_bind, id]

theorem joins_joinStmts (w : World) (span : Span) :
    Joins w (exec w) (joinStmts span) forEffect where
  eval_join c e rest hc := by
    simp only [joinStmts, Stmt.ifElse, Stmt.ofKind, Stmt.expr, Stmt.withSpan, exec, hc, truth,
      Ty.valueKind?, pure_bind]

section

variable {α β : Type} {sem : α → Evaluating β} {join : Expr → Expr → α → α}
  {embed : Evaluating (Option Value) → Evaluating β} {body : Override → Expr} {span : Span}
  {fallback : α}

/-- A cascade on a receiver that is read leads to the first override for the exact type of its
value, and to the fallback when there is none. -/
theorem run_cascade (hj : Joins w sem join embed) (hv : Reads w later v s) (os : List Override) :
    (sem (cascade join body later span fallback later os)).run s =
      (match selected? os v with
        | some o => embed (eval w (body o))
        | none => sem fallback).run s := by
  induction os with
  | nil => rfl
  | cons o os ih =>
    rw [cascade, hj.eval_join _ _ _ rfl, run_exactTypeTest_bind o.type span hv, selected?,
      List.find?_cons]
    cases isExactly v o.type with
    | true => rfl
    | false => exact ih

/-- A cascade whose first test evaluates the receiver, and makes it readable for the others. -/
theorem sem_cascade (hj : Joins w sem join embed) {tested : Expr} {os : List Override}
    (hos : os ≠ [])
    (hreads : ∀ {v s s'}, (eval w tested).run s = (.ok (some v), s') → Reads w later v s') :
    sem (cascade join body later span fallback tested os) = (do
      let v ← demand (← eval w tested)
      match selected? os v with
        | some o => embed (eval w (body o))
        | none => sem fallback) := by
  -- only the first test evaluates the receiver; behind it `run_cascade` applies
  obtain ⟨o, os, rfl⟩ := List.exists_cons_of_ne_nil hos
  rw [cascade, hj.eval_join _ _ _ rfl, eval_exactTypeTest]
  simp only [bind_assoc, pure_bind]
  refine demand_bind_congr fun v s s' hrun => ?_
  rw [selected?, List.find?_cons]
  cases isExactly v o.type with
  | true => rfl
  | false => exact run_cascade hj (hreads hrun) os

end

/-- What stands in the place of a call does `x`; a statement does it for the effects alone. -/
def Replacement.Does (w : World) (x : Evaluating (Option Value)) : Replacement → Prop
  | .unchanged => False
  | .statement s => exec w s = forEffect x
  | .expression e => eval w e = x

/-- A cascade evaluates the receiver once, and calls the method that its exact type asks for. -/
theorem chain_does (h : Hierarchy) (call : Call) (result : Ty) (span : Span) {receiver : Receiver}
    {os : List Override} (hos : os ≠ [])
    (hreads : ∀ {v s s'}, (eval w receiver.first).run s = (.ok (some v), s') →
      Reads w receiver.later v s') :
    (chain h call result span receiver os).Does w (do
      let v ← demand (← eval w receiver.first)
      callSelected w h call result os v) := by
  have hfallback : ∀ {v s}, Reads w receiver.later v s →
      (eval w (directCall call receiver.later call.method result span)).run s =
        (callDirectly w call.method call.args result v).run s := by
    intro v s hv
    rw [eval_directCall, run_demand_bind _ hv]
  unfold chain
  dsimp only
  split
  · show exec w _ = _
    rw [sem_cascade (joins_joinStmts w span) hos hreads]
    simp only [forEffect, bind_assoc]
    refine demand_bind_congr fun v s s' hrun => ?_
    unfold callSelected
    cases selected? os v with
    | some o => exact run_forEffect_congr (run_branch result span o (hreads hrun))
    | none => exact run_forEffect_congr (hfallback (hreads hrun))
  · show eval w _ = _
    rw [sem_cascade (joins_joinExprs w span) hos hreads]
    refine demand_bind_congr fun v s s' hrun => ?_
    unfold callSelected
    cases selected? os v with
    | some o => exact run_branch result span o (hreads hrun)
    | none => exact hfallback (hreads hrun)

/-! ## Receivers -/

/-- Evaluate a receiver, and keep its value in a local where it is bound to one. -/
def evalReceiver (w : World) (e : Expr) (name? : Option String) : Evaluating Value := do
  let v ← demand (← eval w e)
  name?.forM (writeLocal · v)
  return v

/-- How the receiver `e` stands in a cascade: as it is, or bound to a local that is new and pending
from now on, by an assignment in the first test. -/
inductive Kept (s : State) (e : Expr) : Expr → Expr → Option String → State → Prop
  | reused {s' : State} : isReusable e = true → s'.receivers = s.receivers → Kept s e e e none s'
  | bound {s' : State} {name : String} : isReusable e = false →
      name ∉ s.receivers.map (·.name) → s'.receivers = s.receivers ++ [⟨name, e.ty⟩] →
      Kept s e ((Expr.assign (.var name) e).withSpan e.span) ((Expr.var name e.ty).withSpan e.span)
        (some name) s'

theorem Bound.kept {s s' : State} {e : Expr} {receiver : Receiver}
    (hb : Bound s.receivers e receiver s'.receivers) (hs : Numbered s.receivers) :
    ∃ name?, Kept s e receiver.first receiver.later name? s' := by
  generalize hvs : s'.receivers = vs at hb
  cases hb with
  | reused hreusable => exact ⟨none, .reused hreusable hvs⟩
  | named hnot => exact ⟨_, .bound hnot hs.fresh hvs⟩

theorem eval_of_isReusable {e : Expr} (he : isReusable e = true) (s : Store) :
    ((eval w e).run s).2 = s := by
  obtain ⟨id, span, ty, kind⟩ := e
  cases kind with
  | var | self => rfl
  | _ => cases he

theorem eval_assign (w : World) (name : String) (e : Expr) (span : Span) :
    eval w ((Expr.assign (.var name) e).withSpan span) = (do
      let v ← evalReceiver w e (some name)
      return some v) := by
  simp only [Expr.assign, Expr.ofKind, Expr.withSpan, eval, writeTarget, readTarget, evalReceiver,
    Option.forM, bind_assoc, pure_bind]
  refine demand_bind_congr fun v s s' _ => ?_
  exact congrFun (writeLocal_readLocal name v fun v => pure (some v)) s'

/-- The value of the receiver can be read again behind the first test. -/
theorem Kept.reads {s s' : State} {e first later : Expr} {name? : Option String}
    (hk : Kept s e first later name? s') {v : Value} {σ σ' : Store}
    (hrun : (eval w first).run σ = (.ok (some v), σ')) : Reads w later v σ' := by
  cases hk with
  | reused he _ =>
    -- reading a variable or `this` changes nothing, so that it can be read again
    have hsame : ((eval w e).run σ).2 = σ := eval_of_isReusable he σ
    rw [hrun] at hsame
    cases hsame
    exact hrun
  | bound _ _ _ =>
    rw [eval_assign, evalReceiver, run_bind, run_bind] at hrun
    rcases he : (eval w e).run σ with ⟨_ | _ | u, σ₁⟩
    -- the assignment has a value only where the receiver has one, and stores it
    · rw [he] at hrun
      cases hrun
    · rw [he] at hrun
      cases hrun
    · rw [he] at hrun
      cases hrun
      show (Except.ok (some (Function.update σ₁.locals _ v _)), _) = _
      rw [Function.update_self]

theorem Kept.eval_first {s s' : State} {e first later : Expr} {name? : Option String}
    (hk : Kept s e first later name? s') {β : Type} (f : Value → Evaluating β) :
    (do let v ← demand (← eval w first); f v : Evaluating β) = evalReceiver w e name? >>= f := by
  cases hk with
  | reused he _ =>
    simp only [evalReceiver, Option.forM, bind_assoc, pure_bind]
  | bound _ _ _ =>
    rw [eval_assign]
    simp only [bind_assoc, pure_bind, demand]

/-! ## Selection -/

/-- The method that is called when the receiver is `v`. -/
def methodOf (os : List Override) (m : MethodRef) (v : Value) : MethodRef :=
  ((selected? os v).map (·.method)).getD m

theorem calls_callDirectly {m : MethodRef} {args : List Expr} {result : Ty} {v : Value}
    {σ σ' : Store} {vs : List Value} (hargs : (evalAll w args).run σ = (.ok vs, σ')) :
    ((callDirectly w m args result v).run σ).2.calls = σ'.calls ++ [⟨m, false, some v, vs⟩] := by
  unfold callDirectly
  rw [run_bind, hargs]
  exact calls_perform w _ result σ'

/-- Behind the arguments exactly one call is performed: a direct one, of the selected method, on the
receiver and with the arguments. -/
theorem calls_callSelected {result : Ty} {os : List Override} {v : Value} {σ σ' : Store}
    {vs : List Value} (hargs : (evalAll w call.args).run σ = (.ok vs, σ')) :
    ((callSelected w h call result os v).run σ).2.calls =
      σ'.calls ++ [⟨methodOf os call.method v, false, some v, vs⟩] := by
  unfold callSelected methodOf
  cases selected? os v with
  | none => exact calls_callDirectly hargs
  | some o =>
    let declared := resultType h o.method result
    have hcalls : ((callDirectly w o.method call.args declared v).run σ).2.calls = _ :=
      calls_callDirectly hargs
    unfold callOverride
    rw [run_bind]
    generalize (callDirectly w o.method call.args declared v).run σ = p at hcalls
    obtain ⟨_ | outcome, σ₁⟩ := p
    · exact hcalls
    · -- the conversion of the result comes behind the call and performs none itself
      dsimp only
      split
      · exact hcalls
      · cases outcome <;> exact hcalls

theorem isExactly_iff {v : Value} {name : String}
    (hv : Machine.dynamicType v = .type ("T$" ++ name)) (type : TypeRef) :
    isExactly v type = true ↔ type.name = name := by
  unfold isExactly typeConstant
  rw [hv, beq_iff_eq, Value.type.injEq, String.append_right_inj]
  exact eq_comm

/-- A receiver selects the override for its exact type, and none where there is none. -/
theorem selected?_eq {os : List Override} (hos : (Hierarchy.typeNames os).Nodup) {v : Value}
    {name : String} (hv : Machine.dynamicType v = .type ("T$" ++ name)) :
    (∀ o ∈ os, o.type.name = name → selected? os v = some o) ∧
      (name ∉ Hierarchy.typeNames os → selected? os v = none) := by
  constructor
  · intro o ho hname
    cases hfound : selected? os v with
    | none => exact absurd ((isExactly_iff hv o.type).mpr hname) (List.find?_eq_none.mp hfound o ho)
    | some o' =>
      have hexact : isExactly v o'.type = true :=
        List.find?_some (p := fun o : Override => isExactly v o.type) hfound
      -- the first override that fits is the only one, since the types are different
      have heq := List.inj_on_of_nodup_map hos (List.mem_of_find?_eq_some hfound) ho
        (((isExactly_iff hv o'.type).mp hexact).trans hname.symm)
      rw [heq]
  · intro hname
    refine List.find?_eq_none.mpr fun o ho hexact => hname ?_
    rw [← (isExactly_iff hv o.type).mp hexact]
    exact List.mem_map_of_mem ho

/-- The parts of a cascade as they are read off it: a test for each override, in order, the first on
`first` and the others on `later`, and direct calls on `later` with the arguments of the call. -/
structure TestsInOrder (call : Call) (os : List Override) (first later : Expr) (arms : List Arm)
    (fallback : Call) : Prop where
  types : arms.map (·.type) = os.map (·.type)
  distinct : (arms.map (·.type.name)).Nodup
  tested : arms.map (·.tested) = first :: List.replicate (os.length - 1) later
  calls : arms.map (·.call) = os.map fun o => .direct o.method (some later) call.args
  fallback : fallback = .direct call.method (some later) call.args

theorem armsOf_testsInOrder {os : List Override} (hne : os ≠ [])
    (hos : (Hierarchy.typeNames os).Nodup) (first later : Expr) :
    TestsInOrder call os first later (armsOf call.args later first os)
      (.direct call.method (some later) call.args) := by
  have htypes : ∀ (os : List Override) tested,
      (armsOf call.args later tested os).map (·.type) = os.map (·.type) := by
    intro os
    induction os with
    | nil => exact fun _ => rfl
    | cons o os ih => exact fun tested => congrArg (o.type :: ·) (ih later)
  have hcalls : ∀ (os : List Override) tested, (armsOf call.args later tested os).map (·.call) =
      os.map fun o => .direct o.method (some later) call.args := by
    intro os
    induction os with
    | nil => exact fun _ => rfl
    | cons o os ih => exact fun tested => congrArg (_ :: ·) (ih later)
  have htested : ∀ os : List Override, (armsOf call.args later later os).map (·.tested) =
      List.replicate os.length later := by
    intro os
    induction os with
    | nil => rfl
    | cons o os ih => exact congrArg (later :: ·) ih
  refine ⟨htypes os first, ?_, ?_, hcalls os first, rfl⟩
  · have hnames := congrArg (List.map TypeRef.name) (htypes os first)
    rw [List.map_map, List.map_map] at hnames
    exact (congrArg List.Nodup hnames).mpr hos
  · obtain ⟨o, os, rfl⟩ := List.exists_cons_of_ne_nil hne
    exact congrArg (first :: ·) (htested os)

/-- A call that is replaced becomes a cascade that selects one method. It has one test for each
override, on pairwise different types. Evaluating it evaluates the receiver once and before anything
else, keeps its value in a new local unless it can be read again, and then calls directly, with the
value and the arguments, the override for the exact type of the receiver; the method of the call
itself when the type has no override. Nothing else is called, the operands apart. -/
theorem expandCall_selects (h : Hierarchy) (s s' : State) (hs : Reached h s) (call : Call)
    (result : Ty) (span : Span) (r : Replacement)
    (hrun : (expandCall h call result span).run s = (.ok r, s')) (hr : r ≠ .unchanged) :
    ∃ e os first later name? arms fallback,
      call.receiver = some e ∧ h.resolve call.method = .ok os ∧
      r.arms? = some (arms, fallback) ∧ TestsInOrder call os first later arms fallback ∧
      Kept s e first later name? s' ∧
      ∀ w, r.Does w (do
          let v ← evalReceiver w e name?
          callSelected w h call result os v) ∧
        ∀ v, (∀ σ σ' vs, (evalAll w call.args).run σ = (.ok vs, σ') →
            ((callSelected w h call result os v).run σ).2.calls =
              σ'.calls ++ [⟨methodOf os call.method v, false, some v, vs⟩]) ∧
          ∀ name, Machine.dynamicType v = .type ("T$" ++ name) →
            (∀ o ∈ os, o.type.name = name → methodOf os call.method v = o.method) ∧
              (name ∉ Hierarchy.typeNames os → methodOf os call.method v = call.method) := by
  obtain ⟨rfl, -, -⟩ | ⟨e, os, receiver, hd, rfl⟩ := runs_expandCall hrun
  · exact absurd rfl hr
  have hdistinct := Hierarchy.nodup_typeNames_resolve hd.resolves
  obtain ⟨name?, hkept⟩ := hd.bound.kept hs.numbered
  have htests : TestsInOrder call os receiver.first receiver.later _ _ :=
    armsOf_testsInOrder hd.nonempty hdistinct _ _
  refine ⟨e, os, receiver.first, receiver.later, name?, _, _, hd.receiver_eq, hd.resolves,
    arms?_chain receiver os, htests, hkept, fun w => ⟨?_, ?_⟩⟩
  · have hdoes := chain_does (w := w) h call result span hd.nonempty fun hrun => hkept.reads hrun
    rwa [hkept.eval_first] at hdoes
  · refine fun v => ⟨fun σ σ' vs hargs => calls_callSelected hargs, fun name hv => ⟨?_, ?_⟩⟩
    · intro o ho hname
      rw [methodOf, (selected?_eq hdistinct hv).1 o ho hname]
      rfl
    · intro hname
      rw [methodOf, (selected?_eq hdistinct hv).2 hname]
      rfl

end

/-- The receiver is bound to a local, and one that is a disk runs the method of its base class. -/
theorem drawCall_selects :
    let h := Hierarchy.ofProgram Hierarchy.shapes
    ∃ r s' os e name arms fallback,
      (expandCall h drawCall .void {}).run {} = (.ok r, s') ∧ r ≠ .unchanged ∧
      r.arms? = some (arms, fallback) ∧ arms.map (·.type.name) = ["Round", "Disk"] ∧
      ∀ w v, r.Does w (do
          let v ← evalReceiver w e (some name)
          callSelected w h drawCall .void os v) ∧
        (Machine.dynamicType v = .type "T$Disk" →
          methodOf os drawCall.method v = ⟨⟨"Round", none⟩, "draw", []⟩) := by
  intro h
  have hd : Dispatched h drawCall ({} : State).receivers _ _ _ _ :=
    ⟨shapes_draw_not_exempt, rfl, shapes_resolve_draw, List.cons_ne_nil _ _, .named rfl⟩
  obtain ⟨log, hrun⟩ := hd.leads .void {} #[]
  obtain ⟨e, os, first, later, name?, arms, fallback, he, hos, harms, htests, hkept, heval⟩ :=
    expandCall_selects h {} _ .refl drawCall .void {} _ hrun nofun
  cases he
  cases shapes_resolve_draw.symm.trans hos
  cases hkept with
  | reused hreusable _ => cases hreusable
  | bound _ _ _ =>
    refine ⟨_, _, _, _, _, arms, fallback, hrun, nofun, harms, ?_, fun w v => ⟨(heval w).1, ?_⟩⟩
    · have hnames := congrArg (List.map TypeRef.name) htests.types
      rwa [List.map_map] at hnames
    · intro hv
      exact (((heval w).2 v).2 "Disk" hv).1 _ (List.mem_cons_of_mem _ List.mem_cons_self) rfl

end Unwind.Dispatch
