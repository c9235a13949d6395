import Unwind.Hierarchy.Overrides
import Unwind.Log

/-!
# Dispatch as a cascade of tests

A virtual call whose declaring type has known subtypes becomes a cascade of tests on the exact
type of the receiver. Each test that holds calls the method of its type directly; when none holds,
the method of the call itself is called.

A receiver that is neither a variable nor `this` is evaluated once: the first test assigns it to a
variable of its own, which everything behind it reads. These variables are collected in the state
and declared at the head of the body later.
-/

namespace Unwind.Dispatch

open Source

/-- What the expansion of a body has done so far. -/
structure State where
  /-- The variables bound to receivers and not yet declared. -/
  receivers : List Variable := []
  /-- The number of call sites replaced. -/
  replaced : Nat := 0
  log : Log := #[]

/-- A step of the expansion; what it did before a fault stays done. -/
abbrev Expanding := ExceptT Fault (StateM State)

/-- What becomes of one call site. -/
inductive Replacement where
  | unchanged
  /-- A void call: a chain of conditional statements. -/
  | statement (stmt : Stmt)
  /-- A call with a value: a chain of conditional expressions. -/
  | expression (expr : Expr)

/-- The name of the type whose values represent types at run time. -/
def runtimeType : String := "Type"

/-- Report an event. -/
def report (level : Log.Level) (message : String) : Expanding Unit :=
  modify fun s => { s with log := s.log.add level message }

/-! ## Calls that are left alone -/

/-- A method of the root class that no program dispatches on. -/
def isRootMethod (m : MethodRef) : Bool :=
  ["Object", "System.Object"].contains m.type.name &&
    ["Equals", "GetHashCode", "ToString"].contains m.name

/-- An accessor of an event. -/
def isEventAccessor (h : Hierarchy) (m : MethodRef) : Bool :=
  ("add_".isPrefixOf m.name || "remove_".isPrefixOf m.name) &&
    match (h.table.get? m.type).bind fun d => (d.methodsMatching m).head? with
    | some x => x.isSpecialName
    | none => false

/-- A call that is not dispatched: it is not virtual, it is exempt by its name, or no subtype of
its declaring type is known. -/
def isExempt (h : Hierarchy) (call : Call) : Bool :=
  !call.isVirtual || call.receiver.isNone || isRootMethod call.method ||
    isEventAccessor h call.method || !h.index.contains call.method.type

/-! ## The cascade -/

/-- The receiver of a call site: `first` stands in the first test, `later` everywhere else. -/
structure Receiver where
  first : Expr
  later : Expr

/-- The name of the `n`-th variable bound to a receiver. -/
def receiverName (n : Nat) : String := "$recv" ++ toString n

/-- A variable and `this` can be read again; any other receiver is bound to a new variable. -/
def bindReceiver (receiver : Expr) : Expanding Receiver := do
  match receiver.kind with
  | .var _ | .self => return ⟨receiver, receiver⟩
  | _ =>
    let s ← get
    let name := receiverName s.receivers.length
    set { s with receivers := s.receivers ++ [Variable.mk name receiver.ty] }
    return { first := (Expr.assign (.var name) receiver).withSpan receiver.span,
             later := (Expr.var name receiver.ty).withSpan receiver.span }

/-- The receiver's exact type is `type`; its subtypes do not count. -/
def exactTypeTest (receiver : Expr) (type : TypeRef) (span : Span) : Expr :=
  let ty := Ty.named { name := runtimeType }
  (Expr.binary .eq (.ofKind (.getType receiver) ty) (.ofKind (.typeOf type) ty) .bool).withSpan
    span

/-- The call of exactly the given method. -/
def directCall (call : Call) (receiver : Expr) (method : MethodRef) (result : Ty) (span : Span) :
    Expr :=
  (Expr.ofCall { method, receiver := some receiver, args := call.args } result).withSpan span

/-- The declared result type of a method, `fallback` when there is no declaration. -/
def resultType (h : Hierarchy) (m : MethodRef) (fallback : Ty) : Ty :=
  match (h.table.get? m.type).bind fun d => (d.methodsMatching m).head? with
  | some x => x.ret
  | none => fallback

/-- What a test that holds does: the call, converted to the type of the call site when it has a
value. -/
def branch (h : Hierarchy) (call : Call) (receiver : Expr) (result : Ty) (span : Span)
    (o : Override) : Expr :=
  let candidate := directCall call receiver o.method (resultType h o.method result) span
  if result.isVoid then candidate
  else (Expr.ofKind (.conversion candidate result) result).withSpan span

/-- The tests in order, the first on `tested` and all others on `later`, around the fallback. -/
def cascade (join : Expr → Expr → α → α) (body : Override → Expr) (later : Expr) (span : Span)
    (fallback : α) : Expr → List Override → α
  | _, [] => fallback
  | tested, o :: os =>
    join (exactTypeTest tested o.type span) (body o)
      (cascade join body later span fallback later os)

/-- Two statements joined by a test. -/
def joinStmts (span : Span) (cond thenExpr : Expr) (rest : Stmt) : Stmt :=
  (Stmt.ifElse cond ((Stmt.expr thenExpr).withSpan span) rest).withSpan span

/-- Two expressions joined by a test; the whole has the type of the rest. -/
def joinExprs (span : Span) (cond thenExpr rest : Expr) : Expr :=
  (Expr.ofKind (.conditional cond thenExpr rest) rest.ty).withSpan span

/-- The cascade for a call site of static type `result`. -/
def chain (h : Hierarchy) (call : Call) (result : Ty) (span : Span) (receiver : Receiver)
    (os : List Override) : Replacement :=
  let fallback := directCall call receiver.later call.method result span
  let body := branch h call receiver.later result span
  if result.isVoid then
    .statement (cascade (joinStmts span) body receiver.later span
      ((Stmt.expr fallback).withSpan span) receiver.first os)
  else
    .expression (cascade (joinExprs span) body receiver.later span fallback receiver.first os)

/-- The overrides of a method, reported. -/
def overridesOf (h : Hierarchy) (m : MethodRef) : Expanding (List Override) := do
  let os ← h.resolve m
  report .trace s!"{m.text} resolves to {os.length} overrides"
  return os

/-- Decide what becomes of the call site `call` of static type `result`. -/
def expandCall (h : Hierarchy) (call : Call) (result : Ty) (span : Span) :
    Expanding Replacement := do
  if isExempt h call then return .unchanged
  let os ← overridesOf h call.method
  match os, call.receiver with
  | [], _ | _, none => return .unchanged
  | os, some receiver =>
    report .debug s!"devirtualizing {call.method.text} into {os.length} branches"
    let receiver ← bindReceiver receiver
    return chain h call result span receiver os

end Unwind.Dispatch
