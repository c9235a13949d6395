import Unwind.Proofs.Hierarchy.SubtypeIndex
import Unwind.Proofs.Lowering.Expressions

/-!
# Steps that leave the operands alone

Values are pushed by a statement and popped by an expression while the body is lowered, not when it
runs. A part that is lowered in one mode only must not disturb the operands, or the code behind it
would differ. `Keeps` says that a step leaves them alone, along with the few other things that later
code depends on: the place of the result and the names of the procedures that copy structs. All
steps keep these, but for `push` and `pop`.
-/

namespace Unwind

open Source (TypeRef)

namespace Memo

variable {κ α : Type} [BEq κ]

/-- A value that was asked for in between is the one that would be made anyway. -/
theorem getOrInsertWith_getOrInsertWith {m : Memo κ α} {key key' : κ} {make : κ → α} {β : Type}
    {f : α → β} (hf : (key == key') = true → f (make key) = f (make key')) :
    f ((m.getOrInsertWith key make).2.getOrInsertWith key' make).1 =
      f (m.getOrInsertWith key' make).1 := by
  cases hk : m.get? key with
  | some v => simp only [getOrInsertWith, hk]
  | none =>
    have hnew : (m.getOrInsertWith key make).2 = ⟨m.entries ++ [(key, make key)]⟩ := by
      simp only [getOrInsertWith, hk]
    have hget : get? ⟨m.entries ++ [(key, make key)]⟩ key' =
        (m.get? key').or (if key == key' then some (make key) else none) := by
      rw [get?, List.find?_append, Option.map_or, List.find?_singleton]
      congr 1
      split <;> rfl
    rw [hnew, getOrInsertWith, hget, getOrInsertWith]
    cases hk' : m.get? key' with
    | some v => rfl
    | none =>
      by_cases he : (key == key') = true
      · simp only [Option.none_or, if_pos he, hf he]
      · simp only [Option.none_or, if_neg he]

end Memo

/-- The copy of a struct keeps its name. -/
theorem Registry.structCopy_structCopy (r : Registry) (type type' : TypeRef) :
    ((r.structCopy type).2.structCopy type').1 = (r.structCopy type').1 := by
  have hname : (type == type') = true →
      (structCopyDecl type).name = (structCopyDecl type').name := by
    intro h
    simp only [structCopyDecl, Ir.Procedure.declaration, TypeRef.beq_iff.mp h]
  exact Memo.getOrInsertWith_getOrInsertWith hname

end Unwind

namespace Unwind.Source

/-! ## Pushes and pops -/

mutual

/-- The expression takes a value that was pushed. -/
def Expr.pops : Expr → Bool
  | ⟨_, _, _, kind⟩ =>
    match kind with
    | .pop => true
    | .field object _ => popsOption object
    | .unary _ operand | .getType operand | .conversion operand _ => operand.pops
    | .binary _ lhs rhs => lhs.pops || rhs.pops
    | .conditional cond thenExpr elseExpr => cond.pops || (thenExpr.pops || elseExpr.pops)
    | .assign target value => target.pops || value.pops
    | .target target => target.pops
    | .call ⟨_, receiver, args, _⟩ => popsOption receiver || popsAny args
    | .new _ _ args => popsAny args
    | .literal _ | .var _ | .self | .typeOf _ | .defaultValue _ => false

def Target.pops : Target → Bool
  | .var _ => false
  | .field object _ => popsOption object

def popsOption : Option Expr → Bool
  | none => false
  | some e => e.pops

def popsAny : List Expr → Bool
  | [] => false
  | e :: es => e.pops || popsAny es

end

mutual

/-- The statement pushes or pops. -/
def Stmt.usesOperands : Stmt → Bool
  | ⟨_, _, kind⟩ =>
    match kind with
    | .push _ => true
    | .block stmts => usesOperandsIn stmts
    | .assert e | .assume e | .expression e | .throw e => e.pops
    | .conditional cond thenBranch elseBranch =>
      cond.pops || (thenBranch.usesOperands || elseBranch.usesOperands)
    | .switch scrutinee cases => scrutinee.pops || usesOperandsInCases cases
    | .localDecl _ init => popsOption init
    | .ret value => popsOption value
    | .labeled _ body => body.usesOperands
    | .tryCatch body catches finalizer =>
      body.usesOperands || (usesOperandsInCatches catches || usesOperandsInOption finalizer)
    | _ => false

def usesOperandsIn : List Stmt → Bool
  | [] => false
  | s :: ss => s.usesOperands || usesOperandsIn ss

def usesOperandsInCases : List SwitchCase → Bool
  | [] => false
  | ⟨_, value, body⟩ :: cases =>
    popsOption value || (usesOperandsIn body || usesOperandsInCases cases)

def usesOperandsInCatches : List CatchClause → Bool
  | [] => false
  | ⟨_, _, _, body⟩ :: clauses => body.usesOperands || usesOperandsInCatches clauses

def usesOperandsInOption : Option Stmt → Bool
  | none => false
  | some s => s.usesOperands

end

end Unwind.Source

namespace Unwind.Modes

open Lowering
open Source (BinOp CatchClause Expr MethodRef Stmt SwitchCase Target Ty Variable)

/-! ## What is kept -/

/-- Between the two states, the operands and what else later code depends on are the same; new
variables may have been given out. -/
structure Kept (s s' : State) : Prop where
  operands : s'.operands = s.operands
  returnVar : s'.returnVar = s.returnVar
  nextTemp : s.nextTemp ≤ s'.nextTemp
  copies : ∀ type, (s'.registry.structCopy type).1 = (s.registry.structCopy type).1

theorem Kept.refl (s : State) : Kept s s := ⟨rfl, rfl, Nat.le_refl _, fun _ => rfl⟩

theorem Kept.trans {s s₁ s' : State} (h : Kept s s₁) (h' : Kept s₁ s') : Kept s s' :=
  ⟨h'.operands.trans h.operands, h'.returnVar.trans h.returnVar,
    Nat.le_trans h.nextTemp h'.nextTemp, fun t => (h'.copies t).trans (h.copies t)⟩

/-- The step leaves the operands alone. -/
structure Keeps {α : Type} (act : Lower α) : Prop where
  kept : ∀ {s s' : State} {a : α}, Runs act s a s' → Kept s s'

namespace Keeps

variable {α β : Type}

theorem bind {x : Lower α} {f : α → Lower β} (hx : Keeps x) (hf : ∀ a, Keeps (f a)) :
    Keeps (x >>= f) := by
  refine ⟨fun h => ?_⟩
  obtain ⟨a, s₁, h₁, h₂⟩ := runs_bind.mp h
  exact (hx.kept h₁).trans ((hf a).kept h₂)

theorem pure {a : α} : Keeps (Pure.pure a : Lower α) := by
  refine ⟨fun h => ?_⟩
  rw [(runs_pure.mp h).2]
  exact .refl _

theorem throw {e : Fault} : Keeps (throw e : Lower α) := ⟨fun h => absurd h not_runs_throw⟩

theorem lift {x : Except Fault α} : Keeps (liftM x : Lower α) := by
  refine ⟨fun h => ?_⟩
  rw [(runs_lift.mp h).2]
  exact .refl _

theorem context : Keeps Lowering.context := by
  refine ⟨fun h => ?_⟩
  rw [(runs_context.mp h).2]
  exact .refl _

theorem ite {c : Prop} [Decidable c] {x y : Lower α} (hx : Keeps x) (hy : Keeps y) :
    Keeps (if c then x else y) := by
  split
  · exact hx
  · exact hy

theorem emitAll {cs : List Ir.Cmd} : Keeps (Lowering.emitAll cs) := by
  refine ⟨fun h => ?_⟩
  rw [runs_emitAll.mp h]
  exact ⟨rfl, rfl, Nat.le_refl _, fun _ => rfl⟩

theorem emit {c : Ir.Cmd} : Keeps (Lowering.emit c) := emitAll

theorem buffered {act : Lower α} (h : Keeps act) : Keeps (Lowering.buffered act) := by
  refine ⟨fun hrun => ?_⟩
  obtain ⟨s₁, h₁, -, rfl⟩ := runs_buffered.mp hrun
  obtain ⟨ho, hr, ht, hc⟩ := h.kept h₁
  exact ⟨ho, hr, ht, hc⟩

theorem commandsOf {act : Lower Unit} (h : Keeps act) : Keeps (Lowering.commandsOf act) :=
  h.buffered.bind fun _ => pure

/-- Operations of the context on regions and variables. -/
theorem withContext {f : Context → α × Context}
    (h : ∀ cx, (f cx).2.operands = cx.operands ∧ (f cx).2.returnVar = cx.returnVar ∧
      cx.nextTemp ≤ (f cx).2.nextTemp) : Keeps (Lowering.withContext f) := by
  refine ⟨fun hrun => ?_⟩
  rw [Lowering.withContext, runs_modifyGet] at hrun
  cases hrun
  obtain ⟨ho, hr, ht⟩ := h _
  exact ⟨ho, hr, ht, fun _ => rfl⟩

theorem changeContext {f : Context → Context}
    (h : ∀ cx, (f cx).operands = cx.operands ∧ (f cx).returnVar = cx.returnVar ∧
      cx.nextTemp ≤ (f cx).nextTemp) : Keeps (Lowering.changeContext f) := by
  refine ⟨fun hrun => ?_⟩
  rw [Lowering.changeContext, runs_modify] at hrun
  subst hrun
  obtain ⟨ho, hr, ht⟩ := h _
  exact ⟨ho, hr, ht, fun _ => rfl⟩

theorem freshLocal {stem : String} {ty : Ir.Ty} : Keeps (Lowering.freshLocal stem ty) :=
  withContext fun _ => ⟨rfl, rfl, Nat.le_succ _⟩

theorem declareLocal {name : String} {ty : Ir.Ty} : Keeps (Lowering.declareLocal name ty) := by
  refine changeContext fun cx => ?_
  unfold Context.declareLocal
  split
  · exact ⟨rfl, rfl, Nat.le_refl _⟩
  · exact ⟨rfl, rfl, Nat.le_refl _⟩

theorem useLabelVar : Keeps Lowering.useLabelVar := by
  refine bind ?_ fun _ => pure
  exact changeContext fun _ => ⟨rfl, rfl, Nat.le_refl _⟩

theorem allot {id : Nat} {slot : Region → Option String} {fill : Region → String → Region}
    {name : String} : Keeps (Lowering.withContext (·.allot id slot fill name)) := by
  refine withContext fun cx => ?_
  unfold Context.allot
  split
  · split
    · exact ⟨rfl, rfl, Nat.le_refl _⟩
    · exact ⟨rfl, rfl, Nat.le_refl _⟩
  · exact ⟨rfl, rfl, Nat.le_refl _⟩

theorem catchLabel {id : Nat} : Keeps (Lowering.catchLabel id) := allot

theorem finallyLabel {id : Nat} : Keeps (Lowering.finallyLabel id) := allot

theorem continuationLabel {id : Nat} : Keeps (Lowering.continuationLabel id) := allot

theorem exceptionLocal {id : Nat} : Keeps (Lowering.exceptionLocal id) := by
  refine withContext fun cx => ?_
  unfold Context.exceptionLocal
  split
  · split
    · exact ⟨rfl, rfl, Nat.le_refl _⟩
    · exact ⟨rfl, rfl, Nat.le_refl _⟩
  · exact ⟨rfl, rfl, Nat.le_refl _⟩

theorem addEscapingEdge {id : Nat} : Keeps (Lowering.addEscapingEdge id) := by
  refine withContext fun cx => ?_
  unfold Context.addEscapingEdge
  simp only
  split
  · exact ⟨rfl, rfl, Nat.le_refl _⟩
  · exact ⟨rfl, rfl, Nat.le_refl _⟩

theorem report {level : Log.Level} {message : String} : Keeps (Lowering.report level message) := by
  refine ⟨fun h => ?_⟩
  rw [Lowering.report, runs_modify] at h
  subst h
  exact ⟨rfl, rfl, Nat.le_refl _, fun _ => rfl⟩

theorem pushPhase {id : Nat} {phase : Phase} : Keeps (Lowering.pushPhase id phase) :=
  .bind report fun _ => changeContext fun _ => ⟨rfl, rfl, Nat.le_refl _⟩

theorem popPhase {id : Nat} {phase : Phase} : Keeps (Lowering.popPhase id phase) := by
  refine context.bind fun cx => bind ?_ fun _ => ite throw pure
  exact changeContext fun _ => ⟨rfl, rfl, Nat.le_refl _⟩

/-- Operations of the registry. -/
theorem withRegistry {f : Registry → α × Registry}
    (h : ∀ r type, ((f r).2.structCopy type).1 = (r.structCopy type).1) :
    Keeps (Lowering.withRegistry f) := by
  refine ⟨fun hrun => ?_⟩
  rw [Lowering.withRegistry, runs_modifyGet] at hrun
  cases hrun
  exact ⟨rfl, rfl, Nat.le_refl _, h _⟩

theorem record {env : Env} {label : String} {ty : Ir.Ty} {v : Ir.Expr} :
    Keeps (Lowering.record env label ty v) :=
  ite ((withRegistry fun _ _ => rfl).bind fun _ => emit) pure

theorem breadcrumb {env : Env} : Keeps (Lowering.breadcrumb env) :=
  ite ((withRegistry fun _ _ => rfl).bind fun _ => emit) pure

theorem emitMarks {env : Env} {span : Span} {kind : Source.StmtKind} :
    Keeps (Lowering.emitMarks env span kind) := by
  have hcapture : Keeps (if env.options.captureState then
      Lowering.withRegistry (·.nextCaptureState) >>= fun n =>
        Lowering.emit (.marker ⟨"captureState", [.str ("s" ++ toString n.toNat)]⟩)
      else Pure.pure ()) :=
    ite ((withRegistry fun _ _ => rfl).bind fun _ => emit) pure
  exact ite (ite (emit.bind fun _ => hcapture) hcapture) pure

theorem propagate {env : Env} : Keeps (Lowering.propagate env) := by
  refine context.bind fun cx => ?_
  split
  · exact .bind record fun _ => emit
  · exact .bind catchLabel fun _ => emit
  · exact .bind useLabelVar fun _ => emit.bind fun _ => .bind finallyLabel fun _ => emit
  · exact .bind continuationLabel fun _ => emit

theorem propagateIfAny {env : Env} : Keeps (Lowering.propagateIfAny env) :=
  .bind (.commandsOf propagate) fun _ => emit

end Keeps

/-! ## Expressions -/

section

variable {env : Env}

theorem keeps_valueOf {e : Expr} {act : Lower (Option Ir.Expr)} (h : Keeps act) :
    Keeps (valueOf e act) := by
  refine h.bind fun r => ?_
  cases r with
  | some v => exact .pure
  | none => exact .throw

theorem keeps_conditionOf {e : Expr} {act : Lower (Option Ir.Expr)} (h : Keeps act) :
    Keeps (conditionOf e act) := (keeps_valueOf h).bind fun _ => .lift

theorem keeps_alloc {type : Source.TypeRef} : Keeps (alloc type) :=
  Keeps.freshLocal.bind fun _ => Keeps.emit.bind fun _ => .pure

theorem keeps_emitCall {method : MethodRef} {args : List Ir.Expr} {outs : List String} :
    Keeps (emitCall env method args outs) :=
  Keeps.emit.bind fun _ => .ite .propagateIfAny .pure

theorem keeps_finishCall {method : MethodRef} {args : List Ir.Expr} {ty : Ty} :
    Keeps (finishCall env method args ty) := by
  refine .ite (.bind keeps_emitCall fun _ => .pure) ?_
  exact Keeps.lift.bind fun _ => Keeps.freshLocal.bind fun _ => .bind keeps_emitCall fun _ => .pure

theorem keeps_finishNew {type : Source.TypeRef} {ctor : Option MethodRef} {args : List Ir.Expr} :
    Keeps (finishNew env type ctor args) := by
  refine .bind keeps_alloc fun _ => ?_
  cases ctor with
  | some method => exact .bind keeps_emitCall fun _ => .pure
  | none => exact .pure

theorem keeps_finishBinary {op : BinOp} {lhs : Expr} {left right : Ir.Expr}
    {rightCmds : List Ir.Cmd} : Keeps (finishBinary op lhs left right rightCmds) := by
  refine .ite .pure ?_
  have hbool : ∀ guard : String → Ir.Expr, Keeps (do
      let tmp ← freshLocal "tmp" .bool
      emit (.set tmp left)
      emit (.ifThen (guard tmp) (rightCmds ++ [Ir.Cmd.set tmp right]))
      return Ir.Expr.ident tmp) := fun guard =>
    Keeps.freshLocal.bind fun _ => Keeps.emit.bind fun _ => Keeps.emit.bind fun _ => .pure
  cases op with
  | and => exact hbool fun tmp => .ident tmp
  | or => exact hbool fun tmp => .not (.ident tmp)
  | _ =>
    exact Keeps.lift.bind fun _ => Keeps.freshLocal.bind fun _ => Keeps.emit.bind fun _ =>
      Keeps.emitAll.bind fun _ => .pure

theorem keeps_finishConditional {ty : Ty} {span : Span} {cond : Ir.Expr}
    {thenPart elsePart : Ir.Expr × List Ir.Cmd} :
    Keeps (finishConditional ty span cond thenPart elsePart) := by
  refine .ite .pure ?_
  exact Keeps.lift.bind fun _ => Keeps.freshLocal.bind fun _ => Keeps.emit.bind fun _ => .pure

theorem keeps_defaultValue {ty : Ty} {span : Span} : Keeps (defaultValue env ty span) := by
  unfold defaultValue
  cases ty with
  | void => exact .throw
  | bool | int => exact .pure
  | named t => exact .ite keeps_alloc .pure

mutual

/-- An expression that does not pop leaves the operands alone. -/
theorem keeps_lowerExpr (e : Expr) (compound : Bool) (h : e.pops = false) :
    Keeps (lowerExpr env e compound) := by
  obtain ⟨id, span, ty, kind⟩ := e
  cases kind with
  | literal | var | self | typeOf =>
    rw [lowerExpr]
    exact .pure
  | field object field =>
    cases object with
    | none =>
      rw [lowerExpr]
      exact .pure
    | some object =>
      rw [lowerExpr]
      exact (keeps_valueOf (keeps_lowerExpr object false h)).bind fun _ => .pure
  | unary op operand | getType operand | conversion operand newTy =>
    rw [lowerExpr]
    exact (keeps_valueOf (keeps_lowerExpr operand false h)).bind fun _ => .pure
  | binary op lhs rhs =>
    rw [Expr.pops, Bool.or_eq_false_iff] at h
    by_cases htar : lhs.isTarget
    · obtain ⟨i, sp, t, lhsKind⟩ := lhs
      cases lhsKind with
      | target target =>
        rw [lowerExpr]
        have hrest : Keeps (do
            let current ← readTarget env target
            let rhs ← valueOf rhs (lowerExpr env rhs false)
            writeTarget env target (.binary (binOp op) current rhs)
            return some (← readTarget env target)) := by
          refine (keeps_readTarget target h.1).bind fun _ => ?_
          refine (keeps_valueOf (keeps_lowerExpr rhs false h.2)).bind fun _ => ?_
          exact (keeps_writeTarget target h.1).bind fun _ =>
            (keeps_readTarget target h.1).bind fun _ => .pure
        exact .ite hrest (Keeps.throw.bind fun _ => hrest)
      | _ => cases htar
    · rw [Bool.not_eq_true] at htar
      rw [lowerExpr_binary env htar]
      refine (keeps_valueOf (keeps_lowerExpr lhs false h.1)).bind fun _ => ?_
      refine (keeps_valueOf (keeps_lowerExpr rhs false h.2)).buffered.bind fun _ => ?_
      exact .bind keeps_finishBinary fun _ => .pure
  | conditional cond thenExpr elseExpr =>
    rw [Expr.pops, Bool.or_eq_false_iff, Bool.or_eq_false_iff] at h
    rw [lowerExpr]
    refine (keeps_conditionOf (keeps_lowerExpr cond false h.1)).bind fun _ => ?_
    refine (keeps_valueOf (keeps_lowerExpr thenExpr false h.2.1)).buffered.bind fun _ => ?_
    refine (keeps_valueOf (keeps_lowerExpr elseExpr false h.2.2)).buffered.bind fun _ => ?_
    exact .bind keeps_finishConditional fun _ => .pure
  | assign target value =>
    rw [Expr.pops, Bool.or_eq_false_iff] at h
    rw [lowerExpr]
    refine (keeps_valueOf (keeps_lowerExpr value false h.2)).bind fun _ => ?_
    exact (keeps_writeTarget target h.1).bind fun _ =>
      (keeps_readTarget target h.1).bind fun _ => .pure
  | target target =>
    rw [lowerExpr]
    exact (keeps_readTarget target h).bind fun _ => .pure
  | call call =>
    obtain ⟨method, receiver, args, isVirtual⟩ := call
    rw [Expr.pops, Bool.or_eq_false_iff] at h
    rw [lowerExpr]
    exact (keeps_lowerOption receiver h.1).bind fun _ =>
      (keeps_lowerArgs args h.2).bind fun _ => keeps_finishCall
  | new type ctor args =>
    rw [lowerExpr]
    exact (keeps_lowerArgs args h).bind fun _ => keeps_finishNew.bind fun _ => .pure
  | defaultValue valueTy =>
    rw [lowerExpr]
    exact .bind keeps_defaultValue fun _ => .pure
  | pop => cases h

theorem keeps_readTarget (t : Target) (h : t.pops = false) : Keeps (readTarget env t) := by
  cases t with
  | var name =>
    rw [readTarget]
    exact .pure
  | field object field =>
    cases object with
    | none =>
      rw [readTarget]
      exact .pure
    | some object =>
      rw [readTarget]
      exact (keeps_valueOf (keeps_lowerExpr object false h)).bind fun _ => .pure

theorem keeps_writeTarget (t : Target) {v : Ir.Expr} (h : t.pops = false) :
    Keeps (writeTarget env t v) := by
  cases t with
  | var name =>
    rw [writeTarget]
    exact .emit
  | field object field =>
    cases object with
    | none =>
      rw [writeTarget]
      exact .emit
    | some object =>
      rw [writeTarget]
      exact (keeps_valueOf (keeps_lowerExpr object false h)).bind fun _ => .emit

theorem keeps_lowerOption (e : Option Expr) (h : Source.popsOption e = false) :
    Keeps (lowerOption env e) := by
  cases e with
  | none =>
    rw [lowerOption]
    exact .pure
  | some e =>
    rw [lowerOption]
    exact (keeps_valueOf (keeps_lowerExpr e false h)).bind fun _ => .pure

theorem keeps_lowerArgs (es : List Expr) (h : Source.popsAny es = false) :
    Keeps (lowerArgs env es) := by
  cases es with
  | nil =>
    rw [lowerArgs]
    exact .pure
  | cons e es =>
    rw [Source.popsAny, Bool.or_eq_false_iff] at h
    rw [lowerArgs]
    exact (keeps_valueOf (keeps_lowerExpr e false h.1)).bind fun _ =>
      (keeps_lowerArgs es h.2).bind fun _ => .pure

end

theorem keeps_value {e : Expr} (h : e.pops = false) : Keeps (value env e) :=
  keeps_valueOf (keeps_lowerExpr e false h)

theorem keeps_condition {e : Expr} (h : e.pops = false) : Keeps (condition env e) :=
  keeps_conditionOf (keeps_lowerExpr e false h)

/-! ## Statements -/

theorem keeps_emitAssertion {v : Ir.Expr} : Keeps (emitAssertion env v) := .emit

theorem keeps_lowerReturn {span : Span} {e : Option Expr} (h : Source.popsOption e = false) :
    Keeps (lowerReturn env span e) := by
  cases e with
  | none => exact .emit
  | some e =>
    refine (keeps_value h).bind fun _ => Keeps.context.bind fun cx => ?_
    split
    · exact Keeps.lift.bind fun _ => Keeps.record.bind fun _ => Keeps.emit.bind fun _ => .emit
    · exact Keeps.throw.bind fun _ => .emit

theorem keeps_lowerLocalDecl {decl : Variable} {init : Option Expr}
    (h : Source.popsOption init = false) : Keeps (lowerLocalDecl env decl init) := by
  refine Keeps.lift.bind fun ty => Keeps.declareLocal.bind fun _ => .ite ?_ ?_
  · split
    · next e type he ht =>
      rw [Option.filter_eq_some_iff] at he
      rw [he.1] at h
      refine Keeps.bind (.withRegistry fun r type' => ?_) fun _ => ?_
      · exact Registry.structCopy_structCopy r type type'
      · exact (keeps_value h).bind fun _ => .emit
    · have hdefault : (Expr.ofKind (.defaultValue decl.ty) decl.ty).pops = false := rfl
      exact (keeps_value hdefault).bind fun _ => .emit
  · cases init with
    | none => exact .pure
    | some e => exact (keeps_value h).bind fun _ => Keeps.record.bind fun _ => .emit

theorem keeps_lowerThrow {e : Expr} (h : e.pops = false) : Keeps (lowerThrow env e) :=
  .ite ((keeps_value h).bind fun _ => Keeps.record.bind fun _ => Keeps.emit.bind fun _ =>
    .propagate) .emit

theorem keeps_lowerRethrow {span : Span} : Keeps (lowerRethrow env span) := by
  refine .ite (Keeps.context.bind fun cx => ?_) .emit
  split
  · exact Keeps.exceptionLocal.bind fun _ => Keeps.record.bind fun _ => Keeps.emit.bind fun _ =>
      .propagate
  · exact .throw

theorem keeps_escape {target : String} {span : Span} (entries : List Entry) :
    Keeps (escape target span entries) := by
  induction entries with
  | nil =>
    rw [escape]
    exact .pure
  | cons entry entries ih =>
    obtain ⟨region, phase⟩ := entry
    cases phase with
    | inFinally =>
      rw [escape]
      exact .throw
    | _ =>
      rw [escape]
      · exact Keeps.addEscapingEdge.bind fun _ => Keeps.useLabelVar.bind fun _ =>
          Keeps.emit.bind fun _ => Keeps.finallyLabel.bind fun _ => Keeps.emit.bind fun _ =>
          Keeps.emit.bind fun _ => ih
      · nofun

theorem keeps_lowerGoto {target : String} {span : Span} : Keeps (lowerGoto env target span) :=
  Keeps.context.bind fun _ => Keeps.lift.bind fun _ => (keeps_escape _).bind fun _ => .emit

theorem keeps_leaveNormally {region : Nat} : Keeps (leaveNormally region) :=
  Keeps.useLabelVar.bind fun _ => Keeps.emit.bind fun _ => Keeps.finallyLabel.bind fun _ => .emit

theorem keeps_bindCaught {caught : String} {span : Span} {binding : Option Variable} :
    Keeps (bindCaught env caught span binding) := by
  cases binding with
  | none => exact .pure
  | some v =>
    exact Keeps.lift.bind fun _ => Keeps.declareLocal.bind fun _ => Keeps.record.bind fun _ => .emit

theorem keeps_enterRegion {node : UInt32} {types : List (Option Source.TypeRef)} :
    Keeps (enterRegion node types) := .withContext fun _ => ⟨rfl, rfl, Nat.le_refl _⟩

theorem keeps_takeException {region : Nat} : Keeps (takeException region) :=
  Keeps.catchLabel.bind fun _ => Keeps.emit.bind fun _ => Keeps.exceptionLocal.bind fun _ =>
    Keeps.emit.bind fun _ => Keeps.emit.bind fun _ => .pure

theorem keeps_finishCatches {caught : String} {arms : List (Ir.Expr × List Ir.Cmd)} :
    Keeps (finishCatches env caught arms) :=
  Keeps.emitAll.bind fun _ => Keeps.emit.bind fun _ => .propagate

theorem keeps_saveForFinally : Keeps saveForFinally :=
  Keeps.useLabelVar.bind fun _ => Keeps.freshLocal.bind fun _ => Keeps.freshLocal.bind fun _ =>
    Keeps.emit.bind fun _ => Keeps.emit.bind fun _ => Keeps.emit.bind fun _ => .pure

theorem keeps_restoreAfterFinally {x y : String} : Keeps (restoreAfterFinally x y) :=
  Keeps.emit.bind fun _ => .emit

theorem keeps_finishRegion {region : Nat} : Keeps (finishRegion env region) := by
  have hdispatch : Keeps (dispatchContinuation region) := by
    refine Keeps.continuationLabel.bind fun _ => Keeps.context.bind fun cx => ?_
    exact .ite .emitAll (Keeps.useLabelVar.bind fun _ => .emitAll)
  exact hdispatch.bind fun _ => Keeps.continuationLabel.bind fun _ => Keeps.emit.bind fun _ =>
    .propagateIfAny

mutual

/-- A statement that neither pushes nor pops leaves the operands alone. -/
theorem keeps_lowerStmt (s : Stmt) (h : s.usesOperands = false) : Keeps (lowerStmt env s) := by
  obtain ⟨id, span, kind⟩ := s
  have hmarked : ∀ {act : Lower Unit}, Keeps act → Keeps (do emitMarks env span kind; act) :=
    fun h => Keeps.emitMarks.bind fun _ => h
  cases kind with
  | block stmts =>
    rw [lowerStmt]
    exact hmarked (keeps_lowerStmts stmts h)
  | empty =>
    rw [lowerStmt]
    exact hmarked .pure
  | assert cond =>
    rw [lowerStmt]
    exact hmarked ((keeps_condition h).bind fun _ => keeps_emitAssertion)
  | assume cond =>
    rw [lowerStmt]
    exact hmarked ((keeps_condition h).bind fun _ => .emit)
  | conditional cond thenBranch elseBranch =>
    rw [Stmt.usesOperands, Bool.or_eq_false_iff, Bool.or_eq_false_iff] at h
    rw [lowerStmt]
    refine hmarked ((keeps_condition h.1).bind fun _ => ?_)
    refine (Keeps.breadcrumb.bind fun _ => keeps_lowerStmt thenBranch h.2.1).commandsOf.bind
      fun _ => ?_
    exact (Keeps.breadcrumb.bind fun _ => keeps_lowerStmt elseBranch h.2.2).commandsOf.bind
      fun _ => .emit
  | expression e =>
    rw [lowerStmt]
    exact hmarked ((keeps_lowerExpr e _ h).bind fun _ => .pure)
  | breakLoop | continueLoop | whileLoop | doUntil | forLoop | forEach =>
    simp only [lowerStmt]
    exact hmarked .throw
  | switch scrutinee cases =>
    rw [Stmt.usesOperands, Bool.or_eq_false_iff] at h
    rw [lowerStmt]
    refine hmarked ((keeps_value h.1).bind fun v => ?_)
    refine (keeps_lowerDefault cases h.2).bind fun ds => ?_
    refine (keeps_lowerCases cases h.2).bind fun chain => ?_
    cases chain with
    | some c => exact .emit
    | none => exact .emitAll
  | localDecl decl init =>
    rw [lowerStmt]
    exact hmarked (keeps_lowerLocalDecl h)
  | ret value =>
    rw [lowerStmt]
    exact hmarked (keeps_lowerReturn h)
  | goto label =>
    rw [lowerStmt]
    exact hmarked keeps_lowerGoto
  | labeled label body =>
    rw [lowerStmt]
    exact hmarked (Keeps.emit.bind fun _ => keeps_lowerStmt body h)
  | tryCatch body catches finalizer =>
    rw [Stmt.usesOperands, Bool.or_eq_false_iff, Bool.or_eq_false_iff] at h
    rw [lowerStmt]
    refine hmarked (.ite ?_ ?_)
    · refine .bind keeps_enterRegion fun _ => Keeps.pushPhase.bind fun _ => ?_
      refine (keeps_lowerStmt body h.1).bind fun _ => keeps_leaveNormally.bind fun _ => ?_
      refine Keeps.popPhase.bind fun _ => .bind keeps_takeException fun _ => ?_
      refine Keeps.pushPhase.bind fun _ => (keeps_lowerCatches catches h.2.1).bind fun _ => ?_
      refine .bind keeps_finishCatches fun _ => Keeps.popPhase.bind fun _ => ?_
      refine Keeps.finallyLabel.bind fun _ => Keeps.emit.bind fun _ => ?_
      exact (keeps_lowerFinally finalizer h.2.2).bind fun _ => keeps_finishRegion
    · exact (keeps_lowerStmt body h.1).bind fun _ => keeps_lowerOptional finalizer h.2.2
  | throw e =>
    rw [lowerStmt]
    exact hmarked (keeps_lowerThrow h)
  | rethrow =>
    rw [lowerStmt]
    exact hmarked keeps_lowerRethrow
  | push e => cases h

theorem keeps_lowerStmts (ss : List Stmt) (h : Source.usesOperandsIn ss = false) :
    Keeps (lowerStmts env ss) := by
  cases ss with
  | nil =>
    rw [lowerStmts]
    exact .pure
  | cons s ss =>
    rw [Source.usesOperandsIn, Bool.or_eq_false_iff] at h
    rw [lowerStmts]
    exact (keeps_lowerStmt s h.1).bind fun _ => keeps_lowerStmts ss h.2

theorem keeps_lowerOptional (s : Option Stmt) (h : Source.usesOperandsInOption s = false) :
    Keeps (lowerOptional env s) := by
  cases s with
  | none =>
    rw [lowerOptional]
    exact .pure
  | some s =>
    rw [lowerOptional]
    exact keeps_lowerStmt s h

theorem keeps_lowerFinally {region : Nat} (s : Option Stmt)
    (h : Source.usesOperandsInOption s = false) : Keeps (lowerFinally env region s) := by
  cases s with
  | none =>
    rw [lowerFinally]
    exact .pure
  | some s =>
    rw [lowerFinally]
    exact Keeps.pushPhase.bind fun _ => keeps_saveForFinally.bind fun _ =>
      (keeps_lowerStmt s h).bind fun _ => keeps_restoreAfterFinally.bind fun _ => .popPhase

theorem keeps_lowerCatches {region : Nat} {caught : String} (clauses : List CatchClause)
    (h : Source.usesOperandsInCatches clauses = false) :
    Keeps (lowerCatches env region caught clauses) := by
  cases clauses with
  | nil =>
    rw [lowerCatches]
    exact .pure
  | cons clause clauses =>
    obtain ⟨span, type, binding, body⟩ := clause
    rw [Source.usesOperandsInCatches, Bool.or_eq_false_iff] at h
    rw [lowerCatches]
    refine (Keeps.commandsOf ?_).bind fun _ =>
      (keeps_lowerCatches clauses h.2).bind fun _ => .pure
    exact keeps_bindCaught.bind fun _ => (keeps_lowerStmt body h.1).bind fun _ =>
      keeps_leaveNormally

theorem keeps_lowerDefault (cases : List SwitchCase)
    (h : Source.usesOperandsInCases cases = false) : Keeps (lowerDefault env cases) := by
  cases cases with
  | nil =>
    rw [lowerDefault]
    exact .pure
  | cons case cases =>
    obtain ⟨span, value, body⟩ := case
    rw [Source.usesOperandsInCases, Bool.or_eq_false_iff, Bool.or_eq_false_iff] at h
    rw [lowerDefault]
    exact .ite (keeps_lowerDefault cases h.2.2) (keeps_lowerStmts body h.2.1).commandsOf

theorem keeps_lowerCases {v : Ir.Expr} {ds : List Ir.Cmd} (cases : List SwitchCase)
    (h : Source.usesOperandsInCases cases = false) : Keeps (lowerCases env v ds cases) := by
  cases cases with
  | nil =>
    rw [lowerCases]
    exact .pure
  | cons case cases =>
    obtain ⟨span, value, body⟩ := case
    rw [Source.usesOperandsInCases, Bool.or_eq_false_iff, Bool.or_eq_false_iff] at h
    rw [lowerCases]
    refine (keeps_lowerCases cases h.2.2).bind fun chain => ?_
    cases value with
    | none => exact .pure
    | some e =>
      exact (keeps_value h.1).bind fun _ => (keeps_lowerStmts body h.2.1).commandsOf.bind
        fun _ => .pure

end

end

end Unwind.Modes
