import Unwind.Proofs.Enclosing
import Unwind.Proofs.Lowering.Arena

/-!
# The stack of regions is in balance

Every statement and every expression is lowered by steps that leave the stack of regions as it was.
In between a `try` statement puts its region there three times, and takes it off each time
(`steady_lowerStmt`). So the body of a method ends with the empty stack that it starts with, the
checks of the stack never fail, and all regions that are asked for exist (`lowering_balanced`).
-/

namespace Unwind.Lowering

open Source (BinOp CatchClause Expr MethodDef MethodRef Stmt SwitchCase Target Ty TypeDef TypeRef
  Variable)
open Ir (Cmd)

section

variable {env : Env} {n : Nat}

/-! ## Marks and exceptions -/

theorem steady_record {label : String} {ty : Ir.Ty} {v : Ir.Expr} :
    Steady n (record env label ty v) :=
  .ite (steady_withRegistry.bind fun _ => steady_emit) .pure

theorem steady_breadcrumb : Steady n (breadcrumb env) :=
  .ite (steady_withRegistry.bind fun _ => steady_emit) .pure

theorem steady_emitMarks {span : Span} {kind : Source.StmtKind} :
    Steady n (emitMarks env span kind) := by
  have hcapture : Steady n (if env.options.captureState then
      withRegistry (·.nextCaptureState) >>= fun k =>
        emit (.marker ⟨"captureState", [.str ("s" ++ toString k.toNat)]⟩)
      else pure ()) :=
    .ite (steady_withRegistry.bind fun _ => steady_emit) .pure
  exact .ite (.ite (steady_emit.bind fun _ => hcapture) hcapture) .pure

/-- The region on top of the stack is asked for a label. -/
theorem steady_propagate : Steady n (propagate env) := by
  refine .look (fun _ _ _ => rfl) fun cx => ?_
  have htop : ∀ {e : Entry}, cx.stack.head? = some e → e.region < max n (reach cx.stack) :=
    fun h => Nat.lt_of_lt_of_le (lt_reach (List.mem_of_head? h)) (Nat.le_max_right _ _)
  split
  · exact .bind steady_record fun _ => steady_emit
  · next h => exact (steady_catchLabel (htop h)).bind fun _ => steady_emit
  · next h =>
    exact steady_useLabelVar.bind fun _ => steady_emit.bind fun _ =>
      (steady_finallyLabel (htop h)).bind fun _ => steady_emit
  · next h => exact (steady_continuationLabel (htop h)).bind fun _ => steady_emit

theorem steady_propagateIfAny : Steady n (propagateIfAny env) :=
  .bind (Steady.commandsOf steady_propagate) fun _ => steady_emit

/-! ## Expressions -/

theorem ordinary_of_irTy {ty : Ty} {span : Span} {f : Fault} (h : irTy ty span = .error f) :
    f.Ordinary := by
  cases ty with
  | void =>
    cases h
    exact Fault.ordinary_unsupported ..
  | _ => cases h

theorem steady_irTy {ty : Ty} {span : Span} : Steady n (liftM (irTy ty span) : Lower Ir.Ty) :=
  .lift fun _ => ordinary_of_irTy

theorem steady_valueOf {e : Expr} {act : Lower (Option Ir.Expr)} (h : Steady n act) :
    Steady n (valueOf e act) := by
  refine h.bind fun r => ?_
  cases r with
  | some v => exact .pure
  | none => exact .throw (Fault.ordinary_unsupported ..)

theorem steady_conditionOf {e : Expr} {act : Lower (Option Ir.Expr)} (h : Steady n act) :
    Steady n (conditionOf e act) := by
  refine (steady_valueOf h).bind fun v => .lift fun f hf => ?_
  unfold truthOf at hf
  split at hf
  · cases hf
  · cases hf
  · cases hf
  · cases hf
    exact Fault.ordinary_unsupported ..

theorem steady_alloc {type : TypeRef} : Steady n (alloc type) :=
  steady_freshLocal.bind fun _ => steady_emit.bind fun _ => .pure

theorem steady_emitCall {method : MethodRef} {args : List Ir.Expr} {outs : List String} :
    Steady n (emitCall env method args outs) :=
  steady_emit.bind fun _ => .ite steady_propagateIfAny .pure

theorem steady_finishCall {method : MethodRef} {args : List Ir.Expr} {ty : Ty} :
    Steady n (finishCall env method args ty) := by
  refine .ite (.bind steady_emitCall fun _ => .pure) ?_
  exact .bind steady_irTy fun _ => steady_freshLocal.bind fun _ => .bind steady_emitCall fun _ =>
    .pure

theorem steady_finishNew {type : TypeRef} {ctor : Option MethodRef} {args : List Ir.Expr} :
    Steady n (finishNew env type ctor args) := by
  refine .bind steady_alloc fun _ => ?_
  cases ctor with
  | some method => exact .bind steady_emitCall fun _ => .pure
  | none => exact .pure

theorem steady_finishBinary {op : BinOp} {lhs : Expr} {left right : Ir.Expr}
    {rightCmds : List Cmd} : Steady n (finishBinary op lhs left right rightCmds) := by
  refine .ite .pure ?_
  have hbool : ∀ guard : String → Ir.Expr, Steady n (do
      let tmp ← freshLocal "tmp" .bool
      emit (.set tmp left)
      emit (.ifThen (guard tmp) (rightCmds ++ [Ir.Cmd.set tmp right]))
      return Ir.Expr.ident tmp) := fun guard =>
    steady_freshLocal.bind fun _ => steady_emit.bind fun _ => steady_emit.bind fun _ => .pure
  cases op with
  | and => exact hbool fun tmp => .ident tmp
  | or => exact hbool fun tmp => .not (.ident tmp)
  | _ =>
    exact .bind steady_irTy fun _ => steady_freshLocal.bind fun _ => steady_emit.bind fun _ =>
      steady_emitAll.bind fun _ => .pure

theorem steady_finishConditional {ty : Ty} {span : Span} {cond : Ir.Expr}
    {thenPart elsePart : Ir.Expr × List Cmd} :
    Steady n (finishConditional ty span cond thenPart elsePart) := by
  refine .ite .pure ?_
  exact .bind steady_irTy fun _ => steady_freshLocal.bind fun _ => steady_emit.bind fun _ => .pure

theorem steady_defaultValue {ty : Ty} {span : Span} : Steady n (defaultValue env ty span) := by
  unfold defaultValue
  cases ty with
  | void => exact .throw (Fault.ordinary_unsupported ..)
  | bool | int => exact .pure
  | named t => exact .ite steady_alloc .pure

mutual

theorem steady_lowerExpr (e : Expr) (compound : Bool) : Steady n (lowerExpr env e compound) := by
  obtain ⟨id, span, ty, kind⟩ := e
  cases kind with
  | literal | var | self | typeOf =>
    rw [lowerExpr]
    exact .pure
  | field object field =>
    cases object with
    | none =>
      rw [lowerExpr]
      exact .pure
    | some object =>
      rw [lowerExpr]
      exact (steady_valueOf (steady_lowerExpr object false)).bind fun _ => .pure
  | unary op operand | getType operand | conversion operand newTy =>
    rw [lowerExpr]
    exact (steady_valueOf (steady_lowerExpr operand false)).bind fun _ => .pure
  | binary op lhs rhs =>
    by_cases htar : lhs.isTarget
    · obtain ⟨i, sp, t, lhsKind⟩ := lhs
      cases lhsKind with
      | target target =>
        rw [lowerExpr]
        have hrest : Steady n (do
            let current ← readTarget env target
            let rhs ← valueOf rhs (lowerExpr env rhs false)
            writeTarget env target (.binary (binOp op) current rhs)
            return some (← readTarget env target)) := by
          refine (steady_readTarget target).bind fun _ => ?_
          refine (steady_valueOf (steady_lowerExpr rhs false)).bind fun _ => ?_
          exact (steady_writeTarget target).bind fun _ => (steady_readTarget target).bind fun _ =>
            .pure
        have hthrow : Steady n (throw (.compoundAsValue span) : Lower Unit) :=
          .throw (Fault.ordinary_unsupported ..)
        exact .ite hrest (hthrow.bind fun _ => hrest)
      | _ => cases htar
    · rw [Bool.not_eq_true] at htar
      rw [lowerExpr_binary env htar]
      refine (steady_valueOf (steady_lowerExpr lhs false)).bind fun _ => ?_
      refine (steady_valueOf (steady_lowerExpr rhs false)).buffered.bind fun _ => ?_
      exact .bind steady_finishBinary fun _ => .pure
  | conditional cond thenExpr elseExpr =>
    rw [lowerExpr]
    refine (steady_conditionOf (steady_lowerExpr cond false)).bind fun _ => ?_
    refine (steady_valueOf (steady_lowerExpr thenExpr false)).buffered.bind fun _ => ?_
    refine (steady_valueOf (steady_lowerExpr elseExpr false)).buffered.bind fun _ => ?_
    exact .bind steady_finishConditional fun _ => .pure
  | assign target value =>
    rw [lowerExpr]
    refine (steady_valueOf (steady_lowerExpr value false)).bind fun _ => ?_
    exact (steady_writeTarget target).bind fun _ => (steady_readTarget target).bind fun _ => .pure
  | target target =>
    rw [lowerExpr]
    exact (steady_readTarget target).bind fun _ => .pure
  | call call =>
    obtain ⟨method, receiver, args, isVirtual⟩ := call
    rw [lowerExpr]
    exact (steady_lowerOption receiver).bind fun _ => (steady_lowerArgs args).bind fun _ =>
      steady_finishCall
  | new type ctor args =>
    rw [lowerExpr]
    exact (steady_lowerArgs args).bind fun _ => steady_finishNew.bind fun _ => .pure
  | defaultValue valueTy =>
    rw [lowerExpr]
    exact .bind steady_defaultValue fun _ => .pure
  | pop =>
    rw [lowerExpr]
    exact steady_popOperand.bind fun _ => .pure

theorem steady_readTarget (t : Target) : Steady n (readTarget env t) := by
  cases t with
  | var name =>
    rw [readTarget]
    exact .pure
  | field object field =>
    cases object with
    | none =>
      rw [readTarget]
      exact .pure
    | some object =>
      rw [readTarget]
      exact (steady_valueOf (steady_lowerExpr object false)).bind fun _ => .pure

theorem steady_writeTarget (t : Target) {v : Ir.Expr} : Steady n (writeTarget env t v) := by
  cases t with
  | var name =>
    rw [writeTarget]
    exact steady_emit
  | field object field =>
    cases object with
    | none =>
      rw [writeTarget]
      exact steady_emit
    | some object =>
      rw [writeTarget]
      exact (steady_valueOf (steady_lowerExpr object false)).bind fun _ => steady_emit

theorem steady_lowerOption (e : Option Expr) : Steady n (lowerOption env e) := by
  cases e with
  | none =>
    rw [lowerOption]
    exact .pure
  | some e =>
    rw [lowerOption]
    exact (steady_valueOf (steady_lowerExpr e false)).bind fun _ => .pure

theorem steady_lowerArgs (es : List Expr) : Steady n (lowerArgs env es) := by
  cases es with
  | nil =>
    rw [lowerArgs]
    exact .pure
  | cons e es =>
    rw [lowerArgs]
    exact (steady_valueOf (steady_lowerExpr e false)).bind fun _ => (steady_lowerArgs es).bind
      fun _ => .pure

end

theorem steady_value {e : Expr} : Steady n (value env e) :=
  steady_valueOf (steady_lowerExpr e false)

theorem steady_condition {e : Expr} : Steady n (condition env e) :=
  steady_conditionOf (steady_lowerExpr e false)

/-! ## Statements without parts -/

theorem steady_lowerReturn {span : Span} {e : Option Expr} : Steady n (lowerReturn env span e) := by
  cases e with
  | none => exact steady_emit
  | some e =>
    refine .bind steady_value fun v => .glance (fun _ _ => rfl) fun cx => ?_
    split
    · exact steady_irTy.bind fun _ => steady_record.bind fun _ => steady_emit.bind fun _ =>
        steady_emit
    · have hthrow : Steady n (throw (.noReturnSlot span) : Lower Unit) :=
        .throw (Fault.ordinary_unsupported ..)
      exact hthrow.bind fun _ => steady_emit

theorem steady_lowerLocalDecl {decl : Variable} {init : Option Expr} :
    Steady n (lowerLocalDecl env decl init) := by
  refine steady_irTy.bind fun ty => steady_declareLocal.bind fun _ => .ite ?_ ?_
  · split
    · exact steady_withRegistry.bind fun _ => .bind steady_value fun _ => steady_emit
    · exact .bind steady_value fun _ => steady_emit
  · cases init with
    | none => exact .pure
    | some e => exact .bind steady_value fun _ => steady_record.bind fun _ => steady_emit

theorem steady_lowerThrow {e : Expr} : Steady n (lowerThrow env e) :=
  .ite (.bind steady_value fun _ => steady_record.bind fun _ => steady_emit.bind fun _ =>
    steady_propagate) steady_emit

theorem mem_of_innermostCatch? {cx : Context} {id : Nat} (h : cx.innermostCatch? = some id) :
    ∃ e ∈ cx.stack, e.region = id := by
  obtain ⟨e, he, rfl⟩ := Option.map_eq_some_iff.mp h
  exact ⟨e, List.mem_of_find?_eq_some he, rfl⟩

theorem steady_lowerRethrow {span : Span} : Steady n (lowerRethrow env span) := by
  refine .ite (.look (fun _ _ _ => rfl) fun cx => ?_) steady_emit
  split
  · next id h =>
    obtain ⟨e, he, rfl⟩ := mem_of_innermostCatch? h
    have hid := Nat.lt_of_lt_of_le (lt_reach he) (Nat.le_max_right n _)
    exact (steady_exceptionLocal hid).bind fun _ => steady_record.bind fun _ =>
      steady_emit.bind fun _ => steady_propagate
  · exact .throw (Fault.ordinary_unsupported ..)

/-! ## Jumps -/

theorem steady_escape {target : String} {span : Span} {entries : List Entry}
    (h : ∀ e ∈ entries, e.region < n) : Steady n (escape target span entries) := by
  induction entries with
  | nil =>
    rw [escape]
    exact .pure
  | cons entry entries ih =>
    obtain ⟨hid, hrest⟩ := List.forall_mem_cons.mp h
    obtain ⟨region, phase⟩ := entry
    cases phase with
    | inFinally =>
      rw [escape]
      exact .throw (Fault.ordinary_unsupported ..)
    | _ =>
      rw [escape]
      · exact (steady_addEscapingEdge hid).bind fun _ => steady_useLabelVar.bind fun _ =>
          steady_emit.bind fun _ => (steady_finallyLabel hid).bind fun _ =>
          steady_emit.bind fun _ => steady_emit.bind fun _ => ih hrest
      · nofun

theorem findIdx?_congr {α : Type} {p q : α → Bool} {xs : List α} (h : ∀ x ∈ xs, p x = q x) :
    xs.findIdx? p = xs.findIdx? q := by
  induction xs with
  | nil => rfl
  | cons x xs ih =>
    obtain ⟨hx, hxs⟩ := List.forall_mem_cons.mp h
    rw [List.findIdx?_cons, List.findIdx?_cons, hx, ih hxs]

/-- The position of a `try` statement is read off the regions on the stack. -/
theorem position?_append {cx : Context} (h : reach cx.stack ≤ cx.regions.length)
    (more : List Region) (node : UInt32) :
    ({ cx with regions := cx.regions ++ more } : Context).position? node = cx.position? node := by
  unfold Context.position?
  refine findIdx?_congr fun e he => ?_
  dsimp only
  rw [List.getElem?_append_left (reach_le_iff.mp h e (List.mem_reverse.mp he))]

theorem sharedDepth_append {cx : Context} (h : reach cx.stack ≤ cx.regions.length)
    (more : List Region) (target : String) :
    sharedDepth env { cx with regions := cx.regions ++ more } target =
      sharedDepth env cx target := by
  unfold sharedDepth
  simp only [position?_append h]

theorem ordinary_of_sharedDepth {cx : Context} {target : String} {f : Fault}
    (h : sharedDepth env cx target = .error f) : f.Ordinary := by
  unfold sharedDepth at h
  split at h
  · cases h
    exact Fault.ordinary_unknownLabel target
  · cases h
  · split at h
    · cases h
    · split at h
      · cases h
        exact Fault.ordinary_jumpIntoTry target
      · cases h

theorem steady_lowerGoto {target : String} {span : Span} :
    Steady n (lowerGoto env target span) := by
  refine .look (fun cx more hreach => ?_) fun cx => ?_
  · have hstack : reach cx.stack ≤ cx.regions.length :=
      Nat.le_trans (Nat.le_max_right _ _) hreach
    simp only [sharedDepth_append hstack]
    rfl
  · refine Balanced.bind (.lift fun _ => ordinary_of_sharedDepth) fun keep =>
      (steady_escape fun e he => ?_).bind fun _ => steady_emit
    exact Nat.lt_of_lt_of_le (lt_reach (List.mem_of_mem_take he)) (Nat.le_max_right _ _)

/-! ## Regions -/

theorem steady_leaveNormally {region : Nat} (hid : region < n) : Steady n (leaveNormally region) :=
  steady_useLabelVar.bind fun _ => steady_emit.bind fun _ => (steady_finallyLabel hid).bind
    fun _ => steady_emit

theorem steady_bindCaught {caught : String} {span : Span} {binding : Option Variable} :
    Steady n (bindCaught env caught span binding) := by
  cases binding with
  | none => exact .pure
  | some v =>
    exact steady_irTy.bind fun _ => steady_declareLocal.bind fun _ => steady_record.bind fun _ =>
      steady_emit

theorem steady_takeException {region : Nat} (hid : region < n) :
    Steady n (takeException region) :=
  (steady_catchLabel hid).bind fun _ => steady_emit.bind fun _ =>
    (steady_exceptionLocal hid).bind fun _ => steady_emit.bind fun _ => steady_emit.bind
    fun _ => .pure

theorem steady_finishCatches {caught : String} {arms : List (Ir.Expr × List Cmd)} :
    Steady n (finishCatches env caught arms) :=
  steady_emitAll.bind fun _ => steady_emit.bind fun _ => steady_propagate

theorem steady_saveForFinally : Steady n saveForFinally :=
  steady_useLabelVar.bind fun _ => steady_freshLocal.bind fun _ => steady_freshLocal.bind fun _ =>
    steady_emit.bind fun _ => steady_emit.bind fun _ => steady_emit.bind fun _ => .pure

theorem steady_restoreAfterFinally {x y : String} : Steady n (restoreAfterFinally x y) :=
  steady_emit.bind fun _ => steady_emit

theorem steady_dispatchContinuation {region : Nat} (hid : region < n) :
    Steady n (dispatchContinuation region) := by
  refine (steady_continuationLabel hid).bind fun _ => .look (fun cx more hreach => ?_) fun cx => ?_
  · have hlt : region < cx.regions.length :=
      Nat.lt_of_lt_of_le hid (Nat.le_trans (Nat.le_max_left _ _) hreach)
    have hedges : ({ cx with regions := cx.regions ++ more } : Context).escapingEdges region =
        cx.escapingEdges region := by
      unfold Context.escapingEdges
      rw [List.getElem?_append_left hlt]
    simp only [hedges]
  · exact .ite steady_emitAll (steady_useLabelVar.bind fun _ => steady_emitAll)

theorem steady_finishRegion {region : Nat} (hid : region < n) :
    Steady n (finishRegion env region) :=
  (steady_dispatchContinuation hid).bind fun _ => (steady_continuationLabel hid).bind fun _ =>
    steady_emit.bind fun _ => steady_propagateIfAny

end

/-! ## Statements -/

section

variable {env : Env}

mutual

/-- In a `try` statement more regions are known to exist. -/
theorem steady_lowerStmt {n : Nat} (s : Stmt) : Steady n (lowerStmt env s) := by
  obtain ⟨id, span, kind⟩ := s
  have hmarked : ∀ {act : Lower Unit}, Steady n act → Steady n (do emitMarks env span kind; act) :=
    fun h => steady_emitMarks.bind fun _ => h
  cases kind with
  | block stmts =>
    rw [lowerStmt]
    exact hmarked (steady_lowerStmts stmts)
  | empty =>
    rw [lowerStmt]
    exact hmarked .pure
  | assert cond =>
    rw [lowerStmt]
    exact hmarked (steady_condition.bind fun _ => steady_emit)
  | assume cond =>
    rw [lowerStmt]
    exact hmarked (steady_condition.bind fun _ => steady_emit)
  | conditional cond thenBranch elseBranch =>
    rw [lowerStmt]
    refine hmarked (steady_condition.bind fun _ => ?_)
    have hbranch : ∀ {act : Lower Unit}, Steady n act →
        Steady n (commandsOf do breadcrumb env; act) :=
      fun h => Steady.commandsOf (steady_breadcrumb.bind fun _ => h)
    exact (hbranch (steady_lowerStmt thenBranch)).bind fun _ =>
      (hbranch (steady_lowerStmt elseBranch)).bind fun _ => steady_emit
  | expression e =>
    rw [lowerStmt]
    exact hmarked ((steady_lowerExpr e _).bind fun _ => .pure)
  | breakLoop | continueLoop | whileLoop | doUntil | forLoop | forEach =>
    simp only [lowerStmt]
    exact hmarked (.throw (Fault.ordinary_unsupported ..))
  | switch scrutinee cases =>
    rw [lowerStmt]
    refine hmarked (steady_value.bind fun v => (steady_lowerDefault cases).bind fun ds => ?_)
    refine (steady_lowerCases cases).bind fun chain => ?_
    cases chain with
    | some c => exact steady_emit
    | none => exact steady_emitAll
  | localDecl decl init =>
    rw [lowerStmt]
    exact hmarked steady_lowerLocalDecl
  | ret value =>
    rw [lowerStmt]
    exact hmarked steady_lowerReturn
  | goto label =>
    rw [lowerStmt]
    exact hmarked steady_lowerGoto
  | labeled label body =>
    rw [lowerStmt]
    exact hmarked (steady_emit.bind fun _ => steady_lowerStmt body)
  | tryCatch body catches finalizer =>
    rw [lowerStmt]
    refine hmarked (.ite (balanced_enterRegion fun region => ?_) ?_)
    · -- the three phases, each with the region on top of the stack while its part is lowered
      have hid := Nat.lt_succ_self region
      refine (balanced_pushPhase .inTry hid).bind fun _ => ?_
      refine ((steady_lowerStmt body).frame _).bind fun _ => ?_
      refine ((steady_leaveNormally hid).frame _).bind fun _ => ?_
      refine (balanced_popPhase .inTry).bind fun _ => (steady_takeException hid).bind fun _ => ?_
      refine (balanced_pushPhase .inCatch hid).bind fun _ => ?_
      refine ((steady_lowerCatches hid catches).frame _).bind fun _ => ?_
      refine (steady_finishCatches.frame _).bind fun _ => (balanced_popPhase .inCatch).bind
        fun _ => ?_
      refine (steady_finallyLabel hid).bind fun _ => steady_emit.bind fun _ => ?_
      exact (steady_lowerFinally hid finalizer).bind fun _ => steady_finishRegion hid
    · exact (steady_lowerStmt body).bind fun _ => steady_lowerOptional finalizer
  | throw e =>
    rw [lowerStmt]
    exact hmarked steady_lowerThrow
  | rethrow =>
    rw [lowerStmt]
    exact hmarked steady_lowerRethrow
  | push e =>
    rw [lowerStmt]
    exact hmarked (steady_value.bind fun _ => steady_pushOperand)

theorem steady_lowerStmts {n : Nat} (ss : List Stmt) : Steady n (lowerStmts env ss) := by
  cases ss with
  | nil =>
    rw [lowerStmts]
    exact .pure
  | cons s ss =>
    rw [lowerStmts]
    exact (steady_lowerStmt s).bind fun _ => steady_lowerStmts ss

theorem steady_lowerOptional {n : Nat} (s : Option Stmt) : Steady n (lowerOptional env s) := by
  cases s with
  | none =>
    rw [lowerOptional]
    exact .pure
  | some s =>
    rw [lowerOptional]
    exact steady_lowerStmt s

theorem steady_lowerFinally {n region : Nat} (hid : region < n) (s : Option Stmt) :
    Steady n (lowerFinally env region s) := by
  cases s with
  | none =>
    rw [lowerFinally]
    exact .pure
  | some s =>
    rw [lowerFinally]
    refine (balanced_pushPhase .inFinally hid).bind fun _ => ?_
    refine (steady_saveForFinally.frame _).bind fun _ => ?_
    refine ((steady_lowerStmt s).frame _).bind fun _ => ?_
    exact (steady_restoreAfterFinally.frame _).bind fun _ => balanced_popPhase .inFinally

theorem steady_lowerCatches {n region : Nat} (hid : region < n) {caught : String}
    (clauses : List CatchClause) : Steady n (lowerCatches env region caught clauses) := by
  cases clauses with
  | nil =>
    rw [lowerCatches]
    exact .pure
  | cons clause clauses =>
    obtain ⟨span, type, binding, body⟩ := clause
    rw [lowerCatches]
    refine (Steady.commandsOf ?_).bind fun _ => (steady_lowerCatches hid clauses).bind fun _ =>
      .pure
    exact steady_bindCaught.bind fun _ => (steady_lowerStmt body).bind fun _ =>
      steady_leaveNormally hid

theorem steady_lowerDefault {n : Nat} (cases : List SwitchCase) : Steady n (lowerDefault env cases) := by
  cases cases with
  | nil =>
    rw [lowerDefault]
    exact .pure
  | cons case cases =>
    obtain ⟨span, value, body⟩ := case
    rw [lowerDefault]
    exact .ite (steady_lowerDefault cases) (steady_lowerStmts body).commandsOf

theorem steady_lowerCases {n : Nat} {v : Ir.Expr} {ds : List Cmd} (cases : List SwitchCase) :
    Steady n (lowerCases env v ds cases) := by
  cases cases with
  | nil =>
    rw [lowerCases]
    exact .pure
  | cons case cases =>
    obtain ⟨span, value, body⟩ := case
    rw [lowerCases]
    refine (steady_lowerCases cases).bind fun chain => ?_
    cases value with
    | none => exact .pure
    | some e =>
      exact steady_value.bind fun _ => (steady_lowerStmts body).commandsOf.bind fun _ => .pure

end

end

/-! ## Methods -/

theorem ordinary_of_mapM {α β : Type} {g : α → Except Fault β}
    (hg : ∀ a f, g a = .error f → f.Ordinary) {as : List α} {f : Fault}
    (h : as.mapM g = .error f) : f.Ordinary := by
  induction as with
  | nil => cases h
  | cons a as ih =>
    rw [List.mapM_cons] at h
    cases ha : g a with
    | error e =>
      rw [ha] at h
      cases h
      exact hg a _ ha
    | ok b =>
      rw [ha] at h
      cases hrest : as.mapM g with
      | error e =>
        rw [hrest] at h
        cases h
        exact ih hrest
      | ok bs =>
        rw [hrest] at h
        cases h

theorem ordinary_of_paramsOf {m : MethodDef} {f : Fault} (h : paramsOf m = .error f) :
    f.Ordinary := by
  unfold paramsOf at h
  cases hparams : m.params.mapM fun p => do return Ir.VarDecl.mk p.name (← irTy p.ty {}) with
  | ok params =>
    rw [hparams] at h
    cases h
  | error e =>
    rw [hparams] at h
    cases h
    refine ordinary_of_mapM (fun p f hp => ?_) hparams
    cases hty : irTy p.ty {} with
    | ok ty =>
      rw [hty] at hp
      cases hp
    | error e =>
      rw [hty] at hp
      cases hp
      exact ordinary_of_irTy hty

theorem ordinary_of_returnsOf {m : MethodDef} {f : Fault} (h : returnsOf m = .error f) :
    f.Ordinary := by
  unfold returnsOf at h
  split at h
  · cases h
  · cases hty : irTy m.ret {} with
    | ok ty =>
      rw [hty] at h
      cases h
    | error e =>
      rw [hty] at h
      cases h
      exact ordinary_of_irTy hty

theorem ordinary_of_collect {body : Stmt} {f : Fault} (h : LabelScopes.collect body = .error f) :
    f.Ordinary := by
  rcases LabelScopes.collect_eq_error h with ⟨l, -, -, rfl, -⟩ | ⟨id, -, -, rfl, -⟩
  · exact Fault.ordinary_duplicateLabel l
  · exact Fault.ordinary_duplicateTry id

theorem stack_startContext (scopes : LabelScopes) (params returns : List Ir.VarDecl) :
    (startContext scopes params returns).stack = [] := by
  obtain ⟨_, _, -, he⟩ := startContext_eq scopes params returns
  rw [he]

theorem steady_body (env : Env) (body : Stmt) :
    Steady 0 (do breadcrumb env; lowerStmt env body) :=
  steady_breadcrumb.bind fun _ => steady_lowerStmt body

/-- The stack is empty at the end of a body, so that a method only fails for another reason. -/
theorem ordinary_of_lowerMethod {env : Env} {owner : TypeDef} {m : MethodDef}
    {shared shared' : Shared} {f : Fault}
    (h : (lowerMethod env owner m).run shared = (.error f, shared')) : f.Ordinary := by
  rcases hparams : paramsOf m with e | params
  · simp only [lowerMethod, hparams] at h
    cases h
    exact ordinary_of_paramsOf hparams
  rcases hreturns : returnsOf m with e | returns
  · simp only [lowerMethod, hparams, hreturns] at h
    cases h
    exact ordinary_of_returnsOf hreturns
  rcases hbody : m.body with _ | body
  · simp only [lowerMethod, hparams, hreturns, hbody] at h
    cases h
  rcases hscopes : LabelScopes.collect body with e | scopes
  · simp only [lowerMethod, hparams, hreturns, hbody, hscopes] at h
    cases h
    exact ordinary_of_collect hscopes
  cases hrun : (do breadcrumb env; lowerStmt env body : Lower Unit).run
      ⟨startContext scopes params returns, announce owner m shared⟩ with
  | mk r s =>
    rw [run_lowerMethod ⟨hbody, hparams, hreturns, hscopes⟩ hrun] at h
    cases r with
    | error e =>
      cases h
      exact (steady_body env body).fault rfl hrun
    | ok u =>
      have hstack : s.stack = [] :=
        ((steady_body env body).stack_eq hrun).trans (stack_startContext scopes params returns)
      have hfinish : s.finish = .ok (s.locals, s.cmds) := if_pos (by rw [hstack]; rfl)
      have hfinished : finished owner m params returns s.toContext = .error f :=
        congrArg Prod.fst h
      unfold finished at hfinished
      rw [hfinish] at hfinished
      cases hfinished

/-- A jump visits the positions from the one where it stops up to the top of the stack, and all of
them are there. -/
theorem sharedDepth_positions {env : Env} {cx : Context} {target : String} {keep : Nat}
    (h : sharedDepth env cx target = .ok keep) :
    keep ≤ cx.depth ∧ (cx.stack.take (cx.depth - keep)).reverse.map some =
      (List.range' keep (cx.depth - keep)).map cx.entryAt? := by
  have hkeep : keep ≤ cx.depth := by
    unfold sharedDepth at h
    split at h
    · cases h
    · cases h
      exact Nat.zero_le _
    · split at h
      · next position hposition =>
        cases h
        obtain ⟨hlt, -⟩ := List.findIdx?_eq_some_iff_getElem.mp hposition
        rwa [List.length_reverse] at hlt
      · split at h
        · cases h
        · cases h
          exact Nat.zero_le _
  have hdrop : cx.stack.length - (cx.depth - keep) = keep := Nat.sub_sub_self hkeep
  rw [List.reverse_take, hdrop]
  refine ⟨hkeep, List.ext_getElem ?_ fun i h₁ h₂ => ?_⟩
  · simp [Context.depth]
  · have hi : keep + i < cx.stack.reverse.length := by
      simp at h₁ ⊢
      omega
    rw [List.getElem_map, List.getElem_drop, List.getElem_map, List.getElem_range', Nat.one_mul,
      Context.entryAt?, List.getElem?_eq_getElem hi]

/-- Whatever state it starts in, the lowering of a statement or of an expression leaves the stack of
regions as it was, only adds to the regions, and appends to the commands. So a method never fails
because of the stack. Regions are asked for only when they exist, in the body of a method and from
every state whose stack is grounded, and a jump visits positions of the stack that exist. -/
theorem lowering_balanced (env : Env) :
    (∀ (stmt : Stmt) (s s' : State), Runs (lowerStmt env stmt) s () s' →
      s'.stack = s.stack ∧ Extends s s') ∧
    (∀ (e : Expr) (compound : Bool) (v : Option Ir.Expr) (s s' : State),
      Runs (lowerExpr env e compound) s v s' → s'.stack = s.stack ∧ Extends s s') ∧
    (∀ (owner : TypeDef) (m : MethodDef) (shared shared' : Shared) (f : Fault),
      (lowerMethod env owner m).run shared = (.error f, shared') →
        (∀ expected found, f ≠ .unbalanced expected found) ∧ ∀ count, f ≠ .openRegions count) ∧
    (∀ (body : Stmt) (scopes : LabelScopes) (params returns : List Ir.VarDecl) (shared : Shared),
      InRange (do breadcrumb env; lowerStmt env body)
        ⟨startContext scopes params returns, shared⟩) ∧
    (∀ s : State, s.Grounded → (∀ stmt, InRange (lowerStmt env stmt) s) ∧
      ∀ e compound, InRange (lowerExpr env e compound) s) ∧
    ∀ (cx : Context) (target : String) (keep : Nat), sharedDepth env cx target = .ok keep →
      keep ≤ cx.depth ∧ (cx.stack.take (cx.depth - keep)).reverse.map some =
        (List.range' keep (cx.depth - keep)).map cx.entryAt? := by
  have hstmt : ∀ stmt, Steady 0 (lowerStmt env stmt) := steady_lowerStmt
  have hexpr : ∀ e compound, Steady 0 (lowerExpr env e compound) := steady_lowerExpr
  refine ⟨fun stmt s s' h => ⟨(hstmt stmt).stack_eq h, (hstmt stmt).grows rfl h⟩,
    fun e compound v s s' h => ⟨(hexpr e compound).stack_eq h, (hexpr e compound).grows rfl h⟩,
    fun _ _ _ _ _ => ordinary_of_lowerMethod, fun body scopes params returns shared => ?_,
    fun s hs => ⟨fun stmt => (hstmt stmt).inRange rfl hs (Nat.zero_le _),
      fun e compound => (hexpr e compound).inRange rfl hs (Nat.zero_le _)⟩,
    fun cx target keep => sharedDepth_positions⟩
  refine (steady_body env body).inRange rfl (fun e he => ?_) (Nat.zero_le _)
  rw [stack_startContext] at he
  cases he

/-- A jump out of a `try` statement that rethrows what it catches, and has a finally block. -/
def leaving : Stmt :=
  ⟨1, {}, .tryCatch (.goto "out") [⟨{}, none, none, ⟨2, {}, .rethrow⟩⟩] (some .empty)⟩

/-- In a catch clause of another one. -/
def inClause : State where
  cmds := [.label "$catch0"]
  regions := [{ node := 9, catchTypes := [none], catchLabel := some "$catch0" }]
  stack := [⟨0, .inCatch⟩]
  scopes := { labels := [("out", none)] }

/-- A body that jumps to a label that no statement carries. -/
def lostMethod : MethodDef where
  name := "lost"
  body := some (.goto "nowhere")

/-- The jump leaves both regions; the other one fails for want of its label. -/
theorem leaving_balanced :
    (∃ s', Runs (lowerStmt {} leaving) inClause () s' ∧ s'.stack = [⟨0, .inCatch⟩] ∧
      Extends inClause s' ∧ s'.regions.map (·.escapes.length) = [1, 1]) ∧
    InRange (lowerStmt {} leaving) inClause ∧
    [some ⟨0, .inCatch⟩] = (List.range' 0 1).map inClause.entryAt? ∧
    ∃ f shared', (lowerMethod {} ⟨⟨"T", none⟩, .classType, [], [], [], [], []⟩ lostMethod).run {} =
      (.error f, shared') ∧ ∀ count, f ≠ .openRegions count := by
  obtain ⟨hstmt, -, hmethod, -, hrange, hjump⟩ := lowering_balanced {}
  refine ⟨?_, ?_, (hjump inClause.toContext "out" 0 rfl).2, ?_⟩
  · have hok : ((lowerStmt {} leaving).run inClause).1.toBool = true := by decide +kernel
    have hjumps : ((lowerStmt {} leaving).run inClause).2.regions.map (·.escapes.length) =
        [1, 1] := by decide +kernel
    cases hrun : (lowerStmt {} leaving).run inClause with
    | mk r s' =>
      rw [hrun] at hok hjumps
      cases r with
      | error f => cases hok
      | ok u =>
        obtain ⟨hstack, hext⟩ := hstmt leaving inClause s' hrun
        exact ⟨s', hrun, hstack, hext, hjumps⟩
  · refine (hrange inClause fun e he => ?_).1 leaving
    rw [List.mem_singleton.mp he]
    exact Nat.zero_lt_one
  · have hlost : ((lowerMethod {} ⟨⟨"T", none⟩, .classType, [], [], [], [], []⟩ lostMethod).run
        {}).1 = .error (.unknownLabel "nowhere") := rfl
    exact ⟨_, _, Prod.ext hlost rfl, (hmethod _ _ _ _ _ (Prod.ext hlost rfl)).2⟩

end Unwind.Lowering
