import Unwind.Proofs.Literals.Lowering
import Unwind.Proofs.Modules.Context

/-!
# Lowering without modules

What a lowering emits shows names of types only. The lowering of a body without modules takes the
steps of the lowering of the body itself (`lowerExpr_forgets`, `lowerStmt_forgets`), and a method
without modules becomes the same procedure (`lowerMethod_forgets`).
-/

namespace Unwind.Lowering

open Source (BinOp CatchClause Expr MethodDef MethodRef Stmt SwitchCase Target Ty TypeDef TypeRef
  Variable unqualifiedAll unqualifiedCases unqualifiedCatches unqualifiedOption
  unqualifiedStmtOption unqualifiedStmts)
open Ir (Cmd)

/-! ## Types and tests -/

@[simp] theorem irTy_bare (ty : Ty) (span : Span) : irTy ty.bare span = irTy ty span := by
  cases ty <;> rfl

theorem convert_bare (source target : Ty) (v : Ir.Expr) :
    convert source.bare target.bare v = convert source target v := by
  cases source <;> cases target <;> rfl

theorem truthOf_unqualified (e : Expr) (v : Ir.Expr) : truthOf e.unqualified v = truthOf e v := by
  unfold truthOf
  rw [Expr.ty_unqualified, Expr.span_unqualified, Ty.valueKind?_bare]

theorem catchTest_unqualified (caught : String) (type : Option TypeRef) :
    catchTest caught (type.map TypeRef.unqualified) = catchTest caught type := by
  cases type <;> rfl

theorem isCompound_unqualified (e : Expr) : isCompound e.unqualified = isCompound e := by
  obtain ⟨id, span, ty, kind⟩ := e
  cases kind with
  | binary op lhs rhs => exact Expr.isTarget_unqualified lhs
  | _ => rfl

theorem isDefaultValue_unqualified (e : Expr) :
    isDefaultValue e.unqualified = isDefaultValue e := by
  obtain ⟨id, span, ty, kind⟩ := e
  cases kind <;> rfl

namespace Forgets

/-! ## Marks and recordings -/

theorem breadcrumb {env : Env} : Forgets (breadcrumb env) (breadcrumb env) :=
  .ite (.bind (.withRegistry fun _ => rfl) fun _ => .emit) .pure

theorem record {env : Env} {label : String} {ty : Ir.Ty} {v : Ir.Expr} :
    Forgets (record env label ty v) (record env label ty v) :=
  .ite (.bind (.withRegistry fun _ => rfl) fun _ => .emit) .pure

theorem emitMarks {env : Env} {span : Span} {kind : Source.StmtKind} :
    Forgets (emitMarks env span kind) (emitMarks env span kind) := by
  rw [emitMarks_eq]
  refine .ite (.bind (.ite .emit .pure) fun _ => ?_) .pure
  exact .ite (.bind (.withRegistry fun _ => rfl) fun _ => .emit) .pure

theorem emitAssertion {env : Env} {v : Ir.Expr} :
    Forgets (emitAssertion env v) (emitAssertion env v) := .emit

/-! ## Leaving regions -/

theorem leaveNormally {region : Nat} : Forgets (leaveNormally region) (leaveNormally region) :=
  .bind .useLabelVar fun _ => .bind .emit fun _ => .bind .finallyLabel fun _ => .emit

theorem propagate {env : Env} : Forgets (propagate env) (propagate env) := by
  refine .context fun cx => ?_
  have hstack : cx.unqualified.stack = cx.stack := rfl
  rw [hstack]
  cases cx.stack.head? with
  | none => exact .bind .record fun _ => .emit
  | some entry =>
    obtain ⟨region, phase⟩ := entry
    cases phase with
    | inTry => exact .bind .catchLabel fun _ => .emit
    | inCatch =>
      exact .bind .useLabelVar fun _ => .bind .emit fun _ => .bind .finallyLabel fun _ => .emit
    | inFinally => exact .bind .continuationLabel fun _ => .emit

theorem propagateIfAny {env : Env} : Forgets (propagateIfAny env) (propagateIfAny env) :=
  .bind (.commandsOf .propagate) fun _ => .emit

theorem escape {target : String} {span : Span} (entries : List Entry) :
    Forgets (escape target span entries) (escape target span entries) := by
  induction entries with
  | nil =>
    rw [Lowering.escape]
    exact .pure
  | cons entry entries ih =>
    obtain ⟨region, phase⟩ := entry
    cases phase with
    | inFinally =>
      rw [Lowering.escape]
      exact .throw
    | _ =>
      rw [Lowering.escape]
      · refine .bind .addEscapingEdge fun _ => .bind .useLabelVar fun _ => .bind .emit fun _ => ?_
        exact .bind .finallyLabel fun _ => .bind .emit fun _ => .bind .emit fun _ => ih
      · nofun

theorem lowerGoto {env : Env} {target : String} {span : Span} :
    Forgets (lowerGoto env target span) (lowerGoto env target span) := by
  refine .context fun cx => ?_
  have hdepth : sharedDepth env cx.unqualified target = sharedDepth env cx target := by
    simp only [sharedDepth, Context.position?_unqualified]
    rfl
  rw [hdepth]
  exact .bind (.lift _) fun _ => .bind (.escape _) fun _ => .emit

theorem takeException {region : Nat} : Forgets (takeException region) (takeException region) :=
  .bind .catchLabel fun _ => .bind .emit fun _ => .bind .exceptionLocal fun _ =>
    .bind .emit fun _ => .bind .emit fun _ => .pure

theorem saveForFinally : Forgets saveForFinally saveForFinally :=
  .bind .useLabelVar fun _ => .bind .freshLocal fun _ => .bind .freshLocal fun _ =>
    .bind .emit fun _ => .bind .emit fun _ => .bind .emit fun _ => .pure

theorem restoreAfterFinally {x y : String} :
    Forgets (restoreAfterFinally x y) (restoreAfterFinally x y) :=
  .bind .emit fun _ => .emit

theorem finishCatches {env : Env} {caught : String} {arms : List (Ir.Expr × List Cmd)} :
    Forgets (finishCatches env caught arms) (finishCatches env caught arms) :=
  .bind .emitAll fun _ => .bind .emit fun _ => .propagate

theorem finishRegion {env : Env} {region : Nat} :
    Forgets (finishRegion env region) (finishRegion env region) := by
  have hdispatch : Forgets (dispatchContinuation region) (dispatchContinuation region) := by
    refine .bind .continuationLabel fun _ => .context fun cx => ?_
    rw [cx.escapingEdges_unqualified]
    exact .ite .emitAll (.bind .useLabelVar fun _ => .emitAll)
  exact .bind hdispatch fun _ => .bind .continuationLabel fun _ =>
    .bind .emit fun _ => .propagateIfAny

/-! ## The commands of each kind of expression -/

theorem valueOf {e : Expr} {x y : Lower (Option Ir.Expr)} (h : Forgets x y) :
    Forgets (valueOf e x) (valueOf e.unqualified y) := by
  refine .bind h fun r => ?_
  cases r with
  | some v => exact .pure
  | none =>
    dsimp only
    rw [Expr.ty_unqualified, Ty.text_bare, Expr.span_unqualified]
    exact .throw

theorem conditionOf {e : Expr} {x y : Lower (Option Ir.Expr)} (h : Forgets x y) :
    Forgets (conditionOf e x) (conditionOf e.unqualified y) := by
  refine .bind (.valueOf h) fun v => ?_
  rw [truthOf_unqualified]
  exact .lift _

theorem alloc {type : TypeRef} : Forgets (alloc type) (alloc type.unqualified) :=
  .bind .freshLocal fun _ => .bind .emit fun _ => .pure

theorem emitCall {env : Env} {method : MethodRef} {args : List Ir.Expr} {outs : List String} :
    Forgets (emitCall env method args outs) (emitCall env method.unqualified args outs) := by
  unfold Lowering.emitCall
  rw [MethodRef.procedureName_unqualified]
  exact .bind .emit fun _ => .ite .propagateIfAny .pure

theorem finishCall {env : Env} {method : MethodRef} {args : List Ir.Expr} {ty : Ty} :
    Forgets (finishCall env method args ty) (finishCall env method.unqualified args ty.bare) := by
  unfold Lowering.finishCall
  rw [Ty.isVoid_bare, irTy_bare]
  refine .ite (.bind .emitCall fun _ => .pure) ?_
  exact .bind (.lift _) fun _ => .bind .freshLocal fun _ => .bind .emitCall fun _ => .pure

theorem finishNew {env : Env} {type : TypeRef} {ctor : Option MethodRef} {args : List Ir.Expr} :
    Forgets (finishNew env type ctor args)
      (finishNew env type.unqualified (ctor.map MethodRef.unqualified) args) := by
  refine .bind .alloc fun _ => ?_
  cases ctor with
  | some method => exact .bind .emitCall fun _ => .pure
  | none => exact .pure

theorem finishBinary {op : BinOp} {lhs : Expr} {left right : Ir.Expr} {cs : List Cmd} :
    Forgets (finishBinary op lhs left right cs)
      (finishBinary op lhs.unqualified left right cs) := by
  unfold Lowering.finishBinary
  rw [Expr.ty_unqualified, irTy_bare, Expr.span_unqualified]
  refine .ite .pure ?_
  cases op with
  | and | or => exact .bind .freshLocal fun _ => .bind .emit fun _ => .bind .emit fun _ => .pure
  | _ =>
    exact .bind (.lift _) fun _ => .bind .freshLocal fun _ => .bind .emit fun _ =>
      .bind .emitAll fun _ => .pure

theorem finishConditional {ty : Ty} {span : Span} {cond : Ir.Expr}
    {thenPart elsePart : Ir.Expr × List Cmd} :
    Forgets (finishConditional ty span cond thenPart elsePart)
      (finishConditional ty.bare span cond thenPart elsePart) := by
  unfold Lowering.finishConditional
  rw [irTy_bare]
  exact .ite .pure (.bind (.lift _) fun _ => .bind .freshLocal fun _ => .bind .emit fun _ => .pure)

theorem defaultValue {env : Env} {ty : Ty} {span : Span} :
    Forgets (defaultValue env ty span) (defaultValue env ty.bare span) := by
  cases ty with
  | void => exact .throw
  | bool | int => exact .pure
  | named t => exact .ite .alloc .pure

end Forgets

/-! ## Expressions -/

section

variable {env env' : Env}

mutual

/-- The modules of an expression do not matter to its lowering. -/
theorem lowerExpr_forgets (h : env.Renders id env') (e : Expr) (compound : Bool) :
    Forgets (lowerExpr env e compound) (lowerExpr env' e.unqualified compound) := by
  obtain ⟨id, span, ty, kind⟩ := e
  rw [Expr.unqualified]
  cases kind with
  | literal lit =>
    have hlit : literal env' lit = literal env lit := by
      cases lit with
      | int n => exact congrArg Ir.Expr.int (h.literal n)
      | _ => rfl
    rw [Source.ExprKind.unqualified, lowerExpr, lowerExpr, hlit]
    exact .pure
  | var | self | typeOf =>
    rw [Source.ExprKind.unqualified, lowerExpr, lowerExpr]
    exact .pure
  | field object field =>
    cases object with
    | none =>
      rw [Source.ExprKind.unqualified, unqualifiedOption, lowerExpr, lowerExpr]
      exact .pure
    | some object =>
      rw [Source.ExprKind.unqualified, unqualifiedOption, lowerExpr, lowerExpr]
      exact .bind (.valueOf (lowerExpr_forgets h object false)) fun _ => .pure
  | unary op operand | getType operand =>
    rw [Source.ExprKind.unqualified, lowerExpr, lowerExpr]
    exact .bind (.valueOf (lowerExpr_forgets h operand false)) fun _ => .pure
  | conversion value newTy =>
    rw [Source.ExprKind.unqualified, lowerExpr, lowerExpr]
    refine .bind (.valueOf (lowerExpr_forgets h value false)) fun v => ?_
    rw [Expr.ty_unqualified, convert_bare]
    exact .pure
  | binary op lhs rhs =>
    rw [Source.ExprKind.unqualified]
    by_cases ht : lhs.isTarget
    · -- a compound assignment reads and writes the target, on both sides
      obtain ⟨i, sp, t, lhsKind⟩ := lhs
      cases lhsKind with
      | target target =>
        rw [Expr.unqualified, Source.ExprKind.unqualified, lowerExpr, lowerExpr]
        have hrest : Forgets
            (do let current ← readTarget env target
                let rhs ← valueOf rhs (lowerExpr env rhs false)
                writeTarget env target (.binary (binOp op) current rhs)
                return some (← readTarget env target))
            (do let current ← readTarget env' target.unqualified
                let rhs ← valueOf rhs.unqualified (lowerExpr env' rhs.unqualified false)
                writeTarget env' target.unqualified (.binary (binOp op) current rhs)
                return some (← readTarget env' target.unqualified)) := by
          refine .bind (readTarget_forgets h target) fun _ => ?_
          refine .bind (.valueOf (lowerExpr_forgets h rhs false)) fun _ => ?_
          exact .bind (writeTarget_forgets h target _) fun _ =>
            .bind (readTarget_forgets h target) fun _ => .pure
        exact .ite hrest (.bind .throw fun _ => hrest)
      | _ => cases ht
    · rw [Bool.not_eq_true] at ht
      rw [lowerExpr_binary env ht, lowerExpr_binary env' (by rw [Expr.isTarget_unqualified, ht])]
      refine .bind (.valueOf (lowerExpr_forgets h lhs false)) fun _ => ?_
      refine .bind (.buffered (.valueOf (lowerExpr_forgets h rhs false))) fun _ => ?_
      exact .bind .finishBinary fun _ => .pure
  | conditional cond thenExpr elseExpr =>
    rw [Source.ExprKind.unqualified, lowerExpr, lowerExpr]
    refine .bind (.conditionOf (lowerExpr_forgets h cond false)) fun _ => ?_
    refine .bind (.buffered (.valueOf (lowerExpr_forgets h thenExpr false))) fun _ => ?_
    refine .bind (.buffered (.valueOf (lowerExpr_forgets h elseExpr false))) fun _ => ?_
    exact .bind .finishConditional fun _ => .pure
  | assign target value =>
    rw [Source.ExprKind.unqualified, lowerExpr, lowerExpr]
    refine .bind (.valueOf (lowerExpr_forgets h value false)) fun _ => ?_
    exact .bind (writeTarget_forgets h target _) fun _ =>
      .bind (readTarget_forgets h target) fun _ => .pure
  | target target =>
    rw [Source.ExprKind.unqualified, lowerExpr, lowerExpr]
    exact .bind (readTarget_forgets h target) fun _ => .pure
  | call call =>
    obtain ⟨method, receiver, args, isVirtual⟩ := call
    rw [Source.ExprKind.unqualified, Source.Call.unqualified, lowerExpr, lowerExpr]
    refine .bind (lowerOption_forgets h receiver) fun _ => ?_
    refine .bind (lowerArgs_forgets h args) fun _ => ?_
    rw [finishCall_eq h]
    exact .finishCall
  | new type ctor args =>
    rw [Source.ExprKind.unqualified, lowerExpr, lowerExpr]
    refine .bind (lowerArgs_forgets h args) fun _ => ?_
    rw [finishNew_eq h]
    exact .bind .finishNew fun _ => .pure
  | defaultValue valueTy =>
    rw [Source.ExprKind.unqualified, lowerExpr, lowerExpr, defaultValue_eq h]
    exact .bind .defaultValue fun _ => .pure
  | pop =>
    rw [Source.ExprKind.unqualified, lowerExpr, lowerExpr]
    exact .bind .popOperand fun _ => .pure

theorem readTarget_forgets (h : env.Renders id env') (t : Target) :
    Forgets (readTarget env t) (readTarget env' t.unqualified) := by
  cases t with
  | var name =>
    rw [Target.unqualified, readTarget, readTarget]
    exact .pure
  | field object field =>
    cases object with
    | none =>
      rw [Target.unqualified, unqualifiedOption, readTarget, readTarget]
      exact .pure
    | some object =>
      rw [Target.unqualified, unqualifiedOption, readTarget, readTarget]
      exact .bind (.valueOf (lowerExpr_forgets h object false)) fun _ => .pure

theorem writeTarget_forgets (h : env.Renders id env') (t : Target) (v : Ir.Expr) :
    Forgets (writeTarget env t v) (writeTarget env' t.unqualified v) := by
  cases t with
  | var name =>
    rw [Target.unqualified, writeTarget, writeTarget]
    exact .emit
  | field object field =>
    cases object with
    | none =>
      rw [Target.unqualified, unqualifiedOption, writeTarget, writeTarget]
      exact .emit
    | some object =>
      rw [Target.unqualified, unqualifiedOption, writeTarget, writeTarget]
      exact .bind (.valueOf (lowerExpr_forgets h object false)) fun _ => .emit

theorem lowerOption_forgets (h : env.Renders id env') (e : Option Expr) :
    Forgets (lowerOption env e) (lowerOption env' (unqualifiedOption e)) := by
  cases e with
  | none =>
    rw [unqualifiedOption, lowerOption, lowerOption]
    exact .pure
  | some e =>
    rw [unqualifiedOption, lowerOption, lowerOption]
    exact .bind (.valueOf (lowerExpr_forgets h e false)) fun _ => .pure

theorem lowerArgs_forgets (h : env.Renders id env') (es : List Expr) :
    Forgets (lowerArgs env es) (lowerArgs env' (unqualifiedAll es)) := by
  cases es with
  | nil =>
    rw [unqualifiedAll, lowerArgs, lowerArgs]
    exact .pure
  | cons e es =>
    rw [unqualifiedAll, lowerArgs, lowerArgs]
    exact .bind (.valueOf (lowerExpr_forgets h e false)) fun _ =>
      .bind (lowerArgs_forgets h es) fun _ => .pure

end

theorem value_forgets (h : env.Renders id env') (e : Expr) :
    Forgets (value env e) (value env' e.unqualified) :=
  .valueOf (lowerExpr_forgets h e false)

theorem condition_forgets (h : env.Renders id env') (e : Expr) :
    Forgets (condition env e) (condition env' e.unqualified) :=
  .conditionOf (lowerExpr_forgets h e false)

/-! ## Statements -/

theorem lowerReturn_forgets (h : env.Renders id env') (span : Span) (e : Option Expr) :
    Forgets (lowerReturn env span e) (lowerReturn env' span (unqualifiedOption e)) := by
  cases e with
  | none => exact .emit
  | some e =>
    refine .bind (value_forgets h e) fun v => .context fun cx => ?_
    have hslot : cx.unqualified.returnVar = cx.returnVar := rfl
    rw [hslot, Expr.ty_unqualified, irTy_bare, Expr.span_unqualified]
    cases cx.returnVar with
    | none => exact .bind .throw fun _ => .emit
    | some slot =>
      simp only [record_eq h]
      exact .bind (.lift _) fun _ => .bind .record fun _ => .bind .emit fun _ => .emit

theorem lowerLocalDecl_forgets (h : env.Renders id env') (decl : Variable) (init : Option Expr) :
    Forgets (lowerLocalDecl env decl init)
      (lowerLocalDecl env' decl.unqualified (unqualifiedOption init)) := by
  have hdefault : Forgets (value env (.ofKind (.defaultValue decl.ty) decl.ty))
      (value env' (.ofKind (.defaultValue decl.unqualified.ty) decl.unqualified.ty)) :=
    value_forgets h (.ofKind (.defaultValue decl.ty) decl.ty)
  have hstruct : env'.types.isStruct decl.unqualified.ty = env.types.isStruct decl.ty := by
    rw [h.isStruct, Variable.unqualified]
    cases decl.ty <;> rfl
  have hirTy : ∀ span, irTy decl.unqualified.ty span = irTy decl.ty span := irTy_bare decl.ty
  have htypeRef : decl.unqualified.ty.typeRef? = decl.ty.typeRef?.map TypeRef.unqualified :=
    decl.ty.typeRef?_bare
  have hspan : (init.map Expr.unqualified).map (·.span) = init.map (·.span) := by
    simp [Function.comp_def]
  unfold lowerLocalDecl
  rw [Source.unqualifiedOption_eq_map, hspan]
  dsimp only
  rw [hirTy, hstruct]
  refine .bind (.lift _) fun ty => .bind .declareLocal fun _ => .ite ?_ ?_
  · cases init with
    | none => exact .bind hdefault fun _ => .emit
    | some e =>
      simp only [Option.map_some, Option.filter_some, isDefaultValue_unqualified, htypeRef]
      -- a struct is copied from its initial value, unless that is the default value anyway
      by_cases he : isDefaultValue e
      · simp only [he, Bool.not_true, Bool.false_eq_true, if_false]
        exact .bind hdefault fun _ => .emit
      · simp only [he, Bool.not_false, if_true]
        cases decl.ty.typeRef? with
        | none => exact .bind hdefault fun _ => .emit
        | some type =>
          exact .bind .structCopy fun _ => .bind (value_forgets h e) fun _ => .emit
  · cases init with
    | none => exact .pure
    | some e =>
      simp only [Option.map_some, record_eq h]
      exact .bind (value_forgets h e) fun _ => .bind .record fun _ => .emit

theorem lowerThrow_forgets (h : env.Renders id env') (e : Expr) :
    Forgets (lowerThrow env e) (lowerThrow env' e.unqualified) := by
  unfold lowerThrow
  simp only [h.options, record_eq h, propagate_eq h]
  refine .ite ?_ .emit
  exact .bind (value_forgets h e) fun _ => .bind .record fun _ => .bind .emit fun _ => .propagate

theorem lowerRethrow_forgets (h : env.Renders id env') (span : Span) :
    Forgets (lowerRethrow env span) (lowerRethrow env' span) := by
  rw [lowerRethrow_eq h]
  refine .ite (.context fun cx => ?_) .emit
  have hcatch : cx.unqualified.innermostCatch? = cx.innermostCatch? := rfl
  rw [hcatch]
  cases cx.innermostCatch? with
  | none => exact .throw
  | some region =>
    exact .bind .exceptionLocal fun _ => .bind .record fun _ => .bind .emit fun _ => .propagate

theorem bindCaught_forgets (h : env.Renders id env') (caught : String) (span : Span)
    (binding : Option Variable) :
    Forgets (bindCaught env caught span binding)
      (bindCaught env' caught span (binding.map Variable.unqualified)) := by
  rw [bindCaught_eq h]
  cases binding with
  | none => exact .pure
  | some v =>
    refine .bind ?_ fun _ => .bind .declareLocal fun _ => .bind .record fun _ => .emit
    show Forgets _ (liftM (irTy v.ty.bare span))
    rw [irTy_bare]
    exact .lift _

theorem emitMarks_forgets (h : env.Renders id env') (span : Span) (kind : Source.StmtKind) :
    Forgets (emitMarks env span kind) (emitMarks env' span kind.unqualified) := by
  have hcarries : carriesMarks kind.unqualified = carriesMarks kind := by cases kind <;> rfl
  have hmark : sourceMark env' span = sourceMark env span := by
    unfold sourceMark
    rw [h.fileName]
  have heq : emitMarks env' span kind.unqualified = emitMarks env span kind := by
    unfold emitMarks
    rw [hcarries, hmark, h.options]
  rw [heq]
  exact .emitMarks

mutual

/-- The modules of a statement do not matter to its lowering. -/
theorem lowerStmt_forgets (h : env.Renders id env') (s : Stmt) :
    Forgets (lowerStmt env s) (lowerStmt env' s.unqualified) := by
  obtain ⟨id, span, kind⟩ := s
  have hmarked : ∀ {x y : Lower Unit}, Forgets x y →
      Forgets (do emitMarks env span kind; x) (do emitMarks env' span kind.unqualified; y) :=
    fun hxy => .bind (emitMarks_forgets h span kind) fun _ => hxy
  rw [Stmt.unqualified]
  cases kind with
  | block stmts =>
    rw [Source.StmtKind.unqualified] at hmarked ⊢
    rw [lowerStmt, lowerStmt]
    exact hmarked (lowerStmts_forgets h stmts)
  | empty =>
    rw [Source.StmtKind.unqualified] at hmarked ⊢
    rw [lowerStmt, lowerStmt]
    exact hmarked .pure
  | assert cond =>
    rw [Source.StmtKind.unqualified] at hmarked ⊢
    rw [lowerStmt, lowerStmt]
    refine hmarked (.bind (condition_forgets h cond) fun _ => ?_)
    rw [emitAssertion_eq h]
    exact .emitAssertion
  | assume cond =>
    rw [Source.StmtKind.unqualified] at hmarked ⊢
    rw [lowerStmt, lowerStmt]
    exact hmarked (.bind (condition_forgets h cond) fun _ => .emit)
  | conditional cond thenBranch elseBranch =>
    rw [Source.StmtKind.unqualified] at hmarked ⊢
    rw [lowerStmt, lowerStmt, breadcrumb_eq h]
    refine hmarked (.bind (condition_forgets h cond) fun _ => ?_)
    have hbranch : ∀ s s' : Lower Unit, Forgets s s' → Forgets
        (commandsOf (do breadcrumb env; s)) (commandsOf (do breadcrumb env; s')) :=
      fun _ _ hs => .commandsOf (.bind .breadcrumb fun _ => hs)
    refine .bind (hbranch _ _ (lowerStmt_forgets h thenBranch)) fun _ => ?_
    exact .bind (hbranch _ _ (lowerStmt_forgets h elseBranch)) fun _ => .emit
  | expression e =>
    rw [Source.StmtKind.unqualified] at hmarked ⊢
    rw [lowerStmt, lowerStmt, isCompound_unqualified]
    exact hmarked (.bind (lowerExpr_forgets h e _) fun _ => .pure)
  | breakLoop | continueLoop | whileLoop | doUntil | forLoop | forEach =>
    -- a loop is not lowered; the fault names its kind
    simp only [Source.StmtKind.unqualified, lowerStmt] at hmarked ⊢
    exact hmarked .throw
  | switch scrutinee cases =>
    rw [Source.StmtKind.unqualified] at hmarked ⊢
    rw [lowerStmt, lowerStmt]
    refine hmarked (.bind (value_forgets h scrutinee) fun _ => ?_)
    refine .bind (lowerDefault_forgets h cases) fun _ => .bind (lowerCases_forgets h _ _ cases) ?_
    intro chain
    cases chain with
    | some chain => exact .emit
    | none => exact .emitAll
  | localDecl decl init =>
    rw [Source.StmtKind.unqualified] at hmarked ⊢
    rw [lowerStmt, lowerStmt]
    exact hmarked (lowerLocalDecl_forgets h decl init)
  | ret value =>
    rw [Source.StmtKind.unqualified] at hmarked ⊢
    rw [lowerStmt, lowerStmt]
    exact hmarked (lowerReturn_forgets h span value)
  | goto label =>
    rw [Source.StmtKind.unqualified] at hmarked ⊢
    rw [lowerStmt, lowerStmt, lowerGoto_eq h]
    exact hmarked .lowerGoto
  | labeled label body =>
    rw [Source.StmtKind.unqualified] at hmarked ⊢
    rw [lowerStmt, lowerStmt]
    exact hmarked (.bind .emit fun _ => lowerStmt_forgets h body)
  | tryCatch body catches finalizer =>
    rw [Source.StmtKind.unqualified] at hmarked ⊢
    rw [lowerStmt, lowerStmt, h.options]
    refine hmarked (.ite ?_ ?_)
    · -- the region remembers the types that are caught; it forgets their modules with the state
      rw [Source.exceptionTypes_unqualifiedCatches]
      refine .bind .enterRegion fun region => .bind .pushPhase fun _ => ?_
      refine .bind (lowerStmt_forgets h body) fun _ => .bind .leaveNormally fun _ => ?_
      refine .bind .popPhase fun _ => .bind .takeException fun caught => ?_
      refine .bind .pushPhase fun _ => ?_
      refine .bind (lowerCatches_forgets h region caught catches) fun _ => ?_
      rw [finishCatches_eq h, finishRegion_eq h]
      refine .bind .finishCatches fun _ => .bind .popPhase fun _ => ?_
      refine .bind .finallyLabel fun _ => .bind .emit fun _ => ?_
      exact .bind (lowerFinally_forgets h region finalizer) fun _ => .finishRegion
    · exact .bind (lowerStmt_forgets h body) fun _ => lowerOptional_forgets h finalizer
  | throw e =>
    rw [Source.StmtKind.unqualified] at hmarked ⊢
    rw [lowerStmt, lowerStmt]
    exact hmarked (lowerThrow_forgets h e)
  | rethrow =>
    rw [Source.StmtKind.unqualified] at hmarked ⊢
    rw [lowerStmt, lowerStmt]
    exact hmarked (lowerRethrow_forgets h span)
  | push e =>
    rw [Source.StmtKind.unqualified] at hmarked ⊢
    rw [lowerStmt, lowerStmt]
    exact hmarked (.bind (value_forgets h e) fun _ => .pushOperand)

theorem lowerStmts_forgets (h : env.Renders id env') (ss : List Stmt) :
    Forgets (lowerStmts env ss) (lowerStmts env' (unqualifiedStmts ss)) := by
  cases ss with
  | nil =>
    rw [unqualifiedStmts, lowerStmts, lowerStmts]
    exact .pure
  | cons s ss =>
    rw [unqualifiedStmts, lowerStmts, lowerStmts]
    exact .bind (lowerStmt_forgets h s) fun _ => lowerStmts_forgets h ss

theorem lowerOptional_forgets (h : env.Renders id env') (s : Option Stmt) :
    Forgets (lowerOptional env s) (lowerOptional env' (unqualifiedStmtOption s)) := by
  cases s with
  | none =>
    rw [unqualifiedStmtOption, lowerOptional, lowerOptional]
    exact .pure
  | some s =>
    rw [unqualifiedStmtOption, lowerOptional, lowerOptional]
    exact lowerStmt_forgets h s

theorem lowerFinally_forgets (h : env.Renders id env') (region : Nat) (s : Option Stmt) :
    Forgets (lowerFinally env region s) (lowerFinally env' region (unqualifiedStmtOption s)) := by
  cases s with
  | none =>
    rw [unqualifiedStmtOption, lowerFinally, lowerFinally]
    exact .pure
  | some s =>
    rw [unqualifiedStmtOption, lowerFinally, lowerFinally]
    exact .bind .pushPhase fun _ => .bind .saveForFinally fun _ =>
      .bind (lowerStmt_forgets h s) fun _ => .bind .restoreAfterFinally fun _ => .popPhase

theorem lowerCatches_forgets (h : env.Renders id env') (region : Nat) (caught : String)
    (clauses : List CatchClause) :
    Forgets (lowerCatches env region caught clauses)
      (lowerCatches env' region caught (unqualifiedCatches clauses)) := by
  cases clauses with
  | nil =>
    rw [unqualifiedCatches, lowerCatches, lowerCatches]
    exact .pure
  | cons clause clauses =>
    obtain ⟨span, type, binding, body⟩ := clause
    rw [unqualifiedCatches, lowerCatches, lowerCatches, catchTest_unqualified]
    refine .bind (.commandsOf ?_) fun _ =>
      .bind (lowerCatches_forgets h region caught clauses) fun _ => .pure
    exact .bind (bindCaught_forgets h caught span binding) fun _ =>
      .bind (lowerStmt_forgets h body) fun _ => .leaveNormally

theorem lowerDefault_forgets (h : env.Renders id env') (cases : List SwitchCase) :
    Forgets (lowerDefault env cases) (lowerDefault env' (unqualifiedCases cases)) := by
  cases cases with
  | nil =>
    rw [unqualifiedCases, lowerDefault, lowerDefault]
    exact .pure
  | cons case cases =>
    obtain ⟨span, value, body⟩ := case
    rw [unqualifiedCases, lowerDefault, lowerDefault, Source.any_default_unqualifiedCases,
      Source.unqualifiedOption_eq_map, Option.isSome_map]
    exact .ite (lowerDefault_forgets h cases) (.commandsOf (lowerStmts_forgets h body))

theorem lowerCases_forgets (h : env.Renders id env') (scrutinee : Ir.Expr)
    (defaultCmds : List Cmd) (cases : List SwitchCase) :
    Forgets (lowerCases env scrutinee defaultCmds cases)
      (lowerCases env' scrutinee defaultCmds (unqualifiedCases cases)) := by
  cases cases with
  | nil =>
    rw [unqualifiedCases, lowerCases, lowerCases]
    exact .pure
  | cons case cases =>
    obtain ⟨span, value, body⟩ := case
    rw [unqualifiedCases, lowerCases, lowerCases]
    refine .bind (lowerCases_forgets h scrutinee defaultCmds cases) fun chain => ?_
    cases value with
    | none => exact .pure
    | some e =>
      exact .bind (value_forgets h e) fun _ =>
        .bind (.commandsOf (lowerStmts_forgets h body)) fun _ => .pure

end

/-! ## Methods -/

theorem paramsOf_unqualified (m : MethodDef) : paramsOf m.unqualified = paramsOf m := by
  unfold paramsOf
  rw [MethodDef.unqualified, List.mapM_map]
  simp only [Function.comp_def, Variable.unqualified, irTy_bare]

theorem returnsOf_unqualified (m : MethodDef) : returnsOf m.unqualified = returnsOf m := by
  unfold returnsOf
  rw [MethodDef.unqualified, Ty.isVoid_bare, irTy_bare]

/-- A body that starts without regions. -/
theorem inContext_forgets {cx : Context} (hcx : cx.regions = []) {act act' : Lower Unit}
    (hact : Forgets act act') :
    Erases Shared.unqualified Context.unqualified (inContext cx act) (inContext cx act') := by
  have hstart : cx.unqualified = cx := by rw [Context.unqualified, hcx, List.map_nil, ← hcx]
  intro t
  have hs := hact ⟨cx, t⟩
  rw [State.unqualified, hstart] at hs
  rcases hrun : act.run ⟨cx, t⟩ with ⟨r, s⟩
  rw [hrun] at hs
  rw [run_inContext hrun, run_inContext hs]
  cases r <;> rfl

/-- The modules of a method do not matter to its lowering. -/
theorem lowerMethod_forgets (h : env.Renders id env') {owner owner' : TypeDef}
    (ho : owner'.name = owner.name) (m : MethodDef) :
    Erases Shared.unqualified id (lowerMethod env owner m)
      (lowerMethod env' owner' m.unqualified) := by
  have hname : (m.unqualified.reference owner'.name).procedureName =
      (m.reference owner.name).procedureName := by
    rw [ho, ← MethodRef.procedureName_unqualified (m.reference owner.name),
      ← MethodDef.reference_unqualified]
    rfl
  unfold lowerMethod
  rw [hname, paramsOf_unqualified, returnsOf_unqualified]
  refine .bind (.liftSame _) fun params => ?_
  refine .bind (.liftSame _) fun returns => ?_
  cases hb : m.body with
  | none =>
    simp only [MethodDef.unqualified, hb, Option.map_none]
    exact .pure rfl
  | some body =>
    simp only [MethodDef.unqualified, hb, Option.map_some, LabelScopes.collect_unqualified]
    refine .bind (.update fun _ => rfl) fun _ => ?_
    refine .bind (.liftSame _) fun scopes => ?_
    -- a body starts without regions, hence in the context that it has without modules
    have hstart : (startContext scopes params returns).regions = [] := by
      obtain ⟨names, slot, -, heq⟩ := startContext_eq scopes params returns
      rw [heq]
    have hbody : Forgets (do breadcrumb env; lowerStmt env body)
        (do breadcrumb env'; lowerStmt env' body.unqualified) := by
      rw [breadcrumb_eq h]
      exact .bind .breadcrumb fun _ => lowerStmt_forgets h body
    refine .bind (inContext_forgets hstart hbody) fun cx => ?_
    exact .bind (.liftSame cx.finish) fun _ => .pure rfl

end

end Unwind.Lowering
