import Unwind.Proofs.Literals.Mapping
import Unwind.Proofs.Lowering.Steps

/-!
# Literals on their way through a lowering

A lowering asks its environment what an integer literal becomes. Lowering a body so that `n` becomes
`g n` does the same, step by step, as putting `g n` in the place of `n` and lowering that
(`lowerExpr_mapLiterals`, `lowerStmt_mapLiterals`, `lowerMethod_mapLiterals`). The constants that
the lowering itself introduces are not asked about and stay.
-/

namespace Unwind.Lowering

open Source (CatchClause Expr Lit MethodDef MethodRef Stmt SwitchCase Target Ty TypeDef TypeRef
  Variable mapInOption mapInAll mapInStmts mapInCases mapInCatches mapInStmtOption)
open Ir (Cmd)

/-- The environment `env'` makes of `g n` what `env` makes of `n`; in everything else that a
lowering looks at they are alike. -/
structure Env.Renders (g : Int64 → Int64) (env env' : Env) : Prop where
  options : env'.options = env.options
  literal : ∀ n, env'.literal (g n) = env.literal n
  isStruct : ∀ ty, env'.types.isStruct ty = env.types.isStruct ty
  fileName : ∀ file, env'.program.fileName? file = env.program.fileName? file

section

variable {g : Int64 → Int64} {env env' : Env} (h : env.Renders g env')
include h

/-! ## Steps without expressions -/

theorem literal_map (lit : Lit) : literal env' (lit.map g) = literal env lit := by
  cases lit with
  | int n => exact congrArg Ir.Expr.int (h.literal n)
  | _ => rfl

theorem breadcrumb_eq : breadcrumb env' = breadcrumb env := by
  unfold breadcrumb
  rw [h.options]

theorem record_eq (label : String) (ty : Ir.Ty) (v : Ir.Expr) :
    record env' label ty v = record env label ty v := by
  unfold record
  rw [h.options]

theorem propagate_eq : propagate env' = propagate env := by
  unfold propagate
  rw [record_eq h]

theorem propagateIfAny_eq : propagateIfAny env' = propagateIfAny env := by
  unfold propagateIfAny
  rw [propagate_eq h]

theorem emitCall_eq (method : MethodRef) (args : List Ir.Expr) (outs : List String) :
    emitCall env' method args outs = emitCall env method args outs := by
  unfold emitCall
  rw [h.options, propagateIfAny_eq h]

theorem finishCall_eq (method : MethodRef) (args : List Ir.Expr) (result : Ty) :
    finishCall env' method args result = finishCall env method args result := by
  simp only [finishCall, emitCall_eq h]

theorem finishNew_eq (type : TypeRef) (ctor : Option MethodRef) (args : List Ir.Expr) :
    finishNew env' type ctor args = finishNew env type ctor args := by
  unfold finishNew
  cases ctor with
  | none => rfl
  | some method => simp only [emitCall_eq h]

theorem defaultValue_eq (ty : Ty) (span : Span) :
    defaultValue env' ty span = defaultValue env ty span := by
  unfold defaultValue
  simp only [h.isStruct]

omit h in
theorem valueOf_mapLiterals (e : Expr) (act : Lower (Option Ir.Expr)) :
    valueOf (e.mapLiterals g) act = valueOf e act := by
  unfold valueOf
  rw [Expr.ty_mapLiterals, Expr.span_mapLiterals]

omit h in
theorem conditionOf_mapLiterals (e : Expr) (act : Lower (Option Ir.Expr)) :
    conditionOf (e.mapLiterals g) act = conditionOf e act := by
  unfold conditionOf truthOf
  rw [valueOf_mapLiterals, Expr.ty_mapLiterals, Expr.span_mapLiterals]

omit h in
theorem finishBinary_mapLiterals (op : Source.BinOp) (lhs : Expr) (left right : Ir.Expr)
    (cs : List Cmd) :
    finishBinary op (lhs.mapLiterals g) left right cs = finishBinary op lhs left right cs := by
  unfold finishBinary
  rw [Expr.ty_mapLiterals, Expr.span_mapLiterals]

end

/-! ## Expressions -/

section

variable {g : Int64 → Int64} {env env' : Env}

mutual

/-- The literals may be replaced before an expression is lowered. -/
theorem lowerExpr_mapLiterals (h : env.Renders g env') (e : Expr) (compound : Bool) :
    lowerExpr env' (e.mapLiterals g) compound = lowerExpr env e compound := by
  obtain ⟨id, span, ty, kind⟩ := e
  rw [Expr.mapLiterals]
  cases kind with
  | literal lit => rw [Source.ExprKind.mapLiterals, lowerExpr, lowerExpr, literal_map h]
  | var | self | typeOf => rfl
  | field object field =>
    cases object with
    | none => rfl
    | some object =>
      rw [Source.ExprKind.mapLiterals, mapInOption, lowerExpr, lowerExpr,
        valueOf_mapLiterals, lowerExpr_mapLiterals h object]
  | unary op operand =>
    rw [Source.ExprKind.mapLiterals, lowerExpr, lowerExpr, valueOf_mapLiterals,
      lowerExpr_mapLiterals h operand]
  | getType object =>
    rw [Source.ExprKind.mapLiterals, lowerExpr, lowerExpr, valueOf_mapLiterals,
      lowerExpr_mapLiterals h object]
  | conversion value newTy =>
    rw [Source.ExprKind.mapLiterals, lowerExpr, lowerExpr, valueOf_mapLiterals,
      lowerExpr_mapLiterals h value, Expr.ty_mapLiterals]
  | binary op lhs rhs =>
    rw [Source.ExprKind.mapLiterals]
    by_cases ht : lhs.isTarget
    · -- a compound assignment reads and writes the target, on both sides
      obtain ⟨i, sp, t, lhsKind⟩ := lhs
      cases lhsKind with
      | target target =>
        rw [Expr.mapLiterals, Source.ExprKind.mapLiterals, lowerExpr, lowerExpr]
        simp only [readTarget_mapLiterals h target, writeTarget_mapLiterals h target,
          valueOf_mapLiterals, lowerExpr_mapLiterals h rhs]
      | _ => cases ht
    · rw [Bool.not_eq_true] at ht
      rw [lowerExpr_binary env ht, lowerExpr_binary env' (by rw [Expr.isTarget_mapLiterals, ht])]
      simp only [valueOf_mapLiterals, finishBinary_mapLiterals, lowerExpr_mapLiterals h lhs,
        lowerExpr_mapLiterals h rhs]
  | conditional cond thenExpr elseExpr =>
    rw [Source.ExprKind.mapLiterals, lowerExpr, lowerExpr]
    simp only [conditionOf_mapLiterals, valueOf_mapLiterals, lowerExpr_mapLiterals h cond,
      lowerExpr_mapLiterals h thenExpr, lowerExpr_mapLiterals h elseExpr]
  | assign target value =>
    rw [Source.ExprKind.mapLiterals, lowerExpr, lowerExpr]
    simp only [valueOf_mapLiterals, lowerExpr_mapLiterals h value, readTarget_mapLiterals h target,
      writeTarget_mapLiterals h target]
  | target target =>
    rw [Source.ExprKind.mapLiterals, lowerExpr, lowerExpr, readTarget_mapLiterals h target]
  | call call =>
    obtain ⟨method, receiver, args, isVirtual⟩ := call
    rw [Source.ExprKind.mapLiterals, Source.Call.mapLiterals, lowerExpr, lowerExpr]
    simp only [lowerOption_mapLiterals h receiver, lowerArgs_mapLiterals h args, finishCall_eq h]
  | new type ctor args =>
    rw [Source.ExprKind.mapLiterals, lowerExpr, lowerExpr]
    simp only [lowerArgs_mapLiterals h args, finishNew_eq h]
  | defaultValue valueTy =>
    rw [Source.ExprKind.mapLiterals, lowerExpr, lowerExpr, defaultValue_eq h]
    all_goals nofun
  | pop => rfl

theorem readTarget_mapLiterals (h : env.Renders g env') (t : Target) :
    readTarget env' (t.mapLiterals g) = readTarget env t := by
  cases t with
  | var name => rfl
  | field object field =>
    cases object with
    | none => rfl
    | some object =>
      rw [Source.Target.mapLiterals, mapInOption, readTarget, readTarget, valueOf_mapLiterals,
        lowerExpr_mapLiterals h object]

theorem writeTarget_mapLiterals (h : env.Renders g env') (t : Target) (v : Ir.Expr) :
    writeTarget env' (t.mapLiterals g) v = writeTarget env t v := by
  cases t with
  | var name => rfl
  | field object field =>
    cases object with
    | none => rfl
    | some object =>
      rw [Source.Target.mapLiterals, mapInOption, writeTarget, writeTarget, valueOf_mapLiterals,
        lowerExpr_mapLiterals h object]

theorem lowerOption_mapLiterals (h : env.Renders g env') (e : Option Expr) :
    lowerOption env' (mapInOption g e) = lowerOption env e := by
  cases e with
  | none => rfl
  | some e =>
    rw [mapInOption, lowerOption, lowerOption, valueOf_mapLiterals, lowerExpr_mapLiterals h e]

theorem lowerArgs_mapLiterals (h : env.Renders g env') (es : List Expr) :
    lowerArgs env' (mapInAll g es) = lowerArgs env es := by
  cases es with
  | nil => rfl
  | cons e es =>
    rw [mapInAll, lowerArgs, lowerArgs, valueOf_mapLiterals, lowerExpr_mapLiterals h e,
      lowerArgs_mapLiterals h es]

end

theorem value_mapLiterals (h : env.Renders g env') (e : Expr) :
    value env' (e.mapLiterals g) = value env e := by
  rw [value, value, valueOf_mapLiterals, lowerExpr_mapLiterals h]

theorem condition_mapLiterals (h : env.Renders g env') (e : Expr) :
    condition env' (e.mapLiterals g) = condition env e := by
  rw [condition, condition, conditionOf_mapLiterals, lowerExpr_mapLiterals h]

/-! ## Statements -/

theorem emitMarks_mapLiterals (h : env.Renders g env') (span : Span) (kind : Source.StmtKind) :
    emitMarks env' span (kind.mapLiterals g) = emitMarks env span kind := by
  have hcarries : carriesMarks (kind.mapLiterals g) = carriesMarks kind := by cases kind <;> rfl
  have hmark : sourceMark env' span = sourceMark env span := by
    unfold sourceMark
    rw [h.fileName]
  unfold emitMarks
  rw [hcarries, hmark, h.options]

theorem emitAssertion_eq (h : env.Renders g env') (cond : Ir.Expr) :
    emitAssertion env' cond = emitAssertion env cond := by
  unfold emitAssertion
  rw [h.options]

theorem isCompound_mapLiterals (e : Expr) : isCompound (e.mapLiterals g) = isCompound e := by
  obtain ⟨id, span, ty, kind⟩ := e
  cases kind with
  | binary op lhs rhs => exact Expr.isTarget_mapLiterals lhs
  | _ => rfl

theorem isDefaultValue_mapLiterals (e : Expr) :
    isDefaultValue (e.mapLiterals g) = isDefaultValue e := by
  obtain ⟨id, span, ty, kind⟩ := e
  cases kind <;> rfl

theorem lowerReturn_mapLiterals (h : env.Renders g env') (span : Span) (result : Option Expr) :
    lowerReturn env' span (mapInOption g result) = lowerReturn env span result := by
  cases result with
  | none => rfl
  | some e =>
    simp only [mapInOption, lowerReturn, value_mapLiterals h, record_eq h, Expr.ty_mapLiterals,
      Expr.span_mapLiterals]

theorem lowerLocalDecl_mapLiterals (h : env.Renders g env') (decl : Variable)
    (init : Option Expr) :
    lowerLocalDecl env' decl (mapInOption g init) = lowerLocalDecl env decl init := by
  -- the default value of the declared type holds no literal
  have hdefault : value env' (.ofKind (.defaultValue decl.ty) decl.ty) =
      value env (.ofKind (.defaultValue decl.ty) decl.ty) :=
    value_mapLiterals h (.ofKind (.defaultValue decl.ty) decl.ty)
  unfold lowerLocalDecl
  rw [h.isStruct, hdefault]
  cases init with
  | none => rfl
  | some e =>
    simp only [mapInOption, Option.map_some, Expr.span_mapLiterals, value_mapLiterals h,
      record_eq h, Option.filter_some, isDefaultValue_mapLiterals]
    by_cases he : isDefaultValue e
    · simp only [he, Bool.not_true, Bool.false_eq_true, if_false]
    · simp only [he, Bool.not_false, if_true]
      cases decl.ty.typeRef? with
      | none => rfl
      | some type => simp only [value_mapLiterals h]

theorem lowerThrow_mapLiterals (h : env.Renders g env') (e : Expr) :
    lowerThrow env' (e.mapLiterals g) = lowerThrow env e := by
  simp only [lowerThrow, h.options, value_mapLiterals h, record_eq h, propagate_eq h]

theorem lowerRethrow_eq (h : env.Renders g env') (span : Span) :
    lowerRethrow env' span = lowerRethrow env span := by
  simp only [lowerRethrow, h.options, record_eq h, propagate_eq h]

theorem lowerGoto_eq (h : env.Renders g env') (target : String) (span : Span) :
    lowerGoto env' target span = lowerGoto env target span := by
  simp only [lowerGoto, sharedDepth, h.options]

theorem bindCaught_eq (h : env.Renders g env') (caught : String) (span : Span)
    (binding : Option Variable) :
    bindCaught env' caught span binding = bindCaught env caught span binding := by
  simp only [bindCaught, record_eq h]

theorem finishCatches_eq (h : env.Renders g env') (caught : String)
    (arms : List (Ir.Expr × List Cmd)) :
    finishCatches env' caught arms = finishCatches env caught arms := by
  simp only [finishCatches, propagate_eq h]

theorem finishRegion_eq (h : env.Renders g env') (region : Nat) :
    finishRegion env' region = finishRegion env region := by
  simp only [finishRegion, propagateIfAny_eq h]

mutual

/-- The literals may be replaced before a statement is lowered. -/
theorem lowerStmt_mapLiterals (h : env.Renders g env') (s : Stmt) :
    lowerStmt env' (s.mapLiterals g) = lowerStmt env s := by
  obtain ⟨id, span, kind⟩ := s
  have hmarks := emitMarks_mapLiterals h span kind
  rw [Stmt.mapLiterals]
  cases kind with
  | block stmts =>
    rw [Source.StmtKind.mapLiterals] at hmarks ⊢
    rw [lowerStmt, lowerStmt, hmarks]
    simp only [lowerStmts_mapLiterals h stmts]
  | assert cond | assume cond =>
    rw [Source.StmtKind.mapLiterals] at hmarks ⊢
    rw [lowerStmt, lowerStmt, hmarks]
    simp only [condition_mapLiterals h, emitAssertion_eq h]
  | conditional cond thenBranch elseBranch =>
    rw [Source.StmtKind.mapLiterals] at hmarks ⊢
    rw [lowerStmt, lowerStmt, hmarks]
    simp only [condition_mapLiterals h, breadcrumb_eq h,
      lowerStmt_mapLiterals h thenBranch, lowerStmt_mapLiterals h elseBranch]
  | expression e =>
    rw [Source.StmtKind.mapLiterals] at hmarks ⊢
    rw [lowerStmt, lowerStmt, hmarks]
    simp only [lowerExpr_mapLiterals h, isCompound_mapLiterals]
  | switch scrutinee cases =>
    rw [Source.StmtKind.mapLiterals] at hmarks ⊢
    rw [lowerStmt, lowerStmt, hmarks]
    simp only [value_mapLiterals h, lowerDefault_mapLiterals h cases,
      lowerCases_mapLiterals h _ _ cases]
  | localDecl decl init =>
    rw [Source.StmtKind.mapLiterals] at hmarks ⊢
    rw [lowerStmt, lowerStmt, hmarks]
    simp only [lowerLocalDecl_mapLiterals h]
  | ret value =>
    rw [Source.StmtKind.mapLiterals] at hmarks ⊢
    rw [lowerStmt, lowerStmt, hmarks]
    simp only [lowerReturn_mapLiterals h]
  | goto target =>
    simp only [Source.StmtKind.mapLiterals, lowerStmt, lowerGoto_eq h] at hmarks ⊢
    rw [hmarks]
  | labeled label body =>
    rw [Source.StmtKind.mapLiterals] at hmarks ⊢
    rw [lowerStmt, lowerStmt, hmarks]
    simp only [lowerStmt_mapLiterals h body]
  | tryCatch body catches finalizer =>
    rw [Source.StmtKind.mapLiterals] at hmarks ⊢
    rw [lowerStmt, lowerStmt, hmarks]
    simp only [h.options, Source.exceptionTypes_mapInCatches,
      lowerStmt_mapLiterals h body, lowerCatches_mapLiterals h _ _ catches, finishCatches_eq h,
      lowerFinally_mapLiterals h _ finalizer, lowerOptional_mapLiterals h finalizer,
      finishRegion_eq h]
  | throw e =>
    rw [Source.StmtKind.mapLiterals] at hmarks ⊢
    rw [lowerStmt, lowerStmt, hmarks]
    simp only [lowerThrow_mapLiterals h]
  | rethrow =>
    simp only [Source.StmtKind.mapLiterals, lowerStmt, lowerRethrow_eq h] at hmarks ⊢
    rw [hmarks]
  | push e =>
    rw [Source.StmtKind.mapLiterals] at hmarks ⊢
    rw [lowerStmt, lowerStmt, hmarks]
    simp only [value_mapLiterals h]
  | empty | breakLoop | continueLoop =>
    simp only [Source.StmtKind.mapLiterals, lowerStmt] at hmarks ⊢
    rw [hmarks]
  | whileLoop | doUntil | forLoop | forEach =>
    -- a loop is not lowered; the fault names its kind
    simp only [Source.StmtKind.mapLiterals, lowerStmt] at hmarks ⊢
    rw [hmarks]
    rfl

theorem lowerStmts_mapLiterals (h : env.Renders g env') (ss : List Stmt) :
    lowerStmts env' (mapInStmts g ss) = lowerStmts env ss := by
  cases ss with
  | nil => rfl
  | cons s ss =>
    simp only [mapInStmts, lowerStmts, lowerStmt_mapLiterals h s, lowerStmts_mapLiterals h ss]

theorem lowerOptional_mapLiterals (h : env.Renders g env') (s : Option Stmt) :
    lowerOptional env' (mapInStmtOption g s) = lowerOptional env s := by
  cases s with
  | none => rfl
  | some s => simp only [mapInStmtOption, lowerOptional, lowerStmt_mapLiterals h s]

theorem lowerFinally_mapLiterals (h : env.Renders g env') (region : Nat) (s : Option Stmt) :
    lowerFinally env' region (mapInStmtOption g s) = lowerFinally env region s := by
  cases s with
  | none => rfl
  | some s => simp only [mapInStmtOption, lowerFinally, lowerStmt_mapLiterals h s]

theorem lowerCatches_mapLiterals (h : env.Renders g env') (region : Nat) (caught : String)
    (clauses : List CatchClause) :
    lowerCatches env' region caught (mapInCatches g clauses) =
      lowerCatches env region caught clauses := by
  cases clauses with
  | nil => rfl
  | cons clause clauses =>
    obtain ⟨span, type, binding, body⟩ := clause
    simp only [mapInCatches, lowerCatches, bindCaught_eq h, lowerStmt_mapLiterals h body,
      lowerCatches_mapLiterals h region caught clauses]

theorem lowerDefault_mapLiterals (h : env.Renders g env') (cases : List SwitchCase) :
    lowerDefault env' (mapInCases g cases) = lowerDefault env cases := by
  cases cases with
  | nil => rfl
  | cons case cases =>
    obtain ⟨span, value, body⟩ := case
    have hvalue : (mapInOption g value).isSome = value.isSome := by cases value <;> rfl
    simp only [mapInCases, lowerDefault, hvalue, Source.any_default_mapInCases,
      lowerStmts_mapLiterals h body, lowerDefault_mapLiterals h cases]

theorem lowerCases_mapLiterals (h : env.Renders g env') (scrutinee : Ir.Expr)
    (defaultCmds : List Cmd) (cases : List SwitchCase) :
    lowerCases env' scrutinee defaultCmds (mapInCases g cases) =
      lowerCases env scrutinee defaultCmds cases := by
  cases cases with
  | nil => rfl
  | cons case cases =>
    obtain ⟨span, value, body⟩ := case
    cases value <;>
      simp only [mapInCases, mapInOption, lowerCases, value_mapLiterals h,
        lowerStmts_mapLiterals h body, lowerCases_mapLiterals h scrutinee defaultCmds cases]

end

/-! ## Methods -/

/-- The literals may be replaced before a method is lowered. -/
theorem lowerMethod_mapLiterals (h : env.Renders g env') {owner owner' : TypeDef}
    (ho : owner'.name = owner.name) (m : MethodDef) :
    lowerMethod env' owner' (m.mapLiterals g) = lowerMethod env owner m := by
  have hname : (m.mapLiterals g).reference owner'.name = m.reference owner.name := by
    rw [ho]
    rfl
  unfold lowerMethod
  rw [hname]
  cases hb : m.body with
  | none => simp only [MethodDef.mapLiterals, hb, Option.map_none, paramsOf, returnsOf]
  | some body =>
    simp only [MethodDef.mapLiterals, hb, Option.map_some, LabelScopes.collect_mapLiterals,
      breadcrumb_eq h, lowerStmt_mapLiterals h, paramsOf, returnsOf]

end

end Unwind.Lowering
