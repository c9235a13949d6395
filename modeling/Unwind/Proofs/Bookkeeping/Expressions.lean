import Mathlib
import Unwind.Proofs.Bookkeeping.Steps
import Unwind.Proofs.Variables.Lowering

/-!
# Expressions without exceptions

Without exceptions nothing is tested behind a call, so that expressions are lowered frugally
(`frugally_lowerExpr`): their values and what they emit make no use of variables for bookkeeping.
-/

namespace Unwind.Lowering

open Machine (isGenerated)
open Source (BinOp Expr MethodRef StmtKind Target Ty TypeRef)
open Ir (Cmd)

section

variable {env : Env} {ls : List String}

/-! ## Marks -/

theorem frugally_record {label : String} {ty : Ir.Ty} {v : Ir.Expr} (hv : Needless v.vars) :
    Frugally ls (record env label ty v) fun _ => True := by
  refine .ite (fun _ => frugally_withRegistry.bind fun proc _ => frugally_emit ?_) fun _ =>
    .pure trivial
  refine .idle rfl rfl ?_
  simpa [Cmd.vars, Ir.Attr.vars, Ir.AttrValue.vars, Ir.Expr.allVars] using hv

theorem frugally_breadcrumb : Frugally ls (breadcrumb env) fun _ => True :=
  .ite (fun _ => frugally_withRegistry.bind fun _ _ => frugally_emit (.idle rfl rfl needless_nil))
    fun _ => .pure trivial

theorem frugally_emitMarks {span : Span} {kind : StmtKind} :
    Frugally ls (emitMarks env span kind) fun _ => True := by
  have hcapture : Frugally ls (if env.options.captureState then
      withRegistry (·.nextCaptureState) >>= fun k =>
        emit (.marker ⟨"captureState", [.str ("s" ++ toString k.toNat)]⟩)
      else pure ()) fun _ => True :=
    .ite (fun _ => frugally_withRegistry.bind fun _ _ =>
      frugally_emit (.idle rfl rfl needless_nil)) fun _ => .pure trivial
  have hmark : Frugally ls (emit (sourceMark env span)) fun _ => True :=
    frugally_emit (.idle rfl rfl needless_nil)
  exact .ite (fun _ => .ite (fun _ => hmark.bind fun _ _ => hcapture) fun _ => hcapture) fun _ =>
    .pure trivial

/-! ## Expressions -/

/-- The value, where there is one, is free of bookkeeping. -/
abbrev FrugalValue (r : Option Ir.Expr) : Prop := Needless (Ir.Expr.optionVars r)

theorem frugally_valueOf {e : Expr} {act : Lower (Option Ir.Expr)}
    (h : Frugally ls act FrugalValue) : Frugally ls (valueOf e act) fun v => Needless v.vars := by
  refine h.bind fun r hr => ?_
  cases r with
  | some v => exact .pure hr
  | none => exact .throw

theorem frugally_conditionOf {e : Expr} {act : Lower (Option Ir.Expr)}
    (h : Frugally ls act FrugalValue) :
    Frugally ls (conditionOf e act) fun v => Needless v.vars := by
  refine (frugally_valueOf h).bind fun v hv => .lift fun w hw => ?_
  unfold truthOf at hw
  split at hw
  · cases hw
    exact hv
  · cases hw
    exact needless_append.mpr ⟨hv, needless_nil⟩
  · cases hw
    exact needless_append.mpr ⟨hv, needless_nil⟩
  · cases hw

theorem frugally_alloc {type : TypeRef} :
    Frugally ls (alloc type) fun v => Needless v.vars := by
  refine frugally_temp.bind fun object hobject => ?_
  have hout := needless_singleton.mpr hobject
  refine (frugally_emit (.invoke ?_ hout)).bind fun _ _ => .pure hout
  exact needless_append.mpr ⟨needless_nil, needless_nil⟩

/-- A callee does not raise. -/
theorem frugally_emitCall (hm : env.options.modelsExceptions = false) {method : MethodRef}
    {args : List Ir.Expr} {outs : List String} (hargs : Needless (Ir.Expr.allVars args))
    (houts : Needless outs) : Frugally ls (emitCall env method args outs) fun _ => True := by
  refine (frugally_emit (.invoke hargs houts)).bind fun _ _ => .ite (fun h => ?_) fun _ =>
    .pure trivial
  rw [hm] at h
  cases h

theorem frugally_finishCall (hm : env.options.modelsExceptions = false) {method : MethodRef}
    {args : List Ir.Expr} {ty : Ty} (hargs : Needless (Ir.Expr.allVars args)) :
    Frugally ls (finishCall env method args ty) FrugalValue := by
  refine .ite (fun _ => (frugally_emitCall hm hargs needless_nil).bind fun _ _ =>
    .pure needless_nil) fun _ => ?_
  refine Frugally.bind (.lift fun _ _ => trivial) fun t _ => frugally_temp.bind fun out hout => ?_
  have hout := needless_singleton.mpr hout
  exact (frugally_emitCall hm hargs hout).bind fun _ _ => .pure hout

theorem frugally_finishNew (hm : env.options.modelsExceptions = false) {type : TypeRef}
    {ctor : Option MethodRef} {args : List Ir.Expr} (hargs : Needless (Ir.Expr.allVars args)) :
    Frugally ls (finishNew env type ctor args) fun v => Needless v.vars := by
  refine .bind frugally_alloc fun object hobject => ?_
  cases ctor with
  | some method =>
    have hall : Needless (Ir.Expr.allVars (object :: args)) := needless_append.mpr ⟨hobject, hargs⟩
    exact (frugally_emitCall hm hall needless_nil).bind fun _ _ => .pure hobject
  | none => exact .pure hobject

theorem frugally_finishBinary {op : BinOp} {lhs : Expr} {left right : Ir.Expr} {cmds : List Cmd}
    (hleft : Needless left.vars) (hright : Needless right.vars) (hcmds : Frugal ls cmds) :
    Frugally ls (finishBinary op lhs left right cmds) fun v => Needless v.vars := by
  refine .ite (fun _ => .pure (needless_append.mpr ⟨hleft, hright⟩)) fun _ => ?_
  have hlogic : ∀ guard : String → Ir.Expr, (∀ x, (guard x).vars = [x]) → Frugally ls (do
      let tmp ← freshLocal "tmp" .bool
      emit (.set tmp left)
      emit (.ifThen (guard tmp) (cmds ++ [Ir.Cmd.set tmp right]))
      return Ir.Expr.ident tmp) fun v => Needless v.vars := by
    intro guard hguard
    refine frugally_temp.bind fun tmp htmp => (frugally_emit (.set htmp hleft)).bind fun _ _ => ?_
    have htmps := needless_singleton.mpr htmp
    refine (frugally_emit (.ifElse ?_ ?_ .nil)).bind fun _ _ => .pure htmps
    · rwa [hguard]
    · exact Frugal.append_iff.mpr ⟨hcmds, .set htmp hright⟩
  cases op with
  | and => exact hlogic (fun tmp => .ident tmp) fun _ => rfl
  | or => exact hlogic (fun tmp => .not (.ident tmp)) fun _ => rfl
  | _ =>
    refine Frugally.bind (.lift fun _ _ => trivial) fun ty _ => frugally_temp.bind
      fun tmp htmp => (frugally_emit (.set htmp hleft)).bind fun _ _ =>
        (frugally_emitAll hcmds).bind fun _ _ => .pure ?_
    exact needless_append.mpr ⟨needless_singleton.mpr htmp, hright⟩

theorem frugally_finishConditional {ty : Ty} {span : Span} {cond : Ir.Expr}
    {thenPart elsePart : Ir.Expr × List Cmd} (hcond : Needless cond.vars)
    (hthen : Needless thenPart.1.vars ∧ Frugal ls thenPart.2)
    (helse : Needless elsePart.1.vars ∧ Frugal ls elsePart.2) :
    Frugally ls (finishConditional ty span cond thenPart elsePart) fun v => Needless v.vars := by
  refine .ite (fun _ => .pure ?_) fun _ => ?_
  · exact needless_append.mpr ⟨hcond, needless_append.mpr ⟨hthen.1, helse.1⟩⟩
  refine Frugally.bind (.lift fun _ _ => trivial) fun t _ => frugally_temp.bind fun tmp htmp => ?_
  have hpart : ∀ {part : Ir.Expr × List Cmd}, Needless part.1.vars ∧ Frugal ls part.2 →
      Frugal ls (part.2 ++ [Ir.Cmd.set tmp part.1]) := fun h =>
    Frugal.append_iff.mpr ⟨h.2, .set htmp h.1⟩
  exact (frugally_emit (.ifElse hcond (hpart hthen) (hpart helse))).bind fun _ _ =>
    .pure (needless_singleton.mpr htmp)

theorem frugally_defaultValue {ty : Ty} {span : Span} :
    Frugally ls (defaultValue env ty span) fun v => Needless v.vars := by
  unfold defaultValue
  cases ty with
  | void => exact .throw
  | bool | int => exact .pure needless_nil
  | named t => exact .ite (fun _ => frugally_alloc) fun _ => .pure needless_nil

theorem this_plain : isGenerated "this" = false := by decide

mutual

/-- An expression is lowered frugally, and so is its value. -/
theorem frugally_lowerExpr (hm : env.options.modelsExceptions = false) (e : Expr)
    (he : Ordinary e.locals) (compound : Bool) :
    Frugally ls (lowerExpr env e compound) FrugalValue := by
  obtain ⟨id, span, ty, kind⟩ := e
  cases kind with
  | literal lit =>
    rw [lowerExpr]
    refine .pure ?_
    cases lit <;> exact needless_nil
  | var name =>
    rw [lowerExpr]
    exact .pure (needless_plain he)
  | self =>
    rw [lowerExpr]
    exact .pure (needless_singleton.mpr (not_isBookkeeping_plain this_plain))
  | typeOf type =>
    rw [lowerExpr]
    exact .pure needless_nil
  | field object field =>
    have hfield := not_isBookkeeping_mapName field
    cases object with
    | none =>
      rw [lowerExpr]
      exact .pure (needless_singleton.mpr hfield)
    | some object =>
      rw [lowerExpr]
      exact (frugally_valueOf (frugally_lowerExpr hm object he false)).bind fun v hv =>
        .pure (needless_cons.mpr ⟨hfield, hv⟩)
  | unary op operand =>
    rw [lowerExpr]
    exact (frugally_valueOf (frugally_lowerExpr hm operand he false)).bind fun v hv => .pure hv
  | getType object =>
    rw [lowerExpr]
    exact (frugally_valueOf (frugally_lowerExpr hm object he false)).bind fun v hv =>
      .pure (needless_append.mpr ⟨hv, needless_nil⟩)
  | conversion operand newTy =>
    rw [lowerExpr]
    refine (frugally_valueOf (frugally_lowerExpr hm operand he false)).bind fun v hv => .pure ?_
    rwa [FrugalValue, Ir.Expr.optionVars, vars_convert]
  | binary op lhs rhs =>
    obtain ⟨hl, hr⟩ := List.forall_mem_append.mp he
    cases hkind : lhs.isTarget with
    | false =>
      rw [lowerExpr_binary env hkind]
      refine (frugally_valueOf (frugally_lowerExpr hm lhs hl false)).bind fun left hleft => ?_
      refine (frugally_valueOf (frugally_lowerExpr hm rhs hr false)).buffered.bind
        fun right hright => (frugally_finishBinary hleft hright.1 hright.2).bind fun v hv =>
          .pure hv
    | true =>
      obtain ⟨i, sp, t, lhsKind⟩ := lhs
      cases lhsKind with
      | target target =>
        rw [lowerExpr]
        have hrest : Frugally ls (do
            let current ← readTarget env target
            let rhs ← valueOf rhs (lowerExpr env rhs false)
            writeTarget env target (.binary (binOp op) current rhs)
            return some (← readTarget env target)) FrugalValue := by
          refine (frugally_readTarget hm target hl).bind fun current hcurrent => ?_
          refine (frugally_valueOf (frugally_lowerExpr hm rhs hr false)).bind fun v hv => ?_
          have hboth : Needless (Ir.Expr.binary (binOp op) current v).vars :=
            needless_append.mpr ⟨hcurrent, hv⟩
          exact (frugally_writeTarget hm target hl hboth).bind fun _ _ =>
            (frugally_readTarget hm target hl).bind fun w hw => .pure hw
        have hthrow : Frugally ls (throw (.compoundAsValue span) : Lower Unit) fun _ => True :=
          .throw
        exact .ite (fun _ => hrest) fun _ => hthrow.bind fun _ _ => hrest
      | _ => cases hkind
  | conditional cond thenExpr elseExpr =>
    obtain ⟨hc, hrest⟩ := List.forall_mem_append.mp he
    obtain ⟨ht, he⟩ := List.forall_mem_append.mp hrest
    rw [lowerExpr]
    refine (frugally_conditionOf (frugally_lowerExpr hm cond hc false)).bind fun c hcond => ?_
    refine (frugally_valueOf (frugally_lowerExpr hm thenExpr ht false)).buffered.bind
      fun thenPart hthen => ?_
    exact (frugally_valueOf (frugally_lowerExpr hm elseExpr he false)).buffered.bind
      fun elsePart helse => (frugally_finishConditional hcond hthen helse).bind fun v hv =>
        .pure hv
  | assign target value =>
    obtain ⟨ht, hv⟩ := List.forall_mem_append.mp he
    rw [lowerExpr]
    exact (frugally_valueOf (frugally_lowerExpr hm value hv false)).bind fun v hv =>
      (frugally_writeTarget hm target ht hv).bind fun _ _ =>
        (frugally_readTarget hm target ht).bind fun w hw => .pure hw
  | target target =>
    rw [lowerExpr]
    exact (frugally_readTarget hm target he).bind fun v hv => .pure hv
  | call call =>
    obtain ⟨method, receiver, args, isVirtual⟩ := call
    obtain ⟨hr, ha⟩ := List.forall_mem_append.mp he
    rw [lowerExpr]
    refine (frugally_lowerOption hm receiver hr).bind fun r hr =>
      (frugally_lowerArgs hm args ha).bind fun vs hvs => frugally_finishCall hm ?_
    rw [Ir.Expr.allVars_append, Ir.Expr.allVars_toList]
    exact needless_append.mpr ⟨hr, hvs⟩
  | new type ctor args =>
    rw [lowerExpr]
    exact (frugally_lowerArgs hm args he).bind fun vs hvs =>
      (frugally_finishNew hm hvs).bind fun v hv => .pure hv
  | defaultValue valueTy =>
    rw [lowerExpr]
    exact frugally_defaultValue.bind fun v hv => .pure hv
  | pop =>
    rw [lowerExpr]
    exact frugally_popOperand.bind fun v hv => .pure hv

theorem frugally_readTarget (hm : env.options.modelsExceptions = false) (t : Target)
    (ht : Ordinary t.locals) : Frugally ls (readTarget env t) fun v => Needless v.vars := by
  cases t with
  | var name =>
    rw [readTarget]
    exact .pure (needless_plain ht)
  | field object field =>
    have hfield := not_isBookkeeping_mapName field
    cases object with
    | none =>
      rw [readTarget]
      exact .pure (needless_singleton.mpr hfield)
    | some object =>
      rw [readTarget]
      exact (frugally_valueOf (frugally_lowerExpr hm object ht false)).bind fun v hv =>
        .pure (needless_cons.mpr ⟨hfield, hv⟩)

theorem frugally_writeTarget (hm : env.options.modelsExceptions = false) (t : Target)
    (ht : Ordinary t.locals) {v : Ir.Expr} (hv : Needless v.vars) :
    Frugally ls (writeTarget env t v) fun _ => True := by
  cases t with
  | var name =>
    rw [writeTarget]
    exact frugally_emit (.set (needless_singleton.mp (needless_plain ht)) hv)
  | field object field =>
    have hfield := not_isBookkeeping_mapName field
    cases object with
    | none =>
      rw [writeTarget]
      exact frugally_emit (.set hfield hv)
    | some object =>
      rw [writeTarget]
      refine (frugally_valueOf (frugally_lowerExpr hm object ht false)).bind fun w hw =>
        frugally_emit (.idle rfl rfl ?_)
      exact needless_append.mpr ⟨needless_cons.mpr ⟨hfield, hw⟩, hv⟩

theorem frugally_lowerOption (hm : env.options.modelsExceptions = false) (e : Option Expr)
    (he : Ordinary (Source.localsInOption e)) : Frugally ls (lowerOption env e) FrugalValue := by
  cases e with
  | none =>
    rw [lowerOption]
    exact .pure needless_nil
  | some e =>
    rw [lowerOption]
    exact (frugally_valueOf (frugally_lowerExpr hm e he false)).bind fun v hv => .pure hv

theorem frugally_lowerArgs (hm : env.options.modelsExceptions = false) (es : List Expr)
    (hes : Ordinary (Source.localsInAll es)) :
    Frugally ls (lowerArgs env es) fun vs => Needless (Ir.Expr.allVars vs) := by
  cases es with
  | nil =>
    rw [lowerArgs]
    exact .pure needless_nil
  | cons e es =>
    obtain ⟨he, hes⟩ := List.forall_mem_append.mp hes
    rw [lowerArgs]
    exact (frugally_valueOf (frugally_lowerExpr hm e he false)).bind fun v hv =>
      (frugally_lowerArgs hm es hes).bind fun vs hvs => .pure (needless_append.mpr ⟨hv, hvs⟩)

end

end

end Unwind.Lowering
