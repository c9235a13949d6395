import Mathlib
import Unwind.Proofs.Lowering.Balance
import Unwind.Proofs.Variables.Declares

/-!
# Generated variables are declared

Every step of the lowering keeps the declarations tidy, as long as no name of the source program is
that of a generated variable (`declares_lowerStmt`). So the variables of a body are declared once
and with the type of their kind, and meet neither parameters nor the result.
-/

namespace Unwind.Lowering

open Machine (isGenerated)
open Source (BinOp CatchClause Expr MethodDef MethodRef Stmt StmtKind SwitchCase Target Ty TypeDef
  TypeRef Variable)
open Ir (Cmd)

section

variable {env : Env} {models : Bool} {n : Nat} {xs : List String}

/-- A result that comes from outside of the state mentions no variables. -/
theorem declares_lift {α : Type} {r : Except Fault α} :
    Declares models n xs (liftM r) fun _ => [] := .lift fun _ _ => covers_nil

/-! ## Marks and exceptions -/

theorem declares_record {label : String} {ty : Ir.Ty} {v : Ir.Expr} (hv : Covers models xs v.vars) :
    Declares models n xs (record env label ty v) fun _ => [] := by
  refine .ite (fun _ => declares_withRegistry.bind fun proc => declares_emit ?_) fun _ =>
    .pure covers_nil
  simpa [Cmd.vars, Ir.Attr.vars, Ir.AttrValue.vars, Ir.Expr.allVars] using hv

theorem declares_breadcrumb : Declares models n xs (breadcrumb env) fun _ => [] :=
  .ite (fun _ => declares_withRegistry.bind fun _ => declares_emit covers_nil) fun _ =>
    .pure covers_nil

theorem declares_emitMarks {span : Span} {kind : StmtKind} :
    Declares models n xs (emitMarks env span kind) fun _ => [] := by
  have hcapture : ∀ {xs}, Declares models n xs (if env.options.captureState then
      withRegistry (·.nextCaptureState) >>= fun k =>
        emit (.marker ⟨"captureState", [.str ("s" ++ toString k.toNat)]⟩)
      else pure ()) fun _ => [] :=
    .ite (fun _ => declares_withRegistry.bind fun _ => declares_emit covers_nil) fun _ =>
      .pure covers_nil
  refine .ite (fun _ => .ite (fun _ => (declares_emit ?_).bind fun _ => hcapture) fun _ =>
    hcapture) fun _ => .pure covers_nil
  exact covers_nil

theorem covers_exceptionVar : Covers true xs Ir.Expr.exception.vars :=
  covers_cons.mpr ⟨.inl (.inr ⟨rfl, rfl⟩), covers_nil⟩

theorem declares_propagate : Declares true n xs (propagate env) fun _ => [] := by
  refine .look fun s _ => ?_
  split
  · exact (declares_record covers_exceptionVar).bind fun _ => declares_emit covers_nil
  · exact declares_catchLabel.bind fun _ => declares_emit covers_nil
  · refine declares_useLabelVar.bind fun label => (declares_emit ?_).bind fun _ =>
      declares_finallyLabel.bind fun _ => declares_emit covers_nil
    exact covers_cons.mpr ⟨.inr List.mem_cons_self, covers_nil⟩
  · exact declares_continuationLabel.bind fun _ => declares_emit covers_nil

theorem declares_propagateIfAny : Declares true n xs (propagateIfAny env) fun _ => [] := by
  refine .bind (.commandsOf declares_propagate) fun cmds => declares_emit ?_
  refine covers_append.mpr ⟨covers_append.mpr ⟨covers_exceptionVar, covers_nil⟩, ?_⟩
  exact covers_append.mpr ⟨.left, covers_nil⟩

end

section

variable {env : Env} {n : Nat} {xs : List String}

/-- The steps keep the declarations tidy in the mode of the environment. -/
abbrev DeclaresIn {α : Type} (env : Env) (n : Nat) (xs : List String) (act : Lower α)
    (ys : α → List String) : Prop := Declares env.options.modelsExceptions n xs act ys

/-- Names that the code in the mode of the environment may use. -/
abbrev CoversIn (env : Env) (xs ys : List String) : Prop :=
  Covers env.options.modelsExceptions xs ys

theorem Declares.modeled {α : Type} {act : Lower α} {ys : α → List String}
    (h : Declares true n xs act ys) (hm : env.options.modelsExceptions = true) :
    DeclaresIn env n xs act ys := by
  show Declares env.options.modelsExceptions n xs act ys
  rwa [hm]

/-! ## Expressions -/

theorem declares_valueOf {e : Expr} {act : Lower (Option Ir.Expr)}
    (h : DeclaresIn env n xs act Ir.Expr.optionVars) :
    DeclaresIn env n xs (valueOf e act) fun v => v.vars := by
  refine h.bind fun r => ?_
  cases r with
  | some v => exact .pure .left
  | none => exact .throw

theorem declares_conditionOf {e : Expr} {act : Lower (Option Ir.Expr)}
    (h : DeclaresIn env n xs act Ir.Expr.optionVars) :
    DeclaresIn env n xs (conditionOf e act) fun v => v.vars := by
  refine (declares_valueOf h).bind fun v => .lift fun w hw => ?_
  unfold truthOf at hw
  split at hw
  · cases hw
    exact .left
  · cases hw
    exact covers_append.mpr ⟨.left, covers_nil⟩
  · cases hw
    exact covers_append.mpr ⟨.left, covers_nil⟩
  · cases hw

theorem declares_alloc {type : TypeRef} : DeclaresIn env n xs (alloc type) fun v => v.vars := by
  refine declares_temp.bind fun object => (declares_emit ?_).bind fun _ => .pure ?_
  · exact covers_append.mpr ⟨covers_nil, .left⟩
  · exact .weaken .left

theorem covers_invoke {proc : String} {args : List Ir.Expr} {outs : List String}
    (hargs : CoversIn env xs (Ir.Expr.allVars args)) (houts : CoversIn env xs outs) :
    CoversIn env xs (Cmd.invoke proc args outs).vars :=
  covers_append.mpr ⟨covers_nil, covers_append.mpr ⟨hargs, houts⟩⟩

theorem declares_emitCall {method : MethodRef} {args : List Ir.Expr} {outs : List String}
    (hargs : CoversIn env xs (Ir.Expr.allVars args)) (houts : CoversIn env xs outs) :
    DeclaresIn env n xs (emitCall env method args outs) fun _ => [] := by
  refine (declares_emit (covers_invoke hargs houts)).bind fun _ => .ite (fun hm => ?_) fun _ =>
    .pure covers_nil
  exact declares_propagateIfAny.modeled hm

theorem declares_finishCall {method : MethodRef} {args : List Ir.Expr} {ty : Ty}
    (hargs : CoversIn env xs (Ir.Expr.allVars args)) :
    DeclaresIn env n xs (finishCall env method args ty) Ir.Expr.optionVars := by
  refine .ite (fun _ => (declares_emitCall hargs covers_nil).bind fun _ => .pure covers_nil)
    fun _ => ?_
  refine declares_lift.bind fun _ => ?_
  refine declares_temp.bind fun out => ?_
  exact (declares_emitCall hargs.weaken .left).bind fun _ => .pure .left

theorem declares_finishNew {type : TypeRef} {ctor : Option MethodRef} {args : List Ir.Expr}
    (hargs : CoversIn env xs (Ir.Expr.allVars args)) :
    DeclaresIn env n xs (finishNew env type ctor args) fun v => v.vars := by
  refine .bind declares_alloc fun object => ?_
  cases ctor with
  | some method =>
    refine (declares_emitCall (covers_append.mpr ⟨.left, hargs.weaken⟩) covers_nil).bind fun _ =>
      .pure .left
  | none => exact .pure .left

theorem declares_finishBinary {op : BinOp} {lhs : Expr} {left right : Ir.Expr}
    {rightCmds : List Cmd} (hl : CoversIn env xs left.vars) (hr : CoversIn env xs right.vars)
    (hcmds : CoversIn env xs (Cmd.allVars rightCmds)) :
    DeclaresIn env n xs (finishBinary op lhs left right rightCmds) fun v => v.vars := by
  refine .ite (fun _ => .pure (covers_append.mpr ⟨hl, hr⟩)) fun _ => ?_
  have hset : ∀ tmp, CoversIn env ([tmp] ++ xs) (Cmd.set tmp left).vars := fun tmp =>
    covers_append.mpr ⟨.left, hl.weaken⟩
  have hbool : ∀ guard : String → Ir.Expr, (∀ tmp, (guard tmp).vars = [tmp]) →
      DeclaresIn env n xs (do
        let tmp ← freshLocal "tmp" .bool
        emit (.set tmp left)
        emit (.ifThen (guard tmp) (rightCmds ++ [Ir.Cmd.set tmp right]))
        return Ir.Expr.ident tmp) fun v => v.vars := by
    intro guard hguard
    refine declares_temp.bind fun tmp => (declares_emit (hset tmp)).bind fun _ =>
      (declares_emit ?_).bind fun _ => .pure .left
    refine covers_append.mpr ⟨by rw [hguard]; exact .left, covers_append.mpr ⟨?_, covers_nil⟩⟩
    rw [Cmd.allVars_append]
    refine covers_append.mpr ⟨hcmds.weaken, covers_append.mpr ⟨?_, covers_nil⟩⟩
    exact covers_append.mpr ⟨.left, hr.weaken⟩
  cases op with
  | and => exact hbool (fun tmp => .ident tmp) fun _ => rfl
  | or => exact hbool (fun tmp => .not (.ident tmp)) fun _ => rfl
  | _ =>
    refine declares_lift.bind fun _ => ?_
    refine declares_temp.bind fun tmp => (declares_emit (hset tmp)).bind fun _ =>
      (declares_emitAll hcmds.weaken).bind fun _ => .pure ?_
    exact covers_append.mpr ⟨.left, hr.weaken⟩

theorem declares_finishConditional {ty : Ty} {span : Span} {cond : Ir.Expr}
    {thenPart elsePart : Ir.Expr × List Cmd} (hc : CoversIn env xs cond.vars)
    (ht : CoversIn env xs (thenPart.1.vars ++ Cmd.allVars thenPart.2))
    (he : CoversIn env xs (elsePart.1.vars ++ Cmd.allVars elsePart.2)) :
    DeclaresIn env n xs (finishConditional ty span cond thenPart elsePart) fun v => v.vars := by
  obtain ⟨ht, htc⟩ := covers_append.mp ht
  obtain ⟨he, hec⟩ := covers_append.mp he
  refine .ite (fun _ => .pure (covers_append.mpr ⟨hc, covers_append.mpr ⟨ht, he⟩⟩)) fun _ => ?_
  refine declares_lift.bind fun _ => ?_
  refine declares_temp.bind fun tmp => (declares_emit ?_).bind fun _ => .pure .left
  have hpart : ∀ {cmds : List Cmd} {v : Ir.Expr}, CoversIn env xs (Cmd.allVars cmds) →
      CoversIn env xs v.vars →
      CoversIn env ([tmp] ++ xs) (Cmd.allVars (cmds ++ [Ir.Cmd.set tmp v])) := by
    intro cmds v hcmds hv
    rw [Cmd.allVars_append]
    refine covers_append.mpr ⟨hcmds.weaken, covers_append.mpr ⟨?_, covers_nil⟩⟩
    exact covers_append.mpr ⟨.left, hv.weaken⟩
  exact covers_append.mpr ⟨hc.weaken, covers_append.mpr ⟨hpart htc ht, hpart hec he⟩⟩

theorem vars_convert (source target : Ty) (v : Ir.Expr) :
    (convert source target v).vars = v.vars := by
  unfold convert
  split <;> simp [Ir.Expr.vars, Ir.Expr.int, Ir.Expr.neq]

theorem declares_defaultValue {ty : Ty} {span : Span} :
    DeclaresIn env n xs (defaultValue env ty span) fun v => v.vars := by
  unfold defaultValue
  cases ty with
  | void => exact .throw
  | bool | int => exact .pure covers_nil
  | named t => exact .ite (fun _ => declares_alloc) fun _ => .pure covers_nil

/-- The names in the source are not those of generated variables. -/
abbrev Ordinary (names : List String) : Prop := ∀ x ∈ names, isGenerated x = false

theorem covers_name {name : String} {rest ys : List String} (h : Ordinary (name :: rest))
    (hys : CoversIn env xs ys) : CoversIn env xs (name :: ys) :=
  covers_cons.mpr ⟨.inl (.inl (List.forall_mem_cons.mp h).1), hys⟩

theorem covers_mapName {f : Source.FieldRef} {rest ys : List String}
    (h : Ordinary (f.type.name :: rest)) (hys : CoversIn env xs ys) :
    CoversIn env xs (f.mapName :: ys) :=
  covers_cons.mpr
    ⟨.inl (.inl (Source.isGenerated_mapName (List.forall_mem_cons.mp h).1)), hys⟩

mutual

theorem declares_lowerExpr (e : Expr) (he : Ordinary e.mentions) (compound : Bool)
    {xs : List String} : DeclaresIn env n xs (lowerExpr env e compound) Ir.Expr.optionVars := by
  obtain ⟨id, span, ty, kind⟩ := e
  cases kind with
  | literal lit =>
    rw [lowerExpr]
    exact .pure (by cases lit <;> exact covers_nil)
  | typeOf =>
    rw [lowerExpr]
    exact .pure covers_nil
  | self =>
    rw [lowerExpr]
    exact .pure (.plain (List.forall_mem_singleton.mpr (by decide)))
  | var name =>
    rw [lowerExpr]
    exact .pure (covers_name he covers_nil)
  | field object field =>
    cases object with
    | none =>
      rw [lowerExpr]
      exact .pure (covers_mapName he covers_nil)
    | some object =>
      rw [lowerExpr]
      refine (declares_valueOf (declares_lowerExpr object (List.forall_mem_cons.mp he).2
        false)).bind fun v => .pure ?_
      exact covers_mapName he .left
  | unary op operand =>
    rw [lowerExpr]
    exact (declares_valueOf (declares_lowerExpr operand he false)).bind fun v => .pure .left
  | getType operand =>
    rw [lowerExpr]
    refine (declares_valueOf (declares_lowerExpr operand he false)).bind fun v => .pure ?_
    exact covers_append.mpr ⟨.left, covers_nil⟩
  | conversion operand newTy =>
    rw [lowerExpr]
    refine (declares_valueOf (declares_lowerExpr operand he false)).bind fun v => .pure ?_
    rw [Ir.Expr.optionVars, vars_convert]
    exact .left
  | binary op lhs rhs =>
    obtain ⟨hl, hr⟩ := List.forall_mem_append.mp he
    by_cases htar : lhs.isTarget
    · obtain ⟨i, sp, t, lhsKind⟩ := lhs
      cases lhsKind with
      | target target =>
        rw [lowerExpr]
        have hrest : DeclaresIn env n xs (do
            let current ← readTarget env target
            let rhs ← valueOf rhs (lowerExpr env rhs false)
            writeTarget env target (.binary (binOp op) current rhs)
            return some (← readTarget env target)) Ir.Expr.optionVars := by
          refine (declares_readTarget target hl).bind fun current => ?_
          refine (declares_valueOf (declares_lowerExpr rhs hr false)).bind fun v => ?_
          refine (declares_writeTarget target hl ?_).bind fun _ =>
            (declares_readTarget target hl).bind fun w => .pure .left
          exact covers_append.mpr ⟨.weaken .left, .left⟩
        have hthrow : DeclaresIn env n xs (throw (.compoundAsValue span) : Lower Unit)
            fun _ => [] := .throw
        exact .ite (fun _ => hrest) fun _ => hthrow.bind fun _ => hrest
      | _ => cases htar
    · rw [Bool.not_eq_true] at htar
      rw [lowerExpr_binary env htar]
      refine (declares_valueOf (declares_lowerExpr lhs hl false)).bind fun left => ?_
      refine (declares_valueOf (declares_lowerExpr rhs hr false)).buffered.bind fun right => ?_
      have hpart : CoversIn env ((right.1.vars ++ Cmd.allVars right.2) ++ (left.vars ++ xs))
          (right.1.vars ++ Cmd.allVars right.2) := .left
      obtain ⟨hright, hcmds⟩ := covers_append.mp hpart
      exact (declares_finishBinary (.weaken .left) hright hcmds).bind fun _ => .pure .left
  | conditional cond thenExpr elseExpr =>
    obtain ⟨hc, hte⟩ := List.forall_mem_append.mp he
    obtain ⟨ht, he⟩ := List.forall_mem_append.mp hte
    rw [lowerExpr]
    refine (declares_conditionOf (declares_lowerExpr cond hc false)).bind fun c => ?_
    refine (declares_valueOf (declares_lowerExpr thenExpr ht false)).buffered.bind fun tp => ?_
    refine (declares_valueOf (declares_lowerExpr elseExpr he false)).buffered.bind fun ep => ?_
    exact (declares_finishConditional (.weaken (.weaken .left)) (.weaken .left) .left).bind
      fun _ => .pure .left
  | assign target value =>
    obtain ⟨ht, hv⟩ := List.forall_mem_append.mp he
    rw [lowerExpr]
    refine (declares_valueOf (declares_lowerExpr value hv false)).bind fun v => ?_
    exact (declares_writeTarget target ht .left).bind fun _ =>
      (declares_readTarget target ht).bind fun _ => .pure .left
  | target target =>
    rw [lowerExpr]
    exact (declares_readTarget target he).bind fun _ => .pure .left
  | call call =>
    obtain ⟨method, receiver, args, isVirtual⟩ := call
    obtain ⟨hr, ha⟩ := List.forall_mem_append.mp he
    rw [lowerExpr]
    refine (declares_lowerOption receiver hr).bind fun r => (declares_lowerArgs args ha).bind
      fun as => declares_finishCall ?_
    rw [Ir.Expr.allVars_append, Ir.Expr.allVars_toList]
    exact covers_append.mpr ⟨.weaken .left, .left⟩
  | new type ctor args =>
    rw [lowerExpr]
    exact (declares_lowerArgs args he).bind fun _ => (declares_finishNew .left).bind fun _ =>
      .pure .left
  | defaultValue valueTy =>
    rw [lowerExpr]
    exact declares_defaultValue.bind fun _ => .pure .left
  | pop =>
    rw [lowerExpr]
    exact declares_popOperand.bind fun _ => .pure .left

theorem declares_readTarget (t : Target) (ht : Ordinary t.mentions) {xs : List String} :
    DeclaresIn env n xs (readTarget env t) fun v => v.vars := by
  cases t with
  | var name =>
    rw [readTarget]
    exact .pure (covers_name ht covers_nil)
  | field object field =>
    cases object with
    | none =>
      rw [readTarget]
      exact .pure (covers_mapName ht covers_nil)
    | some object =>
      rw [readTarget]
      refine (declares_valueOf (declares_lowerExpr object (List.forall_mem_cons.mp ht).2
        false)).bind fun v => .pure ?_
      exact covers_mapName ht .left

theorem declares_writeTarget (t : Target) (ht : Ordinary t.mentions) {v : Ir.Expr}
    {xs : List String} (hv : CoversIn env xs v.vars) :
    DeclaresIn env n xs (writeTarget env t v) fun _ => [] := by
  cases t with
  | var name =>
    rw [writeTarget]
    exact declares_emit (covers_name ht hv)
  | field object field =>
    cases object with
    | none =>
      rw [writeTarget]
      exact declares_emit (covers_mapName ht hv)
    | some object =>
      rw [writeTarget]
      refine (declares_valueOf (declares_lowerExpr object (List.forall_mem_cons.mp ht).2
        false)).bind fun w => declares_emit ?_
      exact covers_append.mpr ⟨covers_mapName ht .left, hv.weaken⟩

theorem declares_lowerOption (e : Option Expr) (he : Ordinary (Source.mentionsOption e))
    {xs : List String} : DeclaresIn env n xs (lowerOption env e) Ir.Expr.optionVars := by
  cases e with
  | none =>
    rw [lowerOption]
    exact .pure covers_nil
  | some e =>
    rw [lowerOption]
    exact (declares_valueOf (declares_lowerExpr e he false)).bind fun _ => .pure .left

theorem declares_lowerArgs (es : List Expr) (hes : Ordinary (Source.mentionsAll es))
    {xs : List String} : DeclaresIn env n xs (lowerArgs env es) Ir.Expr.allVars := by
  cases es with
  | nil =>
    rw [lowerArgs]
    exact .pure covers_nil
  | cons e es =>
    obtain ⟨he, hes⟩ := List.forall_mem_append.mp hes
    rw [lowerArgs]
    refine (declares_valueOf (declares_lowerExpr e he false)).bind fun v =>
      (declares_lowerArgs es hes).bind fun vs => .pure ?_
    exact covers_append.mpr ⟨.weaken .left, .left⟩

end

theorem declares_value {e : Expr} (he : Ordinary e.mentions) :
    DeclaresIn env n xs (value env e) fun v => v.vars :=
  declares_valueOf (declares_lowerExpr e he false)

theorem declares_condition {e : Expr} (he : Ordinary e.mentions) :
    DeclaresIn env n xs (condition env e) fun v => v.vars :=
  declares_conditionOf (declares_lowerExpr e he false)

/-! ## Statements without parts -/

theorem declares_lowerReturn {span : Span} {e : Option Expr}
    (he : Ordinary (Source.mentionsOption e)) :
    DeclaresIn env n xs (lowerReturn env span e) fun _ => [] := by
  cases e with
  | none => exact declares_emit covers_nil
  | some e =>
    refine (declares_value he).bind fun v => .look fun s _ => ?_
    split
    · next slot hslot =>
      have hv : CoversIn env (s.returnVar.toList ++ (v.vars ++ xs)) v.vars := .weaken .left
      refine declares_lift.bind fun _ => ?_
      refine (declares_record hv).bind fun _ => (declares_emit ?_).bind fun _ =>
        declares_emit covers_nil
      rw [hslot] at hv ⊢
      exact covers_cons.mpr ⟨.inr List.mem_cons_self, hv⟩
    · have hthrow : DeclaresIn env s.regions.length (s.returnVar.toList ++ (v.vars ++ xs))
          (throw (.noReturnSlot span) : Lower Unit) fun _ => [] := .throw
      exact hthrow.bind fun _ => declares_emit covers_nil

theorem declares_lowerLocalDecl {decl : Variable} {init : Option Expr}
    (hname : isGenerated decl.name = false) (hinit : Ordinary (Source.mentionsOption init)) :
    DeclaresIn env n xs (lowerLocalDecl env decl init) fun _ => [] := by
  have hset : ∀ {xs : List String} {v : Ir.Expr}, CoversIn env xs v.vars →
      CoversIn env xs (Cmd.set decl.name v).vars := fun hv =>
    covers_append.mpr ⟨.plain (List.forall_mem_singleton.mpr hname), hv⟩
  refine declares_lift.bind fun ty => ?_
  refine (declares_declareLocal hname).bind fun _ => .ite (fun _ => ?_) fun _ => ?_
  · split
    · next e type hsome _ =>
      obtain ⟨rfl, -⟩ := Option.filter_eq_some_iff.mp hsome
      refine declares_withRegistry.bind fun proc => (declares_value hinit).bind fun v =>
        declares_emit (covers_invoke ?_ ?_)
      · exact covers_append.mpr ⟨.left, covers_nil⟩
      · exact .plain (List.forall_mem_singleton.mpr hname)
    · exact (declares_value (List.forall_mem_nil _)).bind fun v => declares_emit (hset .left)
  · cases init with
    | none => exact .pure covers_nil
    | some e =>
      exact (declares_value hinit).bind fun v => (declares_record .left).bind fun _ =>
        declares_emit (hset (.weaken .left))

theorem covers_set_exception {v : Ir.Expr} (h : Covers true xs v.vars) :
    Covers true xs (Cmd.set Ir.exceptionVar v).vars :=
  covers_append.mpr ⟨covers_exceptionVar, h⟩

theorem declares_lowerThrow {e : Expr} (he : Ordinary e.mentions) :
    DeclaresIn env n xs (lowerThrow env e) fun _ => [] := by
  refine .ite (fun hm => ?_) fun _ => declares_emit covers_nil
  refine (declares_value he).bind fun v => (declares_record .left).bind fun _ => ?_
  refine Declares.modeled ?_ hm
  exact (declares_emit (covers_set_exception (.weaken .left))).bind fun _ => declares_propagate

theorem declares_lowerRethrow {span : Span} :
    DeclaresIn env n xs (lowerRethrow env span) fun _ => [] := by
  refine .ite (fun hm => Declares.modeled (.look fun s ht => ?_) hm) fun _ =>
    declares_emit covers_nil
  split
  · next id h =>
    obtain ⟨e, he, rfl⟩ := mem_of_innermostCatch? h
    refine (declares_exceptionLocal (ht.grounded e he)).bind fun caught =>
      (declares_record (v := .ident caught) .left).bind fun _ => ?_
    exact (declares_emit (covers_set_exception (v := .ident caught) (.weaken .left))).bind
      fun _ => declares_propagate
  · exact .throw

/-! ## Jumps -/

theorem declares_escape {target : String} {span : Span} {entries : List Entry} :
    Declares true n xs (escape target span entries) fun _ => [] := by
  induction entries generalizing xs with
  | nil => exact .pure covers_nil
  | cons entry entries ih =>
    obtain ⟨region, phase⟩ := entry
    cases phase with
    | inFinally => exact .throw
    | inTry | inCatch =>
      refine declares_addEscapingEdge.bind fun edge => declares_useLabelVar.bind fun label =>
        (declares_emit ?_).bind fun _ => declares_finallyLabel.bind fun _ =>
          (declares_emit covers_nil).bind fun _ => (declares_emit covers_nil).bind fun _ => ih
      exact covers_cons.mpr ⟨.inr List.mem_cons_self, covers_nil⟩

/-- Without exceptions there is no region to leave. -/
theorem declares_lowerGoto {target : String} {span : Span} :
    DeclaresIn env n xs (lowerGoto env target span) fun _ => [] := by
  refine .look fun s ht => declares_lift.bind fun keep => ?_
  have hescape : DeclaresIn env s.regions.length (s.returnVar.toList ++ xs)
      (escape target span (s.stack.take (s.depth - keep))) fun _ => [] := by
    cases hm : env.options.modelsExceptions with
    | true => exact declares_escape.modeled hm
    | false =>
      rw [ht.stack hm, List.take_nil, escape]
      exact .pure covers_nil
  exact hescape.bind fun _ => declares_emit covers_nil

/-! ## Regions -/

theorem declares_leaveNormally {region : Nat} :
    Declares true n xs (leaveNormally region) fun _ => [] := by
  refine declares_useLabelVar.bind fun label => (declares_emit ?_).bind fun _ =>
    declares_finallyLabel.bind fun _ => declares_emit covers_nil
  exact covers_cons.mpr ⟨.inr List.mem_cons_self, covers_nil⟩

theorem declares_bindCaught {caught : String} {span : Span} {binding : Option Variable}
    (hb : Ordinary (binding.toList.map (·.name))) (hcaught : Covers true xs [caught]) :
    Declares true n xs (bindCaught env caught span binding) fun _ => [] := by
  cases binding with
  | none => exact .pure covers_nil
  | some v =>
    have hname : isGenerated v.name = false := hb v.name List.mem_cons_self
    refine declares_lift.bind fun ty => ?_
    refine (declares_declareLocal hname).bind fun _ =>
      (declares_record (v := .ident caught) hcaught).bind fun _ => declares_emit ?_
    exact covers_cons.mpr ⟨.inl (.inl hname), hcaught⟩

theorem declares_takeException {region : Nat} (hid : region < n) :
    Declares true n xs (takeException region) fun x => [x] := by
  refine declares_catchLabel.bind fun l => (declares_emit covers_nil).bind fun _ =>
    (declares_exceptionLocal hid).bind fun caught => (declares_emit ?_).bind fun _ =>
    (declares_emit (covers_set_exception covers_nil)).bind fun _ => .pure .left
  exact covers_cons.mpr ⟨.inr List.mem_cons_self, covers_exceptionVar⟩

theorem declares_saveForFinally :
    Declares true n xs saveForFinally fun (x, y) => [x, y, labelVar] := by
  refine declares_useLabelVar.bind fun label => declares_savedExc.bind fun savedExc =>
    declares_savedLabel.bind fun savedLabel => ?_
  have hall : Covers true ([savedLabel] ++ ([savedExc] ++ ([label, labelVar] ++ xs)))
      [savedExc, savedLabel, label, labelVar] := by
    intro y hy
    simp only [List.mem_cons, List.not_mem_nil, or_false] at hy
    rcases hy with rfl | rfl | rfl | rfl <;> simp
  obtain ⟨he, hrest⟩ := covers_cons.mp hall
  obtain ⟨hs, hrest⟩ := covers_cons.mp hrest
  obtain ⟨hl, hv⟩ := covers_cons.mp hrest
  refine (declares_emit (covers_cons.mpr ⟨he, covers_exceptionVar⟩)).bind fun _ => ?_
  refine (declares_emit (.weaken (covers_cons.mpr ⟨hs, covers_cons.mpr ⟨hl, covers_nil⟩⟩))).bind
    fun _ => (declares_emit (covers_set_exception covers_nil)).bind fun _ => .pure ?_
  exact .weaken (.weaken (.weaken (covers_cons.mpr ⟨he, covers_cons.mpr ⟨hs, hv⟩⟩)))

theorem declares_restoreAfterFinally {savedExc savedLabel : String}
    (h : Covers true xs [savedExc, savedLabel, labelVar]) :
    Declares true n xs (restoreAfterFinally savedExc savedLabel) fun _ => [] := by
  obtain ⟨he, hrest⟩ := covers_cons.mp h
  obtain ⟨hs, hl⟩ := covers_cons.mp hrest
  refine (declares_emit (covers_set_exception (covers_cons.mpr ⟨he, covers_nil⟩))).bind fun _ =>
    declares_emit (.weaken ?_)
  exact covers_append.mpr ⟨hl, covers_cons.mpr ⟨hs, covers_nil⟩⟩

theorem allVars_resumeTests {continuation : String} {edges : List EscapingEdge}
    (h : Covers models xs [labelVar]) :
    Covers models xs (Cmd.allVars (resumeTests continuation edges)) := by
  induction edges with
  | nil => exact covers_nil
  | cons edge edges ih =>
    refine covers_append.mpr ⟨covers_append.mpr ⟨?_, ?_⟩, covers_nil⟩
    · exact covers_append.mpr ⟨h, covers_nil⟩
    · exact covers_append.mpr ⟨covers_nil, ih⟩

theorem declares_dispatchContinuation {region : Nat} :
    Declares true n xs (dispatchContinuation region) fun _ => [] := by
  refine declares_continuationLabel.bind fun continuation => .look fun s _ => ?_
  refine .ite (fun hempty => declares_emitAll ?_) fun _ => ?_
  · rw [List.isEmpty_iff.mp hempty]
    exact covers_nil
  · refine declares_useLabelVar.bind fun label => declares_emitAll (allVars_resumeTests ?_)
    exact fun y hy => .inr (by simp [List.mem_singleton.mp hy])

theorem declares_finishRegion {region : Nat} :
    Declares true n xs (finishRegion env region) fun _ => [] :=
  .bind declares_dispatchContinuation fun _ => declares_continuationLabel.bind fun _ =>
    (declares_emit covers_nil).bind fun _ => declares_propagateIfAny

/-- The variables of the clauses of a region. -/
def armVars (arms : List (Ir.Expr × List Cmd)) : List String :=
  arms.flatMap fun arm => arm.1.vars ++ Cmd.allVars arm.2

theorem covers_catchTests {arms : List (Ir.Expr × List Cmd)} {inner : Option Cmd}
    (h : Covers models xs (armVars arms)) (hinner : Covers models xs (Cmd.allVars inner.toList)) :
    Covers models xs (Cmd.allVars (arms.foldl
      (fun inner (test, body) => some (Cmd.ifElse test body inner.toList)) inner).toList) := by
  induction arms generalizing inner with
  | nil => exact hinner
  | cons arm arms ih =>
    obtain ⟨harm, harms⟩ := covers_append.mp h
    obtain ⟨htest, hbody⟩ := covers_append.mp harm
    refine ih harms (covers_append.mpr ⟨?_, covers_nil⟩)
    exact covers_append.mpr ⟨htest, covers_append.mpr ⟨hbody, hinner⟩⟩

theorem declares_finishCatches {caught : String} {arms : List (Ir.Expr × List Cmd)}
    (hcaught : Covers true xs [caught]) (harms : Covers true xs (armVars arms)) :
    Declares true n xs (finishCatches env caught arms) fun _ => [] := by
  refine (declares_emitAll (covers_catchTests harms covers_nil)).bind fun _ => ?_
  exact (declares_emit (covers_set_exception (v := .ident caught) hcaught.weaken)).bind fun _ =>
    declares_propagate

theorem vars_catchTest (caught : String) (type : Option TypeRef) :
    Covers models [caught] (catchTest caught type).vars := by
  cases type with
  | none => exact covers_nil
  | some t => exact covers_append.mpr ⟨covers_append.mpr ⟨.self, covers_nil⟩, covers_nil⟩

/-! ## Statements -/

/-- The names in the statement and in those inside it are not those of generated variables. -/
def OrdinaryIn (ss : List Stmt) : Prop := ∀ t ∈ ss, Ordinary t.kind.mentions

mutual

theorem declares_lowerStmt {n : Nat} {xs : List String} (s : Stmt) (hs : OrdinaryIn s.statements) :
    DeclaresIn env n xs (lowerStmt env s) fun _ => [] := by
  have hown := hs s s.mem_statements
  have hin : OrdinaryIn s.statements.tail := fun t ht => hs t (List.mem_of_mem_tail ht)
  obtain ⟨id, span, kind⟩ := s
  obtain ⟨hdecl, hexprs⟩ := List.forall_mem_append.mp hown
  have hmarked : ∀ {act : Lower Unit}, (DeclaresIn env n xs act fun _ => []) →
      DeclaresIn env n xs (do emitMarks env span kind; act) fun _ => [] :=
    fun h => declares_emitMarks.bind fun _ => h
  cases kind with
  | block stmts =>
    rw [lowerStmt]
    exact hmarked (declares_lowerStmts stmts hin)
  | empty =>
    rw [lowerStmt]
    exact hmarked (.pure covers_nil)
  | assert cond =>
    rw [lowerStmt]
    refine hmarked ((declares_condition (List.forall_mem_append.mp hexprs).1).bind fun v =>
      declares_emit ?_)
    split <;> exact covers_append.mpr ⟨.left, covers_nil⟩
  | assume cond =>
    rw [lowerStmt]
    refine hmarked ((declares_condition (List.forall_mem_append.mp hexprs).1).bind fun v =>
      declares_emit ?_)
    exact covers_append.mpr ⟨.left, covers_nil⟩
  | conditional cond thenBranch elseBranch =>
    obtain ⟨ht, he⟩ := List.forall_mem_append.mp hin
    have hbranch : ∀ {xs : List String} {st : Stmt}, (DeclaresIn env n xs (lowerStmt env st)
        fun _ => []) → DeclaresIn env n xs (commandsOf do breadcrumb env; lowerStmt env st)
          Cmd.allVars := fun h => (declares_breadcrumb.bind fun _ => h).commandsOf
    rw [lowerStmt]
    refine hmarked ((declares_condition (List.forall_mem_append.mp hexprs).1).bind fun v =>
      (hbranch (declares_lowerStmt thenBranch ht)).bind fun thenCmds =>
        (hbranch (declares_lowerStmt elseBranch he)).bind fun elseCmds => declares_emit ?_)
    exact covers_append.mpr ⟨.weaken (.weaken .left), covers_append.mpr ⟨.weaken .left, .left⟩⟩
  | expression e =>
    rw [lowerStmt]
    exact hmarked ((declares_lowerExpr e (List.forall_mem_append.mp hexprs).1 _).bind fun _ =>
      .pure covers_nil)
  | breakLoop | continueLoop | whileLoop | doUntil | forLoop | forEach =>
    simp only [lowerStmt]
    exact hmarked .throw
  | switch scrutinee cases =>
    obtain ⟨hv, hvalues⟩ := List.forall_mem_append.mp hexprs
    rw [lowerStmt]
    refine hmarked ((declares_value hv).bind fun v => (declares_lowerDefault cases hin).bind
      fun ds => (declares_lowerCases cases hvalues hin (.weaken .left) .left).bind fun chain => ?_)
    cases chain with
    | some c => exact declares_emit (covers_append.mp .left).1
    | none => exact declares_emitAll (.weaken .left)
  | localDecl decl init =>
    rw [lowerStmt]
    refine hmarked (declares_lowerLocalDecl (hdecl _ List.mem_cons_self) ?_)
    cases init with
    | none => exact List.forall_mem_nil _
    | some e => exact (List.forall_mem_append.mp hexprs).1
  | ret value =>
    rw [lowerStmt]
    refine hmarked (declares_lowerReturn ?_)
    cases value with
    | none => exact List.forall_mem_nil _
    | some e => exact (List.forall_mem_append.mp hexprs).1
  | goto label =>
    rw [lowerStmt]
    exact hmarked declares_lowerGoto
  | labeled label body =>
    rw [lowerStmt]
    exact hmarked ((declares_emit covers_nil).bind fun _ => declares_lowerStmt body hin)
  | tryCatch body catches finalizer =>
    obtain ⟨hb, hcf⟩ := List.forall_mem_append.mp hin
    obtain ⟨hc, hf⟩ := List.forall_mem_append.mp hcf
    rw [lowerStmt]
    refine hmarked (.ite (fun hm => declares_enterRegion fun region => ?_) fun _ => ?_)
    · have hid := Nat.lt_succ_self region
      refine ((declares_pushPhase .inTry hid).modeled hm).bind fun _ => ?_
      refine (declares_lowerStmt body hb).bind fun _ => ?_
      refine (declares_leaveNormally.modeled hm).bind fun _ => (declares_popPhase .inTry).bind
        fun _ => ((declares_takeException hid).modeled hm).bind fun caught => ?_
      refine ((declares_pushPhase .inCatch hid).modeled hm).bind fun _ => ?_
      refine (declares_lowerCatches catches hm hdecl hc (.weaken .left)).bind fun arms => ?_
      refine ((declares_finishCatches ?_ .left).modeled hm).bind fun _ =>
        (declares_popPhase .inCatch).bind fun _ => ?_
      · exact .weaken (.weaken .left)
      refine declares_finallyLabel.bind fun _ => (declares_emit covers_nil).bind fun _ => ?_
      exact (declares_lowerFinally hid finalizer hm hf).bind fun _ =>
        declares_finishRegion.modeled hm
    · exact (declares_lowerStmt body hb).bind fun _ => declares_lowerOptional finalizer hf
  | throw e =>
    rw [lowerStmt]
    exact hmarked (declares_lowerThrow (List.forall_mem_append.mp hexprs).1)
  | rethrow =>
    rw [lowerStmt]
    exact hmarked declares_lowerRethrow
  | push e =>
    rw [lowerStmt]
    exact hmarked ((declares_value (List.forall_mem_append.mp hexprs).1).bind fun _ =>
      declares_pushOperand .left)

theorem declares_lowerStmts {n : Nat} {xs : List String} (ss : List Stmt)
    (hs : OrdinaryIn (Source.statementsIn ss)) :
    DeclaresIn env n xs (lowerStmts env ss) fun _ => [] := by
  cases ss with
  | nil =>
    rw [lowerStmts]
    exact .pure covers_nil
  | cons s ss =>
    obtain ⟨hs, hss⟩ := List.forall_mem_append.mp hs
    rw [lowerStmts]
    exact (declares_lowerStmt s hs).bind fun _ => declares_lowerStmts ss hss

theorem declares_lowerOptional {n : Nat} {xs : List String} (s : Option Stmt)
    (hs : OrdinaryIn (Source.statementsInOption s)) :
    DeclaresIn env n xs (lowerOptional env s) fun _ => [] := by
  cases s with
  | none =>
    rw [lowerOptional]
    exact .pure covers_nil
  | some s =>
    rw [lowerOptional]
    exact declares_lowerStmt s hs

theorem declares_lowerFinally {n region : Nat} {xs : List String} (hid : region < n)
    (s : Option Stmt) (hm : env.options.modelsExceptions = true)
    (hs : OrdinaryIn (Source.statementsInOption s)) :
    DeclaresIn env n xs (lowerFinally env region s) fun _ => [] := by
  cases s with
  | none =>
    rw [lowerFinally]
    exact .pure covers_nil
  | some s =>
    rw [lowerFinally]
    refine ((declares_pushPhase .inFinally hid).modeled hm).bind fun _ => ?_
    refine (declares_saveForFinally.modeled hm).bind fun saved => ?_
    refine (declares_lowerStmt s hs).bind fun _ => ?_
    exact ((declares_restoreAfterFinally .left).modeled hm).bind fun _ =>
      declares_popPhase .inFinally

theorem declares_lowerCatches {n region : Nat} {caught : String} {xs : List String}
    (clauses : List CatchClause) (hm : env.options.modelsExceptions = true)
    (hb : Ordinary ((clauses.filterMap (·.binding)).map (·.name)))
    (hs : OrdinaryIn (Source.statementsInCatches clauses)) (hcaught : CoversIn env xs [caught]) :
    DeclaresIn env n xs (lowerCatches env region caught clauses) armVars := by
  cases clauses with
  | nil =>
    rw [lowerCatches]
    exact .pure covers_nil
  | cons clause clauses =>
    obtain ⟨span, type, binding, body⟩ := clause
    obtain ⟨hbody, hclauses⟩ := List.forall_mem_append.mp hs
    have hbindings : Ordinary (binding.toList.map (·.name)) ∧
        Ordinary ((clauses.filterMap (·.binding)).map (·.name)) := by
      cases binding with
      | none => exact ⟨List.forall_mem_nil _, hb⟩
      | some v =>
        obtain ⟨hv, hrest⟩ := List.forall_mem_cons.mp hb
        exact ⟨fun x hx => List.mem_singleton.mp hx ▸ hv, hrest⟩
    rw [lowerCatches]
    have hclause : DeclaresIn env n xs (do
        bindCaught env caught span binding
        lowerStmt env body
        leaveNormally region) fun _ => [] := by
      have hcaught : Covers true xs [caught] := by rwa [CoversIn, hm] at hcaught
      exact ((declares_bindCaught hbindings.1 hcaught).modeled hm).bind fun _ =>
        (declares_lowerStmt body hbody).bind fun _ => declares_leaveNormally.modeled hm
    refine hclause.commandsOf.bind fun cmds =>
      (declares_lowerCatches clauses hm hbindings.2 hclauses hcaught.weaken).bind fun arms =>
        .pure ?_
    refine covers_append.mpr ⟨covers_append.mpr ⟨?_, .weaken .left⟩, .left⟩
    exact (Covers.weaken (Covers.weaken hcaught)).trans (vars_catchTest caught type)

theorem declares_lowerDefault {n : Nat} {xs : List String} (cases : List SwitchCase)
    (hs : OrdinaryIn (Source.statementsInCases cases)) :
    DeclaresIn env n xs (lowerDefault env cases) Cmd.allVars := by
  cases cases with
  | nil =>
    rw [lowerDefault]
    exact .pure covers_nil
  | cons case cases =>
    obtain ⟨span, value, body⟩ := case
    obtain ⟨hbody, hcases⟩ := List.forall_mem_append.mp hs
    rw [lowerDefault]
    exact .ite (fun _ => declares_lowerDefault cases hcases) fun _ =>
      (declares_lowerStmts body hbody).commandsOf

theorem declares_lowerCases {n : Nat} {v : Ir.Expr} {ds : List Cmd} {xs : List String}
    (cases : List SwitchCase)
    (hvalues : Ordinary ((cases.filterMap (·.value)).flatMap Expr.mentions))
    (hs : OrdinaryIn (Source.statementsInCases cases)) (hv : CoversIn env xs v.vars)
    (hds : CoversIn env xs (Cmd.allVars ds)) :
    DeclaresIn env n xs (lowerCases env v ds cases) fun chain => Cmd.allVars chain.toList := by
  cases cases with
  | nil =>
    rw [lowerCases]
    exact .pure covers_nil
  | cons case cases =>
    obtain ⟨span, value, body⟩ := case
    obtain ⟨hbody, hcases⟩ := List.forall_mem_append.mp hs
    rw [lowerCases]
    cases value with
    | none =>
      exact (declares_lowerCases cases hvalues hcases hv hds).bind fun chain => .pure .left
    | some e =>
      obtain ⟨he, hvalues⟩ := List.forall_mem_append.mp hvalues
      refine (declares_lowerCases cases hvalues hcases hv hds).bind fun chain => ?_
      refine (declares_value he).bind fun w => (declares_lowerStmts body hbody).commandsOf.bind
        fun cmds => .pure ?_
      refine covers_append.mpr ⟨covers_append.mpr ⟨covers_append.mpr ⟨?_, ?_⟩,
        covers_append.mpr ⟨.left, ?_⟩⟩, covers_nil⟩
      · exact .weaken (.weaken (.weaken hv))
      · exact .weaken .left
      · cases chain with
        | some inner => exact .weaken (.weaken .left)
        | none => exact .weaken (.weaken (.weaken hds))

end

end

end Unwind.Lowering
