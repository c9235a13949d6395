import Unwind.Proofs.Accepts
import Unwind.Proofs.Evaluation.Expressions

/-!
# Well-typed expressions are accepted

The lowering of an expression fails where a value is missing, and at a compound assignment that is
used as a value. A well-typed expression lacks no value, and `steady` leaves no such assignment.
-/

namespace Unwind.Lowering

open Source

/-! ## Steps that return a value -/

section

variable {α : Type} {env : Env}

/-- In every state the step succeeds, with a value if one is needed. -/
def Returns (needed : Bool) (act : Lower (Option Ir.Expr)) : Prop :=
  ∀ t, ∃ r t', Runs act t r t' ∧ (needed = true → r.isSome = true)

theorem Returns.bind {needed : Bool} {x : Lower α} {f : α → Lower (Option Ir.Expr)} (hx : Total x)
    (hf : ∀ a, Returns needed (f a)) : Returns needed (x >>= f) := by
  intro t
  obtain ⟨a, t₁, h₁⟩ := hx t
  obtain ⟨r, t₂, h₂, hr⟩ := hf a t₁
  exact ⟨r, t₂, runs_bind.mpr ⟨a, t₁, h₁, h₂⟩, hr⟩

theorem Returns.some {needed : Bool} (v : Ir.Expr) : Returns needed (pure (some v)) :=
  fun t => ⟨_, t, runs_pure.mpr ⟨rfl, rfl⟩, fun _ => rfl⟩

/-- A step whose value is the value of the expression. -/
theorem Returns.of_total {needed : Bool} {x : Lower Ir.Expr} (hx : Total x) :
    Returns needed (do return Option.some (← x)) := .bind hx fun v => .some v

theorem Returns.value {e : Expr} {act : Lower (Option Ir.Expr)}
    (h : Returns (!e.ty.isVoid) act) (hty : e.ty.isVoid = false) : Total (valueOf e act) := by
  intro t
  obtain ⟨r, t', h, hr⟩ := h t
  obtain ⟨v, rfl⟩ := Option.isSome_iff_exists.mp (hr (by rw [hty]; rfl))
  exact ⟨v, t', runs_valueOf.mpr h⟩

theorem Returns.condition {e : Expr} {act : Lower (Option Ir.Expr)}
    (h : Returns (!e.ty.isVoid) act) (hty : e.ty.isVoid = false) : Total (conditionOf e act) := by
  refine total_bind (h.value hty) fun v t => ?_
  obtain ⟨c, hc⟩ := exists_truthOf hty v
  exact ⟨c, t, runs_lift.mpr ⟨hc, rfl⟩⟩

theorem total_buffered {act : Lower α} (h : Total act) : Total (buffered act) := by
  intro t
  obtain ⟨a, t', h⟩ := h { t with cmds := [] }
  exact ⟨(a, t'.cmds), _, runs_buffered.mpr ⟨t', h, rfl, rfl⟩⟩

theorem total_irTy {ty : Ty} (h : ty.isVoid = false) (span : Span) :
    Total (liftM (irTy ty span) : Lower Ir.Ty) := by
  intro t
  obtain ⟨ity, hity⟩ := exists_irTy h span
  exact ⟨ity, t, runs_lift.mpr ⟨hity, rfl⟩⟩

theorem total_freshLocal (stem : String) (ty : Ir.Ty) : Total (freshLocal stem ty) :=
  total_modifyGet _

theorem returns_finishCall (method : MethodRef) (args : List Ir.Expr) (ty : Ty) :
    Returns (!ty.isVoid) (finishCall env method args ty) := by
  unfold finishCall
  by_cases hv : ty.isVoid = true
  · rw [if_pos hv, hv]
    refine .bind (total_emitCall _ _ _) fun _ t => ?_
    exact ⟨none, t, runs_pure.mpr ⟨rfl, rfl⟩, nofun⟩
  · rw [if_neg hv]
    rw [Bool.not_eq_true] at hv
    exact .bind (total_irTy hv _) fun _ => .bind (total_freshLocal _ _) fun _ =>
      .bind (total_emitCall _ _ _) fun _ => .some _

theorem total_finishBinary (op : BinOp) {lhs : Expr} (h : lhs.ty.isVoid = false)
    (left right : Ir.Expr) (cmds : List Ir.Cmd) : Total (finishBinary op lhs left right cmds) := by
  unfold finishBinary
  by_cases hcs : cmds.isEmpty = true
  · rw [if_pos hcs]
    exact total_pure _
  rw [if_neg hcs]
  cases op with
  | and | or =>
    exact total_bind (total_freshLocal _ _) fun _ => total_bind (total_emit _) fun _ =>
      total_bind (total_emit _) fun _ => total_pure _
  | _ =>
    exact total_bind (total_irTy h _) fun _ => total_bind (total_freshLocal _ _) fun _ =>
      total_bind (total_emit _) fun _ => total_bind (total_emitAll _) fun _ => total_pure _

theorem total_finishConditional {ty : Ty} (h : ty.isVoid = false) (span : Span) (cond : Ir.Expr)
    (thenPart elsePart : Ir.Expr × List Ir.Cmd) :
    Total (finishConditional ty span cond thenPart elsePart) := by
  unfold finishConditional
  by_cases hcs : (thenPart.2.isEmpty && elsePart.2.isEmpty) = true
  · rw [if_pos hcs]
    exact total_pure _
  · rw [if_neg hcs]
    exact total_bind (total_irTy h _) fun _ => total_bind (total_freshLocal _ _) fun _ =>
      total_bind (total_emit _) fun _ => total_pure _

theorem total_alloc (type : TypeRef) : Total (alloc type) :=
  total_bind (total_freshLocal _ _) fun _ => total_bind (total_emit _) fun _ => total_pure _

theorem total_defaultValue {ty : Ty} (h : ty.isVoid = false) (span : Span) :
    Total (defaultValue env ty span) := by
  unfold defaultValue
  cases ty with
  | void => cases h
  | bool | int => exact total_pure _
  | named t =>
    dsimp only
    split
    · exact total_alloc t
    · exact total_pure _

end

/-! ## Expressions -/

section

variable {Γ : Signature} {env : Env}

mutual

/-- A well-typed expression is accepted, and has a value unless it is void. -/
theorem lowerExpr_returns (e : Expr) (compound : Bool) (ht : e.wellTyped Γ = true)
    (hst : e.steady compound = true) : Returns (!e.ty.isVoid) (lowerExpr env e compound) := by
  obtain ⟨id, span, ty, kind⟩ := e
  cases kind with
  | literal | var | self | typeOf =>
    rw [lowerExpr]
    exact .some _
  | field object f =>
    simp only [Expr.wellTyped, Bool.and_eq_true] at ht
    cases object with
    | none =>
      rw [lowerExpr]
      exact .some _
    | some object =>
      simp only [optionTyped, Bool.and_eq_true, Bool.not_eq_true'] at ht
      rw [lowerExpr]
      exact .bind ((lowerExpr_returns object false ht.1.1 hst).value ht.1.2) fun _ => .some _
  | unary op operand =>
    simp only [Expr.wellTyped, Bool.and_eq_true] at ht
    rw [lowerExpr]
    exact .bind ((lowerExpr_returns operand false ht.1 hst).value (UnOp.not_void ht.2))
      fun _ => .some _
  | getType operand =>
    simp only [Expr.wellTyped, Bool.and_eq_true, Bool.not_eq_true'] at ht
    rw [lowerExpr]
    exact .bind ((lowerExpr_returns operand false ht.1 hst).value ht.2.1) fun _ => .some _
  | conversion operand newTy =>
    simp only [Expr.wellTyped, Bool.and_eq_true] at ht
    rw [lowerExpr]
    exact .bind ((lowerExpr_returns operand false ht.1 hst).value (Ty.converts_iff.mp ht.2.1).1)
      fun _ => .some _
  | binary op lhs rhs =>
    simp only [Expr.wellTyped, Bool.and_eq_true] at ht
    obtain ⟨hlhs, hrhs, hop, -⟩ := ht
    obtain ⟨hl, hr⟩ := BinOp.not_void hop
    by_cases htar : lhs.isTarget
    · obtain ⟨i, sp, lty, lhsKind⟩ := lhs
      cases lhsKind with
      | target target =>
        simp only [Expr.wellTyped, Bool.and_eq_true] at hlhs
        simp only [Expr.steady, Bool.and_eq_true] at hst
        obtain ⟨rfl, hfixed, hstr, -⟩ := hst
        have hstt := Target.steady_of_isStill target (Bool.and_eq_true_iff.mp hfixed).1
        rw [lowerExpr]
        simp only [if_true]
        exact .bind (readTarget_total target hlhs.1 hstt) fun _ =>
          .bind ((lowerExpr_returns rhs false hrhs hstr).value hr) fun _ =>
          .bind (writeTarget_total target hlhs.1 hstt _) fun _ =>
          .of_total (readTarget_total target hlhs.1 hstt)
      | _ => cases htar
    · rw [Bool.not_eq_true] at htar
      rw [Expr.steady_binary htar, Bool.and_eq_true] at hst
      rw [lowerExpr_binary env htar]
      exact .bind ((lowerExpr_returns lhs false hlhs hst.1).value hl) fun _ =>
        .bind (total_buffered ((lowerExpr_returns rhs false hrhs hst.2).value hr)) fun _ =>
        .of_total (total_finishBinary op hl _ _ _)
  | conditional cond thenExpr elseExpr =>
    simp only [Expr.wellTyped, Bool.and_eq_true, Bool.not_eq_true'] at ht
    obtain ⟨hcond, hthen, helse, hc, hthenTy, helseTy⟩ := ht
    simp only [Expr.steady, Bool.and_eq_true] at hst
    rw [lowerExpr]
    exact .bind ((lowerExpr_returns cond false hcond hst.1).condition hc) fun _ =>
      .bind (total_buffered ((lowerExpr_returns thenExpr false hthen hst.2.1).value
        (Ty.suits_iff.mp hthenTy).1)) fun _ =>
      .bind (total_buffered ((lowerExpr_returns elseExpr false helse hst.2.2).value
        (Ty.suits_iff.mp helseTy).1)) fun _ =>
      .of_total (total_finishConditional (Ty.suits_right hthenTy) _ _ _ _)
  | assign target value =>
    simp only [Expr.wellTyped, Bool.and_eq_true] at ht
    obtain ⟨htarget, hvalue, hty⟩ := ht
    obtain ⟨tt, -, hty⟩ := (Option.any_eq_true _ _).mp hty
    rw [Bool.and_eq_true] at hty
    simp only [Expr.steady, Bool.and_eq_true] at hst
    have hstt := Target.steady_of_isStill target (Bool.and_eq_true_iff.mp hst.1).1
    rw [lowerExpr]
    exact .bind ((lowerExpr_returns value false hvalue hst.2.1).value (Ty.suits_iff.mp hty.1).1)
      fun _ => .bind (writeTarget_total target htarget hstt _) fun _ =>
        .of_total (readTarget_total target htarget hstt)
  | target target =>
    simp only [Expr.wellTyped, Bool.and_eq_true] at ht
    rw [lowerExpr]
    exact .of_total (readTarget_total target ht.1 hst)
  | call call =>
    obtain ⟨method, receiver, args, isVirtual⟩ := call
    simp only [Expr.wellTyped, Bool.and_eq_true] at ht
    simp only [Expr.steady, Bool.and_eq_true] at hst
    rw [lowerExpr]
    refine .bind (lowerOption_total receiver ht.1 hst.1) fun _ => ?_
    exact .bind (lowerArgs_total args ht.2.1 hst.2.1) fun _ => returns_finishCall _ _ _
  | new type ctor args =>
    simp only [Expr.wellTyped, Bool.and_eq_true] at ht
    simp only [Expr.steady, Bool.and_eq_true] at hst
    rw [lowerExpr]
    exact .bind (lowerArgs_total args ht.1 hst.1) fun _ => .of_total (total_finishNew _ _ _)
  | defaultValue valueTy =>
    rw [lowerExpr]
    exact .of_total (total_defaultValue (Ty.suits_iff.mp ht).1 _)
  | pop => cases ht

theorem readTarget_total (target : Target) (ht : target.wellTyped Γ = true)
    (hst : target.steady = true) : Total (readTarget env target) := by
  cases target with
  | var name =>
    rw [readTarget]
    exact total_pure _
  | field object f =>
    cases object with
    | none =>
      rw [readTarget]
      exact total_pure _
    | some object =>
      simp only [Target.wellTyped, optionTyped, Bool.and_eq_true, Bool.not_eq_true'] at ht
      rw [readTarget]
      exact total_bind ((lowerExpr_returns object false ht.1 hst).value ht.2) fun _ => total_pure _

theorem writeTarget_total (target : Target) (ht : target.wellTyped Γ = true)
    (hst : target.steady = true) (v : Ir.Expr) : Total (writeTarget env target v) := by
  cases target with
  | var name =>
    rw [writeTarget]
    exact total_emit _
  | field object f =>
    cases object with
    | none =>
      rw [writeTarget]
      exact total_emit _
    | some object =>
      simp only [Target.wellTyped, optionTyped, Bool.and_eq_true, Bool.not_eq_true'] at ht
      rw [writeTarget]
      exact total_bind ((lowerExpr_returns object false ht.1 hst).value ht.2) fun _ => total_emit _

theorem lowerOption_total (e : Option Expr) (ht : optionTyped Γ e = true)
    (hst : steadyOption e = true) : Total (lowerOption env e) := by
  cases e with
  | none =>
    rw [lowerOption]
    exact total_pure _
  | some e =>
    simp only [optionTyped, Bool.and_eq_true, Bool.not_eq_true'] at ht
    rw [lowerOption]
    exact total_bind ((lowerExpr_returns e false ht.1 hst).value ht.2) fun _ => total_pure _

theorem lowerArgs_total (es : List Expr) (ht : allTyped Γ es = true) (hst : steadyAll es = true) :
    Total (lowerArgs env es) := by
  cases es with
  | nil =>
    rw [lowerArgs]
    exact total_pure _
  | cons e es =>
    simp only [allTyped, Bool.and_eq_true, Bool.not_eq_true'] at ht
    rw [steadyAll, Bool.and_eq_true] at hst
    rw [lowerArgs]
    exact total_bind ((lowerExpr_returns e false ht.1.1 hst.1).value ht.1.2) fun _ =>
      total_bind (lowerArgs_total es ht.2 hst.2) fun _ => total_pure _

end

end

end Unwind.Lowering
