import Unwind.Proofs.Evaluation.Effects
import Unwind.Proofs.Lowering.Expressions

/-!
# Expressions without commands

An expression that is lowered without commands changes nothing when it is evaluated. This is why a
test whether a list of commands is empty is enough to tell which operands have to be kept in
variables.
-/

namespace Unwind.Lowering

open Source
open Ir (Cmd)

/-! ## Steps without commands -/

/-- Commands may have been emitted between the two states; when there are none, `P` holds. -/
def Silently (P : Prop) (t t' : State) : Prop := ∃ cs, t'.cmds = t.cmds ++ cs ∧ (cs = [] → P)

namespace Silently

variable {P Q : Prop} {t t₁ t' : State} {u : Unit} {env : Env}

theorem of_cmds (hP : P) (h : t'.cmds = t.cmds) : Silently P t t' :=
  ⟨[], by rw [h, List.append_nil], fun _ => hP⟩

theorem refl (hP : P) (t : State) : Silently P t t := of_cmds hP rfl

theorem imp (h : Silently P t t') (hPQ : P → Q) : Silently Q t t' := by
  obtain ⟨cs, hcs, hP⟩ := h
  exact ⟨cs, hcs, fun he => hPQ (hP he)⟩

theorem trans (h : Silently P t t₁) (h' : Silently Q t₁ t') : Silently (P ∧ Q) t t' := by
  obtain ⟨cs, hcs, hP⟩ := h
  obtain ⟨cs', hcs', hQ⟩ := h'
  refine ⟨cs ++ cs', by rw [hcs', hcs, List.append_assoc], fun he => ?_⟩
  rw [List.append_eq_nil_iff] at he
  exact ⟨hP he.1, hQ he.2⟩

/-- A command was emitted, so that nothing is left to show. -/
theorem emit {c : Cmd} (h : Runs (Lowering.emit c) t u t') : Silently P t t' := by
  rw [runs_emit] at h
  subst h
  exact ⟨[c], rfl, nofun⟩

theorem emitAll {cs : List Cmd} (h : Runs (Lowering.emitAll cs) t u t') :
    Silently (cs = []) t t' := by
  rw [runs_emitAll] at h
  subst h
  exact ⟨cs, rfl, id⟩

theorem freshLocal {stem : String} {ty : Ir.Ty} {x : String}
    (h : Runs (Lowering.freshLocal stem ty) t x t') : Silently True t t' := by
  rw [Lowering.freshLocal, withContext, runs_modifyGet] at h
  cases h
  exact of_cmds trivial rfl

/-- The commands of a part that is lowered aside; they are not emitted yet. -/
theorem buffered {act : Lower Ir.Expr} {part : Ir.Expr × List Cmd}
    (hact : ∀ {t t' v}, Runs act t v t' → Silently P t t')
    (h : Runs (Lowering.buffered act) t part t') : t'.cmds = t.cmds ∧ (part.2 = [] → P) := by
  obtain ⟨t₁, h₁, hcs, rfl⟩ := runs_buffered.mp h
  obtain ⟨cs, hcs', hP⟩ := hact h₁
  exact ⟨rfl, fun he => hP (by rw [← he, hcs, hcs']; rfl)⟩

theorem alloc {type : TypeRef} {v : Ir.Expr} (h : Runs (Lowering.alloc type) t v t') :
    Silently P t t' := by
  simp only [Lowering.alloc, runs_bind, runs_pure] at h
  obtain ⟨x, t₁, h₁, _, t₂, h₂, -, rfl⟩ := h
  exact ((freshLocal h₁).trans (emit (P := P) h₂)).imp And.right

theorem emitCall {method : MethodRef} {args : List Ir.Expr} {outs : List String}
    (h : Runs (Lowering.emitCall env method args outs) t u t') : Silently P t t' := by
  obtain ⟨_, t₁, h₁, h₂⟩ := runs_bind.mp h
  by_cases hm : env.options.modelsExceptions = true
  · rw [if_pos hm] at h₂
    obtain ⟨tests, t₂, h₂, h₃⟩ := runs_bind.mp h₂
    have hsame : t₂.cmds = t₁.cmds := by
      obtain ⟨_, -, -, rfl⟩ := runs_commandsOf.mp h₂
      rfl
    exact ((emit (P := P) h₁).trans ((of_cmds trivial hsame).trans (emit (P := P) h₃))).imp And.left
  · rw [if_neg hm, runs_pure] at h₂
    rw [h₂.2]
    exact emit h₁

theorem finishCall {method : MethodRef} {args : List Ir.Expr} {ty : Ty} {r : Option Ir.Expr}
    (h : Runs (Lowering.finishCall env method args ty) t r t') : Silently P t t' := by
  unfold Lowering.finishCall at h
  by_cases hv : ty.isVoid = true
  · simp only [if_pos hv, runs_bind, runs_pure] at h
    obtain ⟨_, t₁, h₁, -, rfl⟩ := h
    exact emitCall h₁
  · simp only [if_neg hv, runs_bind, runs_lift, runs_pure] at h
    obtain ⟨_, t₀, ⟨-, rfl⟩, x, t₁, h₁, _, t₂, h₂, -, rfl⟩ := h
    exact ((freshLocal h₁).trans (emitCall (P := P) h₂)).imp And.right

theorem finishNew {type : TypeRef} {ctor : Option MethodRef} {args : List Ir.Expr} {v : Ir.Expr}
    (h : Runs (Lowering.finishNew env type ctor args) t v t') : Silently P t t' := by
  simp only [Lowering.finishNew, runs_bind] at h
  obtain ⟨object, t₁, h₁, h₂⟩ := h
  cases ctor with
  | none =>
    simp only [runs_pure] at h₂
    rw [h₂.2]
    exact alloc h₁
  | some method =>
    simp only [runs_bind, runs_pure] at h₂
    obtain ⟨_, t₂, h₂, -, rfl⟩ := h₂
    exact ((alloc (P := P) h₁).trans (emitCall (P := P) h₂)).imp And.left

theorem defaultValue {ty : Ty} {span : Span} {v : Ir.Expr}
    (h : Runs (Lowering.defaultValue env ty span) t v t') : Silently True t t' := by
  unfold Lowering.defaultValue at h
  cases ty with
  | void => exact absurd h not_runs_throw
  | bool | int =>
    rw [(runs_pure.mp h).2]
    exact refl trivial t
  | named type =>
    dsimp only at h
    split at h
    · exact alloc h
    · rw [(runs_pure.mp h).2]
      exact refl trivial t

theorem popOperand {v : Ir.Expr} (h : Runs Lowering.popOperand t v t') : Silently True t t' := by
  obtain ⟨cx, t₁, h₁, h₂⟩ := runs_bind.mp h
  obtain ⟨rfl, rfl⟩ := runs_context.mp h₁
  split at h₂
  · obtain ⟨_, t₂, h₂, h₃⟩ := runs_bind.mp h₂
    rw [changeContext, runs_modify] at h₂
    obtain ⟨-, rfl⟩ := runs_pure.mp h₃
    subst h₂
    exact of_cmds trivial rfl
  · exact absurd h₂ not_runs_throw

/-- The commands of the right operand find their place behind the left one. -/
theorem finishBinary {op : BinOp} {lhs : Expr} {left right v : Ir.Expr} {cs : List Cmd}
    (h : Runs (Lowering.finishBinary op lhs left right cs) t v t') : Silently (cs = []) t t' := by
  unfold Lowering.finishBinary at h
  by_cases hcs : cs.isEmpty = true
  · rw [if_pos hcs, runs_pure] at h
    rw [h.2]
    exact refl (List.isEmpty_iff.mp hcs) t
  rw [if_neg hcs] at h
  cases op with
  | and | or =>
    simp only [runs_bind, runs_pure] at h
    obtain ⟨x, t₁, h₁, _, t₂, h₂, _, t₃, h₃, -, rfl⟩ := h
    exact ((freshLocal h₁).trans ((emit (P := cs = []) h₂).trans (emit (P := True) h₃))).imp
      fun h => h.2.1
  | _ =>
    simp only [runs_bind, runs_lift, runs_pure] at h
    obtain ⟨_, t₀, ⟨-, rfl⟩, x, t₁, h₁, _, t₂, h₂, _, t₃, h₃, -, rfl⟩ := h
    exact ((freshLocal h₁).trans ((emit (P := True) h₂).trans (emitAll h₃))).imp fun h => h.2.2

theorem finishConditional {ty : Ty} {span : Span} {cond v : Ir.Expr}
    {thenPart elsePart : Ir.Expr × List Cmd}
    (h : Runs (Lowering.finishConditional ty span cond thenPart elsePart) t v t') :
    Silently (thenPart.2 = [] ∧ elsePart.2 = []) t t' := by
  unfold Lowering.finishConditional at h
  by_cases hcs : (thenPart.2.isEmpty && elsePart.2.isEmpty) = true
  · rw [if_pos hcs, runs_pure] at h
    rw [h.2]
    rw [Bool.and_eq_true, List.isEmpty_iff, List.isEmpty_iff] at hcs
    exact refl hcs t
  · simp only [if_neg hcs, runs_bind, runs_lift, runs_pure] at h
    obtain ⟨_, t₀, ⟨-, rfl⟩, x, t₁, h₁, _, t₂, h₂, -, rfl⟩ := h
    exact ((freshLocal h₁).trans (emit (P := thenPart.2 = [] ∧ elsePart.2 = []) h₂)).imp And.right

end Silently

/-! ## Expressions -/

theorem Area.union_empty {a b : Area} (h : a = {} ∧ b = {}) : a ∪ b = {} := by
  rw [h.1, h.2]
  rfl

variable {env : Env}

mutual

/-- An expression that is lowered without commands writes nothing. -/
theorem lowerExpr_silently (e : Expr) (compound : Bool) {t t' : State} {r : Option Ir.Expr}
    (h : Runs (lowerExpr env e compound) t r t') : Silently (e.writes = {}) t t' := by
  obtain ⟨id, span, ty, kind⟩ := e
  cases kind with
  | literal | var | self | typeOf =>
    simp only [lowerExpr, runs_pure] at h
    rw [h.2]
    exact .refl rfl t
  | field object f =>
    cases object with
    | none =>
      simp only [lowerExpr, runs_pure] at h
      rw [h.2]
      exact .refl rfl t
    | some object =>
      simp only [lowerExpr, runs_bind, runs_pure, runs_valueOf] at h
      obtain ⟨v, t₁, h₁, -, rfl⟩ := h
      exact lowerExpr_silently object false h₁
  | unary op operand | getType operand | conversion operand newTy =>
    simp only [lowerExpr, runs_bind, runs_pure, runs_valueOf] at h
    obtain ⟨v, t₁, h₁, -, rfl⟩ := h
    exact lowerExpr_silently operand false h₁
  | binary op lhs rhs =>
    by_cases htar : lhs.isTarget
    · obtain ⟨i, sp, lty, lhsKind⟩ := lhs
      cases lhsKind with
      | target target =>
        cases compound with
        | false =>
          rw [lowerExpr, if_neg Bool.false_ne_true, runs_bind] at h
          obtain ⟨_, t₁, h₁, -⟩ := h
          exact absurd h₁ not_runs_throw
        | true =>
          simp only [lowerExpr, if_true, runs_bind, runs_pure, runs_valueOf] at h
          obtain ⟨cur, t₁, h₁, v, t₂, h₂, _, t₃, h₃, y, t₄, h₄, -, rfl⟩ := h
          have hrest := (writeTarget_emits target h₃).trans (readTarget_silently target h₄)
          exact ((readTarget_silently target h₁).trans
            ((lowerExpr_silently rhs false h₂).trans hrest)).imp fun h => h.2.2.1.elim
      | _ => cases htar
    · rw [Bool.not_eq_true] at htar
      simp only [lowerExpr_binary env htar, runs_bind, runs_pure, runs_valueOf] at h
      obtain ⟨left, t₁, h₁, part, t₂, h₂, v, t₃, h₃, -, rfl⟩ := h
      obtain ⟨hsame, hpart⟩ := Silently.buffered
        (fun h => lowerExpr_silently rhs false (runs_valueOf.mp h)) h₂
      have hright := (Silently.of_cmds trivial hsame).trans (.finishBinary h₃)
      rw [Expr.writes_binary htar]
      exact ((lowerExpr_silently lhs false h₁).trans hright).imp fun h =>
        Area.union_empty ⟨h.1, hpart h.2.2⟩
  | conditional cond thenExpr elseExpr =>
    simp only [lowerExpr, runs_bind, runs_pure, runs_conditionOf] at h
    obtain ⟨c, t₁, ⟨cv, h₁, -⟩, a, t₂, h₂, b, t₃, h₃, v, t₄, h₄, -, rfl⟩ := h
    obtain ⟨hsame₂, hthen⟩ := Silently.buffered
      (fun h => lowerExpr_silently thenExpr false (runs_valueOf.mp h)) h₂
    obtain ⟨hsame₃, helse⟩ := Silently.buffered
      (fun h => lowerExpr_silently elseExpr false (runs_valueOf.mp h)) h₃
    have hbranches := (Silently.of_cmds trivial (hsame₃.trans hsame₂)).trans (.finishConditional h₄)
    exact ((lowerExpr_silently cond false h₁).trans hbranches).imp fun h =>
      Area.union_empty ⟨h.1, Area.union_empty ⟨hthen h.2.2.1, helse h.2.2.2⟩⟩
  | assign target value =>
    simp only [lowerExpr, runs_bind, runs_pure, runs_valueOf] at h
    obtain ⟨v, t₁, h₁, _, t₂, h₂, y, t₃, h₃, -, rfl⟩ := h
    have hrest := (writeTarget_emits target h₂).trans (readTarget_silently target h₃)
    exact ((lowerExpr_silently value false h₁).trans hrest).imp fun h => h.2.1.elim
  | target target =>
    simp only [lowerExpr, runs_bind, runs_pure] at h
    obtain ⟨v, t₁, h₁, -, rfl⟩ := h
    exact readTarget_silently target h₁
  | call call =>
    obtain ⟨method, receiver, args, isVirtual⟩ := call
    simp only [lowerExpr, runs_bind] at h
    obtain ⟨o, t₁, h₁, rs, t₂, h₂, h₃⟩ := h
    have hoperands := (lowerOption_silently receiver h₁).trans (lowerArgs_silently args h₂)
    exact (hoperands.trans (.finishCall (P := False) h₃)).imp fun h => h.2.elim
  | new type ctor args =>
    simp only [lowerExpr, runs_bind, runs_pure] at h
    obtain ⟨rs, t₁, h₁, v, t₂, h₂, -, rfl⟩ := h
    exact ((lowerArgs_silently args h₁).trans (.finishNew (P := False) h₂)).imp fun h => h.2.elim
  | defaultValue valueTy =>
    simp only [lowerExpr, runs_bind, runs_pure] at h
    obtain ⟨v, t₁, h₁, -, rfl⟩ := h
    exact (Silently.defaultValue h₁).imp fun _ => rfl
  | pop =>
    simp only [lowerExpr, runs_bind, runs_pure] at h
    obtain ⟨v, t₁, h₁, -, rfl⟩ := h
    exact (Silently.popOperand h₁).imp fun _ => rfl

theorem readTarget_silently (target : Target) {t t' : State} {v : Ir.Expr}
    (h : Runs (readTarget env target) t v t') : Silently (target.objectWrites = {}) t t' := by
  cases target with
  | var name =>
    simp only [readTarget, runs_pure] at h
    rw [h.2]
    exact .refl rfl t
  | field object f =>
    cases object with
    | none =>
      simp only [readTarget, runs_pure] at h
      rw [h.2]
      exact .refl rfl t
    | some object =>
      simp only [readTarget, runs_bind, runs_pure, runs_valueOf] at h
      obtain ⟨o, t₁, h₁, -, rfl⟩ := h
      exact lowerExpr_silently object false h₁

/-- A place is not written without a command. -/
theorem writeTarget_emits (target : Target) {t t' : State} {v : Ir.Expr} {u : Unit}
    (h : Runs (writeTarget env target v) t u t') : Silently False t t' := by
  cases target with
  | var name =>
    rw [writeTarget] at h
    exact .emit h
  | field object f =>
    cases object with
    | none =>
      rw [writeTarget] at h
      exact .emit h
    | some object =>
      simp only [writeTarget, runs_bind, runs_valueOf] at h
      obtain ⟨o, t₁, h₁, h₂⟩ := h
      exact ((lowerExpr_silently object false h₁).trans (.emit (P := False) h₂)).imp And.right

theorem lowerOption_silently (e : Option Expr) {t t' : State} {r : Option Ir.Expr}
    (h : Runs (lowerOption env e) t r t') : Silently (writesOption e = {}) t t' := by
  cases e with
  | none =>
    simp only [lowerOption, runs_pure] at h
    rw [h.2]
    exact .refl rfl t
  | some e =>
    simp only [lowerOption, runs_bind, runs_pure, runs_valueOf] at h
    obtain ⟨v, t₁, h₁, -, rfl⟩ := h
    exact lowerExpr_silently e false h₁

theorem lowerArgs_silently (es : List Expr) {t t' : State} {rs : List Ir.Expr}
    (h : Runs (lowerArgs env es) t rs t') : Silently (writesAll es = {}) t t' := by
  cases es with
  | nil =>
    simp only [lowerArgs, runs_pure] at h
    rw [h.2]
    exact .refl rfl t
  | cons e es =>
    simp only [lowerArgs, runs_bind, runs_pure, runs_valueOf] at h
    obtain ⟨v, t₁, h₁, vs, t₂, h₂, -, rfl⟩ := h
    exact ((lowerExpr_silently e false h₁).trans (lowerArgs_silently es h₂)).imp Area.union_empty

end

end Unwind.Lowering
