import Unwind.Proofs.Dispatch.Nodes
import Unwind.Proofs.Operands.Steps

/-!
# What an expression takes from the operands

An expression takes one operand for every `pop` that is reached when it is lowered (`popNodes`). The
object of a field that is assigned is lowered again to read the field back, so that a `pop` in it
counts as often. Whether an expression can be lowered at all depends on its syntax only
(`Admissible`), apart from the number of operands (`lowerExpr_draws`).
-/

namespace Unwind

namespace Source

/-! ## Pops and admissible expressions -/

mutual

/-- The `pop`s of an expression in the order in which they are lowered. -/
def Expr.popNodes : Expr → List Expr
  | ⟨id, span, ty, kind⟩ =>
    match kind with
    | .pop => [⟨id, span, ty, .pop⟩]
    | .field object _ => popNodesInOption object
    | .unary _ e | .getType e | .conversion e _ => e.popNodes
    | .binary _ lhs rhs =>
      lhs.popNodes ++ (rhs.popNodes ++ if lhs.isTarget then lhs.popNodes ++ lhs.popNodes else [])
    | .conditional cond thenExpr elseExpr =>
      cond.popNodes ++ (thenExpr.popNodes ++ elseExpr.popNodes)
    | .assign target value => value.popNodes ++ (target.popNodes ++ target.popNodes)
    | .target target => target.popNodes
    | .call ⟨_, receiver, args, _⟩ => popNodesInOption receiver ++ popNodesInAll args
    | .new _ _ args => popNodesInAll args
    | .literal _ | .var _ | .self | .typeOf _ | .defaultValue _ => []

def Target.popNodes : Target → List Expr
  | .var _ => []
  | .field object _ => popNodesInOption object

def popNodesInOption : Option Expr → List Expr
  | none => []
  | some e => e.popNodes

def popNodesInAll : List Expr → List Expr
  | [] => []
  | e :: es => e.popNodes ++ popNodesInAll es

end

mutual

/-- The expression can be lowered when there are operands enough: every part that is used as a value
has one, and a compound assignment stands where `compound` allows it. -/
def Expr.Admissible : Expr → Bool → Prop
  | ⟨_, _, _, kind⟩, compound =>
    match kind with
    | .field object _ => AdmissibleOption object
    | .unary _ e | .getType e | .conversion e _ => e.Admissible false ∧ e.ty.isVoid = false
    | .binary _ lhs rhs =>
      (lhs.isTarget = true → compound = true) ∧
        (lhs.Admissible false ∧ lhs.ty.isVoid = false) ∧
          rhs.Admissible false ∧ rhs.ty.isVoid = false
    | .conditional cond thenExpr elseExpr =>
      (cond.Admissible false ∧ cond.ty.isVoid = false) ∧
        (thenExpr.Admissible false ∧ thenExpr.ty.isVoid = false) ∧
        elseExpr.Admissible false ∧ elseExpr.ty.isVoid = false
    | .assign target value =>
      (value.Admissible false ∧ value.ty.isVoid = false) ∧ target.Admissible
    | .target target => target.Admissible
    | .call ⟨_, receiver, args, _⟩ => AdmissibleOption receiver ∧ AdmissibleAll args
    | .new _ _ args => AdmissibleAll args
    | .defaultValue ty => ty.isVoid = false
    | .literal _ | .var _ | .self | .typeOf _ | .pop => True

def Target.Admissible : Target → Prop
  | .var _ => True
  | .field object _ => AdmissibleOption object

def AdmissibleOption : Option Expr → Prop
  | none => True
  | some e => e.Admissible false ∧ e.ty.isVoid = false

def AdmissibleAll : List Expr → Prop
  | [] => True
  | e :: es => (e.Admissible false ∧ e.ty.isVoid = false) ∧ AdmissibleAll es

end

/-- The expression can be lowered to a value. -/
def Expr.Valued (e : Expr) : Prop := e.Admissible false ∧ e.ty.isVoid = false

/-- Only a call has the type `void`. -/
def Expr.CallIfVoid (e : Expr) : Prop := e.ty.isVoid = true → e.call?.isSome = true

instance (e : Expr) : Decidable e.CallIfVoid :=
  inferInstanceAs (Decidable (e.ty.isVoid = true → e.call?.isSome = true))

theorem Expr.CallIfVoid.not_void {e : Expr} (h : e.CallIfVoid) (hcall : e.call? = none) :
    e.ty.isVoid = false := by
  rw [← Bool.not_eq_true]
  intro hvoid
  have := h hvoid
  rw [hcall] at this
  cases this

section

variable {e : Expr} {call : Call}

theorem Expr.popNodes_of_call? (h : e.call? = some call) :
    e.popNodes = popNodesInOption call.receiver ++ popNodesInAll call.args := by
  obtain ⟨id, span, ty, kind⟩ := e
  obtain ⟨method, receiver, args, isVirtual⟩ := call
  cases kind <;> cases h
  rfl

theorem Expr.admissible_of_call? (h : e.call? = some call) (compound : Bool) :
    e.Admissible compound ↔ AdmissibleOption call.receiver ∧ AdmissibleAll call.args := by
  obtain ⟨id, span, ty, kind⟩ := e
  obtain ⟨method, receiver, args, isVirtual⟩ := call
  cases kind <;> cases h
  rfl

end

end Source

namespace Operands

open Lowering
open Source (BinOp Expr MethodRef Target Ty AdmissibleAll AdmissibleOption nodesInAll nodesInOption
  popNodesInAll popNodesInOption)

/-! ## The commands of each kind -/

namespace Draws

variable {env : Env}

theorem valueOf {e : Expr} {n : Nat} {ok : Prop} {act : Lower (Option Ir.Expr)}
    (h : Draws ok n (fun r => r.isSome = !e.ty.isVoid) act) :
    Draws (ok ∧ e.ty.isVoid = false) n (fun _ => True) (Lowering.valueOf e act) := by
  refine ⟨fun hok hlen => ?_, fun hrun => ?_⟩
  · obtain ⟨r, s', hrun⟩ := h.succeeds hok.1 hlen
    have hr := (h.drawn hrun).2.2
    rw [hok.2, Bool.not_false, Option.isSome_iff_exists] at hr
    obtain ⟨v, rfl⟩ := hr
    exact ⟨v, s', runs_valueOf.mpr hrun⟩
  · obtain ⟨hok, hd, hr⟩ := h.drawn (runs_valueOf.mp hrun)
    exact ⟨⟨hok, by simpa using hr.symm⟩, hd, trivial⟩

theorem conditionOf {e : Expr} {n : Nat} {ok : Prop} {act : Lower (Option Ir.Expr)}
    (h : Draws ok n (fun r => r.isSome = !e.ty.isVoid) act) :
    Draws (ok ∧ e.ty.isVoid = false) n (fun _ => True) (Lowering.conditionOf e act) := by
  refine h.valueOf.andThen fun v hok _ => .lift ?_
  obtain ⟨c, hc⟩ := exists_truthOf hok.2 v
  exact ⟨c, hc, trivial⟩

theorem irTy {ty : Ty} (h : ty.isVoid = false) (span : Span) :
    Idle (liftM (Lowering.irTy ty span) : Lower Ir.Ty) := by
  obtain ⟨ity, hity⟩ := exists_irTy h span
  exact .lift ⟨ity, hity, trivial⟩

theorem finishCall {method : MethodRef} {args : List Ir.Expr} {ty : Ty} :
    Draws True 0 (fun r => r.isSome = !ty.isVoid) (Lowering.finishCall env method args ty) := by
  unfold Lowering.finishCall
  cases hty : ty.isVoid with
  | true => exact emitCall.next fun _ => pure rfl
  | false =>
    exact (irTy hty {}).next fun _ => freshLocal.next fun _ => emitCall.next fun _ => pure rfl

theorem finishBinary {op : BinOp} {lhs : Expr} (h : lhs.ty.isVoid = false)
    {left right : Ir.Expr} {cmds : List Ir.Cmd} :
    Idle (Lowering.finishBinary op lhs left right cmds) := by
  refine ite (pure trivial) ?_
  cases op with
  | and | or => exact freshLocal.next fun _ => emit.next fun _ => emit.next fun _ => pure trivial
  | _ =>
    exact (irTy h _).next fun _ => freshLocal.next fun _ => emit.next fun _ =>
      emitAll.next fun _ => pure trivial

theorem finishConditional {ty : Ty} (h : ty.isVoid = false) {span : Span} {cond : Ir.Expr}
    {thenPart elsePart : Ir.Expr × List Ir.Cmd} :
    Idle (Lowering.finishConditional ty span cond thenPart elsePart) :=
  ite (pure trivial) ((irTy h span).next fun _ => freshLocal.next fun _ => emit.next fun _ =>
    pure trivial)

theorem defaultValue {ty : Ty} {span : Span} :
    Draws (ty.isVoid = false) 0 (fun _ => True) (Lowering.defaultValue env ty span) := by
  cases ty with
  | void => exact ⟨nofun, fun h => absurd h not_runs_throw⟩
  | bool | int => exact (pure trivial).congr (by simp [Ty.isVoid]) rfl
  | named t =>
    exact (ite alloc (pure trivial)).congr (by simp [Ty.isVoid]) rfl

theorem popOperand : Draws True 1 (fun _ => True) Lowering.popOperand := by
  refine ⟨fun {s} _ hlen => ?_, fun {s s' v} h => ?_⟩
  · cases hops : s.operands with
    | nil => simp [hops] at hlen
    | cons v ops =>
      refine ⟨v, { s with operands := ops }, runs_bind.mpr ⟨_, _, runs_context.mpr ⟨rfl, rfl⟩, ?_⟩⟩
      rw [hops]
      exact runs_bind.mpr ⟨(), _, runs_modify.mpr rfl, runs_pure.mpr ⟨rfl, rfl⟩⟩
  · obtain ⟨cx, s₁, h₁, h₂⟩ := runs_bind.mp h
    obtain ⟨rfl, hs₁⟩ := runs_context.mp h₁
    rw [hs₁] at h₂
    cases hops : s.operands with
    | nil =>
      rw [hops] at h₂
      exact absurd h₂ not_runs_throw
    | cons v ops =>
      rw [hops] at h₂
      obtain ⟨_, s₂, h₂, h₃⟩ := runs_bind.mp h₂
      obtain ⟨-, rfl⟩ := runs_pure.mp h₃
      rw [Lowering.changeContext, runs_modify] at h₂
      subst h₂
      exact ⟨trivial, ⟨by simp [hops], by simp [hops], rfl⟩, trivial⟩

/-- The value is made of the result of the step. -/
theorem value {α : Type} {ty : Ty} {n : Nat} {ok : Prop} {act : Lower α} {f : α → Ir.Expr}
    (h : Draws ok n (fun _ => True) act) (hty : ty.isVoid = false) :
    Draws ok n (fun r => r.isSome = !ty.isVoid) (do return Option.some (f (← act))) :=
  h.andThen fun _ _ _ => pure (by rw [hty]; rfl)

end Draws

/-! ## Expressions -/

section

variable {env : Env}

mutual

/-- An expression takes as many operands as it has `pop`s. It is lowered when it is admissible and
these are there, and has a value unless it is void. -/
theorem lowerExpr_draws (e : Expr) (compound : Bool) (he : ∀ n ∈ e.nodes, n.CallIfVoid) :
    Draws (e.Admissible compound) e.popNodes.length (fun r => r.isSome = !e.ty.isVoid)
      (lowerExpr env e compound) := by
  obtain ⟨id, span, ty, kind⟩ := e
  obtain ⟨hown, hin⟩ := List.forall_mem_cons.mp he
  cases kind with
  | literal | var | self | typeOf =>
    rw [lowerExpr]
    exact .pure (by rw [hown.not_void rfl]; rfl)
  | field object field =>
    have hty := hown.not_void rfl
    cases object with
    | none =>
      rw [lowerExpr]
      exact .pure (by rw [hty]; rfl)
    | some object =>
      rw [lowerExpr]
      exact (lowerExpr_draws object false hin).valueOf.value hty
  | unary op e =>
    rw [lowerExpr]
    exact (lowerExpr_draws e false hin).valueOf.value (hown.not_void rfl)
  | getType e =>
    rw [lowerExpr]
    exact (lowerExpr_draws e false hin).valueOf.value (hown.not_void rfl)
  | conversion e newTy =>
    rw [lowerExpr]
    exact (lowerExpr_draws e false hin).valueOf.value (hown.not_void rfl)
  | target target =>
    rw [lowerExpr]
    exact (readTarget_draws target hin).value (hown.not_void rfl)
  | defaultValue valueTy =>
    rw [lowerExpr]
    exact Draws.defaultValue.value (hown.not_void rfl)
  | pop =>
    rw [lowerExpr]
    exact Draws.popOperand.value (hown.not_void rfl)
  | binary op lhs rhs =>
    obtain ⟨hl, hr⟩ := List.forall_mem_append.mp hin
    have hty := hown.not_void rfl
    cases htarget : lhs.isTarget with
    | false =>
      rw [lowerExpr_binary env htarget]
      refine Draws.congr (Draws.bind (lowerExpr_draws lhs false hl).valueOf fun left hok _ =>
        (lowerExpr_draws rhs false hr).valueOf.buffered.andThen fun right _ _ =>
          (Draws.finishBinary hok.2).value hty) ?_ ?_
      · simp [Expr.Admissible, htarget]
      · simp [Expr.popNodes, htarget]
    | true =>
      obtain ⟨lid, lspan, lty, lkind⟩ := lhs
      cases lkind with
      | target target =>
        obtain ⟨hlown, hl⟩ := List.forall_mem_cons.mp hl
        have hlty : lty.isVoid = false := hlown.not_void rfl
        rw [lowerExpr]
        cases compound with
        | false =>
          simp only [Bool.false_eq_true, if_false]
          exact .refused fun h => absurd (h.1 rfl) (by decide)
        | true =>
          refine Draws.congr (Draws.bind (readTarget_draws target hl) fun current _ _ =>
            Draws.bind (lowerExpr_draws rhs false hr).valueOf fun _ _ _ =>
              Draws.bind (writeTarget_draws target hl _) fun _ _ _ =>
                (readTarget_draws target hl).value hty) ?_ ?_
          · simp [Expr.Admissible, Expr.isTarget, hlty]
            tauto
          · simp [Expr.popNodes, Expr.isTarget]
      | _ => cases htarget
  | conditional cond thenExpr elseExpr =>
    obtain ⟨hc, hte⟩ := List.forall_mem_append.mp hin
    obtain ⟨ht, he⟩ := List.forall_mem_append.mp hte
    rw [lowerExpr]
    refine Draws.congr (Draws.bind (lowerExpr_draws cond false hc).conditionOf fun _ _ _ =>
      Draws.bind (lowerExpr_draws thenExpr false ht).valueOf.buffered fun _ _ _ =>
        (lowerExpr_draws elseExpr false he).valueOf.buffered.andThen fun _ _ _ =>
          (Draws.finishConditional (hown.not_void rfl)).value (hown.not_void rfl)) Iff.rfl ?_
    simp [Expr.popNodes]
  | assign target value =>
    obtain ⟨ht, hv⟩ := List.forall_mem_append.mp hin
    rw [lowerExpr]
    refine Draws.congr (Draws.bind (lowerExpr_draws value false hv).valueOf fun _ _ _ =>
      Draws.bind (writeTarget_draws target ht _) fun _ _ _ =>
        (readTarget_draws target ht).value (hown.not_void rfl)) ?_ ?_
    · simp [Expr.Admissible]
    · simp [Expr.popNodes]
  | call call =>
    obtain ⟨method, receiver, args, isVirtual⟩ := call
    obtain ⟨hr, ha⟩ := List.forall_mem_append.mp hin
    rw [lowerExpr]
    refine Draws.congr (Draws.bind (lowerOption_draws receiver hr) fun _ _ _ =>
      (lowerArgs_draws args ha).andThen fun _ _ _ => .finishCall) Iff.rfl ?_
    simp [Expr.popNodes]
  | new type ctor args =>
    rw [lowerExpr]
    exact (lowerArgs_draws args hin).andThen fun _ _ _ => Draws.finishNew.value (hown.not_void rfl)

theorem readTarget_draws (target : Target) (ht : ∀ n ∈ target.nodes, n.CallIfVoid) :
    Draws target.Admissible target.popNodes.length (fun _ => True) (readTarget env target) := by
  cases target with
  | var name =>
    rw [readTarget]
    exact .pure trivial
  | field object field =>
    cases object with
    | none =>
      rw [readTarget]
      exact .pure trivial
    | some object =>
      rw [readTarget]
      exact (lowerExpr_draws object false ht).valueOf.andThen fun _ _ _ => .pure trivial

theorem writeTarget_draws (target : Target) (ht : ∀ n ∈ target.nodes, n.CallIfVoid)
    (v : Ir.Expr) :
    Draws target.Admissible target.popNodes.length (fun _ => True) (writeTarget env target v) := by
  cases target with
  | var name =>
    rw [writeTarget]
    exact .emit
  | field object field =>
    cases object with
    | none =>
      rw [writeTarget]
      exact .emit
    | some object =>
      rw [writeTarget]
      exact (lowerExpr_draws object false ht).valueOf.andThen fun _ _ _ => .emit

theorem lowerOption_draws (e : Option Expr) (he : ∀ n ∈ nodesInOption e, n.CallIfVoid) :
    Draws (AdmissibleOption e) (popNodesInOption e).length (fun _ => True) (lowerOption env e) := by
  cases e with
  | none =>
    rw [lowerOption]
    exact .pure trivial
  | some e =>
    rw [lowerOption]
    exact (lowerExpr_draws e false he).valueOf.andThen fun _ _ _ => .pure trivial

theorem lowerArgs_draws (es : List Expr) (hes : ∀ n ∈ nodesInAll es, n.CallIfVoid) :
    Draws (AdmissibleAll es) (popNodesInAll es).length (fun _ => True) (lowerArgs env es) := by
  cases es with
  | nil =>
    rw [lowerArgs]
    exact .pure trivial
  | cons e es =>
    obtain ⟨he, hes⟩ := List.forall_mem_append.mp hes
    rw [lowerArgs]
    refine Draws.congr (Draws.bind (lowerExpr_draws e false he).valueOf fun _ _ _ =>
      (lowerArgs_draws es hes).andThen fun _ _ _ => .pure trivial) Iff.rfl ?_
    exact (List.length_append).symm

end

end

end Operands

end Unwind
