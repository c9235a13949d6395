import Unwind.Proofs.Marks.Tally

/-!
# What lowered expressions leave behind

The lowering of an expression emits no marks, and calls `$Alloc`, recorders, and the methods that
the expression calls.
-/

namespace Unwind.Lowering

open Ir (Cmd)
open Source (BinOp Expr MethodRef Target Ty TypeRef calleesInAll calleesInOption)

section

variable {P : MethodRef → Prop} {env : Env} {s s' : State}

/-! ## Leaving regions -/

theorem leaveNormally_leaves {region : Nat} : Leaves P 0 (leaveNormally region) :=
  Leaves.useLabelVar.andThen fun _ => (Leaves.emitPlain rfl rfl).andThen fun _ =>
    Leaves.finallyLabel.andThen fun _ => .emitPlain rfl rfl

theorem propagate_leaves : Leaves P 0 (propagate env) := by
  refine Leaves.context.andThen fun cx => ?_
  split
  · exact Leaves.record.andThen fun _ => .emitPlain rfl rfl
  · exact Leaves.catchLabel.andThen fun _ => .emitPlain rfl rfl
  · exact Leaves.useLabelVar.andThen fun _ => (Leaves.emitPlain rfl rfl).andThen fun _ =>
      Leaves.finallyLabel.andThen fun _ => .emitPlain rfl rfl
  · exact Leaves.continuationLabel.andThen fun _ => .emitPlain rfl rfl

theorem propagateIfAny_leaves : Leaves P 0 (propagateIfAny env) := by
  refine ⟨fun {s s' _} h => ?_⟩
  obtain ⟨cs, s₁, h₁, h₂⟩ := runs_bind.mp h
  have ho : Owes P 0 s.registry [] s s := .of_tallied (.of_eq rfl rfl)
  have hheld := ho.hold (propagate_leaves.held h₁)
  rw [List.nil_append, ← List.append_nil cs] at hheld
  exact (hheld.emitTest h₂).tallied

/-! ## Parts of expressions -/

/-- A call that fits. -/
theorem invoke_leaves {proc : String} {args : List Ir.Expr} {outs : List String}
    (h : ∀ r, CallFits P r (proc, args, outs)) : Leaves P 0 (emit (.invoke proc args outs)) := by
  refine .emit fun r => (Tally.nil r).snoc nofun (fun _ => rfl) fun _ call hcall => ?_
  rw [List.mem_singleton.mp hcall]
  exact h r

theorem valueOf_leaves {e : Expr} {x : Lower (Option Ir.Expr)} (h : Leaves P 0 x) :
    Leaves P 0 (valueOf e x) := by
  refine h.andThen fun r => ?_
  cases r with
  | some v => exact .pure
  | none => exact .throw

theorem conditionOf_leaves {e : Expr} {x : Lower (Option Ir.Expr)} (h : Leaves P 0 x) :
    Leaves P 0 (conditionOf e x) := (valueOf_leaves h).andThen fun _ => .lift

theorem alloc_leaves {type : TypeRef} : Leaves P 0 (alloc type) :=
  Leaves.freshLocal.andThen fun _ => (invoke_leaves fun _ => .alloc).andThen fun _ => .pure

theorem emitCall_leaves {m : MethodRef} (hm : P m) {args : List Ir.Expr} {outs : List String} :
    Leaves P 0 (emitCall env m args outs) :=
  (invoke_leaves fun _ => .method hm).andThen fun _ => .ite propagateIfAny_leaves .pure

theorem finishCall_leaves {m : MethodRef} (hm : P m) {args : List Ir.Expr} {ty : Ty} :
    Leaves P 0 (finishCall env m args ty) := by
  refine .ite ((emitCall_leaves hm).andThen fun _ => .pure) ?_
  exact Leaves.lift.andThen fun _ => Leaves.freshLocal.andThen fun _ =>
    (emitCall_leaves hm).andThen fun _ => .pure

theorem finishNew_leaves {type : TypeRef} {ctor : Option MethodRef} (hctor : ∀ m ∈ ctor, P m)
    {args : List Ir.Expr} : Leaves P 0 (finishNew env type ctor args) := by
  refine .andThen alloc_leaves fun _ => ?_
  cases ctor with
  | some m => exact (emitCall_leaves (hctor m rfl)).andThen fun _ => .pure
  | none => exact .pure

theorem defaultValue_leaves {ty : Ty} {span : Span} : Leaves P 0 (defaultValue env ty span) := by
  unfold defaultValue
  cases ty with
  | void => exact .throw
  | bool | int => exact .pure
  | named t => exact .ite alloc_leaves .pure

section Held

variable {n : Mark → Nat} {r : Registry} {s₀ : State} {left right v : Ir.Expr} {cs : List Cmd}

/-- Commands that run only when the right operand is evaluated. -/
theorem guarded_owes (guard : String → Ir.Expr) (ho : Owes P n r cs s₀ s)
    (h : Runs (do
      let tmp ← freshLocal "tmp" .bool
      emit (.set tmp left)
      emit (.ifThen (guard tmp) (cs ++ [Ir.Cmd.set tmp right]))
      return .ident tmp) s v s') : Owes P n r [] s₀ s' := by
  obtain ⟨tmp, s₁, h₁, h⟩ := runs_bind.mp h
  obtain ⟨_, s₂, h₂, h⟩ := runs_bind.mp h
  obtain ⟨_, s₃, h₃, h⟩ := runs_bind.mp h
  rw [(runs_pure.mp h).2]
  have ho := (ho.step (Leaves.freshLocal.tallied h₁)).step ((Leaves.emitPlain rfl rfl).tallied h₂)
  have hset := ho.plain (c := .set tmp right) rfl rfl
  rw [add_zero, add_zero, ← List.append_nil (cs ++ _)] at hset
  exact hset.emitTest h₃

/-- The commands of the right operand are emitted, behind the left one. -/
theorem finishBinary_owes {op : BinOp} {lhs : Expr} (ho : Owes P n r cs s₀ s)
    (h : Runs (finishBinary op lhs left right cs) s v s') : Owes P n r [] s₀ s' := by
  unfold finishBinary at h
  split at h
  · next hempty =>
    obtain rfl := List.isEmpty_iff.mp hempty
    rw [(runs_pure.mp h).2]
    exact ho
  · split at h
    · exact guarded_owes (fun tmp => .ident tmp) ho h
    · exact guarded_owes (fun tmp => .not (.ident tmp)) ho h
    · obtain ⟨ty, s₁, h₁, h⟩ := runs_bind.mp h
      obtain ⟨tmp, s₂, h₂, h⟩ := runs_bind.mp h
      obtain ⟨_, s₃, h₃, h⟩ := runs_bind.mp h
      obtain ⟨_, s₄, h₄, h⟩ := runs_bind.mp h
      rw [(runs_pure.mp h).2]
      have ho := ((ho.step (Leaves.lift.tallied h₁)).step (Leaves.freshLocal.tallied h₂)).step
        ((Leaves.emitPlain rfl rfl).tallied h₃)
      rw [add_zero, add_zero, add_zero] at ho
      exact ho.emitAll h₄

/-- The commands of both parts are emitted. -/
theorem finishConditional_owes {ty : Ty} {span : Span} {cond : Ir.Expr}
    {thenPart elsePart : Ir.Expr × List Cmd} (ho : Owes P n r (thenPart.2 ++ elsePart.2) s₀ s)
    (h : Runs (finishConditional ty span cond thenPart elsePart) s v s') :
    Owes P n r [] s₀ s' := by
  obtain ⟨a, cs⟩ := thenPart
  obtain ⟨b, ds⟩ := elsePart
  unfold finishConditional at h
  split at h
  · next hempty =>
    obtain ⟨hcs, hds⟩ := Bool.and_eq_true_iff.mp hempty
    obtain rfl := List.isEmpty_iff.mp hcs
    obtain rfl := List.isEmpty_iff.mp hds
    rw [(runs_pure.mp h).2]
    exact ho
  · obtain ⟨ty, s₁, h₁, h⟩ := runs_bind.mp h
    obtain ⟨tmp, s₂, h₂, h⟩ := runs_bind.mp h
    obtain ⟨_, s₃, h₃, h⟩ := runs_bind.mp h
    rw [(runs_pure.mp h).2]
    have ho := (ho.step (Leaves.lift.tallied h₁)).step (Leaves.freshLocal.tallied h₂)
    rw [add_zero, add_zero] at ho
    have hsets := (ho.plain (c := .set tmp a) rfl rfl).plain (c := .set tmp b) rfl rfl
    refine Owes.emitTest (hsets.rearrange fun v _ => ?_) h₃
    simp only [Cmd.collect_append, List.append_assoc]
    refine List.Perm.append_left _ ?_
    rw [← List.append_assoc, ← List.append_assoc]
    exact List.perm_append_comm.append_right _

end Held

/-! ## Expressions -/

mutual

theorem lowerExpr_leaves (e : Expr) (compound : Bool) (he : ∀ m ∈ e.callees, P m) :
    Leaves P 0 (lowerExpr env e compound) := by
  obtain ⟨id, span, ty, kind⟩ := e
  cases kind with
  | literal | var | self | typeOf =>
    unfold lowerExpr
    exact .pure
  | field object field =>
    cases object with
    | none =>
      unfold lowerExpr
      exact .pure
    | some object =>
      unfold lowerExpr
      exact (valueOf_leaves (lowerExpr_leaves object false he)).andThen fun _ => .pure
  | unary op e =>
    unfold lowerExpr
    exact (valueOf_leaves (lowerExpr_leaves e false he)).andThen fun _ => .pure
  | getType e =>
    unfold lowerExpr
    exact (valueOf_leaves (lowerExpr_leaves e false he)).andThen fun _ => .pure
  | conversion e newTy =>
    unfold lowerExpr
    exact (valueOf_leaves (lowerExpr_leaves e false he)).andThen fun _ => .pure
  | binary op lhs rhs =>
    obtain ⟨hl, hr⟩ := List.forall_mem_append.mp he
    have hlhs : Leaves P 0 (valueOf lhs (lowerExpr env lhs false)) :=
      valueOf_leaves (lowerExpr_leaves lhs false hl)
    have hrhs : Leaves P 0 (valueOf rhs (lowerExpr env rhs false)) :=
      valueOf_leaves (lowerExpr_leaves rhs false hr)
    obtain ⟨lid, lspan, lty, lkind⟩ := lhs
    cases lkind with
    | target target =>
      have hassign (_ : Unit) : Leaves P 0 (do
          let current ← readTarget env target
          let rhs ← valueOf rhs (lowerExpr env rhs false)
          writeTarget env target (.binary (binOp op) current rhs)
          return some (← readTarget env target)) :=
        (readTarget_leaves target hl).andThen fun _ => hrhs.andThen fun _ =>
          (writeTarget_leaves target _ hl).andThen fun _ =>
            (readTarget_leaves target hl).andThen fun _ => .pure
      unfold lowerExpr
      exact .ite (hassign ()) (Leaves.throw.andThen hassign)
    | _ =>
      unfold lowerExpr
      refine ⟨fun h => ?_⟩
      obtain ⟨left, s₁, h₁, h⟩ := runs_bind.mp h
      obtain ⟨right, s₂, h₂, h⟩ := runs_bind.mp h
      obtain ⟨v, s₃, h₃, h⟩ := runs_bind.mp h
      rw [(runs_pure.mp h).2]
      exact (finishBinary_owes ((Owes.of_tallied (hlhs.tallied h₁)).hold (hrhs.heldWith h₂))
        h₃).tallied
  | conditional cond thenExpr elseExpr =>
    obtain ⟨hc, hte⟩ := List.forall_mem_append.mp he
    obtain ⟨ht, he⟩ := List.forall_mem_append.mp hte
    have hcond : Leaves P 0 (conditionOf cond (lowerExpr env cond false)) :=
      conditionOf_leaves (lowerExpr_leaves cond false hc)
    have hthen : Leaves P 0 (valueOf thenExpr (lowerExpr env thenExpr false)) :=
      valueOf_leaves (lowerExpr_leaves thenExpr false ht)
    have helse : Leaves P 0 (valueOf elseExpr (lowerExpr env elseExpr false)) :=
      valueOf_leaves (lowerExpr_leaves elseExpr false he)
    unfold lowerExpr
    refine ⟨fun h => ?_⟩
    obtain ⟨_, s₁, h₁, h⟩ := runs_bind.mp h
    obtain ⟨thenPart, s₂, h₂, h⟩ := runs_bind.mp h
    obtain ⟨elsePart, s₃, h₃, h⟩ := runs_bind.mp h
    obtain ⟨v, s₄, h₄, h⟩ := runs_bind.mp h
    rw [(runs_pure.mp h).2]
    have ho := ((Owes.of_tallied (hcond.tallied h₁)).hold (hthen.heldWith h₂)).hold
      (helse.heldWith h₃)
    exact (finishConditional_owes ho h₄).tallied
  | assign target value =>
    obtain ⟨ht, hv⟩ := List.forall_mem_append.mp he
    unfold lowerExpr
    exact (valueOf_leaves (lowerExpr_leaves value false hv)).andThen fun _ =>
      (writeTarget_leaves target _ ht).andThen fun _ =>
        (readTarget_leaves target ht).andThen fun _ => .pure
  | target target =>
    unfold lowerExpr
    exact (readTarget_leaves target he).andThen fun _ => .pure
  | call call =>
    obtain ⟨method, receiver, args, isVirtual⟩ := call
    obtain ⟨hm, hparts⟩ := List.forall_mem_cons.mp he
    obtain ⟨hr, ha⟩ := List.forall_mem_append.mp hparts
    unfold lowerExpr
    exact (lowerOption_leaves receiver hr).andThen fun _ =>
      (lowerArgs_leaves args ha).andThen fun _ => finishCall_leaves hm
  | new type ctor args =>
    obtain ⟨hc, ha⟩ := List.forall_mem_append.mp he
    have hctor : ∀ m ∈ ctor, P m := fun m hm => hc m (Option.mem_toList.mpr hm)
    unfold lowerExpr
    exact (lowerArgs_leaves args ha).andThen fun _ =>
      (finishNew_leaves hctor).andThen fun _ => .pure
  | defaultValue valueTy =>
    unfold lowerExpr
    exact defaultValue_leaves.andThen fun _ => .pure
  | pop =>
    unfold lowerExpr
    exact Leaves.popOperand.andThen fun _ => .pure

theorem readTarget_leaves (t : Target) (ht : ∀ m ∈ t.callees, P m) :
    Leaves P 0 (readTarget env t) := by
  cases t with
  | var name =>
    unfold readTarget
    exact .pure
  | field object field =>
    cases object with
    | none =>
      unfold readTarget
      exact .pure
    | some object =>
      unfold readTarget
      exact (valueOf_leaves (lowerExpr_leaves object false ht)).andThen fun _ => .pure

theorem writeTarget_leaves (t : Target) (v : Ir.Expr) (ht : ∀ m ∈ t.callees, P m) :
    Leaves P 0 (writeTarget env t v) := by
  cases t with
  | var name =>
    unfold writeTarget
    exact .emitPlain rfl rfl
  | field object field =>
    cases object with
    | none =>
      unfold writeTarget
      exact .emitPlain rfl rfl
    | some object =>
      unfold writeTarget
      exact (valueOf_leaves (lowerExpr_leaves object false ht)).andThen fun _ =>
        .emitPlain rfl rfl

theorem lowerOption_leaves (e : Option Expr) (he : ∀ m ∈ calleesInOption e, P m) :
    Leaves P 0 (lowerOption env e) := by
  cases e with
  | none =>
    unfold lowerOption
    exact .pure
  | some e =>
    unfold lowerOption
    exact (valueOf_leaves (lowerExpr_leaves e false he)).andThen fun _ => .pure

theorem lowerArgs_leaves (es : List Expr) (hes : ∀ m ∈ calleesInAll es, P m) :
    Leaves P 0 (lowerArgs env es) := by
  cases es with
  | nil =>
    unfold lowerArgs
    exact .pure
  | cons e es =>
    obtain ⟨he, hes⟩ := List.forall_mem_append.mp hes
    unfold lowerArgs
    exact (valueOf_leaves (lowerExpr_leaves e false he)).andThen fun _ =>
      (lowerArgs_leaves es hes).andThen fun _ => .pure

end

theorem value_leaves (e : Expr) (he : ∀ m ∈ e.callees, P m) : Leaves P 0 (value env e) :=
  valueOf_leaves (lowerExpr_leaves e false he)

theorem condition_leaves (e : Expr) (he : ∀ m ∈ e.callees, P m) : Leaves P 0 (condition env e) :=
  conditionOf_leaves (lowerExpr_leaves e false he)

end

end Unwind.Lowering
