import Unwind.Proofs.Lowering.Expressions
import Unwind.Proofs.Pinned.Inlining

/-!
# Lowering with operands in cells

Two lowerings of one expression run side by side: one has expressions on its stack of operands, the
other the cells of a stack. Whatever is popped, both do the same steps, and what they emit is
related by `Code`. `Alongside` says this of a step; it is closed under everything that the lowering
of an expression is made of.
-/

namespace Unwind.Pinned

open Ir (Cmd)
open Lowering
open Source (BinOp Expr MethodRef Target Ty TypeRef)

/-! ## States with operands in cells -/

/-- The operands on a stack of `n`, the last one first. -/
def entries (f : Nat → Ir.Expr) : Nat → List Ir.Expr
  | 0 => []
  | n + 1 => f n :: entries f n

/-- The operands that are kept in cells. -/
def Cells.operand (C : Cells) (k : Nat) : Ir.Expr := .ident (C.cell k)

/-- The states differ in what was emitted and in the operands: the second one has cells for the
expressions of the first one. -/
structure Beside (C : Cells) (σ : Nat → Ir.Expr) (n : Nat) (t u : State) : Prop where
  rest : t = { u with cmds := t.cmds, operands := t.operands }
  expressions : t.operands = entries σ n
  cells : u.operands = entries C.operand n

/-- The contexts differ in what was emitted and in the operands only. -/
def Alike (cx cx' : Context) : Prop := ∃ cs os, cx = { cx' with cmds := cs, operands := os }

/-- From states side by side, the second step succeeds when the first one does. The results are
related, and so are the commands that were emitted. -/
structure Alongside {α β : Type} (C : Cells) (σ : Nat → Ir.Expr) (R : α → β → Prop) (x : Lower α)
    (y : Lower β) : Prop where
  run : ∀ {n : Nat} {t t' u : State} {a : α}, Beside C σ n t u → Runs x t a t' →
    ∃ b u' m cs ps, Runs y u b u' ∧ R a b ∧ Beside C σ m t' u' ∧ t'.cmds = t.cmds ++ cs ∧
      u'.cmds = u.cmds ++ ps ∧ Code C σ cs ps

section

variable {C : Cells} {σ : Nat → Ir.Expr}

namespace Beside

variable {n : Nat} {t u : State}

theorem exists_eq (h : Beside C σ n t u) :
    ∃ cs, t = { u with cmds := cs, operands := entries σ n } :=
  ⟨t.cmds, by rw [← h.expressions]; exact h.rest⟩

theorem alike (h : Beside C σ n t u) : Alike t.toContext u.toContext :=
  ⟨t.cmds, t.operands, congrArg (·.toContext) h.rest⟩

theorem withCmds (h : Beside C σ n t u) (cs ps : List Cmd) :
    Beside C σ n { t with cmds := cs } { u with cmds := ps } := by
  obtain ⟨cs', rfl⟩ := h.exists_eq
  exact ⟨rfl, rfl, h.cells⟩

end Beside

namespace Alongside

variable {α β γ δ : Type} {R : α → β → Prop} {S : γ → δ → Prop} {x : Lower α} {y : Lower β}
  {f : α → Lower γ} {g : β → Lower δ}

theorem pure {a : α} {b : β} (h : R a b) : Alongside C σ R (Pure.pure a) (Pure.pure b) := by
  refine ⟨fun {n t t' u a'} hb hrun => ?_⟩
  obtain ⟨rfl, rfl⟩ := runs_pure.mp hrun
  exact ⟨b, u, n, [], [], runs_pure.mpr ⟨rfl, rfl⟩, h, hb, by simp, by simp, .nil⟩

theorem bind (hx : Alongside C σ R x y) (hf : ∀ a b, R a b → Alongside C σ S (f a) (g b)) :
    Alongside C σ S (x >>= f) (y >>= g) := by
  refine ⟨fun hb hrun => ?_⟩
  obtain ⟨a, t₁, h₁, h₂⟩ := runs_bind.mp hrun
  obtain ⟨b, u₁, m₁, cs, ps, h₁', hab, hb₁, hcs, hps, hcode⟩ := hx.run hb h₁
  obtain ⟨d, u₂, m₂, cs', ps', h₂', hcd, hb₂, hcs', hps', hcode'⟩ := (hf a b hab).run hb₁ h₂
  refine ⟨d, u₂, m₂, cs ++ cs', ps ++ ps', runs_bind.mpr ⟨b, u₁, h₁', h₂'⟩, hcd, hb₂, ?_, ?_,
    hcode.append hcode'⟩
  · rw [hcs', hcs, List.append_assoc]
  · rw [hps', hps, List.append_assoc]

/-- Steps with equal results. -/
theorem next {z z' : Lower α} {g : α → Lower δ} (hx : Alongside C σ Eq z z')
    (hf : ∀ a, Alongside C σ S (f a) (g a)) : Alongside C σ S (z >>= f) (z' >>= g) :=
  hx.bind fun a _ h => h ▸ hf a

theorem throw {e : Fault} : Alongside C σ R (MonadExcept.throw e) y :=
  ⟨fun _ h => absurd h not_runs_throw⟩

theorem lift (e : Except Fault α) : Alongside C σ Eq (liftM e : Lower α) (liftM e) := by
  cases e with
  | ok a => exact pure rfl
  | error e => exact throw

theorem ite {c : Prop} [Decidable c] {x' : Lower α} {y' : Lower β} (h : Alongside C σ R x y)
    (h' : Alongside C σ R x' y') :
    Alongside C σ R (if c then x else x') (if c then y else y') := by
  split
  · exact h
  · exact h'

theorem emitAll {cs ps : List Cmd} (h : Code C σ cs ps) :
    Alongside C σ Eq (Lowering.emitAll cs) (Lowering.emitAll ps) := by
  refine ⟨fun {n t t' u _} hb hrun => ?_⟩
  rw [runs_emitAll.mp hrun]
  exact ⟨(), _, n, cs, ps, runs_emitAll.mpr rfl, rfl, hb.withCmds _ _, rfl, rfl, h⟩

theorem emit {c c' : Cmd} (h : Code C σ [c] [c']) :
    Alongside C σ Eq (Lowering.emit c) (Lowering.emit c') := emitAll h

/-- Parts that are lowered aside. -/
theorem buffered (h : Alongside C σ R x y) :
    Alongside C σ (fun a b => R a.1 b.1 ∧ Code C σ a.2 b.2) (Lowering.buffered x)
      (Lowering.buffered y) := by
  refine ⟨fun {n t t' u a} hb hrun => ?_⟩
  obtain ⟨t₁, h₁, hcmds, rfl⟩ := runs_buffered.mp hrun
  obtain ⟨b, u₁, m, cs, ps, h₁', hab, hb₁, hcs, hps, hcode⟩ := h.run (hb.withCmds [] []) h₁
  refine ⟨(b, u₁.cmds), _, m, [], [], runs_buffered.mpr ⟨u₁, h₁', rfl, rfl⟩, ⟨hab, ?_⟩,
    hb₁.withCmds _ _, by simp, by simp, .nil⟩
  rw [hcmds, hcs, hps]
  exact hcode

theorem commandsOf {x y : Lower Unit} (h : Alongside C σ Eq x y) :
    Alongside C σ (Code C σ) (Lowering.commandsOf x) (Lowering.commandsOf y) :=
  h.buffered.bind fun _ _ h => pure h.2

theorem context : Alongside C σ Alike Lowering.context Lowering.context := by
  refine ⟨fun {n t t' u cx} hb hrun => ?_⟩
  obtain ⟨rfl, rfl⟩ := runs_context.mp hrun
  exact ⟨_, u, n, [], [], runs_context.mpr ⟨rfl, rfl⟩, hb.alike, hb, by simp, by simp, .nil⟩

/-- Operations of the context that neither look at the commands and the operands nor change them. -/
theorem withContext {f : Context → α × Context}
    (h : ∀ (cx : Context) cs os, f { cx with cmds := cs, operands := os } =
      ((f cx).1, { (f cx).2 with cmds := cs, operands := os })) :
    Alongside C σ Eq (Lowering.withContext f) (Lowering.withContext f) := by
  refine ⟨fun {n t t' u a} hb hrun => ?_⟩
  rw [Lowering.withContext, runs_modifyGet] at hrun
  obtain ⟨cs, rfl⟩ := hb.exists_eq
  have hself : f u.toContext = ((f u.toContext).1,
      { (f u.toContext).2 with cmds := u.cmds, operands := u.operands }) := h _ _ _
  have hcmds : (f u.toContext).2.cmds = u.cmds := by rw [hself]
  have hoperands : (f u.toContext).2.operands = u.operands := by rw [hself]
  rw [h] at hrun
  cases hrun
  refine ⟨_, _, n, [], [], runs_modifyGet.mpr rfl, rfl, ⟨rfl, rfl, ?_⟩, by simp, ?_, .nil⟩
  · exact hoperands.trans hb.cells
  · rw [List.append_nil]
    exact hcmds

theorem changeContext {f : Context → Context}
    (h : ∀ (cx : Context) cs os, f { cx with cmds := cs, operands := os } =
      { f cx with cmds := cs, operands := os }) :
    Alongside C σ Eq (Lowering.changeContext f) (Lowering.changeContext f) := by
  have hrule : Alongside C σ Eq (Lowering.withContext fun cx => ((), f cx))
      (Lowering.withContext fun cx => ((), f cx)) :=
    withContext fun cx cs os => congrArg (Prod.mk ()) (h cx cs os)
  exact hrule

theorem withRegistry {f : Registry → α × Registry} :
    Alongside C σ Eq (Lowering.withRegistry f) (Lowering.withRegistry f) := by
  refine ⟨fun {n t t' u a} hb hrun => ?_⟩
  rw [Lowering.withRegistry, runs_modifyGet] at hrun
  obtain ⟨cs, rfl⟩ := hb.exists_eq
  cases hrun
  exact ⟨_, _, n, [], [], runs_modifyGet.mpr rfl, rfl, ⟨rfl, rfl, hb.cells⟩, by simp, by simp, .nil⟩

/-- An expression is popped on one side, and its cell on the other. -/
theorem popOperand : Alongside C σ (Inlined C σ) Lowering.popOperand Lowering.popOperand := by
  refine ⟨fun {n t t' u a} hb hrun => ?_⟩
  obtain ⟨cs, rfl⟩ := hb.exists_eq
  obtain ⟨cx, t₁, h₁, h₂⟩ := runs_bind.mp hrun
  obtain ⟨rfl, rfl⟩ := runs_context.mp h₁
  cases n with
  | zero => exact absurd h₂ not_runs_throw
  | succ n =>
    obtain ⟨_, t₂, h₂, h₃⟩ := runs_bind.mp h₂
    rw [Lowering.changeContext, runs_modify] at h₂
    obtain ⟨rfl, rfl⟩ := runs_pure.mp h₃
    subst h₂
    have hpop : Runs Lowering.popOperand u (C.operand n)
        { u with operands := entries C.operand n } := by
      refine runs_bind.mpr ⟨_, u, runs_context.mpr ⟨rfl, rfl⟩, ?_⟩
      rw [hb.cells]
      exact runs_bind.mpr ⟨(), _, runs_modify.mpr rfl, runs_pure.mpr ⟨rfl, rfl⟩⟩
    exact ⟨_, _, n, [], [], hpop, .cell n, ⟨rfl, rfl, rfl⟩, by simp, by simp, .nil⟩

end Alongside

/-! ## Variables and labels -/

section

variable {env : Env}

theorem alongside_freshLocal (stem : String) (ty : Ir.Ty) :
    Alongside C σ Eq (freshLocal stem ty) (freshLocal stem ty) :=
  .withContext fun _ _ _ => rfl

theorem alongside_declareLocal (name : String) (ty : Ir.Ty) :
    Alongside C σ Eq (declareLocal name ty) (declareLocal name ty) := by
  refine .changeContext fun cx cs os => ?_
  unfold Context.declareLocal
  split <;> rfl

theorem alongside_useLabelVar : Alongside C σ Eq useLabelVar useLabelVar :=
  .next (.changeContext fun _ _ _ => rfl) fun _ => .pure rfl

theorem alongside_allot {id : Nat} {slot : Region → Option String}
    {fill : Region → String → Region} {name : String} :
    Alongside C σ Eq (withContext (·.allot id slot fill name))
      (withContext (·.allot id slot fill name)) := by
  refine .withContext fun cx cs os => ?_
  simp only [Context.allot]
  cases cx.regions[id]? with
  | none => rfl
  | some r => cases h : slot r <;> simp [h, Context.setRegion]

/-! ## Leaving regions -/

theorem alongside_record (label : String) (ty : Ir.Ty) {v v' : Ir.Expr} (h : Inlined C σ v v') :
    Alongside C σ Eq (record env label ty v) (record env label ty v') :=
  .ite (.next .withRegistry fun _ => .emit (.call (.cons h .nil) .nil)) (.pure rfl)

theorem alongside_propagate : Alongside C σ Eq (propagate env) (propagate env) := by
  refine Alongside.context.bind fun cx cx' h => ?_
  obtain ⟨cs, os, rfl⟩ := h
  have hset : ∀ {x : String} {r : Ir.Expr}, Code C σ [.set x r] [.set x r] := .set (.same _) .nil
  show Alongside C σ Eq (match cx'.stack.head? with | _ => _) _
  rcases cx'.stack.head? with _ | ⟨region, _ | _ | _⟩
  · exact .next (alongside_record _ _ (.same _)) fun _ => .emit (.ret .nil)
  · exact .next alongside_allot fun _ => .emit (.goto .nil)
  · exact .next alongside_useLabelVar fun _ => .next (.emit hset) fun _ =>
      .next alongside_allot fun _ => .emit (.goto .nil)
  · exact .next alongside_allot fun _ => .emit (.goto .nil)

theorem alongside_propagateIfAny : Alongside C σ Eq (propagateIfAny env) (propagateIfAny env) :=
  .bind (.commandsOf alongside_propagate) fun _ _ h => .emit (.branch (.same _) h .nil .nil)

/-! ## The parts of expressions -/

theorem alongside_valueOf (e : Expr) {x y : Lower (Option Ir.Expr)}
    (h : Alongside C σ (Option.Rel (Inlined C σ)) x y) :
    Alongside C σ (Inlined C σ) (valueOf e x) (valueOf e y) := by
  refine h.bind fun r r' hr => ?_
  cases hr with
  | none => exact .throw
  | some hr => exact .pure hr

theorem alongside_truthOf (e : Expr) {v v' : Ir.Expr} (h : Inlined C σ v v') :
    Alongside C σ (Inlined C σ) (liftM (truthOf e v) : Lower Ir.Expr) (liftM (truthOf e v')) := by
  unfold truthOf
  cases e.ty.valueKind? with
  | none => exact .throw
  | some kind =>
    cases kind with
    | boolean => exact .pure h
    | integer | reference => exact .pure (.binary h (.same _))

theorem alongside_conditionOf (e : Expr) {x y : Lower (Option Ir.Expr)}
    (h : Alongside C σ (Option.Rel (Inlined C σ)) x y) :
    Alongside C σ (Inlined C σ) (conditionOf e x) (conditionOf e y) :=
  (alongside_valueOf e h).bind fun _ _ => alongside_truthOf e

theorem alongside_alloc (type : TypeRef) : Alongside C σ (Inlined C σ) (alloc type) (alloc type) :=
  .next (alongside_freshLocal _ _) fun _ =>
    .next (.emit (.call (.cons (.same _) .nil) .nil)) fun _ => .pure (.same _)

theorem alongside_emitCall (method : MethodRef) {args args' : List Ir.Expr}
    (h : List.Forall₂ (Inlined C σ) args args') (outs : List String) :
    Alongside C σ Eq (emitCall env method args outs) (emitCall env method args' outs) :=
  .next (.emit (.call h .nil)) fun _ => .ite alongside_propagateIfAny (.pure rfl)

theorem alongside_finishCall (method : MethodRef) {args args' : List Ir.Expr}
    (h : List.Forall₂ (Inlined C σ) args args') (result : Ty) :
    Alongside C σ (Option.Rel (Inlined C σ)) (finishCall env method args result)
      (finishCall env method args' result) :=
  .ite (.next (alongside_emitCall method h []) fun _ => .pure .none)
    (.next (.lift _) fun ty => .next (alongside_freshLocal _ ty) fun out =>
      .next (alongside_emitCall method h [out]) fun _ => .pure (.some (.same _)))

theorem alongside_finishNew (type : TypeRef) (ctor : Option MethodRef) {args args' : List Ir.Expr}
    (h : List.Forall₂ (Inlined C σ) args args') :
    Alongside C σ (Inlined C σ) (finishNew env type ctor args) (finishNew env type ctor args') := by
  refine (alongside_alloc type).bind fun object object' ho => ?_
  cases ctor with
  | none => exact .pure ho
  | some method => exact .next (alongside_emitCall method (.cons ho h) []) fun _ => .pure ho

theorem alongside_finishBinary (op : BinOp) (lhs : Expr) {left left' right right' : Ir.Expr}
    {cs ps : List Cmd} (hl : Inlined C σ left left') (hr : Inlined C σ right right')
    (hcode : Code C σ cs ps) :
    Alongside C σ (Inlined C σ) (finishBinary op lhs left right cs)
      (finishBinary op lhs left' right' ps) := by
  have hempty : cs.isEmpty = ps.isEmpty := by cases hcode <;> rfl
  unfold finishBinary
  rw [hempty]
  refine .ite (.pure (.binary hl hr)) ?_
  have hset : ∀ x, Code C σ (cs ++ [Ir.Cmd.set x right]) (ps ++ [Ir.Cmd.set x right']) := fun _ =>
    hcode.append (.set hr .nil)
  cases op with
  | and | or =>
    exact .next (alongside_freshLocal _ _) fun _ => .next (.emit (.set hl .nil)) fun _ =>
      .next (.emit (.branch (.same _) (hset _) .nil .nil)) fun _ => .pure (.same _)
  | _ =>
    exact .next (.lift _) fun _ => .next (alongside_freshLocal _ _) fun _ =>
      .next (.emit (.set hl .nil)) fun _ => .next (.emitAll hcode) fun _ =>
        .pure (.binary (.same _) hr)

theorem alongside_finishConditional (ty : Ty) (span : Span) {cond cond' : Ir.Expr}
    {a b a' b' : Ir.Expr × List Cmd} (hc : Inlined C σ cond cond')
    (ha : Inlined C σ a.1 a'.1 ∧ Code C σ a.2 a'.2) (hb : Inlined C σ b.1 b'.1 ∧ Code C σ b.2 b'.2) :
    Alongside C σ (Inlined C σ) (finishConditional ty span cond a b)
      (finishConditional ty span cond' a' b') := by
  have hempty : ∀ {cs ps : List Cmd}, Code C σ cs ps → cs.isEmpty = ps.isEmpty := by
    intro cs ps h
    cases h <;> rfl
  unfold finishConditional
  rw [hempty ha.2, hempty hb.2]
  exact .ite (.pure (.ifThenElse hc ha.1 hb.1))
    (.next (.lift _) fun _ => .next (alongside_freshLocal _ _) fun _ =>
      .next (.emit (.branch hc (ha.2.append (.set ha.1 .nil)) (hb.2.append (.set hb.1 .nil)) .nil))
        fun _ => .pure (.same _))

theorem inlined_convert (source target : Ty) {v v' : Ir.Expr} (h : Inlined C σ v v') :
    Inlined C σ (convert source target v) (convert source target v') := by
  unfold convert
  split
  · exact .ifThenElse h (.same _) (.same _)
  · exact .binary h (.same _)
  · exact h

theorem alongside_defaultValue (ty : Ty) (span : Span) :
    Alongside C σ (Inlined C σ) (defaultValue env ty span) (defaultValue env ty span) := by
  cases ty with
  | void => exact .throw
  | bool | int => exact .pure (.same _)
  | named type => exact .ite (alongside_alloc type) (.pure (.same _))

/-! ## Expressions -/

mutual

/-- An expression is lowered alongside itself, whatever it pops. -/
theorem lowerExpr_alongside (e : Expr) (compound : Bool) :
    Alongside C σ (Option.Rel (Inlined C σ)) (lowerExpr env e compound)
      (lowerExpr env e compound) := by
  obtain ⟨id, span, ty, kind⟩ := e
  cases kind with
  | literal | var | self | typeOf => exact .pure (.some (.same _))
  | field object f =>
    cases object with
    | none => exact .pure (.some (.same _))
    | some object =>
      exact (alongside_valueOf object (lowerExpr_alongside object false)).bind fun _ _ h =>
        .pure (.some (.select h))
  | unary op operand =>
    exact (alongside_valueOf operand (lowerExpr_alongside operand false)).bind fun _ _ h =>
      .pure (.some (.unary h))
  | binary op lhs rhs =>
    have hright : Alongside C σ (Inlined C σ) (valueOf rhs (lowerExpr env rhs false)) _ :=
      alongside_valueOf rhs (lowerExpr_alongside rhs false)
    by_cases htarget : lhs.isTarget = true
    · obtain ⟨i, sp, lty, lhsKind⟩ := lhs
      cases lhsKind with
      | target target =>
        rw [lowerExpr]
        cases compound with
        | false => exact .throw
        | true =>
          refine (readTarget_alongside target).bind fun _ _ hcurrent => hright.bind fun _ _ h => ?_
          exact Alongside.next (writeTarget_alongside target (.binary hcurrent h)) fun _ =>
            (readTarget_alongside target).bind fun _ _ h => .pure (.some h)
      | _ => cases htarget
    · rw [Bool.not_eq_true] at htarget
      rw [lowerExpr_binary env htarget]
      refine (alongside_valueOf lhs (lowerExpr_alongside lhs false)).bind fun _ _ hl => ?_
      exact hright.buffered.bind fun _ _ hr =>
        (alongside_finishBinary op lhs hl hr.1 hr.2).bind fun _ _ h => .pure (.some h)
  | conditional cond thenExpr elseExpr =>
    refine (alongside_conditionOf cond (lowerExpr_alongside cond false)).bind fun _ _ hc => ?_
    refine (alongside_valueOf thenExpr (lowerExpr_alongside thenExpr false)).buffered.bind
      fun _ _ ha => ?_
    refine (alongside_valueOf elseExpr (lowerExpr_alongside elseExpr false)).buffered.bind
      fun _ _ hb => ?_
    exact (alongside_finishConditional ty span hc ha hb).bind fun _ _ h => .pure (.some h)
  | assign target value =>
    refine (alongside_valueOf value (lowerExpr_alongside value false)).bind fun _ _ h => ?_
    exact Alongside.next (writeTarget_alongside target h) fun _ =>
      (readTarget_alongside target).bind fun _ _ h => .pure (.some h)
  | target target => exact (readTarget_alongside target).bind fun _ _ h => .pure (.some h)
  | call call =>
    obtain ⟨method, receiver, args, isVirtual⟩ := call
    refine (lowerOption_alongside receiver).bind fun o o' ho => ?_
    refine (lowerArgs_alongside args).bind fun _ _ hargs => ?_
    refine alongside_finishCall method ?_ ty
    cases ho with
    | none => exact hargs
    | some ho => exact .cons ho hargs
  | new type ctor args =>
    exact (lowerArgs_alongside args).bind fun _ _ hargs =>
      (alongside_finishNew type ctor hargs).bind fun _ _ h => .pure (.some h)
  | getType object =>
    exact (alongside_valueOf object (lowerExpr_alongside object false)).bind fun _ _ h =>
      .pure (.some (.dynamicType h))
  | conversion operand newTy =>
    exact (alongside_valueOf operand (lowerExpr_alongside operand false)).bind fun _ _ h =>
      .pure (.some (inlined_convert _ _ h))
  | defaultValue valueTy =>
    exact (alongside_defaultValue valueTy span).bind fun _ _ h => .pure (.some h)
  | pop => exact Alongside.popOperand.bind fun _ _ h => .pure (.some h)

theorem readTarget_alongside (target : Target) :
    Alongside C σ (Inlined C σ) (readTarget env target) (readTarget env target) := by
  cases target with
  | var => exact .pure (.same _)
  | field object f =>
    cases object with
    | none => exact .pure (.same _)
    | some object =>
      exact (alongside_valueOf object (lowerExpr_alongside object false)).bind fun _ _ h =>
        .pure (.select h)

theorem writeTarget_alongside (target : Target) {v v' : Ir.Expr} (h : Inlined C σ v v') :
    Alongside C σ Eq (writeTarget env target v) (writeTarget env target v') := by
  cases target with
  | var => exact .emit (.set h .nil)
  | field object f =>
    cases object with
    | none => exact .emit (.set h .nil)
    | some object =>
      exact (alongside_valueOf object (lowerExpr_alongside object false)).bind fun _ _ ho =>
        .emit (.store ho h .nil)

theorem lowerOption_alongside (e : Option Expr) :
    Alongside C σ (Option.Rel (Inlined C σ)) (lowerOption env e) (lowerOption env e) := by
  cases e with
  | none => exact .pure .none
  | some e =>
    exact (alongside_valueOf e (lowerExpr_alongside e false)).bind fun _ _ h => .pure (.some h)

theorem lowerArgs_alongside (es : List Expr) :
    Alongside C σ (List.Forall₂ (Inlined C σ)) (lowerArgs env es) (lowerArgs env es) := by
  cases es with
  | nil => exact .pure .nil
  | cons e es =>
    exact (alongside_valueOf e (lowerExpr_alongside e false)).bind fun _ _ h =>
      (lowerArgs_alongside es).bind fun _ _ hs => .pure (.cons h hs)

end

theorem value_alongside (e : Expr) : Alongside C σ (Inlined C σ) (value env e) (value env e) :=
  alongside_valueOf e (lowerExpr_alongside e false)

theorem condition_alongside (e : Expr) :
    Alongside C σ (Inlined C σ) (condition env e) (condition env e) :=
  alongside_conditionOf e (lowerExpr_alongside e false)

end

end

end Unwind.Pinned
