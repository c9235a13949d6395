import Unwind.Proofs.Accepts

/-!
# What a step takes from the operands

Operands are pushed and popped while a body is lowered, and most steps do neither. `Draws` says how
many operands a step takes: it succeeds exactly when these are there and a condition on the step
itself holds, and it leaves the control of the body alone, which is all that decides about jumps.
Marks, calls and the commands around a region take none.
-/

namespace Unwind.Operands

open Lowering
open Source (MethodRef StmtKind TypeRef)

/-! ## Control -/

/-- What decides, apart from the operands, whether a step succeeds. -/
structure Control where
  stack : List Entry
  scopes : LabelScopes
  returnVar : Option String
  /-- The `try` statements of the regions. -/
  nodes : List UInt32

/-- The control of a body being lowered. -/
def control (cx : Context) : Control where
  stack := cx.stack
  scopes := cx.scopes
  returnVar := cx.returnVar
  nodes := cx.regions.map (·.node)

theorem stack_of_control {cx cx' : Context} (h : control cx = control cx') :
    cx.stack = cx'.stack := congrArg Control.stack h

/-- A region is replaced by one of the same statement. -/
theorem control_setRegion {cx : Context} {id : Nat} {r r' : Region} (hr : cx.regions[id]? = some r)
    (hnode : r'.node = r.node) : control (cx.setRegion id r') = control cx := by
  obtain ⟨hlt, rfl⟩ := List.getElem?_eq_some_iff.mp hr
  have hnodes : (cx.regions.set id r').map (·.node) = cx.regions.map (·.node) := by
    rw [List.map_set, hnode]
    exact List.ext_getElem (by simp) fun i _ _ => by
      by_cases h : id = i <;> simp [h]
  unfold control Context.setRegion
  rw [hnodes]

/-! ## Steps that draw -/

/-- Between the two states `n` operands are taken, and the control is kept. -/
structure Drawn (n : Nat) (s s' : State) : Prop where
  enough : n ≤ s.operands.length
  operands : s'.operands = s.operands.drop n
  control : control s'.toContext = control s.toContext

theorem Drawn.trans {n m : Nat} {s s₁ s' : State} (h : Drawn n s s₁) (h' : Drawn m s₁ s') :
    Drawn (n + m) s s' := by
  have henough := h'.enough
  rw [h.operands, List.length_drop] at henough
  have := h.enough
  refine ⟨by omega, ?_, h'.control.trans h.control⟩
  rw [h'.operands, h.operands, List.drop_drop]

/-- The step succeeds exactly when `ok` holds and `n` operands are there. It takes these operands,
and its result satisfies `post`. -/
structure Draws {α : Type} (ok : Prop) (n : Nat) (post : α → Prop) (act : Lower α) : Prop where
  succeeds : ∀ {s : State}, ok → n ≤ s.operands.length → Succeeds act s
  drawn : ∀ {s s' : State} {a : α}, Runs act s a s' → ok ∧ Drawn n s s' ∧ post a

/-- The step always succeeds and takes no operand. -/
abbrev Idle {α : Type} (act : Lower α) : Prop := Draws True 0 (fun _ => True) act

namespace Draws

variable {α β : Type} {ok ok' : Prop} {n m : Nat} {P : α → Prop} {Q : β → Prop} {x : Lower α}
  {f : α → Lower β}

theorem congr (h : Draws ok n P x) (hok : ok ↔ ok') (hn : n = m) : Draws ok' m P x := by
  subst hn
  exact ⟨fun hok' => h.succeeds (hok.mpr hok'), fun hrun =>
    have ⟨hok₁, hd⟩ := h.drawn hrun
    ⟨hok.mp hok₁, hd⟩⟩

theorem pure {a : α} (ha : P a) : Draws True 0 P (Pure.pure a) := by
  refine ⟨fun _ _ => total_pure a _, fun h => ?_⟩
  obtain ⟨rfl, rfl⟩ := runs_pure.mp h
  exact ⟨trivial, ⟨Nat.zero_le _, rfl, rfl⟩, ha⟩

theorem bind (hx : Draws ok n P x) (hf : ∀ a, ok → P a → Draws ok' m Q (f a)) :
    Draws (ok ∧ ok') (n + m) Q (x >>= f) := by
  refine ⟨fun {s} hok hlen => ?_, fun h => ?_⟩
  · refine (hx.succeeds hok.1 (Nat.le_trans (Nat.le_add_right n m) hlen)).bind fun h₁ => ?_
    obtain ⟨-, hd, ha⟩ := hx.drawn h₁
    refine (hf _ hok.1 ha).succeeds hok.2 ?_
    rw [hd.operands, List.length_drop]
    omega
  · obtain ⟨a, s₁, h₁, h₂⟩ := runs_bind.mp h
    obtain ⟨hok, hd, ha⟩ := hx.drawn h₁
    obtain ⟨hok', hd', hb⟩ := (hf a hok ha).drawn h₂
    exact ⟨⟨hok, hok'⟩, hd.trans hd', hb⟩

/-- Nothing is taken behind the first step. -/
theorem andThen (hx : Draws ok n P x) (hf : ∀ a, ok → P a → Draws True 0 Q (f a)) :
    Draws ok n Q (x >>= f) := (hx.bind hf).congr (and_iff_left trivial) (Nat.add_zero n)

/-- Nothing is taken in front of the second step, and the result of the first does not matter. -/
theorem next (hx : Idle x) (hf : ∀ a, Draws ok n Q (f a)) : Draws ok n Q (x >>= f) :=
  (hx.bind fun a _ _ => hf a).congr (and_iff_right trivial) (Nat.zero_add n)

theorem lift {e : Except Fault α} (h : ∃ a, e = .ok a ∧ P a) :
    Draws True 0 P (liftM e : Lower α) := by
  obtain ⟨a, rfl, ha⟩ := h
  exact .pure ha

/-- A step that is refused, whatever comes behind the fault. -/
theorem refused {e : Fault} (h : ¬ ok) : Draws ok n Q ((throw e : Lower α) >>= f) := by
  refine ⟨fun hok => absurd hok h, fun hrun => ?_⟩
  obtain ⟨_, _, h₁, -⟩ := runs_bind.mp hrun
  exact absurd h₁ not_runs_throw

theorem buffered (hx : Draws ok n P x) : Draws ok n (fun r => P r.1) (Lowering.buffered x) := by
  refine ⟨fun {s} hok hlen => ?_, fun h => ?_⟩
  · have hlen' : n ≤ ({ s with cmds := [] } : State).operands.length := hlen
    obtain ⟨a, s₁, h₁⟩ := hx.succeeds hok hlen'
    exact ⟨(a, s₁.cmds), _, runs_buffered.mpr ⟨s₁, h₁, rfl, rfl⟩⟩
  · obtain ⟨s₁, h₁, -, rfl⟩ := runs_buffered.mp h
    obtain ⟨hok, hd, ha⟩ := hx.drawn h₁
    exact ⟨hok, ⟨hd.enough, hd.operands, hd.control⟩, ha⟩

theorem commandsOf {act : Lower Unit} {P : Unit → Prop} (h : Draws ok n P act) :
    Draws ok n (fun _ => True) (Lowering.commandsOf act) :=
  h.buffered.andThen fun _ _ _ => .pure trivial

/-! ### Operations of the state -/

theorem modify {f : State → State}
    (hf : ∀ s, control (f s).toContext = control s.toContext ∧ (f s).operands = s.operands) :
    Idle (modify f : Lower Unit) := by
  refine ⟨fun _ _ => total_modify f _, fun {s _ _} h => ?_⟩
  rw [runs_modify.mp h]
  exact ⟨trivial, ⟨Nat.zero_le _, (hf s).2, (hf s).1⟩, trivial⟩

theorem modifyGet {f : State → α × State}
    (hf : ∀ s, control (f s).2.toContext = control s.toContext ∧ (f s).2.operands = s.operands) :
    Idle (modifyGet f : Lower α) := by
  refine ⟨fun _ _ => total_modifyGet f _, fun {s _ _} h => ?_⟩
  have hs := hf s
  rw [runs_modifyGet.mp h] at hs
  exact ⟨trivial, ⟨Nat.zero_le _, hs.2, hs.1⟩, trivial⟩

theorem changeContext {f : Context → Context}
    (hf : ∀ cx, control (f cx) = control cx ∧ (f cx).operands = cx.operands) :
    Idle (Lowering.changeContext f) := modify fun s => hf s.toContext

theorem withContext {f : Context → α × Context}
    (hf : ∀ cx, control (f cx).2 = control cx ∧ (f cx).2.operands = cx.operands) :
    Idle (Lowering.withContext f) := modifyGet fun s => hf s.toContext

theorem withRegistry {f : Registry → α × Registry} : Idle (Lowering.withRegistry f) :=
  modifyGet fun _ => ⟨rfl, rfl⟩

theorem context : Idle Lowering.context := by
  refine ⟨fun _ _ => total_context _, fun h => ?_⟩
  rw [(runs_context.mp h).2]
  exact ⟨trivial, ⟨Nat.zero_le _, rfl, rfl⟩, trivial⟩

theorem ite {c : Prop} [Decidable c] {y z : Lower α} (hy : Draws ok n P y) (hz : Draws ok n P z) :
    Draws ok n P (if c then y else z) := by
  split
  · exact hy
  · exact hz

theorem emitAll {cs : List Ir.Cmd} : Idle (Lowering.emitAll cs) := modify fun _ => ⟨rfl, rfl⟩

theorem emit {c : Ir.Cmd} : Idle (Lowering.emit c) := emitAll

theorem report {level : Log.Level} {message : String} : Idle (Lowering.report level message) :=
  modify fun _ => ⟨rfl, rfl⟩

theorem freshLocal {stem : String} {ty : Ir.Ty} : Idle (Lowering.freshLocal stem ty) :=
  withContext fun _ => ⟨rfl, rfl⟩

theorem declareLocal {name : String} {ty : Ir.Ty} : Idle (Lowering.declareLocal name ty) := by
  refine changeContext fun cx => ?_
  unfold Context.declareLocal
  split
  · exact ⟨rfl, rfl⟩
  · exact ⟨rfl, rfl⟩

theorem useLabelVar : Idle Lowering.useLabelVar := by
  refine next ?_ fun _ => pure trivial
  exact changeContext fun _ => ⟨rfl, rfl⟩

/-! ### Names of regions -/

theorem allot {id : Nat} {slot : Region → Option String} {fill : Region → String → Region}
    {name : String} (hfill : ∀ r l, (fill r l).node = r.node) :
    Idle (Lowering.withContext (·.allot id slot fill name)) := by
  refine withContext fun cx => ?_
  unfold Context.allot
  split
  · next r hr =>
    split
    · exact ⟨rfl, rfl⟩
    · exact ⟨control_setRegion hr (hfill r name), rfl⟩
  · exact ⟨rfl, rfl⟩

theorem catchLabel {id : Nat} : Idle (Lowering.catchLabel id) := allot fun _ _ => rfl

theorem finallyLabel {id : Nat} : Idle (Lowering.finallyLabel id) := allot fun _ _ => rfl

theorem continuationLabel {id : Nat} : Idle (Lowering.continuationLabel id) := allot fun _ _ => rfl

theorem exceptionLocal {id : Nat} : Idle (Lowering.exceptionLocal id) := by
  refine withContext fun cx => ?_
  unfold Context.exceptionLocal
  split
  · next r hr =>
    split
    · exact ⟨rfl, rfl⟩
    · have hset : control (cx.setRegion id
          { r with exceptionLocal := some ("$localExc" ++ toString id) }) = control cx :=
        control_setRegion hr rfl
      exact ⟨hset, rfl⟩
  · exact ⟨rfl, rfl⟩

theorem addEscapingEdge {id : Nat} : Idle (Lowering.addEscapingEdge id) := by
  refine withContext fun cx => ?_
  unfold Context.addEscapingEdge
  dsimp only
  split
  · next r hr => exact ⟨control_setRegion hr rfl, rfl⟩
  · exact ⟨rfl, rfl⟩

/-! ### Marks -/

theorem record {env : Env} {label : String} {ty : Ir.Ty} {v : Ir.Expr} :
    Idle (Lowering.record env label ty v) :=
  ite (.next withRegistry fun _ => emit) (pure trivial)

theorem breadcrumb {env : Env} : Idle (Lowering.breadcrumb env) :=
  ite (.next withRegistry fun _ => emit) (pure trivial)

theorem emitMarks {env : Env} {span : Span} {kind : StmtKind} :
    Idle (Lowering.emitMarks env span kind) := by
  rw [emitMarks_eq]
  refine ite (next (ite emit (pure trivial)) fun _ => ?_) (pure trivial)
  exact ite (.next withRegistry fun _ => emit) (pure trivial)

/-! ### Leaving regions -/

theorem propagate {env : Env} : Idle (Lowering.propagate env) := by
  refine context.next fun cx => ?_
  split
  · exact .next record fun _ => emit
  · exact .next catchLabel fun _ => emit
  · exact .next useLabelVar fun _ => .next emit fun _ =>
      .next finallyLabel fun _ => emit
  · exact .next continuationLabel fun _ => emit

theorem propagateIfAny {env : Env} : Idle (Lowering.propagateIfAny env) :=
  .next (.commandsOf propagate) fun _ => emit

theorem leaveNormally {region : Nat} : Idle (Lowering.leaveNormally region) :=
  .next useLabelVar fun _ => emit.next fun _ => .next finallyLabel fun _ => emit

theorem takeException {region : Nat} : Idle (Lowering.takeException region) :=
  .next catchLabel fun _ => emit.next fun _ => .next exceptionLocal fun _ =>
    emit.next fun _ => emit.next fun _ => pure trivial

theorem finishCatches {env : Env} {caught : String} {arms : List (Ir.Expr × List Ir.Cmd)} :
    Idle (Lowering.finishCatches env caught arms) :=
  emitAll.next fun _ => emit.next fun _ => propagate

theorem saveForFinally : Idle Lowering.saveForFinally :=
  .next useLabelVar fun _ => freshLocal.next fun _ => freshLocal.next fun _ =>
    emit.next fun _ => emit.next fun _ => emit.next fun _ => pure trivial

theorem restoreAfterFinally {exc label : String} : Idle (Lowering.restoreAfterFinally exc label) :=
  emit.next fun _ => emit

theorem dispatchContinuation {region : Nat} : Idle (Lowering.dispatchContinuation region) := by
  refine .next continuationLabel fun _ => context.next fun cx => ?_
  dsimp only
  split
  · exact emitAll
  · exact useLabelVar.next fun _ => emitAll

theorem finishRegion {env : Env} {region : Nat} : Idle (Lowering.finishRegion env region) :=
  .next dispatchContinuation fun _ => .next continuationLabel fun _ =>
    emit.next fun _ => propagateIfAny

/-! ### Calls and objects -/

theorem emitCall {env : Env} {method : MethodRef} {args : List Ir.Expr} {outs : List String} :
    Idle (Lowering.emitCall env method args outs) :=
  emit.next fun _ => ite propagateIfAny (pure trivial)

theorem alloc {type : TypeRef} : Idle (Lowering.alloc type) :=
  freshLocal.next fun _ => emit.next fun _ => pure trivial

theorem finishNew {env : Env} {type : TypeRef} {ctor : Option MethodRef} {args : List Ir.Expr} :
    Idle (Lowering.finishNew env type ctor args) := by
  refine .next alloc fun object => ?_
  cases ctor with
  | none => exact pure trivial
  | some method => exact .next emitCall fun _ => pure trivial

end Draws

end Unwind.Operands
