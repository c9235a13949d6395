import Unwind.Proofs.Operands.Expansion

/-!
# Lowerings in lockstep

A body and its expansion are lowered to different commands, and still step by step alongside each
other: the states have the same control and equally many operands. `Follows` says that a step
succeeds from such a state when another one does, and that both end in such states again. Jumps only
look at the control, so that a jump follows itself (`follows_lowerGoto`), and an expression follows
any other that it can stand for (`StandsFor.follows_value`).
-/

namespace Unwind.Operands

open Lowering
open Source (Expr TypeRef Ty)

/-! ## Parallel -/

/-- The bodies are at the same place, with equally many operands. -/
structure Parallel (cx cx' : Context) : Prop where
  control : control cx' = control cx
  operands : cx'.operands.length = cx.operands.length

theorem Parallel.drawn {n : Nat} {s s' t t' : State} (h : Parallel s.toContext t.toContext)
    (hs : Drawn n s s') (ht : Drawn n t t') : Parallel s'.toContext t'.toContext := by
  refine ⟨?_, ?_⟩
  · rw [ht.control, hs.control, h.control]
  · rw [ht.operands, hs.operands, List.length_drop, List.length_drop, h.operands]

/-- From a state that is like the first one, the second step succeeds when the first one does. The
results are related, and the states behind the steps are alike. -/
structure Follows {α β : Type} (R : α → β → Prop) (x : Lower α) (y : Lower β) : Prop where
  run : ∀ {s s' t : State} {a : α}, Parallel s.toContext t.toContext → Runs x s a s' →
    ∃ b t', Runs y t b t' ∧ R a b ∧ Parallel s'.toContext t'.toContext

/-- Steps whose results do not matter. -/
abbrev InStep {α β : Type} (x : Lower α) (y : Lower β) : Prop := Follows (fun _ _ => True) x y

namespace Follows

variable {α β γ δ : Type} {R : α → β → Prop} {S : γ → δ → Prop} {x : Lower α} {y : Lower β}
  {f : α → Lower γ} {g : β → Lower δ}

theorem pure {a : α} {b : β} (h : R a b) : Follows R (Pure.pure a) (Pure.pure b) := by
  refine ⟨fun {s s' t a'} ht hrun => ?_⟩
  obtain ⟨rfl, rfl⟩ := runs_pure.mp hrun
  exact ⟨b, t, runs_pure.mpr ⟨rfl, rfl⟩, h, ht⟩

theorem bind (hx : Follows R x y) (hf : ∀ a b, R a b → Follows S (f a) (g b)) :
    Follows S (x >>= f) (y >>= g) := by
  refine ⟨fun ht hrun => ?_⟩
  obtain ⟨a, s₁, h₁, h₂⟩ := runs_bind.mp hrun
  obtain ⟨b, t₁, h₁', hab, ht₁⟩ := hx.run ht h₁
  obtain ⟨d, t₂, h₂', hcd, ht₂⟩ := (hf a b hab).run ht₁ h₂
  exact ⟨d, t₂, runs_bind.mpr ⟨b, t₁, h₁', h₂'⟩, hcd, ht₂⟩

/-- Steps whose results do not matter for what comes next. -/
theorem next (hx : InStep x y) (hf : ∀ a b, Follows S (f a) (g b)) :
    Follows S (x >>= f) (y >>= g) := hx.bind fun a b _ => hf a b

theorem throw {e : Fault} : Follows R (MonadExcept.throw e) y :=
  ⟨fun _ h => absurd h not_runs_throw⟩

/-- Both steps take the same number of operands. -/
theorem draws {ok ok' : Prop} {n m : Nat} {P : α → Prop} {Q : β → Prop} (hx : Draws ok n P x)
    (hy : Draws ok' m Q y) (hok : ok → ok') (hn : m = n) : InStep x y := by
  subst hn
  refine ⟨fun {s s' t a} ht hrun => ?_⟩
  obtain ⟨hok₁, hd, -⟩ := hx.drawn hrun
  obtain ⟨b, t', hrun'⟩ := hy.succeeds (hok hok₁) (ht.operands ▸ hd.enough)
  exact ⟨b, t', hrun', trivial, ht.drawn hd (hy.drawn hrun').2.1⟩

theorem idle (hx : Idle x) (hy : Idle y) : InStep x y := draws hx hy id rfl

/-- The second step does something more in front. -/
theorem behind {y : Lower δ} {g : δ → Lower β} (hy : Idle y) (h : ∀ d, Follows R x (g d)) :
    Follows R x (y >>= g) := by
  have hskip : InStep (Pure.pure () : Lower Unit) y := idle (.pure trivial) hy
  refine ⟨fun ht hrun => ?_⟩
  exact (hskip.next fun _ d => h d).run ht (runs_bind.mpr ⟨(), _, runs_pure.mpr ⟨rfl, rfl⟩, hrun⟩)

theorem commandsOf {x y : Lower Unit} (h : InStep x y) :
    InStep (Lowering.commandsOf x) (Lowering.commandsOf y) := by
  refine ⟨fun {s s' t cs} ht hrun => ?_⟩
  obtain ⟨s₁, h₁, -, rfl⟩ := runs_commandsOf.mp hrun
  have ht' : Parallel ({ s with cmds := [] } : State).toContext
      ({ t with cmds := [] } : State).toContext := ⟨ht.control, ht.operands⟩
  obtain ⟨_, t₁, h₁', -, ht₁⟩ := h.run ht' h₁
  exact ⟨_, _, runs_commandsOf.mpr ⟨t₁, h₁', rfl, rfl⟩, trivial, ht₁.control, ht₁.operands⟩

theorem context : Follows Parallel Lowering.context Lowering.context := by
  refine ⟨fun {s s' t cx} ht hrun => ?_⟩
  obtain ⟨rfl, rfl⟩ := runs_context.mp hrun
  exact ⟨_, t, runs_context.mpr ⟨rfl, rfl⟩, ht, ht⟩

theorem withContext {f : Context → α × Context} {g : Context → β × Context}
    (h : ∀ {cx cx'}, Parallel cx cx' → R (f cx).1 (g cx').1 ∧ Parallel (f cx).2 (g cx').2) :
    Follows R (Lowering.withContext f) (Lowering.withContext g) := by
  refine ⟨fun {s s' t a} ht hrun => ?_⟩
  rw [Lowering.withContext, runs_modifyGet] at hrun
  cases hrun
  exact ⟨_, _, runs_modifyGet.mpr rfl, h ht⟩

theorem changeContext {f g : Context → Context}
    (h : ∀ {cx cx'}, Parallel cx cx' → Parallel (f cx) (g cx')) :
    InStep (Lowering.changeContext f) (Lowering.changeContext g) := by
  refine ⟨fun {s s' t u} ht hrun => ?_⟩
  rw [runs_modify.mp hrun]
  exact ⟨(), _, runs_modify.mpr rfl, trivial, h ht⟩

/-- A fault of the first part is not compared. -/
theorem lift {e : Except Fault α} (h : ∀ a, e = .ok a → Follows R (Pure.pure a : Lower α) y) :
    Follows R (liftM e) y := by
  cases e with
  | ok a => exact h a rfl
  | error e => exact throw

theorem irTy (ty : Ty) (span span' : Span) :
    InStep (liftM (Lowering.irTy ty span) : Lower Ir.Ty) (liftM (Lowering.irTy ty span')) := by
  cases ty with
  | void => exact throw
  | bool | int | named => exact pure trivial

end Follows

/-! ## Regions and operands -/

section

variable {env : Env}

/-- A region gets the number of regions before it. -/
theorem follows_enterRegion (node : UInt32) (types : List (Option TypeRef)) :
    Follows (fun id id' => id' = id) (enterRegion node types) (enterRegion node types) := by
  have hentered : ∀ cx, control (cx.enterRegion node types).2 =
      { control cx with nodes := (control cx).nodes ++ [node] } := fun cx => by
    simp [control, Context.enterRegion]
  refine .withContext fun {cx cx'} h => ⟨?_, ?_, h.operands⟩
  · have hnodes : cx'.regions.map (·.node) = cx.regions.map (·.node) :=
      congrArg Control.nodes h.control
    show cx'.regions.length = cx.regions.length
    simpa using congrArg List.length hnodes
  · rw [hentered, hentered, h.control]

/-- Both stacks of regions are changed alike. -/
theorem Parallel.withStack {cx cx' : Context} (h : Parallel cx cx') (f : List Entry → List Entry) :
    Parallel { cx with stack := f cx.stack } { cx' with stack := f cx'.stack } :=
  ⟨congrArg (fun c : Control => { c with stack := f c.stack }) h.control, h.operands⟩

theorem follows_pushPhase (region : Nat) (phase : Phase) :
    InStep (pushPhase region phase) (pushPhase region phase) :=
  Follows.next (.idle .report .report) fun _ _ => .changeContext fun h => h.withStack _

theorem follows_popPhase (region : Nat) (phase : Phase) :
    InStep (popPhase region phase) (popPhase region phase) := by
  refine Follows.context.bind fun cx cx' h => ?_
  rw [stack_of_control h.control]
  refine Follows.next (.changeContext fun h => h.withStack _) fun _ _ => ?_
  split
  · exact .throw
  · exact .pure trivial

theorem follows_pushOperand (v v' : Ir.Expr) : InStep (pushOperand v) (pushOperand v') :=
  .changeContext fun h => ⟨h.control, by simp [h.operands]⟩

/-! ## Jumps -/

theorem position?_eq (cx : Context) (node : UInt32) :
    cx.position? node = (control cx).stack.reverse.findIdx? fun e =>
      (control cx).nodes[e.region]?.any (· == node) := by
  unfold Context.position?
  congr 1
  funext e
  simp only [control, List.getElem?_map, Option.any_map]
  cases cx.regions[e.region]? <;> rfl

/-- How many regions a jump stays in can be told from the control. -/
theorem sharedDepth_congr (env : Env) {cx cx' : Context} (h : Parallel cx cx') (target : String) :
    sharedDepth env cx' target = sharedDepth env cx target := by
  have hscopes : cx'.scopes = cx.scopes := congrArg Control.scopes h.control
  unfold sharedDepth
  simp only [hscopes, position?_eq, h.control]

theorem follows_escape (target : String) (span : Span) (entries : List Entry) :
    InStep (escape target span entries) (escape target span entries) := by
  induction entries with
  | nil =>
    rw [escape]
    exact .pure trivial
  | cons entry entries ih =>
    obtain ⟨region, phase⟩ := entry
    cases phase with
    | inFinally =>
      rw [escape]
      exact .throw
    | _ =>
      rw [escape]
      · refine Follows.next (.idle .addEscapingEdge .addEscapingEdge) fun _ _ => ?_
        refine Follows.next (.idle .useLabelVar .useLabelVar) fun _ _ => ?_
        refine Follows.next (.idle .emit .emit) fun _ _ => ?_
        refine Follows.next (.idle .finallyLabel .finallyLabel) fun _ _ => ?_
        refine Follows.next (.idle .emit .emit) fun _ _ => ?_
        exact Follows.next (.idle .emit .emit) fun _ _ => ih
      · simp

theorem follows_lowerGoto (target : String) (span : Span) :
    InStep (lowerGoto env target span) (lowerGoto env target span) := by
  refine Follows.context.bind fun cx cx' h => ?_
  have hstack := stack_of_control h.control
  rw [sharedDepth_congr env h, Context.depth, Context.depth, hstack]
  refine Follows.bind (R := fun keep keep' => keep' = keep) ?_ fun keep keep' hkeep => ?_
  · exact .lift fun keep hkeep => by
      rw [hkeep]
      exact .pure rfl
  · subst hkeep
    exact (follows_escape target span _).next fun _ _ => .idle .emit .emit

theorem follows_lowerRethrow (span : Span) :
    InStep (lowerRethrow env span) (lowerRethrow env span) := by
  unfold lowerRethrow
  split
  · refine Follows.context.bind fun cx cx' h => ?_
    rw [Context.innermostCatch?, Context.innermostCatch?, stack_of_control h.control]
    split
    · refine .idle ?_ ?_ <;>
        exact Draws.exceptionLocal.next fun _ => Draws.record.next fun _ => Draws.emit.next fun _ =>
          .propagate
    · exact .throw
  · exact .idle .emit .emit

end

end Unwind.Operands
