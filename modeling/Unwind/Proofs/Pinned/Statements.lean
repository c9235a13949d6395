import Mathlib
import Unwind.Proofs.Evaluation.Preservation
import Unwind.Proofs.Pinned.Agreement
import Unwind.Proofs.Pinned.Expressions

/-!
# Popped values are pushed values

The operands that are pushed are expressions, which are put wherever they are popped. A reader of
the source expects something else: that the value of the operand is computed by the `push`, and that
it is this value that the `pop` yields. `lowerPinned` is the lowering that does what is expected. It
keeps the values in the cells of a stack: a `push` stores a value in the first cell that is free, and
a `pop` reads the last one that is not.

For straight-line bodies the two lowerings emit code that halts alike, as long as no cell is read
behind a command that may change what its expression reads. Without this condition they differ: in
`push x; x = 2; f(pop)` the callee sees two.
-/

namespace Unwind.Pinned

open Ir (Cmd)
open Lowering
open Machine (Halts World flatten labels runAll)
open Source (Expr Stmt StmtKind Variable)

/-! ## Lowering with the values of operands in cells -/

/-- Store an operand in the first free cell. -/
def pinOperand (C : Cells) (v : Ir.Expr) : Lower Unit := do
  let depth := (← context).operands.length
  emit (.set (C.cell depth) v)
  pushOperand (C.operand depth)

mutual

/-- Lower a straight-line statement, with the values of its operands in cells. -/
def lowerPinned (C : Cells) (env : Env) : Stmt → Lower Unit
  | ⟨id, span, kind⟩ =>
    match kind with
    | .block stmts => lowerAllPinned C env stmts
    | .push e => do
      emitMarks env span kind
      pinOperand C (← value env e)
    | _ => lowerStmt env ⟨id, span, kind⟩

def lowerAllPinned (C : Cells) (env : Env) : List Stmt → Lower Unit
  | [] => return
  | s :: ss => do
    lowerPinned C env s
    lowerAllPinned C env ss

end

mutual

/-- Blocks, declarations, assertions, assignments and other expressions, pushes, and statements that
leave the procedure. -/
def isStraight : Stmt → Bool
  | ⟨_, _, kind⟩ =>
    match kind with
    | .block stmts => allStraight stmts
    | .empty | .assert _ | .assume _ | .expression _ | .localDecl .. | .ret _ | .throw _
    | .push _ => true
    | _ => false

def allStraight : List Stmt → Bool
  | [] => true
  | s :: ss => isStraight s && allStraight ss

end

/-! ## The parts of statements -/

section

variable {C : Cells} {σ : Nat → Ir.Expr} {env : Env}

theorem alongside_emitMarks (span : Span) (kind : StmtKind) :
    Alongside C σ Eq (emitMarks env span kind) (emitMarks env span kind) := by
  have hmark : ∀ {cond : Ir.Expr} {attrs : List Ir.Attr},
      Code C σ [.assert cond attrs] [.assert cond attrs] := .assert (.same _) .nil
  have hnote : ∀ {attr : Ir.Attr}, Code C σ [.marker attr] [.marker attr] := .assume (.same _) .nil
  rw [emitMarks_eq]
  exact .ite (.next (.ite (.emit hmark) (.pure rfl)) fun _ =>
    .ite (.next .withRegistry fun _ => .emit hnote) (.pure rfl)) (.pure rfl)

theorem alongside_emitAssertion {c c' : Ir.Expr} (h : Inlined C σ c c') :
    Alongside C σ Eq (emitAssertion env c) (emitAssertion env c') := by
  unfold emitAssertion
  split
  · exact .emit (.assume h .nil)
  · exact .emit (.assert h .nil)

theorem alongside_lowerReturn (span : Span) (result : Option Expr) :
    Alongside C σ Eq (lowerReturn env span result) (lowerReturn env span result) := by
  have hret : Alongside C σ Eq (emit .ret) (emit .ret) := .emit (.ret .nil)
  cases result with
  | none => exact hret
  | some e =>
    refine (value_alongside e).bind fun v v' hv => Alongside.context.bind fun cx cx' h => ?_
    obtain ⟨cs, os, rfl⟩ := h
    cases cx'.returnVar with
    | none => exact .throw
    | some slot =>
      exact .next (.lift _) fun _ => .next (alongside_record _ _ hv) fun _ =>
        .next (.emit (.set hv .nil)) fun _ => hret

theorem alongside_lowerThrow (e : Expr) :
    Alongside C σ Eq (lowerThrow env e) (lowerThrow env e) :=
  .ite ((value_alongside e).bind fun _ _ hv => .next (alongside_record _ _ hv) fun _ =>
    .next (.emit (.set hv .nil)) fun _ => alongside_propagate) (.emit (.assume (.same _) .nil))

theorem alongside_lowerLocalDecl (decl : Variable) (init : Option Expr) :
    Alongside C σ Eq (lowerLocalDecl env decl init) (lowerLocalDecl env decl init) := by
  refine Alongside.next (.lift _) fun ty => .next (alongside_declareLocal _ _) fun _ => ?_
  refine .ite ?_ ?_
  · split
    · exact .next .withRegistry fun _ => (value_alongside _).bind fun _ _ hv =>
        .emit (.call (.cons hv .nil) .nil)
    · exact (value_alongside _).bind fun _ _ hv => .emit (.set hv .nil)
  · cases init with
    | none => exact .pure rfl
    | some e =>
      exact (value_alongside e).bind fun _ _ hv =>
        .next (alongside_record _ _ hv) fun _ => .emit (.set hv .nil)

end

/-! ## Statements -/

/-- From states side by side, the second step succeeds when the first one does. The second one has
set cells to the values of the expressions that were pushed. -/
structure Pins (C : Cells) (x y : Lower Unit) : Prop where
  run : ∀ {σ : Nat → Ir.Expr} {n : Nat} {t t' u : State}, Beside C σ n t u → Runs x t () t' →
    ∃ u' τ m cs ps, Runs y u () u' ∧ Beside C τ m t' u' ∧ t'.cmds = t.cmds ++ cs ∧
      u'.cmds = u.cmds ++ ps ∧ Body C σ cs ps τ

section

variable {C : Cells} {env : Env}

theorem Pins.of_alongside {x y : Lower Unit} (h : ∀ σ, Alongside C σ Eq x y) : Pins C x y := by
  refine ⟨fun {σ n t t' u} hb hrun => ?_⟩
  obtain ⟨_, u', m, cs, ps, hrun', -, hb', hcs, hps, hcode⟩ := (h σ).run hb hrun
  exact ⟨u', σ, m, cs, ps, hrun', hb', hcs, hps, .of_code hcode⟩

theorem Pins.seq {x y x' y' : Lower Unit} (h : Pins C x y) (h' : Pins C x' y') :
    Pins C (x >>= fun _ => x') (y >>= fun _ => y') := by
  refine ⟨fun hb hrun => ?_⟩
  obtain ⟨_, t₁, h₁, h₂⟩ := runs_bind.mp hrun
  obtain ⟨u₁, τ, m₁, cs, ps, h₁', hb₁, hcs, hps, hbody⟩ := h.run hb h₁
  obtain ⟨u₂, ρ, m₂, cs', ps', h₂', hb₂, hcs', hps', hbody'⟩ := h'.run hb₁ h₂
  refine ⟨u₂, ρ, m₂, cs ++ cs', ps ++ ps', runs_bind.mpr ⟨(), u₁, h₁', h₂'⟩, hb₂, ?_, ?_,
    hbody.append hbody'⟩
  · rw [hcs', hcs, List.append_assoc]
  · rw [hps', hps, List.append_assoc]

theorem length_entries (f : Nat → Ir.Expr) (n : Nat) : (entries f n).length = n := by
  induction n with
  | zero => rfl
  | succ n ih => rw [entries, List.length_cons, ih]

/-- Operands that are there already do not change when another one is pushed. -/
theorem entries_update (σ : Nat → Ir.Expr) {n k : Nat} (h : n ≤ k) (v : Ir.Expr) :
    entries (Function.update σ k v) n = entries σ n := by
  induction n with
  | zero => rfl
  | succ n ih => rw [entries, entries, Function.update_of_ne (by omega), ih (by omega)]

/-- An expression is pushed on one side; on the other its value is stored in the next cell. -/
theorem pins_push (span : Span) (e : Expr) :
    Pins C (do emitMarks env span (.push e); pushOperand (← value env e))
      (do emitMarks env span (.push e); pinOperand C (← value env e)) := by
  refine Pins.seq (.of_alongside fun _ => alongside_emitMarks span _) ⟨fun {σ n t t' u} hb hrun => ?_⟩
  obtain ⟨v, t₁, h₁, h₂⟩ := runs_bind.mp hrun
  obtain ⟨v', u₁, m, cs, ps, h₁', hv, hb₁, hcs, hps, hcode⟩ := (value_alongside e).run hb h₁
  rw [pushOperand, changeContext, runs_modify] at h₂
  subst h₂
  obtain ⟨cs₁, rfl⟩ := hb₁.exists_eq
  have hdepth : u₁.operands.length = m := by rw [hb₁.cells, length_entries]
  have hpin : Runs (pinOperand C v') u₁ ()
      { u₁ with
        cmds := u₁.cmds ++ [.set (C.cell m) v']
        operands := entries C.operand (m + 1) } := by
    refine runs_bind.mpr ⟨_, u₁, runs_context.mpr ⟨rfl, rfl⟩, ?_⟩
    rw [hdepth]
    refine runs_bind.mpr ⟨(), _, runs_emit.mpr rfl, ?_⟩
    rw [pushOperand, changeContext, runs_modify, entries, ← hb₁.cells]
  refine ⟨_, Function.update σ m v, m + 1, cs ++ [], ps ++ [.set (C.cell m) v'],
    runs_bind.mpr ⟨v', u₁, h₁', hpin⟩, ⟨rfl, ?_, rfl⟩, ?_, ?_, .code hcode (.pin hv .nil)⟩
  · show v :: entries σ m = _
    rw [entries, Function.update_self, entries_update σ (Nat.le_refl m)]
  · rw [List.append_nil]
    exact hcs
  · rw [← List.append_assoc, ← hps]

mutual

/-- A straight-line statement is lowered with its operands in cells when it is lowered at all. -/
theorem lowerStmt_pins (s : Stmt) (hs : isStraight s = true) :
    Pins C (lowerStmt env s) (lowerPinned C env s) := by
  obtain ⟨id, span, kind⟩ := s
  have hmarked : ∀ {x y : Lower Unit}, (∀ σ, Alongside C σ Eq x y) →
      Pins C (do emitMarks env span kind; x) (do emitMarks env span kind; y) := fun h =>
    .of_alongside fun σ => .next (alongside_emitMarks span kind) fun _ => h σ
  cases kind with
  | block stmts => exact lowerStmts_pins stmts hs
  | push e => exact pins_push span e
  | empty => exact hmarked fun _ => .pure rfl
  | assert cond =>
    exact hmarked fun _ => (condition_alongside cond).bind fun _ _ h => alongside_emitAssertion h
  | assume cond =>
    exact hmarked fun _ => (condition_alongside cond).bind fun _ _ h => .emit (.assume h .nil)
  | expression e =>
    exact hmarked fun _ => (lowerExpr_alongside e _).bind fun _ _ _ => .pure rfl
  | localDecl decl init => exact hmarked fun _ => alongside_lowerLocalDecl decl init
  | ret result => exact hmarked fun _ => alongside_lowerReturn span result
  | throw e => exact hmarked fun _ => alongside_lowerThrow e
  | _ => cases hs

theorem lowerStmts_pins (ss : List Stmt) (hs : allStraight ss = true) :
    Pins C (lowerStmts env ss) (lowerAllPinned C env ss) := by
  cases ss with
  | nil => exact .of_alongside fun _ => .pure rfl
  | cons s ss =>
    simp only [allStraight, Bool.and_eq_true] at hs
    exact (lowerStmt_pins s hs.1).seq (lowerStmts_pins ss hs.2)

end

end

/-! ## Bodies -/

/-- In the code with cells, no cell is read behind a command that may change what the expression
reads that was pushed. -/
def PopsUndisturbed (C : Cells) (w : World) (env : Env) (s : Stmt) (t : State) : Prop :=
  ∀ ps u, Runs (commandsOf (lowerPinned C env s)) t ps u → undisturbed C w .none ps = true

/-- **A popped value is the value that was pushed.** Where a straight-line body is accepted, it is
also accepted with the values of its operands in cells, whatever cells are taken that its code does
not mention (there are such cells, `Cells.exists_avoidsAll`). As long as nothing between a `push` and
its `pop` may change what the pushed expression reads, the two codes halt alike: each `push` might as
well have computed the value that its `pop` yields. -/
theorem lowerStmt_pops_pushed {C : Cells} {env : Env} {w : World} {s : Stmt} {t t' : State}
    {cs : List Cmd} (hs : isStraight s = true) (ht : t.operands = [])
    (h : Runs (commandsOf (lowerStmt env s)) t cs t') (hcells : C.avoidsAll cs = true)
    (hund : PopsUndisturbed C w env s t) :
    ∃ ps u, Runs (commandsOf (lowerPinned C env s)) t ps u ∧ HaltAlike C w cs ps := by
  obtain ⟨t₁, h₁, rfl, -⟩ := runs_commandsOf.mp h
  have hstart : Beside C (fun _ => .null) 0 { t with cmds := [] } { t with cmds := [] } :=
    ⟨rfl, ht, ht⟩
  obtain ⟨u₁, τ, m, cs, ps, h₁', -, hcs, hps, hbody⟩ := (lowerStmt_pins s hs).run hstart h₁
  have hpinned : Runs (commandsOf (lowerPinned C env s)) t ps { u₁ with cmds := t.cmds } :=
    runs_commandsOf.mpr ⟨u₁, h₁', hps.symm, rfl⟩
  rw [hcs] at hcells ⊢
  exact ⟨ps, _, hpinned, hbody.haltAlike hcells (hund ps _ hpinned)⟩

/-- `push x; push f(x); y = 2; g(pop, pop)`. -/
def crossingBody : Stmt :=
  .block [.ofKind (.push (.var "x" .int)),
    .ofKind (.push (.ofCall (.direct ⟨⟨"T", none⟩, "f", []⟩ none [.var "x" .int]) .int)),
    .expr (.assign (.var "y") (.int 2)),
    .expr (.ofCall (.direct ⟨⟨"T", none⟩, "g", []⟩ none [.ofKind .pop .int, .ofKind .pop .int])
      .void)]

/-- The callee `g` sees the result of `f` first, and then `x`. -/
theorem crossingBody_pops_pushed :
    ∃ cs t d, Runs (commandsOf (lowerStmt {} crossingBody)) {} cs t ∧
      Halts machineFives cs ⟨fun _ => .int 1, {}, []⟩ d ∧
      d.calls = [⟨"T.f", [.int 1]⟩, ⟨"T.g", [.int 5, .int 1]⟩] := by
  have hreal : ((commandsOf (lowerStmt {} crossingBody)).run {}).1.map (Cells.long 0).avoidsAll =
      .ok true := by decide +kernel
  have hpinned : ((commandsOf (lowerPinned (Cells.long 0) {} crossingBody)).run {}).1.map
      (fun ps => (undisturbed (Cells.long 0) machineFives .none ps, labels (flatten ps),
        (runAll machineFives ps ⟨fun _ => .int 1, {}, []⟩).map (·.data.calls))) =
      .ok (true, [], some [⟨"T.f", [.int 1]⟩, ⟨"T.g", [.int 5, .int 1]⟩]) := by decide +kernel
  rcases h : (commandsOf (lowerStmt {} crossingBody)).run {} with ⟨_ | cs, t⟩ <;> rw [h] at hreal
  · cases hreal
  have hund : PopsUndisturbed (Cells.long 0) machineFives {} crossingBody {} := by
    intro ps u hps
    rw [show (commandsOf (lowerPinned (Cells.long 0) {} crossingBody)).run {} = _ from hps]
      at hpinned
    exact congrArg Prod.fst (Except.ok.inj hpinned)
  obtain ⟨ps, u, hps, halike⟩ :=
    lowerStmt_pops_pushed (by decide) rfl h (Except.ok.inj hreal) hund
  rw [show (commandsOf (lowerPinned (Cells.long 0) {} crossingBody)).run {} = _ from hps] at hpinned
  simp only [Except.map, Except.ok.injEq, Prod.mk.injEq] at hpinned
  obtain ⟨p, hp, hcalls⟩ := Machine.exists_halts hpinned.2.1 hpinned.2.2
  obtain ⟨d, hd, hsame⟩ := (halike _).2 p hp
  exact ⟨cs, t, d, h, hd, hsame.calls.symm.trans hcalls⟩

/-- `push x; x = 2; f(pop)`. -/
def overwritingBody : Stmt :=
  .block [.ofKind (.push (.var "x" .int)), .expr (.assign (.var "x") (.int 2)),
    .expr (.ofCall (.direct ⟨⟨"T", none⟩, "f", []⟩ none [.ofKind .pop .int]) .void)]

/-- A pushed variable may be overwritten before it is popped. -/
theorem exists_pushed_overwritten :
    ¬ ∀ (C : Cells) (env : Env) (w : World) (s : Stmt) (t t' : State) (cs : List Cmd),
      isStraight s = true → t.operands = [] → Runs (commandsOf (lowerStmt env s)) t cs t' →
      C.avoidsAll cs = true →
      ∃ ps u, Runs (commandsOf (lowerPinned C env s)) t ps u ∧ HaltAlike C w cs ps := by
  intro hall
  have hreal : ((commandsOf (lowerStmt {} overwritingBody)).run {}).1.map
      (fun cs => ((Cells.long 0).avoidsAll cs, labels (flatten cs),
        (runAll machineFives cs ⟨fun _ => .int 1, {}, []⟩).map (·.data.calls))) =
      .ok (true, [], some [⟨"T.f", [.int 2]⟩]) := by decide +kernel
  have hpinned : ((commandsOf (lowerPinned (Cells.long 0) {} overwritingBody)).run {}).1.map
      (fun ps => (labels (flatten ps),
        (runAll machineFives ps ⟨fun _ => .int 1, {}, []⟩).map (·.data.calls))) =
      .ok ([], some [⟨"T.f", [.int 1]⟩]) := by decide +kernel
  rcases h : (commandsOf (lowerStmt {} overwritingBody)).run {} with ⟨_ | cs, t⟩ <;>
    rw [h] at hreal
  · cases hreal
  simp only [Except.map, Except.ok.injEq, Prod.mk.injEq] at hreal
  obtain ⟨ps, u, hps, halike⟩ :=
    hall (Cells.long 0) {} machineFives overwritingBody {} t cs (by decide) rfl h hreal.1
  rw [show (commandsOf (lowerPinned (Cells.long 0) {} overwritingBody)).run {} = _ from hps]
    at hpinned
  simp only [Except.map, Except.ok.injEq, Prod.mk.injEq] at hpinned
  obtain ⟨d, hd, hcalls⟩ := Machine.exists_halts hreal.2.1 hreal.2.2
  obtain ⟨p, hp, hsame⟩ := (halike _).1 d hd
  -- `f` has been called with two, and should have been with one
  have hargs : [Machine.Call.mk "T.f" [.int 1]] = [⟨"T.f", [.int 2]⟩] :=
    (hp.calls_eq hpinned.1 hpinned.2).symm.trans (hsame.calls.trans hcalls)
  cases hargs

end Unwind.Pinned
