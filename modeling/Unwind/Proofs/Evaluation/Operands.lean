import Unwind.Proofs.Evaluation.Preservation

/-!
# The operands that are passed

Evaluated from left to right, the receiver and the arguments of a call have certain values; these
are the values that the callee should see. The arguments are lowered one after the other, and the
expressions for their values stand side by side in the call. So the callee does see them as long as
no argument reads what a later one writes, and otherwise it may not: the arguments of `f(x, x = 2)`
are both two.
-/

namespace Unwind.Evaluation

open Source
open Lowering (Env Runs binOp fives fives_implements fives_respects lowerExpr machineFives
  oneVariable ones ones_conforms ones_mirrors)
open Machine (Data Executes Value)

/-- The operands that an expression uses together, evaluated from left to right: the receiver and
the arguments of a call, the arguments of a constructor, the old value and the right operand of a
compound assignment to a local. -/
def evalOperands (W : World) (e : Expr) : Evaluating (List Value) :=
  match e.kind with
  | .call ⟨_, receiver, args, _⟩ => do
    let o ← evalOption W receiver
    return o.toList ++ (← evalAll W args)
  | .new _ _ args => evalAll W args
  | .binary _ ⟨_, _, _, .target (.var name)⟩ rhs => do
    let old ← readLocal name
    return [old, ← demand (← eval W rhs)]
  | _ => return []

/-- Behind the calls made before, the machine has used the values `xs`: it has passed them to the
callee, or stored what the operator makes of them. -/
def Uses (e : Expr) (xs : List Value) (calls : List Machine.Call) (d : Data) : Prop :=
  match e.kind with
  | .call ⟨method, _, _, _⟩ => d.calls = calls ++ [⟨method.procedureName, xs⟩]
  | .new _ (some method) _ =>
    ∃ object, d.calls = calls ++ [⟨method.procedureName, object :: xs⟩]
  | .binary op ⟨_, _, _, .target (.var name)⟩ _ =>
    ∃ old right, xs = [old, right] ∧ d.calls = calls ∧
      d.locals name = Machine.binary (binOp op) old right
  | _ => True

/-- The lowering of the expression is accepted in every state, and the values that the commands use
are those that the operands had when they were evaluated from left to right. -/
def OperandsKept (Γ : Signature) (env : Env) (e : Expr) : Prop :=
  ∀ t, ∃ r t' cs, Runs (lowerExpr env e true) t r t' ∧ t'.cmds = t.cmds ++ cs ∧
    ∀ W w, W.Respects Γ → Implements w W Γ env → ∀ s d, Conforms Γ s → Mirrors s d →
      ∃ xs s₁ d', Yields (evalOperands W e) s xs s₁ ∧ Executes w cs d d' ∧
        Uses e xs (s₁.calls.map Invocation.toCall) d'

section

variable {Γ : Signature} {W : World} {s s' : Store} {d : Data} {o : Option Value}

/-- An evaluation starts with the operands, and a machine that mirrors its end has used their
values. -/
theorem uses_of_eval (e : Expr) (ht : e.wellTyped Γ = true) (h : Yields (eval W e) s o s')
    (hm : Mirrors s' d) :
    ∃ xs s₁, Yields (evalOperands W e) s xs s₁ ∧ Uses e xs (s₁.calls.map Invocation.toCall) d := by
  obtain ⟨id, span, ty, kind⟩ := e
  cases kind with
  | call call =>
    obtain ⟨method, receiver, args, isVirtual⟩ := call
    simp only [eval, yields_bind] at h
    obtain ⟨x, s₁, h₁, vs, s₂, h₂, h₃⟩ := h
    obtain ⟨-, -, rfl⟩ := yields_perform.mp h₃
    have hcalls := hm.calls
    rw [List.map_append] at hcalls
    exact ⟨_, s₂, yields_bind.mpr ⟨x, s₁, h₁, yields_bind.mpr ⟨vs, s₂, h₂, rfl⟩⟩, hcalls⟩
  | new type ctor args =>
    simp only [eval, yields_bind] at h
    obtain ⟨vs, s₁, h₁, object, s₂, h₂, h₃⟩ := h
    refine ⟨vs, s₁, h₁, ?_⟩
    cases ctor with
    | none => trivial
    | some method =>
      obtain ⟨-, rfl⟩ := yields_create.mp h₂
      simp only [yields_bind, yields_pure] at h₃
      obtain ⟨_, s₃, h₃, -, rfl⟩ := h₃
      obtain ⟨-, -, rfl⟩ := yields_perform.mp h₃
      have hcalls := hm.calls
      rw [List.map_append] at hcalls
      exact ⟨object, hcalls⟩
  | binary op lhs rhs =>
    obtain ⟨i, sp, lty, lhsKind⟩ := lhs
    cases lhsKind with
    | target target =>
      cases target with
      | var name =>
        simp only [eval, readTarget, writeTarget, yields_bind, yields_demand, yields_readLocal,
          yields_writeLocal] at h
        obtain ⟨old, s₀, hold, o, s₁, h₁, right, s₂, ⟨hright, rfl⟩, _, s₃, rfl, _, _, ⟨-, rfl⟩,
          h₂⟩ := h
        obtain ⟨-, rfl⟩ := yields_pure.mp h₂
        simp only [Expr.wellTyped, Bool.and_eq_true] at ht
        obtain ⟨t, hx, -⟩ := (Option.any_eq_true _ _).mp ht.1.2
        have hvalue : Yields (do return [old, ← demand (← eval W rhs)]) s₀ [old, right] s₂ :=
          yields_bind.mpr ⟨o, s₂, h₁,
            yields_bind.mpr ⟨right, s₂, yields_demand.mpr ⟨hright, rfl⟩, rfl⟩⟩
        refine ⟨_, s₂, yields_bind.mpr ⟨old, s₀, yields_readLocal.mpr hold, hvalue⟩, old, right,
          rfl, hm.calls, ?_⟩
        rw [hm.locals name (Γ.var_proper hx)]
        exact Function.update_self _ _ _
      | field => exact ⟨[], s, rfl, trivial⟩
    | _ => exact ⟨[], s, rfl, trivial⟩
  | _ => exact ⟨[], s, rfl, trivial⟩

end

/-- **Operands keep their values.** In a well-typed call, creation of an object or compound
assignment to a local, the commands use the values that the operands had under evaluation from left
to right, as long as no operand reads what a later one writes, here and in the operands
themselves. -/
theorem operands_kept {Γ : Signature} {env : Env} (e : Expr) (hlit : env.literal = id)
    (ht : e.wellTyped Γ = true) (hst : e.steady true = true) : OperandsKept Γ env e := by
  intro t
  obtain ⟨r, t', cs, h, hcs, hall⟩ := Lowering.preserves_of_steady hlit ht hst t
  refine ⟨r, t', cs, h, hcs, fun W w hW hw s d hfit hm => ?_⟩
  obtain ⟨o, s', d', hy, he, hm', -⟩ := hall W w hW hw s d hfit hm
  obtain ⟨xs, s₁, hxs, huses⟩ := uses_of_eval e ht hy hm'
  exact ⟨xs, s₁, d', hxs, he, huses⟩

/-- `f(x, g(x))`. -/
def nestedCall : Expr :=
  .ofCall (.direct ⟨⟨"T", none⟩, "f", []⟩ none [.var "x" .int,
    .ofCall (.direct ⟨⟨"T", none⟩, "g", []⟩ none [.var "x" .int]) .int]) .int

theorem nestedCall_operands_kept :
    ∃ r t cs, Runs (lowerExpr {} nestedCall true) {} r t ∧ t.cmds = cs ∧
      ∃ d, Executes machineFives cs ⟨fun _ => .int 1, {}, []⟩ d ∧
        d.calls = [⟨"T.g", [.int 1]⟩, ⟨"T.f", [.int 1, .int 5]⟩] := by
  have hoperands : OperandsKept oneVariable {} nestedCall :=
    operands_kept nestedCall rfl (by decide) (by decide)
  obtain ⟨r, t, cs, h, hcs, hall⟩ := hoperands {}
  obtain ⟨xs, s, d, hy, he, huses⟩ := hall fives machineFives
    fives_respects fives_implements ones ⟨fun _ => .int 1, {}, []⟩
    ones_conforms ones_mirrors
  have hyields : Yields (evalOperands fives nestedCall) ones [.int 1, .int 5]
      { ones with calls := [⟨⟨⟨"T", none⟩, "g", []⟩, false, none, [.int 1]⟩] } := rfl
  obtain ⟨rfl, rfl⟩ := hyields.unique hy
  exact ⟨r, t, cs, h, hcs, d, he, huses⟩

/-- `f(x, x = 2)`. -/
def overwritingCall : Expr :=
  .ofCall (.direct ⟨⟨"T", none⟩, "f", []⟩ none
    [.var "x" .int, .assign (.var "x") (.int 2)]) .int

/-- Well-typed calls may pass an argument that a later one has overwritten. -/
theorem exists_argument_overwritten :
    ¬ ∀ (Γ : Signature) (env : Env) (e : Expr), env.literal = id → e.wellTyped Γ = true →
      OperandsKept Γ env e := by
  intro hall
  obtain ⟨r, t, cs, h, hcs, hkept⟩ :=
    hall oneVariable {} overwritingCall rfl (by decide) {}
  obtain ⟨xs, s, d, hy, he, huses⟩ := hkept fives machineFives
    fives_respects fives_implements ones ⟨fun _ => .int 1, {}, []⟩
    ones_conforms ones_mirrors
  -- from left to right the arguments are one and two
  have hyields : Yields (evalOperands fives overwritingCall) ones
      [.int 1, .int 2] { ones with
        locals := Function.update ones.locals "x" (.int 2) } := rfl
  obtain ⟨rfl, rfl⟩ := hyields.unique hy
  -- the commands pass two and two
  have hcmds : cs = [Ir.Cmd.set "x" (.int 2)] ++
      ([Ir.Cmd.invoke "T.f" [.ident "x", .ident "x"] ["$tmp0"]] ++
      [Ir.Cmd.ifThen (.neq .exception .null) [.ret]]) := by
    have hrun : t.cmds = ((lowerExpr {} overwritingCall true).run {}).2.cmds := by
      rw [show (lowerExpr {} overwritingCall true).run {} = _ from h]
    exact hcs.symm.trans hrun
  have hruns : Executes machineFives cs ⟨fun _ => .int 1, {}, []⟩ _ :=
    hcmds ▸ Machine.executes_set.append
      (Machine.executes_invoke.append (Machine.executes_else rfl .nil))
  rw [hruns.unique he] at huses
  cases huses

end Unwind.Evaluation
