import Unwind.Proofs.Evaluation.Acceptance
import Unwind.Proofs.Evaluation.Silence

/-!
# The lowering preserves evaluation

The commands of an expression, and then its value, do what evaluating the expression from left to
right does. Operators and conditionals keep the value of one operand in a variable while the
commands of another one run, so that they need no condition. The operands of calls are only looked
at by the call; those that are lowered without commands change nothing, and so do not disturb each
other.
-/

namespace Unwind.Lowering

open Source
open Ir (Cmd)
open Evaluation (Conforms Implements Lowered Mirrors Yields)
open Machine (Executes)

/-- The lowering of the expression is accepted in every state, and what it emits does what the
evaluation of the expression does, whatever the callees do and whatever the store holds: the same
value, the same calls with the same arguments in the same order, and the same final store. -/
def Preserves (Γ : Signature) (env : Env) (e : Expr) (compound : Bool) : Prop :=
  ∀ t, ∃ r t' cs, Runs (lowerExpr env e compound) t r t' ∧ t'.cmds = t.cmds ++ cs ∧
    ∀ W w, W.Respects Γ → Implements w W Γ env → ∀ s d, Conforms Γ s → Mirrors s d →
      ∃ o s' d', Yields (Evaluation.eval W e) s o s' ∧ Executes w cs d d' ∧ Mirrors s' d' ∧
        r.map (Machine.eval w d') = o

variable {Γ : Signature} {env : Env}

/-- Expressions whose operands keep their values until they are used. -/
theorem preserves_of_steady {e : Expr} {compound : Bool} (hlit : env.literal = id)
    (ht : e.wellTyped Γ = true) (hst : e.steady compound = true) : Preserves Γ env e compound := by
  intro t
  have hreturns : Returns _ (lowerExpr env e compound) := lowerExpr_returns e compound ht hst
  obtain ⟨r, t', h, -⟩ := hreturns t
  obtain ⟨cs, hcs, -⟩ := lowerExpr_silently e compound h
  refine ⟨r, t', cs, h, hcs, fun W w hW hw s d hfit hm => ?_⟩
  obtain ⟨cs', hl⟩ := Evaluation.lowerExpr_lowered hW hw hlit e compound ht hst h
  have hsame : cs' = cs := List.append_cancel_left (hl.emitted.cmds.symm.trans hcs)
  obtain ⟨o, s', hy, -⟩ := Evaluation.eval_sound hW e ht s hfit
  obtain ⟨d', he, hm', -, hval⟩ := hl.does hfit hm trivial hy
  exact ⟨o, s', d', hy, hsame ▸ he, hm', hval⟩

/-! ## Operands without commands -/

/-- The expression is lowered without commands. -/
def Silent (env : Env) (e : Expr) : Prop :=
  ∀ t r t', Runs (lowerExpr env e false) t r t' → t'.cmds = t.cmds

mutual

/-- Literals, variables, fields, operators, conditionals, conversions, assignments to variables,
and calls whose operands are lowered without commands. -/
def Elementary (env : Env) : Expr → Prop
  | ⟨_, _, _, kind⟩ =>
    match kind with
    | .literal _ | .var _ | .self | .field none _ => True
    | .field (some operand) _ | .unary _ operand | .conversion operand _
    | .assign (.var _) operand => Elementary env operand
    | .binary _ lhs rhs => lhs.isTarget = false ∧ Elementary env lhs ∧ Elementary env rhs
    | .conditional cond thenExpr elseExpr =>
      Elementary env cond ∧ Elementary env thenExpr ∧ Elementary env elseExpr
    | .call ⟨_, receiver, args, _⟩ => SilentOption env receiver ∧ SilentAll env args
    | .assign (.field _ _) _ | .target _ | .new _ _ _ | .typeOf _ | .getType _ | .defaultValue _
    | .pop => False

def SilentOption (env : Env) : Option Expr → Prop
  | none => True
  | some e => Elementary env e ∧ Silent env e

def SilentAll (env : Env) : List Expr → Prop
  | [] => True
  | e :: es => (Elementary env e ∧ Silent env e) ∧ SilentAll env es

end

/-- What is lowered without commands writes nothing. -/
theorem Silent.writes {e : Expr} (hs : Silent env e) (ht : e.wellTyped Γ = true)
    (hst : e.steady false = true) : e.writes = {} := by
  have hreturns : Returns _ (lowerExpr env e false) := lowerExpr_returns e false ht hst
  obtain ⟨r, t', h, -⟩ := hreturns {}
  obtain ⟨cs, hcs, hwrites⟩ := lowerExpr_silently e false h
  exact hwrites (List.append_right_eq_self.mp (hcs.symm.trans (hs _ r t' h)))

mutual

theorem Elementary.steady (e : Expr) (h : Elementary env e) (ht : e.wellTyped Γ = true) :
    e.steady false = true := by
  obtain ⟨id, span, ty, kind⟩ := e
  cases kind with
  | literal | var | self => rfl
  | field object f =>
    cases object with
    | none => rfl
    | some object =>
      simp only [Expr.wellTyped, optionTyped, Bool.and_eq_true] at ht
      exact Elementary.steady object h ht.1.1
  | unary op operand | conversion operand newTy =>
    simp only [Expr.wellTyped, Bool.and_eq_true] at ht
    exact Elementary.steady operand h ht.1
  | binary op lhs rhs =>
    obtain ⟨htar, hl, hr⟩ := h
    simp only [Expr.wellTyped, Bool.and_eq_true] at ht
    rw [Expr.steady_binary htar, Bool.and_eq_true]
    exact ⟨Elementary.steady lhs hl ht.1, Elementary.steady rhs hr ht.2.1⟩
  | conditional cond thenExpr elseExpr =>
    simp only [Expr.wellTyped, Bool.and_eq_true] at ht
    simp only [Expr.steady, Bool.and_eq_true]
    exact ⟨Elementary.steady cond h.1 ht.1, Elementary.steady thenExpr h.2.1 ht.2.1,
      Elementary.steady elseExpr h.2.2 ht.2.2.1⟩
  | assign target value =>
    cases target with
    | var name =>
      simp only [Expr.wellTyped, Bool.and_eq_true] at ht
      simp only [Expr.steady, Bool.and_eq_true]
      exact ⟨rfl, Elementary.steady value h ht.2.1, rfl⟩
    | field => exact h.elim
  | call call =>
    obtain ⟨method, receiver, args, isVirtual⟩ := call
    obtain ⟨hr, ha⟩ := h
    simp only [Expr.wellTyped, Bool.and_eq_true] at ht
    obtain ⟨hsta, hwa, hund⟩ := SilentAll.steady args ha ht.2.1
    simp only [Expr.steady, Bool.and_eq_true]
    refine ⟨SilentOption.steady receiver hr ht.1, hsta, ?_⟩
    cases receiver with
    | none => exact hund
    | some receiver =>
      simp only [Option.toList_some, List.singleton_append, undisturbed, Bool.and_eq_true]
      exact ⟨hwa ▸ Area.apart_empty _, hund⟩
  | target | new | typeOf | getType | defaultValue | pop => exact h.elim

theorem SilentOption.steady (e : Option Expr) (h : SilentOption env e)
    (ht : optionTyped Γ e = true) : steadyOption e = true := by
  cases e with
  | none => rfl
  | some e =>
    simp only [optionTyped, Bool.and_eq_true] at ht
    exact Elementary.steady e h.1 ht.1

theorem SilentAll.steady (es : List Expr) (h : SilentAll env es) (ht : allTyped Γ es = true) :
    steadyAll es = true ∧ writesAll es = {} ∧ undisturbed es = true := by
  cases es with
  | nil => exact ⟨rfl, rfl, rfl⟩
  | cons e es =>
    obtain ⟨⟨helem, hsilent⟩, hes⟩ := h
    simp only [allTyped, Bool.and_eq_true] at ht
    have hst := Elementary.steady e helem ht.1.1
    obtain ⟨hsta, hwa, hund⟩ := SilentAll.steady es hes ht.2
    rw [steadyAll, writesAll, undisturbed, hsilent.writes ht.1.1 hst, hwa, Bool.and_eq_true,
      Bool.and_eq_true]
    exact ⟨⟨hst, hsta⟩, rfl, Area.apart_empty _, hund⟩

end

/-- **Lowering preserves evaluation.** Operators, conditionals and assignments to variables may be
nested in any way; the operands of calls are lowered without commands. -/
theorem elementary_preserved (e : Expr) (hlit : env.literal = id) (ht : e.wellTyped Γ = true)
    (he : Elementary env e) : Preserves Γ env e false :=
  preserves_of_steady hlit ht (he.steady e ht)

/-! ## An operator whose right operand is a call -/

/-- One variable, `x`, and methods whose results are integers. -/
def oneVariable : Signature where
  var x := if x = "x" then some .int else none
  static _ := none
  field _ := none
  result _ := some .int
  var_proper h := by
    split at h
    · next hx => rw [hx]; decide
    · cases h
  static_proper := nofun

/-- Callees that return five, as the source and as the machine call them. -/
def fives : Evaluation.World := ⟨fun _ => false, fun _ _ m => (m, .int 5)⟩

def machineFives : Machine.World :=
  ⟨fun _ _ => false, fun _ => false, fun _ _ => rfl, fun _ _ m => (m, [.int 5])⟩

theorem fives_respects : fives.Respects oneVariable where
  memory _ _ _ hm := hm
  result _ _ _ _ _ ht _ := by
    cases ht
    exact ⟨5, rfl⟩

theorem fives_implements : Implements machineFives fives oneVariable {} where
  isStruct t := by cases t <;> rfl
  memory _ _ _ := rfl
  result _ _ _ _ _ _ := rfl
  isGlobal_var _ := rfl
  isGlobal_static h := nomatch h

/-- A store in which every variable is one. -/
def ones : Evaluation.Store where
  locals _ := .int 1

theorem ones_conforms : Conforms oneVariable ones where
  var h := by
    unfold oneVariable at h
    dsimp only at h
    split at h
    · cases h
      exact ⟨1, rfl⟩
    · cases h
  memory := ⟨rfl, nofun, nofun⟩

theorem ones_mirrors : Mirrors ones ⟨fun _ => .int 1, {}, []⟩ := ⟨fun _ _ => rfl, rfl, rfl⟩

/-- `(x = 2) + f(x)`. -/
def assignThenCall : Expr :=
  .ofKind (.binary .add (.ofKind (.assign (.var "x") (.int 2)) .int)
    (.ofCall (.direct ⟨⟨"T", none⟩, "f", []⟩ none [.ofKind (.var "x") .int]) .int)) .int

/-- The call sees the new value of `x`, and so does the operator. -/
theorem assignThenCall_preserved :
    ∃ r t cs, Runs (lowerExpr {} assignThenCall false) {} r t ∧ t.cmds = cs ∧
      ∃ d, Executes machineFives cs ⟨fun _ => .int 1, {}, []⟩ d ∧
        r.map (Machine.eval machineFives d) = some (.int 7) ∧ d.locals "x" = .int 2 ∧
        d.calls = [⟨"T.f", [.int 2]⟩] := by
  have hsilent : Silent {} (.ofKind (.var "x") .int) := by
    rintro t r t' h
    cases h
    rfl
  have hpreserved : Preserves oneVariable {} assignThenCall false :=
    elementary_preserved assignThenCall rfl (by decide)
      ⟨rfl, trivial, trivial, ⟨trivial, hsilent⟩, trivial⟩
  obtain ⟨r, t, cs, h, hcs, hall⟩ := hpreserved {}
  obtain ⟨o, s, d, hy, he, hm, hval⟩ := hall fives machineFives fives_respects fives_implements ones
    ⟨fun _ => .int 1, {}, []⟩ ones_conforms ones_mirrors
  have hyields : Yields (Evaluation.eval fives assignThenCall) ones (some (.int 7))
      { ones with
        locals := Function.update ones.locals "x" (.int 2)
        calls := [⟨⟨⟨"T", none⟩, "f", []⟩, false, none, [.int 2]⟩] } := rfl
  obtain ⟨rfl, rfl⟩ := hyields.unique hy
  exact ⟨r, t, cs, h, hcs, d, he, hval, hm.locals "x" (by decide), hm.calls⟩

end Unwind.Lowering
