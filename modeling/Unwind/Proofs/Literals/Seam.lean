import Unwind.Proofs.Lowering.Steps

/-!
# The seam between statements and expressions

Statements ask for the values of expressions, and what answers them can be replaced. A `Seam` is
whatever answers. `structural` is one layer of the usual lowering, which asks a seam for the parts
of an expression, and `replacing g` is the layer that lowers an integer literal `n` to `g n` by
itself and leaves everything else to `structural`. A seam that asks itself for the parts is a
solution of `lower = replacing g env lower`; there is exactly one, the lowering in an environment
whose literals are given by `g` (`replacing_iff`).
-/

namespace Unwind.Lowering

open Source (BinOp Call Expr ExprKind Lit MethodRef Target Ty TypeRef UnOp)
open Ir (Cmd)

/-- What lowers expressions; the flag allows a compound assignment. -/
abbrev Seam := Expr → Bool → Lower (Option Ir.Expr)

namespace Seam

/-- The value of an expression, as the seam gives it. -/
def value (lower : Seam) (e : Expr) : Lower Ir.Expr := valueOf e (lower e false)

/-- The value at a place. -/
def readTarget (lower : Seam) : Target → Lower Ir.Expr
  | .var name => return .ident name
  | .field none field => return .ident field.mapName
  | .field (some object) field => return .select field.mapName (← lower.value object)

/-- Store a value at a place. -/
def writeTarget (lower : Seam) (v : Ir.Expr) : Target → Lower Unit
  | .var name => emit (.set name v)
  | .field none field => emit (.set field.mapName v)
  | .field (some object) field => do
    let object ← lower.value object
    emit (.assign (.map field.mapName object) v)

/-- One layer of the usual lowering, around a seam that lowers the parts. -/
def structural (env : Env) (lower : Seam) : Seam
  | ⟨_, span, ty, kind⟩, compound => do
    match kind with
    | .literal (.int n) => return some (.int n)
    | .literal (.bool b) => return some (.bool b)
    | .literal .null => return some .null
    | .var name => return some (.ident name)
    | .self => return some (.ident "this")
    | .field none field => return some (.ident field.mapName)
    | .field (some object) field => return some (.select field.mapName (← lower.value object))
    | .unary op operand => return some (.unary (unOp op) (← lower.value operand))
    | .binary op ⟨_, _, _, .target target⟩ rhs =>
      unless compound do throw (.compoundAsValue span)
      let current ← lower.readTarget target
      let rhs ← lower.value rhs
      lower.writeTarget (.binary (binOp op) current rhs) target
      return some (← lower.readTarget target)
    | .binary op lhs rhs =>
      let left ← lower.value lhs
      let (right, rightCmds) ← buffered (lower.value rhs)
      return some (← finishBinary op lhs left right rightCmds)
    | .conditional cond thenExpr elseExpr =>
      let cond ← conditionOf cond (lower cond false)
      let thenPart ← buffered (lower.value thenExpr)
      let elsePart ← buffered (lower.value elseExpr)
      return some (← finishConditional ty span cond thenPart elsePart)
    | .assign target value =>
      let value ← lower.value value
      lower.writeTarget value target
      return some (← lower.readTarget target)
    | .target target => return some (← lower.readTarget target)
    | .call ⟨method, receiver, args, _⟩ =>
      let values ← (receiver.toList ++ args).mapM lower.value
      finishCall env method values ty
    | .new type ctor args => return some (← finishNew env type ctor (← args.mapM lower.value))
    | .typeOf type => return some (.typeNamed type.name)
    | .getType object => return some (.dynamicType (← lower.value object))
    | .conversion value newTy => return some (convert value.ty newTy (← lower.value value))
    | .defaultValue valueTy => return some (← defaultValue env valueTy span)
    | .pop => return some (← popOperand)

/-- The layer that lowers integer literals by itself and leaves the rest to the usual lowering. -/
def replacing (g : Int64 → Int64) (env : Env) (lower : Seam) : Seam
  | ⟨_, _, _, .literal (.int n)⟩, _ => return some (.int (g n))
  | e, compound => lower.structural env e compound

end Seam

/-! ## Tying the knot -/

/-- The environment with other literals. -/
def Env.withLiterals (env : Env) (g : Int64 → Int64) : Env := { env with literal := g }

namespace Seam

section

variable {g : Int64 → Int64} {env : Env}

theorem mapM_value (env : Env) (es : List Expr) :
    es.mapM (value (lowerExpr env)) = lowerArgs env es := by
  induction es with
  | nil => rfl
  | cons e es ih =>
    rw [List.mapM_cons, lowerArgs, ih]
    rfl

theorem mapM_operands (env : Env) (receiver : Option Expr) (args : List Expr) :
    (receiver.toList ++ args).mapM (value (lowerExpr env)) = (do
      let receiver ← lowerOption env receiver
      let args ← lowerArgs env args
      return receiver.toList ++ args) := by
  rw [← mapM_value env args]
  cases receiver with
  | none => simp [lowerOption]
  | some e =>
    simp only [Option.toList_some, List.singleton_append, List.mapM_cons, lowerOption, bind_assoc,
      pure_bind]
    rfl

theorem readTarget_lowerExpr (env : Env) (t : Target) :
    readTarget (lowerExpr env) t = Lowering.readTarget env t := by
  cases t with
  | var name => rw [readTarget, Lowering.readTarget]
  | field object field =>
    cases object <;> rw [readTarget, Lowering.readTarget]
    rfl

theorem writeTarget_lowerExpr (env : Env) (v : Ir.Expr) (t : Target) :
    writeTarget (lowerExpr env) v t = Lowering.writeTarget env t v := by
  cases t with
  | var name => rw [writeTarget, Lowering.writeTarget]
  | field object field =>
    cases object <;> rw [writeTarget, Lowering.writeTarget]
    rfl

/-- An operator whose left operand is no target. -/
theorem structural_binary {lower : Seam} (id : UInt32) {span : Span} {ty : Ty} {op : BinOp}
    {lhs rhs : Expr} {compound : Bool} (h : lhs.isTarget = false) :
    lower.structural env ⟨id, span, ty, .binary op lhs rhs⟩ compound = (do
      let left ← lower.value lhs
      let right ← buffered (lower.value rhs)
      return some (← finishBinary op lhs left right.1 right.2)) := by
  rw [structural]
  rintro i sp t target rfl
  cases h

/-- The lowering with other literals is a layer around itself. -/
theorem replacing_lowerExpr (e : Expr) (compound : Bool) :
    replacing g env (lowerExpr (env.withLiterals g)) e compound =
      lowerExpr (env.withLiterals g) e compound := by
  obtain ⟨id, span, ty, kind⟩ := e
  cases kind with
  | literal lit => cases lit <;> rw [lowerExpr] <;> rfl
  | field object field => cases object <;> rw [lowerExpr] <;> rfl
  | binary op lhs rhs =>
    by_cases ht : lhs.isTarget
    · obtain ⟨i, sp, t, lhsKind⟩ := lhs
      cases lhsKind with
      | target target =>
        rw [lowerExpr]
        simp only [replacing, structural, readTarget_lowerExpr, writeTarget_lowerExpr]
        rfl
      | _ => cases ht
    · rw [Bool.not_eq_true] at ht
      rw [lowerExpr_binary _ ht]
      exact structural_binary id ht
  | assign target e =>
    rw [lowerExpr]
    simp only [replacing, structural, readTarget_lowerExpr, writeTarget_lowerExpr]
    rfl
  | target target =>
    rw [lowerExpr]
    simp only [replacing, structural, readTarget_lowerExpr]
  | call call =>
    obtain ⟨method, receiver, args, isVirtual⟩ := call
    rw [lowerExpr]
    simp only [replacing, structural, mapM_operands, bind_assoc, pure_bind]
    rfl
  | new type ctor args =>
    rw [lowerExpr]
    simp only [replacing, structural, mapM_value]
    rfl
  | var | self | unary | conditional | typeOf | getType | conversion | defaultValue | pop =>
    rw [lowerExpr]
    rfl

variable {lower : Seam}

mutual

/-- A seam that is a layer around itself is the lowering with other literals. -/
theorem eq_lowerExpr (h : ∀ e c, lower e c = replacing g env lower e c) (e : Expr)
    (compound : Bool) : lower e compound = lowerExpr (env.withLiterals g) e compound := by
  rw [h, ← replacing_lowerExpr]
  obtain ⟨id, span, ty, kind⟩ := e
  cases kind with
  | literal lit => cases lit <;> rfl
  | field object field =>
    cases object with
    | none => rfl
    | some object => simp only [replacing, structural, value, eq_lowerExpr h object]
  | unary _ e | getType e | conversion e =>
    simp only [replacing, structural, value, eq_lowerExpr h e]
  | binary op lhs rhs =>
    by_cases ht : lhs.isTarget
    · obtain ⟨i, sp, t, lhsKind⟩ := lhs
      cases lhsKind with
      | target target =>
        simp only [replacing, structural, value, eq_readTarget h target, eq_writeTarget h target,
          eq_lowerExpr h rhs]
      | _ => cases ht
    · rw [Bool.not_eq_true] at ht
      simp only [replacing, structural_binary id ht, value, eq_lowerExpr h lhs, eq_lowerExpr h rhs]
  | conditional cond thenExpr elseExpr =>
    simp only [replacing, structural, value, eq_lowerExpr h cond, eq_lowerExpr h thenExpr,
      eq_lowerExpr h elseExpr]
  | assign target e =>
    simp only [replacing, structural, value, eq_readTarget h target, eq_writeTarget h target,
      eq_lowerExpr h e]
  | target target => simp only [replacing, structural, eq_readTarget h target]
  | call call =>
    obtain ⟨method, receiver, args, isVirtual⟩ := call
    cases receiver with
    | none =>
      simp only [replacing, structural, Option.toList_none, List.nil_append, eq_values h args]
    | some receiver =>
      simp only [replacing, structural, Option.toList_some, List.singleton_append, List.mapM_cons,
        eq_values h args, value, eq_lowerExpr h receiver]
  | new type ctor args => simp only [replacing, structural, eq_values h args]
  | var | self | typeOf | defaultValue | pop => rfl

theorem eq_readTarget (h : ∀ e c, lower e c = replacing g env lower e c) (t : Target) :
    lower.readTarget t = readTarget (lowerExpr (env.withLiterals g)) t := by
  cases t with
  | var name => rfl
  | field object field =>
    cases object with
    | none => rfl
    | some object => simp only [readTarget, value, eq_lowerExpr h object]

theorem eq_writeTarget (h : ∀ e c, lower e c = replacing g env lower e c) (t : Target)
    (v : Ir.Expr) :
    lower.writeTarget v t = writeTarget (lowerExpr (env.withLiterals g)) v t := by
  cases t with
  | var name => rfl
  | field object field =>
    cases object with
    | none => rfl
    | some object => simp only [writeTarget, value, eq_lowerExpr h object]

theorem eq_values (h : ∀ e c, lower e c = replacing g env lower e c) (es : List Expr) :
    es.mapM lower.value = es.mapM (value (lowerExpr (env.withLiterals g))) := by
  cases es with
  | nil => rfl
  | cons e es => simp only [List.mapM_cons, value, eq_lowerExpr h e, eq_values h es]

end

/-- Replacing literals at the seam, and asking the seam for all parts again, is the lowering with
other literals and nothing else. -/
theorem replacing_iff : (∀ e c, lower e c = replacing g env lower e c) ↔
    lower = lowerExpr (env.withLiterals g) := by
  constructor
  · intro h
    funext e c
    exact eq_lowerExpr h e c
  · rintro rfl e c
    exact (replacing_lowerExpr e c).symm

end

end Seam

end Unwind.Lowering
