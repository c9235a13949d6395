import Unwind.Proofs.Machine
import Unwind.Source.Expr

/-!
# Well-typed expressions

Types are looked at as far as values depend on them: a truth value, an integer and a reference are
told apart, and the objects that a reference may refer to are not. That is enough for operators to
be total, and for the short-circuit operators to be functions on truth values.

A value that is popped has the type of what was pushed, which an expression alone does not tell;
`pop` has no type here.
-/

namespace Unwind.Source

open Machine (Value isGenerated)

/-! ## Values of a type -/

/-- The value has the shape that the type asks for. -/
def Ty.Has (t : Ty) (v : Value) : Prop :=
  match t.valueKind? with
  | some .boolean => ∃ b, v = .bool b
  | some .integer => ∃ n, v = .int n
  | some .reference => True
  | none => False

/-- Values of the type `s` may stand where values of the type `t` are expected. -/
def Ty.suits (s t : Ty) : Bool := !s.isVoid && s.valueKind? == t.valueKind?

theorem Ty.suits_iff {s t : Ty} :
    s.suits t = true ↔ s.isVoid = false ∧ s.valueKind? = t.valueKind? := by
  simp [suits]

theorem Ty.suits_of_valueKind? {s t : Ty} (ht : t.isVoid = false)
    (h : s.valueKind? = t.valueKind?) : s.suits t = true := by
  refine suits_iff.2 ⟨?_, h⟩
  cases s with
  | void =>
    cases t with
    | void => cases ht
    | bool | int | named => cases h
  | bool | int | named => rfl

theorem Ty.suits_right {s t : Ty} (h : s.suits t = true) : t.isVoid = false := by
  obtain ⟨hs, hk⟩ := suits_iff.1 h
  cases t with
  | void =>
    cases s with
    | void => cases hs
    | bool | int | named => cases hk
  | bool | int | named => rfl

theorem Ty.Has.suits {s t : Ty} {v : Value} (h : s.Has v) (hst : s.suits t = true) : t.Has v := by
  unfold Has at h ⊢
  rwa [← (suits_iff.1 hst).2]

theorem Ty.Has.of_suits {s t : Ty} {v : Value} (hst : s.suits t = true) (h : t.Has v) :
    s.Has v := by
  unfold Has at h ⊢
  rwa [(suits_iff.1 hst).2]

theorem Ty.Has.bool {t : Ty} {c : Bool} (h : t.suits .bool = true) : t.Has (.bool c) :=
  Ty.Has.of_suits h ⟨c, rfl⟩

theorem Ty.Has.int {t : Ty} {n : Int64} (h : t.suits .int = true) : t.Has (.int n) :=
  Ty.Has.of_suits h ⟨n, rfl⟩

theorem Ty.Has.reference {t : Ty} {v : Value} (h : t.valueKind? = some .reference) : t.Has v := by
  unfold Has
  rw [h]
  trivial

/-- A value of the type, or none where the type is void. -/
def Ty.Gives (t : Ty) (o : Option Value) : Prop :=
  match o with
  | none => t.isVoid = true
  | some v => t.Has v

theorem Ty.Gives.suits {s t : Ty} {o : Option Value} (h : s.Gives o) (hst : s.suits t = true) :
    t.Gives o := by
  cases o with
  | none =>
    rw [Gives, (suits_iff.1 hst).1] at h
    cases h
  | some v => exact Has.suits h hst

/-! ## Signatures -/

/-- The types of the names that a body uses, none of which starts with `$`. -/
structure Signature where
  /-- The variables of the body; `this` is one of them. -/
  var : String → Option Ty
  /-- The static fields, by the globals that hold them. -/
  static : String → Option Ty
  /-- The instance fields, by the maps that hold them. -/
  field : String → Option Ty
  /-- The results of the methods. -/
  result : MethodRef → Option Ty
  var_proper : ∀ {x t}, var x = some t → isGenerated x = false
  static_proper : ∀ {x t}, static x = some t → isGenerated x = false

namespace Signature

variable (Γ : Signature)

/-- The type of a field, which is static when there is no object. -/
def ofField (object : Option Expr) (f : FieldRef) : Option Ty :=
  match object with
  | none => Γ.static f.mapName
  | some _ => Γ.field f.mapName

/-- The type of the values that a place holds. -/
def ofTarget : Target → Option Ty
  | .var name => Γ.var name
  | .field object f => Γ.ofField object f

end Signature

/-! ## Expressions -/

/-- The literal has the type. -/
def Lit.isOf (lit : Lit) (t : Ty) : Bool :=
  match lit with
  | .int _ => t.suits .int
  | .bool _ => t.suits .bool
  | .null => t.valueKind? == some .reference

/-- The operator takes a value of the one type to a value of the other. -/
def UnOp.isOf (op : UnOp) (operand result : Ty) : Bool :=
  match op with
  | .not => operand.suits .bool && result.suits .bool
  | .neg => operand.suits .int && result.suits .int

/-- The operator takes values of two types to a value of the third. -/
def BinOp.isOf (op : BinOp) (left right result : Ty) : Bool :=
  match op with
  | .add | .sub | .mul | .div | .rem => left.suits .int && right.suits .int && result.suits .int
  | .lt | .le | .gt | .ge => left.suits .int && right.suits .int && result.suits .bool
  | .eq | .ne => !left.isVoid && !right.isVoid && result.suits .bool
  | .and | .or => left.suits .bool && right.suits .bool && result.suits .bool

theorem UnOp.not_void {s t : Ty} {op : UnOp} (h : op.isOf s t = true) : s.isVoid = false := by
  cases op with
  | not | neg =>
    rw [UnOp.isOf, Bool.and_eq_true] at h
    exact (Ty.suits_iff.mp h.1).1

theorem BinOp.not_void {s t result : Ty} {op : BinOp} (h : op.isOf s t result = true) :
    s.isVoid = false ∧ t.isVoid = false := by
  cases op with
  | eq | ne =>
    simp only [BinOp.isOf, Bool.and_eq_true, Bool.not_eq_true'] at h
    exact h.1
  | _ =>
    simp only [BinOp.isOf, Bool.and_eq_true] at h
    exact ⟨(Ty.suits_iff.mp h.1.1).1, (Ty.suits_iff.mp h.1.2).1⟩

/-- Values of the one type can be converted to the other: truth values and integers to each other
and to references, references only to references. -/
def Ty.converts (source target : Ty) : Bool :=
  !source.isVoid && !target.isVoid &&
    (source.valueKind? != some .reference || target.valueKind? == some .reference)

theorem Ty.converts_iff {s t : Ty} :
    s.converts t = true ↔ s.isVoid = false ∧ t.isVoid = false ∧
      (s.valueKind? ≠ some .reference ∨ t.valueKind? = some .reference) := by
  simp [converts, and_assoc]

mutual

/-- The expression and its parts have the types they are annotated with. -/
def Expr.wellTyped (Γ : Signature) : Expr → Bool
  | ⟨_, _, ty, kind⟩ =>
    match kind with
    | .literal lit => lit.isOf ty
    | .var name => (Γ.var name).any (·.suits ty)
    | .self => (Γ.var "this").any (·.suits ty)
    | .field object f => optionTyped Γ object && (Γ.ofField object f).any (·.suits ty)
    | .unary op operand => operand.wellTyped Γ && op.isOf operand.ty ty
    | .binary op lhs rhs =>
      lhs.wellTyped Γ && (rhs.wellTyped Γ && (op.isOf lhs.ty rhs.ty ty &&
        (!lhs.isTarget || ty.suits lhs.ty)))
    | .conditional cond thenExpr elseExpr =>
      cond.wellTyped Γ && (thenExpr.wellTyped Γ && (elseExpr.wellTyped Γ &&
        (!cond.ty.isVoid && (thenExpr.ty.suits ty && elseExpr.ty.suits ty))))
    | .assign target value =>
      target.wellTyped Γ && (value.wellTyped Γ &&
        (Γ.ofTarget target).any fun t => value.ty.suits t && t.suits ty)
    | .target target =>
      target.wellTyped Γ && (Γ.ofTarget target).any fun t => t.suits ty && ty.suits t
    | .call ⟨method, receiver, args, _⟩ =>
      optionTyped Γ receiver && (allTyped Γ args &&
        (Γ.result method).any (·.valueKind? == ty.valueKind?))
    | .new _ _ args => allTyped Γ args && ty.valueKind? == some .reference
    | .typeOf _ => ty.valueKind? == some .reference
    | .getType object =>
      object.wellTyped Γ && (!object.ty.isVoid && ty.valueKind? == some .reference)
    | .conversion value newTy =>
      value.wellTyped Γ && (value.ty.converts newTy && newTy.suits ty)
    | .defaultValue valueTy => valueTy.suits ty
    | .pop => false

def Target.wellTyped (Γ : Signature) : Target → Bool
  | .var _ => true
  | .field object _ => optionTyped Γ object

def optionTyped (Γ : Signature) : Option Expr → Bool
  | none => true
  | some e => e.wellTyped Γ && !e.ty.isVoid

def allTyped (Γ : Signature) : List Expr → Bool
  | [] => true
  | e :: es => (e.wellTyped Γ && !e.ty.isVoid) && allTyped Γ es

end

end Unwind.Source
