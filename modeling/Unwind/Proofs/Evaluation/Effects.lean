import Unwind.Proofs.Dispatch.Evaluation

/-!
# What an evaluation changes

`Expr.writes` bounds what evaluating an expression may change: the variables and fields that are
assigned in it, and all fields once it calls a method. `Expr.deps` are the places that a value
still depends on after the evaluation; the result of a call is a value of its own and depends on
none. An operand keeps its value while another one is evaluated when the places it reads are apart
from those the other one writes.
-/

namespace Unwind.Source

/-! ## Areas -/

/-- A set of places: variables of the body, and fields by the globals and maps that hold them. -/
structure Area where
  vars : List String := []
  fields : List String := []
  /-- All fields, as far as callees reach. -/
  allFields : Bool := false
deriving DecidableEq

namespace Area

def hasField (a : Area) (name : String) : Bool := a.allFields || a.fields.contains name

instance : Union Area where
  union a b := ⟨a.vars ++ b.vars, a.fields ++ b.fields, a.allFields || b.allFields⟩

/-- No place that the first area lists is in the second one. -/
def apart (a b : Area) : Bool :=
  a.vars.all (!b.vars.contains ·) && a.fields.all (!b.hasField ·)

variable {a b c : Area}

theorem mem_vars_union {x : String} : x ∈ (a ∪ b).vars ↔ x ∈ a.vars ∨ x ∈ b.vars :=
  List.mem_append

theorem hasField_union (m : String) : (a ∪ b).hasField m = (a.hasField m || b.hasField m) := by
  show (a.allFields || b.allFields || (a.fields ++ b.fields).contains m) = _
  simp only [hasField, List.contains_append]
  cases a.allFields <;> cases b.allFields <;> simp

theorem apart_iff :
    a.apart b = true ↔
      (∀ x ∈ a.vars, x ∉ b.vars) ∧ ∀ m ∈ a.fields, b.hasField m = false := by
  simp [apart]

theorem apart_empty (a : Area) : a.apart {} = true :=
  apart_iff.2 ⟨fun _ _ => List.not_mem_nil, fun _ _ => rfl⟩

theorem union_apart : (a ∪ b).apart c = true ↔ a.apart c = true ∧ b.apart c = true := by
  simp only [apart_iff]
  show (∀ x ∈ a.vars ++ b.vars, _) ∧ (∀ m ∈ a.fields ++ b.fields, _) ↔ _
  simp only [List.mem_append, or_imp, forall_and]
  exact and_and_and_comm

end Area

/-! ## Places of an expression -/

mutual

/-- What the value of an expression still depends on once it has been evaluated. -/
def Expr.deps : Expr → Area
  | ⟨_, _, _, kind⟩ =>
    match kind with
    | .var name => { vars := [name] }
    | .self => { vars := ["this"] }
    | .field none f => { fields := [f.mapName] }
    | .field (some object) f => object.deps ∪ { fields := [f.mapName] }
    | .unary _ operand | .getType operand | .conversion operand _ => operand.deps
    | .binary _ lhs rhs => lhs.deps ∪ rhs.deps
    | .conditional cond thenExpr elseExpr => cond.deps ∪ (thenExpr.deps ∪ elseExpr.deps)
    | .assign target _ | .target target => target.deps
    | .literal _ | .call _ | .new _ _ _ | .typeOf _ | .defaultValue _ | .pop => {}

def Target.deps : Target → Area
  | .var name => { vars := [name] }
  | .field none f => { fields := [f.mapName] }
  | .field (some object) f => object.deps ∪ { fields := [f.mapName] }

end

/-- The place itself, its object apart. -/
def Target.place : Target → Area
  | .var name => { vars := [name] }
  | .field _ f => { fields := [f.mapName] }

mutual

/-- What evaluating an expression may change. -/
def Expr.writes : Expr → Area
  | ⟨_, _, _, kind⟩ =>
    match kind with
    | .field object _ => writesOption object
    | .unary _ operand | .getType operand | .conversion operand _ => operand.writes
    | .binary _ ⟨_, _, _, .target target⟩ rhs =>
      (target.objectWrites ∪ target.place) ∪ rhs.writes
    | .binary _ lhs rhs => lhs.writes ∪ rhs.writes
    | .conditional cond thenExpr elseExpr => cond.writes ∪ (thenExpr.writes ∪ elseExpr.writes)
    | .assign target value => (target.objectWrites ∪ target.place) ∪ value.writes
    | .target target => target.objectWrites
    | .call ⟨_, receiver, args, _⟩ =>
      (writesOption receiver ∪ writesAll args) ∪ { allFields := true }
    | .new _ ctor args => writesAll args ∪ { allFields := ctor.isSome }
    | .literal _ | .var _ | .self | .typeOf _ | .defaultValue _ | .pop => {}

/-- What evaluating the object of a place may change. -/
def Target.objectWrites : Target → Area
  | .var _ => {}
  | .field object _ => writesOption object

def writesOption : Option Expr → Area
  | none => {}
  | some e => e.writes

def writesAll : List Expr → Area
  | [] => {}
  | e :: es => e.writes ∪ writesAll es

end

/-- An operator whose left operand is no target. -/
theorem Expr.writes_binary {id : UInt32} {span : Span} {ty : Ty} {op : BinOp} {lhs rhs : Expr}
    (h : lhs.isTarget = false) :
    Expr.writes ⟨id, span, ty, .binary op lhs rhs⟩ = lhs.writes ∪ rhs.writes := by
  rw [Expr.writes]
  rintro i sp t target rfl
  cases h

end Unwind.Source

namespace Unwind.Evaluation

open Source
open Lowering (binOp unOp run_bind)
open Machine (Value)

/-! ## Successful evaluations -/

section

variable {α β : Type} {s s' : Store} {a : α} {b : β}

/-- The evaluation succeeds with `a` and leads from `s` to `s'`. -/
def Yields (x : Evaluating α) (s : Store) (a : α) (s' : Store) : Prop := x.run s = (.ok a, s')

theorem yields_pure {a' : α} : Yields (pure a) s a' s' ↔ a' = a ∧ s' = s := by
  constructor
  · intro h
    cases h
    exact ⟨rfl, rfl⟩
  · rintro ⟨rfl, rfl⟩
    rfl

theorem yields_bind {x : Evaluating α} {f : α → Evaluating β} :
    Yields (x >>= f) s b s' ↔ ∃ a s₁, Yields x s a s₁ ∧ Yields (f a) s₁ b s' := by
  unfold Yields
  rw [run_bind]
  rcases x.run s with ⟨e | a, s₁⟩
  · constructor
    · intro h
      cases h
    · rintro ⟨_, _, h, -⟩
      cases h
  · constructor
    · intro h
      exact ⟨a, s₁, rfl, h⟩
    · rintro ⟨_, _, h, h'⟩
      cases h
      exact h'

theorem Yields.unique {x : Evaluating α} {a' : α} {s'' : Store} (h : Yields x s a s')
    (h' : Yields x s a' s'') : a' = a ∧ s'' = s' := by
  unfold Yields at h h'
  rw [h] at h'
  cases h'
  exact ⟨rfl, rfl⟩

theorem yields_demand {o : Option Value} {v : Value} :
    Yields (demand o) s v s' ↔ o = some v ∧ s' = s := by
  cases o with
  | none =>
    constructor
    · intro h
      cases h
    · rintro ⟨h, -⟩
      cases h
  | some v' =>
    rw [demand, yields_pure, Option.some.injEq]
    exact and_congr_left fun _ => eq_comm

theorem yields_modify {f : Store → Store} {u : Unit} :
    Yields (modify f) s u s' ↔ s' = f s := by
  constructor
  · intro h
    cases h
    rfl
  · rintro rfl
    rfl

theorem yields_readLocal {name : String} {v : Value} :
    Yields (readLocal name) s v s' ↔ v = s.locals name ∧ s' = s := by
  constructor
  · intro h
    cases h
    exact ⟨rfl, rfl⟩
  · rintro ⟨rfl, rfl⟩
    rfl

theorem yields_writeLocal {name : String} {v : Value} {u : Unit} :
    Yields (writeLocal name v) s u s' ↔
      s' = { s with locals := Function.update s.locals name v } := yields_modify

/-- The value of a field of an object, or of a static field. -/
def fieldValue (m : Machine.Memory) (object : Option Value) (f : FieldRef) : Value :=
  match object with
  | none => m.globals f.mapName
  | some o => m.fields f.mapName o

theorem yields_readField {object : Option Value} {f : FieldRef} {v : Value} :
    Yields (readField object f) s v s' ↔ v = fieldValue s.memory object f ∧ s' = s := by
  cases object with
  | none | some =>
    constructor
    · intro h
      cases h
      exact ⟨rfl, rfl⟩
    · rintro ⟨rfl, rfl⟩
      rfl

theorem yields_writeField {object : Option Value} {f : FieldRef} {v : Value} {u : Unit} :
    Yields (writeField object f v) s u s' ↔
      s' = { s with memory := setField s.memory object f v } := yields_modify

theorem yields_create {t : TypeRef} {v : Value} :
    Yields (create t) s v s' ↔
      v = .ref (some ⟨s.memory.objects, "T$" ++ t.name⟩) ∧
        s' = { s with memory := { s.memory with objects := s.memory.objects + 1 } } := by
  constructor
  · intro h
    cases h
    exact ⟨rfl, rfl⟩
  · rintro ⟨rfl, rfl⟩
    rfl

theorem yields_truth {ty : Ty} {v : Value} {b : Bool} :
    Yields (truth ty v) s b s' ↔
      (match ty.valueKind? with
        | some .boolean => b = v.holds
        | some .integer => b = (v != .int 0)
        | some .reference => b = (v != .null)
        | none => False) ∧ s' = s := by
  unfold truth
  cases ty.valueKind? with
  | none =>
    constructor
    · intro h
      cases h
    · rintro ⟨h, -⟩
      exact h.elim
  | some kind => cases kind <;> exact yields_pure

/-- A call that succeeds has left no exception. -/
theorem yields_perform {w : World} {i : Invocation} {result : Ty} {o : Option Value} :
    Yields (perform w i result) s o s' ↔
      (w.call s.calls i s.memory).1.exception = none ∧
        o = (if result.isVoid then none else some (w.call s.calls i s.memory).2) ∧
        s' = { s with memory := (w.call s.calls i s.memory).1, calls := s.calls ++ [i] } := by
  have e : (perform w i result).run s =
      (if (w.call s.calls i s.memory).1.exception.isSome then throw .raised
        else pure (if result.isVoid then none else some (w.call s.calls i s.memory).2) :
          Evaluating (Option Value)).run
        { s with memory := (w.call s.calls i s.memory).1, calls := s.calls ++ [i] } := by
    unfold perform
    rw [run_bind]
    show ((if (w.call s.calls i s.memory).1.exception.isSome then _ else _ :
      Evaluating (Option Value)).run _) = _
    split <;> rfl
  unfold Yields
  rw [e]
  cases h : (w.call s.calls i s.memory).1.exception with
  | none =>
    rw [if_neg (by simp)]
    exact yields_pure.trans ⟨fun ⟨ho, hs⟩ => ⟨rfl, ho, hs⟩, fun ⟨_, ho, hs⟩ => ⟨ho, hs⟩⟩
  | some x =>
    constructor
    · intro h
      cases h
    · rintro ⟨h, -⟩
      cases h

end

/-! ## Changes -/

/-- Outside of the area the two stores agree, but for the number of objects created. -/
structure Within (area : Area) (s s' : Store) : Prop where
  locals : ∀ x, x ∉ area.vars → s'.locals x = s.locals x
  globals : ∀ m, area.hasField m = false → s'.memory.globals m = s.memory.globals m
  fields : ∀ m, area.hasField m = false → s'.memory.fields m = s.memory.fields m

namespace Within

variable {a b : Area} {s s₁ s' : Store}

theorem refl (a : Area) (s : Store) : Within a s s :=
  ⟨fun _ _ => rfl, fun _ _ => rfl, fun _ _ => rfl⟩

theorem trans (h : Within a s s₁) (h' : Within a s₁ s') : Within a s s' :=
  ⟨fun x hx => (h'.locals x hx).trans (h.locals x hx),
    fun m hm => (h'.globals m hm).trans (h.globals m hm),
    fun m hm => (h'.fields m hm).trans (h.fields m hm)⟩

theorem symm (h : Within a s s') : Within a s' s :=
  ⟨fun x hx => (h.locals x hx).symm, fun m hm => (h.globals m hm).symm,
    fun m hm => (h.fields m hm).symm⟩

theorem left (h : Within a s s') : Within (a ∪ b) s s' := by
  have hf : ∀ m, (a ∪ b).hasField m = false → a.hasField m = false := by
    intro m hm
    rw [Area.hasField_union, Bool.or_eq_false_iff] at hm
    exact hm.1
  refine ⟨fun x hx => h.locals x fun hx' => hx ?_, fun m hm => h.globals m (hf m hm),
    fun m hm => h.fields m (hf m hm)⟩
  exact Area.mem_vars_union.mpr (.inl hx')

theorem right (h : Within b s s') : Within (a ∪ b) s s' := by
  have hf : ∀ m, (a ∪ b).hasField m = false → b.hasField m = false := by
    intro m hm
    rw [Area.hasField_union, Bool.or_eq_false_iff] at hm
    exact hm.2
  refine ⟨fun x hx => h.locals x fun hx' => hx ?_, fun m hm => h.globals m (hf m hm),
    fun m hm => h.fields m (hf m hm)⟩
  exact Area.mem_vars_union.mpr (.inr hx')

theorem create {t : TypeRef} {v : Value} (h : Yields (Evaluation.create t) s v s') :
    Within a s s' := by
  obtain ⟨-, rfl⟩ := yields_create.mp h
  exact ⟨fun _ _ => rfl, fun _ _ => rfl, fun _ _ => rfl⟩

theorem perform {w : World} {i : Invocation} {result : Ty} {o : Option Value}
    (h : Yields (Evaluation.perform w i result) s o s') :
    Within { allFields := true } s s' := by
  obtain ⟨-, -, rfl⟩ := yields_perform.1 h
  exact ⟨fun _ _ => rfl, nofun, nofun⟩

theorem writeLocal {name : String} {v : Value} {u : Unit}
    (h : Yields (Evaluation.writeLocal name v) s u s') : Within { vars := [name] } s s' := by
  rw [yields_writeLocal] at h
  subst h
  refine ⟨fun x hx => ?_, fun _ _ => rfl, fun _ _ => rfl⟩
  exact Function.update_of_ne (List.ne_of_not_mem_cons hx) _ _

theorem writeField {object : Option Value} {f : FieldRef} {v : Value} {u : Unit}
    (h : Yields (Evaluation.writeField object f v) s u s') :
    Within { fields := [f.mapName] } s s' := by
  rw [yields_writeField] at h
  subst h
  have hne : ∀ {m}, Area.hasField { fields := [f.mapName] } m = false → m ≠ f.mapName := by
    rintro m hm rfl
    simp [Area.hasField] at hm
  cases object with
  | none => exact ⟨fun _ _ => rfl, fun m hm => Function.update_of_ne (hne hm) _ _, fun _ _ => rfl⟩
  | some o => exact ⟨fun _ _ => rfl, fun _ _ => rfl, fun m hm => Function.update_of_ne (hne hm) _ _⟩

theorem defaultValue {w : World} {ty : Ty} {v : Value}
    (h : Yields (Evaluation.defaultValue w ty) s v s') : Within a s s' := by
  unfold Evaluation.defaultValue at h
  cases ty with
  | void => cases h
  | bool | int =>
    rw [(yields_pure.mp h).2]
    exact refl _ _
  | named t =>
    dsimp only at h
    split at h
    · exact create h
    · rw [(yields_pure.mp h).2]
      exact refl _ _

theorem pop {v : Value} (h : Yields Evaluation.pop s v s') : Within a s s' := by
  obtain ⟨locals, memory, operands, calls⟩ := s
  cases operands with
  | nil => cases h
  | cons =>
    cases h
    exact ⟨fun _ _ => rfl, fun _ _ => rfl, fun _ _ => rfl⟩

end Within

/-- An operator whose left operand is no target. -/
theorem eval_binary (w : World) {id : UInt32} {span : Span} {ty : Ty} {op : BinOp}
    {lhs rhs : Expr} (h : lhs.isTarget = false) :
    eval w ⟨id, span, ty, .binary op lhs rhs⟩ = (do
      let left ← demand (← eval w lhs)
      if isDecided op left then return some left
      return some (Machine.binary (binOp op) left (← demand (← eval w rhs)))) := by
  rw [eval]
  rintro i sp t target rfl
  cases h

section

variable {w : World}

mutual

/-- Evaluating an expression changes only what it writes. -/
theorem eval_within (e : Expr) {s s' : Store} {o : Option Value} (h : Yields (eval w e) s o s') :
    Within e.writes s s' := by
  obtain ⟨id, span, ty, kind⟩ := e
  cases kind with
  | literal | typeOf =>
    rw [eval] at h
    rw [(yields_pure.mp h).2]
    exact .refl _ _
  | var | self =>
    simp only [eval, yields_bind, yields_readLocal, yields_pure] at h
    obtain ⟨_, _, ⟨-, rfl⟩, -, rfl⟩ := h
    exact .refl _ _
  | field object f =>
    simp only [eval, yields_bind, yields_readField, yields_pure] at h
    obtain ⟨_, s₁, h₁, _, _, ⟨-, rfl⟩, -, rfl⟩ := h
    exact evalOption_within object h₁
  | unary op operand | getType operand | conversion operand newTy =>
    simp only [eval, yields_bind, yields_demand, yields_pure] at h
    obtain ⟨_, s₁, h₁, _, _, ⟨-, rfl⟩, -, rfl⟩ := h
    exact eval_within operand h₁
  | binary op lhs rhs =>
    by_cases ht : lhs.isTarget
    · obtain ⟨i, sp, t, lhsKind⟩ := lhs
      cases lhsKind with
      | target target =>
        simp only [eval, yields_bind, yields_demand, yields_pure] at h
        obtain ⟨_, s₁, h₁, _, s₂, h₂, _, s₂', ⟨-, hs₂⟩, _, s₃, h₃, _, s₄, h₄, -, hs₄⟩ := h
        subst hs₂ hs₄
        -- the object of the target is evaluated for each access, so its effects may come repeatedly
        have hread : Within ((target.objectWrites ∪ target.place) ∪ rhs.writes) s s₂' :=
          (readTarget_within target h₁).left.left.trans (eval_within rhs h₂).right
        exact hread.trans
          ((writeTarget_within target h₃).trans (readTarget_within target h₄).left).left
      | _ => cases ht
    · rw [Bool.not_eq_true] at ht
      simp only [eval_binary w ht, yields_bind, yields_demand] at h
      rw [Expr.writes_binary ht]
      obtain ⟨_, s₁, h₁, left, _, ⟨-, rfl⟩, h₂⟩ := h
      have hleft := (eval_within lhs h₁).left (b := rhs.writes)
      split at h₂
      · rw [(yields_pure.mp h₂).2]
        exact hleft
      · simp only [yields_bind, yields_demand, yields_pure] at h₂
        obtain ⟨_, s₂, h₂, _, _, ⟨-, rfl⟩, -, rfl⟩ := h₂
        exact hleft.trans (eval_within rhs h₂).right
  | conditional cond thenExpr elseExpr =>
    simp only [eval, yields_bind, yields_demand, yields_truth] at h
    obtain ⟨_, s₁, h₁, _, _, ⟨-, rfl⟩, b, _, ⟨-, rfl⟩, h₂⟩ := h
    refine (eval_within cond h₁).left.trans ?_
    split at h₂
    · exact (eval_within thenExpr h₂).left.right
    · exact (eval_within elseExpr h₂).right.right
  | assign target value =>
    simp only [eval, yields_bind, yields_demand, yields_pure] at h
    obtain ⟨_, s₁, h₁, _, _, ⟨-, rfl⟩, _, s₂, h₂, _, s₃, h₃, -, rfl⟩ := h
    have hplace := (writeTarget_within target h₂).trans (readTarget_within target h₃).left
    exact (eval_within value h₁).right.trans hplace.left
  | target target =>
    simp only [eval, yields_bind, yields_pure] at h
    obtain ⟨_, s₁, h₁, -, rfl⟩ := h
    exact readTarget_within target h₁
  | call call =>
    obtain ⟨method, receiver, args, isVirtual⟩ := call
    simp only [eval, yields_bind] at h
    obtain ⟨_, s₁, h₁, _, s₂, h₂, h₃⟩ := h
    have hoperands := (evalOption_within receiver h₁).left.trans (evalAll_within args h₂).right
    exact hoperands.left.trans (Within.perform h₃).right
  | new type ctor args =>
    simp only [eval, yields_bind] at h
    obtain ⟨_, s₁, h₁, _, s₂, h₂, h₃⟩ := h
    have hargs := (evalAll_within args h₁).left (b := { allFields := ctor.isSome })
    cases ctor with
    | none =>
      rw [(yields_pure.mp h₃).2]
      exact hargs.trans (.create h₂)
    | some method =>
      simp only [yields_bind, yields_pure] at h₃
      obtain ⟨_, s₃, h₃, -, rfl⟩ := h₃
      exact (hargs.trans (.create h₂)).trans (Within.perform h₃).right
  | defaultValue valueTy =>
    simp only [eval, yields_bind, yields_pure] at h
    obtain ⟨_, s₁, h₁, -, rfl⟩ := h
    exact .defaultValue h₁
  | pop =>
    simp only [eval, yields_bind, yields_pure] at h
    obtain ⟨_, s₁, h₁, -, rfl⟩ := h
    exact .pop h₁

theorem readTarget_within (t : Target) {s s' : Store} {v : Value}
    (h : Yields (readTarget w t) s v s') : Within t.objectWrites s s' := by
  cases t with
  | var name =>
    rw [readTarget, yields_readLocal] at h
    rw [h.2]
    exact .refl _ _
  | field object f =>
    simp only [readTarget, yields_bind, yields_readField] at h
    obtain ⟨_, s₁, h₁, -, rfl⟩ := h
    exact evalOption_within object h₁

theorem writeTarget_within (t : Target) {s s' : Store} {v : Value} {u : Unit}
    (h : Yields (writeTarget w t v) s u s') : Within (t.objectWrites ∪ t.place) s s' := by
  cases t with
  | var name =>
    rw [writeTarget] at h
    exact (Within.writeLocal h).right
  | field object f =>
    simp only [writeTarget, yields_bind] at h
    obtain ⟨_, s₁, h₁, h₂⟩ := h
    exact (evalOption_within object h₁).left.trans (Within.writeField h₂).right

theorem evalOption_within (e : Option Expr) {s s' : Store} {o : Option Value}
    (h : Yields (evalOption w e) s o s') : Within (writesOption e) s s' := by
  cases e with
  | none =>
    rw [evalOption, yields_pure] at h
    rw [h.2]
    exact .refl _ _
  | some e =>
    simp only [evalOption, yields_bind, yields_demand, yields_pure] at h
    obtain ⟨_, s₁, h₁, _, _, ⟨-, rfl⟩, -, rfl⟩ := h
    exact eval_within e h₁

theorem evalAll_within (es : List Expr) {s s' : Store} {vs : List Value}
    (h : Yields (evalAll w es) s vs s') : Within (writesAll es) s s' := by
  cases es with
  | nil =>
    rw [evalAll, yields_pure] at h
    rw [h.2]
    exact .refl _ _
  | cons e es =>
    simp only [evalAll, yields_bind, yields_demand, yields_pure] at h
    obtain ⟨_, s₁, h₁, _, _, ⟨-, rfl⟩, _, s₂, h₂, -, rfl⟩ := h
    exact (eval_within e h₁).left.trans (evalAll_within es h₂).right

end

end

end Unwind.Evaluation
