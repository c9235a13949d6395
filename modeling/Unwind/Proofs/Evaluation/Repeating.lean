import Unwind.Proofs.Evaluation.Effects

/-!
# Evaluations that may be repeated

A place is named by an expression for its object. To read a field, to store to it and to read it
back, this expression is evaluated each time. When it is still, that is as good as evaluating it
once: it changes nothing, and as long as nothing that it reads is written it has the same value
again.
-/

namespace Unwind.Source

/-! ## Still expressions -/

mutual

/-- The expression only looks at variables and fields: it calls, creates, stores and pops
nothing. -/
def Expr.isStill : Expr → Bool
  | ⟨_, _, _, kind⟩ =>
    match kind with
    | .literal _ | .var _ | .self | .typeOf _ | .field none _ | .defaultValue .bool
    | .defaultValue .int => true
    | .field (some operand) _ | .unary _ operand | .getType operand | .conversion operand _ =>
      operand.isStill
    | .binary _ ⟨_, _, _, .target _⟩ _ => false
    | .binary _ lhs rhs => lhs.isStill && rhs.isStill
    | .conditional cond thenExpr elseExpr =>
      cond.isStill && (thenExpr.isStill && elseExpr.isStill)
    | .target target => target.isStill
    | .assign _ _ | .call _ | .new _ _ _ | .defaultValue _ | .pop => false

/-- The object of the place is still. -/
def Target.isStill : Target → Bool
  | .var _ | .field none _ => true
  | .field (some object) _ => object.isStill

end

/-- What the object of a place depends on. -/
def Target.objectDeps : Target → Area
  | .var _ | .field none _ => {}
  | .field (some object) _ => object.deps

/-- What is apart from a place is apart from its object. -/
theorem Target.objectDeps_apart {t : Target} {a : Area} (h : t.deps.apart a = true) :
    t.objectDeps.apart a = true := by
  cases t with
  | var => rfl
  | field object f =>
    cases object with
    | none => rfl
    | some object => exact (Area.union_apart.mp h).1

/-- The place is still the same one after it has been stored to. -/
def Target.isFixed (t : Target) : Bool := t.isStill && t.objectDeps.apart t.place

/-- An operator whose left operand is no target. -/
theorem Expr.isStill_binary {id : UInt32} {span : Span} {ty : Ty} {op : BinOp} {lhs rhs : Expr}
    (h : lhs.isTarget = false) :
    Expr.isStill ⟨id, span, ty, .binary op lhs rhs⟩ = (lhs.isStill && rhs.isStill) := by
  rw [Expr.isStill]
  rintro i sp t target rfl
  cases h

/-- A place is stored to by an operator when it is its left operand. -/
theorem Expr.isTarget_of_isStill {id : UInt32} {span : Span} {ty : Ty} {op : BinOp} {lhs rhs : Expr}
    (h : Expr.isStill ⟨id, span, ty, .binary op lhs rhs⟩ = true) : lhs.isTarget = false := by
  obtain ⟨_, _, _, kind⟩ := lhs
  cases kind with
  | target => cases h
  | _ => rfl

mutual

/-- A still expression writes nothing. -/
theorem Expr.writes_of_isStill (e : Expr) (h : e.isStill = true) : e.writes = {} := by
  obtain ⟨id, span, ty, kind⟩ := e
  cases kind with
  | literal | var | self | typeOf | defaultValue => rfl
  | field object f =>
    cases object with
    | none => rfl
    | some object => exact Expr.writes_of_isStill object h
  | unary op operand | getType operand | conversion operand newTy =>
    exact Expr.writes_of_isStill operand h
  | binary op lhs rhs =>
    have htar := Expr.isTarget_of_isStill h
    rw [Expr.isStill_binary htar, Bool.and_eq_true] at h
    rw [Expr.writes_binary htar, Expr.writes_of_isStill lhs h.1, Expr.writes_of_isStill rhs h.2]
    rfl
  | conditional cond thenExpr elseExpr =>
    simp only [Expr.isStill, Bool.and_eq_true] at h
    rw [Expr.writes, Expr.writes_of_isStill cond h.1, Expr.writes_of_isStill thenExpr h.2.1,
      Expr.writes_of_isStill elseExpr h.2.2]
    rfl
  | target target => exact Target.objectWrites_of_isStill target h
  | assign | call | new | pop => cases h

theorem Target.objectWrites_of_isStill (t : Target) (h : t.isStill = true) :
    t.objectWrites = {} := by
  cases t with
  | var => rfl
  | field object f =>
    cases object with
    | none => rfl
    | some object => exact Expr.writes_of_isStill object h

end

end Unwind.Source

namespace Unwind.Evaluation

open Source
open Lowering (binOp)
open Machine (Value)

/-! ## Repeated evaluations -/

section

variable {α β : Type} {a b : Area} {x : Evaluating α} {w : World}

/-- The evaluation changes nothing, and it has the same result again in a store that differs only
in places outside of the area. -/
def Repeatable (a : Area) (x : Evaluating α) : Prop :=
  ∀ ⦃s v s'⦄, Yields x s v s' → s' = s ∧
    ∀ ⦃b s₁⦄, a.apart b = true → Within b s s₁ → Yields x s₁ v s₁

namespace Repeatable

theorem left (h : Repeatable a x) : Repeatable (a ∪ b) x := fun _ _ _ hx =>
  ⟨(h hx).1, fun _ _ hap => (h hx).2 (Area.union_apart.mp hap).1⟩

theorem right (h : Repeatable b x) : Repeatable (a ∪ b) x := fun _ _ _ hx =>
  ⟨(h hx).1, fun _ _ hap => (h hx).2 (Area.union_apart.mp hap).2⟩

theorem pure (v : α) : Repeatable a (Pure.pure v) := by
  intro s v' s' h
  obtain ⟨rfl, rfl⟩ := yields_pure.mp h
  exact ⟨rfl, fun _ _ _ _ => yields_pure.mpr ⟨rfl, rfl⟩⟩

theorem bind {f : α → Evaluating β} (hx : Repeatable a x) (hf : ∀ v, Repeatable a (f v)) :
    Repeatable a (x >>= f) := by
  intro s v s' h
  obtain ⟨y, s₁, h₁, h₂⟩ := yields_bind.mp h
  obtain ⟨rfl, hx⟩ := hx h₁
  obtain ⟨rfl, hf⟩ := hf y h₂
  exact ⟨rfl, fun _ _ hap hw => yields_bind.mpr ⟨y, _, hx hap hw, hf hap hw⟩⟩

theorem demand (o : Option Value) : Repeatable a (Evaluation.demand o) := by
  intro s v s' h
  obtain ⟨ho, rfl⟩ := yields_demand.mp h
  exact ⟨rfl, fun _ _ _ _ => yields_demand.mpr ⟨ho, rfl⟩⟩

theorem truth (ty : Ty) (v : Value) : Repeatable a (Evaluation.truth ty v) := by
  intro s c s' h
  obtain ⟨hc, rfl⟩ := yields_truth.mp h
  exact ⟨rfl, fun _ _ _ _ => yields_truth.mpr ⟨hc, rfl⟩⟩

theorem readLocal (name : String) : Repeatable { vars := [name] } (Evaluation.readLocal name) := by
  intro s v s' h
  obtain ⟨rfl, rfl⟩ := yields_readLocal.mp h
  refine ⟨rfl, fun b s₁ hap hw => yields_readLocal.mpr ⟨?_, rfl⟩⟩
  exact (hw.locals name ((Area.apart_iff.mp hap).1 name List.mem_cons_self)).symm

theorem readField (object : Option Value) (f : FieldRef) :
    Repeatable { fields := [f.mapName] } (Evaluation.readField object f) := by
  intro s v s' h
  obtain ⟨rfl, rfl⟩ := yields_readField.mp h
  refine ⟨rfl, fun b s₁ hap hw => yields_readField.mpr ⟨?_, rfl⟩⟩
  have hf := (Area.apart_iff.mp hap).2 f.mapName List.mem_cons_self
  cases object with
  | none => exact (hw.globals f.mapName hf).symm
  | some o => exact congrFun (hw.fields f.mapName hf).symm o

/-- What follows a value. -/
theorem map {g : Value → β} {e : Evaluating (Option Value)} (h : Repeatable a e) :
    Repeatable a (do return g (← Evaluation.demand (← e))) :=
  h.bind fun o => (demand o).bind fun v => pure (g v)

end Repeatable

end

section

variable {w : World}

mutual

theorem eval_repeatable (e : Expr) (h : e.isStill = true) : Repeatable e.deps (eval w e) := by
  obtain ⟨id, span, ty, kind⟩ := e
  cases kind with
  | literal | typeOf =>
    rw [eval]
    exact .pure _
  | var name =>
    rw [eval]
    exact (Repeatable.readLocal name).bind fun _ => .pure _
  | self =>
    rw [eval]
    exact (Repeatable.readLocal "this").bind fun _ => .pure _
  | field object f =>
    rw [eval]
    cases object with
    | none =>
      rw [evalOption, pure_bind]
      exact (Repeatable.readField none f).bind fun _ => .pure _
    | some object =>
      rw [evalOption]
      exact (eval_repeatable object h).left.map.bind fun o =>
        (Repeatable.readField o f).right.bind fun _ => .pure _
  | unary op operand | getType operand | conversion operand newTy =>
    rw [eval]
    exact (eval_repeatable operand h).map
  | binary op lhs rhs =>
    have htar := Expr.isTarget_of_isStill h
    rw [Expr.isStill_binary htar, Bool.and_eq_true] at h
    rw [eval_binary w htar]
    refine (eval_repeatable lhs h.1).left.bind fun o => (Repeatable.demand o).bind fun left => ?_
    split
    · exact .pure _
    · exact (eval_repeatable rhs h.2).right.map
  | conditional cond thenExpr elseExpr =>
    simp only [Expr.isStill, Bool.and_eq_true] at h
    rw [eval]
    refine (eval_repeatable cond h.1).left.bind fun o => (Repeatable.demand o).bind fun c =>
      (Repeatable.truth _ c).bind fun b => ?_
    split
    · exact (eval_repeatable thenExpr h.2.1).left.right
    · exact (eval_repeatable elseExpr h.2.2).right.right
  | target target =>
    rw [eval]
    exact (readTarget_repeatable target h).bind fun _ => .pure _
  | defaultValue valueTy =>
    rw [eval]
    cases valueTy with
    | bool | int => exact .pure _
    | void | named => cases h
  | assign | call | new | pop => cases h

theorem readTarget_repeatable (t : Target) (h : t.isStill = true) :
    Repeatable t.deps (readTarget w t) := by
  cases t with
  | var name =>
    rw [readTarget]
    exact .readLocal name
  | field object f =>
    rw [readTarget]
    cases object with
    | none =>
      rw [evalOption, pure_bind]
      exact .readField none f
    | some object =>
      rw [evalOption]
      exact (eval_repeatable object h).left.map.bind fun o => (Repeatable.readField o f).right

end

end

/-! ## Places that are evaluated once -/

/-- A place whose object has been evaluated. -/
inductive Place where
  | var (name : String)
  | field (object : Option Value) (f : FieldRef)

namespace Place

def read : Place → Evaluating Value
  | var name => readLocal name
  | field object f => readField object f

def write : Place → Value → Evaluating Unit
  | var name, v => writeLocal name v
  | field object f, v => writeField object f v

theorem eq_of_yields_read {p : Place} {v : Value} {s s' : Store} (h : Yields p.read s v s') :
    s' = s := by
  cases p with
  | var name => exact (yields_readLocal.mp h).2
  | field object f => exact (yields_readField.mp h).2

/-- What is stored at a place is read back from it. -/
theorem yields_read_of_write {p : Place} {v : Value} {u : Unit} {s s' : Store}
    (h : Yields (p.write v) s u s') : Yields p.read s' v s' := by
  cases p with
  | var name =>
    rw [write, yields_writeLocal] at h
    subst h
    exact yields_readLocal.mpr ⟨(Function.update_self name v s.locals).symm, rfl⟩
  | field object f =>
    rw [write, yields_writeField] at h
    subst h
    refine yields_readField.mpr ⟨?_, rfl⟩
    cases object with
    | none => exact (Function.update_self f.mapName v s.memory.globals).symm
    | some o =>
      show v = Function.update s.memory.fields f.mapName _ f.mapName o
      rw [Function.update_self, Function.update_self]

end Place

section

variable {w : World} {s s' : Store}

/-- The place that a target stands for. -/
def evalPlace (w : World) : Target → Evaluating Place
  | .var name => return .var name
  | .field object f => return .field (← evalOption w object) f

theorem readTarget_eq (t : Target) : readTarget w t = (do (← evalPlace w t).read) := by
  cases t with
  | var => rw [readTarget, evalPlace, pure_bind, Place.read]
  | field => rw [readTarget, evalPlace, bind_assoc]; rfl

theorem writeTarget_eq (t : Target) (v : Value) :
    writeTarget w t v = (do (← evalPlace w t).write v) := by
  cases t with
  | var => rw [writeTarget, evalPlace, pure_bind, Place.write]
  | field => rw [writeTarget, evalPlace, bind_assoc]; rfl

theorem evalPlace_repeatable (t : Target) (h : t.isStill = true) :
    Repeatable t.objectDeps (evalPlace w t) := by
  cases t with
  | var => exact .pure _
  | field object f =>
    cases object with
    | none => exact .pure _
    | some object =>
      rw [evalPlace, evalOption]
      exact (eval_repeatable object h).map.bind fun _ => .pure _

/-- Storing to the place that a target stands for changes that place only. -/
theorem Within.write {t : Target} {p : Place} {v : Value} {u : Unit} {s₀ s₁ : Store}
    (hp : Yields (evalPlace w t) s₀ p s₁) (h : Yields (p.write v) s u s') :
    Within t.place s s' := by
  cases t with
  | var name =>
    obtain ⟨rfl, -⟩ := yields_pure.mp hp
    exact .writeLocal h
  | field object f =>
    obtain ⟨o, _, -, hp⟩ := yields_bind.mp hp
    obtain ⟨rfl, -⟩ := yields_pure.mp hp
    exact .writeField h

/-- An assignment that evaluates the place, then the value. -/
def assignOnce (w : World) (target : Target) (value : Expr) : Evaluating (Option Value) := do
  let p ← evalPlace w target
  let v ← demand (← eval w value)
  p.write v
  return some v

/-- A compound assignment that evaluates the place, reads it, and then evaluates the right
operand. -/
def updateOnce (w : World) (op : BinOp) (target : Target) (rhs : Expr) :
    Evaluating (Option Value) := do
  let p ← evalPlace w target
  let old ← p.read
  let new := Machine.binary (binOp op) old (← demand (← eval w rhs))
  p.write new
  return some new

/-- A fixed place that is stored to and read back. -/
theorem yields_store {target : Target} {p : Place} {v x : Value} (h : target.isFixed = true)
    (hp : Yields (evalPlace w target) s p s) :
    Yields (do writeTarget w target v; readTarget w target) s x s' ↔
      Yields (p.write v) s () s' ∧ x = v := by
  obtain ⟨hstill, hap⟩ := Bool.and_eq_true_iff.mp h
  have hrep := evalPlace_repeatable (w := w) target hstill
  simp only [writeTarget_eq, readTarget_eq, yields_bind]
  constructor
  · rintro ⟨_, s₁, ⟨q, _, hq, hwrite⟩, r, _, hr, hread⟩
    obtain ⟨rfl, rfl⟩ := hp.unique hq
    obtain ⟨rfl, rfl⟩ := ((hrep hp).2 hap (.write hp hwrite)).unique hr
    obtain ⟨rfl, rfl⟩ := (Place.yields_read_of_write hwrite).unique hread
    exact ⟨hwrite, rfl⟩
  · rintro ⟨hwrite, rfl⟩
    exact ⟨_, _, ⟨p, s, hp, hwrite⟩, p, _, (hrep hp).2 hap (.write hp hwrite),
      Place.yields_read_of_write hwrite⟩

variable {id : UInt32} {span : Span} {ty : Ty} {o : Option Value}

/-- An assignment to a fixed place is as good as one that evaluates the place first, and once. -/
theorem eval_assign_iff {target : Target} {value : Expr} (h : target.isFixed = true)
    (hap : target.objectDeps.apart value.writes = true) :
    Yields (eval w ⟨id, span, ty, .assign target value⟩) s o s' ↔
      Yields (assignOnce w target value) s o s' := by
  have hrep := evalPlace_repeatable (w := w) target (Bool.and_eq_true_iff.mp h).1
  simp only [eval, assignOnce, yields_bind, yields_demand, yields_pure]
  constructor
  · rintro ⟨_, s₁, hv, v, _, ⟨rfl, rfl⟩, _, s₂, hwrite, x, _, hread, rfl, rfl⟩
    obtain ⟨p, _, hp, -⟩ := yields_bind.mp (writeTarget_eq (w := w) target v ▸ hwrite)
    rw [(hrep hp).1] at hp
    have hfirst := (hrep hp).2 hap (eval_within value hv).symm
    have hstore := (yields_store h hp).mp (yields_bind.mpr ⟨_, _, hwrite, hread⟩)
    exact ⟨p, s, hfirst, _, _, hv, v, _, ⟨rfl, rfl⟩, _, _, hstore.1, congrArg some hstore.2, rfl⟩
  · rintro ⟨p, s₀, hp, _, s₁, hv, v, _, ⟨rfl, rfl⟩, _, _, hwrite, rfl, rfl⟩
    have hs := (hrep hp).1
    rw [hs] at hp hv
    have hlater := (hrep hp).2 hap (eval_within value hv)
    obtain ⟨_, s₂, hwrite, hread⟩ := yields_bind.mp ((yields_store h hlater).mpr ⟨hwrite, rfl⟩)
    exact ⟨_, _, hv, v, _, ⟨rfl, rfl⟩, _, s₂, hwrite, v, _, hread, rfl, rfl⟩

/-- So is a compound assignment. -/
theorem eval_update_iff {target : Target} {rhs : Expr} {op : BinOp} {i : UInt32} {sp : Span}
    {t : Ty} (h : target.isFixed = true) (hap : target.objectDeps.apart rhs.writes = true) :
    Yields (eval w ⟨id, span, ty, .binary op ⟨i, sp, t, .target target⟩ rhs⟩) s o s' ↔
      Yields (updateOnce w op target rhs) s o s' := by
  have hrep := evalPlace_repeatable (w := w) target (Bool.and_eq_true_iff.mp h).1
  simp only [eval, updateOnce, yields_bind, yields_demand, yields_pure]
  constructor
  · rintro ⟨old, s₀, hold, _, s₁, hv, v, _, ⟨rfl, rfl⟩, _, s₂, hwrite, x, _, hread, rfl, rfl⟩
    obtain ⟨p, _, hp, hold⟩ := yields_bind.mp (readTarget_eq (w := w) target ▸ hold)
    have hs := (hrep hp).1
    have hs₀ := Place.eq_of_yields_read hold
    rw [hs₀, hs] at hv
    rw [hs] at hp hold
    have hlater := (hrep hp).2 hap (eval_within rhs hv)
    have hstore := (yields_store h hlater).mp (yields_bind.mpr ⟨_, _, hwrite, hread⟩)
    rw [hs₀, hs] at hold
    exact ⟨p, s, hp, old, _, hold, _, _, hv, v, _, ⟨rfl, rfl⟩, _, _, hstore.1,
      congrArg some hstore.2, rfl⟩
  · rintro ⟨p, _, hp, old, s₀, hold, _, s₁, hv, v, _, ⟨rfl, rfl⟩, _, _, hwrite, rfl, rfl⟩
    have hs := (hrep hp).1
    rw [hs] at hp hold
    have hread : Yields (readTarget w target) s old s₀ :=
      readTarget_eq (w := w) target ▸ yields_bind.mpr ⟨p, _, hp, hold⟩
    have hlater := (hrep hp).2 hap (eval_within rhs (Place.eq_of_yields_read hold ▸ hv))
    obtain ⟨_, s₂, hwrite, hagain⟩ := yields_bind.mp ((yields_store h hlater).mpr ⟨hwrite, rfl⟩)
    exact ⟨old, _, hread, _, _, hv, v, _, ⟨rfl, rfl⟩, _, s₂, hwrite, _, _, hagain, rfl, rfl⟩

end

end Unwind.Evaluation
