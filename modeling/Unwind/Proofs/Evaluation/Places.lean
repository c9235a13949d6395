import Unwind.Proofs.Evaluation.Preservation

/-!
# Fields that are assigned

To store to a field the lowering emits the commands of its object, and to read the field, before or
after, it emits them again. When the object is still there are none, and the store and the reads
name the object by the same expression. That is enough for them to mean one object, unless what
names it depends on the field itself. An object with commands of its own, such as a call, is
evaluated each time.
-/

namespace Unwind.Machine

variable {map : String} {a b c r : Ir.Expr}

/-! ## Values that do not depend on a field -/

/-- Storing to the field does not change the value of the expression. -/
def Ignores (map : String) (r : Ir.Expr) : Prop :=
  ∀ w d i v, eval w (assign w d (.map map i) v) r = eval w d r

namespace Ignores

theorem lit {l : Ir.Lit} : Ignores map (.lit l) := fun _ _ _ _ => rfl

theorem ident {x : String} : Ignores map (.ident x) := fun _ _ _ _ => rfl

theorem typeConst {name : String} : Ignores map (.typeConst name) := fun _ _ _ _ => rfl

theorem unary {op : Ir.UnOp} (h : Ignores map a) : Ignores map (.unary op a) := by
  intro w d i v
  rw [eval, eval, h]

theorem binary {op : Ir.BinOp} (ha : Ignores map a) (hb : Ignores map b) :
    Ignores map (.binary op a b) := by
  intro w d i v
  rw [eval, eval, ha, hb]

theorem ifThenElse (hc : Ignores map c) (ha : Ignores map a) (hb : Ignores map b) :
    Ignores map (.ifThenElse c a b) := by
  intro w d i v
  rw [eval, eval, hc, ha, hb]

theorem dynamicType (h : Ignores map r) : Ignores map (.dynamicType r) := by
  intro w d i v
  simp only [Ir.Expr.dynamicType, eval, evalAll, h w d i v]

theorem select {other : String} (h : Ignores map r) (hne : other ≠ map) :
    Ignores map (.select other r) := by
  intro w d i v
  rw [eval, eval, h]
  show Function.update d.memory.fields map _ other _ = _
  rw [Function.update_of_ne hne]

theorem convert {source target : Source.Ty} (h : Ignores map r) :
    Ignores map (Lowering.convert source target r) := by
  unfold Lowering.convert
  split
  · exact h.ifThenElse .lit .lit
  · exact h.binary .lit
  · exact h

theorem truthOf {e : Source.Expr} (h : Ignores map r) (hc : Lowering.truthOf e r = .ok c) :
    Ignores map c := by
  unfold Lowering.truthOf at hc
  split at hc
  · cases hc
    exact h
  · cases hc
    exact h.binary .lit
  · cases hc
    exact h.binary .lit
  · cases hc

end Ignores

/-- What is stored is read back, as long as the object is still named by the same expression. -/
theorem eval_select_assign {w : World} {d : Data} {v : Value} (h : Ignores map r) :
    eval w (assign w d (.map map r) v) (.select map r) = v := by
  rw [eval, h]
  show Function.update d.memory.fields map _ map _ = v
  rw [Function.update_self, Function.update_self]

end Unwind.Machine

namespace Unwind.Lowering

open Source
open Ir (Cmd)
open Evaluation (Conforms Implements Mirrors Yields)
open Machine (Executes Ignores)

section

variable {env : Env}

/-! ## Still expressions -/

/-- Whenever the lowering succeeds it has emitted nothing and its value is `v`, which depends on
the given fields only. -/
structure Names (act : Lower Ir.Expr) (fields : List String) (v : Ir.Expr) : Prop where
  ignores : ∀ m, m ∉ fields → Ignores m v
  runs : ∀ {t v' t'}, Runs act t v' t' → v' = v ∧ t' = t

theorem not_mem_fields_union {a b : Area} {m : String} :
    m ∉ (a ∪ b).fields ↔ m ∉ a.fields ∧ m ∉ b.fields := by
  show m ∉ a.fields ++ b.fields ↔ _
  rw [List.mem_append, not_or]

theorem Names.buffered {act : Lower Ir.Expr} {fields : List String} {v : Ir.Expr}
    {part : Ir.Expr × List Cmd} {t t' : State} (h : Names act fields v)
    (hrun : Runs (Lowering.buffered act) t part t') : part = (v, []) ∧ t' = t := by
  obtain ⟨t₁, h₁, hcs, rfl⟩ := runs_buffered.mp hrun
  obtain ⟨hv, rfl⟩ := h.runs h₁
  exact ⟨Prod.ext hv hcs, rfl⟩

theorem Names.pure {fields : List String} {v : Ir.Expr} (hi : ∀ m, m ∉ fields → Ignores m v) :
    Names (Pure.pure v) fields v := ⟨hi, runs_pure.mp⟩

theorem Names.bind {act : Lower Ir.Expr} {f : Ir.Expr → Lower Ir.Expr}
    {fields fields' : List String} {v v' : Ir.Expr} (h : Names act fields v)
    (h' : Names (f v) fields' v') :
    Names (act >>= f) fields' v' := by
  refine ⟨h'.ignores, fun hrun => ?_⟩
  obtain ⟨x, t₁, hx, hf⟩ := runs_bind.mp hrun
  obtain ⟨rfl, rfl⟩ := h.runs hx
  exact h'.runs hf

theorem Names.select {act : Lower Ir.Expr} {a : Area} {v : Ir.Expr} (h : Names act a.fields v)
    (map : String) :
    Names (do return .select map (← act)) (a ∪ { fields := [map] }).fields (.select map v) := by
  refine h.bind (.pure fun m hm => ?_)
  obtain ⟨hobject, hmap⟩ := not_mem_fields_union.1 hm
  exact (h.ignores m hobject).select (List.ne_of_not_mem_cons hmap).symm

theorem Names.condition {e : Expr} {act : Lower (Option Ir.Expr)} {fields : List String}
    {v : Ir.Expr} (h : Names (valueOf e act) fields v) :
    ∃ c, Names (conditionOf e act) fields c := by
  cases hc : truthOf e v with
  | ok c =>
    refine ⟨c, fun m hm => Ignores.truthOf (h.ignores m hm) hc, fun hrun => ?_⟩
    obtain ⟨x, hx, hc'⟩ := runs_conditionOf.mp hrun
    obtain ⟨rfl, rfl⟩ := h.runs (runs_valueOf.mpr hx)
    exact ⟨Except.ok.inj (hc'.symm.trans hc), rfl⟩
  | error fault =>
    refine ⟨.null, fun _ _ => .lit, fun hrun => ?_⟩
    obtain ⟨x, hx, hc'⟩ := runs_conditionOf.mp hrun
    obtain ⟨rfl, -⟩ := h.runs (runs_valueOf.mpr hx)
    cases hc'.symm.trans hc

/-- A value that is made of the value of an operand. -/
theorem Names.map {e : Expr} {act : Lower Ir.Expr} {fields fields' : List String} {v : Ir.Expr}
    {g : Ir.Expr → Ir.Expr} (h : Names act fields v)
    (hi : ∀ m, m ∉ fields' → Ignores m (g v)) :
    Names (valueOf e (do return some (g (← act)))) fields' (g v) := by
  refine ⟨hi, fun hrun => ?_⟩
  rw [runs_valueOf, runs_bind] at hrun
  obtain ⟨x, t₁, hx, hg⟩ := hrun
  obtain ⟨hv, rfl⟩ := runs_pure.mp hg
  obtain ⟨rfl, rfl⟩ := h.runs hx
  exact ⟨Option.some.inj hv, rfl⟩

mutual

/-- A still expression is lowered without commands, always to the same value. -/
theorem lowerExpr_names (e : Expr) (h : e.isStill = true) :
    ∃ v, Names (valueOf e (lowerExpr env e false)) e.deps.fields v := by
  obtain ⟨id, span, ty, kind⟩ := e
  cases kind with
  | literal lit =>
    rw [lowerExpr]
    cases lit with
    | int | bool | null => exact ⟨_, Names.pure fun _ _ => .lit⟩
  | var | self =>
    rw [lowerExpr]
    exact ⟨_, Names.pure fun _ _ => .ident⟩
  | typeOf type =>
    rw [lowerExpr]
    exact ⟨_, Names.pure fun _ _ => .typeConst⟩
  | field object f =>
    cases object with
    | none =>
      rw [lowerExpr]
      exact ⟨_, Names.pure fun _ _ => .ident⟩
    | some object =>
      obtain ⟨v, hv⟩ := lowerExpr_names object h
      rw [lowerExpr]
      exact ⟨.select f.mapName v, hv.map (hv.select f.mapName).ignores⟩
  | unary op operand =>
    obtain ⟨v, hv⟩ := lowerExpr_names operand h
    rw [lowerExpr]
    exact ⟨_, hv.map fun m hm => (hv.ignores m hm).unary⟩
  | getType operand =>
    obtain ⟨v, hv⟩ := lowerExpr_names operand h
    rw [lowerExpr]
    exact ⟨_, hv.map fun m hm => (hv.ignores m hm).dynamicType⟩
  | conversion operand newTy =>
    obtain ⟨v, hv⟩ := lowerExpr_names operand h
    rw [lowerExpr]
    exact ⟨_, hv.map fun m hm => (hv.ignores m hm).convert⟩
  | binary op lhs rhs =>
    have htar := Expr.isTarget_of_isStill h
    rw [Expr.isStill_binary htar, Bool.and_eq_true] at h
    obtain ⟨a, ha⟩ := lowerExpr_names lhs h.1
    obtain ⟨b, hb⟩ := lowerExpr_names rhs h.2
    rw [lowerExpr_binary env htar]
    refine ⟨.binary (binOp op) a b, fun m hm => ?_, fun hrun => ?_⟩
    · obtain ⟨hm₁, hm₂⟩ := not_mem_fields_union.mp hm
      exact (ha.ignores m hm₁).binary (hb.ignores m hm₂)
    · rw [runs_valueOf] at hrun
      simp only [runs_bind, runs_pure] at hrun
      obtain ⟨_, _, h₁, _, _, h₂, v, t₃, h₃, hv, rfl⟩ := hrun
      obtain ⟨rfl, rfl⟩ := ha.runs h₁
      obtain ⟨rfl, rfl⟩ := hb.buffered h₂
      obtain ⟨rfl, rfl⟩ := runs_pure.mp h₃
      exact ⟨Option.some.inj hv, rfl⟩
  | conditional cond thenExpr elseExpr =>
    simp only [Expr.isStill, Bool.and_eq_true] at h
    obtain ⟨_, hcond⟩ := lowerExpr_names cond h.1
    obtain ⟨c, hc⟩ := hcond.condition
    obtain ⟨a, ha⟩ := lowerExpr_names thenExpr h.2.1
    obtain ⟨b, hb⟩ := lowerExpr_names elseExpr h.2.2
    rw [lowerExpr]
    refine ⟨.ifThenElse c a b, fun m hm => ?_, fun hrun => ?_⟩
    · obtain ⟨hm₁, hm⟩ := not_mem_fields_union.mp hm
      obtain ⟨hm₂, hm₃⟩ := not_mem_fields_union.mp hm
      exact (hc.ignores m hm₁).ifThenElse (ha.ignores m hm₂) (hb.ignores m hm₃)
    · rw [runs_valueOf] at hrun
      simp only [runs_bind, runs_pure] at hrun
      obtain ⟨_, _, h₁, _, _, h₂, _, _, h₃, v, t₄, h₄, hv, rfl⟩ := hrun
      obtain ⟨rfl, rfl⟩ := hc.runs h₁
      obtain ⟨rfl, rfl⟩ := ha.buffered h₂
      obtain ⟨rfl, rfl⟩ := hb.buffered h₃
      obtain ⟨rfl, rfl⟩ := runs_pure.mp h₄
      exact ⟨Option.some.inj hv, rfl⟩
  | target target =>
    obtain ⟨v, hv⟩ := readTarget_names target h
    rw [lowerExpr]
    exact ⟨v, hv.map hv.ignores⟩
  | defaultValue valueTy =>
    rw [lowerExpr]
    cases valueTy with
    | bool | int => exact ⟨_, Names.pure fun _ _ => .lit⟩
    | void | named => cases h
  | assign | call | new | pop => cases h

theorem readTarget_names (target : Target) (h : target.isStill = true) :
    ∃ v, Names (readTarget env target) target.deps.fields v := by
  cases target with
  | var name =>
    rw [readTarget]
    exact ⟨_, .pure fun _ _ => .ident⟩
  | field object f =>
    cases object with
    | none =>
      rw [readTarget]
      exact ⟨_, .pure fun _ _ => .ident⟩
    | some object =>
      obtain ⟨v, hv⟩ := lowerExpr_names object h
      rw [readTarget]
      exact ⟨.select f.mapName v, hv.select f.mapName⟩

end

/-! ## Stores -/

/-- The object of a fixed place does not depend on the field of the place. -/
theorem not_deps_of_isFixed {object : Expr} {f : FieldRef}
    (h : (Target.field (some object) f).isFixed = true) : f.mapName ∉ object.deps.fields := by
  intro hf
  have hapart := (Area.apart_iff.mp (Bool.and_eq_true_iff.mp h).2).2 f.mapName hf
  rw [Target.place, Area.hasField, Bool.false_or, List.contains_cons, beq_self_eq_true] at hapart
  cases hapart

/-- The expression `e` stores to the field `f` of the object. What it stores is made, by `combine`,
of the old value and of the value of another expression. -/
inductive StoresField (object : Expr) (f : FieldRef) :
    Expr → Expr → (Ir.Expr → Ir.Expr → Ir.Expr) → Prop where
  | assign {id : UInt32} {span : Span} {ty : Ty} {value : Expr} :
    StoresField object f ⟨id, span, ty, .assign (.field (some object) f) value⟩ value fun _ v => v
  | update {id i : UInt32} {span sp : Span} {ty t : Ty} {op : BinOp} {rhs : Expr} :
    StoresField object f
      ⟨id, span, ty, .binary op ⟨i, sp, t, .target (.field (some object) f)⟩ rhs⟩ rhs
      (.binary (binOp op))

/-- **Fixed places are evaluated once.** Take an assignment or a compound assignment to a field of
an object whose expression only looks at variables and at other fields. Lowering the object emits
nothing, however often it is done, and always gives the same expression `place`; behind the
commands of the value there is just the store. The field that is stored to, the one that is read for
the old value and the one that is read for the result are those of `place`, and the store does not
change which object this is, so that the result is what was stored. -/
theorem lowerExpr_store_once {object e value : Expr} {f : FieldRef}
    {combine : Ir.Expr → Ir.Expr → Ir.Expr} {compound : Bool} {t t' : State} {r : Option Ir.Expr}
    (hstore : StoresField object f e value combine)
    (hfixed : (Target.field (some object) f).isFixed = true)
    (h : Runs (lowerExpr env e compound) t r t') :
    ∃ place v t₁,
      (∀ {u x u'}, Runs (valueOf object (lowerExpr env object false)) u x u' → x = place ∧ u' = u) ∧
      Runs (valueOf value (lowerExpr env value false)) t v t₁ ∧
      t' = { t₁ with cmds := t₁.cmds ++
        [.assign (.map f.mapName place) (combine (.select f.mapName place) v)] } ∧
      r = some (.select f.mapName place) ∧
      ∀ w d d', Executes w
          [.assign (.map f.mapName place) (combine (.select f.mapName place) v)] d d' →
        Machine.eval w d' place = Machine.eval w d place ∧
        Machine.eval w d' (.select f.mapName place) =
          Machine.eval w d (combine (.select f.mapName place) v) := by
  obtain ⟨place, hplace⟩ : ∃ v, Names (valueOf object (lowerExpr env object false))
      object.deps.fields v := lowerExpr_names object (Bool.and_eq_true_iff.mp hfixed).1
  have hignores : Ignores f.mapName place := hplace.ignores _ (not_deps_of_isFixed hfixed)
  have hread : ∀ {u x u'}, Runs (readTarget env (.field (some object) f)) u x u' →
      x = .select f.mapName place ∧ u' = u := by
    intro u x u' hr
    rw [readTarget] at hr
    exact (hplace.select f.mapName).runs hr
  have hwrite : ∀ {u x u₁ u'}, Runs (writeTarget env (.field (some object) f) x) u u₁ u' →
      u' = { u with cmds := u.cmds ++ [.assign (.map f.mapName place) x] } := by
    intro u x u₁ u' hw
    rw [writeTarget, runs_bind] at hw
    obtain ⟨_, u₂, ho, hemit⟩ := hw
    obtain ⟨rfl, rfl⟩ := hplace.runs ho
    exact runs_emit.mp hemit
  have hexec : ∀ w d d' x, Executes w [.assign (.map f.mapName place) x] d d' →
      Machine.eval w d' place = Machine.eval w d place ∧
        Machine.eval w d' (.select f.mapName place) = Machine.eval w d x := by
    intro w d d' x hx
    rw [Machine.executes_store.unique hx]
    exact ⟨hignores w d _ _, Machine.eval_select_assign hignores⟩
  cases hstore with
  | assign =>
    simp only [lowerExpr, runs_bind, runs_pure] at h
    obtain ⟨v, t₁, hv, _, t₂, hw, x, t₃, hr, rfl, rfl⟩ := h
    obtain ⟨rfl, rfl⟩ := hread hr
    exact ⟨place, v, t₁, hplace.runs, hv, hwrite hw, rfl, fun w d d' => hexec w d d' _⟩
  | update =>
    cases compound with
    | false =>
      rw [lowerExpr, if_neg Bool.false_ne_true, runs_bind] at h
      obtain ⟨_, t₁, h₁, -⟩ := h
      exact absurd h₁ not_runs_throw
    | true =>
      simp only [lowerExpr, if_true, runs_bind, runs_pure] at h
      obtain ⟨old, t₁, hold, v, t₂, hv, _, t₃, hw, x, t₄, hr, rfl, rfl⟩ := h
      obtain ⟨rfl, rfl⟩ := hread hold
      obtain ⟨rfl, rfl⟩ := hread hr
      exact ⟨place, v, t₂, hplace.runs, hv, hwrite hw, rfl, fun w d d' => hexec w d d' _⟩

end

/-- `x.f += g()`. -/
def updateField : Expr :=
  .ofKind (.binary .add
    (.ofKind (.target (.field (some (.var "x" (.named ⟨"T", none⟩))) ⟨⟨"T", none⟩, "f"⟩)) .int)
    (.ofCall (.direct ⟨⟨"T", none⟩, "g", []⟩ none []) .int)) .int

theorem updateField_store_once :
    ∃ r t place v t₁, Runs (lowerExpr {} updateField true) {} r t ∧
      Runs (lowerExpr {} (.ofCall (.direct ⟨⟨"T", none⟩, "g", []⟩ none []) .int) false) {}
        (some v) t₁ ∧
      t.cmds = t₁.cmds ++ [.assign (.map "T.f" place) (.binary .add (.select "T.f" place) v)] ∧
      r = some (.select "T.f" place) := by
  have hruns : Runs (lowerExpr {} updateField true) {} _ _ := rfl
  obtain ⟨place, v, t₁, -, hv, ht, hr, -⟩ := lowerExpr_store_once .update (by decide) hruns
  exact ⟨_, _, place, v, t₁, hruns, runs_valueOf.mp hv, congrArg (·.cmds) ht, hr⟩

/-! ## Evaluations -/

/-- The evaluation of an assignment that evaluates its place once. -/
def evalOnce (W : Evaluation.World) (e : Expr) : Evaluation.Evaluating (Option Machine.Value) :=
  match e.kind with
  | .assign target value => Evaluation.assignOnce W target value
  | .binary op ⟨_, _, _, .target target⟩ rhs => Evaluation.updateOnce W op target rhs
  | _ => Evaluation.eval W e

/-- The lowering of the expression is accepted in every state, and what it emits does what the
evaluation does that evaluates the place of an assignment once. -/
def PlaceOnce (Γ : Signature) (env : Env) (e : Expr) : Prop :=
  ∀ t, ∃ r t' cs, Runs (lowerExpr env e true) t r t' ∧ t'.cmds = t.cmds ++ cs ∧
    ∀ W w, W.Respects Γ → Implements w W Γ env → ∀ s d, Conforms Γ s → Mirrors s d →
      ∃ o s' d', Yields (evalOnce W e) s o s' ∧ Executes w cs d d' ∧ Mirrors s' d' ∧
        r.map (Machine.eval w d') = o

section

variable {Γ : Signature} {env : Env} {W : Evaluation.World} {s s' : Evaluation.Store}
  {o : Option Machine.Value}

theorem evalOnce_iff {e : Expr} (hst : e.steady true = true) :
    Yields (evalOnce W e) s o s' ↔ Yields (Evaluation.eval W e) s o s' := by
  obtain ⟨id, span, ty, kind⟩ := e
  cases kind with
  | assign target value =>
    simp only [Expr.steady, Bool.and_eq_true] at hst
    exact (Evaluation.eval_assign_iff hst.1 hst.2.2).symm
  | binary op lhs rhs =>
    obtain ⟨i, sp, t, lhsKind⟩ := lhs
    cases lhsKind with
    | target target =>
      simp only [Expr.steady, Bool.and_eq_true] at hst
      refine (Evaluation.eval_update_iff hst.2.1 ?_).symm
      exact Target.objectDeps_apart hst.2.2.2
    | _ => exact .rfl
  | _ => exact .rfl

/-- Well-typed assignments to fixed places are evaluated as if the place was evaluated once, before
the value. -/
theorem placeOnce_of_steady {e : Expr} (hlit : env.literal = id) (ht : e.wellTyped Γ = true)
    (hst : e.steady true = true) : PlaceOnce Γ env e := by
  intro t
  obtain ⟨r, t', cs, h, hcs, hall⟩ := preserves_of_steady hlit ht hst t
  refine ⟨r, t', cs, h, hcs, fun W w hW hw s d hfit hm => ?_⟩
  obtain ⟨o, s', d', hy, he, hm', hval⟩ := hall W w hW hw s d hfit hm
  exact ⟨o, s', d', (evalOnce_iff hst).mpr hy, he, hm', hval⟩

end

/-! ## A place that is evaluated twice -/

/-- One integer field, and methods whose results are objects. -/
def oneField : Signature :=
  { oneVariable with
    field := fun x => if x = "T.f" then some .int else none
    result := fun _ => some (.named ⟨"T", none⟩) }

/-- Callees that return null, as the source and as the machine call them. -/
def nulls : Evaluation.World := ⟨fun _ => false, fun _ _ m => (m, .null)⟩

def machineNulls : Machine.World :=
  ⟨fun _ _ => false, fun _ => false, fun _ _ => rfl, fun _ _ m => (m, [.null])⟩

theorem nulls_respects : nulls.Respects oneField where
  memory _ _ _ hm := hm
  result _ _ _ _ _ ht _ := by
    cases ht
    exact .reference rfl

theorem nulls_implements : Implements machineNulls nulls oneField {} where
  isStruct t := by cases t <;> rfl
  memory _ _ _ := rfl
  result _ _ _ _ _ _ := rfl
  isGlobal_var _ := rfl
  isGlobal_static h := nomatch h

/-- A store in which every variable is one and every field is zero. -/
def zeros : Evaluation.Store :=
  { ones with memory := { fields := fun _ _ => .int 0 } }

theorem zeros_conforms : Conforms oneField zeros where
  var := ones_conforms.var
  memory := by
    refine ⟨rfl, nofun, fun {x t} h o => ?_⟩
    unfold oneField at h
    dsimp only at h
    split at h
    · cases h
      exact ⟨0, rfl⟩
    · cases h

/-- `current().f = 1`. -/
def assignToCurrent : Expr :=
  .assign (.field (some (.ofCall (.direct ⟨⟨"T", none⟩, "current", []⟩ none [])
    (.named ⟨"T", none⟩))) ⟨⟨"T", none⟩, "f"⟩) (.int 1)

/-- A call in the object of an assigned field may be performed twice. -/
theorem exists_place_evaluated_twice :
    ¬ ∀ (Γ : Signature) (env : Env) (e : Expr), env.literal = id → e.wellTyped Γ = true →
      PlaceOnce Γ env e := by
  intro hall
  obtain ⟨r, t, cs, h, hcs, honce⟩ := hall oneField {} assignToCurrent rfl (by decide) {}
  obtain ⟨o, s, d, hy, he, hm, -⟩ := honce nulls machineNulls nulls_respects nulls_implements
    zeros ⟨zeros.locals, zeros.memory, []⟩ zeros_conforms
    ⟨fun _ _ => rfl, rfl, rfl⟩
  -- evaluated once, the object makes one call
  have hyields : Yields (evalOnce nulls assignToCurrent) zeros (some (.int 1)) _ := rfl
  obtain ⟨-, rfl⟩ := hyields.unique hy
  -- the commands make two
  let test : List Cmd := [.ifThen (.neq .exception .null) [.ret]]
  have hcmds : cs = [Cmd.invoke "T.current" [] ["$tmp0"]] ++ (test ++
      ([Cmd.assign (.map "T.f" (.ident "$tmp0")) (.int 1)] ++
        ([Cmd.invoke "T.current" [] ["$tmp1"]] ++ test))) := by
    have hrun : t.cmds = ((lowerExpr {} assignToCurrent true).run {}).2.cmds := by
      rw [show (lowerExpr {} assignToCurrent true).run {} = _ from h]
    exact hcs.symm.trans hrun
  have hruns : Executes machineNulls cs ⟨zeros.locals, zeros.memory, []⟩ _ :=
    hcmds ▸ Machine.executes_invoke.append ((Machine.executes_else rfl .nil).append
      (Machine.executes_store.append (Machine.executes_invoke.append
        (Machine.executes_else rfl .nil))))
  have hcalls := hm.calls
  rw [hruns.unique he] at hcalls
  cases hcalls

end Unwind.Lowering
