import Unwind.Proofs.Modes.Operands
import Unwind.Proofs.Modes.Pairing

/-!
# Expressions in two modes

Whether exceptions are modeled changes one thing in the code of an expression: the test behind a
call. `Steps` relates two such codes, instruction by instruction; everything else is the same up to
the variables.

Two lowerings are followed side by side. `Alongside` says that two steps, from states that are
`Joint`, end in states that are joint again, emit codes that match, and have related results. It
composes along `bind`, so that the lowering of each kind of expression is taken apart once for both
modes.
-/

namespace Unwind.Lowering

/-- The same environment with another mode for exceptions. -/
def Env.withMode (env : Env) (mode : UInt8) : Env :=
  { env with options := { env.options with modelExceptions := mode } }

end Unwind.Lowering

namespace Unwind.Source

/-! ## Names -/

mutual

/-- The variables that an expression reads or writes. -/
def Expr.names : Expr → List String
  | ⟨_, _, _, kind⟩ =>
    match kind with
    | .var name => [name]
    | .self => ["this"]
    | .field none field => [field.mapName]
    | .field (some object) _ => object.names
    | .unary _ operand | .getType operand | .conversion operand _ => operand.names
    | .binary _ lhs rhs => lhs.names ++ rhs.names
    | .conditional cond thenExpr elseExpr => cond.names ++ (thenExpr.names ++ elseExpr.names)
    | .assign target value => target.names ++ value.names
    | .target target => target.names
    | .call ⟨_, receiver, args, _⟩ => namesOption receiver ++ namesAll args
    | .new _ _ args => namesAll args
    | .literal _ | .typeOf _ | .defaultValue _ | .pop => []

def Target.names : Target → List String
  | .var name => [name]
  | .field none field => [field.mapName]
  | .field (some object) _ => object.names

def namesOption : Option Expr → List String
  | none => []
  | some e => e.names

def namesAll : List Expr → List String
  | [] => []
  | e :: es => e.names ++ namesAll es

end

end Unwind.Source

namespace Unwind.Modes

open Ir (Cmd)
open Lowering
open Machine (Instr flatten labels)
open Source (BinOp Expr MethodRef Target Ty TypeRef)

/-! ## Codes that do the same -/

/-- What stands behind a call: nothing, or the test whether the callee has raised. -/
inductive Test (models : Bool) : List Instr → Prop where
  | none : Test models []
  | some {is : List Instr} : models = true → labels is = [] →
      Test models (.branchUnless (.neq .exception .null) (is.length + 1) :: (is ++ [.jump 0]))

/-- Two codes that do the same but for the tests behind calls. -/
inductive Steps (P : Pairing) (models models' : Bool) : List Instr → List Instr → Prop where
  | nil : Steps P models models' [] []
  | set {x y : String} {e e' : Ir.Expr} {is js : List Instr} :
      P x y → Alike P e e' → Steps P models models' is js →
      Steps P models models' (.set x e :: is) (.set y e' :: js)
  | store {map : String} {i i' e e' : Ir.Expr} {is js : List Instr} :
      Alike P i i' → Alike P e e' → Steps P models models' is js →
      Steps P models models' (.assign (.map map i) e :: is) (.assign (.map map i') e' :: js)
  | call {proc : String} {args args' : List Ir.Expr} {outs outs' : List String}
      {test test' is js : List Instr} :
      AllAlike P args args' → List.Forall₂ P outs outs' → Test models test → Test models' test' →
      Steps P models models' is js →
      Steps P models models' (.call proc args outs :: (test ++ is))
        (.call proc args' outs' :: (test' ++ js))
  | quiet {i : Instr} {is js : List Instr} :
      Quiet i → Steps P models models' is js → Steps P models models' (i :: is) (i :: js)
  | branch {c c' : Ir.Expr} {as as' bs bs' is js : List Instr} :
      Alike P c c' → Steps P models models' as as' → Steps P models models' bs bs' →
      Steps P models models' is js →
      Steps P models models'
        (.branchUnless c (as.length + 1) :: (as ++ .jump bs.length :: (bs ++ is)))
        (.branchUnless c' (as'.length + 1) :: (as' ++ .jump bs'.length :: (bs' ++ js)))

section

variable {P Q : Pairing} {models models' : Bool} {is is' js js' : List Instr}

theorem Steps.mono (hPQ : ∀ x y, P x y → Q x y) (h : Steps P models models' is js) :
    Steps Q models models' is js := by
  induction h with
  | nil => exact .nil
  | set hx he _ ih => exact .set (hPQ _ _ hx) (he.mono hPQ) ih
  | store hi he _ ih => exact .store (hi.mono hPQ) (he.mono hPQ) ih
  | call ha ho ht ht' _ ih => exact .call (ha.mono hPQ) (ho.imp fun _ _ => hPQ _ _) ht ht' ih
  | quiet hi _ ih => exact .quiet hi ih
  | branch hc _ _ _ iha ihb ih => exact .branch (hc.mono hPQ) iha ihb ih

theorem Steps.append (h : Steps P models models' is js) (h' : Steps P models models' is' js') :
    Steps P models models' (is ++ is') (js ++ js') := by
  induction h with
  | nil => exact h'
  | set hx he _ ih => exact .set hx he ih
  | store hi he _ ih => exact .store hi he ih
  | call ha ho ht ht' _ ih =>
    rw [List.cons_append, List.cons_append, List.append_assoc, List.append_assoc]
    exact .call ha ho ht ht' ih
  | quiet hi _ ih => exact .quiet hi ih
  | branch hc ha hb _ _ _ ih =>
    simp only [List.cons_append, List.append_assoc]
    exact .branch hc ha hb ih

end

/-- Commands whose codes do the same; when one list is empty, so is the other. -/
structure Matched (P : Pairing) (models models' : Bool) (cs ds : List Cmd) : Prop where
  empty : cs = [] ↔ ds = []
  steps : Steps P models models' (flatten cs) (flatten ds)

section

variable {P Q : Pairing} {models models' : Bool} {cs cs' ds ds' : List Cmd}

theorem Matched.nil : Matched P models models' [] [] := ⟨Iff.rfl, .nil⟩

theorem Matched.mono (hPQ : ∀ x y, P x y → Q x y) (h : Matched P models models' cs ds) :
    Matched Q models models' cs ds := ⟨h.empty, h.steps.mono hPQ⟩

theorem Matched.append (h : Matched P models models' cs ds)
    (h' : Matched P models models' cs' ds') :
    Matched P models models' (cs ++ cs') (ds ++ ds') := by
  refine ⟨?_, ?_⟩
  · rw [List.append_eq_nil_iff, List.append_eq_nil_iff, h.empty, h'.empty]
  · rw [Machine.flatten_append, Machine.flatten_append]
    exact h.steps.append h'.steps

theorem Matched.isEmpty_eq (h : Matched P models models' cs ds) : cs.isEmpty = ds.isEmpty := by
  rw [Bool.eq_iff_iff, List.isEmpty_iff, List.isEmpty_iff]
  exact h.empty

theorem Matched.set {x y : String} {e e' : Ir.Expr} (hx : P x y) (he : Alike P e e') :
    Matched P models models' [.set x e] [.set y e'] := by
  refine ⟨by simp, ?_⟩
  rw [Machine.flatten_singleton, Machine.flatten_singleton]
  exact .set hx he .nil

theorem Matched.quiet {c : Cmd} {i : Instr} (hc : Machine.flattenCmd c = [i]) (hi : Quiet i)
    {c' : Cmd} (hc' : Machine.flattenCmd c' = [i]) : Matched P models models' [c] [c'] := by
  refine ⟨by simp, ?_⟩
  rw [Machine.flatten_singleton, Machine.flatten_singleton, hc, hc']
  exact .quiet hi .nil

theorem Matched.ifElse {e e' : Ir.Expr} (he : Alike P e e') (h : Matched P models models' cs ds)
    (h' : Matched P models models' cs' ds') :
    Matched P models models' [.ifElse e cs cs'] [.ifElse e' ds ds'] := by
  refine ⟨by simp, ?_⟩
  rw [Machine.flatten_singleton, Machine.flatten_singleton, Machine.flattenCmd, Machine.flattenCmd]
  have hb : Steps P models models' _ _ := .branch he h.steps h'.steps .nil
  rwa [List.append_nil, List.append_nil] at hb

end

/-! ## Two lowerings side by side -/

/-- What holds between the states of two lowerings of one body: the same operands up to the
variables, the same names for the copies of structs, the same place for the result; and the
intermediate values are paired one to one. -/
structure Joint (names : String → Prop) (ps : List (Nat × Nat)) (s t : State) : Prop where
  operands : List.Forall₂ (Alike (Paired names ps)) s.operands t.operands
  copies : ∀ type, (s.registry.structCopy type).1 = (t.registry.structCopy type).1
  returnVar : s.returnVar = t.returnVar
  below : ∀ p ∈ ps, p.1 < s.nextTemp ∧ p.2 < t.nextTemp
  oneToOne : ∀ p ∈ ps, ∀ q ∈ ps, p.1 = q.1 ↔ p.2 = q.2

/-- From joint states, the two steps lead to joint states, with codes that match and results in the
relation `R`. -/
structure Alongside {α β : Type} (names : String → Prop) (models models' : Bool)
    (ps : List (Nat × Nat)) (x : Lower α) (y : Lower β) (R : List (Nat × Nat) → α → β → Prop) :
    Prop where
  run : ∀ {s s' t t' : State} {a : α} {b : β}, Joint names ps s t → Runs x s a s' → Runs y t b t' →
    ∃ qs cs ds, ps ⊆ qs ∧ Joint names qs s' t' ∧ s'.cmds = s.cmds ++ cs ∧ t'.cmds = t.cmds ++ ds ∧
      Matched (Paired names qs) models models' cs ds ∧ R qs a b

section

variable {names : String → Prop} {models models' : Bool} {ps qs : List (Nat × Nat)}
variable {α α' β β' : Type} {R : List (Nat × Nat) → α → β → Prop}
  {R' : List (Nat × Nat) → α' → β' → Prop}

theorem paired_mono {N : String → Prop} (h : ps ⊆ qs) (x y : String) (hxy : Paired N ps x y) :
    Paired N qs x y := hxy.mono h

/-- Steps that leave the operands alone keep the states joint, on both sides or on one. -/
theorem Joint.kept {s s' t t' : State} (h : Joint names ps s t) (hs : Kept s s') (ht : Kept t t') :
    Joint names ps s' t' := by
  refine ⟨?_, ?_, ?_, ?_, h.oneToOne⟩
  · rw [hs.operands, ht.operands]
    exact h.operands
  · intro type
    rw [hs.copies, ht.copies, h.copies]
  · rw [hs.returnVar, ht.returnVar, h.returnVar]
  · intro p hp
    obtain ⟨hi, hj⟩ := h.below p hp
    exact ⟨Nat.lt_of_lt_of_le hi hs.nextTemp, Nat.lt_of_lt_of_le hj ht.nextTemp⟩

theorem Joint.withCmds {s t : State} (h : Joint names ps s t) (cs ds : List Cmd) :
    Joint names ps { s with cmds := cs } { t with cmds := ds } :=
  ⟨h.operands, h.copies, h.returnVar, h.below, h.oneToOne⟩

namespace Alongside

theorem bind {x : Lower α} {y : Lower β} {f : α → Lower α'} {g : β → Lower β'}
    (h : Alongside names models models' ps x y R)
    (hf : ∀ {qs a b}, ps ⊆ qs → R qs a b → Alongside names models models' qs (f a) (g b) R') :
    Alongside names models models' ps (x >>= f) (y >>= g) R' := by
  refine ⟨fun {s s' t t' a' b'} hj hx hy => ?_⟩
  obtain ⟨a, s₁, hx, hfa⟩ := runs_bind.mp hx
  obtain ⟨b, t₁, hy, hgb⟩ := runs_bind.mp hy
  obtain ⟨qs, cs, ds, hsub, hj₁, hcs, hds, hm, hr⟩ := h.run hj hx hy
  obtain ⟨qs', cs', ds', hsub', hj₂, hcs', hds', hm', hr'⟩ := (hf hsub hr).run hj₁ hfa hgb
  refine ⟨qs', cs ++ cs', ds ++ ds', List.Subset.trans hsub hsub', hj₂, ?_, ?_, ?_, hr'⟩
  · rw [hcs', hcs, List.append_assoc]
  · rw [hds', hds, List.append_assoc]
  · exact (hm.mono (paired_mono hsub')).append hm'

theorem weaken {x : Lower α} {y : Lower β} {R' : List (Nat × Nat) → α → β → Prop}
    (h : Alongside names models models' ps x y R)
    (hR : ∀ {qs a b}, ps ⊆ qs → R qs a b → R' qs a b) :
    Alongside names models models' ps x y R' := by
  refine ⟨fun hj hx hy => ?_⟩
  obtain ⟨qs, cs, ds, hsub, hj₁, hcs, hds, hm, hr⟩ := h.run hj hx hy
  exact ⟨qs, cs, ds, hsub, hj₁, hcs, hds, hm, hR hsub hr⟩

/-- Steps that emit nothing and number nothing. -/
theorem of_joint {x : Lower α} {y : Lower β}
    (h : ∀ {s s' t t' : State} {a : α} {b : β}, Joint names ps s t → Runs x s a s' → Runs y t b t' →
      Joint names ps s' t' ∧ s'.cmds = s.cmds ∧ t'.cmds = t.cmds ∧ R ps a b) :
    Alongside names models models' ps x y R := by
  refine ⟨fun hj hx hy => ?_⟩
  obtain ⟨hj', hcs, hds, hr⟩ := h hj hx hy
  refine ⟨ps, [], [], List.Subset.refl _, hj', ?_, ?_, .nil, hr⟩
  · rw [hcs, List.append_nil]
  · rw [hds, List.append_nil]

theorem pure {a : α} {b : β} (h : R ps a b) :
    Alongside names models models' ps (Pure.pure a) (Pure.pure b) R := by
  refine of_joint fun hj hx hy => ?_
  obtain ⟨rfl, rfl⟩ := runs_pure.mp hx
  obtain ⟨rfl, rfl⟩ := runs_pure.mp hy
  exact ⟨hj, rfl, rfl, h⟩

/-- A step that fails is alongside every other one. -/
theorem throw {e : Fault} {y : Lower β} :
    Alongside names models models' ps (throw e : Lower α) y R :=
  ⟨fun _ hx => absurd hx not_runs_throw⟩

theorem ite {c : Prop} [Decidable c] {x x' : Lower α} {y y' : Lower β}
    (h : Alongside names models models' ps x y R) (h' : Alongside names models models' ps x' y' R) :
    Alongside names models models' ps (if c then x else x') (if c then y else y') R := by
  by_cases hc : c
  · rw [if_pos hc, if_pos hc]
    exact h
  · rw [if_neg hc, if_neg hc]
    exact h'

theorem lift {x : Except Fault α} :
    Alongside names models models' ps (liftM x : Lower α) (liftM x : Lower α)
      fun _ a b => a = b ∧ x = .ok a := by
  refine of_joint fun hj hx hy => ?_
  obtain ⟨ha, rfl⟩ := runs_lift.mp hx
  obtain ⟨hb, rfl⟩ := runs_lift.mp hy
  rw [ha] at hb
  exact ⟨hj, rfl, rfl, Except.ok.inj hb, ha⟩

theorem emitAll {cs ds : List Cmd} (h : Matched (Paired names ps) models models' cs ds) :
    Alongside names models models' ps (Lowering.emitAll cs) (Lowering.emitAll ds)
      fun _ _ _ => True := by
  refine ⟨fun hj hx hy => ?_⟩
  rw [runs_emitAll] at hx hy
  subst hx hy
  exact ⟨ps, cs, ds, List.Subset.refl _, hj.withCmds _ _, rfl, rfl, h, trivial⟩

theorem emit {c d : Cmd} (h : Matched (Paired names ps) models models' [c] [d]) :
    Alongside names models models' ps (Lowering.emit c) (Lowering.emit d) fun _ _ _ => True :=
  emitAll h

/-- What is emitted aside is part of the result. -/
theorem buffered {x : Lower α} {y : Lower β} (h : Alongside names models models' ps x y R) :
    Alongside names models models' ps (Lowering.buffered x) (Lowering.buffered y)
      fun qs a b => R qs a.1 b.1 ∧ Matched (Paired names qs) models models' a.2 b.2 := by
  refine ⟨fun hj hx hy => ?_⟩
  obtain ⟨s₁, hx₁, hcs, rfl⟩ := runs_buffered.mp hx
  obtain ⟨t₁, hy₁, hds, rfl⟩ := runs_buffered.mp hy
  obtain ⟨qs, cs, ds, hsub, hj₁, hcs₁, hds₁, hm, hr⟩ := h.run (hj.withCmds [] []) hx₁ hy₁
  refine ⟨qs, [], [], hsub, hj₁.withCmds _ _, (List.append_nil _).symm, (List.append_nil _).symm,
    .nil, hr, ?_⟩
  rw [hcs, hds, hcs₁, hds₁]
  exact hm

/-- New intermediate values are paired with each other. -/
theorem freshTemp (ty ty' : Ir.Ty) :
    Alongside names models models' ps (freshLocal "tmp" ty) (freshLocal "tmp" ty')
      fun qs x y => Paired names qs x y := by
  refine ⟨fun {s _ t _ _ _} hj hx hy => ?_⟩
  rw [freshLocal, withContext, runs_modifyGet] at hx hy
  cases hx
  cases hy
  have hsub : ps ⊆ (s.nextTemp, t.nextTemp) :: ps := List.subset_cons_self _ _
  refine ⟨(s.nextTemp, t.nextTemp) :: ps, [], [], hsub, ⟨?_, hj.copies, hj.returnVar, ?_, ?_⟩,
    (List.append_nil _).symm, (List.append_nil _).symm, .nil, .temp List.mem_cons_self⟩
  · exact hj.operands.imp fun _ _ h => h.mono (paired_mono hsub)
  · intro p hp
    show p.1 < s.nextTemp + 1 ∧ p.2 < t.nextTemp + 1
    rcases List.mem_cons.mp hp with rfl | hp
    · exact ⟨Nat.lt_succ_self _, Nat.lt_succ_self _⟩
    · have := hj.below p hp
      omega
  · -- the new numbers are greater than all others
    intro p hp q hq
    rcases List.mem_cons.mp hp with rfl | hp <;> rcases List.mem_cons.mp hq with rfl | hq
    · exact iff_of_true rfl rfl
    · have := hj.below q hq
      simp only
      omega
    · have := hj.below p hp
      simp only
      omega
    · exact hj.oneToOne p hp q hq

theorem popOperand :
    Alongside names models models' ps Lowering.popOperand Lowering.popOperand
      fun qs v v' => Alike (Paired names qs) v v' := by
  refine of_joint fun {s s' t t' v v'} hj hx hy => ?_
  simp only [Lowering.popOperand, runs_bind, runs_context] at hx hy
  obtain ⟨_, _, ⟨rfl, rfl⟩, hx⟩ := hx
  obtain ⟨_, _, ⟨rfl, rfl⟩, hy⟩ := hy
  have hops := hj.operands
  split at hx
  · next a as ha =>
    rw [ha] at hops
    split at hy
    · next b bs hb =>
      rw [hb, List.forall₂_cons] at hops
      simp only [changeContext, runs_bind, runs_modify, runs_pure] at hx hy
      obtain ⟨_, _, rfl, rfl, rfl⟩ := hx
      obtain ⟨_, _, rfl, rfl, rfl⟩ := hy
      exact ⟨⟨hops.2, hj.copies, hj.returnVar, hj.below, hj.oneToOne⟩, rfl, rfl, hops.1⟩
    · exact absurd hy not_runs_throw
  · exact absurd hx not_runs_throw

theorem pushOperand {v v' : Ir.Expr} (h : Alike (Paired names ps) v v') :
    Alongside names models models' ps (Lowering.pushOperand v) (Lowering.pushOperand v')
      fun _ _ _ => True := by
  refine of_joint fun {s s' t t' _ _} hj hx hy => ?_
  rw [Lowering.pushOperand, changeContext, runs_modify] at hx hy
  subst hx hy
  exact ⟨⟨.cons h hj.operands, hj.copies, hj.returnVar, hj.below, hj.oneToOne⟩, rfl, rfl, trivial⟩

end Alongside

end

/-! ## The parts of expressions -/

section

variable {names : String → Prop} {ps : List (Nat × Nat)} {env : Env} {mode mode' : UInt8}

/-- The relation between the values of two lowerings. -/
abbrev Values (names : String → Prop) (qs : List (Nat × Nat)) (v v' : Ir.Expr) : Prop :=
  Alike (Paired names qs) v v'

theorem valueOf_alongside {e : Expr} {x y : Lower (Option Ir.Expr)} {models models' : Bool}
    (h : Alongside names models models' ps x y fun qs => Option.Rel (Values names qs)) :
    Alongside names models models' ps (valueOf e x) (valueOf e y) (Values names) := by
  refine h.bind fun _ hr => ?_
  cases hr with
  | some hv => exact .pure hv
  | none => exact .throw

theorem truthOf_alike {P : Pairing} {e : Expr} {v v' c c' : Ir.Expr} (h : Alike P v v')
    (hc : truthOf e v = .ok c) (hc' : truthOf e v' = .ok c') : Alike P c c' := by
  unfold truthOf at hc hc'
  cases hk : e.ty.valueKind? with
  | none =>
    rw [hk] at hc
    cases hc
  | some kind =>
    rw [hk] at hc hc'
    cases kind with
    | boolean =>
      cases hc
      cases hc'
      exact h
    | integer | reference =>
      cases hc
      cases hc'
      exact .binary h .lit

theorem conditionOf_alongside {e : Expr} {x y : Lower (Option Ir.Expr)} {models models' : Bool}
    (h : Alongside names models models' ps x y fun qs => Option.Rel (Values names qs)) :
    Alongside names models models' ps (conditionOf e x) (conditionOf e y) (Values names) := by
  refine (valueOf_alongside h).bind fun _ hv => .of_joint fun hj hx hy => ?_
  obtain ⟨hc, rfl⟩ := runs_lift.mp hx
  obtain ⟨hc', rfl⟩ := runs_lift.mp hy
  exact ⟨hj, rfl, rfl, truthOf_alike hv hc hc'⟩

theorem alloc_alongside {models models' : Bool} (type : TypeRef) :
    Alongside names models models' ps (alloc type) (alloc type) (Values names) := by
  refine (Alongside.freshTemp .ref .ref).bind fun _ hx => ?_
  refine (Alongside.emit ⟨by simp, ?_⟩).bind fun hsub _ => .pure (.ident (hx.mono hsub))
  rw [Machine.flatten_singleton, Machine.flatten_singleton]
  exact .call (.cons .typeConst .nil) (.cons hx .nil) .none .none .nil

/-- The label of a region is looked up without a trace in the code. -/
theorem cmds_allot {id : Nat} {slot : Region → Option String} {fill : Region → String → Region}
    {name x : String} {s s' : State}
    (h : Runs (withContext (·.allot id slot fill name)) s x s') : s'.cmds = s.cmds := by
  rw [withContext, runs_modifyGet] at h
  cases h
  split
  · split <;> rfl
  · rfl

theorem cmds_useLabelVar {x : String} {s s' : State} (h : Runs useLabelVar s x s') :
    s'.cmds = s.cmds := by
  rw [useLabelVar, changeContext, runs_bind] at h
  obtain ⟨_, s₁, h₁, h₂⟩ := h
  rw [runs_modify] at h₁
  rw [(runs_pure.mp h₂).2, h₁]
  rfl

/-- The code that sends an exception to its handler has no label. -/
theorem labels_propagate {env : Env} {s s' : State} {u : Unit} (h : Runs (propagate env) s u s')
    (hs : s.cmds = []) : labels (flatten s'.cmds) = [] := by
  obtain ⟨cx, s₁, h₁, h⟩ := runs_bind.mp h
  obtain ⟨rfl, rfl⟩ := runs_context.mp h₁
  split at h
  · obtain ⟨_, s₂, h₂, h₃⟩ := runs_bind.mp h
    obtain ⟨cs, hcs, hf⟩ := (emits_record h₂).cmds
    rw [runs_emit.mp h₃, hcs, hs, List.nil_append, Machine.flatten_append, hf]
    split <;> rfl
  · obtain ⟨l, s₂, h₂, h₃⟩ := runs_bind.mp h
    rw [runs_emit.mp h₃, cmds_allot h₂, hs]
    rfl
  · simp only [runs_bind] at h
    obtain ⟨x, s₂, h₂, _, s₃, h₃, l, s₄, h₄, h₅⟩ := h
    rw [runs_emit.mp h₅, cmds_allot h₄, runs_emit.mp h₃, cmds_useLabelVar h₂, hs]
    rfl
  · obtain ⟨l, s₂, h₂, h₃⟩ := runs_bind.mp h
    rw [runs_emit.mp h₃, cmds_allot h₂, hs]
    rfl

/-- A call with the test behind it, in one mode. -/
theorem runs_emitCall {method : MethodRef} {args : List Ir.Expr} {outs : List String}
    {s s' : State} {u : Unit} (h : Runs (emitCall (env.withMode mode) method args outs) s u s') :
    ∃ cs, s'.cmds = s.cmds ++ .invoke method.procedureName args outs :: cs ∧
      Test (mode != 0) (flatten cs) := by
  simp only [emitCall, runs_bind, runs_emit] at h
  obtain ⟨_, s₁, rfl, h⟩ := h
  by_cases hm : (env.withMode mode).options.modelsExceptions = true
  · rw [if_pos hm] at h
    simp only [propagateIfAny, runs_bind, runs_emit] at h
    obtain ⟨cs, s₂, h₂, rfl⟩ := h
    obtain ⟨s₃, h₃, rfl, rfl⟩ := runs_commandsOf.mp h₂
    refine ⟨[.ifThen (.neq .exception .null) s₃.cmds], by simp, ?_⟩
    rw [Machine.flatten_singleton]
    exact .some hm (labels_propagate h₃ rfl)
  · rw [if_neg hm, runs_pure] at h
    rw [h.2]
    exact ⟨[], rfl, .none⟩

theorem emitCall_alongside {method : MethodRef} {args args' : List Ir.Expr}
    {outs outs' : List String} (ha : AllAlike (Paired names ps) args args')
    (ho : List.Forall₂ (Paired names ps) outs outs') :
    Alongside names (mode != 0) (mode' != 0) ps (emitCall (env.withMode mode) method args outs)
      (emitCall (env.withMode mode') method args' outs') fun _ _ _ => True := by
  refine ⟨fun hj hx hy => ?_⟩
  obtain ⟨cs, hcs, ht⟩ := runs_emitCall hx
  obtain ⟨ds, hds, ht'⟩ := runs_emitCall hy
  refine ⟨ps, _, _, List.Subset.refl _, hj.kept (keeps_emitCall.kept hx) (keeps_emitCall.kept hy),
    hcs, hds, ⟨by simp, ?_⟩, trivial⟩
  have hcall : Steps (Paired names ps) (mode != 0) (mode' != 0) _ _ :=
    @Steps.call _ _ _ method.procedureName _ _ _ _ _ _ _ _ ha ho ht ht' .nil
  rwa [List.append_nil, List.append_nil] at hcall

theorem finishCall_alongside {method : MethodRef} {args args' : List Ir.Expr} {ty : Ty}
    (ha : AllAlike (Paired names ps) args args') :
    Alongside names (mode != 0) (mode' != 0) ps (finishCall (env.withMode mode) method args ty)
      (finishCall (env.withMode mode') method args' ty)
      fun qs => Option.Rel (Values names qs) := by
  unfold finishCall
  split
  · exact (emitCall_alongside ha .nil).bind fun _ _ => .pure .none
  · refine Alongside.lift.bind fun hsub ht => ?_
    refine (Alongside.freshTemp _ _).bind fun hsub' hx => ?_
    have hsub'' := List.Subset.trans hsub hsub'
    refine (emitCall_alongside (ha.mono (paired_mono hsub'')) (.cons hx .nil)).bind
      fun hsub _ => ?_
    exact .pure (.some (.ident (hx.mono hsub)))

theorem finishNew_alongside {type : TypeRef} {ctor : Option MethodRef} {args args' : List Ir.Expr}
    (ha : AllAlike (Paired names ps) args args') :
    Alongside names (mode != 0) (mode' != 0) ps (finishNew (env.withMode mode) type ctor args)
      (finishNew (env.withMode mode') type ctor args') (Values names) := by
  refine (alloc_alongside type).bind fun hsub hv => ?_
  cases ctor with
  | none => exact .pure hv
  | some method =>
    refine (emitCall_alongside (.cons hv (ha.mono (paired_mono hsub))) .nil).bind
      fun hsub' _ => ?_
    exact .pure (hv.mono (paired_mono hsub'))

theorem finishBinary_alongside {models models' : Bool} {op : BinOp} {lhs : Expr}
    {left left' right right' : Ir.Expr} {cs ds : List Cmd} (hl : Values names ps left left')
    (hr : Values names ps right right') (hm : Matched (Paired names ps) models models' cs ds) :
    Alongside names models models' ps (finishBinary op lhs left right cs)
      (finishBinary op lhs left' right' ds) (Values names) := by
  unfold finishBinary
  rw [hm.isEmpty_eq]
  split
  · exact .pure (.binary hl hr)
  -- the left operand is kept in a variable, and the right one is evaluated under a test or not
  have hbool : ∀ {guard guard' : String → Ir.Expr},
      (∀ {qs x y}, Paired names qs x y → Values names qs (guard x) (guard' y)) →
      Alongside names models models' ps (do
        let tmp ← freshLocal "tmp" .bool
        emit (.set tmp left)
        emit (.ifThen (guard tmp) (cs ++ [Ir.Cmd.set tmp right]))
        return Ir.Expr.ident tmp) (do
        let tmp ← freshLocal "tmp" .bool
        emit (.set tmp left')
        emit (.ifThen (guard' tmp) (ds ++ [Ir.Cmd.set tmp right']))
        return Ir.Expr.ident tmp) (Values names) := by
    intro guard guard' hguard
    refine (Alongside.freshTemp .bool .bool).bind fun hsub hx => ?_
    refine (Alongside.emit (.set hx (hl.mono (paired_mono hsub)))).bind fun hsub' _ => ?_
    have hx' := hx.mono hsub'
    have hsub'' := paired_mono (N := names) (List.Subset.trans hsub hsub')
    refine (Alongside.emit (.ifElse (hguard hx') ?_ .nil)).bind fun hsub _ => ?_
    · exact (hm.mono hsub'').append (.set hx' (hr.mono hsub''))
    · exact .pure (.ident (hx'.mono hsub))
  cases op with
  | and => exact hbool fun hx => .ident hx
  | or => exact hbool fun hx => .unary (.ident hx)
  | _ =>
    refine Alongside.lift.bind fun hsub ht => ?_
    refine (Alongside.freshTemp _ _).bind fun hsub₁ hx => ?_
    have hsub₁ := List.Subset.trans hsub hsub₁
    refine (Alongside.emit (.set hx (hl.mono (paired_mono hsub₁)))).bind fun hsub₂ _ => ?_
    have hsub₂' := List.Subset.trans hsub₁ hsub₂
    refine (Alongside.emitAll (hm.mono (paired_mono hsub₂'))).bind fun hsub₃ _ => ?_
    refine .pure (.binary (.ident (hx.mono (List.Subset.trans hsub₂ hsub₃))) ?_)
    exact hr.mono (paired_mono (List.Subset.trans hsub₂' hsub₃))

theorem finishConditional_alongside {models models' : Bool} {ty : Ty} {span : Span}
    {cond cond' : Ir.Expr} {a a' b b' : Ir.Expr × List Cmd} (hc : Values names ps cond cond')
    (ha : Values names ps a.1 a'.1 ∧ Matched (Paired names ps) models models' a.2 a'.2)
    (hb : Values names ps b.1 b'.1 ∧ Matched (Paired names ps) models models' b.2 b'.2) :
    Alongside names models models' ps (finishConditional ty span cond a b)
      (finishConditional ty span cond' a' b') (Values names) := by
  unfold finishConditional
  rw [ha.2.isEmpty_eq, hb.2.isEmpty_eq]
  split
  · exact .pure (.ifThenElse hc ha.1 hb.1)
  refine Alongside.lift.bind fun hsub ht => ?_
  refine (Alongside.freshTemp _ _).bind fun hsub₁ hx => ?_
  have hsub₁ := paired_mono (N := names) (List.Subset.trans hsub hsub₁)
  refine (Alongside.emit (.ifElse (hc.mono hsub₁) ?_ ?_)).bind fun hsub _ => ?_
  · exact (ha.2.mono hsub₁).append (.set hx (ha.1.mono hsub₁))
  · exact (hb.2.mono hsub₁).append (.set hx (hb.1.mono hsub₁))
  · exact .pure (.ident (hx.mono hsub))

theorem defaultValue_alongside {models models' : Bool} {ty : Ty} {span : Span} :
    Alongside names models models' ps (defaultValue (env.withMode mode) ty span)
      (defaultValue (env.withMode mode') ty span) (Values names) := by
  unfold defaultValue
  cases ty with
  | void => exact .throw
  | bool | int => exact .pure .lit
  | named t =>
    exact .ite (alloc_alongside t) (.pure .lit)

theorem convert_alike {P : Pairing} {source target : Ty} {v v' : Ir.Expr} (h : Alike P v v') :
    Alike P (convert source target v) (convert source target v') := by
  unfold convert
  split
  · exact .ifThenElse h .lit .lit
  · exact .binary h .lit
  · exact h

/-! ## Expressions -/

/-- The names in the list are names of the source program. -/
def Known (names : String → Prop) (xs : List String) : Prop := ∀ x ∈ xs, names x

theorem known_append {xs ys : List String} :
    Known names (xs ++ ys) ↔ Known names xs ∧ Known names ys := by
  simp [Known, or_imp, forall_and]

theorem known_singleton {x : String} : Known names [x] ↔ names x := by
  simp [Known]

mutual

/-- The lowerings of an expression in two modes emit codes that do the same. -/
theorem lowerExpr_alongside (e : Expr) (compound : Bool) {ps : List (Nat × Nat)}
    (hn : Known names e.names) :
    Alongside names (mode != 0) (mode' != 0) ps (lowerExpr (env.withMode mode) e compound)
      (lowerExpr (env.withMode mode') e compound) fun qs => Option.Rel (Values names qs) := by
  obtain ⟨id, span, ty, kind⟩ := e
  cases kind with
  | literal lit =>
    rw [lowerExpr, lowerExpr]
    refine .pure (.some ?_)
    cases lit <;> exact .lit
  | var name =>
    rw [lowerExpr, lowerExpr]
    exact .pure (.some (.ident (.source (known_singleton.1 hn))))
  | self =>
    rw [lowerExpr, lowerExpr]
    exact .pure (.some (.ident (.source (known_singleton.1 hn))))
  | typeOf type =>
    rw [lowerExpr, lowerExpr]
    exact .pure (.some .typeConst)
  | field object field =>
    cases object with
    | none =>
      rw [lowerExpr, lowerExpr]
      exact .pure (.some (.ident (.source (known_singleton.1 hn))))
    | some object =>
      rw [lowerExpr, lowerExpr]
      exact (valueOf_alongside (lowerExpr_alongside object false hn)).bind fun _ hv =>
        .pure (.some (.select hv))
  | unary op operand =>
    rw [lowerExpr, lowerExpr]
    exact (valueOf_alongside (lowerExpr_alongside operand false hn)).bind fun _ hv =>
      .pure (.some (.unary hv))
  | getType operand =>
    rw [lowerExpr, lowerExpr]
    exact (valueOf_alongside (lowerExpr_alongside operand false hn)).bind fun _ hv =>
      .pure (.some (.app (.cons hv .nil)))
  | conversion operand newTy =>
    rw [lowerExpr, lowerExpr]
    exact (valueOf_alongside (lowerExpr_alongside operand false hn)).bind fun _ hv =>
      .pure (.some (convert_alike hv))
  | binary op lhs rhs =>
    rw [Expr.names, known_append] at hn
    by_cases htar : lhs.isTarget
    · obtain ⟨i, sp, t, lhsKind⟩ := lhs
      cases lhsKind with
      | target target =>
        rw [lowerExpr, lowerExpr]
        have hrest : Alongside names (mode != 0) (mode' != 0) ps (do
            let current ← readTarget (env.withMode mode) target
            let rhs ← valueOf rhs (lowerExpr (env.withMode mode) rhs false)
            writeTarget (env.withMode mode) target (.binary (binOp op) current rhs)
            return some (← readTarget (env.withMode mode) target)) (do
            let current ← readTarget (env.withMode mode') target
            let rhs ← valueOf rhs (lowerExpr (env.withMode mode') rhs false)
            writeTarget (env.withMode mode') target (.binary (binOp op) current rhs)
            return some (← readTarget (env.withMode mode') target))
            fun qs => Option.Rel (Values names qs) := by
          refine (readTarget_alongside target hn.1).bind fun _ hc => ?_
          refine (valueOf_alongside (lowerExpr_alongside rhs false hn.2)).bind fun hsub hv => ?_
          refine (writeTarget_alongside target hn.1
            (.binary (hc.mono (paired_mono hsub)) hv)).bind fun _ _ => ?_
          exact (readTarget_alongside target hn.1).bind fun _ hv => .pure (.some hv)
        -- outside an expression statement the lowering fails
        exact .ite hrest ((Alongside.throw (R := fun _ _ _ => False)).bind fun _ h => h.elim)
      | _ => cases htar
    · rw [Bool.not_eq_true] at htar
      rw [lowerExpr_binary (env.withMode mode) htar, lowerExpr_binary (env.withMode mode') htar]
      refine (valueOf_alongside (lowerExpr_alongside lhs false hn.1)).bind fun _ hl => ?_
      refine (valueOf_alongside (lowerExpr_alongside rhs false hn.2)).buffered.bind
        fun hsub hr => ?_
      refine (finishBinary_alongside (hl.mono (paired_mono hsub)) hr.1 hr.2).bind
        fun _ hv => ?_
      exact .pure (.some hv)
  | conditional cond thenExpr elseExpr =>
    rw [Expr.names, known_append, known_append] at hn
    rw [lowerExpr, lowerExpr]
    refine (conditionOf_alongside (lowerExpr_alongside cond false hn.1)).bind fun _ hc => ?_
    refine (valueOf_alongside (lowerExpr_alongside thenExpr false hn.2.1)).buffered.bind
      fun hsub₁ ha => ?_
    refine (valueOf_alongside (lowerExpr_alongside elseExpr false hn.2.2)).buffered.bind
      fun hsub₂ hb => ?_
    have hmono₂ := paired_mono (N := names) hsub₂
    refine (finishConditional_alongside (hc.mono (paired_mono (List.Subset.trans hsub₁ hsub₂)))
      ⟨ha.1.mono hmono₂, ha.2.mono hmono₂⟩ hb).bind fun _ hv => ?_
    exact .pure (.some hv)
  | assign target value =>
    rw [Expr.names, known_append] at hn
    rw [lowerExpr, lowerExpr]
    refine (valueOf_alongside (lowerExpr_alongside value false hn.2)).bind fun _ hv => ?_
    refine (writeTarget_alongside target hn.1 hv).bind fun _ _ => ?_
    exact (readTarget_alongside target hn.1).bind fun _ hv => .pure (.some hv)
  | target target =>
    rw [lowerExpr, lowerExpr]
    exact (readTarget_alongside target hn).bind fun _ hv => .pure (.some hv)
  | call call =>
    obtain ⟨method, receiver, args, isVirtual⟩ := call
    rw [Expr.names, known_append] at hn
    rw [lowerExpr, lowerExpr]
    refine (lowerOption_alongside receiver hn.1).bind fun _ hr => ?_
    refine (lowerArgs_alongside args hn.2).bind fun hsub ha => ?_
    refine finishCall_alongside (AllAlike.append ?_ ha)
    cases hr with
    | none => exact .nil
    | some hv => exact .cons (hv.mono (paired_mono hsub)) .nil
  | new type ctor args =>
    rw [lowerExpr, lowerExpr]
    refine (lowerArgs_alongside args hn).bind fun _ ha => ?_
    exact (finishNew_alongside ha).bind fun _ hv => .pure (.some hv)
  | defaultValue valueTy =>
    rw [lowerExpr, lowerExpr]
    exact defaultValue_alongside.bind fun _ hv => .pure (.some hv)
  | pop =>
    rw [lowerExpr, lowerExpr]
    exact Alongside.popOperand.bind fun _ hv => .pure (.some hv)

theorem readTarget_alongside (t : Target) {ps : List (Nat × Nat)} (hn : Known names t.names) :
    Alongside names (mode != 0) (mode' != 0) ps (readTarget (env.withMode mode) t)
      (readTarget (env.withMode mode') t) (Values names) := by
  cases t with
  | var name =>
    rw [readTarget, readTarget]
    exact .pure (.ident (.source (known_singleton.mp hn)))
  | field object field =>
    cases object with
    | none =>
      rw [readTarget, readTarget]
      exact .pure (.ident (.source (known_singleton.mp hn)))
    | some object =>
      rw [readTarget, readTarget]
      exact (valueOf_alongside (lowerExpr_alongside object false hn)).bind fun _ hv =>
        .pure (.select hv)

theorem writeTarget_alongside (t : Target) {v v' : Ir.Expr} {ps : List (Nat × Nat)}
    (hn : Known names t.names) (hv : Values names ps v v') :
    Alongside names (mode != 0) (mode' != 0) ps (writeTarget (env.withMode mode) t v)
      (writeTarget (env.withMode mode') t v') fun _ _ _ => True := by
  cases t with
  | var name =>
    rw [writeTarget, writeTarget]
    exact .emit (.set (.source (known_singleton.mp hn)) hv)
  | field object field =>
    cases object with
    | none =>
      rw [writeTarget, writeTarget]
      exact .emit (.set (.source (known_singleton.mp hn)) hv)
    | some object =>
      rw [writeTarget, writeTarget]
      refine (valueOf_alongside (lowerExpr_alongside object false hn)).bind fun hsub ho => ?_
      refine .emit ⟨by simp, ?_⟩
      rw [Machine.flatten_singleton, Machine.flatten_singleton]
      exact .store ho (hv.mono (paired_mono hsub)) .nil

theorem lowerOption_alongside (e : Option Expr) {ps : List (Nat × Nat)}
    (hn : Known names (Source.namesOption e)) :
    Alongside names (mode != 0) (mode' != 0) ps (lowerOption (env.withMode mode) e)
      (lowerOption (env.withMode mode') e) fun qs => Option.Rel (Values names qs) := by
  cases e with
  | none =>
    rw [lowerOption, lowerOption]
    exact .pure .none
  | some e =>
    rw [lowerOption, lowerOption]
    exact (valueOf_alongside (lowerExpr_alongside e false hn)).bind fun _ hv => .pure (.some hv)

theorem lowerArgs_alongside (es : List Expr) {ps : List (Nat × Nat)}
    (hn : Known names (Source.namesAll es)) :
    Alongside names (mode != 0) (mode' != 0) ps (lowerArgs (env.withMode mode) es)
      (lowerArgs (env.withMode mode') es) fun qs => AllAlike (Paired names qs) := by
  cases es with
  | nil =>
    rw [lowerArgs, lowerArgs]
    exact .pure .nil
  | cons e es =>
    rw [Source.namesAll, known_append] at hn
    rw [lowerArgs, lowerArgs]
    refine (valueOf_alongside (lowerExpr_alongside e false hn.1)).bind fun _ hv => ?_
    exact (lowerArgs_alongside es hn.2).bind fun hsub hvs =>
      .pure (.cons (hv.mono (paired_mono hsub)) hvs)

end

theorem value_alongside {e : Expr} (hn : Known names e.names) :
    Alongside names (mode != 0) (mode' != 0) ps (value (env.withMode mode) e)
      (value (env.withMode mode') e) (Values names) :=
  valueOf_alongside (lowerExpr_alongside e false hn)

theorem condition_alongside {e : Expr} (hn : Known names e.names) :
    Alongside names (mode != 0) (mode' != 0) ps (condition (env.withMode mode) e)
      (condition (env.withMode mode') e) (Values names) :=
  conditionOf_alongside (lowerExpr_alongside e false hn)

end

end Unwind.Modes
