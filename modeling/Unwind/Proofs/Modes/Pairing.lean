import Mathlib.Data.List.Forall2
import Unwind.Proofs.Execution

/-!
# Codes that differ in their variables

Two lowerings of one body give their intermediate values different numbers. `Paired` says which
variable of the one code stands for which of the other: variables of the source program and the
result stand for themselves, and intermediate values are paired by number. Expressions are `Alike`
when they differ in paired variables only; where the data `Agree` on paired variables, such
expressions have the same value, and writing the same value to paired variables keeps the data in
agreement.
-/

namespace Unwind.Modes

open Ir (Expr)
open Lowering (Slot)
open Machine (Data Memory Value World eval evalAll isGenerated)

/-- Which variable of one code stands for which of another. -/
abbrev Pairing := String → String → Prop

/-- The variables in `names` and the result stand for themselves, intermediate values are paired by
number. -/
inductive Paired (names : String → Prop) (ps : List (Nat × Nat)) : String → String → Prop where
  | source {x : String} : names x → Paired names ps x x
  | result : Paired names ps (Slot.result).name (Slot.result).name
  | temp {i j : Nat} : (i, j) ∈ ps → Paired names ps (Slot.temp i).name (Slot.temp j).name

theorem Paired.mono {names : String → Prop} {ps qs : List (Nat × Nat)} {x y : String}
    (h : Paired names ps x y) (hs : ps ⊆ qs) : Paired names qs x y := by
  cases h with
  | source hx => exact .source hx
  | result => exact .result
  | temp hp => exact .temp (hs hp)

/-! ## Expressions -/

mutual

/-- The expressions differ in paired variables only. -/
inductive Alike (P : Pairing) : Expr → Expr → Prop where
  | lit {l : Ir.Lit} : Alike P (.lit l) (.lit l)
  | ident {x y : String} : P x y → Alike P (.ident x) (.ident y)
  | typeConst {name : String} : Alike P (.typeConst name) (.typeConst name)
  | unary {op : Ir.UnOp} {a a' : Expr} : Alike P a a' → Alike P (.unary op a) (.unary op a')
  | binary {op : Ir.BinOp} {a a' b b' : Expr} :
      Alike P a a' → Alike P b b' → Alike P (.binary op a b) (.binary op a' b')
  | app {f : String} {as as' : List Expr} :
      AllAlike P as as' → Alike P (.app f as) (.app f as')
  | select {map : String} {a a' : Expr} : Alike P a a' → Alike P (.select map a) (.select map a')
  | ifThenElse {c c' a a' b b' : Expr} :
      Alike P c c' → Alike P a a' → Alike P b b' →
      Alike P (.ifThenElse c a b) (.ifThenElse c' a' b')

/-- The same for lists. -/
inductive AllAlike (P : Pairing) : List Expr → List Expr → Prop where
  | nil : AllAlike P [] []
  | cons {a a' : Expr} {as as' : List Expr} :
      Alike P a a' → AllAlike P as as' → AllAlike P (a :: as) (a' :: as')

end

section

variable {P Q : Pairing}

mutual

theorem Alike.mono (hPQ : ∀ x y, P x y → Q x y) {e e' : Expr} (h : Alike P e e') : Alike Q e e' := by
  cases h with
  | lit => exact .lit
  | ident hx => exact .ident (hPQ _ _ hx)
  | typeConst => exact .typeConst
  | unary ha => exact .unary (ha.mono hPQ)
  | binary ha hb => exact .binary (ha.mono hPQ) (hb.mono hPQ)
  | app has => exact .app (has.mono hPQ)
  | select ha => exact .select (ha.mono hPQ)
  | ifThenElse hc ha hb => exact .ifThenElse (hc.mono hPQ) (ha.mono hPQ) (hb.mono hPQ)

theorem AllAlike.mono (hPQ : ∀ x y, P x y → Q x y) {es es' : List Expr} (h : AllAlike P es es') :
    AllAlike Q es es' := by
  cases h with
  | nil => exact .nil
  | cons ha has => exact .cons (ha.mono hPQ) (has.mono hPQ)

end

mutual

theorem Alike.refl (hP : ∀ x, P x x) (e : Expr) : Alike P e e := by
  cases e with
  | lit => exact .lit
  | ident x => exact .ident (hP x)
  | typeConst => exact .typeConst
  | unary _ a => exact .unary (.refl hP a)
  | binary _ a b => exact .binary (.refl hP a) (.refl hP b)
  | app _ as => exact .app (.refl hP as)
  | select _ a => exact .select (.refl hP a)
  | ifThenElse c a b => exact .ifThenElse (.refl hP c) (.refl hP a) (.refl hP b)

theorem AllAlike.refl (hP : ∀ x, P x x) (es : List Expr) : AllAlike P es es := by
  cases es with
  | nil => exact .nil
  | cons e es => exact .cons (.refl hP e) (.refl hP es)

end

theorem AllAlike.append {as as' bs bs' : List Expr} (h : AllAlike P as as') (h' : AllAlike P bs bs') :
    AllAlike P (as ++ bs) (as' ++ bs') := by
  induction as generalizing as' with
  | nil =>
    cases h
    exact h'
  | cons a as ih =>
    cases h with
    | cons ha has => exact .cons ha (ih has)

end

/-! ## Data -/

/-- The pairing is one to one, leaves `$Exception` out, and pairs different variables only where
both are generated. -/
structure Sharp (P : Pairing) : Prop where
  oneToOne : ∀ {x y x' y'}, P x y → P x' y' → (x = x' ↔ y = y')
  ne_exception : ∀ {x y}, P x y → x ≠ Ir.exceptionVar ∧ y ≠ Ir.exceptionVar
  generated : ∀ {x y}, P x y → x = y ∨ isGenerated x = true ∧ isGenerated y = true

/-- Numbers that are paired one to one make a sharp pairing, when no name looks generated. -/
theorem sharp_paired {names : String → Prop} {ps : List (Nat × Nat)}
    (hnames : ∀ x, names x → isGenerated x = false)
    (hps : ∀ p ∈ ps, ∀ q ∈ ps, p.1 = q.1 ↔ p.2 = q.2) : Sharp (Paired names ps) := by
  -- a paired variable is one of the slots, and which one says how it is paired
  have hslot : ∀ {x y}, Paired names ps x y → ∃ v v' : Slot, v.Proper ∧ v'.Proper ∧ x = v.name ∧
      y = v'.name ∧ v ≠ .exception ∧ v' ≠ .exception ∧
      (v = v' ∧ (∀ n, v ≠ .temp n) ∨ ∃ p ∈ ps, v = .temp p.1 ∧ v' = .temp p.2) := by
    intro x y h
    cases h with
    | source hx =>
      exact ⟨.source x, .source x, hnames x hx, hnames x hx, rfl, rfl, nofun, nofun,
        .inl ⟨rfl, nofun⟩⟩
    | result =>
      exact ⟨.result, .result, trivial, trivial, rfl, rfl, nofun, nofun, .inl ⟨rfl, nofun⟩⟩
    | @temp i j hp =>
      exact ⟨.temp i, .temp j, trivial, trivial, rfl, rfl, nofun, nofun,
        .inr ⟨(i, j), hp, rfl, rfl⟩⟩
  refine ⟨?_, ?_, ?_⟩
  · intro x y x' y' h h'
    obtain ⟨v, u, hv, hu, rfl, rfl, -, -, hvu⟩ := hslot h
    obtain ⟨v', u', hv', hu', rfl, rfl, -, -, hvu'⟩ := hslot h'
    rw [Slot.name_eq_name_iff hv hv', Slot.name_eq_name_iff hu hu']
    rcases hvu with ⟨rfl, hn⟩ | ⟨p, hp, rfl, rfl⟩ <;> rcases hvu' with ⟨rfl, hn'⟩ | ⟨q, hq, rfl, rfl⟩
    · exact Iff.rfl
    · exact ⟨fun he => absurd he (hn _), fun he => absurd he (hn _)⟩
    · exact ⟨fun he => absurd he.symm (hn' _), fun he => absurd he.symm (hn' _)⟩
    · rw [Slot.temp.injEq, Slot.temp.injEq]
      exact hps p hp q hq
  · intro x y h
    obtain ⟨v, u, hv, hu, rfl, rfl, hve, hue, -⟩ := hslot h
    have hexc : (Slot.exception).Proper := trivial
    exact ⟨fun he => hve (Slot.name_inj hv hexc he), fun he => hue (Slot.name_inj hu hexc he)⟩
  · intro x y h
    cases h with
    | source => exact .inl rfl
    | result => exact .inl rfl
    | temp => exact .inr ⟨Slot.isGenerated_name trivial, Slot.isGenerated_name trivial⟩

/-- The same values of paired variables, the same memory, and the same calls so far. -/
structure Agree (w : World) (P : Pairing) (d d' : Data) : Prop where
  vars : ∀ {x y}, P x y → d.get w x = d'.get w y
  memory : d.memory = d'.memory
  calls : d.calls = d'.calls

section

variable {w : World} {P : Pairing} {d d' : Data}

mutual

/-- Expressions that are alike have the same value. -/
theorem Agree.eval (h : Agree w P d d') {e e' : Expr} (he : Alike P e e') :
    eval w d e = eval w d' e' := by
  cases he with
  | lit | typeConst => rfl
  | ident hx => exact h.vars hx
  | unary ha => rw [Machine.eval, Machine.eval, h.eval ha]
  | binary ha hb => rw [Machine.eval, Machine.eval, h.eval ha, h.eval hb]
  | app has => rw [Machine.eval, Machine.eval, h.evalAll has]
  | select ha => rw [Machine.eval, Machine.eval, h.eval ha, h.memory]
  | ifThenElse hc ha hb =>
    rw [Machine.eval, Machine.eval, h.eval hc, h.eval ha, h.eval hb]

theorem Agree.evalAll (h : Agree w P d d') {es es' : List Expr} (hes : AllAlike P es es') :
    evalAll w d es = evalAll w d' es' := by
  cases hes with
  | nil => rfl
  | cons he hes => rw [Machine.evalAll, Machine.evalAll, h.eval he, h.evalAll hes]

end

theorem Sharp.isGlobal_eq (hP : Sharp P) {x y : String} (h : P x y) (w : World) :
    w.isGlobal x = w.isGlobal y := by
  rcases hP.generated h with rfl | ⟨hx, hy⟩
  · rfl
  · rw [w.not_isGlobal_of_isGenerated x hx, w.not_isGlobal_of_isGenerated y hy]

/-- A variable outside the running procedure is paired with itself. -/
theorem Sharp.eq_of_isGlobal (hP : Sharp P) {x y : String} (h : P x y)
    (hg : w.isGlobal x = true) : x = y := by
  rcases hP.generated h with rfl | ⟨hx, -⟩
  · rfl
  · rw [w.not_isGlobal_of_isGenerated x hx] at hg
    cases hg

/-- A paired variable is read from the same part of the data on both sides. -/
theorem Sharp.get_iff (hP : Sharp P) {x y : String} (h : P x y) (w : World) (d d' : Data) :
    d.get w x = d'.get w y ↔
      if w.isGlobal x then d.memory.globals x = d'.memory.globals y
      else d.locals x = d'.locals y := by
  obtain ⟨hx, hy⟩ := hP.ne_exception h
  rw [Data.get, Data.get, if_neg hx, if_neg hy, ← hP.isGlobal_eq h]
  split <;> exact Iff.rfl

/-- Callees change the memory on both sides in the same way. -/
theorem Agree.withMemory (hP : Sharp P) (h : Agree w P d d') (m : Memory)
    (calls : List Machine.Call) :
    Agree w P { d with memory := m, calls } { d' with memory := m, calls } := by
  refine ⟨fun {x y} hxy => ?_, rfl, rfl⟩
  have hget := (hP.get_iff hxy w d d').mp (h.vars hxy)
  rw [hP.get_iff hxy]
  by_cases hg : w.isGlobal x = true
  · rw [if_pos hg, hP.eq_of_isGlobal hxy hg]
  · rw [if_neg hg] at hget ⊢
    exact hget

/-- Writing the same value to paired variables. -/
theorem Agree.set (hP : Sharp P) (h : Agree w P d d') {x y : String} (hxy : P x y) (v : Value) :
    Agree w P (d.set w x v) (d'.set w y v) := by
  obtain ⟨hx, hy⟩ := hP.ne_exception hxy
  rw [Data.set, Data.set, if_neg hx, if_neg hy, ← hP.isGlobal_eq hxy]
  by_cases hg : w.isGlobal x = true
  · rw [if_pos hg, if_pos hg, h.memory, h.calls, hP.eq_of_isGlobal hxy hg]
    exact h.withMemory hP _ _
  · rw [if_neg hg, if_neg hg]
    refine ⟨fun {x' y'} hxy' => ?_, h.memory, h.calls⟩
    have hget := (hP.get_iff hxy' w d d').mp (h.vars hxy')
    rw [hP.get_iff hxy']
    by_cases hg' : w.isGlobal x' = true
    · rw [if_pos hg'] at hget ⊢
      exact hget
    · rw [if_neg hg'] at hget ⊢
      simp only [Function.update_apply, hP.oneToOne hxy' hxy, hget]

theorem Agree.setAll (hP : Sharp P) (h : Agree w P d d') {xs ys : List String}
    (hxy : List.Forall₂ P xs ys) (vs : List Value) :
    Agree w P (d.setAll w xs vs) (d'.setAll w ys vs) := by
  unfold Data.setAll
  induction hxy generalizing d d' vs with
  | nil => exact h
  | cons hx _ ih =>
    cases vs with
    | nil => exact h
    | cons v vs => exact ih (h.set hP hx v) vs

/-- Writing the same value to the same field of the same object. -/
theorem Agree.store (hP : Sharp P) (h : Agree w P d d') {map : String} {i i' : Expr}
    (hi : Alike P i i') (v : Value) :
    Agree w P (Machine.assign w d (.map map i) v) (Machine.assign w d' (.map map i') v) := by
  simp only [Machine.assign, h.eval hi, h.memory, h.calls]
  exact h.withMemory hP _ _

/-- The same call. -/
theorem Agree.invoke (hP : Sharp P) (h : Agree w P d d') (proc : String) (vs : List Value)
    {xs ys : List String} (hxy : List.Forall₂ P xs ys) :
    Agree w P (Machine.invoke w d proc vs xs) (Machine.invoke w d' proc vs ys) := by
  unfold Machine.invoke
  rw [h.memory, h.calls]
  split
  · exact (h.withMemory hP _ _).setAll hP hxy _
  · exact (h.withMemory hP _ _).setAll hP hxy _

end

end Unwind.Modes
