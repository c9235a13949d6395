import Unwind.Proofs.Names

/-!
# Running code step by step

What one instruction does, and two facts about whole runs: the instructions that are left are
always a suffix of the program, so that a jump lands at the one place where its label stands.

Variables of the lowering belong to the running procedure. `$Exception` apart, they are read and
written without a look at the memory.
-/

namespace Unwind.Machine

open Lowering (Slot)

variable {w : World} {prog rest : List Instr} {d : Data}

@[simp]
theorem Value.holds_bool (b : Bool) : (Value.bool b).holds = b := by cases b <;> rfl

/-! ## Variables -/

@[simp]
theorem Data.get_exception : d.get w Ir.exceptionVar = .ref d.memory.exception := by
  rw [Data.get, if_pos rfl]

@[simp]
theorem Data.set_exception (v : Value) :
    d.set w Ir.exceptionVar v = { d with memory := { d.memory with exception := v.object? } } := by
  rw [Data.set, if_pos rfl]

/-- A variable of the lowering other than `$Exception`. -/
def isOwn (v : Slot) : Bool := !v.isSource && v ≠ .exception

theorem isOwn_proper {v : Slot} (h : isOwn v = true) : v.Proper := by
  cases v with
  | source => cases h
  | _ => trivial

theorem isOwn_name {v : Slot} (h : isOwn v = true) :
    v.name ≠ Ir.exceptionVar ∧ isGenerated v.name = true := by
  have hv := isOwn_proper h
  simp only [isOwn, Bool.and_eq_true, Bool.not_eq_true', decide_eq_true_eq] at h
  constructor
  · have hexc : (Slot.exception).Proper := trivial
    exact fun he => h.2 (Slot.name_inj hv hexc he)
  · rw [Slot.isGenerated_name hv, h.1]
    rfl

theorem Data.get_own {v : Slot} (h : isOwn v = true) : d.get w v.name = d.locals v.name := by
  obtain ⟨hne, hg⟩ := isOwn_name h
  rw [Data.get, if_neg hne, w.not_isGlobal_of_isGenerated _ hg, if_neg Bool.false_ne_true]

theorem Data.set_own {v : Slot} (h : isOwn v = true) (x : Value) :
    d.set w v.name x = { d with locals := Function.update d.locals v.name x } := by
  obtain ⟨hne, hg⟩ := isOwn_name h
  rw [Data.set, if_neg hne, w.not_isGlobal_of_isGenerated _ hg, if_neg Bool.false_ne_true]

theorem Data.locals_set_own {v : Slot} (h : isOwn v = true) (x : Value) :
    (d.set w v.name x).locals v.name = x := by
  rw [Data.set_own h]
  exact Function.update_self _ _ _

/-- Setting a variable keeps the other ones of the procedure. -/
theorem Data.locals_set {x y : String} (h : y ≠ x) (v : Value) :
    (d.set w x v).locals y = d.locals y := by
  unfold Data.set
  split_ifs
  · rfl
  · rfl
  · exact Function.update_of_ne h _ _

theorem Data.locals_setAll {xs : List String} {y : String} (h : y ∉ xs) (vs : List Value) :
    (d.setAll w xs vs).locals y = d.locals y := by
  unfold Data.setAll
  induction xs generalizing d vs with
  | nil => rfl
  | cons x xs ih =>
    rw [List.mem_cons, not_or] at h
    cases vs with
    | nil => rfl
    | cons v vs => exact (ih h.2 vs).trans (locals_set h.1 v)

theorem locals_invoke {xs : List String} {y : String} (h : y ∉ xs) (proc : String)
    (vs : List Value) : (invoke w d proc vs xs).locals y = d.locals y := by
  unfold invoke
  split
  · exact Data.locals_setAll h _
  · exact Data.locals_setAll h _

/-- Setting another variable keeps the pending exception. -/
theorem Data.exception_set {x : String} (hx : x ≠ Ir.exceptionVar) (v : Value) :
    (d.set w x v).memory.exception = d.memory.exception := by
  unfold Data.set
  rw [if_neg hx]
  split <;> rfl

theorem Data.exception_setAll {xs : List String} (hx : Ir.exceptionVar ∉ xs) (vs : List Value) :
    (d.setAll w xs vs).memory.exception = d.memory.exception := by
  unfold Data.setAll
  induction xs generalizing d vs with
  | nil => rfl
  | cons x xs ih =>
    rw [List.mem_cons, not_or] at hx
    cases vs with
    | nil => rfl
    | cons v vs => exact (ih hx.2 vs).trans (exception_set (Ne.symm hx.1) v)

/-- No exception is pending, so that setting none changes nothing. -/
theorem Data.set_exception_null (hd : d.memory.exception = none) :
    d.set w Ir.exceptionVar .null = d := by
  obtain ⟨locals, ⟨exception, globals, fields, objects⟩, calls⟩ := d
  cases hd
  rfl

/-- No exception is pending, so the test behind a call is passed over. -/
theorem holds_pending_none (h : d.memory.exception = none) :
    (eval w d (.neq .exception .null)).holds = false := by
  have he : eval w d (.neq .exception .null) = .bool (Value.ref none != .null) := by
    show Value.bool (Data.get w d Ir.exceptionVar != Value.null) = _
    rw [Data.get_exception, h]
  rw [he]
  rfl

/-- An exception is pending, so the test behind a call finds it. -/
theorem holds_pending (h : d.memory.exception ≠ none) :
    (eval w d (.neq .exception .null)).holds = true := by
  obtain ⟨o, ho⟩ := Option.ne_none_iff_exists'.mp h
  have he : eval w d (.neq .exception .null) = .bool (Value.ref (some o) != .null) := by
    show Value.bool (Data.get w d Ir.exceptionVar != Value.null) = _
    rw [Data.get_exception, ho]
  rw [he]
  rfl

/-! ## What is left of the program -/

theorem landing_suffix {l : String} (h : landing l prog = some rest) : rest <:+ prog := by
  induction prog with
  | nil => cases h
  | cons i prog ih =>
    rw [landing] at h
    split at h
    · cases h
      exact List.suffix_refl _
    · exact (ih h).trans (List.suffix_cons _ _)

/-- The instructions that are left are a suffix of the program. -/
theorem step_suffix {c c' : Config} (h : step w prog c = some c') (hc : c.rest <:+ prog) :
    c'.rest <:+ prog := by
  obtain ⟨is, d⟩ := c
  cases is with
  | nil => cases h
  | cons i is =>
    have his : is <:+ prog := (List.suffix_cons i is).trans hc
    cases i with
    | assert cond | assume cond =>
      simp only [step] at h
      split at h
      · cases h
        exact his
      · cases h
    | assign | call | note | label =>
      cases h
      exact his
    | branchUnless cond skip =>
      cases h
      simp only
      split
      · exact his
      · exact (List.drop_suffix _ _).trans his
    | jump skip =>
      cases h
      exact (List.drop_suffix _ _).trans his
    | goto l =>
      obtain ⟨rest, hl, rfl⟩ := Option.map_eq_some_iff.mp h
      exact landing_suffix hl
    | ret => cases h

theorem Reaches.suffix {c c' : Config} (h : Reaches w prog c c') (hc : c.rest <:+ prog) :
    c'.rest <:+ prog := by
  induction h with
  | refl => exact hc
  | tail _ hs ih => exact step_suffix hs ih

theorem landing_of_suffix {l : String} (hnd : (labels prog).Nodup) (h : .label l :: rest <:+ prog) :
    landing l prog = some (.label l :: rest) := by
  obtain ⟨pre, rfl⟩ := h
  exact landing_append hnd

/-! ## Single instructions -/

theorem reaches_step {c c' c'' : Config} (h : step w prog c = some c')
    (h' : Reaches w prog c' c'') : Reaches w prog c c'' := .head h h'

theorem reaches_set {x : String} {e : Ir.Expr} :
    Reaches w prog ⟨.set x e :: rest, d⟩ ⟨rest, d.set w x (eval w d e)⟩ := .single rfl

theorem reaches_label {l : String} : Reaches w prog ⟨.label l :: rest, d⟩ ⟨rest, d⟩ := .single rfl

theorem reaches_call {proc : String} {args : List Ir.Expr} {outs : List String} :
    Reaches w prog ⟨.call proc args outs :: rest, d⟩
      ⟨rest, invoke w d proc (evalAll w d args) outs⟩ := .single rfl

/-- A jump goes on behind its label. -/
theorem reaches_goto {l : String} {more : List Instr} (hnd : (labels prog).Nodup)
    (h : .label l :: rest <:+ prog) : Reaches w prog ⟨.goto l :: more, d⟩ ⟨rest, d⟩ := by
  have hs : step w prog ⟨.goto l :: more, d⟩ = some ⟨.label l :: rest, d⟩ := by
    show (landing l prog).map _ = _
    rw [landing_of_suffix hnd h]
    rfl
  exact reaches_step hs reaches_label

/-- The code of a conditional runs its first part when the condition holds. -/
theorem reaches_branch_then {cond : Ir.Expr} {n : Nat} (h : (eval w d cond).holds = true) :
    Reaches w prog ⟨.branchUnless cond n :: rest, d⟩ ⟨rest, d⟩ := by
  refine .single ?_
  show some (Config.mk _ _) = _
  rw [if_pos h]

/-- Otherwise it runs the second part. -/
theorem reaches_branch_else {cond : Ir.Expr} {as bs : List Instr} {i : Instr}
    (h : (eval w d cond).holds = false) :
    Reaches w prog ⟨.branchUnless cond (as.length + 1) :: (as ++ i :: bs), d⟩ ⟨bs, d⟩ := by
  refine .single ?_
  show some (Config.mk _ _) = _
  rw [h, if_neg Bool.false_ne_true]
  simp

/-- Behind the first part, the second one is jumped over. -/
theorem reaches_jump {bs : List Instr} :
    Reaches w prog ⟨.jump bs.length :: (bs ++ rest), d⟩ ⟨rest, d⟩ := by
  refine .single ?_
  show some (Config.mk _ _) = _
  simp

/-- Control can go on with the next instruction. -/
def Instr.goesOn : Instr → Bool
  | goto _ | ret | jump _ => false
  | _ => true

/-- How many instructions can be skipped. -/
def Instr.skip? : Instr → Option Nat
  | jump n | branchUnless _ n => some n
  | _ => none

/-- After a step control goes on with the next instruction, skips some, or is at a label. -/
theorem step_cases {i : Instr} {c : Config} (h : step w prog ⟨i :: rest, d⟩ = some c) :
    (i.goesOn = true ∧ c.rest = rest ∧
      ∀ cond n, i = .branchUnless cond n → (eval w d cond).holds = true ∧ c.data = d) ∨
    (∃ n, i.skip? = some n ∧ c.rest = rest.drop n ∧ c.data = d) ∨
    ∃ l, i = .goto l ∧ landing l prog = some c.rest ∧ c.data = d := by
  cases i with
  | assert | assume =>
    simp only [step, Option.ite_none_right_eq_some, Option.some.injEq] at h
    exact .inl ⟨rfl, by rw [← h.2], nofun⟩
  | assign | call | note | label =>
    cases h
    exact .inl ⟨rfl, rfl, nofun⟩
  | branchUnless cond n =>
    cases hc : (eval w d cond).holds with
    | true =>
      simp only [step, hc, if_true, Option.some.injEq] at h
      subst h
      refine .inl ⟨rfl, rfl, ?_⟩
      rintro _ _ ⟨⟩
      exact ⟨hc, rfl⟩
    | false =>
      simp only [step, hc, Option.some.injEq] at h
      subst h
      exact .inr (.inl ⟨n, rfl, rfl, rfl⟩)
  | jump n =>
    cases h
    exact .inr (.inl ⟨n, rfl, rfl, rfl⟩)
  | goto l =>
    obtain ⟨is, his, rfl⟩ := Option.map_eq_some_iff.mp h
    exact .inr (.inr ⟨l, rfl, his, rfl⟩)
  | ret => cases h

/-- A procedure that is over takes no step. -/
theorem step_of_isDone {c : Config} (h : c.isDone = true) : step w prog c = none := by
  obtain ⟨is, d⟩ := c
  cases is with
  | nil => rfl
  | cons i is =>
    cases i with
    | ret => rfl
    | _ => cases h

/-- The variables that an instruction writes itself. -/
def Instr.writes : Instr → List String
  | assign (.var x) _ => [x]
  | call _ _ outs => outs
  | _ => []

/-- A step keeps the variables of the procedure that its instruction does not write. -/
theorem step_locals {i : Instr} {c : Config} {y : String}
    (h : step w prog ⟨i :: rest, d⟩ = some c) (hy : y ∉ i.writes) :
    c.data.locals y = d.locals y := by
  cases i with
  | assert | assume =>
    simp only [step, Option.ite_none_right_eq_some, Option.some.injEq] at h
    rw [← h.2]
  | assign lhs rhs =>
    cases h
    cases lhs with
    | var x => exact Data.locals_set (List.ne_of_not_mem_cons hy) _
    | map => rfl
  | call proc args outs =>
    cases h
    exact locals_invoke hy proc _
  | note | label | branchUnless | jump =>
    cases h
    rfl
  | goto l =>
    obtain ⟨ks, -, rfl⟩ := Option.map_eq_some_iff.mp h
    rfl
  | ret => cases h

/-! ## Runs through some places -/

/-- Steps in front of which the configuration has a property. -/
def Along (w : World) (prog : List Instr) (Q : Config → Prop) : Config → Config → Prop :=
  Relation.ReflTransGen fun c c' => step w prog c = some c' ∧ Q c

section

variable {Q : Config → Prop} {c c' c'' : Config}

theorem Along.head (hs : step w prog c = some c') (hq : Q c) (h : Along w prog Q c' c'') :
    Along w prog Q c c'' := Relation.ReflTransGen.head ⟨hs, hq⟩ h

theorem Along.refl : Along w prog Q c c := Relation.ReflTransGen.refl

theorem Along.trans (h : Along w prog Q c c') (h' : Along w prog Q c' c'') :
    Along w prog Q c c'' := Relation.ReflTransGen.trans h h'

theorem Along.mono {Q' : Config → Prop} (hq : ∀ c, Q c → Q' c) (h : Along w prog Q c c') :
    Along w prog Q' c c' :=
  Relation.ReflTransGen.mono (fun _ _ hs => ⟨hs.1, hq _ hs.2⟩) _ _ h

theorem Along.reaches (h : Along w prog Q c c') : Reaches w prog c c' :=
  Relation.ReflTransGen.mono (fun _ _ hs => hs.1) _ _ h

/-- A variable is set to the value of an expression. -/
theorem along_set {x : String} {e : Ir.Expr} {v : Value} (hv : eval w d e = v)
    (hq : Q ⟨.set x e :: rest, d⟩) (h : Along w prog Q ⟨rest, d.set w x v⟩ c) :
    Along w prog Q ⟨.set x e :: rest, d⟩ c := by
  subst hv
  exact .head rfl hq h

theorem along_goto {l : String} {more : List Instr} (hnd : (labels prog).Nodup)
    (hl : .label l :: rest <:+ prog) (hq : Q ⟨.goto l :: more, d⟩)
    (hq' : Q ⟨.label l :: rest, d⟩) : Along w prog Q ⟨.goto l :: more, d⟩ ⟨rest, d⟩ := by
  have hs : step w prog ⟨.goto l :: more, d⟩ = some ⟨.label l :: rest, d⟩ := by
    show (landing l prog).map _ = _
    rw [landing_of_suffix hnd hl]
    rfl
  exact .head hs hq (.head rfl hq' .refl)

end

end Unwind.Machine
