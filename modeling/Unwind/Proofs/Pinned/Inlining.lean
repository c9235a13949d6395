import Mathlib.Order.Filter.AtTopBot.Basic
import Unwind.Proofs.Pinned.Running

/-!
# Inlining the cells of a stack

Values can be kept on a stack of variables, the cells: they are stored there when they are pushed,
and read from there when they are popped. Or the expression for a value is kept, and put wherever
the value is popped. `Body` relates the two codes: the second one sets cells, and where it reads
them the first one has the expressions.

The codes do the same as long as no cell is read behind a command that may change what its
expression reads (`undisturbed`). This is a forward analysis: it goes through the code and remembers
which cells still have the value of their expression, and on which places that depends.
-/

namespace Unwind.Pinned

open Ir (Cmd Expr)
open Machine (Place World alters flatten isGenerated labels reads readsAll)

/-! ## Cells -/

/-- Variables of the procedure for the values on a stack; `cell k` is for the one with `k` others
below it. -/
structure Cells where
  cell : Nat → String
  isCell : String → Bool
  isCell_cell : ∀ k, isCell (cell k) = true
  cell_inj : ∀ {i j}, cell i = cell j → i = j
  generated : ∀ x, isCell x = true → isGenerated x = true
  ne_exception : isCell Ir.exceptionVar = false

namespace Cells

/-- The place is no cell. -/
def spares (C : Cells) : Place → Bool
  | .var x => !C.isCell x
  | .map _ => true

mutual

/-- The command reads and writes no cell. -/
def avoids (C : Cells) : Cmd → Bool
  | .assert cond _ | .assume cond _ => (reads cond).all C.spares
  | .assign (.var x) rhs => !C.isCell x && (reads rhs).all C.spares
  | .assign (.map _ i) rhs => (reads i).all C.spares && (reads rhs).all C.spares
  | .call _ _ args outs => (readsAll args).all C.spares && outs.all (!C.isCell ·)
  | .ifElse cond thenCmds elseCmds =>
    (reads cond).all C.spares && avoidsAll C thenCmds && avoidsAll C elseCmds
  | .goto _ | .label _ | .ret => true

def avoidsAll (C : Cells) : List Cmd → Bool
  | [] => true
  | c :: cs => avoids C c && avoidsAll C cs

end

end Cells

/-! ## Cells that code does not mention -/

section

open Filter

/-- Generated names that are longer than `n` and ten more characters. -/
def longName (n k : Nat) : String :=
  "$" ++ String.ofList (List.replicate (n + 10) '_') ++ toString k

/-- A generated name is longer than `n` and ten more characters. -/
def isLong (n : Nat) (x : String) : Bool := isGenerated x && decide (n + 10 < x.toList.length)

theorem isLong_longName (n k : Nat) : isLong n (longName n k) = true := by
  simp only [isLong, longName, isGenerated, Nat.toString_eq_repr, String.toList_append,
    String.reduceToList, String.toList_ofList, List.cons_append, List.nil_append, Nat.toList_repr,
    List.head?_cons, BEq.rfl, List.length_cons, List.length_append, List.length_replicate,
    Bool.true_and, decide_eq_true_eq]
  omega

theorem longName_inj {n i j : Nat} (h : longName n i = longName n j) : i = j := by
  have hl := congrArg String.toList h
  exact Lowering.toDigits_inj.mp (by simpa [longName] using hl)

theorem isGenerated_of_isLong {n : Nat} (x : String) (h : isLong n x = true) :
    isGenerated x = true := by
  rw [isLong, Bool.and_eq_true] at h
  exact h.1

theorem not_isLong_exceptionVar (n : Nat) : isLong n Ir.exceptionVar = false := by
  have hlength : Ir.exceptionVar.toList.length = 10 := by decide
  simp [isLong, hlength]

/-- Long names are cells. -/
def Cells.long (n : Nat) : Cells where
  cell := longName n
  isCell := isLong n
  isCell_cell := isLong_longName n
  cell_inj := longName_inj
  generated := isGenerated_of_isLong
  ne_exception := not_isLong_exceptionVar n

namespace Cells

theorem eventually_not_isCell (x : String) : ∀ᶠ n in atTop, (long n).isCell x = false := by
  filter_upwards [eventually_ge_atTop x.toList.length] with n hn
  simp only [long, isLong, Bool.and_eq_false_iff, decide_eq_false_iff_not]
  right
  omega

theorem eventually_spares (ps : List Place) : ∀ᶠ n in atTop, ps.all (long n).spares = true := by
  induction ps with
  | nil => simp
  | cons p ps ih =>
    cases p with
    | map m =>
      filter_upwards [ih] with n h
      simpa [spares] using h
    | var x =>
      filter_upwards [ih, eventually_not_isCell x] with n h hx
      rw [List.all_cons, h, spares, hx]
      rfl

theorem eventually_outs (xs : List String) : ∀ᶠ n in atTop, xs.all (!(long n).isCell ·) = true := by
  induction xs with
  | nil => simp
  | cons x xs ih =>
    filter_upwards [ih, eventually_not_isCell x] with n h hx
    rw [List.all_cons, h, hx]
    rfl

mutual

theorem eventually_avoids (c : Cmd) : ∀ᶠ n in atTop, (long n).avoids c = true := by
  cases c with
  | assert cond | assume cond => exact eventually_spares (reads cond)
  | assign lhs rhs =>
    cases lhs with
    | var x =>
      filter_upwards [eventually_not_isCell x, eventually_spares (reads rhs)] with n hx hr
      simp [avoids, hx, hr]
    | map m i =>
      filter_upwards [eventually_spares (reads i), eventually_spares (reads rhs)] with n hi hr
      simp [avoids, hi, hr]
  | call attrs proc args outs =>
    filter_upwards [eventually_spares (readsAll args), eventually_outs outs] with n ha ho
    simp only [avoids, ha, ho, Bool.and_self]
  | ifElse cond thenCmds elseCmds =>
    filter_upwards [eventually_spares (reads cond), eventually_avoidsAll thenCmds,
      eventually_avoidsAll elseCmds] with n hc ht he
    simp only [avoids, hc, ht, he, Bool.and_self]
  | goto | label | ret => exact .of_forall fun _ => rfl

theorem eventually_avoidsAll (cs : List Cmd) : ∀ᶠ n in atTop, (long n).avoidsAll cs = true := by
  cases cs with
  | nil => exact .of_forall fun _ => rfl
  | cons c cs =>
    filter_upwards [eventually_avoids c, eventually_avoidsAll cs] with n hc hcs
    rw [avoidsAll, hc, hcs]
    rfl

end

/-- There are always cells that code does not mention. -/
theorem exists_avoidsAll (cs : List Cmd) : ∃ C : Cells, C.avoidsAll cs = true :=
  let ⟨n, hn⟩ := (eventually_avoidsAll cs).exists
  ⟨long n, hn⟩

end Cells

end

/-! ## The code with expressions and the code with cells -/

section

variable (C : Cells) (σ : Nat → Expr)

/-- Cells of the second expression are replaced by the expressions for them. -/
inductive Inlined : Expr → Expr → Prop where
  | same (e : Expr) : Inlined e e
  | cell (k : Nat) : Inlined (σ k) (.ident (C.cell k))
  | unary {op : Ir.UnOp} {a a' : Expr} : Inlined a a' → Inlined (.unary op a) (.unary op a')
  | binary {op : Ir.BinOp} {a a' b b' : Expr} :
      Inlined a a' → Inlined b b' → Inlined (.binary op a b) (.binary op a' b')
  | dynamicType {a a' : Expr} : Inlined a a' → Inlined (.dynamicType a) (.dynamicType a')
  | select {map : String} {a a' : Expr} : Inlined a a' → Inlined (.select map a) (.select map a')
  | ifThenElse {c c' a a' b b' : Expr} :
      Inlined c c' → Inlined a a' → Inlined b b' →
      Inlined (.ifThenElse c a b) (.ifThenElse c' a' b')

/-- The same for commands; none of them is a label. -/
inductive Code : List Cmd → List Cmd → Prop where
  | nil : Code [] []
  | assert {c c' : Expr} {attrs : List Ir.Attr} {cs ps : List Cmd} :
      Inlined C σ c c' → Code cs ps → Code (.assert c attrs :: cs) (.assert c' attrs :: ps)
  | assume {c c' : Expr} {attrs : List Ir.Attr} {cs ps : List Cmd} :
      Inlined C σ c c' → Code cs ps → Code (.assume c attrs :: cs) (.assume c' attrs :: ps)
  | set {x : String} {r r' : Expr} {cs ps : List Cmd} :
      Inlined C σ r r' → Code cs ps → Code (.set x r :: cs) (.set x r' :: ps)
  | store {map : String} {i i' r r' : Expr} {cs ps : List Cmd} :
      Inlined C σ i i' → Inlined C σ r r' → Code cs ps →
      Code (.assign (.map map i) r :: cs) (.assign (.map map i') r' :: ps)
  | call {attrs : List Ir.Attr} {proc : String} {args args' : List Expr} {outs : List String}
      {cs ps : List Cmd} :
      List.Forall₂ (Inlined C σ) args args' → Code cs ps →
      Code (.call attrs proc args outs :: cs) (.call attrs proc args' outs :: ps)
  | branch {c c' : Expr} {as as' bs bs' cs ps : List Cmd} :
      Inlined C σ c c' → Code as as' → Code bs bs' → Code cs ps →
      Code (.ifElse c as bs :: cs) (.ifElse c' as' bs' :: ps)
  | goto {l : String} {cs ps : List Cmd} : Code cs ps → Code (.goto l :: cs) (.goto l :: ps)
  | ret {cs ps : List Cmd} : Code cs ps → Code (.ret :: cs) (.ret :: ps)

end

/-- Between commands that read cells, the second code sets cells; from then on the first one has the
expressions that they were set to. -/
inductive Body (C : Cells) : (Nat → Expr) → List Cmd → List Cmd → (Nat → Expr) → Prop where
  | nil {σ : Nat → Expr} : Body C σ [] [] σ
  | code {σ τ : Nat → Expr} {cs ps cs' ps' : List Cmd} :
      Code C σ cs ps → Body C σ cs' ps' τ → Body C σ (cs ++ cs') (ps ++ ps') τ
  | pin {σ τ : Nat → Expr} {k : Nat} {v v' : Expr} {cs ps : List Cmd} :
      Inlined C σ v v' → Body C (Function.update σ k v) cs ps τ →
      Body C σ cs (.set (C.cell k) v' :: ps) τ

section

variable {C : Cells} {σ τ ρ : Nat → Expr} {cs ps cs' ps' : List Cmd}

theorem Code.append (h : Code C σ cs ps) (h' : Code C σ cs' ps') :
    Code C σ (cs ++ cs') (ps ++ ps') := by
  induction h with
  | nil => exact h'
  | assert hc _ ih => exact .assert hc ih
  | assume hc _ ih => exact .assume hc ih
  | set hr _ ih => exact .set hr ih
  | store hi hr _ ih => exact .store hi hr ih
  | call ha _ ih => exact .call ha ih
  | branch hc ha hb _ _ _ ih => exact .branch hc ha hb ih
  | goto _ ih => exact .goto ih
  | ret _ ih => exact .ret ih

theorem Code.labels (h : Code C σ cs ps) : labels (flatten cs) = [] ∧ labels (flatten ps) = [] := by
  induction h with
  | nil => exact ⟨rfl, rfl⟩
  | branch _ _ _ _ iha ihb ih =>
    simp [flatten, Machine.flattenCmd, iha, ihb, ih, Machine.Instr.label?]
  | @call attrs _ _ _ _ _ _ _ _ ih =>
    cases attrs <;> simp [flatten, Machine.flattenCmd, ih, Machine.Instr.label?]
  | _ => simp_all [flatten, Machine.flattenCmd, Machine.Instr.label?, Cmd.set]

theorem Body.of_code (h : Code C σ cs ps) : Body C σ cs ps σ := by
  simpa using Body.code h .nil

theorem Body.append (h : Body C σ cs ps τ) (h' : Body C τ cs' ps' ρ) :
    Body C σ (cs ++ cs') (ps ++ ps') ρ := by
  induction h with
  | nil => exact h'
  | code hc _ ih =>
    rw [List.append_assoc, List.append_assoc]
    exact .code hc (ih h')
  | pin hv _ ih => exact .pin hv (ih h')

theorem Body.labels (h : Body C σ cs ps τ) : labels (flatten cs) = [] ∧ labels (flatten ps) = [] := by
  induction h with
  | nil => exact ⟨rfl, rfl⟩
  | code hc _ ih => simp [hc.labels, ih]
  | pin _ _ ih => simp [flatten, Machine.flattenCmd, ih, Machine.Instr.label?, Cmd.set]

end

/-! ## Cells that still have the value of their expression -/

/-- The cells that have the value of their expression, each with the places that it depends on. -/
abbrev Held := String → Option (List Place)

/-- The places that a command reads itself. -/
def cmdReads : Cmd → List Place
  | .assert cond _ | .assume cond _ | .ifElse cond _ _ => reads cond
  | .assign (.var _) rhs => reads rhs
  | .assign (.map _ i) rhs => reads i ++ reads rhs
  | .call _ _ args _ => readsAll args
  | .goto _ | .label _ | .ret => []

namespace Held

/-- Every cell among the places is held. -/
def knows (C : Cells) (A : Held) (ps : List Place) : Bool :=
  ps.all fun
    | .var x => !C.isCell x || (A x).isSome
    | .map _ => true

/-- What the places depend on, when cells stand for their expressions. -/
def support (C : Cells) (A : Held) (ps : List Place) : List Place :=
  ps.flatMap fun
    | .var x => if C.isCell x then (A x).getD [] else [.var x]
    | .map map => [.map map]

section

variable {C : Cells} {A : Held}

theorem knows_append (ps qs : List Place) :
    A.knows C (ps ++ qs) = (A.knows C ps && A.knows C qs) := List.all_append

theorem support_append (ps qs : List Place) :
    A.support C (ps ++ qs) = A.support C ps ++ A.support C qs := List.flatMap_append

theorem knows_map (map : String) (ps : List Place) :
    A.knows C (.map map :: ps) = A.knows C ps := rfl

theorem support_map (map : String) (ps : List Place) :
    A.support C (.map map :: ps) = .map map :: A.support C ps := rfl

/-- A cell that is read is one of those that are held. -/
theorem exists_of_knows_cell {k : Nat} (h : A.knows C [.var (C.cell k)] = true) :
    ∃ ps, A (C.cell k) = some ps ∧ A.support C [.var (C.cell k)] = ps := by
  simp only [knows, List.all_cons, List.all_nil, C.isCell_cell, Bool.and_true, Bool.not_true,
    Bool.false_or] at h
  obtain ⟨ps, hps⟩ := Option.isSome_iff_exists.mp h
  exact ⟨ps, hps, by simp [support, C.isCell_cell, hps]⟩

end

/-- The cells whose expressions a command does not disturb. -/
def kill (w : World) (A : Held) (c : Cmd) : Held :=
  fun x => (A x).filter fun ps => ps.all fun p => !alters w c p

/-- The cells that are held behind a command. -/
def after (C : Cells) (w : World) (A : Held) : Cmd → Held
  | .assign (.var x) rhs =>
    if C.isCell x then Function.update A x (some (support C A (reads rhs)))
    else A.kill w (.assign (.var x) rhs)
  | c => A.kill w c

end Held

mutual

/-- The command only reads cells that are held. -/
def undisturbedCmd (C : Cells) (w : World) (A : Held) : Cmd → Bool
  | .ifElse cond thenCmds elseCmds =>
    A.knows C (reads cond) && undisturbed C w A thenCmds && undisturbed C w A elseCmds
  | c => A.knows C (cmdReads c)

/-- No cell is read behind a command that may change what its expression reads. -/
def undisturbed (C : Cells) (w : World) (A : Held) : List Cmd → Bool
  | [] => true
  | c :: cs => undisturbedCmd C w A c && undisturbed C w (A.after C w c) cs

end

end Unwind.Pinned
