import Mathlib.Data.List.Basic
import Unwind.Lowering.Context
import Unwind.Proofs.Machine

/-!
# Generated names

A generated name is a text followed by a number, or by two numbers with `_` between them. Decimal
notation is injective and has no `_`, so that names of different origin are different; names of the
source program are kept apart by the `$` in front.

* `Tag` says where a label comes from; `Tag.name_inj` is the injectivity of label names.
* The variables of the lowering are compared by `simp`, through their characters.
-/

namespace Unwind.Lowering

open Machine (isGenerated)

/-- Decimal notation is injective. -/
theorem toDigits_inj {m n : Nat} : Nat.toDigits 10 m = Nat.toDigits 10 n ↔ m = n := by
  refine ⟨fun h => ?_, fun h => by rw [h]⟩
  have hn := congrArg (fun cs => Nat.ofDigitChars 10 cs 0) h
  simpa [Nat.ofDigitChars_toDigits] using hn


/-! ## Labels -/

/-- Where a label comes from. -/
inductive Tag where
  /-- A labeled statement. -/
  | source (label : String)
  /-- The catch clauses of a region. -/
  | catches (region : Nat)
  /-- The finally block of a region. -/
  | finalizer (region : Nat)
  /-- The place behind a region. -/
  | behind (region : Nat)
  /-- The place where a jump goes on that leaves a region. -/
  | resume (region edge : Nat)
deriving DecidableEq

namespace Tag

/-- The label itself. -/
def name : Tag → String
  | source label => label
  | catches region => "$catch" ++ toString region
  | finalizer region => "$finally" ++ toString region
  | behind region => "$continuation" ++ toString region
  | resume region edge => "$escape" ++ toString region ++ "_" ++ toString edge

/-- Labels of the source program do not look generated. -/
def Proper : Tag → Prop
  | source label => isGenerated label = false
  | _ => True

/-- Whether the label belongs to a labeled statement. -/
def isSource : Tag → Bool
  | source _ => true
  | _ => false

theorem isGenerated_name {t : Tag} (ht : t.Proper) : isGenerated t.name = !t.isSource := by
  cases t with
  | source label => exact ht
  | catches | finalizer | behind | resume => simp [isGenerated, name, isSource]

theorem isGenerated_of_not_isSource {t : Tag} (h : t.isSource = false) :
    isGenerated t.name = true := by
  have ht : t.Proper := by
    cases t with
    | source => cases h
    | _ => trivial
  rw [isGenerated_name ht, h]
  rfl

/-- Labels of different origin are different. -/
theorem name_inj {t t' : Tag} (ht : t.Proper) (ht' : t'.Proper) (h : t.name = t'.name) :
    t = t' := by
  have hs : t.isSource = t'.isSource := by
    have hg := isGenerated_name ht
    rw [h, isGenerated_name ht'] at hg
    simpa using hg.symm
  have hl : t.name.toList = t'.name.toList := congrArg String.toList h
  cases t with
  | source label =>
    cases t' with
    | source label' => exact congrArg source h
    | _ => cases hs
  | catches r =>
    cases t' with
    | source => cases hs
    | catches r' => exact congrArg catches (toDigits_inj.1 (by simpa [name] using hl))
    | _ => simp [name] at hl
  | finalizer r =>
    cases t' with
    | source => cases hs
    | finalizer r' => exact congrArg finalizer (toDigits_inj.1 (by simpa [name] using hl))
    | _ => simp [name] at hl
  | behind r =>
    cases t' with
    | source => cases hs
    | behind r' => exact congrArg behind (toDigits_inj.1 (by simpa [name] using hl))
    | _ => simp [name] at hl
  | resume r k =>
    cases t' with
    | source => cases hs
    | resume r' k' =>
      -- the `_` separates the two numbers, which have none
      have hl' : Nat.toDigits 10 r ++ '_' :: Nat.toDigits 10 k
          = Nat.toDigits 10 r' ++ '_' :: Nat.toDigits 10 k' := by
        simpa [name] using hl
      obtain ⟨hr, -, hk⟩ := (List.append_cons_inj_of_notMem Nat.underscore_not_in_toDigits
        Nat.underscore_not_in_toDigits).mp hl'
      rw [toDigits_inj.mp hr, toDigits_inj.mp hk]
    | _ => simp [name] at hl

end Tag

/-! ## Variables -/

/-- What a variable is for. -/
inductive Slot where
  /-- A variable of the source program. -/
  | source (name : String)
  /-- `$Exception`. -/
  | exception
  /-- The variable that says how a region is left. -/
  | label
  /-- The result of the procedure. -/
  | result
  /-- The exception that a region has caught. -/
  | caught (region : Nat)
  /-- The exception put aside while a finally block runs. -/
  | savedExc (number : Nat)
  /-- The label put aside while a finally block runs. -/
  | savedLabel (number : Nat)
  /-- An intermediate value. -/
  | temp (number : Nat)
deriving DecidableEq

namespace Slot

/-- The name of the variable. -/
def name : Slot → String
  | source name => name
  | exception => Ir.exceptionVar
  | label => labelVar
  | result => resultVar
  | caught region => "$localExc" ++ toString region
  | savedExc number => "$" ++ "savedExc" ++ toString number
  | savedLabel number => "$" ++ "savedLabel" ++ toString number
  | temp number => "$" ++ "tmp" ++ toString number

/-- Variables of the source program do not look generated. -/
def Proper : Slot → Prop
  | source name => isGenerated name = false
  | _ => True

/-- Whether the variable belongs to the source program. -/
def isSource : Slot → Bool
  | source _ => true
  | _ => false

theorem isGenerated_name {v : Slot} (hv : v.Proper) : isGenerated v.name = !v.isSource := by
  cases v with
  | source name => exact hv
  | _ => simp [isGenerated, name, isSource, Ir.exceptionVar, labelVar, resultVar]

/-- The names that the lowering makes have no dot. -/
theorem dot_notMem_name {v : Slot} (hv : v.isSource = false) : '.' ∉ v.name.toList := by
  have hnumber : ∀ (stem : String) (k : Nat), '.' ∉ stem.toList →
      '.' ∉ (stem ++ toString k).toList := by
    intro stem k hstem hmem
    rw [String.toList_append, List.mem_append] at hmem
    rcases hmem with hmem | hmem
    · exact hstem hmem
    · rw [Nat.toString_eq_repr, Nat.toList_repr] at hmem
      exact absurd (Nat.isDigit_of_mem_toDigits (by decide) (by decide) hmem) (by decide)
  cases v with
  | source name => cases hv
  | exception | label | result => decide
  | caught k => exact hnumber _ k (by decide)
  | savedExc k => exact hnumber _ k (by decide)
  | savedLabel k => exact hnumber _ k (by decide)
  | temp k => exact hnumber _ k (by decide)

/-- Different variables have different names. -/
theorem name_inj {v v' : Slot} (hv : v.Proper) (hv' : v'.Proper) (h : v.name = v'.name) :
    v = v' := by
  have hs : v.isSource = v'.isSource := by
    have hg := isGenerated_name hv
    rw [h, isGenerated_name hv'] at hg
    simpa using hg.symm
  have hl : v.name.toList = v'.name.toList := congrArg String.toList h
  cases v with
  | source x =>
    cases v' with
    | source x' => exact congrArg source h
    | _ => cases hs
  | exception | label | result =>
    clear h
    cases v' with
    | source => cases hs
    | _ => simp [name, Ir.exceptionVar, labelVar, resultVar] at hl ⊢
  | caught r =>
    cases v' with
    | source => cases hs
    | caught r' => exact congrArg caught (toDigits_inj.mp (by simpa [name] using hl))
    | _ => simp [name, Ir.exceptionVar, labelVar, resultVar] at hl
  | savedExc n =>
    cases v' with
    | source => cases hs
    | savedExc n' => exact congrArg savedExc (toDigits_inj.mp (by simpa [name] using hl))
    | _ => simp [name, Ir.exceptionVar, labelVar, resultVar] at hl
  | savedLabel n =>
    cases v' with
    | source => cases hs
    | savedLabel n' => exact congrArg savedLabel (toDigits_inj.mp (by simpa [name] using hl))
    | _ => simp [name, Ir.exceptionVar, labelVar, resultVar] at hl
  | temp n =>
    cases v' with
    | source => cases hs
    | temp n' => exact congrArg temp (toDigits_inj.mp (by simpa [name] using hl))
    | _ => simp [name, Ir.exceptionVar, labelVar, resultVar] at hl

theorem name_eq_name_iff {v v' : Slot} (hv : v.Proper) (hv' : v'.Proper) :
    v.name = v'.name ↔ v = v' :=
  ⟨name_inj hv hv', fun h => by rw [h]⟩

end Slot

end Unwind.Lowering
