import Mathlib.Logic.Function.Basic
import Mathlib.Logic.Relation
import Unwind.Ir.Basic

/-!
# Running a procedure

A procedure runs on its flattened body: `ifElse` becomes a conditional branch and a jump, each over
the number of instructions it skips, so that `goto` can reach a label at any depth. A configuration
holds the **instructions that are left**, always a suffix of the whole program; two places of one
program are the same exactly when the suffixes are.

What the callees do is a parameter, the `World`. It sees all calls made so far, so that every
behaviour of the callees, whatever it depends on, is the behaviour of some world; a run in a given
world is deterministic.

* A call of a source procedure may change everything outside the variables of the running
  procedure. It raises by leaving an object in `$Exception`.
* `$Alloc` creates an object that no earlier `$Alloc` has created.
* A call that carries notes only records a value; it is a `note` and changes nothing.
-/

namespace Unwind.Machine

open Ir (BinOp Cmd Expr Lhs Lit UnOp)

/-! ## Values -/

/-- An object, with the constant that stands for its exact type. -/
structure Object where
  number : Nat
  type : String
deriving DecidableEq

/-- A value of a variable or of an expression. -/
inductive Value where
  | int (value : Int64)
  | bool (value : Bool)
  | ref (object : Option Object)
  | type (name : String)
deriving DecidableEq

namespace Value

/-- The null reference. -/
def null : Value := ref none

/-- A value that is used as a condition holds when it is `true`. -/
def holds (v : Value) : Bool := v == bool true

/-- The object that a reference points to; other values point to none. -/
def object? : Value → Option Object
  | ref o => o
  | _ => none

end Value

/-! ## State -/

/-- What a callee can see and change. -/
structure Memory where
  /-- The exception in `$Exception`. -/
  exception : Option Object := none
  /-- The static fields. -/
  globals : String → Value := fun _ => .null
  /-- The instance fields, each a map from references to values. -/
  fields : String → Value → Value := fun _ _ => .null
  /-- The number of objects created. -/
  objects : Nat := 0

/-- A call with the values of its arguments. -/
structure Call where
  proc : String
  args : List Value
deriving DecidableEq

/-- A name that starts with `$` is generated. -/
def isGenerated (name : String) : Bool := name.toList.head? == some '$'

/-- The types of the objects and the behaviour of the callees. -/
structure World where
  /-- `subtype a b`: the type `a` is `b` or derives from it. -/
  subtype : String → String → Bool
  /-- The variables that do not belong to the running procedure, `$Exception` apart. -/
  isGlobal : String → Bool
  /-- Generated variables belong to the running procedure. -/
  not_isGlobal_of_isGenerated : ∀ name, isGenerated name = true → isGlobal name = false
  /-- What a call does after the calls made before it, and the results it returns. -/
  call : List Call → Call → Memory → Memory × List Value

/-- The values of all variables and the calls made so far, the oldest first. -/
structure Data where
  locals : String → Value
  memory : Memory
  calls : List Call := []

namespace Data

/-- The value of a variable. -/
def get (w : World) (d : Data) (name : String) : Value :=
  if name = Ir.exceptionVar then .ref d.memory.exception
  else if w.isGlobal name then d.memory.globals name
  else d.locals name

/-- Store a value in a variable. -/
def set (w : World) (d : Data) (name : String) (v : Value) : Data :=
  if name = Ir.exceptionVar then { d with memory := { d.memory with exception := v.object? } }
  else if w.isGlobal name then
    { d with memory := { d.memory with globals := Function.update d.memory.globals name v } }
  else { d with locals := Function.update d.locals name v }

/-- Store values in variables, from left to right. -/
def setAll (w : World) (d : Data) (names : List String) (vs : List Value) : Data :=
  (names.zip vs).foldl (fun d (name, v) => d.set w name v) d

end Data

/-! ## Expressions -/

/-- The value of a unary operator; off its domain it is null. -/
def unary : UnOp → Value → Value
  | .not, .bool b => .bool (!b)
  | .neg, .int n => .int (-n)
  | _, _ => .null

/-- The value of a binary operator; off its domain it is null. -/
def binary : BinOp → Value → Value → Value
  | .eq, a, b => .bool (a == b)
  | .neq, a, b => .bool (a != b)
  | .add, .int a, .int b => .int (a + b)
  | .sub, .int a, .int b => .int (a - b)
  | .mul, .int a, .int b => .int (a * b)
  | .div, .int a, .int b => .int (a / b)
  | .mod, .int a, .int b => .int (a % b)
  | .lt, .int a, .int b => .bool (decide (a < b))
  | .le, .int a, .int b => .bool (decide (a ≤ b))
  | .gt, .int a, .int b => .bool (decide (b < a))
  | .ge, .int a, .int b => .bool (decide (b ≤ a))
  | .and, .bool a, .bool b => .bool (a && b)
  | .or, .bool a, .bool b => .bool (a || b)
  | _, _, _ => .null

theorem binary_neq (a b : Value) : binary .neq a b = .bool (a != b) := rfl

/-- The constant for the exact type of an object. -/
def dynamicType : Value → Value
  | .ref (some o) => .type o.type
  | _ => .type "null"

/-- The value of a function; off its domain it is null. -/
def apply (w : World) : String → List Value → Value
  | "$DynamicType", [v] => dynamicType v
  | "$Subtype", [.type a, .type b] => .bool (w.subtype a b)
  | _, _ => .null

theorem apply_dynamicType (w : World) (v : Value) : apply w "$DynamicType" [v] = dynamicType v :=
  rfl

theorem apply_subtype (w : World) (a b : String) :
    apply w "$Subtype" [.type a, .type b] = .bool (w.subtype a b) := rfl

/-- The value of a literal. -/
def literal : Lit → Value
  | .int n => .int n
  | .bool b => .bool b
  | .null => .null

mutual

/-- The value of an expression. -/
def eval (w : World) (d : Data) : Expr → Value
  | .lit l => literal l
  | .ident name => d.get w name
  | .typeConst name => .type name
  | .unary op a => unary op (eval w d a)
  | .binary op a b => binary op (eval w d a) (eval w d b)
  | .app f args => apply w f (evalAll w d args)
  | .select map index => d.memory.fields map (eval w d index)
  | .ifThenElse c a b => if (eval w d c).holds then eval w d a else eval w d b

/-- The values of expressions. -/
def evalAll (w : World) (d : Data) : List Expr → List Value
  | [] => []
  | e :: es => eval w d e :: evalAll w d es

end

/-! ## Instructions -/

/-- An instruction of a flattened body. -/
inductive Instr where
  | assert (cond : Expr)
  | assume (cond : Expr)
  | assign (lhs : Lhs) (rhs : Expr)
  | call (proc : String) (args : List Expr) (outs : List String)
  /-- A call that carries notes. -/
  | note
  /-- Skip some instructions unless a condition holds. -/
  | branchUnless (cond : Expr) (skip : Nat)
  /-- Skip some instructions. -/
  | jump (skip : Nat)
  | goto (label : String)
  | label (label : String)
  | ret

/-- `name := rhs`. -/
def Instr.set (name : String) (rhs : Expr) : Instr := assign (.var name) rhs

mutual

/-- The instructions of a command. -/
def flattenCmd : Cmd → List Instr
  | .assert cond _ => [.assert cond]
  | .assume cond _ => [.assume cond]
  | .assign lhs rhs => [.assign lhs rhs]
  | .call [] proc args outs => [.call proc args outs]
  | .call (_ :: _) _ _ _ => [.note]
  | .ifElse cond thenCmds elseCmds =>
    .branchUnless cond ((flatten thenCmds).length + 1) ::
      (flatten thenCmds ++ .jump (flatten elseCmds).length :: flatten elseCmds)
  | .goto label => [.goto label]
  | .label label => [.label label]
  | .ret => [.ret]

/-- The instructions of a list of commands. -/
def flatten : List Cmd → List Instr
  | [] => []
  | c :: cs => flattenCmd c ++ flatten cs

end

@[simp]
theorem flatten_append (as bs : List Cmd) : flatten (as ++ bs) = flatten as ++ flatten bs := by
  induction as with
  | nil => rfl
  | cons a as ih => rw [List.cons_append, flatten, flatten, ih, List.append_assoc]

@[simp]
theorem flatten_singleton (c : Cmd) : flatten [c] = flattenCmd c := by
  rw [flatten, flatten, List.append_nil]

/-- The label an instruction puts in its place. -/
def Instr.label? : Instr → Option String
  | label l => some l
  | _ => none

/-- The labels of a program, in order. -/
def labels (prog : List Instr) : List String := prog.filterMap Instr.label?

@[simp]
theorem labels_nil : labels [] = [] := rfl

@[simp]
theorem labels_cons (i : Instr) (is : List Instr) : labels (i :: is) = i.label?.toList ++ labels is := by
  rw [labels, List.filterMap_cons]
  cases i.label? <;> rfl

@[simp]
theorem labels_append (as bs : List Instr) : labels (as ++ bs) = labels as ++ labels bs :=
  List.filterMap_append

/-- The rest of a program from a label on. -/
def landing (l : String) : List Instr → Option (List Instr)
  | [] => none
  | i :: rest => if i.label? = some l then some (i :: rest) else landing l rest

/-- Where labels are unique, a jump lands at the label wherever it stands. -/
theorem landing_append {l : String} {pre rest : List Instr}
    (hnd : (labels (pre ++ .label l :: rest)).Nodup) :
    landing l (pre ++ .label l :: rest) = some (.label l :: rest) := by
  induction pre with
  | nil => simp [landing, Instr.label?]
  | cons i pre ih =>
    rw [List.cons_append, labels, List.filterMap_cons] at hnd
    rw [List.cons_append, landing]
    cases hi : i.label? with
    | none =>
      rw [hi] at hnd
      rw [if_neg (by simp)]
      exact ih hnd
    | some l' =>
      rw [hi] at hnd
      have hl : l' ≠ l := by
        rintro rfl
        refine (List.nodup_cons.mp hnd).1 ?_
        simp [Instr.label?]
      rw [if_neg (by simpa using hl)]
      exact ih (List.nodup_cons.mp hnd).2

/-! ## Steps -/

/-- The instructions that are left, and the data. -/
structure Config where
  rest : List Instr
  data : Data

/-- Write a value to a place. -/
def assign (w : World) (d : Data) (lhs : Lhs) (v : Value) : Data :=
  match lhs with
  | .var name => d.set w name v
  | .map map index =>
    let fields := Function.update d.memory.fields map
      (Function.update (d.memory.fields map) (eval w d index) v)
    { d with memory := { d.memory with fields } }

/-- The type of the object that a creation asks for. -/
def createdType : List Value → String
  | .type name :: _ => name
  | _ => ""

/-- The effect of a call on the data of the caller. -/
def invoke (w : World) (d : Data) (proc : String) (args : List Value) (outs : List String) :
    Data :=
  if proc = Ir.allocProc then
    let object : Object := ⟨d.memory.objects, createdType args⟩
    let memory := { d.memory with objects := d.memory.objects + 1 }
    Data.setAll w { d with memory } outs [.ref (some object)]
  else
    let call : Call := ⟨proc, args⟩
    let (memory, results) := w.call d.calls call d.memory
    Data.setAll w { d with memory, calls := d.calls ++ [call] } outs results

/-- One step; there is none when the procedure is over, when an assertion or an assumption does
not hold, and at a jump to a label that is not there. -/
def step (w : World) (prog : List Instr) (c : Config) : Option Config :=
  match c.rest with
  | [] => none
  | .assert cond :: rest => if (eval w c.data cond).holds then some { c with rest } else none
  | .assume cond :: rest => if (eval w c.data cond).holds then some { c with rest } else none
  | .assign lhs rhs :: rest => some ⟨rest, assign w c.data lhs (eval w c.data rhs)⟩
  | .call proc args outs :: rest => some ⟨rest, invoke w c.data proc (evalAll w c.data args) outs⟩
  | .note :: rest => some { c with rest }
  | .branchUnless cond skip :: rest =>
    some { c with rest := if (eval w c.data cond).holds then rest else rest.drop skip }
  | .jump skip :: rest => some { c with rest := rest.drop skip }
  | .goto l :: _ => (landing l prog).map fun rest => { c with rest }
  | .label _ :: rest => some { c with rest }
  | .ret :: _ => none

/-- The procedure is over: it has returned or has run off its end. -/
def Config.isDone (c : Config) : Bool :=
  match c.rest with
  | [] => true
  | .ret :: _ => true
  | _ => false

/-- The second configuration follows on the first in some number of steps. -/
def Reaches (w : World) (prog : List Instr) : Config → Config → Prop :=
  Relation.ReflTransGen fun c c' => step w prog c = some c'

/-- The configuration after `n` steps, or the last one there is. -/
def run (w : World) (prog : List Instr) : Nat → Config → Config
  | 0, c => c
  | n + 1, c =>
    match step w prog c with
    | some c' => run w prog n c'
    | none => c

end Unwind.Machine
