import Mathlib.Data.List.Basic
import Unwind.Lowering.Method
import Unwind.Proofs.Compilation.Declarations
import Unwind.Proofs.Marks.Numbers
import Unwind.Proofs.Operands.Expressions
import Unwind.Proofs.Variables.Names

/-!
# The types of stored values

An expression of the verification language has a type when its parts have types that go together
(`Expr.ty?`). A command that stores a value fits when the value has the type of its variable
(`Cmd.Fits`).

A body of the source program is checked in the scopes that its blocks make (`Stmt.check`): a
variable is visible from its declaration to the end of the block, branch, case or clause around it,
and may be declared again, with another type, where it is not visible. Types are told apart as far
as their values are stored in variables of different types (`Ty.ir?`). The types of the operands go
along, for which a body is followed in the order in which it is lowered.
-/

namespace Unwind

open Machine (isGenerated)

/-! ## Types in the verification language -/

namespace Ir

/-- The types of the variables, and of the values in the maps that hold the fields. -/
structure Types where
  var : String → Option Ty
  map : String → Option Ty

def Lit.ty : Lit → Ty
  | .int _ => .int
  | .bool _ => .bool
  | .null => .ref

def UnOp.ty? (op : UnOp) (t : Option Ty) : Option Ty :=
  match op with
  | .not => if t = some .bool then some .bool else none
  | .neg => if t = some .int then some .int else none

def BinOp.ty? (op : BinOp) (s t : Option Ty) : Option Ty :=
  match op with
  | .add | .sub | .mul | .div | .mod =>
    if s = some .int ∧ t = some .int then some .int else none
  | .lt | .le | .gt | .ge => if s = some .int ∧ t = some .int then some .bool else none
  | .eq | .neq => if s.isSome ∧ s = t then some .bool else none
  | .and | .or => if s = some .bool ∧ t = some .bool then some .bool else none

/-- The type of the result of a function. -/
def functionTy? (function : String) (args : List (Option Ty)) : Option Ty :=
  if function = "$DynamicType" ∧ args = [some .ref] then some .type
  else if function = "$Subtype" ∧ args = [some .type, some .type] then some .bool
  else none

mutual

/-- The type of an expression. -/
def Expr.ty? (T : Types) : Expr → Option Ty
  | lit l => some l.ty
  | ident name => T.var name
  | typeConst _ => some .type
  | unary op e => op.ty? (e.ty? T)
  | binary op a b => op.ty? (a.ty? T) (b.ty? T)
  | app f args => functionTy? f (Expr.tys? T args)
  | select m i => if i.ty? T = some .ref then T.map m else none
  | ifThenElse c t e => if c.ty? T = some .bool ∧ t.ty? T = e.ty? T then t.ty? T else none

def Expr.tys? (T : Types) : List Expr → List (Option Ty)
  | [] => []
  | e :: es => e.ty? T :: Expr.tys? T es

end

namespace Expr

variable (T : Types)

theorem ty?_ident (x : String) : (ident x).ty? T = T.var x := rfl

theorem ty?_unary (op : UnOp) (e : Expr) : (unary op e).ty? T = op.ty? (e.ty? T) := rfl

theorem ty?_binary (op : BinOp) (a b : Expr) :
    (binary op a b).ty? T = op.ty? (a.ty? T) (b.ty? T) := rfl

theorem ty?_select (m : String) (i : Expr) :
    (select m i).ty? T = if i.ty? T = some .ref then T.map m else none := rfl

theorem ty?_ifThenElse (c t e : Expr) : (ifThenElse c t e).ty? T =
    if c.ty? T = some .bool ∧ t.ty? T = e.ty? T then t.ty? T else none := rfl

/-- A comparison with a literal of the same type. -/
theorem ty?_neq_lit {T : Types} {e : Expr} {l : Lit} (he : e.ty? T = some l.ty) :
    (neq e (.lit l)).ty? T = some .bool := by
  change (if (e.ty? T).isSome ∧ e.ty? T = some l.ty then some Ty.bool else none) = _
  rw [he, if_pos ⟨rfl, rfl⟩]

theorem ty?_dynamicType {T : Types} {e : Expr} (he : e.ty? T = some .ref) :
    e.dynamicType.ty? T = some .type := by
  change functionTy? "$DynamicType" [e.ty? T] = _
  rw [he]
  rfl

end Expr

/-- What the command stores has the type of the place where it is stored. Of the variables of the
source program, calls store copies of structs in them, which are references. -/
def Cmd.Fits (T : Types) : Cmd → Prop
  | assign (.var x) v => ∃ t, T.var x = some t ∧ v.ty? T = some t
  | assign (.map m i) v => i.ty? T = some .ref ∧ ∃ t, T.map m = some t ∧ v.ty? T = some t
  | call _ _ _ outs => ∀ x ∈ outs, isGenerated x = false → T.var x = some .ref
  | _ => True

/-- Everything that the commands store, at any depth, has the type of its place. -/
def Cmd.AllFit (T : Types) (cs : List Cmd) : Prop := ∀ c ∈ Cmd.allNested cs, c.Fits T

instance (T : Types) (c : Cmd) : Decidable (c.Fits T) :=
  match c with
  | .assign (.var x) v =>
    inferInstanceAs (Decidable (∃ t ∈ T.var x, v.ty? T = some t))
  | .assign (.map m i) v =>
    inferInstanceAs (Decidable (i.ty? T = some .ref ∧ ∃ t ∈ T.map m, v.ty? T = some t))
  | .call _ _ _ outs =>
    inferInstanceAs (Decidable (∀ x ∈ outs, isGenerated x = false → T.var x = some .ref))
  | .assert .. | .assume .. | .ifElse .. | .goto _ | .label _ | .ret => .isTrue trivial

instance (T : Types) (cs : List Cmd) : Decidable (Cmd.AllFit T cs) :=
  inferInstanceAs (Decidable (∀ c ∈ Cmd.allNested cs, c.Fits T))

namespace Cmd

variable {T : Types} {cs ds : List Cmd} {c : Cmd}

theorem allFit_nil : AllFit T [] := nofun

theorem allFit_append : AllFit T (cs ++ ds) ↔ AllFit T cs ∧ AllFit T ds := by
  rw [AllFit, allNested_append]
  exact List.forall_mem_append

theorem allFit_ifElse {cond : Expr} :
    AllFit T [.ifElse cond cs ds] ↔ AllFit T cs ∧ AllFit T ds := by
  rw [AllFit, allNested, allNested, List.append_nil, withNested, List.forall_mem_cons,
    List.forall_mem_append]
  exact and_iff_right trivial

/-- A command without parts. -/
theorem allFit_singleton (hc : c.withNested = [c]) : AllFit T [c] ↔ c.Fits T := by
  rw [AllFit, allNested, allNested, List.append_nil, hc]
  exact List.forall_mem_singleton

end Cmd

/-- The types of the static fields and of the fields in maps. -/
structure Fields where
  static : String → Option Ty
  map : String → Option Ty
  /-- A static field is called after its type, with a dot behind it. -/
  dotted : ∀ {x t}, static x = some t → '.' ∈ x.toList

/-- The types outside of procedures. -/
def Fields.types (F : Fields) : Types where
  var x := if x = exceptionVar then some .ref else F.static x
  map := F.map

/-- One more variable, which hides another one of its name. -/
def Types.declare (T : Types) (name : String) (t : Option Ty) : Types :=
  { T with var := fun x => if x = name then t else T.var x }

theorem Types.declare_var (T : Types) (name : String) (t : Option Ty) (x : String) :
    (T.declare name t).var x = if x = name then t else T.var x := rfl

/-- The first of the variables that has the name. -/
def typeIn (vs : List VarDecl) (x : String) : Option Ty := (vs.find? (·.name == x)).map (·.ty)

/-- The types of the variables that a procedure records, and of what is outside of it. -/
def Procedure.types (F : Fields) (p : Procedure) : Types where
  var x := (typeIn (p.params ++ (p.returns ++ p.locals)) x).or (F.types.var x)
  map := F.map

/-- Everything that the procedure stores has the type of its place. -/
def Procedure.StoresFit (F : Fields) (p : Procedure) : Prop :=
  Cmd.AllFit (p.types F) (p.body.getD [])

instance (F : Fields) (p : Procedure) : Decidable (p.StoresFit F) :=
  inferInstanceAs (Decidable (Cmd.AllFit (p.types F) (p.body.getD [])))

end Ir

/-! ## Types in the source program -/

namespace Source

/-- The type of the variables that hold values of the type. -/
def Ty.ir? (t : Ty) : Option Ir.Ty := (Lowering.irTy t {}).toOption

/-- Values of the type are kept in variables of the other one. -/
def Ty.keptAs (t : Ty) (s : Option Ir.Ty) : Bool := s.isSome && t.ir? == s

/-- The type has truth values, or values that are compared with zero or `null`. -/
def Ty.isCondition (t : Ty) : Bool := t.ir?.any (· != .type)

/-- What a value of one type is kept as when it has been converted to another one. Only the
conversions between truth values and integers change it. -/
def Ty.converted (source target : Ty) : Option Ir.Ty :=
  match source, target with
  | .bool, .int => some .int
  | .int, .bool => some .bool
  | source, _ => source.ir?

def Lit.ir : Lit → Ir.Ty
  | .int _ => .int
  | .bool _ => .bool
  | .null => .ref

/-- The type of the values at a place. -/
def Target.ty? (T : Ir.Types) : Target → Option Ir.Ty
  | .var name => T.var name
  | .field none f => T.var f.mapName
  | .field (some _) f => T.map f.mapName

mutual

/-- The expression and its parts have the types they are annotated with. What a call is given is
kept in no variable of the body, so that the signatures of methods do not matter. -/
def Expr.fits (T : Ir.Types) : Expr → Bool
  | ⟨_, _, ty, kind⟩ =>
    match kind with
    | .literal lit => ty.keptAs (some lit.ir)
    | .var name => ty.keptAs (T.var name)
    | .self => ty.keptAs (T.var "this")
    | .field none f => ty.keptAs (T.var f.mapName)
    | .field (some object) f =>
      object.fits T && (object.ty.keptAs (some .ref) && ty.keptAs (T.map f.mapName))
    | .unary op e => e.fits T && ty.keptAs ((Lowering.unOp op).ty? e.ty.ir?)
    | .binary op lhs rhs =>
      lhs.fits T && (rhs.fits T && (ty.keptAs ((Lowering.binOp op).ty? lhs.ty.ir? rhs.ty.ir?) &&
        (!lhs.isTarget || ty.keptAs lhs.ty.ir?)))
    | .conditional cond thenExpr elseExpr =>
      cond.fits T && (thenExpr.fits T && (elseExpr.fits T && (cond.ty.isCondition &&
        (ty.keptAs thenExpr.ty.ir? && ty.keptAs elseExpr.ty.ir?))))
    | .assign target value =>
      target.fits T && (value.fits T && (ty.keptAs value.ty.ir? && ty.keptAs (target.ty? T)))
    | .target target => target.fits T && ty.keptAs (target.ty? T)
    | .call ⟨_, receiver, args, _⟩ => fitsOption T receiver && fitsAll T args
    | .new _ _ args => fitsAll T args && ty.keptAs (some .ref)
    | .typeOf _ => ty.keptAs (some .type)
    | .getType object => object.fits T && (object.ty.keptAs (some .ref) && ty.keptAs (some .type))
    | .conversion value newTy =>
      value.fits T && (ty.keptAs newTy.ir? && ty.keptAs (value.ty.converted newTy))
    | .defaultValue valueTy => ty.keptAs valueTy.ir? && valueTy.ir? != some .type
    | .pop => true

def Target.fits (T : Ir.Types) : Target → Bool
  | .var _ | .field none _ => true
  | .field (some object) _ => object.fits T && object.ty.keptAs (some .ref)

def fitsOption (T : Ir.Types) : Option Expr → Bool
  | none => true
  | some e => e.fits T

def fitsAll (T : Ir.Types) : List Expr → Bool
  | [] => true
  | e :: es => e.fits T && fitsAll T es

end

/-! ## Scopes -/

/-- What is known in front of a part of a body: the types of the variables that are visible and of
the fields, and the types of the operands, the one pushed last first. -/
structure Scope where
  types : Ir.Types
  operands : List (Option Ir.Ty)

namespace Scope

/-- The variable is visible from here on. -/
def declare (sc : Scope) (v : Variable) : Scope :=
  { sc with types := sc.types.declare v.name v.ty.ir? }

/-- Behind a part, the variables declared in it are not visible any more. -/
def leave (inner outer : Scope) : Scope := { inner with types := outer.types }

/-- Evaluate an expression, which has to take operands of the right types. -/
def eval (sc : Scope) (e : Expr) : Option Scope :=
  let taken := e.popNodes.map (·.ty.ir?)
  if e.fits sc.types && taken.isPrefixOf sc.operands then
    some { sc with operands := sc.operands.drop taken.length }
  else none

/-- Evaluate an expression whose values are kept in variables of the type. -/
def evalAs (sc : Scope) (e : Expr) (t : Option Ir.Ty) : Option Scope :=
  if e.ty.keptAs t then sc.eval e else none

/-- Declare a variable, which is visible in its initial value. Only references are structs. -/
def declareLocal (types : TypeTable) (sc : Scope) (v : Variable) (init : Option Expr) :
    Option Scope :=
  if types.isStruct v.ty && !v.ty.keptAs (some .ref) then none
  else
    match init with
    | none => some (sc.declare v)
    | some e => (sc.declare v).evalAs e v.ty.ir?

/-- Bind the variable of a catch clause. What is caught is a reference. -/
def bindCaught (sc : Scope) : Option Variable → Option Scope
  | none => some sc
  | some v => if v.ty.keptAs (some .ref) then some (sc.declare v) else none

end Scope

section

variable (env : Lowering.Env) (ret : Option Ir.Ty)

mutual

/-- The scope behind a statement, if it is well typed in the scope in front of it. `ret` is the type
of the result. What is lowered only with exceptions counts only with exceptions. -/
def Stmt.check : Stmt → Scope → Option Scope
  | ⟨_, _, kind⟩, sc =>
    match kind with
    | .block stmts => (checkAll stmts sc).map (·.leave sc)
    | .assert e | .assume e | .expression e => sc.eval e
    | .throw e => if env.options.modelsExceptions then sc.evalAs e (some .ref) else some sc
    | .conditional cond thenBranch elseBranch => do
      let sc₁ ← sc.eval cond
      let sc₂ ← thenBranch.check sc₁
      let sc₃ ← elseBranch.check (sc₂.leave sc)
      return sc₃.leave sc
    | .switch scrutinee cases => do
      let sc₁ ← sc.eval scrutinee
      let sc₂ ← checkDefault cases sc₁
      checkCases cases sc₂
    | .localDecl decl init => sc.declareLocal env.types decl init
    | .ret (some e) => sc.evalAs e ret
    | .labeled _ body => body.check sc
    | .tryCatch body catches finalizer => do
      let sc₁ ← body.check sc
      let sc₂ ← if env.options.modelsExceptions then checkCatches catches (sc₁.leave sc)
        else some (sc₁.leave sc)
      let sc₃ ← checkOption finalizer sc₂
      return sc₃.leave sc
    | .push e => do
      let sc₁ ← sc.eval e
      return { sc₁ with operands := e.ty.ir? :: sc₁.operands }
    | _ => some sc

def checkAll : List Stmt → Scope → Option Scope
  | [], sc => some sc
  | s :: ss, sc => do
    let sc₁ ← s.check sc
    checkAll ss sc₁

def checkOption : Option Stmt → Scope → Option Scope
  | none, sc => some sc
  | some s, sc => s.check sc

def checkCatches : List CatchClause → Scope → Option Scope
  | [], sc => some sc
  | ⟨_, _, binding, body⟩ :: clauses, sc => do
    let sc₁ ← sc.bindCaught binding
    let sc₂ ← body.check sc₁
    checkCatches clauses (sc₂.leave sc)

/-- The last default case counts. -/
def checkDefault : List SwitchCase → Scope → Option Scope
  | [], sc => some sc
  | ⟨_, value, body⟩ :: cases, sc =>
    if value.isSome || cases.any (·.value.isNone) then checkDefault cases sc
    else (checkAll body sc).map (·.leave sc)

/-- The other cases, the last one first. -/
def checkCases : List SwitchCase → Scope → Option Scope
  | [], sc => some sc
  | ⟨_, value, body⟩ :: cases, sc => do
    let sc₁ ← checkCases cases sc
    match value with
    | none => some sc₁
    | some e =>
      let sc₂ ← sc₁.eval e
      let sc₃ ← checkAll body sc₂
      return sc₃.leave sc

end

end

/-! ## Methods -/

namespace MethodDef

/-- The variables that a method starts with, each with the type of its values. -/
def inputs (m : MethodDef) : List (String × Option Ir.Ty) :=
  (if m.isStatic then [] else [("this", some .ref)]) ++ m.params.map fun v => (v.name, v.ty.ir?)

/-- The variables that a method declares, each with the type of its values. -/
def declared (m : MethodDef) : List (String × Option Ir.Ty) :=
  (m.body.toList.flatMap (·.statements)).flatMap fun s => s.kind.declares.map fun v =>
    (v.name, v.ty.ir?)

/-- All variables of one name have values of one type. Static fields count by the names of the
globals that hold them. -/
structure OneTypeEach (F : Ir.Fields) (m : MethodDef) : Prop where
  vars : ∀ v ∈ m.inputs ++ m.declared, ∀ w ∈ m.inputs ++ m.declared, v.1 = w.1 → v.2 = w.2
  fields : ∀ v ∈ m.inputs ++ m.declared, ∀ t, F.static v.1 = some t → v.2 = some t

instance (F : Ir.Fields) (m : MethodDef) : Decidable (m.OneTypeEach F) :=
  decidable_of_iff ((∀ v ∈ m.inputs ++ m.declared, ∀ w ∈ m.inputs ++ m.declared,
      v.1 = w.1 → v.2 = w.2) ∧
    ∀ v ∈ m.inputs ++ m.declared, ∀ t ∈ F.static v.1, v.2 = some t)
    ⟨fun h => ⟨h.1, h.2⟩, fun h => ⟨h.vars, h.fields⟩⟩

/-- No parameter, and no variable that is declared in the body, has a name that looks generated. -/
def PlainVariables (m : MethodDef) : Prop :=
  ∀ v ∈ m.inputs ++ m.declared, isGenerated v.1 = false

instance (m : MethodDef) : Decidable m.PlainVariables :=
  inferInstanceAs (Decidable (∀ v ∈ m.inputs ++ m.declared, isGenerated v.1 = false))

/-- The scope in which a body starts. -/
def scope (F : Ir.Fields) (m : MethodDef) : Scope where
  types := m.inputs.foldl (fun T v => T.declare v.1 v.2) F.types
  operands := []

/-- The body of the method is well typed. -/
def WellTyped (env : Lowering.Env) (F : Ir.Fields) (m : MethodDef) : Prop :=
  ∀ body ∈ m.body, (body.check env m.ret.ir? (m.scope F)).isSome = true

instance (env : Lowering.Env) (F : Ir.Fields) (m : MethodDef) : Decidable (m.WellTyped env F) :=
  inferInstanceAs (Decidable (∀ body ∈ m.body,
    (body.check env m.ret.ir? (m.scope F)).isSome = true))

end MethodDef

end Source

namespace Lowering

open Source (MethodDef Ty)
open Ir (VarDecl)

/-! ## Parameters and results -/

theorem ir?_of_irTy {ty : Ty} {span : Span} {t : Ir.Ty} (h : irTy ty span = .ok t) :
    ty.ir? = some t := by
  cases ty with
  | void => cases h
  | bool | int | named =>
    cases h
    rfl

/-- The parameters of a procedure are the inputs of its method. -/
theorem inputs_of_paramsOf {m : MethodDef} {params : List VarDecl}
    (h : paramsOf m = .ok params) : m.inputs = params.map fun v => (v.name, some v.ty) := by
  cases hps : m.params.mapM fun p => (return VarDecl.mk p.name (← irTy p.ty {}) :
      Except Fault VarDecl) with
  | error e =>
    rw [paramsOf, hps] at h
    cases h
  | ok ps =>
    have hsame : ps.map (fun v => (v.name, some v.ty)) =
        m.params.map fun p => (p.name, p.ty.ir?) := by
      refine Compilation.map_eq_of_mapM _ _ (fun p v hv => ?_) hps
      cases hty : irTy p.ty {} with
      | ok ty =>
        rw [hty] at hv
        cases hv
        rw [ir?_of_irTy hty]
      | error e =>
        rw [hty] at hv
        cases hv
    rw [paramsOf, hps] at h
    rw [MethodDef.inputs, ← hsame]
    cases hstatic : m.isStatic <;> rw [hstatic] at h <;> cases h <;> rfl

/-- The result of a procedure is that of its method. -/
theorem typeIn_returnsOf {m : MethodDef} {rs : List VarDecl} (h : returnsOf m = .ok rs) :
    Ir.typeIn rs resultVar = m.ret.ir? := by
  unfold returnsOf at h
  split at h
  · next hvoid =>
    cases h
    cases hret : m.ret with
    | void => rfl
    | _ => simp [hret, Ty.isVoid] at hvoid
  · cases hty : irTy m.ret {} with
    | ok ty =>
      rw [hty] at h
      cases h
      rw [ir?_of_irTy hty]
      rfl
    | error e =>
      rw [hty] at h
      cases h

end Lowering

end Unwind
