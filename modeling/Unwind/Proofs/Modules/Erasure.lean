import Unwind.LabelScopes
import Unwind.Proofs.Hierarchy.Changes
import Unwind.Proofs.Hierarchy.Overrides

/-!
# Programs without the modules of their references

`Program.unqualified` drops the module of every reference to a type, wherever one can stand: in
lists of base classes and interfaces, in the types of fields, variables and expressions, in
references to methods and fields, in catch clauses, and where an expression names a type. The names
of the type definitions keep theirs. Two programs that are equal without these modules differ in the
spelling of references only.

References are compared and shown by their names, so that dropping modules changes neither
(`MethodRef.beq_unqualified`, `MethodRef.procedureName_unqualified`); labels, places and the shapes
of expressions and statements stay as well.
-/

namespace Unwind

namespace Source

/-! ## References -/

/-- The reference without its module. -/
def TypeRef.unqualified (t : TypeRef) : TypeRef := { t with module := none }

/-- The reference without the modules of its types. -/
def MethodRef.unqualified (m : MethodRef) : MethodRef :=
  { type := m.type.unqualified, name := m.name, params := m.params.map Ty.bare }

def FieldRef.unqualified (f : FieldRef) : FieldRef := { f with type := f.type.unqualified }

def Variable.unqualified (v : Variable) : Variable := { v with ty := v.ty.bare }

/-! ## Expressions -/

mutual

/-- The expression without the modules of its references. -/
def Expr.unqualified : Expr → Expr
  | ⟨id, span, ty, kind⟩ => ⟨id, span, ty.bare, kind.unqualified⟩

def ExprKind.unqualified : ExprKind → ExprKind
  | .literal lit => .literal lit
  | .var name => .var name
  | .self => .self
  | .field object field => .field (unqualifiedOption object) field.unqualified
  | .unary op operand => .unary op operand.unqualified
  | .binary op lhs rhs => .binary op lhs.unqualified rhs.unqualified
  | .conditional cond thenExpr elseExpr =>
    .conditional cond.unqualified thenExpr.unqualified elseExpr.unqualified
  | .assign target value => .assign target.unqualified value.unqualified
  | .target target => .target target.unqualified
  | .call call => .call call.unqualified
  | .new type ctor args =>
    .new type.unqualified (ctor.map MethodRef.unqualified) (unqualifiedAll args)
  | .typeOf type => .typeOf type.unqualified
  | .getType object => .getType object.unqualified
  | .conversion value newTy => .conversion value.unqualified newTy.bare
  | .defaultValue ty => .defaultValue ty.bare
  | .pop => .pop

def Target.unqualified : Target → Target
  | .var name => .var name
  | .field object field => .field (unqualifiedOption object) field.unqualified

def Call.unqualified : Call → Call
  | ⟨method, receiver, args, isVirtual⟩ =>
    ⟨method.unqualified, unqualifiedOption receiver, unqualifiedAll args, isVirtual⟩

def unqualifiedOption : Option Expr → Option Expr
  | none => none
  | some e => some e.unqualified

def unqualifiedAll : List Expr → List Expr
  | [] => []
  | e :: es => e.unqualified :: unqualifiedAll es

end

/-! ## Statements -/

mutual

/-- The statement without the modules of its references. -/
def Stmt.unqualified : Stmt → Stmt
  | ⟨id, span, kind⟩ => ⟨id, span, kind.unqualified⟩

def StmtKind.unqualified : StmtKind → StmtKind
  | .block stmts => .block (unqualifiedStmts stmts)
  | .empty => .empty
  | .assert cond => .assert cond.unqualified
  | .assume cond => .assume cond.unqualified
  | .conditional cond thenBranch elseBranch =>
    .conditional cond.unqualified thenBranch.unqualified elseBranch.unqualified
  | .expression e => .expression e.unqualified
  | .breakLoop => .breakLoop
  | .continueLoop => .continueLoop
  | .whileLoop cond body => .whileLoop cond.unqualified body.unqualified
  | .doUntil body cond => .doUntil body.unqualified cond.unqualified
  | .forLoop init cond step body =>
    .forLoop (unqualifiedStmts init) (unqualifiedOption cond) (unqualifiedStmts step)
      body.unqualified
  | .forEach item collection body =>
    .forEach item.unqualified collection.unqualified body.unqualified
  | .switch scrutinee cases => .switch scrutinee.unqualified (unqualifiedCases cases)
  | .localDecl decl init => .localDecl decl.unqualified (unqualifiedOption init)
  | .ret value => .ret (unqualifiedOption value)
  | .goto label => .goto label
  | .labeled label body => .labeled label body.unqualified
  | .tryCatch body catches finalizer =>
    .tryCatch body.unqualified (unqualifiedCatches catches) (unqualifiedStmtOption finalizer)
  | .throw e => .throw e.unqualified
  | .rethrow => .rethrow
  | .push e => .push e.unqualified

def unqualifiedStmts : List Stmt → List Stmt
  | [] => []
  | s :: ss => s.unqualified :: unqualifiedStmts ss

def unqualifiedCases : List SwitchCase → List SwitchCase
  | [] => []
  | ⟨span, value, body⟩ :: cases =>
    ⟨span, unqualifiedOption value, unqualifiedStmts body⟩ :: unqualifiedCases cases

def unqualifiedCatches : List CatchClause → List CatchClause
  | [] => []
  | ⟨span, type, binding, body⟩ :: clauses =>
    ⟨span, type.map TypeRef.unqualified, binding.map Variable.unqualified, body.unqualified⟩ ::
      unqualifiedCatches clauses

def unqualifiedStmtOption : Option Stmt → Option Stmt
  | none => none
  | some s => some s.unqualified

end

/-! ## Programs -/

def FieldDef.unqualified (f : FieldDef) : FieldDef := { f with ty := f.ty.bare }

/-- The method without the modules of its references, in its signature and in its body. -/
def MethodDef.unqualified (m : MethodDef) : MethodDef :=
  { m with
    params := m.params.map Variable.unqualified
    ret := m.ret.bare
    explicitOverrides := m.explicitOverrides.map MethodRef.unqualified
    body := m.body.map Stmt.unqualified }

mutual

/-- The definition without the modules of its references, nested types included. Its own name keeps
the module. -/
def TypeDef.unqualified : TypeDef → TypeDef
  | ⟨name, kind, baseClasses, interfaces, fields, methods, nested⟩ =>
    ⟨name, kind, baseClasses.map TypeRef.unqualified, interfaces.map TypeRef.unqualified,
      fields.map FieldDef.unqualified, methods.map MethodDef.unqualified, unqualifiedTypes nested⟩

def unqualifiedTypes : List TypeDef → List TypeDef
  | [] => []
  | d :: ds => d.unqualified :: unqualifiedTypes ds

end

/-- The program without the modules of its references. -/
def Program.unqualified (p : Program) : Program :=
  { p with types := unqualifiedTypes p.types }

/-! ## What stays: references -/

@[simp] theorem TypeRef.name_unqualified (t : TypeRef) : t.unqualified.name = t.name := rfl

namespace Ty

@[simp] theorem bare_bare (ty : Ty) : ty.bare.bare = ty.bare := by cases ty <;> rfl

@[simp] theorem text_bare (ty : Ty) : ty.bare.text = ty.text := by cases ty <;> rfl

@[simp] theorem isVoid_bare (ty : Ty) : ty.bare.isVoid = ty.isVoid := by cases ty <;> rfl

@[simp] theorem valueKind?_bare (ty : Ty) : ty.bare.valueKind? = ty.valueKind? := by
  cases ty <;> rfl

@[simp] theorem typeRef?_bare (ty : Ty) :
    ty.bare.typeRef? = ty.typeRef?.map TypeRef.unqualified := by
  cases ty <;> rfl

theorem list_beq_bare (as bs : List Ty) : (as.map bare == bs.map bare) = (as == bs) := by
  rw [Bool.eq_iff_iff, list_beq_iff, list_beq_iff, List.map_map, List.map_map]
  simp only [Function.comp_def, bare_bare]

end Ty

namespace MethodRef

variable (m : MethodRef)

@[simp] theorem signature_unqualified : m.unqualified.signature = m.signature := rfl

theorem texts_unqualified : m.unqualified.params.map Ty.text = m.params.map Ty.text := by
  simp [unqualified, Function.comp_def]

@[simp] theorem procedureName_unqualified : m.unqualified.procedureName = m.procedureName := by
  unfold procedureName
  rw [texts_unqualified, signature_unqualified]
  simp [unqualified]

@[simp] theorem text_unqualified : m.unqualified.text = m.text := by
  unfold text
  rw [texts_unqualified, signature_unqualified]

theorem beq_unqualified (a b : MethodRef) : (a.unqualified == b.unqualified) = (a == b) := by
  show (_ && _ && (a.params.map Ty.bare == b.params.map Ty.bare)) = _
  rw [Ty.list_beq_bare]
  rfl

end MethodRef

/-! ## What stays: bodies -/

@[simp] theorem Expr.ty_unqualified (e : Expr) : e.unqualified.ty = e.ty.bare := by cases e; rfl

@[simp] theorem Expr.span_unqualified (e : Expr) : e.unqualified.span = e.span := by cases e; rfl

@[simp] theorem Expr.isTarget_unqualified (e : Expr) : e.unqualified.isTarget = e.isTarget := by
  obtain ⟨id, span, ty, kind⟩ := e
  cases kind <;> rfl

theorem unqualifiedOption_eq_map (e : Option Expr) :
    unqualifiedOption e = e.map Expr.unqualified := by
  cases e <;> rfl

theorem unqualifiedStmts_eq_map (ss : List Stmt) :
    unqualifiedStmts ss = ss.map Stmt.unqualified := by
  induction ss with
  | nil => rfl
  | cons s ss ih => rw [unqualifiedStmts, ih, List.map_cons]

theorem StmtKind.name_unqualified (kind : StmtKind) : kind.unqualified.name = kind.name := by
  cases kind <;> rfl

theorem exceptionTypes_unqualifiedCatches (clauses : List CatchClause) :
    (unqualifiedCatches clauses).map (·.exceptionType) =
      (clauses.map (·.exceptionType)).map (Option.map TypeRef.unqualified) := by
  induction clauses with
  | nil => rfl
  | cons clause clauses ih =>
    obtain ⟨span, type, binding, body⟩ := clause
    rw [unqualifiedCatches, List.map_cons, List.map_cons, List.map_cons, ih]

/-- A default case stays a default case. -/
theorem any_default_unqualifiedCases (cases : List SwitchCase) :
    (unqualifiedCases cases).any (·.value.isNone) = cases.any (·.value.isNone) := by
  induction cases with
  | nil => rfl
  | cons case cases ih =>
    obtain ⟨span, value, body⟩ := case
    rw [unqualifiedCases, List.any_cons, List.any_cons, ih, unqualifiedOption_eq_map,
      Option.isNone_map]

/-! ## What stays: declarations -/

theorem MethodDef.paramTypes_unqualified (m : MethodDef) :
    m.unqualified.paramTypes = m.paramTypes.map Ty.bare := by
  simp only [paramTypes, unqualified, List.map_map]
  rfl

theorem MethodDef.reference_unqualified (m : MethodDef) (owner : TypeRef) :
    m.unqualified.reference owner.unqualified = (m.reference owner).unqualified := by
  rw [reference, paramTypes_unqualified]
  rfl

theorem MethodDef.hasSignature_unqualified (m : MethodDef) (ref : MethodRef) :
    m.unqualified.hasSignature ref.unqualified = m.hasSignature ref := by
  rw [hasSignature, paramTypes_unqualified]
  exact congrArg (m.name == ref.name && ·) (Ty.list_beq_bare m.paramTypes ref.params)

theorem unqualifiedTypes_eq_map (ds : List TypeDef) :
    unqualifiedTypes ds = ds.map TypeDef.unqualified := by
  induction ds with
  | nil => rfl
  | cons d ds ih => rw [unqualifiedTypes, ih, List.map_cons]

namespace TypeDef

variable (d : TypeDef)

@[simp] theorem name_unqualified : d.unqualified.name = d.name := by cases d; rfl

@[simp] theorem kind_unqualified : d.unqualified.kind = d.kind := by cases d; rfl

@[simp] theorem supertypes_unqualified :
    d.unqualified.supertypes = d.supertypes.map TypeRef.unqualified := by
  cases d
  exact List.map_append.symm

@[simp] theorem fields_unqualified :
    d.unqualified.fields = d.fields.map FieldDef.unqualified := by
  cases d; rfl

@[simp] theorem methods_unqualified :
    d.unqualified.methods = d.methods.map MethodDef.unqualified := by
  cases d; rfl

@[simp] theorem nested_unqualified : d.unqualified.nested = d.nested.map unqualified := by
  cases d
  exact unqualifiedTypes_eq_map _

end TypeDef

theorem Program.allTypes_unqualified (p : Program) :
    p.unqualified.allTypes = p.allTypes.map TypeDef.unqualified := by
  rw [allTypes, unqualified, unqualifiedTypes_eq_map,
    TypeDef.allNested_map TypeDef.nested_unqualified]
  rfl

end Source

/-! ## Labels -/

namespace LabelScopes

open Source

mutual

theorem visit_unqualified (enclosing : Option UInt32) (stmt : Stmt) (s : LabelScopes) :
    visit enclosing stmt.unqualified s = visit enclosing stmt s := by
  obtain ⟨id, span, kind⟩ := stmt
  cases kind with
  | block stmts =>
    simp only [Stmt.unqualified, StmtKind.unqualified, visit]
    exact visitAll_unqualified enclosing stmts s
  | conditional _ thenBranch elseBranch =>
    simp only [Stmt.unqualified, StmtKind.unqualified, visit, visit_unqualified]
  | whileLoop _ body | doUntil body _ | forEach _ _ body | labeled _ body =>
    simp only [Stmt.unqualified, StmtKind.unqualified, visit, visit_unqualified]
  | forLoop init _ step body =>
    simp only [Stmt.unqualified, StmtKind.unqualified, visit, visit_unqualified,
      visitAll_unqualified]
  | switch _ cases =>
    simp only [Stmt.unqualified, StmtKind.unqualified, visit]
    exact visitCases_unqualified enclosing cases s
  | tryCatch body catches finalizer =>
    simp only [Stmt.unqualified, StmtKind.unqualified, visit, visit_unqualified,
      visitCatches_unqualified, visitOption_unqualified]
  | _ => simp only [Stmt.unqualified, StmtKind.unqualified, visit]

theorem visitAll_unqualified (enclosing : Option UInt32) (stmts : List Stmt) (s : LabelScopes) :
    visitAll enclosing (unqualifiedStmts stmts) s = visitAll enclosing stmts s := by
  cases stmts with
  | nil => rfl
  | cons stmt stmts =>
    simp only [unqualifiedStmts, visitAll, visit_unqualified, visitAll_unqualified]

theorem visitCases_unqualified (enclosing : Option UInt32) (cases : List SwitchCase)
    (s : LabelScopes) :
    visitCases enclosing (unqualifiedCases cases) s = visitCases enclosing cases s := by
  cases cases with
  | nil => rfl
  | cons case cases =>
    obtain ⟨span, value, body⟩ := case
    simp only [unqualifiedCases, visitCases, visitAll_unqualified, visitCases_unqualified]

theorem visitCatches_unqualified (enclosing : Option UInt32) (clauses : List CatchClause)
    (s : LabelScopes) :
    visitCatches enclosing (unqualifiedCatches clauses) s = visitCatches enclosing clauses s := by
  cases clauses with
  | nil => rfl
  | cons clause clauses =>
    obtain ⟨span, type, binding, body⟩ := clause
    simp only [unqualifiedCatches, visitCatches, visit_unqualified, visitCatches_unqualified]

theorem visitOption_unqualified (enclosing : Option UInt32) (stmt : Option Stmt)
    (s : LabelScopes) :
    visitOption enclosing (unqualifiedStmtOption stmt) s = visitOption enclosing stmt s := by
  cases stmt with
  | none => rfl
  | some stmt => simp only [unqualifiedStmtOption, visitOption, visit_unqualified]

end

/-- Labels stand where they stood. -/
theorem collect_unqualified (body : Stmt) : collect body.unqualified = collect body :=
  visit_unqualified none body {}

end LabelScopes

end Unwind
