import Unwind.LabelScopes
import Unwind.Proofs.Compilation.Bodies

/-!
# Programs with their literals replaced

`mapLiterals g` replaces every integer literal `n` of a program by `g n`, wherever an expression can
stand. Types, places, labels and declarations stay as they are, so that the mapped program has the
same type table, the same hierarchy and the same label scopes (`Program.bare_mapLiterals`,
`LabelScopes.collect_mapLiterals`).
-/

namespace Unwind

namespace Source

/-! ## Expressions -/

/-- The literal, with another value when it is an integer. -/
def Lit.map (g : Int64 → Int64) : Lit → Lit
  | .int n => .int (g n)
  | lit => lit

mutual

/-- The expression with every integer literal `n` replaced by `g n`. -/
def Expr.mapLiterals (g : Int64 → Int64) : Expr → Expr
  | ⟨id, span, ty, kind⟩ => ⟨id, span, ty, kind.mapLiterals g⟩

def ExprKind.mapLiterals (g : Int64 → Int64) : ExprKind → ExprKind
  | .literal lit => .literal (lit.map g)
  | .field object field => .field (mapInOption g object) field
  | .unary op operand => .unary op (operand.mapLiterals g)
  | .binary op lhs rhs => .binary op (lhs.mapLiterals g) (rhs.mapLiterals g)
  | .conditional cond thenExpr elseExpr =>
    .conditional (cond.mapLiterals g) (thenExpr.mapLiterals g) (elseExpr.mapLiterals g)
  | .assign target value => .assign (target.mapLiterals g) (value.mapLiterals g)
  | .target target => .target (target.mapLiterals g)
  | .call call => .call (call.mapLiterals g)
  | .new type ctor args => .new type ctor (mapInAll g args)
  | .getType object => .getType (object.mapLiterals g)
  | .conversion value newTy => .conversion (value.mapLiterals g) newTy
  | kind => kind

def Target.mapLiterals (g : Int64 → Int64) : Target → Target
  | .var name => .var name
  | .field object field => .field (mapInOption g object) field

def Call.mapLiterals (g : Int64 → Int64) : Call → Call
  | ⟨method, receiver, args, isVirtual⟩ =>
    ⟨method, mapInOption g receiver, mapInAll g args, isVirtual⟩

def mapInOption (g : Int64 → Int64) : Option Expr → Option Expr
  | none => none
  | some e => some (e.mapLiterals g)

def mapInAll (g : Int64 → Int64) : List Expr → List Expr
  | [] => []
  | e :: es => e.mapLiterals g :: mapInAll g es

end

/-! ## Statements -/

mutual

/-- The statement with every integer literal `n` replaced by `g n`. -/
def Stmt.mapLiterals (g : Int64 → Int64) : Stmt → Stmt
  | ⟨id, span, kind⟩ => ⟨id, span, kind.mapLiterals g⟩

def StmtKind.mapLiterals (g : Int64 → Int64) : StmtKind → StmtKind
  | .block stmts => .block (mapInStmts g stmts)
  | .assert cond => .assert (cond.mapLiterals g)
  | .assume cond => .assume (cond.mapLiterals g)
  | .conditional cond thenBranch elseBranch =>
    .conditional (cond.mapLiterals g) (thenBranch.mapLiterals g) (elseBranch.mapLiterals g)
  | .expression e => .expression (e.mapLiterals g)
  | .whileLoop cond body => .whileLoop (cond.mapLiterals g) (body.mapLiterals g)
  | .doUntil body cond => .doUntil (body.mapLiterals g) (cond.mapLiterals g)
  | .forLoop init cond step body =>
    .forLoop (mapInStmts g init) (mapInOption g cond) (mapInStmts g step) (body.mapLiterals g)
  | .forEach item collection body =>
    .forEach item (collection.mapLiterals g) (body.mapLiterals g)
  | .switch scrutinee cases => .switch (scrutinee.mapLiterals g) (mapInCases g cases)
  | .localDecl decl init => .localDecl decl (mapInOption g init)
  | .ret value => .ret (mapInOption g value)
  | .labeled label body => .labeled label (body.mapLiterals g)
  | .tryCatch body catches finalizer =>
    .tryCatch (body.mapLiterals g) (mapInCatches g catches) (mapInStmtOption g finalizer)
  | .throw e => .throw (e.mapLiterals g)
  | .push e => .push (e.mapLiterals g)
  | kind => kind

def mapInStmts (g : Int64 → Int64) : List Stmt → List Stmt
  | [] => []
  | s :: ss => s.mapLiterals g :: mapInStmts g ss

def mapInCases (g : Int64 → Int64) : List SwitchCase → List SwitchCase
  | [] => []
  | ⟨span, value, body⟩ :: cases =>
    ⟨span, mapInOption g value, mapInStmts g body⟩ :: mapInCases g cases

def mapInCatches (g : Int64 → Int64) : List CatchClause → List CatchClause
  | [] => []
  | ⟨span, type, binding, body⟩ :: clauses =>
    ⟨span, type, binding, body.mapLiterals g⟩ :: mapInCatches g clauses

def mapInStmtOption (g : Int64 → Int64) : Option Stmt → Option Stmt
  | none => none
  | some s => some (s.mapLiterals g)

end

/-! ## Programs -/

/-- The method with the literals of its body replaced. -/
def MethodDef.mapLiterals (g : Int64 → Int64) (m : MethodDef) : MethodDef :=
  { m with body := m.body.map (Stmt.mapLiterals g) }

mutual

/-- The definition with the literals of all bodies replaced, nested types included. -/
def TypeDef.mapLiterals (g : Int64 → Int64) : TypeDef → TypeDef
  | ⟨name, kind, baseClasses, interfaces, fields, methods, nested⟩ =>
    ⟨name, kind, baseClasses, interfaces, fields, methods.map (MethodDef.mapLiterals g),
      mapInTypes g nested⟩

def mapInTypes (g : Int64 → Int64) : List TypeDef → List TypeDef
  | [] => []
  | d :: ds => d.mapLiterals g :: mapInTypes g ds

end

/-- The program with every integer literal `n` of every body replaced by `g n`. -/
def Program.mapLiterals (g : Int64 → Int64) (p : Program) : Program :=
  { p with types := mapInTypes g p.types }

/-! ## What stays -/

section

variable {g : Int64 → Int64}

@[simp] theorem Expr.ty_mapLiterals (e : Expr) : (e.mapLiterals g).ty = e.ty := by cases e; rfl

@[simp] theorem Expr.span_mapLiterals (e : Expr) : (e.mapLiterals g).span = e.span := by
  cases e; rfl

@[simp] theorem Expr.isTarget_mapLiterals (e : Expr) : (e.mapLiterals g).isTarget = e.isTarget := by
  obtain ⟨id, span, ty, kind⟩ := e
  cases kind <;> rfl

theorem mapInOption_eq_map (e : Option Expr) : mapInOption g e = e.map (Expr.mapLiterals g) := by
  cases e <;> rfl

theorem mapInStmts_eq_map (ss : List Stmt) : mapInStmts g ss = ss.map (Stmt.mapLiterals g) := by
  induction ss with
  | nil => rfl
  | cons s ss ih => rw [mapInStmts, ih, List.map_cons]

theorem StmtKind.name_mapLiterals (kind : StmtKind) : (kind.mapLiterals g).name = kind.name := by
  cases kind <;> rfl

theorem exceptionTypes_mapInCatches (clauses : List CatchClause) :
    (mapInCatches g clauses).map (·.exceptionType) = clauses.map (·.exceptionType) := by
  induction clauses with
  | nil => rfl
  | cons clause clauses ih =>
    obtain ⟨span, type, binding, body⟩ := clause
    rw [mapInCatches, List.map_cons, List.map_cons, ih]

/-- A default case stays a default case. -/
theorem any_default_mapInCases (cases : List SwitchCase) :
    (mapInCases g cases).any (·.value.isNone) = cases.any (·.value.isNone) := by
  induction cases with
  | nil => rfl
  | cons case cases ih =>
    obtain ⟨span, value, body⟩ := case
    rw [mapInCases, List.any_cons, List.any_cons, ih, mapInOption_eq_map, Option.isNone_map]

@[simp] theorem MethodDef.bare_mapLiterals (m : MethodDef) : (m.mapLiterals g).bare = m.bare := rfl

namespace TypeDef

@[simp] theorem name_mapLiterals (d : TypeDef) : (d.mapLiterals g).name = d.name := by cases d; rfl

@[simp] theorem fields_mapLiterals (d : TypeDef) : (d.mapLiterals g).fields = d.fields := by
  cases d; rfl

@[simp] theorem methods_mapLiterals (d : TypeDef) :
    (d.mapLiterals g).methods = d.methods.map (MethodDef.mapLiterals g) := by
  cases d; rfl

theorem mapInTypes_eq_map (ds : List TypeDef) : mapInTypes g ds = ds.map (mapLiterals g) := by
  induction ds with
  | nil => rfl
  | cons d ds ih => rw [mapInTypes, ih, List.map_cons]

@[simp] theorem nested_mapLiterals (d : TypeDef) :
    (d.mapLiterals g).nested = d.nested.map (mapLiterals g) := by
  cases d
  exact mapInTypes_eq_map _

mutual

theorem bare_mapLiterals (d : TypeDef) : (d.mapLiterals g).bare = d.bare := by
  obtain ⟨name, kind, baseClasses, interfaces, fields, methods, nested⟩ := d
  rw [mapLiterals, bare, bare, bareAll_mapInTypes nested, List.map_map]
  rfl

theorem bareAll_mapInTypes (ds : List TypeDef) : bareAll (mapInTypes g ds) = bareAll ds := by
  cases ds with
  | nil => rfl
  | cons d ds => rw [mapInTypes, bareAll, bareAll, bare_mapLiterals, bareAll_mapInTypes]

end

end TypeDef

/-- Literals stand in bodies only. -/
theorem Program.bare_mapLiterals (p : Program) : (p.mapLiterals g).bare = p.bare :=
  congrArg (Program.mk · p.files) (TypeDef.bareAll_mapInTypes p.types)

theorem Program.allTypes_mapLiterals (p : Program) :
    (p.mapLiterals g).allTypes = p.allTypes.map (TypeDef.mapLiterals g) := by
  rw [allTypes, mapLiterals, TypeDef.mapInTypes_eq_map,
    TypeDef.allNested_map TypeDef.nested_mapLiterals]
  rfl

end

end Source

/-! ## Labels -/

namespace LabelScopes

open Source

variable {g : Int64 → Int64}

mutual

theorem visit_mapLiterals (enclosing : Option UInt32) (stmt : Stmt) (s : LabelScopes) :
    visit enclosing (stmt.mapLiterals g) s = visit enclosing stmt s := by
  obtain ⟨id, span, kind⟩ := stmt
  cases kind with
  | block stmts =>
    simp only [Stmt.mapLiterals, StmtKind.mapLiterals, visit]
    exact visitAll_mapLiterals enclosing stmts s
  | conditional _ thenBranch elseBranch =>
    simp only [Stmt.mapLiterals, StmtKind.mapLiterals, visit, visit_mapLiterals]
  | whileLoop _ body | doUntil body _ | forEach _ _ body | labeled _ body =>
    simp only [Stmt.mapLiterals, StmtKind.mapLiterals, visit, visit_mapLiterals]
  | forLoop init _ step body =>
    simp only [Stmt.mapLiterals, StmtKind.mapLiterals, visit, visit_mapLiterals,
      visitAll_mapLiterals]
  | switch _ cases =>
    simp only [Stmt.mapLiterals, StmtKind.mapLiterals, visit]
    exact visitCases_mapLiterals enclosing cases s
  | tryCatch body catches finalizer =>
    simp only [Stmt.mapLiterals, StmtKind.mapLiterals, visit, visit_mapLiterals,
      visitCatches_mapLiterals, visitOption_mapLiterals]
  | _ => simp only [Stmt.mapLiterals, StmtKind.mapLiterals, visit]

theorem visitAll_mapLiterals (enclosing : Option UInt32) (stmts : List Stmt) (s : LabelScopes) :
    visitAll enclosing (mapInStmts g stmts) s = visitAll enclosing stmts s := by
  cases stmts with
  | nil => rfl
  | cons stmt stmts => simp only [mapInStmts, visitAll, visit_mapLiterals, visitAll_mapLiterals]

theorem visitCases_mapLiterals (enclosing : Option UInt32) (cases : List SwitchCase)
    (s : LabelScopes) :
    visitCases enclosing (mapInCases g cases) s = visitCases enclosing cases s := by
  cases cases with
  | nil => rfl
  | cons case cases =>
    obtain ⟨span, value, body⟩ := case
    simp only [mapInCases, visitCases, visitAll_mapLiterals, visitCases_mapLiterals]

theorem visitCatches_mapLiterals (enclosing : Option UInt32) (clauses : List CatchClause)
    (s : LabelScopes) :
    visitCatches enclosing (mapInCatches g clauses) s = visitCatches enclosing clauses s := by
  cases clauses with
  | nil => rfl
  | cons clause clauses =>
    obtain ⟨span, type, binding, body⟩ := clause
    simp only [mapInCatches, visitCatches, visit_mapLiterals, visitCatches_mapLiterals]

theorem visitOption_mapLiterals (enclosing : Option UInt32) (stmt : Option Stmt)
    (s : LabelScopes) :
    visitOption enclosing (mapInStmtOption g stmt) s = visitOption enclosing stmt s := by
  cases stmt with
  | none => rfl
  | some stmt => simp only [mapInStmtOption, visitOption, visit_mapLiterals]

end

/-- Labels stand where they stood. -/
theorem collect_mapLiterals (body : Stmt) : collect (body.mapLiterals g) = collect body :=
  visit_mapLiterals none body {}

end LabelScopes

end Unwind
