import Mathlib.Data.List.Basic
import Unwind.Proofs.Callees
import Unwind.Proofs.Names
import Unwind.Source.Program

/-!
# The variables of a body

`Cmd.vars` lists the variables of a command: those that it reads, assigns, or stores the results of
a call in, at any depth. `Stmt.mentions` lists the names in the source that variables are called
after; the global or map of a field is called after its type.
-/

namespace Unwind

open Machine (isGenerated)

/-! ## Variables of commands -/

namespace Ir

mutual

/-- The variables and maps that an expression reads. -/
def Expr.vars : Expr → List String
  | lit _ | typeConst _ => []
  | ident name => [name]
  | unary _ e => e.vars
  | binary _ a b => a.vars ++ b.vars
  | app _ args => Expr.allVars args
  | select m i => m :: i.vars
  | ifThenElse c t e => c.vars ++ (t.vars ++ e.vars)

def Expr.allVars : List Expr → List String
  | [] => []
  | e :: es => e.vars ++ Expr.allVars es

end

theorem Expr.allVars_append (es es' : List Expr) :
    Expr.allVars (es ++ es') = Expr.allVars es ++ Expr.allVars es' := by
  induction es with
  | nil => rfl
  | cons e es ih => rw [List.cons_append, allVars, ih, allVars, List.append_assoc]

/-- The variables of a value, where there is one. -/
def Expr.optionVars : Option Expr → List String
  | none => []
  | some e => e.vars

theorem Expr.allVars_toList (e : Option Expr) : Expr.allVars e.toList = Expr.optionVars e := by
  cases e with
  | none => rfl
  | some e => exact List.append_nil _

def AttrValue.vars : AttrValue → List String
  | expr e => e.vars
  | str _ => []

def Attr.vars (a : Attr) : List String := a.values.flatMap AttrValue.vars

def Lhs.vars : Lhs → List String
  | var name => [name]
  | map m i => m :: i.vars

mutual

/-- The variables that a command reads or changes, those of nested commands included. -/
def Cmd.vars : Cmd → List String
  | assert cond attrs | assume cond attrs => cond.vars ++ attrs.flatMap Attr.vars
  | assign lhs rhs => lhs.vars ++ rhs.vars
  | call attrs _ args outs => attrs.flatMap Attr.vars ++ (Expr.allVars args ++ outs)
  | ifElse cond thenCmds elseCmds => cond.vars ++ (Cmd.allVars thenCmds ++ Cmd.allVars elseCmds)
  | goto _ | label _ | ret => []

def Cmd.allVars : List Cmd → List String
  | [] => []
  | c :: cs => c.vars ++ Cmd.allVars cs

end

theorem Cmd.allVars_append (cs cs' : List Cmd) :
    Cmd.allVars (cs ++ cs') = Cmd.allVars cs ++ Cmd.allVars cs' := by
  induction cs with
  | nil => rfl
  | cons c cs ih => rw [List.cons_append, allVars, ih, allVars, List.append_assoc]

/-- The variables of a body. -/
def Procedure.vars (p : Procedure) : List String := Cmd.allVars (p.body.getD [])

end Ir

/-! ## Names in the source program -/

namespace Source

mutual

/-- The variables that an expression reads or writes, and the types of its fields. -/
def Expr.mentions : Expr → List String
  | ⟨_, _, _, kind⟩ =>
    match kind with
    | .var name => [name]
    | .field object f => f.type.name :: mentionsOption object
    | .unary _ e | .getType e | .conversion e _ => e.mentions
    | .binary _ lhs rhs => lhs.mentions ++ rhs.mentions
    | .conditional cond thenExpr elseExpr =>
      cond.mentions ++ (thenExpr.mentions ++ elseExpr.mentions)
    | .assign target value => target.mentions ++ value.mentions
    | .target target => target.mentions
    | .call ⟨_, receiver, args, _⟩ => mentionsOption receiver ++ mentionsAll args
    | .new _ _ args => mentionsAll args
    | .literal _ | .self | .typeOf _ | .defaultValue _ | .pop => []

def Target.mentions : Target → List String
  | .var name => [name]
  | .field object f => f.type.name :: mentionsOption object

def mentionsOption : Option Expr → List String
  | none => []
  | some e => e.mentions

def mentionsAll : List Expr → List String
  | [] => []
  | e :: es => e.mentions ++ mentionsAll es

end

/-- The variables that a statement declares, the statements inside it apart. -/
def StmtKind.declares : StmtKind → List Variable
  | .localDecl decl _ => [decl]
  | .forEach item _ _ => [item]
  | .tryCatch _ catches _ => catches.filterMap (·.binding)
  | _ => []

/-- The names in a statement, the statements inside it apart. -/
def StmtKind.mentions (kind : StmtKind) : List String :=
  kind.declares.map (·.name) ++ kind.exprs.flatMap Expr.mentions

/-- The variables and the types of the fields in a statement and in the statements inside it. -/
def Stmt.mentions (s : Stmt) : List String := s.statements.flatMap (·.kind.mentions)

/-- No parameter, and none of the variables and types in the body, is called like a generated
variable. -/
def MethodDef.NoGeneratedNames (m : MethodDef) : Prop :=
  (∀ p ∈ m.params, isGenerated p.name = false) ∧
    ∀ body ∈ m.body, ∀ x ∈ body.mentions, isGenerated x = false

theorem isGenerated_mapName {f : FieldRef} (h : isGenerated f.type.name = false) :
    isGenerated f.mapName = false := by
  unfold isGenerated FieldRef.mapName at *
  rw [String.toList_append, String.toList_append]
  cases hcs : f.type.name.toList with
  | nil => rfl
  | cons c cs => rwa [hcs] at h

end Source

end Unwind
