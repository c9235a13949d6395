import Unwind.Lowering.Stmt

/-!
# Lowering methods

A method becomes a procedure of the same parameters, with `this` in front unless it is static. A
method without a body is only declared.
-/

namespace Unwind.Lowering

open Source (MethodDef TypeDef)
open Ir (Procedure VarDecl)

/-- A step of a compilation, outside every body. -/
abbrev Compiling := ExceptT Fault (StateM Shared)

/-- Run a lowering step on its own context and return the context it leaves. -/
def inContext (cx : Context) (act : Lower Unit) : Compiling Context := fun shared =>
  let (result, s) := act.run { cx, shared with }
  (result.map fun _ => s.toContext, s.toShared)

/-- The parameters of a method. -/
def paramsOf (m : MethodDef) : Except Fault (List VarDecl) := do
  let params ← m.params.mapM fun p => return VarDecl.mk p.name (← irTy p.ty {})
  return if m.isStatic then params else ⟨"this", .ref⟩ :: params

/-- The result of a method. -/
def returnsOf (m : MethodDef) : Except Fault (List VarDecl) :=
  if m.ret.isVoid then return []
  else return [⟨resultVar, ← irTy m.ret {}⟩]

/-- The context in which a body starts. -/
def startContext (scopes : LabelScopes) (params returns : List VarDecl) : Context :=
  let cx := params.foldl (fun cx p => cx.bindParam p.name) { scopes }
  if returns.isEmpty then cx else cx.setReturnVar resultVar

/-- Lower a method of the type `owner`. -/
def lowerMethod (env : Env) (owner : TypeDef) (m : MethodDef) : Compiling Procedure := do
  let name := (m.reference owner.name).procedureName
  let params ← paramsOf m
  let returns ← returnsOf m
  match m.body with
  | none => return .declaration name params returns
  | some body =>
    modify fun s => { s with log := s.log.add .debug s!"lowering procedure {name}" }
    let scopes ← LabelScopes.collect body
    let cx ← inContext (startContext scopes params returns) do
      breadcrumb env
      lowerStmt env body
    let (locals, cmds) ← cx.finish
    return { name, params, returns, locals, body := some cmds }

end Unwind.Lowering
