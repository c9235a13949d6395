import Mathlib
import Unwind.Proofs.Variables.Methods
import Unwind.Proofs.Variables.Stores

/-!
# Values of the recorded types

A procedure has one table for the variables of its body. Names that are declared already, and
those of parameters, are left alone, so that the first declaration of a name decides on its type.
Where all declarations of a name agree (`MethodDef.OneTypeEach`), a well-typed body stores values of
the recorded types only (`storesFit_lowerMethod`).
-/

namespace Unwind

open Machine (isGenerated)

/-! ## Tables of variables -/

namespace Ir

variable {vs ws : List VarDecl} {x : String}

theorem typeIn_append : typeIn (vs ++ ws) x = (typeIn vs x).or (typeIn ws x) := by
  rw [typeIn, List.find?_append, Option.map_or, typeIn, typeIn]

theorem mem_of_typeIn {t : Ty} (h : typeIn vs x = some t) : ⟨x, t⟩ ∈ vs := by
  obtain ⟨v, hfind, rfl⟩ := Option.map_eq_some_iff.mp h
  obtain rfl : v.name = x := by simpa using List.find?_some hfind
  exact List.mem_of_find?_eq_some hfind

theorem typeIn_eq_none (h : x ∉ vs.map (·.name)) : typeIn vs x = none := by
  rcases ht : typeIn vs x with _ | t
  · rfl
  · exact absurd (List.mem_map.mpr ⟨_, mem_of_typeIn ht, rfl⟩) h

/-- A variable is found with its type where all variables of its name have one type. -/
theorem typeIn_eq_some {v : VarDecl} (hv : v ∈ vs)
    (h : ∀ w ∈ vs, w.name = v.name → w.ty = v.ty) : typeIn vs v.name = some v.ty := by
  rcases ht : typeIn vs v.name with _ | t
  · have hnone := List.find?_eq_none.mp (Option.map_eq_none_iff.mp ht) v hv
    exact absurd (beq_self_eq_true v.name) hnone
  · exact congrArg some (h _ (mem_of_typeIn ht) rfl)

/-- Only static fields and the exception are outside of procedures. -/
theorem Fields.types_var_eq_none (F : Fields) (hexc : x ≠ exceptionVar) (hdot : '.' ∉ x.toList) :
    F.types.var x = none := by
  have hvar : F.types.var x = F.static x := if_neg hexc
  rw [hvar]
  rcases h : F.static x with _ | t
  · rfl
  · exact absurd (F.dotted h) hdot

end Ir

/-! ## The variables of a method -/

namespace Source.MethodDef

variable {F : Ir.Fields} {m : MethodDef}

/-- The type of the values of a variable. -/
def typeOf? (m : MethodDef) (x : String) : Option Ir.Ty :=
  ((m.inputs ++ m.declared).find? (·.1 == x)).bind (·.2)

theorem OneTypeEach.typeOf?_eq (h : m.OneTypeEach F) {v : String × Option Ir.Ty}
    (hv : v ∈ m.inputs ++ m.declared) : m.typeOf? v.1 = v.2 := by
  unfold typeOf?
  cases hfind : (m.inputs ++ m.declared).find? (·.1 == v.1) with
  | none => exact absurd (List.find?_eq_none.mp hfind v hv) (by simp)
  | some w =>
    have hname : w.1 = v.1 := by simpa using List.find?_some hfind
    exact h.vars w (List.mem_of_find?_eq_some hfind) v hv hname

theorem mem_of_typeOf? {x : String} {t : Ir.Ty} (h : m.typeOf? x = some t) :
    (x, some t) ∈ m.inputs ++ m.declared := by
  obtain ⟨⟨y, u⟩, hfind, rfl⟩ := Option.bind_eq_some_iff.mp h
  obtain rfl : y = x := by simpa using List.find?_some hfind
  exact List.mem_of_find?_eq_some hfind

/-- A body starts with its inputs, and with what is outside of procedures. -/
theorem scope_var {x : String} {t : Ir.Ty} (h : (m.scope F).types.var x = some t) :
    (x, some t) ∈ m.inputs ∨ F.types.var x = some t := by
  have hfold : ∀ (vs : List (String × Option Ir.Ty)) (T : Ir.Types),
      (vs.foldl (fun T v => T.declare v.1 v.2) T).var x = some t →
        (x, some t) ∈ vs ∨ T.var x = some t := by
    intro vs
    induction vs with
    | nil => exact fun T h => .inr h
    | cons v vs ih =>
      intro T h
      rcases ih _ h with hmem | hvar
      · exact .inl (List.mem_cons_of_mem _ hmem)
      · rw [Ir.Types.declare_var] at hvar
        split at hvar
        · next he => exact .inl (he ▸ hvar ▸ List.mem_cons_self)
        · exact .inr hvar
  exact hfold _ _ h

theorem scope_map : (m.scope F).types.map = F.map := by
  have hfold : ∀ (vs : List (String × Option Ir.Ty)) (T : Ir.Types),
      (vs.foldl (fun T v => T.declare v.1 v.2) T).map = T.map := by
    intro vs
    induction vs with
    | nil => exact fun _ => rfl
    | cons v vs ih => exact fun T => ih _
  exact hfold _ _

end Source.MethodDef

namespace Lowering

open Source (CatchClause Expr MethodDef Stmt Target Ty TypeDef)
open Ir (Cmd Procedure VarDecl)

/-! ## Records -/

section

variable {F : Ir.Fields} {m : MethodDef} {p : Procedure}

/-- What is recorded for a method. The exception and the result are set apart, so that their types
are known before the body is complete. -/
def recordsOf (F : Ir.Fields) (m : MethodDef) (p : Procedure) : Records where
  types :=
    { var := fun x => if x = Ir.exceptionVar then some .ref
        else if x = resultVar then m.ret.ir? else (p.types F).var x
      map := F.map }
  source := m.typeOf?

theorem recordsOf_exception : (recordsOf F m p).types.var Ir.exceptionVar = some .ref := rfl

theorem recordsOf_result : (recordsOf F m p).types.var resultVar = m.ret.ir? := rfl

theorem complete_recordsOf : (recordsOf F m p).Complete m.ret.ir? := ⟨rfl, fun _ h => h⟩

theorem recordsOf_var {x : String} (hexc : x ≠ Ir.exceptionVar) (hresult : x ≠ resultVar) :
    (recordsOf F m p).types.var x = (p.types F).var x :=
  (if_neg hexc).trans (if_neg hresult)

/-- Variables of the source program are neither the exception nor the result. -/
theorem recordsOf_var_plain {x : String} (hx : isGenerated x = false) :
    (recordsOf F m p).types.var x = (p.types F).var x := by
  refine recordsOf_var ?_ ?_ <;>
    · rintro rfl
      cases hx

theorem types_var {x : String} : (p.types F).var x = ((Ir.typeIn p.params x).or
    ((Ir.typeIn p.returns x).or (Ir.typeIn p.locals x))).or (F.types.var x) := by
  rw [← Ir.typeIn_append, ← Ir.typeIn_append]
  rfl

/-! ### The start -/

section

variable (hplain : m.PlainVariables) (hone : m.OneTypeEach F)
  (hparams : paramsOf m = .ok p.params)

include hparams

theorem mem_inputs_of_param {v : VarDecl} (hv : v ∈ p.params) :
    (v.name, some v.ty) ∈ m.inputs ++ m.declared := by
  rw [inputs_of_paramsOf hparams]
  exact List.mem_append_left _ (List.mem_map.mpr ⟨v, hv, rfl⟩)

include hone

theorem types_var_param {v : VarDecl} (hv : v ∈ p.params) :
    (p.types F).var v.name = m.typeOf? v.name := by
  have hinput : ∀ w ∈ p.params, m.typeOf? w.name = some w.ty := fun w hw =>
    hone.typeOf?_eq (mem_inputs_of_param hparams hw)
  have hfirst : Ir.typeIn p.params v.name = some v.ty := by
    refine Ir.typeIn_eq_some hv fun w hw hname => Option.some.inj ?_
    rw [← hinput w hw, hname, hinput v hv]
  rw [types_var, hfirst, hinput v hv]
  rfl

include hplain

theorem recordsOf_var_param {v : VarDecl} (hv : v ∈ p.params) :
    isGenerated v.name = false ∧ (recordsOf F m p).types.var v.name = m.typeOf? v.name := by
  have hname := hplain _ (mem_inputs_of_param hparams hv)
  exact ⟨hname, (recordsOf_var_plain hname).trans (types_var_param hone hparams hv)⟩

theorem sorted_startContext (scopes : LabelScopes) (shared : Shared) :
    State.Sorted (recordsOf F m p) ⟨startContext scopes p.params p.returns, shared⟩ := by
  rw [startContext_params]
  refine ⟨List.forall_mem_nil _, List.nodup_nil, List.forall_mem_nil _, fun x hx => ?_,
    fun x hx => ?_, fun _ _ _ h => (by cases h), List.forall_mem_nil _⟩
  · rcases List.mem_append.mp hx with hx | hx
    · obtain ⟨v, hv, rfl⟩ := List.mem_map.mp hx
      exact .inl (recordsOf_var_param hplain hone hparams hv)
    · split at hx
      · cases hx
      · exact .inr (List.mem_singleton.mp hx)
  · dsimp only at hx
    split at hx
    · cases hx
    · exact (Option.some.inj hx).symm

end

/-! ### The end -/

/-- No variable of a kind that is declared elsewhere is declared in a body. -/
theorem State.Sorted.ne_of_mem {R : Records} {s : State} (hs : s.Sorted R) (slot : Slot)
    (hproper : slot.Proper) (hnone : ∀ n ty, ¬ slot.Allows R n ty) :
    ∀ v ∈ s.locals, v.name ≠ slot.name := by
  intro v hv hname
  obtain ⟨slot', hproper', hname', hallows⟩ := hs.kinds v hv
  obtain rfl := Slot.name_inj hproper hproper' (hname.symm.trans hname')
  exact hnone _ _ hallows

theorem State.Sorted.typeIn_locals {R : Records} {s : State} (hs : s.Sorted R) (slot : Slot)
    (hproper : slot.Proper) (hnone : ∀ n ty, ¬ slot.Allows R n ty) :
    Ir.typeIn s.locals slot.name = none := by
  refine Ir.typeIn_eq_none fun hmem => ?_
  obtain ⟨v, hv, hname⟩ := List.mem_map.mp hmem
  exact hs.ne_of_mem slot hproper hnone v hv hname

/-- A procedure of which the body has been lowered, with the state behind the body. -/
structure Lowered (F : Ir.Fields) (m : MethodDef) (p : Procedure) (s : State) : Prop where
  params : paramsOf m = .ok p.params
  returns : returnsOf m = .ok p.returns
  locals : p.locals = s.locals
  sorted : s.Sorted (recordsOf F m p)
  reserved : ∀ v ∈ p.params, v.name ∈ s.params

namespace Lowered

variable {s : State}

theorem typeIn_returns (h : Lowered F m p s) {x : String} (hx : x ≠ resultVar) :
    Ir.typeIn p.returns x = none := by
  refine Ir.typeIn_eq_none fun hmem => ?_
  rcases returnsOf_eq h.returns with hrs | ⟨ty, hrs⟩ <;> rw [hrs] at hmem
  · cases hmem
  · exact hx (List.mem_singleton.mp hmem)

/-- The locals of the procedure are what is declared in the end. -/
theorem recorded (h : Lowered F m p s) : s.Recorded (recordsOf F m p) := by
  intro v hv
  have hexc := h.sorted.ne_of_mem .exception trivial (fun _ _ h => h) v hv
  have hresult := h.sorted.ne_of_mem .result trivial (fun _ _ h => h) v hv
  have hparam : Ir.typeIn p.params v.name = none := by
    refine Ir.typeIn_eq_none fun hmem => h.sorted.apart v hv ?_
    obtain ⟨w, hw, hname⟩ := List.mem_map.mp hmem
    exact hname ▸ h.reserved w hw
  have hlocal : Ir.typeIn p.locals v.name = some v.ty := by
    rw [h.locals]
    refine Ir.typeIn_eq_some hv fun w hw hname => ?_
    rw [List.inj_on_of_nodup_map h.sorted.nodup hw hv hname]
  rw [recordsOf_var hexc hresult, types_var, hparam, hlocal, h.typeIn_returns hresult]
  rfl

theorem typeIn_params (h : Lowered F m p s) (hplain : m.PlainVariables) {x : String}
    (hx : isGenerated x = true) : Ir.typeIn p.params x = none := by
  refine Ir.typeIn_eq_none fun hmem => ?_
  obtain ⟨v, hv, rfl⟩ := List.mem_map.mp hmem
  rw [hplain _ (mem_inputs_of_param h.params hv)] at hx
  cases hx

/-- The exception and the result are recorded as everything else. -/
theorem types_recordsOf (h : Lowered F m p s) (hplain : m.PlainVariables) :
    (recordsOf F m p).types = p.types F := by
  have hexc : (p.types F).var Ir.exceptionVar = some .ref := by
    have hlocal : Ir.typeIn s.locals Ir.exceptionVar = none :=
      h.sorted.typeIn_locals .exception trivial fun _ _ h => h
    rw [types_var, h.typeIn_params hplain rfl, h.locals, hlocal, h.typeIn_returns (by decide)]
    rfl
  have hresult : (p.types F).var resultVar = m.ret.ir? := by
    have hlocal : Ir.typeIn s.locals resultVar = none :=
      h.sorted.typeIn_locals .result trivial fun _ _ h => h
    rw [types_var, h.typeIn_params hplain rfl, h.locals, hlocal, typeIn_returnsOf h.returns,
      F.types_var_eq_none (by decide) (by decide)]
    simp
  have hvar : (recordsOf F m p).types.var = (p.types F).var := by
    funext x
    by_cases he : x = Ir.exceptionVar
    · rw [he, recordsOf_exception, hexc]
    by_cases hr : x = resultVar
    · rw [hr, recordsOf_result, hresult]
    · exact recordsOf_var he hr
  calc (recordsOf F m p).types
    _ = { var := (recordsOf F m p).types.var, map := F.map } := rfl
    _ = p.types F := by rw [hvar]; rfl

/-- A static field is not hidden by a variable of another type. -/
theorem types_var_static (h : Lowered F m p s) (hone : m.OneTypeEach F) {x : String} {t : Ir.Ty}
    (hx : F.static x = some t) : (p.types F).var x = some t := by
  have hne : ∀ slot : Slot, slot.isSource = false → x ≠ slot.name := by
    rintro slot hslot rfl
    exact Slot.dot_notMem_name hslot (F.dotted hx)
  have hsame : ∀ ty, m.typeOf? x = some ty → ty = t := fun ty hty =>
    Option.some.inj (hone.fields _ (MethodDef.mem_of_typeOf? hty) t hx)
  have hparam : ∀ ty, Ir.typeIn p.params x = some ty → ty = t := fun ty hty =>
    hsame ty (hone.typeOf?_eq (mem_inputs_of_param h.params (Ir.mem_of_typeIn hty)))
  have hlocal : ∀ ty, Ir.typeIn s.locals x = some ty → ty = t := by
    intro ty hty
    obtain ⟨slot, hproper, hname, hallows⟩ := h.sorted.kinds _ (Ir.mem_of_typeIn hty)
    cases slot with
    | source y =>
      obtain rfl : x = y := hname
      exact hsame ty hallows
    | _ => exact absurd hname (hne _ rfl)
  have hglobal : F.types.var x = some t := (if_neg (hne .exception rfl)).trans hx
  rw [types_var, h.typeIn_returns (hne .result rfl), h.locals, hglobal]
  cases hp : Ir.typeIn p.params x with
  | some ty => exact congrArg some (hparam ty hp)
  | none =>
    cases hl : Ir.typeIn s.locals x with
    | some ty => exact congrArg some (hlocal ty hl)
    | none => rfl

/-- A body starts with what is recorded. -/
theorem within (h : Lowered F m p s) (hplain : m.PlainVariables) (hone : m.OneTypeEach F) :
    Within (m.scope F).types (recordsOf F m p).types := by
  refine ⟨fun {x t} hx => ?_, MethodDef.scope_map⟩
  rcases MethodDef.scope_var hx with hinput | hglobal
  · rw [inputs_of_paramsOf h.params] at hinput
    obtain ⟨v, hv, heq⟩ := List.mem_map.mp hinput
    cases heq
    rw [(recordsOf_var_param hplain hone h.params hv).2]
    exact hone.typeOf?_eq (mem_inputs_of_param h.params hv)
  · by_cases he : x = Ir.exceptionVar
    · rw [he] at hglobal ⊢
      exact hglobal
    · have hstatic : F.static x = some t := (if_neg he).symm.trans hglobal
      rw [h.types_recordsOf hplain]
      exact h.types_var_static hone hstatic

end Lowered

/-- The variables that a body declares are recorded. -/
theorem knowsAll_recordsOf (hplain : m.PlainVariables) (hone : m.OneTypeEach F) {body : Stmt}
    (hbody : m.body = some body) : (recordsOf F m p).KnowsAll body.statements := by
  intro t ht v hv
  have hmem : (v.name, v.ty.ir?) ∈ m.inputs ++ m.declared := by
    refine List.mem_append_right _ (List.mem_flatMap.mpr ⟨t, ?_, List.mem_map.mpr ⟨v, hv, rfl⟩⟩)
    rw [hbody]
    exact List.mem_append_left _ ht
  exact ⟨hplain _ hmem, fun ty hty => (hone.typeOf?_eq hmem).trans hty⟩

end

/-- A well-typed method becomes a procedure that stores values of the types recorded for its
variables, if the declarations of each name agree. -/
theorem storesFit_lowerMethod {env : Env} {owner : TypeDef} {m : MethodDef}
    {shared shared' : Shared} {p : Procedure} {F : Ir.Fields} (hplain : m.PlainVariables)
    (hone : m.OneTypeEach F) (hwell : m.WellTyped env F)
    (h : Runs (lowerMethod env owner m) shared p shared') : p.StoresFit F := by
  obtain ⟨hparams, hreturns, ⟨-, hbody⟩ | ⟨body, scopes, s, hfrom⟩⟩ := procedure_of_runs h
  · rw [Procedure.StoresFit, hbody]
    exact Ir.Cmd.allFit_nil
  obtain ⟨sc, hsc⟩ := Option.isSome_iff_exists.mp (hwell body hfrom.body_eq)
  have hstmt : Typed (recordsOf F m p) 0 (Within (m.scope F).types (recordsOf F m p).types) []
      (do breadcrumb env; lowerStmt env body) sc.operands fun _ =>
        Within sc.types (recordsOf F m p).types :=
    typed_breadcrumb.bind fun _ => typed_lowerStmt complete_recordsOf body
      (knowsAll_recordsOf hplain hone hfrom.body_eq) hsc fun hp => hp.2
  obtain ⟨hs, hw, hstored⟩ := hstmt.run (sorted_startContext hplain hone hparams scopes _)
    (Nat.zero_le _) hfrom.runs
  -- what is declared in the end tells the types of all variables, those of the start included
  have hlow : Lowered F m p s := by
    refine ⟨hparams, hreturns, hfrom.locals_eq, hs, fun v hv => ?_⟩
    rw [hw.params, startContext_params]
    exact List.mem_append_left _ (List.mem_map.mpr ⟨v, hv, rfl⟩)
  have hstart : State.Stored (recordsOf F m p) []
      ⟨startContext scopes p.params p.returns, announce owner m shared⟩ := by
    rw [startContext_params]
    exact ⟨Ir.Cmd.allFit_nil, rfl⟩
  have hfit := (hstored hlow.recorded (hlow.within hplain hone) hstart).1.cmds
  rw [hlow.types_recordsOf hplain] at hfit
  rw [Procedure.StoresFit, hfrom.cmds_eq]
  exact hfit

/-! ## Names that are declared twice -/

/-- One static field, a counter. -/
def oneCounter : Ir.Fields where
  static x := if x = "T.count" then some .int else none
  map _ := none
  dotted := by
    intro x t h
    obtain ⟨rfl, -⟩ := Option.ite_none_right_eq_some.mp h
    decide

/-- A method that declares a variable in two blocks, and catches exceptions of two types by one
name. -/
def patient : MethodDef where
  name := "patient"
  params := [⟨"n", .int⟩]
  ret := .int
  isStatic := true
  body :=
    let count : Target := .field none ⟨⟨"T", none⟩, "count"⟩
    let declareX (e : Expr) : Stmt := .ofKind (.localDecl ⟨"x", .int⟩ (some e))
    let catches (type : String) (body : Stmt) : CatchClause :=
      ⟨{}, some ⟨type, none⟩, some ⟨"e", .named ⟨type, none⟩⟩, body⟩
    some (.block [
      .block [declareX (.var "n" .int), .expr (.assign (.var "x") (.int 1))],
      .withId (.ofKind (.tryCatch
        (.block [declareX (.int 2), .expr (.assign count (.var "x" .int))])
        [catches "E" .empty, catches "F" (.ofKind .rethrow)] none)) 3,
      .ofKind (.ret (some (.var "n" .int)))])

def emptyType : TypeDef := ⟨⟨"T", none⟩, .classType, [], [], [], [], []⟩

theorem patient_storesFit : ∃ p shared', Runs (lowerMethod {} emptyType patient) {} p shared' ∧
    p.StoresFit oneCounter ∧
    p.locals.map (·.name) = ["x", "$label", "$localExc0", "e"] := by
  have hok : ((lowerMethod {} emptyType patient).run {}).1.toBool = true := by decide +kernel
  have hlocals : ((lowerMethod {} emptyType patient).run {}).1.toOption.map
      (·.locals.map (·.name)) = some ["x", "$label", "$localExc0", "e"] := by decide +kernel
  obtain ⟨p, shared', h⟩ := exists_ok_of_toBool hok
  rw [h] at hlocals
  exact ⟨p, shared', h, storesFit_lowerMethod (by decide +kernel) (by decide +kernel)
    (by decide +kernel) h, Option.some.inj hlocals⟩

/-- The variable that a command assigns. -/
def assigned? : Cmd → Option String
  | .assign (.var x) _ => some x
  | _ => none

/-- The method declares the variable, and assigns it a value of another type than the one
recorded. -/
def StoresOtherwise (F : Ir.Fields) (m : MethodDef) (x : String) : Prop :=
  x ∈ m.declared.map (·.1) ∧ ∃ p shared', Runs (lowerMethod {} emptyType m) {} p shared' ∧
    ∃ c ∈ Cmd.allNested (p.body.getD []), assigned? c = some x ∧ ¬ c.Fits (p.types F)

theorem storesOtherwise_of_run {F : Ir.Fields} {m : MethodDef} {x : String}
    (hx : x ∈ m.declared.map (·.1))
    (h : ((lowerMethod {} emptyType m).run {}).1.toOption.any (fun p : Procedure =>
      decide (∃ c ∈ Cmd.allNested (p.body.getD []), assigned? c = some x ∧ ¬ c.Fits (p.types F))) =
        true) : StoresOtherwise F m x := by
  refine ⟨hx, ?_⟩
  rcases hrun : (lowerMethod {} emptyType m).run {} with ⟨_ | p, shared'⟩
  · rw [hrun] at h
    cases h
  · rw [hrun] at h
    exact ⟨p, shared', hrun, of_decide_eq_true h⟩

/-- One name in two blocks, for an integer and for a truth value. -/
def reused : MethodDef where
  name := "reused"
  isStatic := true
  body := some (.block [
    .block [.ofKind (.localDecl ⟨"x", .int⟩ (some (.int 1)))],
    .block [.ofKind (.localDecl ⟨"x", .bool⟩ (some (.bool true)))]])

/-- A variable with the name that the result of the call gets. -/
def overwritten : MethodDef where
  name := "overwritten"
  isStatic := true
  body := some (.block [
    .ofKind (.localDecl ⟨"$tmp0", .int⟩ (some (.int 1))),
    .expr (.ofCall (.direct ⟨⟨"T", none⟩, "test", []⟩ none []) .bool)])

/-- Operands of two types. Both branches are lowered, so that three operands are pushed. -/
def branched : MethodDef where
  name := "branched"
  isStatic := true
  params := [⟨"c", .bool⟩]
  body :=
    let push (e : Expr) : Stmt := .ofKind (.push e)
    let declarePop (name : String) (ty : Ty) : Stmt :=
      .ofKind (.localDecl ⟨name, ty⟩ (some (.ofKind .pop ty)))
    some (.block [push (.int 1),
      .ifElse (.var "c" .bool) (push (.bool true)) (push (.bool false)),
      declarePop "b" .bool, declarePop "n" .int])

/-- An integer that is converted to an object, and a type that is `null`. Neither is changed. -/
def boxed : MethodDef where
  name := "boxed"
  isStatic := true
  body :=
    let object : Ty := .named ⟨"Object", none⟩
    let type : Ty := .named ⟨"Type", none⟩
    some (.block [
      .ofKind (.localDecl ⟨"o", object⟩ (some (.ofKind (.conversion (.int 1) object) object))),
      .ofKind (.localDecl ⟨"t", type⟩ (some (.null type)))])

/-- No condition can be left out: the first declaration of a name decides on its type, the result of
a call replaces a variable of its name, a conversion to an object changes nothing, and the operands
of both branches are pushed. -/
theorem storesOtherwise_without :
    (reused.PlainVariables ∧ reused.WellTyped {} oneCounter ∧
      StoresOtherwise oneCounter reused "x") ∧
    (overwritten.OneTypeEach oneCounter ∧ overwritten.WellTyped {} oneCounter ∧
      StoresOtherwise oneCounter overwritten "$tmp0") ∧
    (boxed.PlainVariables ∧ boxed.OneTypeEach oneCounter ∧
      StoresOtherwise oneCounter boxed "o" ∧ StoresOtherwise oneCounter boxed "t") ∧
    branched.PlainVariables ∧ branched.OneTypeEach oneCounter ∧
      StoresOtherwise oneCounter branched "n" := by
  refine ⟨⟨?_, ?_, storesOtherwise_of_run ?_ ?_⟩, ⟨?_, ?_, storesOtherwise_of_run ?_ ?_⟩,
    ⟨?_, ?_, storesOtherwise_of_run ?_ ?_, storesOtherwise_of_run ?_ ?_⟩, ?_, ?_,
    storesOtherwise_of_run ?_ ?_⟩ <;>
    decide +kernel

end Lowering

end Unwind
