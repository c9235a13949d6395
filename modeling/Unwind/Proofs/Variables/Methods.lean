import Mathlib
import Unwind.Proofs.JumpTargets
import Unwind.Proofs.Variables.Lowering
import Unwind.Proofs.Variables.Types

/-!
# The variables of a procedure

A body starts with nothing declared, from which the lowering goes through tidy states only. So the
locals of a procedure have names of their own, those that the lowering adds have the types of their
kinds, and every generated variable of the body is a local, the result, or `$Exception`.
-/

namespace Unwind.Lowering

open Machine (isGenerated)
open Source (Call Expr MethodDef MethodRef Stmt TypeDef)
open Ir (Procedure VarDecl)

/-! ## Procedures and bodies -/

/-- What a lowered method is made of. -/
structure FromBody (env : Env) (owner : TypeDef) (m : MethodDef) (shared : Shared) (p : Procedure)
    (body : Stmt) (scopes : LabelScopes) (s : State) : Prop where
  body_eq : m.body = some body
  scopes_eq : LabelScopes.collect body = .ok scopes
  runs : Runs (do breadcrumb env; lowerStmt env body)
    ⟨startContext scopes p.params p.returns, announce owner m shared⟩ () s
  locals_eq : p.locals = s.locals
  cmds_eq : p.body = some s.cmds

theorem procedure_of_runs {env : Env} {owner : TypeDef} {m : MethodDef} {shared shared' : Shared}
    {p : Procedure} (h : Runs (lowerMethod env owner m) shared p shared') :
    paramsOf m = .ok p.params ∧ returnsOf m = .ok p.returns ∧
      (p.locals = [] ∧ p.body = none ∨
        ∃ body scopes s, FromBody env owner m shared p body scopes s) := by
  cases hbody : m.body with
  | none =>
    simp only [lowerMethod, hbody, runs_bind, runs_lift, runs_pure] at h
    obtain ⟨params, t₁, ⟨hparams, rfl⟩, returns, t₂, ⟨hreturns, rfl⟩, rfl, rfl⟩ := h
    exact ⟨hparams, hreturns, .inl ⟨rfl, rfl⟩⟩
  | some body =>
    obtain ⟨hparams, hreturns, scopes, s, hsc, hrun, hlocals, hcmds⟩ := runs_lowerMethod hbody h
    exact ⟨hparams, hreturns, .inr ⟨body, scopes, s, hbody, hsc, hrun, hlocals, hcmds⟩⟩

theorem names_paramsOf {m : MethodDef} {params : List VarDecl} (h : paramsOf m = .ok params) :
    ∀ v ∈ params, v.name = "this" ∨ ∃ q ∈ m.params, v.name = q.name := by
  intro v hv
  have hmem : (v.name, some v.ty) ∈ m.inputs := by
    rw [inputs_of_paramsOf h]
    exact List.mem_map.mpr ⟨v, hv, rfl⟩
  rcases List.mem_append.mp hmem with hthis | hparam
  · split at hthis
    · cases hthis
    · exact .inl (congrArg Prod.fst (List.mem_singleton.mp hthis))
  · obtain ⟨q, hq, heq⟩ := List.mem_map.mp hparam
    exact .inr ⟨q, hq, (congrArg Prod.fst heq).symm⟩

theorem returnsOf_eq {m : MethodDef} {rs : List VarDecl} (h : returnsOf m = .ok rs) :
    rs = [] ∨ ∃ ty, rs = [⟨resultVar, ty⟩] := by
  unfold returnsOf at h
  split at h
  · cases h
    exact .inl rfl
  · cases hty : irTy m.ret {} with
    | ok ty =>
      rw [hty] at h
      cases h
      exact .inr ⟨ty, rfl⟩
    | error e =>
      rw [hty] at h
      cases h

/-- Nothing is declared at the start, and the names of the parameters and of the result are
taken. -/
theorem startContext_params (scopes : LabelScopes) (params returns : List VarDecl) :
    startContext scopes params returns =
      { params := params.map (·.name) ++ if returns.isEmpty then [] else [resultVar], scopes
        returnVar := if returns.isEmpty then none else some resultVar } := by
  have hfold : ∀ (ps : List VarDecl) (cx : Context),
      ps.foldl (fun cx p => cx.bindParam p.name) cx =
        { cx with params := cx.params ++ ps.map (·.name) } := by
    intro ps
    induction ps with
    | nil => simp
    | cons p ps ih =>
      intro cx
      rw [List.foldl_cons, ih]
      simp [Context.bindParam]
  unfold startContext
  rw [hfold]
  split <;> simp [Context.setReturnVar, Context.bindParam]

/-! ## Declarations of a procedure -/

/-- The variables of a procedure are declared once and do not clash. -/
structure DeclaresOnce (p : Procedure) : Prop where
  nodup : (p.locals.map (·.name)).Nodup
  params : ∀ v ∈ p.locals, v.name ∉ p.params.map (·.name)
  returns : ∀ v ∈ p.locals, v.name ∉ p.returns.map (·.name)
  /-- What the body uses is declared. -/
  declared : ∀ x ∈ p.vars, isGenerated x = true →
    x = Ir.exceptionVar ∨ x ∈ (p.locals ++ p.returns).map (·.name)
  labels : ∀ v ∈ p.locals, v.name = labelVar ∨ (∃ k : Nat, v.name = "$savedLabel" ++ toString k) →
    v.ty = .int
  exceptions : ∀ v ∈ p.locals, (∃ k : Nat, v.name = "$localExc" ++ toString k) ∨
    (∃ k : Nat, v.name = "$savedExc" ++ toString k) → v.ty = .ref

/-- Nothing is declared when a body starts. -/
theorem tidy_startContext {m : MethodDef} {params returns : List VarDecl} (models : Bool)
    (scopes : LabelScopes) (shared : Shared) (hparams : paramsOf m = .ok params)
    (hgenerated : ∀ q ∈ m.params, isGenerated q.name = false) :
    State.Tidy models ⟨startContext scopes params returns, shared⟩ := by
  rw [startContext_params]
  refine ⟨List.nodup_nil, List.forall_mem_nil _, List.forall_mem_nil _, fun x hx => ?_,
    fun _ _ _ h => (by cases h), covers_nil, covers_nil, List.forall_mem_nil _, fun _ => rfl⟩
  rcases List.mem_append.mp hx with hx | hx
  · obtain ⟨v, hv, rfl⟩ := List.mem_map.mp hx
    rcases names_paramsOf hparams v hv with hthis | ⟨q, hq, hname⟩
    · exact .inl (hthis ▸ by decide)
    · exact .inl (hname ▸ hgenerated q hq)
  · split at hx
    · cases hx
    · exact .inr (List.mem_singleton.mp hx)

theorem Slot.Suits.eq_int {models : Bool} {slot : Slot} {ty : Ir.Ty} (h : slot.Suits models ty)
    (hproper : slot.Proper)
    (hname : slot.name = labelVar ∨ ∃ k : Nat, slot.name = "$savedLabel" ++ toString k) :
    ty = .int := by
  rcases hname with hname | ⟨k, hname⟩
  · obtain rfl : slot = .label := Slot.name_inj hproper trivial hname
    exact h.2
  · obtain rfl : slot = .savedLabel k := Slot.name_inj hproper trivial hname
    exact h.2

theorem Slot.Suits.eq_ref {models : Bool} {slot : Slot} {ty : Ir.Ty} (h : slot.Suits models ty)
    (hproper : slot.Proper)
    (hname : (∃ k : Nat, slot.name = "$localExc" ++ toString k) ∨
      ∃ k : Nat, slot.name = "$savedExc" ++ toString k) : ty = .ref := by
  rcases hname with ⟨k, hname⟩ | ⟨k, hname⟩
  · obtain rfl : slot = .caught k := Slot.name_inj hproper trivial hname
    exact h.2
  · obtain rfl : slot = .savedExc k := Slot.name_inj hproper trivial hname
    exact h.2

/-- The variables that the lowering of a method adds are declared once, with the types of their
kinds. -/
theorem declaresOnce_lowerMethod {env : Env} {owner : TypeDef} {m : MethodDef}
    {shared shared' : Shared} {p : Procedure} (hnames : m.NoGeneratedNames)
    (h : Runs (lowerMethod env owner m) shared p shared') : DeclaresOnce p := by
  obtain ⟨hparams, hreturns, ⟨hlocals, hbody⟩ | ⟨body, scopes, s, hfrom⟩⟩ := procedure_of_runs h
  · have hvars : p.vars = [] := by rw [Procedure.vars, hbody]; rfl
    refine ⟨?_, ?_, ?_, ?_, ?_, ?_⟩ <;> simp [hlocals, hvars]
  have hbody : OrdinaryIn body.statements := fun t ht x hx =>
    hnames.2 body hfrom.body_eq x (List.mem_flatMap_of_mem ht hx)
  obtain ⟨ht, hg, -⟩ := (declares_breadcrumb.bind fun _ => declares_lowerStmt body hbody).run
    (tidy_startContext _ scopes _ hparams hnames.1) (Nat.zero_le _) covers_nil hfrom.runs
  have hreserved : s.params = p.params.map (·.name) ++
      (if p.returns.isEmpty then [] else [resultVar]) := by
    rw [hg.params, startContext_params]
  have hresult : p.returns.map (·.name) = if p.returns.isEmpty then [] else [resultVar] := by
    obtain hrs | ⟨ty, hrs⟩ := returnsOf_eq hreturns <;> rw [hrs] <;> rfl
  have hreturnVar : s.returnVar.toList = p.returns.map (·.name) := by
    rw [hg.returnVar, startContext_params, hresult]
    split <;> rfl
  rw [← hresult] at hreserved
  have hvars : p.vars = Ir.Cmd.allVars s.cmds := by rw [Procedure.vars, hfrom.cmds_eq]; rfl
  refine ⟨?_, ?_, ?_, fun x hx hgen => ?_, ?_, ?_⟩ <;> rw [hfrom.locals_eq]
  · exact ht.nodup
  · exact fun v hv hmem => ht.apart v hv (hreserved ▸ List.mem_append_left _ hmem)
  · exact fun v hv hmem => ht.apart v hv (hreserved ▸ List.mem_append_right _ hmem)
  · rcases ht.cmds x (hvars ▸ hx) with (hplain | ⟨-, hexc⟩) | hdeclared
    · rw [hplain] at hgen
      cases hgen
    · exact .inl hexc
    · rw [State.names, hreturnVar] at hdeclared
      rw [List.map_append]
      exact .inr (List.mem_append.mpr (List.mem_append.mp hdeclared).symm)
  · intro v hv hname
    obtain ⟨slot, hproper, heq, hsuits⟩ := ht.suits v hv
    exact hsuits.eq_int hproper (heq ▸ hname)
  · intro v hv hname
    obtain ⟨slot, hproper, heq, hsuits⟩ := ht.suits v hv
    exact hsuits.eq_ref hproper (heq ▸ hname)

/-- A method that keeps an intermediate value, and what it has caught while it cleans up. -/
def careful : MethodDef where
  name := "careful"
  params := [⟨"n", .int⟩]
  ret := .int
  body :=
    let self : Expr := .ofKind .self (.named ⟨"T", none⟩)
    let get : Expr := .ofCall (.direct ⟨⟨"T", none⟩, "get", []⟩ (some self) []) .int
    let ret : Stmt := .ofKind (.ret (some (.var "m" .int)))
    some (.block [.ofKind (.localDecl ⟨"m", .int⟩ (some (.int 0))),
      .withId (.ofKind (.tryCatch
        (.expr (.assign (.var "m") (.binary .add (.var "n" .int) get .int)))
        [⟨{}, some ⟨"E", none⟩, some ⟨"e", .named ⟨"E", none⟩⟩, .ofKind .rethrow⟩] (some ret))) 3,
      ret])

theorem careful_declaresOnce : ∃ p shared', Runs (lowerMethod {} ⟨⟨"T", none⟩, .classType, [], [],
      [], [], []⟩ careful) {} p shared' ∧ DeclaresOnce p ∧
    p.locals.map (·.name) = ["m", "$tmp0", "$tmp1", "$label", "$localExc0", "e", "$savedExc2",
      "$savedLabel3"] := by
  have hok : ((lowerMethod {} ⟨⟨"T", none⟩, .classType, [], [], [], [], []⟩ careful).run
      {}).1.toBool = true := by decide +kernel
  have hlocals : ((lowerMethod {} ⟨⟨"T", none⟩, .classType, [], [], [], [], []⟩ careful).run
      {}).1.toOption.map (·.locals.map (·.name)) = some ["m", "$tmp0", "$tmp1", "$label",
        "$localExc0", "e", "$savedExc2", "$savedLabel3"] := by decide +kernel
  have hnames : careful.NoGeneratedNames := by
    refine ⟨by decide, ?_⟩
    rintro body ⟨⟩
    decide +kernel
  obtain ⟨p, shared', h⟩ := exists_ok_of_toBool hok
  rw [h] at hlocals
  exact ⟨p, shared', h, declaresOnce_lowerMethod hnames h, Option.some.inj hlocals⟩

end Unwind.Lowering
