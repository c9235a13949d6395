import Mathlib
import Unwind.Proofs.JumpTargets
import Unwind.Proofs.Dispatch.Idempotence
import Unwind.Proofs.Operands.Bodies

/-!
# Operands of transformed methods

A method is lowered with its own body or with what its body is transformed to. Where no replaced
call pops an operand in its arguments, the second lowering succeeds when the first one does, and
both bodies do the same to the operands, event by event (`transform_keeps_operands`). A `pop` in an
argument of a replaced call is copied into every branch of the cascade and takes an operand in each
of them, so that there may be too few (`exists_operands_exhausted`).
-/

namespace Unwind.Operands

open Dispatch (Bound Leads Receiver SettledNode chain declareAll isExempt isExempt_dispatched
  resultType transform)
open Lowering
open Source (Expr MethodDef Program Stmt Ty TypeDef takes)

/-! ## Methods -/

/-- The method is lowered to `p`, and `ops` are the operands that its body leaves. -/
structure Accepted (env : Env) (owner : TypeDef) (m : MethodDef) (shared : Shared)
    (p : Ir.Procedure) (ops : List Ir.Expr) : Prop where
  runs : ∃ shared', Runs (lowerMethod env owner m) shared p shared'
  left : ∃ body params returns scopes s, Prepared m body params returns scopes ∧
    Runs (do breadcrumb env; lowerStmt env body)
      ⟨startContext scopes params returns, announce owner m shared⟩ () s ∧ s.operands = ops

/-- The method with another body. -/
def withBody (m : MethodDef) (body : Stmt) : MethodDef := { m with body := some body }

section

variable {env : Env} {owner : TypeDef} {m m' : MethodDef} {body body' : Stmt}
  {params returns : List Ir.VarDecl} {scopes : LabelScopes} {shared shared' : Shared}
  {p : Ir.Procedure} {s : State}

/-- A body that is lowered to its end is that of an accepted method. -/
theorem accepted_of_runs (hm : Prepared m body params returns scopes)
    (hrun : Runs (do breadcrumb env; lowerStmt env body)
      ⟨startContext scopes params returns, announce owner m shared⟩ () s)
    (hp : finished owner m params returns s.toContext = .ok p) :
    Accepted env owner m shared p s.operands := by
  refine ⟨⟨s.toShared, ?_⟩, body, params, returns, scopes, s, hm, hrun, rfl⟩
  unfold Runs
  rw [run_lowerMethod hm hrun]
  exact congrArg (·, s.toShared) hp

/-- The body of an accepted method is lowered to its end. -/
theorem exists_runs_of_lowerMethod (hbody : m.body = some body)
    (h : Runs (lowerMethod env owner m) shared p shared') :
    ∃ params returns scopes s, Prepared m body params returns scopes ∧
      Runs (do breadcrumb env; lowerStmt env body)
        ⟨startContext scopes params returns, announce owner m shared⟩ () s ∧
      finished owner m params returns s.toContext = .ok p := by
  obtain ⟨hparams, hreturns, scopes, s, hscopes, hrun, -⟩ := runs_lowerMethod hbody h
  have hm : Prepared m body p.params p.returns scopes := ⟨hbody, hparams, hreturns, hscopes⟩
  unfold Runs at h
  rw [run_lowerMethod hm hrun] at h
  exact ⟨p.params, p.returns, scopes, s, hm, hrun, congrArg Prod.fst h⟩

/-- Whether a context can be finished can be told from its control. -/
theorem Parallel.finished {cx cx' : Context} (h : Parallel cx cx')
    (hp : finished owner m params returns cx = .ok p) :
    ∃ p', finished owner m' params returns cx' = .ok p' := by
  unfold Lowering.finished Context.finish at hp ⊢
  rw [stack_of_control h.control]
  split at hp
  · next hempty => exact ⟨_, by rw [if_pos hempty]; rfl⟩
  · cases hp

theorem operands_startContext : (startContext scopes params returns).operands = [] := by
  obtain ⟨names, slot, -, heq⟩ := startContext_eq scopes params returns
  rw [heq]

/-- A body plays its events, from no operands to those that it leaves. -/
theorem plays_of_runs (hvoids : CallsIfVoid body.statements)
    (hrun : Runs (do breadcrumb env; lowerStmt env body)
      ⟨startContext scopes params returns, announce owner m shared⟩ () s) :
    Plays (body.events env.options.modelsExceptions) [] s.operands := by
  have hplays := (Performs.next (Modes.Keeps.breadcrumb) fun _ =>
    lowerStmt_performs body hvoids).plays hrun
  rwa [operands_startContext] at hplays

end

/-- A method with a body that is transformed. When no replaced call pops in its arguments and the
method is lowered as it stands, it is also lowered with the transformed body. That one has the same
pushes and pops in the same order, and each lowering plays them: every `pop` takes the operand of a
`push`, of the same one in both, and equally many operands are left. -/
theorem transform_keeps_operands {env : Env} {owner : TypeDef} {m : MethodDef} {h : Hierarchy}
    {body body' : Stmt} {σ σ' : Dispatch.State} {p : Ir.Procedure} {shared shared' : Shared}
    (hbody : m.body = some body) (hchecked : ∀ n ∈ body.nodes, Checked h n)
    (hquiet : ∀ n ∈ body.nodes, QuietArgs h n) (hreceivers : HoldValues σ.receivers)
    (htransform : (transform h body).run σ = (.ok body', σ'))
    (hlower : (lowerMethod env owner m).run shared = (.ok p, shared')) :
    body'.events env.options.modelsExceptions = body.events env.options.modelsExceptions ∧
      (∀ take ∈ takes (body.events env.options.modelsExceptions) [], take.2.isSome = true) ∧
      ∃ ops, Accepted env owner m shared p ops ∧
        Plays (body.events env.options.modelsExceptions) [] ops ∧
        ∀ shared₂, ∃ p' ops', Accepted env owner (withBody m body') shared₂ p' ops' ∧
          Plays (body'.events env.options.modelsExceptions) [] ops' ∧
          ops'.length = ops.length := by
  have hfit : ∀ n ∈ body.nodes, Fit h n := fun n hn => ⟨hchecked n hn, hquiet n hn⟩
  have hvoids : CallsIfVoid body.statements := fun t ht =>
    voids_of_fit fun n hn => hfit n (List.mem_flatMap.mpr ⟨t, ht, hn⟩)
  have ht : Transfers env body body' := transform_transfers hfit hreceivers htransform
  obtain ⟨params, returns, scopes, s, hm, hrun, hp⟩ := exists_runs_of_lowerMethod hbody hlower
  have hplays := plays_of_runs hvoids hrun
  refine ⟨ht.events, hplays.takes_isSome rfl, s.operands, accepted_of_runs hm hrun hp, hplays,
    fun shared₂ => ?_⟩
  -- the other body is lowered from the same context
  have hm' : Prepared (withBody m body') body' params returns scopes :=
    ⟨rfl, hm.params_eq, hm.returns_eq, (ht.visited none {}).trans hm.scopes_eq⟩
  have hstep : InStep (do breadcrumb env; lowerStmt env body)
      (do breadcrumb env; lowerStmt env body') :=
    Follows.next (.idle .breadcrumb .breadcrumb) fun _ _ => ht.lowered
  have hstart : Parallel
      (⟨startContext scopes params returns, announce owner m shared⟩ : State).toContext
      (⟨startContext scopes params returns, announce owner (withBody m body') shared₂⟩ :
        State).toContext := ⟨rfl, rfl⟩
  obtain ⟨_, s', hrun', -, hparallel⟩ := hstep.run hstart hrun
  obtain ⟨p', hp'⟩ := hparallel.finished hp
  exact ⟨p', s'.operands, accepted_of_runs hm' hrun' hp', plays_of_runs ht.voids hrun',
    hparallel.operands⟩

/-! ## A call that pops -/

/-- A class with a method that is overridden. -/
def scales : Program :=
  let scale : MethodDef := { name := "scale", params := [⟨"by", .int⟩], isVirtual := true }
  { types := [
      { name := ⟨"Shape", none⟩, kind := .classType, methods := [scale] },
      { name := ⟨"Round", none⟩, kind := .classType, baseClasses := [⟨"Shape", none⟩],
        methods := [scale] }] }

def canvas : TypeDef := { name := ⟨"Canvas", none⟩, kind := .classType }

def shapeVar : Expr := .var "s" (.named ⟨"Shape", none⟩)

def popOf (ty : Ty) : Expr := .ofKind .pop ty

def scaleCall (receiver arg : Expr) : Expr :=
  .ofCall (.dispatched ⟨⟨"Shape", none⟩, "scale", [.int]⟩ receiver [arg]) .void

/-- Push a value, then scale a shape. -/
def pushAndScale (pushed receiver arg : Expr) : Stmt :=
  .block [.ofKind (.push pushed), .expr (scaleCall receiver arg)]

/-- A method whose parameter is the shape. -/
def scaling (body : Stmt) : MethodDef :=
  { name := "scaling", params := [⟨"s", .named ⟨"Shape", none⟩⟩], isStatic := true,
    body := some body }

section

variable {pushed receiver arg : Expr}

theorem scales_index : (Hierarchy.ofProgram scales).index =
    ⟨[⟨⟨"Shape", none⟩, [⟨"Round", none⟩]⟩]⟩ := by
  cbv

theorem scaleCall_not_exempt : isExempt (.ofProgram scales)
    (.dispatched ⟨⟨"Shape", none⟩, "scale", [.int]⟩ receiver [arg]) = false :=
  isExempt_dispatched (by decide) (by decide) (by rw [scales_index]; decide)

theorem scales_resolve :
    (Hierarchy.ofProgram scales).resolve ⟨⟨"Shape", none⟩, "scale", [.int]⟩ =
      .ok [⟨⟨"Round", none⟩, ⟨⟨"Round", none⟩, "scale", [.int]⟩⟩] := by
  cbv

/-- The body with the cascade in the place of the call. -/
theorem pushAndScale_leads (pushed receiver arg : Expr) {bound : Receiver}
    {vs : List Source.Variable} {σ : Dispatch.State}
    (hparts : ∀ n ∈ pushed.nodes ++ (receiver.nodes ++ arg.nodes), n.call? = none)
    (hbound : Bound σ.receivers receiver bound vs) :
    ∃ cascade, chain (.ofProgram scales)
        (.dispatched ⟨⟨"Shape", none⟩, "scale", [.int]⟩ receiver [arg]) .void {} bound
        [⟨⟨"Round", none⟩, ⟨⟨"Round", none⟩, "scale", [.int]⟩⟩] = .statement cascade ∧
      Leads (transform (.ofProgram scales) (pushAndScale pushed receiver arg)) σ
        (.ok (declareAll vs (.block [.ofKind (.push pushed), cascade])))
        { σ with receivers := [], replaced := σ.replaced + 1 } := by
  have hsettled : ∀ n ∈ pushed.nodes ++ (receiver.nodes ++ arg.nodes),
      SettledNode (.ofProgram scales) n := fun n hn call hcall => by
    cases (hparts n hn).symm.trans hcall
  obtain ⟨hpushed, hoperands⟩ := List.forall_mem_append.mp hsettled
  have hpush : Leads (Dispatch.expandStmt (.ofProgram scales) (.ofKind (.push pushed))) σ
      (.ok (.ofKind (.push pushed))) σ :=
    (Dispatch.expandExpr_leaves pushed hpushed σ).bind fun log => ⟨log, rfl⟩
  have hin : ∀ n ∈ receiver.nodes ++ (arg.nodes ++ []), SettledNode (.ofProgram scales) n := by
    rwa [List.append_nil]
  obtain ⟨cascade, hchain, hleads⟩ :=
    Dispatch.expandExprStmt_dispatched 0 {} (e := scaleCall receiver arg) rfl hin
      ⟨scaleCall_not_exempt, rfl, scales_resolve, List.cons_ne_nil _ _, hbound⟩
  have hscale : Leads (Dispatch.expandStmt (.ofProgram scales) (.expr (scaleCall receiver arg))) σ
      (.ok cascade) { σ with receivers := vs, replaced := σ.replaced + 1 } := hleads
  exact ⟨cascade, hchain, (hpush.cons hscale.singleton).block.transform⟩

theorem mem_nodes_pushAndScale {n : Expr} (hn : n ∈ (pushAndScale pushed receiver arg).nodes) :
    n = scaleCall receiver arg ∨ n ∈ pushed.nodes ++ (receiver.nodes ++ arg.nodes) := by
  change n ∈ [] ++ ((pushed.nodes ++ []) ++
    ((scaleCall receiver arg :: (receiver.nodes ++ (arg.nodes ++ [])) ++ []) ++ [])) at hn
  simp only [List.append_nil, List.nil_append, List.mem_append, List.mem_cons] at hn ⊢
  tauto

theorem pushAndScale_checked
    (hparts : ∀ n ∈ pushed.nodes ++ (receiver.nodes ++ arg.nodes),
      n.call? = none ∧ n.ty.isVoid = false) (hreceiver : receiver.ty.isVoid = false) :
    ∀ n ∈ (pushAndScale pushed receiver arg).nodes, Checked (Hierarchy.ofProgram scales) n := by
  intro n hn
  obtain rfl | hn := mem_nodes_pushAndScale hn
  · have hresult : resultType (Hierarchy.ofProgram scales) ⟨⟨"Round", none⟩, "scale", [.int]⟩
        .void = .void := by decide
    refine ⟨fun _ => rfl, fun hcall he => ?_, fun hcall hos => ?_⟩
    · cases hcall
      cases he
      exact hreceiver
    · cases hcall
      cases (Eq.symm scales_resolve).trans hos
      exact List.forall_mem_singleton.mpr (congrArg Ty.isVoid hresult)
  · obtain ⟨hcall, hty⟩ := hparts n hn
    refine ⟨callIfVoid_of_ty hty, fun h => ?_, fun h => ?_⟩ <;> cases hcall.symm.trans h

end

/-- As they stand, both bodies are lowered. -/
theorem scaling_lowered :
    ((lowerMethod {} canvas
      (scaling (pushAndScale shapeVar (popOf shapeVar.ty) (.int 1)))).run {}).1.toBool = true ∧
    ((lowerMethod {} canvas
      (scaling (pushAndScale (.int 1) shapeVar (popOf .int)))).run {}).1.toBool = true := by
  constructor <;> decide +kernel

/-- A shape that is popped is taken by the first test, and is bound for the others. -/
theorem scaling_keeps_operands :
    let h := Hierarchy.ofProgram scales
    let body := pushAndScale shapeVar (popOf shapeVar.ty) (.int 1)
    ∃ body' σ' p ops, (transform h body).run {} = (.ok body', σ') ∧ σ'.replaced = 1 ∧
      body'.events true = body.events true ∧ Accepted {} canvas (scaling body) {} p ops ∧
      ∃ p' ops', Accepted {} canvas (withBody (scaling body) body') {} p' ops' ∧
        ops'.length = ops.length := by
  intro h body
  have hchecked : ∀ n ∈ body.nodes, Checked h n := pushAndScale_checked (by decide) rfl
  have hquiet : ∀ n ∈ body.nodes, QuietArgs h n := by
    intro n hn call hcall _
    obtain rfl | hn := mem_nodes_pushAndScale hn
    · cases hcall
      rfl
    · have hnone : ∀ n ∈ shapeVar.nodes ++ ((popOf shapeVar.ty).nodes ++ (Expr.int 1).nodes),
          n.call? = none := by decide
      cases (hnone n hn).symm.trans hcall
  have hnone : HoldValues ({} : Dispatch.State).receivers := List.forall_mem_nil _
  obtain ⟨p, shared', hlower⟩ := exists_ok_of_toBool scaling_lowered.1
  obtain ⟨cascade, -, hleads⟩ :=
    pushAndScale_leads shapeVar (popOf shapeVar.ty) (.int 1) (σ := {}) (by decide) (.named rfl)
  obtain ⟨log, htransform⟩ := hleads #[]
  obtain ⟨hevents, -, ops, haccepted, -, hother⟩ :=
    transform_keeps_operands rfl hchecked hquiet hnone htransform hlower
  obtain ⟨p', ops', haccepted', -, hlength⟩ := hother {}
  exact ⟨_, _, p, ops, htransform, rfl, hevents, haccepted, p', ops', haccepted', hlength⟩

/-- The pop in the argument is lowered once for the override and once for the method itself. -/
theorem exists_operands_exhausted :
    ¬ ∀ (env : Env) (owner : TypeDef) (m : MethodDef) (h : Hierarchy) (body body' : Stmt)
      (σ σ' : Dispatch.State) (p : Ir.Procedure) (shared shared' : Shared), m.body = some body →
      (∀ n ∈ body.nodes, Checked h n) → HoldValues σ.receivers →
      (transform h body).run σ = (.ok body', σ') →
      (lowerMethod env owner m).run shared = (.ok p, shared') →
      ∃ p' shared'',
        (lowerMethod env owner (withBody m body')).run shared = (.ok p', shared'') := by
  intro hall
  let h := Hierarchy.ofProgram scales
  let body := pushAndScale (.int 1) shapeVar (popOf .int)
  have hchecked : ∀ n ∈ body.nodes, Checked h n := pushAndScale_checked (by decide) rfl
  have hnone : HoldValues ({} : Dispatch.State).receivers := List.forall_mem_nil _
  obtain ⟨p, shared', hlower⟩ := exists_ok_of_toBool scaling_lowered.2
  obtain ⟨cascade, hchain, hleads⟩ :=
    pushAndScale_leads (.int 1) shapeVar (popOf .int) (σ := {}) (by decide) (.reused rfl)
  cases hchain
  obtain ⟨log, htransform⟩ := hleads #[]
  obtain ⟨p', shared'', haccepted⟩ :=
    hall {} canvas (scaling body) h body _ {} _ p {} shared' rfl hchecked hnone htransform hlower
  -- the body plays a push and two pops, and the one operand is popped twice
  obtain ⟨_, _, _, s, -, hrun, -⟩ := exists_runs_of_lowerMethod rfl haccepted
  have hplays := plays_of_runs (by decide) hrun
  cases hplays with
  | push hpops =>
    cases hpops with
    | pop hpop => cases hpop

end Unwind.Operands
