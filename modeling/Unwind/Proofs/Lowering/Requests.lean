import Unwind.Proofs.Lowering.Correspondence
import Unwind.Proofs.Talks

/-!
# Lowerings as talks

All that a lowering knows about the registry is the answers to its requests. `Shares` says that two
steps of a lowering are one and the same talk with the registry; it is a correspondence between
lowerings whose options differ at most in the number of workers (`talking`). A lowered method is
therefore a talk (`lowerMethod_performs`), and it is the same talk in every environment that models
the same things. Without breadcrumbs and state markers it asks for helpers only
(`Env.asks_lookups`).
-/

namespace Unwind.Lowering

open Ir (Cmd Procedure)
open Source (MethodDef TypeDef)

/-! ## Steps that are talks -/

/-- In the context `cx` the step `x` is the talk `t`; `f` reads the result of the step off that of
the talk. -/
def Speaks {α γ : Type} (x : Lower α) (cx : Context) (t : Talk (Except Fault (γ × Context)))
    (f : γ → α) : Prop :=
  ∀ shared : Shared, ∃ (cx' : Context) (log : Log),
    x.run ⟨cx, shared⟩ = ((t.run shared.registry).1.map fun c => f c.1,
      ⟨cx', (t.run shared.registry).2, log⟩) ∧
    ∀ c, (t.run shared.registry).1 = .ok c → cx' = c.2

/-- Both steps are one talk, and their results are related. -/
def Shares {α β : Type} (may : Request → Prop) (R : α → β → Prop) (x : Lower α) (y : Lower β) :
    Prop :=
  ∀ cx, ∃ t : Talk (Except Fault ({ab : α × β // R ab.1 ab.2} × Context)), t.Only may ∧
    Speaks x cx t (·.1.1) ∧ Speaks y cx t (·.1.2)

section

variable {α β α' β' γ γ' : Type} {may : Request → Prop}

/-- A talk goes on when its first part succeeded. -/
def goOn (next : γ → Context → Talk (Except Fault (γ' × Context))) :
    Except Fault (γ × Context) → Talk (Except Fault (γ' × Context))
  | .ok c => next c.1 c.2
  | .error e => .done (.error e)

theorem Speaks.bind {x : Lower α} {f : α → Lower α'} {cx : Context}
    {t : Talk (Except Fault (γ × Context))} {g : γ → α} {g' : γ' → α'}
    {next : γ → Context → Talk (Except Fault (γ' × Context))} (h : Speaks x cx t g)
    (h' : ∀ c cx', Speaks (f (g c)) cx' (next c cx') g') :
    Speaks (x >>= f) cx (t.bind (goOn next)) g' := by
  intro shared
  obtain ⟨cx₁, log₁, hx, hcx⟩ := h shared
  rw [run_bind, hx, Talk.run_bind]
  cases hr : (t.run shared.registry).1 with
  | error e => exact ⟨cx₁, log₁, rfl, nofun⟩
  | ok c =>
    obtain rfl := hcx c hr
    exact h' c.1 c.2 ⟨(t.run shared.registry).2, log₁⟩

/-- A step that asks for nothing and does not fail. -/
theorem speaks_done {x : Lower α} {cx cx' : Context} {g : γ → α} {c : γ}
    (h : ∀ shared, ∃ log, x.run ⟨cx, shared⟩ = (.ok (g c), ⟨cx', shared.registry, log⟩)) :
    Speaks x cx (.done (.ok (c, cx'))) g := by
  intro shared
  obtain ⟨log, hx⟩ := h shared
  exact ⟨cx', log, hx, fun c hc => by cases hc; rfl⟩

/-- A buffered step asks for what the step asks for. -/
theorem Speaks.buffered {x : Lower α} {cx : Context} {t : Talk (Except Fault (γ × Context))}
    {g : γ → α} {g' : γ' → α × List Cmd} (pair : γ → List Cmd → γ')
    (h : Speaks x { cx with cmds := [] } t g) (hpair : ∀ c cs, g' (pair c cs) = (g c, cs)) :
    Speaks (buffered x) cx (t.bind (goOn fun c cx' =>
      .done (.ok (pair c cx'.cmds, { cx' with cmds := cx.cmds })))) g' := by
  intro shared
  obtain ⟨cx₁, log₁, hx, hcx⟩ := h shared
  have hrun : (Lowering.buffered x).run ⟨cx, shared⟩ = _ := run_buffered hx
  rw [hrun, Talk.run_bind]
  cases hr : (t.run shared.registry).1 with
  | error e => exact ⟨{ cx₁ with cmds := cx.cmds }, log₁, rfl, nofun⟩
  | ok c =>
    obtain rfl := hcx c hr
    refine ⟨{ c.2 with cmds := cx.cmds }, log₁, ?_, fun c' hc => by cases hc; rfl⟩
    show (Except.ok (g c.1, c.2.cmds), _) = (Except.ok (g' (pair c.1 c.2.cmds)), _)
    rw [hpair]
    rfl

namespace Shares

variable {R : α → β → Prop} {R' : α' → β' → Prop}

/-- Steps that ask for nothing and do not fail. -/
theorem of_silent {x : Lower α} {y : Lower β}
    (h : ∀ cx, ∃ a b cx', R a b ∧
      (∀ shared, ∃ log, x.run ⟨cx, shared⟩ = (.ok a, ⟨cx', shared.registry, log⟩)) ∧
      ∀ shared, ∃ log, y.run ⟨cx, shared⟩ = (.ok b, ⟨cx', shared.registry, log⟩)) :
    Shares may R x y := by
  intro cx
  obtain ⟨a, b, cx', hab, hx, hy⟩ := h cx
  exact ⟨.done (.ok (⟨(a, b), hab⟩, cx')), .done _, speaks_done hx, speaks_done hy⟩

theorem pure {a : α} {b : β} (h : R a b) : Shares may R (Pure.pure a) (Pure.pure b) :=
  of_silent fun cx =>
    ⟨a, b, cx, h, fun shared => ⟨shared.log, rfl⟩, fun shared => ⟨shared.log, rfl⟩⟩

theorem bind {x : Lower α} {y : Lower β} {f : α → Lower α'} {g : β → Lower β'}
    (h : Shares may R x y) (h' : ∀ a b, R a b → Shares may R' (f a) (g b)) :
    Shares may R' (x >>= f) (y >>= g) := by
  intro cx
  obtain ⟨t, ht, hx, hy⟩ := h cx
  choose next hnext hf hg using fun (c : {ab : α × β // R ab.1 ab.2}) => h' c.1.1 c.1.2 c.2
  refine ⟨t.bind (goOn next), ht.bind fun r => ?_, hx.bind hf, hy.bind hg⟩
  cases r with
  | ok c => exact hnext c.1 c.2
  | error e => exact .done _

theorem throw {e : Fault} :
    Shares may R (MonadExcept.throw e : Lower α) (MonadExcept.throw e : Lower β) := by
  intro cx
  refine ⟨.done (.error e), .done _, ?_, ?_⟩
  · exact fun shared => ⟨cx, shared.log, rfl, nofun⟩
  · exact fun shared => ⟨cx, shared.log, rfl, nofun⟩

/-- The same step on both sides. -/
theorem silent {x : Lower α} (f : Context → α × Context)
    (h : ∀ cx shared, ∃ log,
      x.run ⟨cx, shared⟩ = (.ok (f cx).1, ⟨(f cx).2, shared.registry, log⟩)) :
    Shares may Eq x x :=
  of_silent fun cx => ⟨(f cx).1, (f cx).1, (f cx).2, rfl, h cx, h cx⟩

theorem buffered {x : Lower α} {y : Lower β} (h : Shares may R x y) {tight : Bool} :
    Shares may (fun a b => R a.1 b.1 ∧ Edited (fun c => [c]) tight a.2 b.2)
      (Lowering.buffered x) (Lowering.buffered y) := by
  intro cx
  obtain ⟨t, ht, hx, hy⟩ := h { cx with cmds := [] }
  let pair (c : {ab : α × β // R ab.1 ab.2}) (cs : List Cmd) :
      {ab : (α × List Cmd) × (β × List Cmd) //
        R ab.1.1 ab.2.1 ∧ Edited (fun c => [c]) tight ab.1.2 ab.2.2} :=
    ⟨((c.1.1, cs), (c.1.2, cs)), c.2, (Cmd.edit_same cs).symm, fun _ h => h⟩
  refine ⟨_, ht.bind fun r => ?_, hx.buffered pair fun _ _ => rfl,
    hy.buffered pair fun _ _ => rfl⟩
  cases r with
  | ok c => exact .done _
  | error e => exact .done _

/-- A request that may be made. -/
theorem request {q : Request} (hq : may q) :
    Shares may Eq (withRegistry q.serve) (withRegistry q.serve) := by
  intro cx
  refine ⟨.ask q fun x => .done (.ok (⟨(x, x), rfl⟩, cx)), .ask hq fun _ => .done _, ?_, ?_⟩
  · exact fun shared => ⟨cx, shared.log, rfl, fun c hc => by cases hc; rfl⟩
  · exact fun shared => ⟨cx, shared.log, rfl, fun c hc => by cases hc; rfl⟩

end Shares

end

/-! ## Environments that talk alike -/

/-- The environments differ at most in the number of workers and in parts of the program that no
lowering looks at. -/
structure Env.Alike (env env' : Env) : Prop where
  options : env'.options = { env.options with jobs := env'.options.jobs }
  literal : env'.literal = env.literal
  isStruct : ∀ ty, env'.types.isStruct ty = env.types.isStruct ty
  fileName : ∀ file, env'.program.fileName? file = env.program.fileName? file

/-- What a lowering may ask for: helpers, and numbers for the marks that are switched on. -/
structure Env.Asks (env : Env) (may : Request → Prop) : Prop where
  lookup : ∀ q : Request, q.IsLookup → may q
  breadcrumb : env.options.instrumentBranches = true → may .breadcrumb
  captureState : env.options.captureState = true → may .captureState

theorem Env.asks_anything (env : Env) : env.Asks fun _ => True :=
  ⟨fun _ _ => trivial, fun _ => trivial, fun _ => trivial⟩

theorem Env.asks_lookups {env : Env} (hb : env.options.instrumentBranches = false)
    (hc : env.options.captureState = false) : env.Asks Request.IsLookup := by
  refine ⟨fun _ hq => hq, fun h => ?_, fun h => ?_⟩
  · cases hb.symm.trans h
  · cases hc.symm.trans h

section

variable {env env' : Env} {may : Request → Prop}

/-- The same command on both sides. -/
theorem emit_shares (c : Cmd) : Shares may Eq (emit c) (emit c) :=
  .silent (fun cx => ((), { cx with cmds := cx.cmds ++ [c] })) fun _ shared => ⟨shared.log, rfl⟩

/-- A command that is made from the answer to a request. -/
theorem answered_shares {q : Request} (hq : may q) (c : q.Answer → Cmd) :
    Shares may Eq (withRegistry q.serve >>= fun x => emit (c x))
      (withRegistry q.serve >>= fun x => emit (c x)) := by
  refine .bind (.request hq) ?_
  rintro x _ rfl
  exact emit_shares (c x)

variable (ha : env.Alike env') (hmay : env.Asks may)
include ha hmay

theorem breadcrumb_shares : Shares may Eq (breadcrumb env) (breadcrumb env') := by
  unfold breadcrumb
  rw [ha.options]
  split
  · next h => exact answered_shares (hmay.breadcrumb h) fun n => .marker (.breadcrumb n)
  · exact .pure rfl

theorem record_shares (label : String) (ty : Ir.Ty) (v : Ir.Expr) :
    Shares may Eq (record env label ty v) (record env' label ty v) := by
  unfold record
  rw [ha.options]
  split
  · exact answered_shares (hmay.lookup (.recorder ty) trivial) fun proc =>
      .call [⟨"cexpr", [.str label]⟩] proc [v] []
  · exact .pure rfl

theorem emitMarks_shares (span : Span) (kind : Source.StmtKind) :
    Shares may Eq (emitMarks env span kind) (emitMarks env' span kind) := by
  have hmark : sourceMark env' span = sourceMark env span := by
    unfold sourceMark
    rw [ha.fileName]
  rw [emitMarks_eq, emitMarks_eq, ha.options, hmark]
  split
  · refine .bind (R := Eq) ?_ fun _ _ _ => ?_
    · dsimp only
      split
      · exact emit_shares _
      · exact .pure rfl
    · dsimp only
      split
      · next h =>
        exact answered_shares (hmay.captureState h) fun n =>
          .marker ⟨"captureState", [.str ("s" ++ toString (UInt64.toNat n))]⟩
      · exact .pure rfl
  · exact .pure rfl

/-- Lowerings that are the same talk correspond. -/
def talking : Correspondence env env' where
  leaf c := [c]
  rel _ := Shares may
  leaf_plain _ _ := rfl
  models := by rw [ha.options]; rfl
  literal := ha.literal
  isStruct := ha.isStruct
  pure := .pure
  bind := .bind
  throw := .throw
  loosen := id
  context := .of_silent fun cx =>
    ⟨cx, cx, cx, ⟨cx.cmds, rfl⟩, fun shared => ⟨shared.log, rfl⟩, fun shared => ⟨shared.log, rfl⟩⟩
  withContext := by
    intro _ _ f _
    exact .silent f fun _ shared => ⟨shared.log, rfl⟩
  report := .silent (fun cx => ((), cx)) fun _ _ => ⟨_, rfl⟩
  emitAll := by
    rintro _ cs _ ⟨rfl, -⟩
    rw [Cmd.edit_same]
    exact .silent (fun cx => ((), { cx with cmds := cx.cmds ++ cs })) fun _ shared =>
      ⟨shared.log, rfl⟩
  buffered h := .buffered h
  structCopy := .request (q := .structCopy _) (hmay.lookup _ trivial)
  breadcrumb := breadcrumb_shares ha hmay
  record := record_shares ha hmay _ _ _
  emitMarks := emitMarks_shares ha hmay _ _
  emitAssertion := by
    intro v
    unfold emitAssertion
    rw [ha.options]
    exact emit_shares _

end

/-! ## Methods -/

/-- The talk of a body is the talk of its method. -/
theorem Speaks.performs {env : Env} {owner : TypeDef} {m : MethodDef} {body : Source.Stmt}
    {params returns : List Ir.VarDecl} {scopes : LabelScopes} {γ : Type}
    {t : Talk (Except Fault (γ × Context))} {f : γ → Unit}
    (hm : Prepared m body params returns scopes)
    (h : Speaks (do breadcrumb env; lowerStmt env body) (startContext scopes params returns) t f) :
    Talk.Performs (t.bind fun r => .done (r.bind fun c => finished owner m params returns c.2))
      (lowerMethod env owner m).run := by
  intro shared
  obtain ⟨cx, log, hrun, hcx⟩ := h (announce owner m shared)
  refine ⟨log, (run_lowerMethod hm hrun).trans ?_⟩
  rw [Talk.run_bind]
  show _ = (Except.bind (t.run (announce owner m shared).registry).1 _, _)
  cases hr : (t.run (announce owner m shared).registry).1 with
  | error e => rfl
  | ok c =>
    rw [hcx c hr]
    rfl

/-- A method is lowered by one talk, the same in all environments that are alike. -/
theorem lowerMethod_performs {env env' : Env} {may : Request → Prop} (ha : env.Alike env')
    (hmay : env.Asks may) {owner owner' : TypeDef} (ho : owner'.name = owner.name)
    (m : MethodDef) :
    ∃ t : Talk (Except Fault Procedure), t.Only may ∧ t.Performs (lowerMethod env owner m).run ∧
      t.Performs (lowerMethod env' owner' m).run := by
  rcases decided_or_prepared m owner.name with ⟨r, -, hrun⟩ | ⟨body, params, returns, scopes, hm⟩
  · exact ⟨.done r, .done r, hrun env owner rfl, hrun env' owner' ho⟩
  · let C := talking ha hmay
    have hbody : Shares may Eq (do breadcrumb env; lowerStmt env body)
        (do breadcrumb env'; lowerStmt env' body) :=
      C.andThen C.breadcrumb fun _ _ => C.lowerStmt body
    obtain ⟨t, ht, hx, hy⟩ := hbody (startContext scopes params returns)
    have hsame : finished owner' m params returns = finished owner m params returns := by
      unfold finished
      rw [ho]
    refine ⟨_, ht.bind fun _ => .done _, hx.performs hm, ?_⟩
    rw [← hsame]
    exact hy.performs hm

end Unwind.Lowering
