import Unwind.Proofs.Lowering.Correspondence

/-!
# Marks and weakened checks

Breadcrumbs, state markers, source positions and recordings are put into the code as commands with
notes. Striking out every command that carries a note gives exactly the code that is lowered without
them, with the same variables and the same labels, and weakening the checks that carry no note gives
exactly the code that is lowered when checks are weakened (`lowerMethod_marks_transparent`).

The lowerings are followed side by side. Their states differ in the commands, in the log, and in
what the marks have taken from the registry; `SideBySide` says that two steps from such states end
in such states again, that both succeed or fail with the same fault, and that the commands of one
are those of the other one, edited.
-/

namespace Unwind

/-! ## Options and edits -/

namespace Options

/-- Without marks and recordings. -/
def quiet (o : Options) : Options :=
  { o with
    instrumentBranches := false
    recordValues := false
    captureState := false
    emitSourceContext := false }

/-- With checks weakened to assumptions. -/
def weakened (o : Options) : Options := { o with getMeHere := true }

end Options

namespace Ir

namespace Cmd

/-- The notes on a command. -/
def notes : Cmd → List Attr
  | assert _ attrs | assume _ attrs | call attrs .. => attrs
  | assign .. | ifElse .. | goto _ | label _ | ret => []

/-- A command without parts is struck out when it carries a note. -/
def strikeNoted (c : Cmd) : List Cmd := if c.notes.isEmpty then [c] else []

/-- A check without notes becomes an assumption. -/
def weakenCheck : Cmd → List Cmd
  | assert cond [] => [assume cond []]
  | c => [c]

end Cmd

/-- The procedure with every command without parts replaced, at any depth. -/
def Procedure.edit (leaf : Cmd → List Cmd) (p : Procedure) : Procedure :=
  { p with body := p.body.map (Cmd.edit leaf) }

end Ir

namespace Lowering

open Ir (Cmd Procedure)
open Source (MethodDef TypeDef)

/-- The same environment with other options. -/
def Env.withOptions (env : Env) (f : Options → Options) : Env :=
  { env with options := f env.options }

/-! ## Two lowerings side by side -/

section SideBySide

variable {ρ : Type} (leaf : Cmd → List Cmd) (view : Registry → ρ)

/-- States that differ in commands and log only, up to what `view` shows of the registry. -/
structure Level (s s' : State) : Prop where
  context : ∃ cs, s'.toContext = { s.toContext with cmds := cs }
  registry : view s'.registry = view s.registry

/-- How two steps end that began in `s` and `s'`. -/
inductive Ends {α β : Type} (tight : Bool) (R : α → β → Prop) (s s' : State) :
    Except Fault α × State → Except Fault β × State → Prop
  | ok {a : α} {b : β} {t t' : State} {cs ds : List Cmd} : R a b → Level view t t' →
    t.cmds = s.cmds ++ cs → t'.cmds = s'.cmds ++ ds → Edited leaf tight cs ds →
    Ends tight R s s' (.ok a, t) (.ok b, t')
  | error {e : Fault} {t t' : State} : Level view t t' →
    Ends tight R s s' (.error e, t) (.error e, t')

/-- From states that are level both steps succeed or both fail, and the states stay level. -/
def SideBySide {α β : Type} (tight : Bool) (R : α → β → Prop) (x : Lower α) (y : Lower β) : Prop :=
  ∀ s s', Level view s s' → Ends leaf view tight R s s' (x.run s) (y.run s')

end SideBySide

section

variable {ρ : Type} {leaf : Cmd → List Cmd} {view : Registry → ρ} {tight : Bool}

namespace SideBySide

theorem pure {α β : Type} {R : α → β → Prop} {a : α} {b : β} (h : R a b) :
    SideBySide leaf view tight R (Pure.pure a) (Pure.pure b) :=
  fun _ _ hl => .ok h hl (List.append_nil _).symm (List.append_nil _).symm .nil

theorem bind {α β α' β' : Type} {R : α → β → Prop} {R' : α' → β' → Prop} {x : Lower α}
    {y : Lower β} {f : α → Lower α'} {g : β → Lower β'} (h : SideBySide leaf view tight R x y)
    (h' : ∀ a b, R a b → SideBySide leaf view tight R' (f a) (g b)) :
    SideBySide leaf view tight R' (x >>= f) (y >>= g) := by
  intro s s' hl
  rw [run_bind, run_bind]
  have := h s s' hl
  generalize x.run s = p at this
  generalize y.run s' = q at this
  cases this with
  | error hl => exact .error hl
  | ok hab hl hs hs' he =>
    rename_i a b t t' cs ds
    have := h' a b hab t t' hl
    show Ends leaf view tight R' s s' ((f a).run t) ((g b).run t')
    generalize (f a).run t = p at this
    generalize (g b).run t' = q at this
    cases this with
    | error hl => exact .error hl
    | ok hab' hl ht ht' he' =>
      refine .ok hab' hl ?_ ?_ (he.append he')
      · rw [ht, hs, List.append_assoc]
      · rw [ht', hs', List.append_assoc]

theorem throw {α β : Type} {R : α → β → Prop} {e : Fault} :
    SideBySide leaf view tight R (MonadExcept.throw e : Lower α)
      (MonadExcept.throw e : Lower β) :=
  fun _ _ hl => .error hl

theorem loosen {α β : Type} {R : α → β → Prop} {x : Lower α} {y : Lower β}
    (h : SideBySide leaf view true R x y) : SideBySide leaf view false R x y := by
  intro s s' hl
  have := h s s' hl
  generalize x.run s = p at this
  generalize y.run s' = q at this
  cases this with
  | error hl => exact .error hl
  | ok hab hl hs hs' he => exact .ok hab hl hs hs' he.loosen

theorem context :
    SideBySide leaf view tight (fun cx cx' => ∃ cs, cx' = { cx with cmds := cs })
      Lowering.context Lowering.context :=
  fun _ _ hl => .ok hl.context hl (List.append_nil _).symm (List.append_nil _).symm .nil

theorem withContext {α : Type} {f : Context → α × Context} (hf : Oblivious f) :
    SideBySide leaf view tight Eq (Lowering.withContext f) (Lowering.withContext f) := by
  rintro ⟨cx, sh⟩ ⟨_, sh'⟩ ⟨⟨cs, rfl⟩, hr⟩
  have hcmds : (f cx).2.cmds = cx.cmds := congrArg (·.2.cmds) (hf cx cx.cmds)
  show Ends leaf view tight Eq _ _ (.ok (f cx).1, ⟨(f cx).2, sh⟩)
    (.ok (f { cx with cmds := cs }).1, ⟨(f { cx with cmds := cs }).2, sh'⟩)
  rw [hf cx cs]
  refine .ok rfl ⟨⟨cs, rfl⟩, hr⟩ ?_ (List.append_nil _).symm .nil
  rw [List.append_nil]
  exact hcmds

theorem report {level : Log.Level} {message : String} :
    SideBySide leaf view tight Eq (Lowering.report level message)
      (Lowering.report level message) :=
  fun _ _ hl => .ok rfl ⟨hl.context, hl.registry⟩ (List.append_nil _).symm
    (List.append_nil _).symm .nil

theorem emitAll {cs ds : List Cmd} (h : Edited leaf tight cs ds) :
    SideBySide leaf view tight Eq (Lowering.emitAll cs) (Lowering.emitAll ds) := by
  rintro ⟨cx, sh⟩ ⟨_, sh'⟩ ⟨⟨cs', rfl⟩, hr⟩
  exact .ok rfl ⟨⟨cs' ++ ds, rfl⟩, hr⟩ rfl rfl h

theorem buffered {α β : Type} {R : α → β → Prop} {x : Lower α} {y : Lower β}
    (h : SideBySide leaf view tight R x y) {outer : Bool} :
    SideBySide leaf view outer (fun a b => R a.1 b.1 ∧ Edited leaf tight a.2 b.2)
      (Lowering.buffered x) (Lowering.buffered y) := by
  rintro ⟨cx, sh⟩ ⟨_, sh'⟩ ⟨⟨cs, rfl⟩, hr⟩
  have := h ⟨{ cx with cmds := [] }, sh⟩ ⟨{ cx with cmds := [] }, sh'⟩ ⟨⟨[], rfl⟩, hr⟩
  rcases hx : x.run ⟨{ cx with cmds := [] }, sh⟩ with ⟨p, t⟩
  rcases hy : y.run ⟨{ cx with cmds := [] }, sh'⟩ with ⟨q, t'⟩
  rw [run_buffered hx, run_buffered hy]
  rw [hx, hy] at this
  cases this with
  | error hl =>
    obtain ⟨⟨_, hc⟩, hr⟩ := hl
    exact .error ⟨⟨cs, by simp [hc]⟩, hr⟩
  | ok hab hl hs hs' he =>
    obtain ⟨⟨_, hc⟩, hr⟩ := hl
    refine .ok ⟨hab, ?_⟩ ⟨⟨cs, by simp [hc]⟩, hr⟩ (List.append_nil _).symm
      (List.append_nil _).symm .nil
    rw [hs, hs']
    exact he

/-- An operation of the registry that `view` sees alike. -/
theorem withRegistry {α : Type} {f : Registry → α × Registry}
    (hf : ∀ r r', view r' = view r → (f r').1 = (f r).1 ∧ view (f r').2 = view (f r).2) :
    SideBySide leaf view tight Eq (Lowering.withRegistry f) (Lowering.withRegistry f) := by
  intro s s' hl
  obtain ⟨ha, hr⟩ := hf s.registry s'.registry hl.registry
  exact .ok ha.symm ⟨hl.context, hr⟩ (List.append_nil _).symm (List.append_nil _).symm .nil

/-- A step that only leaves a mark, against no step at all. -/
theorem mark {f : Registry → Cmd × Registry} (hf : ∀ r, view (f r).2 = view r)
    (hcmd : ∀ r, Cmd.edit leaf [(f r).1] = []) {x : Lower Unit}
    (hx : x = Lowering.withRegistry f >>= emit) :
    SideBySide leaf view false Eq x (Pure.pure ()) := by
  subst hx
  rintro ⟨cx, sh⟩ ⟨_, sh'⟩ ⟨⟨cs, rfl⟩, hr⟩
  refine .ok rfl ⟨⟨cs, rfl⟩, hr.trans (hf sh.registry).symm⟩ rfl (List.append_nil _).symm ?_
  exact ⟨(hcmd sh.registry).symm, nofun⟩

end SideBySide

/-- Lowerings side by side correspond when the steps do that read more of the options. -/
def sideBySide (leaf : Cmd → List Cmd) (view : Registry → ρ) {env env' : Env}
    (leaf_plain : ∀ c, c.isPlain → leaf c = [c])
    (models : env'.options.modelsExceptions = env.options.modelsExceptions)
    (literal : env'.literal = env.literal) (types : env'.types = env.types)
    (structCopies : ∀ r r', view r' = view r → r'.structCopies = r.structCopies ∧
      ∀ m, view { r' with structCopies := m } = view { r with structCopies := m })
    (breadcrumb : SideBySide leaf view false Eq (breadcrumb env) (breadcrumb env'))
    (record : ∀ label ty v, SideBySide leaf view false Eq (record env label ty v)
      (record env' label ty v))
    (emitMarks : ∀ span kind, SideBySide leaf view false Eq (emitMarks env span kind)
      (emitMarks env' span kind))
    (emitAssertion : ∀ v, SideBySide leaf view false Eq (emitAssertion env v)
      (emitAssertion env' v)) : Correspondence env env' where
  leaf
  rel := SideBySide leaf view
  leaf_plain
  models
  literal
  isStruct _ := by rw [types]
  pure := .pure
  bind := .bind
  throw := .throw
  loosen := .loosen
  context := .context
  withContext := .withContext
  report := .report
  emitAll := .emitAll
  buffered h := .buffered h
  structCopy := by
    intro type
    refine .withRegistry fun r r' hr => ?_
    obtain ⟨hm, hv⟩ := structCopies r r' hr
    simp only [Registry.structCopy, hm]
    exact ⟨trivial, hv _⟩
  breadcrumb
  record := record _ _ _
  emitMarks := emitMarks _ _
  emitAssertion := emitAssertion _

end

/-! ## Marks struck out, checks weakened -/

theorem strikeNoted_plain (c : Cmd) (hc : c.isPlain) : c.strikeNoted = [c] := by
  cases c <;> simp_all [Cmd.isPlain, Cmd.strikeNoted, Cmd.notes]

theorem weakenCheck_plain (c : Cmd) (hc : c.isPlain) : c.weakenCheck = [c] := by
  cases c with
  | assert => cases hc
  | _ => rfl

section Quiet

variable (env : Env)

/-- Steps that leave marks, against no steps. -/
abbrev Vanishes (x y : Lower Unit) : Prop :=
  SideBySide Cmd.strikeNoted Registry.structCopies false Eq x y

theorem breadcrumb_vanishes :
    Vanishes (breadcrumb env) (breadcrumb (env.withOptions Options.quiet)) := by
  show Vanishes (if env.options.instrumentBranches = true then _ else _) (pure ())
  split
  · exact .mark (f := fun r => (.marker (.breadcrumb r.nextBreadcrumb.1), r.nextBreadcrumb.2))
      (fun _ => rfl) (fun _ => rfl) rfl
  · exact .pure rfl

theorem record_vanishes (label : String) (ty : Ir.Ty) (v : Ir.Expr) :
    Vanishes (record env label ty v) (record (env.withOptions Options.quiet) label ty v) := by
  show Vanishes (if env.options.recordValues = true then _ else _) (pure ())
  split
  · exact .mark
      (f := fun r => (.call [⟨"cexpr", [.str label]⟩] (r.recorder ty).1 [v] [], (r.recorder ty).2))
      (fun _ => rfl) (fun _ => rfl) rfl
  · exact .pure rfl

theorem emitMarks_vanishes (span : Span) (kind : Source.StmtKind) :
    Vanishes (emitMarks env span kind) (emitMarks (env.withOptions Options.quiet) span kind) := by
  rw [emitMarks_eq, emitMarks_eq]
  split
  · refine .bind (R := Eq) (y := pure ()) (g := fun _ => pure ()) ?_ fun _ _ _ => ?_
    · split
      · exact .mark (f := fun r => (sourceMark env span, r)) (fun _ => rfl) (fun _ => rfl) rfl
      · exact .pure rfl
    · split
      · exact .mark (f := fun r => (.marker ⟨"captureState",
          [.str ("s" ++ toString r.nextCaptureState.1.toNat)]⟩, r.nextCaptureState.2))
          (fun _ => rfl) (fun _ => rfl) rfl
      · exact .pure rfl
  · exact .pure rfl

/-- A check carries no notes, weakened or not. -/
theorem emitAssertion_stays (v : Ir.Expr) :
    Vanishes (emitAssertion env v) (emitAssertion (env.withOptions Options.quiet) v) := by
  show Vanishes (emit (if env.options.getMeHere = true then _ else _))
    (emit (if env.options.getMeHere = true then _ else _))
  split
  · exact .emitAll ⟨rfl, nofun⟩
  · exact .emitAll ⟨rfl, nofun⟩

/-- Striking out what carries a note leaves the lowering without marks. -/
def quietly : Correspondence env (env.withOptions Options.quiet) :=
  sideBySide Cmd.strikeNoted Registry.structCopies strikeNoted_plain rfl rfl rfl
    (fun _ _ h => ⟨h, fun _ => rfl⟩) (breadcrumb_vanishes env) (record_vanishes env)
    (emitMarks_vanishes env) (emitAssertion_stays env)

end Quiet

section Weakened

variable (env : Env)

/-- Steps that emit the same commands, up to weakened checks. -/
abbrev Weakens (x y : Lower Unit) : Prop := SideBySide Cmd.weakenCheck id false Eq x y

theorem withRegistry_weakens {α : Type} (f : Registry → α × Registry) :
    SideBySide Cmd.weakenCheck id false Eq (withRegistry f) (withRegistry f) := by
  refine .withRegistry fun r r' h => ?_
  obtain rfl : r' = r := h
  exact ⟨rfl, rfl⟩

/-- A command with a note is no check. -/
theorem noted_weakens {c : Cmd} (h : Cmd.edit Cmd.weakenCheck [c] = [c]) :
    Weakens (emit c) (emit c) := .emitAll ⟨h.symm, nofun⟩

theorem emitMarks_weakens (span : Span) (kind : Source.StmtKind) :
    Weakens (emitMarks env span kind) (emitMarks (env.withOptions Options.weakened) span kind) := by
  rw [emitMarks_eq, emitMarks_eq]
  show Weakens (if carriesMarks kind = true then _ else _)
    (if carriesMarks kind = true then _ else _)
  split
  · refine .bind (R := Eq) ?_ fun _ _ _ => ?_
    · show Weakens (if (env.options.emitSourceContext && span.isKnown) = true then _ else _)
        (if (env.options.emitSourceContext && span.isKnown) = true then _ else _)
      split
      · exact noted_weakens rfl
      · exact .pure rfl
    · show Weakens (if env.options.captureState = true then _ else _)
        (if env.options.captureState = true then _ else _)
      split
      · refine .bind (withRegistry_weakens _) ?_
        rintro n _ rfl
        exact noted_weakens rfl
      · exact .pure rfl
  · exact .pure rfl

theorem breadcrumb_weakens :
    Weakens (breadcrumb env) (breadcrumb (env.withOptions Options.weakened)) := by
  show Weakens (if env.options.instrumentBranches = true then _ else _)
    (if env.options.instrumentBranches = true then _ else _)
  split
  · refine .bind (withRegistry_weakens _) ?_
    rintro n _ rfl
    exact noted_weakens rfl
  · exact .pure rfl

theorem record_weakens (label : String) (ty : Ir.Ty) (v : Ir.Expr) :
    Weakens (record env label ty v) (record (env.withOptions Options.weakened) label ty v) := by
  show Weakens (if env.options.recordValues = true then _ else _)
    (if env.options.recordValues = true then _ else _)
  split
  · refine .bind (withRegistry_weakens _) ?_
    rintro proc _ rfl
    exact noted_weakens rfl
  · exact .pure rfl

theorem emitAssertion_weakens (v : Ir.Expr) :
    Weakens (emitAssertion env v) (emitAssertion (env.withOptions Options.weakened) v) := by
  show Weakens (emit (if env.options.getMeHere = true then _ else _)) (emit (.suppose v))
  split
  · exact .emitAll ⟨rfl, nofun⟩
  · exact .emitAll ⟨rfl, nofun⟩

/-- Weakening the checks without notes leaves the lowering with weakened checks. -/
def weakly : Correspondence env (env.withOptions Options.weakened) :=
  sideBySide Cmd.weakenCheck id weakenCheck_plain rfl rfl rfl
    (fun r r' h => by obtain rfl : r' = r := h; exact ⟨rfl, fun _ => rfl⟩)
    (breadcrumb_weakens env) (record_weakens env) (emitMarks_weakens env)
    (emitAssertion_weakens env)

end Weakened

/-! ## Methods -/

/-- A context with edited commands makes an edited procedure. -/
theorem finished_edit {leaf : Cmd → List Cmd} {owner : TypeDef} {m : MethodDef}
    {params returns : List Ir.VarDecl} {cx cx' : Context} {cs : List Cmd}
    (hcx : cx' = { cx with cmds := cs }) (hcs : cx'.cmds = Cmd.edit leaf cx.cmds) :
    finished owner m params returns cx' =
      (finished owner m params returns cx).map (Procedure.edit leaf) := by
  subst hcx
  obtain rfl : cs = Cmd.edit leaf cx.cmds := hcs
  unfold finished Context.finish Context.depth
  dsimp only
  split
  · rfl
  · rfl

theorem edit_of_body_eq_none {leaf : Cmd → List Cmd} {p : Procedure} (h : p.body = none) :
    p.edit leaf = p := by
  obtain ⟨name, params, returns, locals, body⟩ := p
  obtain rfl : body = none := h
  rfl

/-- The two lowerings of a method, when those of its body go side by side. -/
theorem lowerMethod_sideBySide {ρ : Type} {leaf : Cmd → List Cmd} (view : Registry → ρ)
    {env env' : Env} (hbody : ∀ body, SideBySide leaf view false Eq
      (do breadcrumb env; lowerStmt env body) (do breadcrumb env'; lowerStmt env' body))
    (owner : TypeDef) (m : MethodDef) (shared : Shared) :
    ((lowerMethod env' owner m).run shared).1 =
      ((lowerMethod env owner m).run shared).1.map (Procedure.edit leaf) := by
  rcases decided_or_prepared m owner.name with ⟨r, hr, hrun⟩ | ⟨body, params, returns, scopes, hm⟩
  · obtain ⟨_, h⟩ := hrun env owner rfl shared
    obtain ⟨_, h'⟩ := hrun env' owner rfl shared
    rw [h, h']
    cases r with
    | error e => rfl
    | ok p =>
      exact congrArg Except.ok (edit_of_body_eq_none (hr p rfl).1).symm
  have hrun := hbody body ⟨startContext scopes params returns, announce owner m shared⟩ _
    ⟨⟨_, rfl⟩, rfl⟩
  rcases hx : (do breadcrumb env; lowerStmt env body : Lower Unit).run
    ⟨startContext scopes params returns, announce owner m shared⟩ with ⟨p, t⟩
  rcases hy : (do breadcrumb env'; lowerStmt env' body : Lower Unit).run
    ⟨startContext scopes params returns, announce owner m shared⟩ with ⟨q, t'⟩
  rw [run_lowerMethod hm hx, run_lowerMethod hm hy]
  rw [hx, hy] at hrun
  cases hrun with
  | error => rfl
  | ok _ hl ht ht' he =>
    obtain ⟨cs, hcs⟩ := hl.context
    refine finished_edit hcs ?_
    simp only [cmds_startContext, List.nil_append] at ht ht'
    rw [ht, ht', he.1]

/-- Marks are transparent: striking out the commands with notes gives the procedure that is lowered
without them, and a method fails with them as it fails without. Weakened checks change a procedure
at its checks only. -/
theorem lowerMethod_marks_transparent (env : Env) (owner : TypeDef) (m : MethodDef)
    (shared : Shared) :
    ((lowerMethod (env.withOptions Options.quiet) owner m).run shared).1 =
        ((lowerMethod env owner m).run shared).1.map (Procedure.edit Cmd.strikeNoted) ∧
      ((lowerMethod (env.withOptions Options.weakened) owner m).run shared).1 =
        ((lowerMethod env owner m).run shared).1.map (Procedure.edit Cmd.weakenCheck) := by
  constructor
  · refine lowerMethod_sideBySide Registry.structCopies (fun body => ?_) owner m shared
    exact (quietly env).andThen (quietly env).breadcrumb fun _ _ => (quietly env).lowerStmt body
  · refine lowerMethod_sideBySide id (fun body => ?_) owner m shared
    exact (weakly env).andThen (weakly env).breadcrumb fun _ _ => (weakly env).lowerStmt body

end Lowering

end Unwind
