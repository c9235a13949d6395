import Mathlib
import Unwind.Proofs.Bookkeeping.Expressions
import Unwind.Proofs.Scopes
import Unwind.Proofs.Variables.Methods

/-!
# Bodies without exceptions

Without exceptions a body is lowered frugally (`frugally_lowerStmt`). A statement that raises cannot
be reached, and catch clauses do not run: the code is that of the body with `assume false` in the
place of what raises, and without its catch clauses (`lowerStmt_unraised`).
-/

namespace Unwind

/-! ## Bodies in which nothing is raised -/

namespace Source

/-- The statement raises an exception. -/
def StmtKind.raises : StmtKind → Bool
  | .throw _ | .rethrow => true
  | _ => false

mutual

/-- The statement with `assume false` in the place of what raises, and without catch clauses. -/
def Stmt.unraised : Stmt → Stmt
  | ⟨id, span, kind⟩ => ⟨id, span,
    match kind with
    | .block stmts => .block (unraisedIn stmts)
    | .conditional cond thenBranch elseBranch =>
      .conditional cond thenBranch.unraised elseBranch.unraised
    | .switch scrutinee cases => .switch scrutinee (unraisedInCases cases)
    | .labeled label body => .labeled label body.unraised
    | .tryCatch body _ finalizer => .tryCatch body.unraised [] (unraisedInOption finalizer)
    | .throw _ | .rethrow => .assume (.bool false)
    | kind => kind⟩

def unraisedIn : List Stmt → List Stmt
  | [] => []
  | s :: ss => s.unraised :: unraisedIn ss

def unraisedInCases : List SwitchCase → List SwitchCase
  | [] => []
  | ⟨span, value, body⟩ :: cases => ⟨span, value, unraisedIn body⟩ :: unraisedInCases cases

def unraisedInOption : Option Stmt → Option Stmt
  | none => none
  | some s => some s.unraised

end

theorem any_isNone_unraisedInCases (cases : List SwitchCase) :
    (unraisedInCases cases).any (·.value.isNone) = cases.any (·.value.isNone) := by
  induction cases with
  | nil => rfl
  | cons case cases ih =>
    obtain ⟨span, value, body⟩ := case
    rw [unraisedInCases, List.any_cons, List.any_cons, ih]

end Source

namespace Lowering

open Machine (isGenerated)
open Source (Expr MethodDef Stmt StmtKind SwitchCase TypeDef Variable)
open Ir (Cmd Procedure)

section

variable {env : Env} {ls : List String}

/-! ## Statements that raise -/

theorem emitMarks_congr {kind kind' : StmtKind} (h : carriesMarks kind = carriesMarks kind')
    (span : Span) : emitMarks env span kind = emitMarks env span kind' := by
  unfold emitMarks
  rw [h]

/-- What raises cannot be reached, and what it would raise is not computed. -/
theorem lowerStmt_of_raises (hm : env.options.modelsExceptions = false) {s : Stmt}
    (h : s.kind.raises = true) :
    lowerStmt env s = (do
      emitMarks env s.span s.kind
      emit (.suppose (.bool false))) := by
  obtain ⟨id, span, kind⟩ := s
  cases kind with
  | throw e =>
    simp only [lowerStmt, lowerThrow, hm]
    rfl
  | rethrow =>
    simp only [lowerStmt, lowerRethrow, hm]
    rfl
  | _ => cases h

theorem lowerStmt_assume_false (id : UInt32) (span : Span) :
    lowerStmt env ⟨id, span, .assume (.bool false)⟩ = (do
      emitMarks env span (.assume (.bool false))
      emit (.suppose (.bool false))) := by
  have hcond : condition env (.bool false) = pure (.bool false) := by
    simp only [condition, lowerExpr, Expr.bool, Expr.ofKind]
    rfl
  rw [lowerStmt, hcond, pure_bind]

mutual

/-- The code does not change when nothing is raised or caught. -/
theorem lowerStmt_unraised (hm : env.options.modelsExceptions = false) (s : Stmt) :
    lowerStmt env s.unraised = lowerStmt env s := by
  obtain ⟨id, span, kind⟩ := s
  cases kind with
  | block stmts =>
    have hmarks : carriesMarks (.block (Source.unraisedIn stmts)) = carriesMarks (.block stmts) :=
      rfl
    rw [Stmt.unraised, lowerStmt, lowerStmt, lowerStmts_unraised hm stmts,
      emitMarks_congr hmarks]
  | conditional cond thenBranch elseBranch =>
    have hmarks : carriesMarks (.conditional cond thenBranch.unraised elseBranch.unraised) =
        carriesMarks (.conditional cond thenBranch elseBranch) := rfl
    simp only [Stmt.unraised, lowerStmt, lowerStmt_unraised hm thenBranch,
      lowerStmt_unraised hm elseBranch, emitMarks_congr hmarks]
  | switch scrutinee cases =>
    have hmarks : carriesMarks (.switch scrutinee (Source.unraisedInCases cases)) =
        carriesMarks (.switch scrutinee cases) := rfl
    simp only [Stmt.unraised, lowerStmt, lowerDefault_unraised hm cases,
      lowerCases_unraised hm _ _ cases, emitMarks_congr hmarks]
  | labeled label body =>
    have hmarks : carriesMarks (.labeled label body.unraised) =
        carriesMarks (.labeled label body) := rfl
    simp only [Stmt.unraised, lowerStmt, lowerStmt_unraised hm body, emitMarks_congr hmarks]
  | tryCatch body catches finalizer =>
    have hmarks : carriesMarks (.tryCatch body.unraised [] (Source.unraisedInOption finalizer)) =
        carriesMarks (.tryCatch body catches finalizer) := rfl
    simp only [Stmt.unraised, lowerStmt, hm, Bool.false_eq_true, if_false,
      lowerStmt_unraised hm body, lowerOptional_unraised hm finalizer, emitMarks_congr hmarks]
  | throw e =>
    have hmarks : carriesMarks (.assume (.bool false)) = carriesMarks (.throw e) := rfl
    rw [Stmt.unraised, lowerStmt_assume_false, lowerStmt_of_raises hm rfl, emitMarks_congr hmarks]
  | rethrow =>
    have hmarks : carriesMarks (.assume (.bool false)) = carriesMarks .rethrow := rfl
    rw [Stmt.unraised, lowerStmt_assume_false, lowerStmt_of_raises hm rfl, emitMarks_congr hmarks]
  | _ => exact congrArg (lowerStmt env) rfl

theorem lowerStmts_unraised (hm : env.options.modelsExceptions = false) (ss : List Stmt) :
    lowerStmts env (Source.unraisedIn ss) = lowerStmts env ss := by
  cases ss with
  | nil => rfl
  | cons s ss =>
    rw [Source.unraisedIn, lowerStmts, lowerStmts, lowerStmt_unraised hm s,
      lowerStmts_unraised hm ss]

theorem lowerOptional_unraised (hm : env.options.modelsExceptions = false) (s : Option Stmt) :
    lowerOptional env (Source.unraisedInOption s) = lowerOptional env s := by
  cases s with
  | none => rfl
  | some s => rw [Source.unraisedInOption, lowerOptional, lowerOptional, lowerStmt_unraised hm s]

theorem lowerDefault_unraised (hm : env.options.modelsExceptions = false)
    (cases : List SwitchCase) :
    lowerDefault env (Source.unraisedInCases cases) = lowerDefault env cases := by
  cases cases with
  | nil => rfl
  | cons case cases =>
    obtain ⟨span, value, body⟩ := case
    rw [Source.unraisedInCases, lowerDefault, lowerDefault, Source.any_isNone_unraisedInCases,
      lowerDefault_unraised hm cases, lowerStmts_unraised hm body]

theorem lowerCases_unraised (hm : env.options.modelsExceptions = false) (v : Ir.Expr)
    (ds : List Cmd) (cases : List SwitchCase) :
    lowerCases env v ds (Source.unraisedInCases cases) = lowerCases env v ds cases := by
  cases cases with
  | nil => rfl
  | cons case cases =>
    obtain ⟨span, value, body⟩ := case
    rw [Source.unraisedInCases, lowerCases, lowerCases, lowerCases_unraised hm v ds cases,
      lowerStmts_unraised hm body]

end

/-! ## Statements without parts -/

theorem frugally_value (hm : env.options.modelsExceptions = false) {e : Expr}
    (he : Ordinary e.locals) : Frugally ls (value env e) fun v => Needless v.vars :=
  frugally_valueOf (frugally_lowerExpr hm e he false)

theorem frugally_condition (hm : env.options.modelsExceptions = false) {e : Expr}
    (he : Ordinary e.locals) : Frugally ls (condition env e) fun v => Needless v.vars :=
  frugally_conditionOf (frugally_lowerExpr hm e he false)

theorem frugally_lowerReturn (hm : env.options.modelsExceptions = false) {span : Span}
    {e : Option Expr} (he : Ordinary (Source.localsInOption e)) :
    Frugally ls (lowerReturn env span e) fun _ => True := by
  have hret : Frugally ls (emit .ret) fun _ => True := frugally_emit (.idle rfl rfl needless_nil)
  cases e with
  | none => exact hret
  | some e =>
    refine (frugally_value hm he).bind fun v hv => .look fun s hs => ?_
    split
    · next slot hslot =>
      have hslot : ¬ IsBookkeeping slot :=
        hs.returnVar slot (by rw [hslot]; exact List.mem_cons_self)
      refine Frugally.bind (.lift fun _ _ => trivial) fun ty _ => ?_
      exact (frugally_record hv).bind fun _ _ => (frugally_emit (.set hslot hv)).bind
        fun _ _ => hret
    · have hthrow : Frugally ls (throw (.noReturnSlot span) : Lower Unit) fun _ => True := .throw
      exact hthrow.bind fun _ _ => hret

theorem frugally_lowerLocalDecl (hm : env.options.modelsExceptions = false) {decl : Variable}
    {init : Option Expr} (hname : isGenerated decl.name = false)
    (hinit : Ordinary (Source.localsInOption init)) :
    Frugally ls (lowerLocalDecl env decl init) fun _ => True := by
  have hdecl := not_isBookkeeping_plain hname
  refine Frugally.bind (.lift fun _ _ => trivial) fun ty _ => ?_
  refine (frugally_declareLocal hname).bind fun _ _ => .ite (fun _ => ?_) fun _ => ?_
  · split
    · next e type hsome _ =>
      obtain ⟨rfl, -⟩ := Option.filter_eq_some_iff.mp hsome
      refine frugally_withRegistry.bind fun proc _ => (frugally_value hm hinit).bind fun v hv =>
        frugally_emit (.invoke ?_ (needless_singleton.mpr hdecl))
      exact needless_append.mpr ⟨hv, needless_nil⟩
    · exact (frugally_value hm (List.forall_mem_nil _)).bind fun v hv =>
        frugally_emit (.set hdecl hv)
  · cases init with
    | none => exact .pure trivial
    | some e =>
      exact (frugally_value hm hinit).bind fun v hv => (frugally_record hv).bind fun _ _ =>
        frugally_emit (.set hdecl hv)

theorem mem_labels_of_sharedDepth {cx : Context} {target : String} {keep : Nat}
    (h : sharedDepth env cx target = .ok keep) : target ∈ cx.scopes.labels.map Prod.fst := by
  rw [← LabelScopes.innermostTry?_isSome]
  unfold sharedDepth at h
  split at h
  · cases h
  · next hsome => rw [hsome]; rfl
  · next hsome => rw [hsome]; rfl

/-- There is no region to leave. -/
theorem frugally_lowerGoto {target : String} {span : Span} :
    Frugally ls (lowerGoto env target span) fun _ => True := by
  refine .look fun s hs => Frugally.bind (.lift fun _ hkeep => hkeep) fun keep hkeep => ?_
  rw [hs.stack, List.take_nil, escape]
  exact frugally_emit (.goto (hs.scopes (mem_labels_of_sharedDepth hkeep)))

/-! ## Statements -/

/-- No variable in the statements has a name that looks generated. -/
def LocalsIn (ss : List Stmt) : Prop := ∀ t ∈ ss, Ordinary t.kind.locals

mutual

/-- A statement is lowered frugally. -/
theorem frugally_lowerStmt (hm : env.options.modelsExceptions = false) (s : Stmt)
    (hs : LocalsIn s.statements) (hl : s.labels ⊆ ls) :
    Frugally ls (lowerStmt env s) fun _ => True := by
  have hown := hs s s.mem_statements
  have hin : LocalsIn s.statements.tail := fun t ht => hs t (List.mem_of_mem_tail ht)
  by_cases hraises : s.kind.raises = true
  · rw [lowerStmt_of_raises hm hraises]
    exact frugally_emitMarks.bind fun _ _ => frugally_emit (.assume needless_nil)
  obtain ⟨id, span, kind⟩ := s
  obtain ⟨hdecl, hexprs⟩ := List.forall_mem_append.mp hown
  have hmarked : ∀ {act : Lower Unit}, (Frugally ls act fun _ => True) →
      Frugally ls (do emitMarks env span kind; act) fun _ => True :=
    fun h => frugally_emitMarks.bind fun _ _ => h
  cases kind with
  | block stmts =>
    rw [lowerStmt]
    exact hmarked (frugally_lowerStmts hm stmts hin hl)
  | empty =>
    rw [lowerStmt]
    exact hmarked (.pure trivial)
  | assert cond =>
    rw [lowerStmt]
    refine hmarked ((frugally_condition hm (List.forall_mem_append.mp hexprs).1).bind fun v hv =>
      frugally_emit ?_)
    split
    · exact .assume hv
    · exact .idle rfl rfl (needless_append.mpr ⟨hv, needless_nil⟩)
  | assume cond =>
    rw [lowerStmt]
    exact hmarked ((frugally_condition hm (List.forall_mem_append.mp hexprs).1).bind fun v hv =>
      frugally_emit (.assume hv))
  | conditional cond thenBranch elseBranch =>
    obtain ⟨ht, he⟩ := List.forall_mem_append.mp hin
    obtain ⟨hlt, hle⟩ := List.append_subset.mp hl
    have hbranch : ∀ {st : Stmt}, (Frugally ls (lowerStmt env st) fun _ => True) →
        Frugally ls (commandsOf do breadcrumb env; lowerStmt env st) fun cs => Frugal ls cs :=
      fun h => (frugally_breadcrumb.bind fun _ _ => h).commandsOf
    rw [lowerStmt]
    exact hmarked ((frugally_condition hm (List.forall_mem_append.mp hexprs).1).bind fun v hv =>
      (hbranch (frugally_lowerStmt hm thenBranch ht hlt)).bind fun thenCmds hthen =>
        (hbranch (frugally_lowerStmt hm elseBranch he hle)).bind fun elseCmds helse =>
          frugally_emit (.ifElse hv hthen helse))
  | expression e =>
    rw [lowerStmt]
    exact hmarked ((frugally_lowerExpr hm e (List.forall_mem_append.mp hexprs).1 _).bind
      fun _ _ => .pure trivial)
  | breakLoop | continueLoop | whileLoop | doUntil | forLoop | forEach =>
    simp only [lowerStmt]
    exact hmarked .throw
  | switch scrutinee cases =>
    obtain ⟨hv, hvalues⟩ := List.forall_mem_append.mp hexprs
    rw [lowerStmt]
    refine hmarked ((frugally_value hm hv).bind fun v hv =>
      (frugally_lowerDefault hm cases hin hl).bind fun ds hds =>
        (frugally_lowerCases hm cases hvalues hin hl hv hds).bind fun chain hchain => ?_)
    cases chain with
    | some c => exact frugally_emit hchain
    | none => exact frugally_emitAll hds
  | localDecl decl init =>
    rw [lowerStmt]
    refine hmarked (frugally_lowerLocalDecl hm (hdecl _ List.mem_cons_self) ?_)
    cases init with
    | none => exact List.forall_mem_nil _
    | some e => exact (List.forall_mem_append.mp hexprs).1
  | ret value =>
    rw [lowerStmt]
    refine hmarked (frugally_lowerReturn hm ?_)
    cases value with
    | none => exact List.forall_mem_nil _
    | some e => exact (List.forall_mem_append.mp hexprs).1
  | goto label =>
    rw [lowerStmt]
    exact hmarked frugally_lowerGoto
  | labeled label body =>
    obtain ⟨hlabel, hbody⟩ := List.cons_subset.mp hl
    rw [lowerStmt]
    exact hmarked ((frugally_emit (.label hlabel)).bind fun _ _ =>
      frugally_lowerStmt hm body hin hbody)
  | tryCatch body catches finalizer =>
    obtain ⟨hb, hcf⟩ := List.forall_mem_append.mp hin
    obtain ⟨-, hf⟩ := List.forall_mem_append.mp hcf
    obtain ⟨hlb, hlcf⟩ := List.append_subset.mp hl
    obtain ⟨-, hlf⟩ := List.append_subset.mp hlcf
    rw [lowerStmt, hm]
    exact hmarked ((frugally_lowerStmt hm body hb hlb).bind fun _ _ =>
      frugally_lowerOptional hm finalizer hf hlf)
  | throw | rethrow => exact absurd rfl hraises
  | push e =>
    rw [lowerStmt]
    exact hmarked ((frugally_value hm (List.forall_mem_append.mp hexprs).1).bind fun v hv =>
      frugally_pushOperand hv)

theorem frugally_lowerStmts (hm : env.options.modelsExceptions = false) (ss : List Stmt)
    (hs : LocalsIn (Source.statementsIn ss)) (hl : Source.labelsIn ss ⊆ ls) :
    Frugally ls (lowerStmts env ss) fun _ => True := by
  cases ss with
  | nil =>
    rw [lowerStmts]
    exact .pure trivial
  | cons s ss =>
    obtain ⟨hs, hss⟩ := List.forall_mem_append.mp hs
    obtain ⟨hl, hls⟩ := List.append_subset.mp hl
    rw [lowerStmts]
    exact (frugally_lowerStmt hm s hs hl).bind fun _ _ => frugally_lowerStmts hm ss hss hls

theorem frugally_lowerOptional (hm : env.options.modelsExceptions = false) (s : Option Stmt)
    (hs : LocalsIn (Source.statementsInOption s)) (hl : Source.labelsInOption s ⊆ ls) :
    Frugally ls (lowerOptional env s) fun _ => True := by
  cases s with
  | none =>
    rw [lowerOptional]
    exact .pure trivial
  | some s =>
    rw [lowerOptional]
    exact frugally_lowerStmt hm s hs hl

theorem frugally_lowerDefault (hm : env.options.modelsExceptions = false)
    (cases : List SwitchCase) (hs : LocalsIn (Source.statementsInCases cases))
    (hl : Source.labelsInCases cases ⊆ ls) :
    Frugally ls (lowerDefault env cases) fun cs => Frugal ls cs := by
  cases cases with
  | nil =>
    rw [lowerDefault]
    exact .pure .nil
  | cons case cases =>
    obtain ⟨span, value, body⟩ := case
    obtain ⟨hbody, hcases⟩ := List.forall_mem_append.mp hs
    obtain ⟨hl, hls⟩ := List.append_subset.mp hl
    rw [lowerDefault]
    exact .ite (fun _ => frugally_lowerDefault hm cases hcases hls) fun _ =>
      (frugally_lowerStmts hm body hbody hl).commandsOf

theorem frugally_lowerCases (hm : env.options.modelsExceptions = false) {v : Ir.Expr}
    {ds : List Cmd} (cases : List SwitchCase)
    (hvalues : Ordinary ((cases.filterMap (·.value)).flatMap Expr.locals))
    (hs : LocalsIn (Source.statementsInCases cases)) (hl : Source.labelsInCases cases ⊆ ls)
    (hv : Needless v.vars) (hds : Frugal ls ds) :
    Frugally ls (lowerCases env v ds cases) fun chain => Frugal ls chain.toList := by
  cases cases with
  | nil =>
    rw [lowerCases]
    exact .pure .nil
  | cons case cases =>
    obtain ⟨span, value, body⟩ := case
    obtain ⟨hbody, hcases⟩ := List.forall_mem_append.mp hs
    obtain ⟨hlbody, hlcases⟩ := List.append_subset.mp hl
    rw [lowerCases]
    cases value with
    | none =>
      exact (frugally_lowerCases hm cases hvalues hcases hlcases hv hds).bind fun chain hchain =>
        .pure hchain
    | some e =>
      obtain ⟨he, hvalues⟩ := List.forall_mem_append.mp hvalues
      refine (frugally_lowerCases hm cases hvalues hcases hlcases hv hds).bind fun chain hchain =>
        (frugally_value hm he).bind fun w hw =>
          (frugally_lowerStmts hm body hbody hlbody).commandsOf.bind fun cmds hcmds => .pure ?_
      refine .ifElse (needless_append.mpr ⟨hv, hw⟩) hcmds ?_
      cases chain with
      | some inner => exact hchain
      | none => exact hds

end

end

/-! ## Methods -/

/-- No variable that is declared or used in the body has a name that looks generated. -/
def ProperLocals (m : MethodDef) : Prop := ∀ body ∈ m.body, LocalsIn body.statements

/-- What a procedure is made of when exceptions are not modeled. -/
structure Unmodeled (env : Env) (owner : TypeDef) (m : MethodDef) (shared : Shared)
    (p : Procedure) : Prop where
  vars : ∀ x ∈ p.vars, ¬ IsBookkeeping x
  locals : ∀ v ∈ p.locals, ¬ IsBookkeeping v.name
  targets : ∀ l ∈ p.targets, ∃ body ∈ m.body, l ∈ body.labels
  /-- A statement that raises is marked like any other, and not reached. -/
  raises : ∀ body ∈ m.body, ∀ t ∈ body.statements, t.kind.raises = true →
    lowerStmt env t = (do
      emitMarks env t.span t.kind
      emit (.suppose (.bool false)))
  /-- The code is that of the body with `assume false` in the place of such statements, and without
  catch clauses. -/
  unraised : ∀ body ∈ m.body, ∃ scopes s, LabelScopes.collect body = .ok scopes ∧
    Runs (do breadcrumb env; lowerStmt env body.unraised)
      ⟨startContext scopes p.params p.returns, announce owner m shared⟩ () s ∧
    p.body = some s.cmds ∧ p.locals = s.locals

theorem frugal_startContext (scopes : LabelScopes) (params returns : List Ir.VarDecl)
    (shared : Shared) (h : scopes.labels.map Prod.fst ⊆ ls) :
    State.Frugal ls ⟨startContext scopes params returns, shared⟩ := by
  rw [startContext_params]
  refine ⟨rfl, .nil, needless_nil, needless_nil, ?_, h⟩
  dsimp only
  split
  · exact needless_nil
  · exact needless_singleton.mpr (@not_isBookkeeping .result trivial rfl)

/-- Without exceptions a method is lowered without any bookkeeping. -/
theorem lowerMethod_unmodeled {env : Env} {owner : TypeDef} {m : MethodDef}
    {shared shared' : Shared} {p : Procedure} (hmode : env.options.modelExceptions = 0)
    (hnames : ProperLocals m) (h : Runs (lowerMethod env owner m) shared p shared') :
    Unmodeled env owner m shared p := by
  have hm : env.options.modelsExceptions = false := by
    rw [Options.modelsExceptions, hmode]
    rfl
  have hraises : ∀ body ∈ m.body, ∀ t ∈ body.statements, t.kind.raises = true →
      lowerStmt env t = (do
        emitMarks env t.span t.kind
        emit (.suppose (.bool false))) := fun _ _ _ _ ht => lowerStmt_of_raises hm ht
  obtain ⟨-, -, ⟨hlocals, hbody⟩ | ⟨body, scopes, s, hfrom⟩⟩ := procedure_of_runs h
  · have hnone : m.body = none := by
      cases hsome : m.body with
      | none => rfl
      | some body =>
        obtain ⟨-, -, -, _, -, -, -, hcmds⟩ := runs_lowerMethod hsome h
        cases hbody.symm.trans hcmds
    have hvars : p.vars = [] := by rw [Procedure.vars, hbody]; rfl
    have htargets : p.targets = [] := by
      rw [Procedure.targets, Procedure.commands, hbody]
      rfl
    refine ⟨?_, ?_, ?_, hraises, ?_⟩ <;> simp [hvars, hlocals, htargets, hnone]
  have hscopes : scopes.labels.map Prod.fst = body.labels := by
    obtain ⟨-, rfl⟩ := LabelScopes.collect_eq_ok.mp hfrom.scopes_eq
    exact Source.map_fst_scoped body none
  have hlower := frugally_lowerStmt hm body (hnames body hfrom.body_eq) (List.Subset.refl _)
  obtain ⟨hs, -⟩ := (frugally_breadcrumb.bind fun _ _ => hlower).run
    (frugal_startContext scopes p.params p.returns (announce owner m shared)
      (hscopes ▸ List.Subset.refl _)) hfrom.runs
  refine ⟨?_, ?_, ?_, hraises, ?_⟩
  · intro x hx
    rw [Procedure.vars, hfrom.cmds_eq] at hx
    exact hs.cmds.vars x hx
  · intro v hv
    rw [hfrom.locals_eq] at hv
    exact hs.locals _ (List.mem_map_of_mem hv)
  · intro l hl
    rw [Procedure.targets, Procedure.commands, hfrom.cmds_eq] at hl
    exact ⟨body, hfrom.body_eq, hs.cmds.targets hl⟩
  · intro body' hbody'
    obtain rfl := Option.some.inj (hfrom.body_eq.symm.trans hbody')
    rw [lowerStmt_unraised hm]
    exact ⟨scopes, s, hfrom.scopes_eq, hfrom.runs, hfrom.cmds_eq, hfrom.locals_eq⟩

/-- A method that tries again, or raises what it has made, or cleans up. -/
def stubborn : MethodDef where
  name := "stubborn"
  params := [⟨"n", .int⟩]
  body :=
    let self : Expr := .ofKind .self (.named ⟨"T", none⟩)
    let get : Expr := .ofCall (.direct ⟨⟨"T", none⟩, "get", []⟩ (some self) []) .int
    let make : Expr := .ofCall (.direct ⟨⟨"T", none⟩, "make", []⟩ (some self) [])
      (.named ⟨"E", none⟩)
    let test : Expr := .binary .lt (.var "m" .int) (.var "n" .int) .bool
    some (.block [.ofKind (.localDecl ⟨"m", .int⟩ (some (.int 0))),
      .labeled "again" (.withId (.ofKind (.tryCatch
        (.block [.expr (.assign (.var "m") get), .ifElse test (.goto "again") .empty,
          .ofKind (.throw make)])
        [⟨{}, some ⟨"E", none⟩, some ⟨"e", .named ⟨"E", none⟩⟩,
          .block [.expr (.assign (.var "m") get), .ofKind .rethrow]⟩]
        (some (.expr (.assign (.var "m") (.int 0)))))) 3)])

theorem stubborn_unmodeled : ∃ p shared', Runs (lowerMethod { options := { modelExceptions := 0 } }
      ⟨⟨"T", none⟩, .classType, [], [], [], [], []⟩ stubborn) {} p shared' ∧
    Unmodeled { options := { modelExceptions := 0 } }
      ⟨⟨"T", none⟩, .classType, [], [], [], [], []⟩ stubborn {} p ∧
    p.locals.map (·.name) = ["m", "$tmp0"] ∧ p.targets = ["again", "again"] := by
  have hok : ((lowerMethod { options := { modelExceptions := 0 } }
      ⟨⟨"T", none⟩, .classType, [], [], [], [], []⟩ stubborn).run {}).1.toBool = true := by
    decide +kernel
  have hresult : ((lowerMethod { options := { modelExceptions := 0 } }
      ⟨⟨"T", none⟩, .classType, [], [], [], [], []⟩ stubborn).run {}).1.toOption.map
        (fun p => (p.locals.map (·.name), p.targets)) =
      some (["m", "$tmp0"], ["again", "again"]) := by
    decide +kernel
  have hnames : ProperLocals stubborn := by
    rintro body ⟨⟩
    unfold LocalsIn
    decide +kernel
  obtain ⟨p, shared', h⟩ := exists_ok_of_toBool hok
  rw [h] at hresult
  obtain ⟨hlocals, htargets⟩ := Prod.mk.inj (Option.some.inj hresult)
  exact ⟨p, shared', h, lowerMethod_unmodeled rfl hnames h, hlocals, htargets⟩

end Lowering

end Unwind
