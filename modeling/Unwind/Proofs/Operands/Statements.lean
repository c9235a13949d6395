import Unwind.Proofs.Operands.Events
import Unwind.Proofs.Operands.Lockstep

/-!
# Operands of expanded statements

Statements are lowered in lockstep with what they are expanded to (`Transfers`): the expanded
statement is accepted where the statement is, and does the same to the operands, in the same order.
Every kind of statement has one lemma for its parts. A void call that is replaced becomes a cascade
of conditionals, in which only the first test takes operands (`Cascaded.transfers`).
-/

namespace Unwind.Operands

open Dispatch
open Lowering
open Source

/-! ## Expressions in lockstep -/

section

variable {env : Env} {e e' : Expr}

theorem StandsFor.follows_lowerExpr (h : StandsFor e e') (he : ∀ n ∈ e.nodes, n.CallIfVoid)
    (compound : Bool) : InStep (lowerExpr env e compound) (lowerExpr env e' compound) :=
  .draws (lowerExpr_draws e compound he) (lowerExpr_draws e' compound h.operand.voids)
    (h.serves compound).admissible (congrArg _ h.operand.popNodes)

theorem StandsFor.follows_value (h : StandsFor e e') (he : ∀ n ∈ e.nodes, n.CallIfVoid) :
    InStep (value env e) (value env e') :=
  .draws (lowerExpr_draws e false he).valueOf (lowerExpr_draws e' false h.operand.voids).valueOf
    h.operand.admissible (congrArg _ h.operand.popNodes)

theorem StandsFor.follows_condition (h : StandsFor e e') (he : ∀ n ∈ e.nodes, n.CallIfVoid) :
    InStep (condition env e) (condition env e') :=
  .draws (lowerExpr_draws e false he).conditionOf
    (lowerExpr_draws e' false h.operand.voids).conditionOf h.operand.admissible
    (congrArg _ h.operand.popNodes)

/-- Nothing follows from a step that is refused. -/
theorem Follows.unhandled {id : UInt32} {span : Span} {kind : StmtKind} {y : Lower Unit}
    (h : lowerStmt env ⟨id, span, kind⟩ =
      (do emitMarks env span kind; MonadExcept.throw (.unhandledStatement kind.name span))) :
    InStep (lowerStmt env ⟨id, span, kind⟩) y := by
  refine ⟨fun _ hrun => ?_⟩
  rw [h] at hrun
  obtain ⟨_, _, -, hrun⟩ := runs_bind.mp hrun
  exact absurd hrun not_runs_throw

theorem StandsFor.events (h : StandsFor e e') : e'.events = e.events :=
  congrArg (List.map Event.pop) h.operand.popNodes

theorem Follows.marked {span span' : Span} {kind kind' : StmtKind} {x y : Lower Unit}
    (h : InStep x y) :
    InStep (do emitMarks env span kind; x) (do emitMarks env span' kind'; y) :=
  Follows.next (.idle .emitMarks .emitMarks) fun _ _ => h

end

/-! ## Statements in lockstep -/

/-- Every node in these statements is a call if it is void. -/
def CallsIfVoid (ts : List Stmt) : Prop := ∀ t ∈ ts, ∀ n ∈ t.kind.nodes, n.CallIfVoid

instance (ts : List Stmt) : Decidable (CallsIfVoid ts) :=
  inferInstanceAs (Decidable (∀ t ∈ ts, ∀ n ∈ t.kind.nodes, n.CallIfVoid))

/-- The second statement is lowered in lockstep with the first one. It does the same to the operands
and has the same labels. -/
structure Transfers (env : Env) (s s' : Stmt) : Prop where
  lowered : InStep (lowerStmt env s) (lowerStmt env s')
  events : s'.events env.options.modelsExceptions = s.events env.options.modelsExceptions
  visited : ∀ enclosing sc,
    LabelScopes.visit enclosing s' sc = LabelScopes.visit enclosing s sc
  voids : CallsIfVoid s'.statements

structure TransfersAll (env : Env) (ss ss' : List Stmt) : Prop where
  lowered : InStep (lowerStmts env ss) (lowerStmts env ss')
  events : eventsIn env.options.modelsExceptions ss' = eventsIn env.options.modelsExceptions ss
  visited : ∀ enclosing sc,
    LabelScopes.visitAll enclosing ss' sc = LabelScopes.visitAll enclosing ss sc
  voids : CallsIfVoid (statementsIn ss')

structure TransfersOption (env : Env) (s s' : Option Stmt) : Prop where
  lowered : InStep (lowerOptional env s) (lowerOptional env s')
  finalized : ∀ region, InStep (lowerFinally env region s) (lowerFinally env region s')
  events : eventsInOption env.options.modelsExceptions s' =
    eventsInOption env.options.modelsExceptions s
  visited : ∀ enclosing sc,
    LabelScopes.visitOption enclosing s' sc = LabelScopes.visitOption enclosing s sc
  voids : CallsIfVoid (statementsInOption s')

structure TransfersCatches (env : Env) (cs cs' : List CatchClause) : Prop where
  lowered : ∀ region caught caught',
    InStep (lowerCatches env region caught cs) (lowerCatches env region caught' cs')
  types : cs'.map (·.exceptionType) = cs.map (·.exceptionType)
  events : eventsInCatches env.options.modelsExceptions cs' =
    eventsInCatches env.options.modelsExceptions cs
  visited : ∀ enclosing sc,
    LabelScopes.visitCatches enclosing cs' sc = LabelScopes.visitCatches enclosing cs sc
  voids : CallsIfVoid (statementsInCatches cs')

structure TransfersCases (env : Env) (cs cs' : List SwitchCase) : Prop where
  default : InStep (lowerDefault env cs) (lowerDefault env cs')
  lowered : ∀ v v' ds ds', InStep (lowerCases env v ds cs) (lowerCases env v' ds' cs')
  hasDefault : cs'.any (·.value.isNone) = cs.any (·.value.isNone)
  events : eventsInDefault env.options.modelsExceptions cs' =
      eventsInDefault env.options.modelsExceptions cs ∧
    eventsInCases env.options.modelsExceptions cs' = eventsInCases env.options.modelsExceptions cs
  visited : ∀ enclosing sc,
    LabelScopes.visitCases enclosing cs' sc = LabelScopes.visitCases enclosing cs sc
  values : ∀ n ∈ caseNodes cs', n.CallIfVoid
  voids : CallsIfVoid (statementsInCases cs')

section

variable {env : Env}

theorem TransfersAll.nil : TransfersAll env [] [] := by
  refine ⟨?_, rfl, fun _ _ => rfl, nofun⟩
  rw [lowerStmts]
  exact .pure trivial

theorem TransfersAll.cons {s s' : Stmt} {ss ss' : List Stmt} (h : Transfers env s s')
    (hs : TransfersAll env ss ss') : TransfersAll env (s :: ss) (s' :: ss') := by
  refine ⟨?_, ?_, fun enclosing sc => ?_, List.forall_mem_append.mpr ⟨h.voids, hs.voids⟩⟩
  · rw [lowerStmts, lowerStmts]
    exact h.lowered.next fun _ _ => hs.lowered
  · rw [eventsIn, h.events, hs.events, eventsIn]
  · rw [LabelScopes.visitAll, LabelScopes.visitAll, h.visited]
    simp only [hs.visited]

theorem TransfersOption.none : TransfersOption env none none := by
  refine ⟨?_, fun region => ?_, rfl, fun _ _ => rfl, nofun⟩
  · rw [lowerOptional]
    exact .pure trivial
  · rw [lowerFinally]
    exact .pure trivial

theorem TransfersOption.some {s s' : Stmt} (h : Transfers env s s') :
    TransfersOption env (some s) (some s') := by
  refine ⟨?_, fun region => ?_, h.events, h.visited, h.voids⟩
  · rw [lowerOptional, lowerOptional]
    exact h.lowered
  · rw [lowerFinally, lowerFinally]
    refine (follows_pushPhase region .inFinally).next fun _ _ => ?_
    refine Follows.next (.idle .saveForFinally .saveForFinally) fun saved saved' => ?_
    refine h.lowered.next fun _ _ => ?_
    refine Follows.next (.idle .restoreAfterFinally .restoreAfterFinally) fun _ _ => ?_
    exact follows_popPhase region .inFinally

theorem follows_bindCaught (caught caught' : String) (span : Span) (binding : Option Variable) :
    InStep (bindCaught env caught span binding) (bindCaught env caught' span binding) := by
  cases binding with
  | none => exact .pure trivial
  | some v =>
    refine (Follows.irTy v.ty span span).next fun _ _ => .idle ?_ ?_ <;>
      exact Draws.declareLocal.next fun _ => Draws.record.next fun _ => .emit

theorem TransfersCatches.nil : TransfersCatches env [] [] := by
  refine ⟨fun region caught caught' => ?_, rfl, rfl, fun _ _ => rfl, nofun⟩
  rw [lowerCatches, lowerCatches]
  exact .pure trivial

theorem TransfersCatches.cons {s s' : Stmt} {cs cs' : List CatchClause} (h : Transfers env s s')
    (hcs : TransfersCatches env cs cs') (span : Span) (type : Option TypeRef)
    (binding : Option Variable) :
    TransfersCatches env (⟨span, type, binding, s⟩ :: cs) (⟨span, type, binding, s'⟩ :: cs') := by
  refine ⟨fun region caught caught' => ?_, ?_, ?_, fun enclosing sc => ?_,
    List.forall_mem_append.mpr ⟨h.voids, hcs.voids⟩⟩
  · rw [lowerCatches, lowerCatches]
    refine Follows.next (.commandsOf ?_) fun _ _ =>
      (hcs.lowered region caught caught').next fun _ _ => .pure trivial
    refine (follows_bindCaught caught caught' span binding).next fun _ _ => ?_
    exact h.lowered.next fun _ _ => .idle .leaveNormally .leaveNormally
  · rw [List.map_cons, List.map_cons, hcs.types]
  · rw [eventsInCatches, h.events, hcs.events, eventsInCatches]
  · rw [LabelScopes.visitCatches, LabelScopes.visitCatches, h.visited]
    simp only [hcs.visited]

theorem TransfersCases.nil : TransfersCases env [] [] := by
  refine ⟨?_, fun v v' ds ds' => ?_, rfl, ⟨rfl, rfl⟩, fun _ _ => rfl, nofun, nofun⟩
  · rw [lowerDefault]
    exact .pure trivial
  · rw [lowerCases, lowerCases]
    exact .pure trivial

theorem TransfersCases.cons {e e' : Option Expr} {ss ss' : List Stmt} {cs cs' : List SwitchCase}
    (he : Option.Rel StandsFor e e') (hvoids : ∀ n ∈ nodesInOption e, n.CallIfVoid)
    (hss : TransfersAll env ss ss') (hcs : TransfersCases env cs cs') (span : Span) :
    TransfersCases env (⟨span, e, ss⟩ :: cs) (⟨span, e', ss'⟩ :: cs') := by
  have hsome : e'.isSome = e.isSome := by cases he <;> rfl
  refine ⟨?_, fun v v' ds ds' => ?_, ?_, ⟨?_, ?_⟩, fun enclosing sc => ?_, ?_,
    List.forall_mem_append.mpr ⟨hss.voids, hcs.voids⟩⟩
  · rw [lowerDefault, lowerDefault, hsome, hcs.hasDefault]
    split
    · exact hcs.default
    · exact hss.lowered.commandsOf
  · rw [lowerCases, lowerCases]
    refine (hcs.lowered v v' ds ds').next fun chain chain' => ?_
    cases he with
    | none => exact .pure trivial
    | some he =>
      exact (he.follows_value hvoids).next fun _ _ => hss.lowered.commandsOf.next fun _ _ =>
        .pure trivial
  · rw [List.any_cons, List.any_cons, hcs.hasDefault]
    cases he <;> rfl
  · rw [eventsInDefault, hsome, hcs.hasDefault, hcs.events.1, hss.events, eventsInDefault]
  · cases he with
    | none => rw [eventsInCases, hcs.events.2, eventsInCases]
    | some he => rw [eventsInCases, hcs.events.2, he.events, hss.events, eventsInCases]
  · rw [LabelScopes.visitCases, LabelScopes.visitCases, hss.visited]
    simp only [hcs.visited]
  · rw [caseNodes_cons]
    exact List.forall_mem_append.mpr ⟨(serves_option he).voids, hcs.values⟩

/-! ## The kinds of statements -/

theorem follows_lowerReturn (span : Span) {e e' : Option Expr} (he : Option.Rel StandsFor e e')
    (hvoids : ∀ n ∈ nodesInOption e, n.CallIfVoid) :
    InStep (lowerReturn env span e) (lowerReturn env span e') := by
  cases he with
  | none => exact .idle .emit .emit
  | @some e e' he =>
    refine (he.follows_value hvoids).next fun v v' => Follows.context.bind fun cx cx' hcx => ?_
    have hslot : cx'.returnVar = cx.returnVar := congrArg Control.returnVar hcx.control
    rw [hslot, he.ty]
    split
    · refine (Follows.irTy e.ty e.span e'.span).next fun _ _ => .idle ?_ ?_ <;>
        exact Draws.record.next fun _ => Draws.emit.next fun _ => .emit
    · exact Follows.next .throw fun _ _ => .idle .emit .emit

theorem follows_lowerThrow {e e' : Expr} (he : StandsFor e e')
    (hvoids : ∀ n ∈ e.nodes, n.CallIfVoid) : InStep (lowerThrow env e) (lowerThrow env e') := by
  unfold lowerThrow
  split
  · refine (he.follows_value hvoids).next fun _ _ => .idle ?_ ?_ <;>
      exact Draws.record.next fun _ => Draws.emit.next fun _ => .propagate
  · exact .idle .emit .emit

theorem follows_lowerLocalDecl (decl : Variable) {e e' : Option Expr}
    (he : Option.Rel StandsFor e e') (hvoids : ∀ n ∈ nodesInOption e, n.CallIfVoid) :
    InStep (lowerLocalDecl env decl e) (lowerLocalDecl env decl e') := by
  refine (Follows.irTy decl.ty _ _).next fun _ _ => ?_
  refine Follows.next (.idle .declareLocal .declareLocal) fun _ _ => ?_
  split
  · next hstruct =>
    obtain ⟨type, htype⟩ := exists_typeRef_of_isStruct hstruct
    have hdefault : InStep
        (do emit (.set decl.name (← value env (.ofKind (.defaultValue decl.ty) decl.ty))))
        (do emit (.set decl.name (← value env (.ofKind (.defaultValue decl.ty) decl.ty)))) := by
      have hty : decl.ty.isVoid = false := by
        cases hdecl : decl.ty with
        | void => simp [hdecl, Ty.typeRef?] at htype
        | _ => rfl
      have hvoids : ∀ n ∈ (Expr.ofKind (.defaultValue decl.ty) decl.ty).nodes, n.CallIfVoid :=
        List.forall_mem_singleton.mpr (callIfVoid_of_ty hty)
      have hd : Draws _ _ _ (value env (.ofKind (.defaultValue decl.ty) decl.ty)) :=
        (lowerExpr_draws _ false hvoids).valueOf
      exact (Follows.draws hd hd id rfl).next fun _ _ => .idle .emit .emit
    rw [htype]
    cases he with
    | none => exact hdefault
    | @some e e' he =>
      rw [Option.filter_some, Option.filter_some, he.isDefaultValue]
      cases isDefaultValue e with
      | true => exact hdefault
      | false =>
        refine Follows.next (.idle .withRegistry .withRegistry) fun _ _ => ?_
        exact (he.follows_value hvoids).next fun _ _ => .idle .emit .emit
  · cases he with
    | none => exact .pure trivial
    | some he =>
      refine (he.follows_value hvoids).next fun _ _ => .idle ?_ ?_ <;>
        exact Draws.record.next fun _ => .emit

/-- A statement that is expanded to itself, and does nothing to the operands. -/
theorem Transfers.refl {s : Stmt} (h : InStep (lowerStmt env s) (lowerStmt env s))
    (hvoids : CallsIfVoid s.statements) : Transfers env s s :=
  ⟨h, rfl, fun _ _ => rfl, hvoids⟩

namespace Transfers

variable {id : UInt32} {span : Span} {e e' : Expr} {o o' : Option Expr} {s s' t t' : Stmt}
  {ss ss' : List Stmt}

theorem block (h : TransfersAll env ss ss') :
    Transfers env ⟨id, span, .block ss⟩ ⟨id, span, .block ss'⟩ := by
  refine ⟨?_, h.events, h.visited, List.forall_mem_cons.mpr ⟨nofun, h.voids⟩⟩
  rw [lowerStmt, lowerStmt]
  exact .marked h.lowered

theorem assert (h : StandsFor e e') (he : ∀ n ∈ e.nodes, n.CallIfVoid) :
    Transfers env ⟨id, span, .assert e⟩ ⟨id, span, .assert e'⟩ := by
  refine ⟨?_, h.events, fun _ _ => rfl, List.forall_mem_singleton.mpr ?_⟩
  · rw [lowerStmt, lowerStmt]
    exact .marked ((h.follows_condition he).next fun _ _ => .idle .emit .emit)
  · exact List.forall_mem_append.mpr ⟨h.operand.voids, List.forall_mem_nil _⟩

theorem assume (h : StandsFor e e') (he : ∀ n ∈ e.nodes, n.CallIfVoid) :
    Transfers env ⟨id, span, .assume e⟩ ⟨id, span, .assume e'⟩ := by
  refine ⟨?_, h.events, fun _ _ => rfl, List.forall_mem_singleton.mpr ?_⟩
  · rw [lowerStmt, lowerStmt]
    exact .marked ((h.follows_condition he).next fun _ _ => .idle .emit .emit)
  · exact List.forall_mem_append.mpr ⟨h.operand.voids, List.forall_mem_nil _⟩

theorem throw (h : StandsFor e e') (he : ∀ n ∈ e.nodes, n.CallIfVoid) :
    Transfers env ⟨id, span, .throw e⟩ ⟨id, span, .throw e'⟩ := by
  refine ⟨?_, ?_, fun _ _ => rfl, List.forall_mem_singleton.mpr ?_⟩
  · rw [lowerStmt, lowerStmt]
    exact .marked (follows_lowerThrow h he)
  · rw [Stmt.events, h.events, Stmt.events]
  · exact List.forall_mem_append.mpr ⟨h.operand.voids, List.forall_mem_nil _⟩

theorem push (h : StandsFor e e') (he : ∀ n ∈ e.nodes, n.CallIfVoid) :
    Transfers env ⟨id, span, .push e⟩ ⟨id, span, .push e'⟩ := by
  refine ⟨?_, ?_, fun _ _ => rfl, List.forall_mem_singleton.mpr ?_⟩
  · rw [lowerStmt, lowerStmt]
    exact .marked ((h.follows_value he).next fun v v' => follows_pushOperand v v')
  · rw [Stmt.events, h.events, Stmt.events]
  · exact List.forall_mem_append.mpr ⟨h.operand.voids, List.forall_mem_nil _⟩

theorem expression (h : StandsFor e e') (he : ∀ n ∈ e.nodes, n.CallIfVoid) :
    Transfers env ⟨id, span, .expression e⟩ ⟨id, span, .expression e'⟩ := by
  refine ⟨?_, h.events, fun _ _ => rfl, List.forall_mem_singleton.mpr ?_⟩
  · rw [lowerStmt, lowerStmt, h.isCompound]
    exact .marked ((h.follows_lowerExpr he _).next fun _ _ => .pure trivial)
  · exact List.forall_mem_append.mpr ⟨h.operand.voids, List.forall_mem_nil _⟩

theorem branch (h : Transfers env s s') :
    InStep (commandsOf (do breadcrumb env; lowerStmt env s))
      (commandsOf (do breadcrumb env; lowerStmt env s')) :=
  Follows.commandsOf (Follows.next (.idle .breadcrumb .breadcrumb) fun _ _ => h.lowered)

theorem conditional (h : StandsFor e e') (he : ∀ n ∈ e.nodes, n.CallIfVoid)
    (hs : Transfers env s s') (ht : Transfers env t t') :
    Transfers env ⟨id, span, .conditional e s t⟩ ⟨id, span, .conditional e' s' t'⟩ := by
  refine ⟨?_, ?_, fun enclosing sc => ?_, List.forall_mem_cons.mpr ⟨?_, ?_⟩⟩
  · rw [lowerStmt, lowerStmt]
    exact .marked ((h.follows_condition he).next fun _ _ => hs.branch.next fun _ _ =>
      ht.branch.next fun _ _ => .idle .emit .emit)
  · rw [Stmt.events, h.events, hs.events, ht.events, Stmt.events]
  · rw [LabelScopes.visit, LabelScopes.visit, hs.visited]
    simp only [ht.visited]
  · exact List.forall_mem_append.mpr ⟨h.operand.voids, List.forall_mem_nil _⟩
  · exact List.forall_mem_append.mpr ⟨hs.voids, ht.voids⟩

theorem switch (h : StandsFor e e') (he : ∀ n ∈ e.nodes, n.CallIfVoid)
    {cs cs' : List SwitchCase} (hcs : TransfersCases env cs cs') :
    Transfers env ⟨id, span, .switch e cs⟩ ⟨id, span, .switch e' cs'⟩ := by
  refine ⟨?_, ?_, fun enclosing sc => ?_, List.forall_mem_cons.mpr ⟨?_, hcs.voids⟩⟩
  · rw [lowerStmt, lowerStmt]
    refine .marked ((h.follows_value he).next fun v v' => hcs.default.next fun ds ds' => ?_)
    -- a switch without a case emits its default branch alone
    refine (hcs.lowered v v' ds ds').next fun chain chain' => .idle ?_ ?_
    · cases chain with
      | some c => exact .emit
      | none => exact .emitAll
    · cases chain' with
      | some c => exact .emit
      | none => exact .emitAll
  · rw [Stmt.events, h.events, hcs.events.1, hcs.events.2, Stmt.events]
  · exact hcs.visited enclosing sc
  · exact List.forall_mem_append.mpr ⟨h.operand.voids, hcs.values⟩

theorem localDecl (h : Option.Rel StandsFor o o') (ho : ∀ n ∈ nodesInOption o, n.CallIfVoid)
    (decl : Variable) :
    Transfers env ⟨id, span, .localDecl decl o⟩ ⟨id, span, .localDecl decl o'⟩ := by
  have hserves := serves_option h
  refine ⟨?_, congrArg (List.map Event.pop) hserves.popNodes, fun _ _ => rfl,
    List.forall_mem_singleton.mpr ?_⟩
  · rw [lowerStmt, lowerStmt]
    exact .marked (follows_lowerLocalDecl decl h ho)
  · rw [nodesInOption_eq] at hserves
    exact hserves.voids

theorem ret (h : Option.Rel StandsFor o o') (ho : ∀ n ∈ nodesInOption o, n.CallIfVoid) :
    Transfers env ⟨id, span, .ret o⟩ ⟨id, span, .ret o'⟩ := by
  have hserves := serves_option h
  refine ⟨?_, congrArg (List.map Event.pop) hserves.popNodes, fun _ _ => rfl,
    List.forall_mem_singleton.mpr ?_⟩
  · rw [lowerStmt, lowerStmt]
    exact .marked (follows_lowerReturn span h ho)
  · rw [nodesInOption_eq] at hserves
    exact hserves.voids

theorem labeled (h : Transfers env s s') (name : String) :
    Transfers env ⟨id, span, .labeled name s⟩ ⟨id, span, .labeled name s'⟩ := by
  refine ⟨?_, h.events, fun enclosing sc => ?_, List.forall_mem_cons.mpr ⟨nofun, h.voids⟩⟩
  · rw [lowerStmt, lowerStmt]
    exact .marked (Follows.next (.idle .emit .emit) fun _ _ => h.lowered)
  · rw [LabelScopes.visit, LabelScopes.visit]
    simp only [h.visited]

theorem tryCatch (h : Transfers env s s') {cs cs' : List CatchClause}
    (hcs : TransfersCatches env cs cs') {f f' : Option Stmt} (hf : TransfersOption env f f') :
    Transfers env ⟨id, span, .tryCatch s cs f⟩ ⟨id, span, .tryCatch s' cs' f'⟩ := by
  refine ⟨?_, ?_, fun enclosing sc => ?_, List.forall_mem_cons.mpr ⟨nofun, ?_⟩⟩
  · rw [lowerStmt, lowerStmt, hcs.types]
    refine .marked ?_
    split
    · refine (follows_enterRegion id _).bind fun region region' hregion => ?_
      subst hregion
      refine (follows_pushPhase region' .inTry).next fun _ _ => h.lowered.next fun _ _ => ?_
      refine Follows.next (.idle .leaveNormally .leaveNormally) fun _ _ => ?_
      refine (follows_popPhase region' .inTry).next fun _ _ => ?_
      refine Follows.next (.idle .takeException .takeException) fun caught caught' => ?_
      refine (follows_pushPhase region' .inCatch).next fun _ _ => ?_
      refine (hcs.lowered region' caught caught').next fun _ _ => ?_
      refine Follows.next (.idle .finishCatches .finishCatches) fun _ _ => ?_
      refine (follows_popPhase region' .inCatch).next fun _ _ => ?_
      refine Follows.next (.idle .finallyLabel .finallyLabel) fun _ _ => ?_
      refine Follows.next (.idle .emit .emit) fun _ _ => ?_
      exact (hf.finalized region').next fun _ _ => .idle .finishRegion .finishRegion
    · exact h.lowered.next fun _ _ => hf.lowered
  · rw [Stmt.events, h.events, hcs.events, hf.events, Stmt.events]
  · rw [LabelScopes.visit, LabelScopes.visit]
    simp only [h.visited, hcs.visited, hf.visited]
  · exact List.forall_mem_append.mpr ⟨h.voids, List.forall_mem_append.mpr ⟨hcs.voids, hf.voids⟩⟩

/-! ### Loops -/

/-- A loop is refused before anything in it is lowered. -/
theorem whileLoop (h : StandsFor e e') (hs : Transfers env s s') :
    Transfers env ⟨id, span, .whileLoop e s⟩ ⟨id, span, .whileLoop e' s'⟩ := by
  refine ⟨?_, rfl, hs.visited, List.forall_mem_cons.mpr ⟨?_, hs.voids⟩⟩
  · exact .unhandled (by rw [lowerStmt])
  · exact List.forall_mem_append.mpr ⟨h.operand.voids, List.forall_mem_nil _⟩

theorem doUntil (h : StandsFor e e') (hs : Transfers env s s') :
    Transfers env ⟨id, span, .doUntil s e⟩ ⟨id, span, .doUntil s' e'⟩ := by
  refine ⟨.unhandled (by rw [lowerStmt]), rfl, hs.visited, List.forall_mem_cons.mpr ⟨?_, hs.voids⟩⟩
  exact List.forall_mem_append.mpr ⟨h.operand.voids, List.forall_mem_nil _⟩

theorem forEach (h : StandsFor e e') (hs : Transfers env s s') (item : Variable) :
    Transfers env ⟨id, span, .forEach item e s⟩ ⟨id, span, .forEach item e' s'⟩ := by
  refine ⟨.unhandled (by rw [lowerStmt]), rfl, hs.visited, List.forall_mem_cons.mpr ⟨?_, hs.voids⟩⟩
  exact List.forall_mem_append.mpr ⟨h.operand.voids, List.forall_mem_nil _⟩

theorem forLoop {ts ts' : List Stmt} (hss : TransfersAll env ss ss')
    (h : Option.Rel StandsFor o o') (hts : TransfersAll env ts ts') (hs : Transfers env s s') :
    Transfers env ⟨id, span, .forLoop ss o ts s⟩ ⟨id, span, .forLoop ss' o' ts' s'⟩ := by
  have hserves := serves_option h
  rw [nodesInOption_eq] at hserves
  refine ⟨.unhandled (by rw [lowerStmt]), rfl, fun enclosing sc => ?_,
    List.forall_mem_cons.mpr ⟨hserves.voids, ?_⟩⟩
  · rw [LabelScopes.visit, LabelScopes.visit, hss.visited]
    simp only [hts.visited, hs.visited]
  · exact List.forall_mem_append.mpr ⟨hss.voids, List.forall_mem_append.mpr ⟨hts.voids, hs.voids⟩⟩

end Transfers

end

/-! ## Cascades of statements -/

/-- The statement takes the operands `pops` and has no label. It is lowered when `ok` holds. -/
structure SpendsStmt (env : Env) (pops : List Expr) (ok : Prop) (s : Stmt) : Prop where
  lowered : ok → Draws True pops.length (fun _ => True) (lowerStmt env s)
  events : s.events env.options.modelsExceptions = pops.map .pop
  visited : ∀ enclosing sc, LabelScopes.visit enclosing s sc = .ok sc
  voids : CallsIfVoid s.statements

section

variable {env : Env} {h : Hierarchy} {pops : List Expr} {ok : Prop}

theorem Spends.stmt {e : Expr} (he : Spends [] ok e) (span : Span) :
    SpendsStmt env [] ok ((Stmt.expr e).withSpan span) := by
  refine ⟨fun hok => ?_, congrArg (List.map Event.pop) he.popNodes, fun _ _ => rfl,
    List.forall_mem_singleton.mpr (List.forall_mem_append.mpr ⟨he.voids, List.forall_mem_nil _⟩)⟩
  show Draws True 0 _ (lowerStmt env ⟨_, span, .expression e⟩)
  have hdraws : Draws _ _ _ (lowerExpr env e (isCompound e)) := lowerExpr_draws e _ he.voids
  rw [he.popNodes] at hdraws
  rw [lowerStmt]
  exact Draws.emitMarks.next fun _ =>
    (hdraws.congr (iff_of_true (he.admissible hok _) trivial) rfl).andThen fun _ _ _ =>
      .pure trivial

theorem Computes.joinStmts {c e : Expr} {rest : Stmt} (hc : Computes pops ok c)
    (he : Spends [] ok e) (hrest : SpendsStmt env [] ok rest) (span : Span) :
    SpendsStmt env pops ok (joinStmts span c e rest) := by
  have hthen : SpendsStmt env [] ok ((Stmt.expr e).withSpan span) := he.stmt span
  have hbranch : ∀ {s : Stmt}, SpendsStmt env [] ok s → ok →
      Idle (commandsOf (do breadcrumb env; lowerStmt env s)) := fun hs hok =>
    Draws.commandsOf (Draws.breadcrumb.next fun _ => hs.lowered hok)
  refine ⟨fun hok => ?_, ?_, fun enclosing sc => ?_, List.forall_mem_cons.mpr ⟨?_, ?_⟩⟩
  · have hcond : Draws _ _ _ (condition env c) := (lowerExpr_draws c false hc.voids).conditionOf
    rw [hc.popNodes] at hcond
    show Draws True _ _ (lowerStmt env ⟨_, span, .conditional c _ rest⟩)
    rw [lowerStmt]
    refine Draws.emitMarks.next fun _ => ?_
    refine (hcond.congr (iff_of_true (hc.valued hok) trivial) rfl).andThen fun _ _ _ => ?_
    exact (hbranch hthen hok).next fun _ => (hbranch hrest hok).next fun _ => .emit
  · show c.events ++ (Stmt.events _ ((Stmt.expr e).withSpan span) ++ rest.events _) = _
    rw [hthen.events, hrest.events, Expr.events, hc.popNodes]
    simp
  · show LabelScopes.visit enclosing ⟨_, span, .conditional c _ rest⟩ sc = .ok sc
    rw [LabelScopes.visit, hthen.visited]
    exact hrest.visited enclosing sc
  · exact List.forall_mem_append.mpr ⟨hc.voids, List.forall_mem_nil _⟩
  · exact List.forall_mem_append.mpr ⟨hthen.voids, hrest.voids⟩

/-- A cascade of statements takes what its first test takes. -/
theorem QuietCall.cascadeStmt {call : Call} {receiver : Expr} {result : Ty}
    (hc : QuietCall call receiver ok) (span : Span) {tested : Expr}
    (htested : Computes pops ok tested) {o : Override} {os : List Override}
    (hos : ∀ o' ∈ o :: os, (resultType h o'.method result).isVoid = result.isVoid) :
    SpendsStmt env pops ok (Dispatch.cascade (joinStmts span)
      (Dispatch.branch h call receiver result span) receiver span
      ((Stmt.expr (Dispatch.directCall call receiver call.method result span)).withSpan span)
      tested (o :: os)) := by
  have hbranch : ∀ o' ∈ o :: os, Spends [] ok (Dispatch.branch h call receiver result span o') :=
    fun o' ho' => hc.branch result span (hos o' ho')
  obtain ⟨ho, hos⟩ := List.forall_mem_cons.mp hbranch
  refine (htested.exactTypeTest o.type span).joinStmts ho ?_ span
  -- behind the first test, the receiver is only read
  clear * - hc hos
  induction os with
  | nil => exact (hc.directCall call.method result span).stmt span
  | cons o os ih =>
    obtain ⟨ho, hos⟩ := List.forall_mem_cons.mp hos
    exact (hc.receiver.exactTypeTest o.type span).joinStmts ho (ih hos) span

/-- The cascade of a void call is lowered in lockstep with the call. -/
theorem Cascaded.transfers {n : Expr} {call call' : Call} {receiver : Receiver}
    {os : List Override} (hd : Cascaded h n call' receiver os) (hn : n.call? = some call)
    (hvoids : ∀ m ∈ n.nodes, m.CallIfVoid) (id : UInt32) (span span' : Span) :
    Transfers env ⟨id, span', .expression n⟩ (Dispatch.cascade (joinStmts span)
      (Dispatch.branch h call' receiver.later n.ty span) receiver.later span
      ((Stmt.expr (Dispatch.directCall call' receiver.later call'.method n.ty span)).withSpan span)
      receiver.first os) := by
  have hcompound : isCompound n = false := by
    obtain ⟨id, nspan, ty, kind⟩ := n
    cases kind <;> cases hn
    rfl
  cases os with
  | nil => exact absurd rfl hd.nonempty
  | cons o os =>
    have hs : SpendsStmt env n.popNodes (n.Admissible false) _ :=
      hd.quiet.cascadeStmt span hd.first hd.results
    refine ⟨⟨fun ht hrun => ?_⟩, hs.events, hs.visited, hs.voids⟩
    have hdraws : Draws (n.Admissible false) n.popNodes.length (fun _ => True)
        (lowerStmt env ⟨id, span', .expression n⟩) := by
      rw [lowerStmt, hcompound]
      exact Draws.emitMarks.next fun _ =>
        (lowerExpr_draws n false hvoids).andThen fun _ _ _ => .pure trivial
    obtain ⟨hok, -⟩ := hdraws.drawn hrun
    exact (Follows.draws hdraws (hs.lowered hok) (fun _ => trivial) rfl).run ht hrun

end

end Unwind.Operands
