import Unwind.Proofs.Dispatch.Origins
import Unwind.Proofs.Modes.Operands
import Unwind.Proofs.Operands.Expressions

/-!
# What a body does to the operands

The pushes and pops of a body come in the order in which its parts are lowered, which is not always
the order of the source: the cases of a `switch` are lowered from the last to the first, behind the
default case. `Stmt.events` lists them. Which `push` a `pop` takes its operand from can be told from
this list alone (`takes`), since a `pop` takes the operand that was pushed last and is still there.
The lowering of a body plays its events one by one on the operands (`lowerStmt_performs`).
-/

namespace Unwind

namespace Source

/-! ## Events -/

/-- Something that happens to the operands. -/
inductive Event where
  /-- The `push` statement with this id and place leaves its value. -/
  | push (id : UInt32) (span : Span)
  /-- The expression, a `pop`, takes the value that was left last. -/
  | pop (node : Expr)

/-- The events of an expression. -/
def Expr.events (e : Expr) : List Event := e.popNodes.map .pop

def Expr.eventsInOption (e : Option Expr) : List Event := (popNodesInOption e).map .pop

mutual

/-- What a statement does to the operands, in the order in which it is lowered. A `throw` and the
catch clauses are lowered only when exceptions are modelled. -/
def Stmt.events (exceptions : Bool) : Stmt → List Event
  | ⟨id, span, kind⟩ =>
    match kind with
    | .push e => e.events ++ [.push id span]
    | .block stmts => eventsIn exceptions stmts
    | .assert e | .assume e | .expression e => e.events
    | .throw e => if exceptions then e.events else []
    | .conditional cond thenBranch elseBranch =>
      cond.events ++ (thenBranch.events exceptions ++ elseBranch.events exceptions)
    | .switch scrutinee cases =>
      scrutinee.events ++ (eventsInDefault exceptions cases ++ eventsInCases exceptions cases)
    | .localDecl _ e | .ret e => Expr.eventsInOption e
    | .labeled _ body => body.events exceptions
    | .tryCatch body catches finalizer =>
      body.events exceptions ++
        ((if exceptions then eventsInCatches exceptions catches else []) ++
          eventsInOption exceptions finalizer)
    | _ => []

def eventsIn (exceptions : Bool) : List Stmt → List Event
  | [] => []
  | s :: ss => s.events exceptions ++ eventsIn exceptions ss

def eventsInOption (exceptions : Bool) : Option Stmt → List Event
  | none => []
  | some s => s.events exceptions

def eventsInCatches (exceptions : Bool) : List CatchClause → List Event
  | [] => []
  | ⟨_, _, _, body⟩ :: clauses => body.events exceptions ++ eventsInCatches exceptions clauses

/-- The last default case counts. -/
def eventsInDefault (exceptions : Bool) : List SwitchCase → List Event
  | [] => []
  | ⟨_, value, body⟩ :: cases =>
    if value.isSome || cases.any (·.value.isNone) then eventsInDefault exceptions cases
    else eventsIn exceptions body

/-- The other cases, the last one first. -/
def eventsInCases (exceptions : Bool) : List SwitchCase → List Event
  | [] => []
  | ⟨_, value, body⟩ :: cases =>
    eventsInCases exceptions cases ++
      match value with
      | some e => e.events ++ eventsIn exceptions body
      | none => []

end

/-- Every `pop` with the id and place of the `push` statement whose operand it takes, if there is
one. Those in `pending` have left their operands in front of the events. -/
def takes : List Event → List (UInt32 × Span) → List (Expr × Option (UInt32 × Span))
  | [], _ => []
  | .push id span :: es, pending => takes es ((id, span) :: pending)
  | .pop e :: es, pending => (e, pending.head?) :: takes es pending.tail

end Source

namespace Operands

open Lowering
open Dispatch (caseNodes caseNodes_cons)
open Modes
open Source (CatchClause Event Expr Stmt SwitchCase Variable eventsIn eventsInCases eventsInCatches
  eventsInDefault eventsInOption statementsIn statementsInCases
  statementsInCatches statementsInOption takes)

/-! ## Playing events -/

/-- The events turn the first list of operands into the second one. -/
inductive Plays : List Event → List Ir.Expr → List Ir.Expr → Prop
  | nil {ops : List Ir.Expr} : Plays [] ops ops
  | push {id : UInt32} {span : Span} {v : Ir.Expr} {es : List Event} {ops ops' : List Ir.Expr} :
      Plays es (v :: ops) ops' → Plays (.push id span :: es) ops ops'
  | pop {e : Expr} {v : Ir.Expr} {es : List Event} {ops ops' : List Ir.Expr} :
      Plays es ops ops' → Plays (.pop e :: es) (v :: ops) ops'

theorem Plays.append {es es' : List Event} {ops ops₁ ops' : List Ir.Expr} (h : Plays es ops ops₁)
    (h' : Plays es' ops₁ ops') : Plays (es ++ es') ops ops' := by
  induction h with
  | nil => exact h'
  | push _ ih => exact .push (ih h')
  | pop _ ih => exact .pop (ih h')

/-- Where the events can be played, every `pop` takes the operand of a `push`. -/
theorem Plays.takes_isSome {es : List Event} {ops ops' : List Ir.Expr} (h : Plays es ops ops')
    {pending : List (UInt32 × Span)} (hlen : pending.length = ops.length) :
    ∀ take ∈ takes es pending, take.2.isSome = true := by
  induction h generalizing pending with
  | nil => exact nofun
  | push _ ih => exact ih (congrArg (· + 1) hlen)
  | pop _ ih =>
    cases pending with
    | nil => cases hlen
    | cons _ pending => exact List.forall_mem_cons.mpr ⟨rfl, ih (Nat.succ.inj hlen)⟩

theorem plays_pops (es : List Expr) {ops : List Ir.Expr} (h : es.length ≤ ops.length) :
    Plays (es.map .pop) ops (ops.drop es.length) := by
  induction es generalizing ops with
  | nil => exact .nil
  | cons e es ih =>
    cases ops with
    | nil => simp at h
    | cons v ops => exact .pop (ih (by simpa using h))

/-- When the step succeeds, it has played the events on the operands. -/
structure Performs {α : Type} (es : List Event) (act : Lower α) : Prop where
  plays : ∀ {s s' : State} {a : α}, Runs act s a s' → Plays es s.operands s'.operands

namespace Performs

variable {α β : Type} {es es' : List Event} {x : Lower α} {f : α → Lower β}

theorem of_keeps (h : Keeps x) : Performs [] x := by
  refine ⟨fun hrun => ?_⟩
  rw [(h.kept hrun).operands]
  exact .nil

theorem bind (hx : Performs es x) (hf : ∀ a, Performs es' (f a)) :
    Performs (es ++ es') (x >>= f) := by
  refine ⟨fun h => ?_⟩
  obtain ⟨a, s₁, h₁, h₂⟩ := runs_bind.mp h
  exact (hx.plays h₁).append ((hf a).plays h₂)

/-- Nothing happens in front. -/
theorem next (hx : Keeps x) (hf : ∀ a, Performs es (f a)) : Performs es (x >>= f) :=
  (of_keeps hx).bind hf

/-- Nothing happens behind. -/
theorem andThen (hx : Performs es x) (hf : ∀ a, Keeps (f a)) : Performs es (x >>= f) := by
  rw [← List.append_nil es]
  exact hx.bind fun a => of_keeps (hf a)

theorem commandsOf {act : Lower Unit} (h : Performs es act) :
    Performs es (Lowering.commandsOf act) := by
  refine ⟨fun hrun => ?_⟩
  obtain ⟨s₁, h₁, -, rfl⟩ := runs_commandsOf.mp hrun
  have hplays := h.plays h₁
  exact hplays

theorem of_draws {ok : Prop} {P : α → Prop} {pops : List Expr} (h : Draws ok pops.length P x) :
    Performs (pops.map .pop) x := by
  refine ⟨fun hrun => ?_⟩
  obtain ⟨-, hd, -⟩ := h.drawn hrun
  rw [hd.operands]
  exact plays_pops pops hd.enough

end Performs

section

variable {env : Env}

theorem lowerExpr_performs {e : Expr} (compound : Bool) (he : ∀ n ∈ e.nodes, n.CallIfVoid) :
    Performs e.events (lowerExpr env e compound) := .of_draws (lowerExpr_draws e compound he)

theorem value_performs {e : Expr} (he : ∀ n ∈ e.nodes, n.CallIfVoid) :
    Performs e.events (value env e) := .of_draws (lowerExpr_draws e false he).valueOf

theorem condition_performs {e : Expr} (he : ∀ n ∈ e.nodes, n.CallIfVoid) :
    Performs e.events (condition env e) := .of_draws (lowerExpr_draws e false he).conditionOf

/-! ## Statements -/

theorem pushOperand_performs (id : UInt32) (span : Span) (v : Ir.Expr) :
    Performs [.push id span] (pushOperand v) := by
  refine ⟨fun h => ?_⟩
  rw [pushOperand, changeContext, runs_modify] at h
  subst h
  exact .push .nil

theorem lowerReturn_performs {span : Span} {e : Option Expr}
    (he : ∀ n ∈ e.toList.flatMap Expr.nodes, n.CallIfVoid) :
    Performs (Expr.eventsInOption e) (lowerReturn env span e) := by
  cases e with
  | none => exact .of_keeps .emit
  | some e =>
    refine (value_performs (List.forall_mem_append.mp he).1).andThen fun _ =>
      Keeps.context.bind fun cx => ?_
    split
    · exact Keeps.lift.bind fun _ => Keeps.record.bind fun _ => Keeps.emit.bind fun _ => .emit
    · exact Keeps.throw.bind fun _ => .emit

theorem events_of_isDefaultValue {e : Expr} (h : isDefaultValue e = true) : e.events = [] := by
  obtain ⟨id, span, ty, kind⟩ := e
  cases kind with
  | defaultValue => rfl
  | _ => cases h

theorem exists_typeRef_of_isStruct {types : TypeTable} {ty : Source.Ty}
    (h : types.isStruct ty = true) : ∃ type, ty.typeRef? = some type := by
  cases ty with
  | named type => exact ⟨type, rfl⟩
  | _ => cases h

theorem lowerLocalDecl_performs {decl : Variable} {init : Option Expr}
    (he : ∀ n ∈ init.toList.flatMap Expr.nodes, n.CallIfVoid) :
    Performs (Expr.eventsInOption init) (lowerLocalDecl env decl init) := by
  refine .next .lift fun ty => .next .declareLocal fun _ => ?_
  have hdefault : Keeps (value env (.ofKind (.defaultValue decl.ty) decl.ty)) := keeps_value rfl
  split
  · next hstruct =>
    obtain ⟨type, htype⟩ := exists_typeRef_of_isStruct hstruct
    rw [htype]
    cases init with
    | none => exact .of_keeps (hdefault.bind fun _ => .emit)
    | some e =>
      cases hd : isDefaultValue e with
      | true =>
        have hnone : (some e).filter (!isDefaultValue ·) = none := by simp [hd]
        have hevents : Expr.eventsInOption (some e) = [] := events_of_isDefaultValue hd
        rw [hnone, hevents]
        exact .of_keeps (hdefault.bind fun _ => .emit)
      | false =>
        have hsome : (some e).filter (!isDefaultValue ·) = some e := by simp [hd]
        rw [hsome]
        refine .next (.withRegistry fun r type' => ?_) fun _ =>
          (value_performs (List.forall_mem_append.mp he).1).andThen fun _ => .emit
        exact Registry.structCopy_structCopy r type type'
  · cases init with
    | none => exact .of_keeps .pure
    | some e =>
      exact (value_performs (List.forall_mem_append.mp he).1).andThen fun _ =>
        Keeps.record.bind fun _ => .emit

theorem lowerThrow_performs {e : Expr} (he : ∀ n ∈ e.nodes, n.CallIfVoid) :
    Performs (if env.options.modelsExceptions then e.events else []) (lowerThrow env e) := by
  unfold lowerThrow
  split
  · exact (value_performs he).andThen fun _ => Keeps.record.bind fun _ => Keeps.emit.bind fun _ =>
      .propagate
  · exact .of_keeps .emit

mutual

/-- The lowering of a statement plays its events. -/
theorem lowerStmt_performs (s : Stmt)
    (hs : ∀ t ∈ s.statements, ∀ n ∈ t.kind.nodes, n.CallIfVoid) :
    Performs (s.events env.options.modelsExceptions) (lowerStmt env s) := by
  have hown := hs s s.mem_statements
  have hin : ∀ t ∈ s.statements.tail, ∀ n ∈ t.kind.nodes, n.CallIfVoid :=
    fun t ht => hs t (List.mem_of_mem_tail ht)
  obtain ⟨id, span, kind⟩ := s
  have hmarked : ∀ {es : List Event} {act : Lower Unit}, Performs es act →
      Performs es (do emitMarks env span kind; act) := fun h => .next .emitMarks fun _ => h
  cases kind with
  | empty =>
    rw [lowerStmt]
    exact hmarked (.of_keeps .pure)
  | breakLoop | continueLoop | whileLoop | doUntil | forLoop | forEach =>
    simp only [lowerStmt]
    exact hmarked (.of_keeps .throw)
  | block stmts =>
    rw [lowerStmt]
    exact hmarked (lowerStmts_performs stmts hin)
  | assert cond =>
    rw [lowerStmt]
    exact hmarked ((condition_performs (List.forall_mem_append.mp hown).1).andThen fun _ =>
      keeps_emitAssertion)
  | assume cond =>
    rw [lowerStmt]
    exact hmarked ((condition_performs (List.forall_mem_append.mp hown).1).andThen fun _ => .emit)
  | push e =>
    rw [lowerStmt]
    exact hmarked ((value_performs (List.forall_mem_append.mp hown).1).bind fun v =>
      pushOperand_performs id span v)
  | expression e =>
    rw [lowerStmt]
    exact hmarked ((lowerExpr_performs _ (List.forall_mem_append.mp hown).1).andThen fun _ => .pure)
  | throw e =>
    rw [lowerStmt]
    exact hmarked (lowerThrow_performs (List.forall_mem_append.mp hown).1)
  | conditional cond thenBranch elseBranch =>
    obtain ⟨ht, he⟩ := List.forall_mem_append.mp hin
    have hbranch : ∀ {es : List Event} {s : Stmt}, Performs es (lowerStmt env s) →
        Performs es (commandsOf (do breadcrumb env; lowerStmt env s)) :=
      fun h => (Performs.next .breadcrumb fun _ => h).commandsOf
    rw [lowerStmt]
    exact hmarked ((condition_performs (List.forall_mem_append.mp hown).1).bind fun _ =>
      (hbranch (lowerStmt_performs thenBranch ht)).bind fun _ =>
        (hbranch (lowerStmt_performs elseBranch he)).andThen fun _ => .emit)
  | switch scrutinee cases =>
    obtain ⟨hscrutinee, hvalues⟩ := List.forall_mem_append.mp hown
    rw [lowerStmt]
    refine hmarked ((value_performs hscrutinee).bind fun v =>
      (lowerDefault_performs cases hin).bind fun ds =>
        (lowerCases_performs cases hvalues hin).andThen fun chain => ?_)
    cases chain with
    | some c => exact .emit
    | none => exact .emitAll
  | localDecl decl init =>
    rw [lowerStmt]
    exact hmarked (lowerLocalDecl_performs hown)
  | ret value =>
    rw [lowerStmt]
    exact hmarked (lowerReturn_performs hown)
  | goto label =>
    rw [lowerStmt]
    exact hmarked (.of_keeps keeps_lowerGoto)
  | rethrow =>
    rw [lowerStmt]
    exact hmarked (.of_keeps keeps_lowerRethrow)
  | labeled label body =>
    rw [lowerStmt]
    exact hmarked (.next .emit fun _ => lowerStmt_performs body hin)
  | tryCatch body catches finalizer =>
    obtain ⟨hb, hcf⟩ := List.forall_mem_append.mp hin
    obtain ⟨hc, hf⟩ := List.forall_mem_append.mp hcf
    have hbody := lowerStmt_performs body hb
    rw [lowerStmt, Stmt.events]
    refine hmarked ?_
    split
    · refine .next keeps_enterRegion fun region => .next .pushPhase fun _ => hbody.bind fun _ => ?_
      refine .next keeps_leaveNormally fun _ => .next .popPhase fun _ => ?_
      refine .next keeps_takeException fun caught => .next .pushPhase fun _ => ?_
      refine (lowerCatches_performs catches hc).bind fun _ => ?_
      refine .next keeps_finishCatches fun _ => .next .popPhase fun _ => ?_
      refine .next .finallyLabel fun _ => .next .emit fun _ => ?_
      exact (lowerFinally_performs finalizer hf).andThen fun _ => keeps_finishRegion
    · exact hbody.bind fun _ => lowerOptional_performs finalizer hf

theorem lowerStmts_performs (ss : List Stmt)
    (hs : ∀ t ∈ statementsIn ss, ∀ n ∈ t.kind.nodes, n.CallIfVoid) :
    Performs (eventsIn env.options.modelsExceptions ss) (lowerStmts env ss) := by
  cases ss with
  | nil =>
    rw [lowerStmts]
    exact .of_keeps .pure
  | cons s ss =>
    obtain ⟨hs, hss⟩ := List.forall_mem_append.mp hs
    rw [lowerStmts]
    exact (lowerStmt_performs s hs).bind fun _ => lowerStmts_performs ss hss

theorem lowerOptional_performs (s : Option Stmt)
    (hs : ∀ t ∈ statementsInOption s, ∀ n ∈ t.kind.nodes, n.CallIfVoid) :
    Performs (eventsInOption env.options.modelsExceptions s) (lowerOptional env s) := by
  cases s with
  | none =>
    rw [lowerOptional]
    exact .of_keeps .pure
  | some s =>
    rw [lowerOptional]
    exact lowerStmt_performs s hs

theorem lowerFinally_performs {region : Nat} (s : Option Stmt)
    (hs : ∀ t ∈ statementsInOption s, ∀ n ∈ t.kind.nodes, n.CallIfVoid) :
    Performs (eventsInOption env.options.modelsExceptions s) (lowerFinally env region s) := by
  cases s with
  | none =>
    rw [lowerFinally]
    exact .of_keeps .pure
  | some s =>
    rw [lowerFinally]
    exact .next .pushPhase fun _ => .next keeps_saveForFinally fun _ =>
      (lowerStmt_performs s hs).andThen fun _ => keeps_restoreAfterFinally.bind fun _ => .popPhase

theorem lowerCatches_performs {region : Nat} {caught : String} (clauses : List CatchClause)
    (hs : ∀ t ∈ statementsInCatches clauses, ∀ n ∈ t.kind.nodes, n.CallIfVoid) :
    Performs (eventsInCatches env.options.modelsExceptions clauses)
      (lowerCatches env region caught clauses) := by
  cases clauses with
  | nil =>
    rw [lowerCatches]
    exact .of_keeps .pure
  | cons clause clauses =>
    obtain ⟨span, type, binding, body⟩ := clause
    obtain ⟨hb, hc⟩ := List.forall_mem_append.mp hs
    rw [lowerCatches]
    refine Performs.bind (Performs.commandsOf ?_) fun _ =>
      (lowerCatches_performs clauses hc).andThen fun _ => .pure
    exact .next keeps_bindCaught fun _ => (lowerStmt_performs body hb).andThen fun _ =>
      keeps_leaveNormally

theorem lowerDefault_performs (cases : List SwitchCase)
    (hs : ∀ t ∈ statementsInCases cases, ∀ n ∈ t.kind.nodes, n.CallIfVoid) :
    Performs (eventsInDefault env.options.modelsExceptions cases) (lowerDefault env cases) := by
  cases cases with
  | nil =>
    rw [lowerDefault]
    exact .of_keeps .pure
  | cons case cases =>
    obtain ⟨span, value, body⟩ := case
    obtain ⟨hb, hc⟩ := List.forall_mem_append.mp hs
    rw [lowerDefault, eventsInDefault]
    split
    · exact lowerDefault_performs cases hc
    · exact (lowerStmts_performs body hb).commandsOf

theorem lowerCases_performs {v : Ir.Expr} {ds : List Ir.Cmd} (cases : List SwitchCase)
    (hvalues : ∀ n ∈ caseNodes cases, n.CallIfVoid)
    (hs : ∀ t ∈ statementsInCases cases, ∀ n ∈ t.kind.nodes, n.CallIfVoid) :
    Performs (eventsInCases env.options.modelsExceptions cases) (lowerCases env v ds cases) := by
  cases cases with
  | nil =>
    rw [lowerCases]
    exact .of_keeps .pure
  | cons case cases =>
    obtain ⟨span, value, body⟩ := case
    obtain ⟨hb, hc⟩ := List.forall_mem_append.mp hs
    rw [caseNodes_cons] at hvalues
    obtain ⟨hv, hvs⟩ := List.forall_mem_append.mp hvalues
    rw [lowerCases]
    cases value with
    | none => exact (lowerCases_performs cases hvs hc).bind fun _ => .of_keeps .pure
    | some e =>
      exact (lowerCases_performs cases hvs hc).bind fun chain => (value_performs hv).bind fun _ =>
        (lowerStmts_performs body hb).commandsOf.andThen fun _ => .pure

end

end

end Operands

end Unwind
