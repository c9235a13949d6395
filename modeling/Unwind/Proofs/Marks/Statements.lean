import Mathlib.Algebra.BigOperators.Group.List.Basic
import Mathlib.Tactic.Abel
import Unwind.Proofs.Marks.Expressions

/-!
# How many marks a body gets

A statement gets a state marker unless it is a block or empty, and a conditional gets a breadcrumb
at the head of each branch. `Stmt.live` lists the statements that are lowered at all: of several
default cases of a switch only the last one is, and without exceptions no catch clause is. The
lowering of a body leaves exactly the marks of its live statements behind (`lowerStmt_leaves`), each
statement being lowered once. With exceptions, and with at most one default case in every switch,
all statements are live (`Stmt.live_perm`).
-/

namespace Unwind

open Source (CatchClause Expr MethodRef Stmt StmtKind SwitchCase TypeRef Variable)

namespace Source

/-! ## Statements that are lowered -/

mutual

/-- The statement and every statement inside it that is lowered. Loops, which are never lowered,
count with all that stands in them. -/
def Stmt.live (exceptions : Bool) : Stmt → List Stmt
  | ⟨id, span, kind⟩ =>
    ⟨id, span, kind⟩ ::
      match kind with
      | .block stmts => liveIn exceptions stmts
      | .conditional _ thenBranch elseBranch =>
        thenBranch.live exceptions ++ elseBranch.live exceptions
      | .whileLoop _ body | .doUntil body _ | .forEach _ _ body => body.statements
      | .forLoop init _ step body => statementsIn init ++ (statementsIn step ++ body.statements)
      | .switch _ cases => liveDefault exceptions cases ++ liveCases exceptions cases
      | .labeled _ body => body.live exceptions
      | .tryCatch body catches finalizer =>
        body.live exceptions ++
          ((if exceptions then liveInCatches exceptions catches else []) ++
            liveInOption exceptions finalizer)
      | _ => []

def liveIn (exceptions : Bool) : List Stmt → List Stmt
  | [] => []
  | s :: ss => s.live exceptions ++ liveIn exceptions ss

/-- Those of the last default case. -/
def liveDefault (exceptions : Bool) : List SwitchCase → List Stmt
  | [] => []
  | ⟨_, value, body⟩ :: cases =>
    if value.isSome || cases.any (·.value.isNone) then liveDefault exceptions cases
    else liveIn exceptions body

/-- Those of the other cases. -/
def liveCases (exceptions : Bool) : List SwitchCase → List Stmt
  | [] => []
  | ⟨_, value, body⟩ :: cases =>
    match value with
    | some _ => liveIn exceptions body ++ liveCases exceptions cases
    | none => liveCases exceptions cases

def liveInCatches (exceptions : Bool) : List CatchClause → List Stmt
  | [] => []
  | ⟨_, _, _, body⟩ :: clauses => body.live exceptions ++ liveInCatches exceptions clauses

def liveInOption (exceptions : Bool) : Option Stmt → List Stmt
  | none => []
  | some s => s.live exceptions

end

theorem Stmt.live_eq (exceptions : Bool) (s : Stmt) :
    s.live exceptions = s :: (s.live exceptions).tail := by
  obtain ⟨id, span, kind⟩ := s
  cases kind <;> rfl

theorem liveDefault_eq_nil {exceptions : Bool} {cases : List SwitchCase}
    (h : cases.countP (·.value.isNone) = 0) : liveDefault exceptions cases = [] := by
  induction cases with
  | nil => rfl
  | cons case cases ih =>
    obtain ⟨span, value, body⟩ := case
    cases value with
    | none => simp at h
    | some e =>
      rw [liveDefault, Option.isSome_some, Bool.true_or, if_pos rfl]
      exact ih (by simpa using h)

mutual

/-- With exceptions, and with at most one default case in every switch, all statements are
lowered. -/
theorem Stmt.live_perm (s : Stmt) (h : s.oneDefault = true) : (s.live true).Perm s.statements := by
  obtain ⟨id, span, kind⟩ := s
  cases kind with
  | block stmts => exact (liveIn_perm stmts h).cons _
  | conditional cond thenBranch elseBranch =>
    rw [Stmt.oneDefault, Bool.and_eq_true] at h
    exact ((Stmt.live_perm thenBranch h.1).append (Stmt.live_perm elseBranch h.2)).cons _
  | switch scrutinee cases =>
    rw [Stmt.oneDefault, Bool.and_eq_true, decide_eq_true_eq] at h
    exact (liveCases_perm cases h.1 h.2).cons _
  | labeled name body => exact (Stmt.live_perm body h).cons _
  | tryCatch body catches finalizer =>
    rw [Stmt.oneDefault, Bool.and_eq_true, Bool.and_eq_true] at h
    exact ((Stmt.live_perm body h.1.1).append
      ((liveInCatches_perm catches h.1.2).append (liveInOption_perm finalizer h.2))).cons _
  | _ => exact .refl _

theorem liveIn_perm (ss : List Stmt) (h : oneDefaultIn ss = true) :
    (liveIn true ss).Perm (statementsIn ss) := by
  cases ss with
  | nil => exact .nil
  | cons s ss =>
    rw [oneDefaultIn, Bool.and_eq_true] at h
    exact (Stmt.live_perm s h.1).append (liveIn_perm ss h.2)

theorem liveCases_perm (cases : List SwitchCase) (hone : cases.countP (·.value.isNone) ≤ 1)
    (h : oneDefaultInCases cases = true) :
    (liveDefault true cases ++ liveCases true cases).Perm (statementsInCases cases) := by
  cases cases with
  | nil => exact .nil
  | cons case cases =>
    obtain ⟨span, value, body⟩ := case
    rw [oneDefaultInCases, Bool.and_eq_true] at h
    have hbody := liveIn_perm body h.1
    cases value with
    | some e =>
      rw [liveDefault, Option.isSome_some, Bool.true_or, if_pos rfl]
      refine .trans ?_ (hbody.append (liveCases_perm cases (by simpa using hone) h.2))
      rw [liveCases, ← List.append_assoc, ← List.append_assoc]
      exact List.perm_append_comm.append_right _
    | none =>
      have hnone : cases.countP (·.value.isNone) = 0 := by simpa using hone
      have hcases := liveCases_perm cases (hnone ▸ Nat.zero_le 1) h.2
      rw [liveDefault_eq_nil hnone, List.nil_append] at hcases
      have hany : cases.any (·.value.isNone) = false := by
        simpa [List.countP_eq_zero] using hnone
      rw [liveDefault, hany]
      exact hbody.append hcases

theorem liveInCatches_perm (clauses : List CatchClause) (h : oneDefaultInCatches clauses = true) :
    (liveInCatches true clauses).Perm (statementsInCatches clauses) := by
  cases clauses with
  | nil => exact .nil
  | cons clause clauses =>
    obtain ⟨span, type, binding, body⟩ := clause
    rw [oneDefaultInCatches, Bool.and_eq_true] at h
    exact (Stmt.live_perm body h.1).append (liveInCatches_perm clauses h.2)

theorem liveInOption_perm (s : Option Stmt) (h : oneDefaultInOption s = true) :
    (liveInOption true s).Perm (statementsInOption s) := by
  cases s with
  | none => exact .nil
  | some s => exact Stmt.live_perm s h

end

end Source

namespace Lowering

open Ir (Cmd)

/-! ## Marks of statements -/

/-- One mark where such marks are switched on. -/
def once (o : Options) (k : Mark) : Mark → Nat := if k.isOn o then Pi.single k 1 else 0

/-- The marks of a statement, those of the statements inside it apart. -/
def ownMarks (o : Options) (s : Stmt) : Mark → Nat :=
  (if carriesMarks s.kind then once o .state else 0) +
    if s.isConditional then once o .branch + once o .branch else 0

/-- The marks of statements. -/
def marksOf (o : Options) (ss : List Stmt) : Mark → Nat := (ss.map (ownMarks o)).sum

@[simp]
theorem marksOf_nil (o : Options) : marksOf o [] = 0 := rfl

@[simp]
theorem marksOf_cons (o : Options) (s : Stmt) (ss : List Stmt) :
    marksOf o (s :: ss) = ownMarks o s + marksOf o ss := List.sum_cons

@[simp]
theorem marksOf_append (o : Options) (ss ts : List Stmt) :
    marksOf o (ss ++ ts) = marksOf o ss + marksOf o ts := by
  rw [marksOf, List.map_append, List.sum_append, marksOf, marksOf]

section

variable {P : MethodRef → Prop} {env : Env} {s s' : State}

theorem Leaves.breadcrumb : Leaves P (once env.options .branch) (Lowering.breadcrumb env) := by
  unfold once Lowering.breadcrumb
  split
  · next h =>
    rw [if_pos (show env.options.instrumentBranches = true from h)]
    exact .mark .branch
  · next h =>
    rw [if_neg (show ¬ env.options.instrumentBranches = true from h)]
    exact .pure

theorem tally_sourceMark (span : Span) (r : Registry) : Tally P 0 r [sourceMark env span] r :=
  (Tally.nil r).snoc nofun (fun k => by cases k <;> rfl) fun _ => nofun

theorem emitMarks_leaves {span : Span} (kind : StmtKind) :
    Leaves P (if carriesMarks kind then once env.options .state else 0)
      (emitMarks env span kind) := by
  rw [emitMarks_eq]
  split
  · refine .andThen (.ite (.emit (tally_sourceMark span)) .pure) fun _ => ?_
    unfold once
    split
    · next h =>
      rw [if_pos (show env.options.captureState = true from h)]
      exact .mark .state
    · next h =>
      rw [if_neg (show ¬ env.options.captureState = true from h)]
      exact .pure
  · exact .pure

theorem lowerReturn_leaves {span : Span} {e : Option Expr}
    (he : ∀ e' ∈ e, ∀ m ∈ e'.callees, P m) : Leaves P 0 (lowerReturn env span e) := by
  unfold lowerReturn
  cases e with
  | none => exact .emitPlain rfl rfl
  | some e =>
    refine (value_leaves e (he e rfl)).andThen fun v => Leaves.context.andThen fun cx => ?_
    dsimp only
    split
    · exact Leaves.lift.andThen fun _ => Leaves.record.andThen fun _ =>
        (Leaves.emitPlain rfl rfl).andThen fun _ => .emitPlain rfl rfl
    · exact Leaves.throw.andThen fun _ => .emitPlain rfl rfl

theorem lowerThrow_leaves {e : Expr} (he : ∀ m ∈ e.callees, P m) :
    Leaves P 0 (lowerThrow env e) := by
  refine .ite ?_ (.emitPlain rfl rfl)
  exact (value_leaves e he).andThen fun _ => Leaves.record.andThen fun _ =>
    (Leaves.emitPlain rfl rfl).andThen fun _ => propagate_leaves

theorem lowerRethrow_leaves {span : Span} : Leaves P 0 (lowerRethrow env span) := by
  refine .ite (Leaves.context.andThen fun cx => ?_) (.emitPlain rfl rfl)
  split
  · exact Leaves.exceptionLocal.andThen fun _ => Leaves.record.andThen fun _ =>
      (Leaves.emitPlain rfl rfl).andThen fun _ => propagate_leaves
  · exact .throw

theorem bindCaught_leaves {caught : String} {span : Span} {binding : Option Variable} :
    Leaves P 0 (bindCaught env caught span binding) := by
  cases binding with
  | none => exact .pure
  | some v =>
    exact Leaves.lift.andThen fun _ => Leaves.declareLocal.andThen fun _ =>
      Leaves.record.andThen fun _ => .emitPlain rfl rfl

theorem saveForFinally_leaves : Leaves P 0 saveForFinally :=
  Leaves.useLabelVar.andThen fun _ => Leaves.freshLocal.andThen fun _ =>
    Leaves.freshLocal.andThen fun _ => (Leaves.emitPlain rfl rfl).andThen fun _ =>
      (Leaves.emitPlain rfl rfl).andThen fun _ => (Leaves.emitPlain rfl rfl).andThen fun _ => .pure

theorem restoreAfterFinally_leaves {savedExc savedLabel : String} :
    Leaves P 0 (restoreAfterFinally savedExc savedLabel) :=
  (Leaves.emitPlain rfl rfl).andThen fun _ => .emitPlain rfl rfl

theorem takeException_leaves {region : Nat} : Leaves P 0 (takeException region) :=
  Leaves.catchLabel.andThen fun _ => (Leaves.emitPlain rfl rfl).andThen fun _ =>
    Leaves.exceptionLocal.andThen fun _ => (Leaves.emitPlain rfl rfl).andThen fun _ =>
      (Leaves.emitPlain rfl rfl).andThen fun _ => .pure

/-- The tests behind a finally block are jumps only. -/
theorem tally_resumeTests (continuation : String) (edges : List EscapingEdge) (r : Registry) :
    Tally P 0 r (resumeTests continuation edges) r := by
  induction edges with
  | nil => exact .plain rfl rfl
  | cons edge edges ih =>
    have h := (Tally.plain (P := P) (r := r) (c := .goto edge.resume) rfl rfl).append ih
    rw [add_zero] at h
    refine h.rearrange fun v hv => .of_eq ?_
    rw [resumeTests, Cmd.collect_ifElse hv, Cmd.collect_append]

theorem dispatchContinuation_leaves {region : Nat} :
    Leaves P 0 (dispatchContinuation region) := by
  refine Leaves.continuationLabel.andThen fun continuation => Leaves.context.andThen fun cx => ?_
  exact .ite (.emitAll (tally_resumeTests _ _))
    (Leaves.useLabelVar.andThen fun _ => .emitAll (tally_resumeTests _ _))

theorem finishRegion_leaves {region : Nat} : Leaves P 0 (finishRegion env region) :=
  .andThen dispatchContinuation_leaves fun _ => Leaves.continuationLabel.andThen fun _ =>
    (Leaves.emitPlain rfl rfl).andThen fun _ => propagateIfAny_leaves

theorem escape_leaves {target : String} {span : Span} (entries : List Entry) :
    Leaves P 0 (escape target span entries) := by
  induction entries with
  | nil => exact .pure
  | cons entry entries ih =>
    obtain ⟨region, phase⟩ := entry
    cases phase with
    | inFinally => exact .throw
    | inTry | inCatch =>
      exact Leaves.addEscapingEdge.andThen fun _ => Leaves.useLabelVar.andThen fun _ =>
        (Leaves.emitPlain rfl rfl).andThen fun _ => Leaves.finallyLabel.andThen fun _ =>
          (Leaves.emitPlain rfl rfl).andThen fun _ =>
            (Leaves.emitPlain rfl rfl).andThen fun _ => ih

theorem lowerGoto_leaves {target : String} {span : Span} :
    Leaves P 0 (lowerGoto env target span) :=
  Leaves.context.andThen fun _ => Leaves.lift.andThen fun _ => (escape_leaves _).andThen fun _ =>
    .emitPlain rfl rfl

/-- A copy of a struct is made by a helper that is asked for beforehand. -/
theorem lowerLocalDecl_leaves {decl : Variable} {init : Option Expr}
    (he : ∀ e ∈ init, ∀ m ∈ e.callees, P m) : Leaves P 0 (lowerLocalDecl env decl init) := by
  refine Leaves.lift.andThen fun ty => Leaves.declareLocal.andThen fun _ => ?_
  refine .ite ?_ ?_
  · split
    · next e type hinit htype =>
      have hvalue : Leaves P 0 (value env e) :=
        value_leaves e (he e (Option.filter_eq_some_iff.mp hinit).1)
      refine ⟨fun h => ?_⟩
      obtain ⟨proc, s₁, h₁, h⟩ := runs_bind.mp h
      obtain ⟨v, s₂, h₂, h⟩ := runs_bind.mp h
      obtain ⟨hasked, hhas⟩ := Leaves.asked (P := P) (q := .structCopy type) trivial h₁
      have hv := hvalue.tallied h₂
      refine (hasked.trans hv).emit h nofun (fun _ => rfl) fun hr call hcall => ?_
      obtain ⟨rfl, hcopy⟩ := hhas hr
      rw [List.mem_singleton.mp hcall]
      exact .structCopy ((hv.has (hasked.has hr).1).2 _ hcopy)
    · exact (value_leaves _ fun _ => nofun).andThen fun _ => .emitPlain rfl rfl
  · cases init with
    | none => exact .pure
    | some e =>
      exact (value_leaves e (he e rfl)).andThen fun _ => Leaves.record.andThen fun _ =>
        .emitPlain rfl rfl

/-! ## Statements that are held back -/

/-- The commands of a switch so far: the tests of the cases, or the default case alone. -/
def chainCmds (chain : Option Cmd) (defaultCmds : List Cmd) : List Cmd :=
  match chain with
  | some c => [c]
  | none => defaultCmds

theorem collect_caseTest {β : Type} {v : Cmd → List β} (hv : Cmd.SkipsTests v)
    {scrutinee caseValue : Ir.Expr} {body : List Cmd} {chain : Option Cmd} {ds : List Cmd} :
    Cmd.collect v [caseTest scrutinee caseValue body chain ds] =
      Cmd.collect v body ++ Cmd.collect v (chainCmds chain ds) := by
  cases chain <;> exact Cmd.collect_ifElse hv _ _ _

theorem collect_catchTests {β : Type} {v : Cmd → List β} (hv : Cmd.SkipsTests v)
    (arms : List (Ir.Expr × List Cmd)) :
    (Cmd.collect v (catchTests arms).toList).Perm (Cmd.collect v (arms.flatMap (·.2))) := by
  have hfold : ∀ (arms : List (Ir.Expr × List Cmd)) (inner : Option Cmd),
      (Cmd.collect v (arms.foldl
        (fun inner arm => some (.ifElse arm.1 arm.2 inner.toList)) inner).toList).Perm
        (Cmd.collect v (arms.flatMap (·.2)) ++ Cmd.collect v inner.toList) := by
    intro arms
    induction arms with
    | nil => exact fun inner => .refl _
    | cons arm arms ih =>
      intro inner
      obtain ⟨test, body⟩ := arm
      refine (ih _).trans ?_
      rw [Option.toList_some, Cmd.collect_ifElse hv, List.flatMap_cons, Cmd.collect_append,
        ← List.append_assoc]
      exact List.perm_append_comm.append_right _
  refine (hfold arms none).trans (.of_eq ?_)
  rw [Option.toList_none, Cmd.collect_nil, List.append_nil]

/-- The clauses that are held back are emitted inside the tests of a region. -/
theorem finishCatches_owes {n : Mark → Nat} {r : Registry} {s₀ : State} {caught : String}
    {arms : List (Ir.Expr × List Cmd)} {u : Unit} (ho : Owes P n r (arms.flatMap (·.2)) s₀ s)
    (h : Runs (finishCatches env caught arms) s u s') : Owes P n r [] s₀ s' := by
  obtain ⟨_, s₁, h₁, h⟩ := runs_bind.mp h
  obtain ⟨_, s₂, h₂, h₃⟩ := runs_bind.mp h
  have htests := (ho.rearrange fun v hv => collect_catchTests hv arms).emitAll h₁
  have hrest := (htests.step ((Leaves.emitPlain rfl rfl).tallied h₂)).step
    (propagate_leaves.tallied h₃)
  rwa [add_zero, add_zero] at hrest

/-! ## Statements -/

/-- A statement that is no conditional: its marks, and then the rest. -/
theorem marked_leaves {n : Mark → Nat} {t : Stmt} {x : Lower Unit} (hx : Leaves P n x)
    (ht : t.isConditional = false) :
    Leaves P (ownMarks env.options t + n) (emitMarks env t.span t.kind >>= fun _ => x) := by
  have hown : ownMarks env.options t =
      if carriesMarks t.kind then once env.options .state else 0 := by
    rw [ownMarks, ht, if_neg Bool.false_ne_true, add_zero]
  rw [hown]
  exact (emitMarks_leaves t.kind).bind fun _ => hx

/-- A conditional: its marks, and then its branches, each behind its breadcrumb. -/
theorem conditional_leaves {n m : Mark → Nat} {id : UInt32} {span : Span} {cond : Expr}
    {thenBranch elseBranch : Stmt} {test : Lower Ir.Expr} {x y : Lower Unit}
    (htest : Leaves P 0 test) (hx : Leaves P n x) (hy : Leaves P m y) :
    Leaves P (ownMarks env.options ⟨id, span, .conditional cond thenBranch elseBranch⟩ + (n + m))
      (emitMarks env span (.conditional cond thenBranch elseBranch) >>= fun _ => (do
        let cond ← test
        let thenCmds ← commandsOf (do breadcrumb env; x)
        let elseCmds ← commandsOf (do breadcrumb env; y)
        emit (.ifElse cond thenCmds elseCmds))) := by
  have hbranches : Leaves P (0 + (once env.options .branch + n) + (once env.options .branch + m))
      (do
        let cond ← test
        let thenCmds ← commandsOf (do breadcrumb env; x)
        let elseCmds ← commandsOf (do breadcrumb env; y)
        emit (.ifElse cond thenCmds elseCmds)) := by
    refine ⟨fun h => ?_⟩
    obtain ⟨_, s₁, h₁, h⟩ := runs_bind.mp h
    obtain ⟨thenCmds, s₂, h₂, h⟩ := runs_bind.mp h
    obtain ⟨elseCmds, s₃, h₃, h₄⟩ := runs_bind.mp h
    have ho := ((Owes.of_tallied (htest.tallied h₁)).hold
      ((Leaves.breadcrumb.bind fun _ => hx).held h₂)).hold
        ((Leaves.breadcrumb.bind fun _ => hy).held h₃)
    exact (ho.emitTest h₄).tallied
  have hmarks : Leaves P (once env.options .state)
      (emitMarks env span (.conditional cond thenBranch elseBranch)) :=
    emitMarks_leaves (.conditional cond thenBranch elseBranch)
  have hown : ownMarks env.options ⟨id, span, .conditional cond thenBranch elseBranch⟩ =
      once env.options .state + (once env.options .branch + once env.options .branch) := rfl
  have hsum : ownMarks env.options ⟨id, span, .conditional cond thenBranch elseBranch⟩ + (n + m) =
      once env.options .state +
        (0 + (once env.options .branch + n) + (once env.options .branch + m)) := by
    rw [hown]
    abel
  rw [hsum]
  exact hmarks.bind fun _ => hbranches

/-- The tests of the catch clauses take up what is held back. -/
theorem catches_leaves {n m : Mark → Nat} {caught : String} {x : Lower (List (Ir.Expr × List Cmd))}
    {y : Lower Unit}
    (hx : ∀ {s s' : State} {arms : List (Ir.Expr × List Cmd)}, Runs x s arms s' →
      Owes P n s.registry (arms.flatMap (·.2)) s s')
    (hy : Leaves P m y) :
    Leaves P (n + m) (x >>= fun arms => finishCatches env caught arms >>= fun _ => y) := by
  refine ⟨fun h => ?_⟩
  obtain ⟨arms, s₁, h₁, h⟩ := runs_bind.mp h
  obtain ⟨_, s₂, h₂, h₃⟩ := runs_bind.mp h
  exact (finishCatches_owes (hx h₁) h₂).tallied.trans (hy.tallied h₃)

mutual

/-- The lowering of a statement leaves the marks of its live statements behind. -/
theorem lowerStmt_leaves (s : Stmt) (hs : ∀ t ∈ s.statements, t.CallsOnly P) :
    Leaves P (marksOf env.options (s.live env.options.modelsExceptions)) (lowerStmt env s) := by
  have hown := hs s s.mem_statements
  have hin : ∀ t ∈ s.statements.tail, t.CallsOnly P := fun t ht => hs t (List.mem_of_mem_tail ht)
  rw [Stmt.live_eq, marksOf_cons]
  obtain ⟨id, span, kind⟩ := s
  unfold lowerStmt
  cases kind with
  | block stmts => exact marked_leaves (lowerStmts_leaves stmts hin) rfl
  | empty => exact marked_leaves .pure rfl
  | assert cond =>
    have hcond : Leaves P 0 (condition env cond) :=
      condition_leaves cond (hown cond List.mem_cons_self)
    refine marked_leaves (hcond.andThen fun v => .emit fun r => ?_) rfl
    split
    · exact (Tally.nil r).snoc nofun (fun _ => rfl) fun _ => nofun
    · exact (Tally.nil r).snoc nofun (fun _ => rfl) fun _ => nofun
  | assume cond =>
    have hcond : Leaves P 0 (condition env cond) :=
      condition_leaves cond (hown cond List.mem_cons_self)
    exact marked_leaves (hcond.andThen fun v => .emitPlain rfl rfl) rfl
  | conditional cond thenBranch elseBranch =>
    obtain ⟨ht, he⟩ := List.forall_mem_append.mp hin
    have hcond : Leaves P 0 (condition env cond) :=
      condition_leaves cond (hown cond List.mem_cons_self)
    show Leaves P (_ + marksOf _ (_ ++ _)) _
    rw [marksOf_append]
    exact conditional_leaves hcond (lowerStmt_leaves thenBranch ht)
      (lowerStmt_leaves elseBranch he)
  | expression e =>
    have he : Leaves P 0 (lowerExpr env e (isCompound e)) :=
      lowerExpr_leaves e _ (hown e List.mem_cons_self)
    exact marked_leaves (he.andThen fun _ => .pure) rfl
  | breakLoop | continueLoop | whileLoop | doUntil | forLoop | forEach =>
    exact marked_leaves .throw rfl
  | switch scrutinee cases =>
    have hvalue : Leaves P 0 (value env scrutinee) :=
      value_leaves scrutinee (hown scrutinee List.mem_cons_self)
    refine marked_leaves ⟨fun h => ?_⟩ rfl
    obtain ⟨test, s₁, h₁, h⟩ := runs_bind.mp h
    obtain ⟨defaultCmds, s₂, h₂, h⟩ := runs_bind.mp h
    obtain ⟨chain, s₃, h₃, h⟩ := runs_bind.mp h
    have ho := lowerCases_owes cases (fun e he => hown e (List.mem_cons_of_mem _ he)) hin
      ((Owes.of_tallied (hvalue.tallied h₁)).hold (lowerDefault_held cases hin h₂)) h₃
    rw [zero_add, ← marksOf_append] at ho
    cases chain with
    | some c => exact (ho.emitAll h).tallied
    | none => exact (ho.emitAll h).tallied
  | localDecl decl init =>
    refine marked_leaves (lowerLocalDecl_leaves fun e he => hown e ?_) rfl
    exact Option.mem_toList.mpr he
  | ret e =>
    refine marked_leaves (lowerReturn_leaves fun e he => hown e ?_) rfl
    exact Option.mem_toList.mpr he
  | goto target => exact marked_leaves lowerGoto_leaves rfl
  | labeled name body =>
    refine marked_leaves (Leaves.andThen (.emitPlain rfl rfl) fun _ => ?_) rfl
    exact lowerStmt_leaves body hin
  | tryCatch body catches finalizer =>
    obtain ⟨hb, hcf⟩ := List.forall_mem_append.mp hin
    obtain ⟨hc, hf⟩ := List.forall_mem_append.mp hcf
    have hbody : Leaves P (marksOf env.options (body.live env.options.modelsExceptions))
        (lowerStmt env body) := lowerStmt_leaves body hb
    refine marked_leaves ?_ rfl
    show Leaves P (marksOf _ (_ ++ ((if env.options.modelsExceptions then _ else _) ++ _)))
      (if env.options.modelsExceptions then _ else _)
    rw [marksOf_append, marksOf_append]
    by_cases hx : env.options.modelsExceptions = true
    · rw [if_pos hx, if_pos hx]
      refine Leaves.enterRegion.andThen fun region => Leaves.pushPhase.andThen fun _ =>
        hbody.bind fun _ => leaveNormally_leaves.andThen fun _ => Leaves.popPhase.andThen fun _ =>
          takeException_leaves.andThen fun caught => Leaves.pushPhase.andThen fun _ =>
            catches_leaves (fun h => ?_) ?_
      · have ho := lowerCatches_owes catches hc (.of_tallied (.of_eq rfl rfl)) h
        rwa [zero_add, List.nil_append] at ho
      · exact Leaves.popPhase.andThen fun _ => Leaves.finallyLabel.andThen fun _ =>
          (Leaves.emitPlain rfl rfl).andThen fun _ =>
            (lowerFinally_leaves finalizer hf).followed fun _ => finishRegion_leaves
    · rw [if_neg hx, if_neg hx, marksOf_nil, zero_add]
      exact hbody.bind fun _ => lowerOptional_leaves finalizer hf
  | throw e => exact marked_leaves (lowerThrow_leaves (hown e List.mem_cons_self)) rfl
  | rethrow => exact marked_leaves lowerRethrow_leaves rfl
  | push e =>
    have he : Leaves P 0 (value env e) := value_leaves e (hown e List.mem_cons_self)
    exact marked_leaves (he.andThen fun _ => .pushOperand) rfl

theorem lowerStmts_leaves (ss : List Stmt) (hs : ∀ t ∈ Source.statementsIn ss, t.CallsOnly P) :
    Leaves P (marksOf env.options (Source.liveIn env.options.modelsExceptions ss))
      (lowerStmts env ss) := by
  cases ss with
  | nil =>
    unfold lowerStmts
    exact .pure
  | cons s ss =>
    obtain ⟨hs, hss⟩ := List.forall_mem_append.mp hs
    rw [Source.liveIn, marksOf_append]
    unfold lowerStmts
    exact (lowerStmt_leaves s hs).bind fun _ => lowerStmts_leaves ss hss

theorem lowerOptional_leaves (s : Option Stmt)
    (hs : ∀ t ∈ Source.statementsInOption s, t.CallsOnly P) :
    Leaves P (marksOf env.options (Source.liveInOption env.options.modelsExceptions s))
      (lowerOptional env s) := by
  cases s with
  | none =>
    unfold lowerOptional
    exact .pure
  | some s =>
    unfold lowerOptional
    exact lowerStmt_leaves s hs

theorem lowerFinally_leaves {region : Nat} (s : Option Stmt)
    (hs : ∀ t ∈ Source.statementsInOption s, t.CallsOnly P) :
    Leaves P (marksOf env.options (Source.liveInOption env.options.modelsExceptions s))
      (lowerFinally env region s) := by
  cases s with
  | none =>
    unfold lowerFinally
    exact .pure
  | some s =>
    unfold lowerFinally
    exact Leaves.pushPhase.andThen fun _ => saveForFinally_leaves.andThen fun _ =>
      (lowerStmt_leaves s hs).followed fun _ =>
        restoreAfterFinally_leaves.andThen fun _ => .popPhase

/-- The commands of the catch clauses are held back. -/
theorem lowerCatches_owes {region : Nat} {caught : String} {n : Mark → Nat} {r : Registry}
    {cs : List Cmd} {s₀ s s' : State} {arms : List (Ir.Expr × List Cmd)}
    (clauses : List CatchClause) (hs : ∀ t ∈ Source.statementsInCatches clauses, t.CallsOnly P)
    (ho : Owes P n r cs s₀ s) (h : Runs (lowerCatches env region caught clauses) s arms s') :
    Owes P (n + marksOf env.options
        (Source.liveInCatches env.options.modelsExceptions clauses)) r
      (cs ++ arms.flatMap (·.2)) s₀ s' := by
  cases clauses with
  | nil =>
    unfold lowerCatches at h
    obtain ⟨rfl, rfl⟩ := runs_pure.mp h
    rw [List.flatMap_nil, List.append_nil]
    exact ho
  | cons clause clauses =>
    obtain ⟨span, type, binding, body⟩ := clause
    obtain ⟨hb, hc⟩ := List.forall_mem_append.mp hs
    unfold lowerCatches at h
    obtain ⟨ds, s₁, h₁, h⟩ := runs_bind.mp h
    obtain ⟨rest, s₂, h₂, h⟩ := runs_bind.mp h
    obtain ⟨rfl, rfl⟩ := runs_pure.mp h
    have hclause : Leaves P (marksOf env.options (body.live env.options.modelsExceptions)) (do
        bindCaught env caught span binding
        lowerStmt env body
        leaveNormally region) :=
      bindCaught_leaves.andThen fun _ => (lowerStmt_leaves body hb).followed fun _ =>
        leaveNormally_leaves
    have hrest := lowerCatches_owes clauses hc (ho.hold (hclause.held h₁)) h₂
    rw [Source.liveInCatches, marksOf_append, List.flatMap_cons, ← add_assoc, ← List.append_assoc]
    exact hrest

/-- The commands of the last default case are held back. -/
theorem lowerDefault_held {s s' : State} {ds : List Cmd} (cases : List SwitchCase)
    (hs : ∀ t ∈ Source.statementsInCases cases, t.CallsOnly P)
    (h : Runs (lowerDefault env cases) s ds s') :
    s'.cmds = s.cmds ∧ Tally P (marksOf env.options
      (Source.liveDefault env.options.modelsExceptions cases)) s.registry ds s'.registry := by
  cases cases with
  | nil =>
    unfold lowerDefault at h
    obtain ⟨rfl, rfl⟩ := runs_pure.mp h
    exact ⟨rfl, .nil _⟩
  | cons case cases =>
    obtain ⟨span, value, body⟩ := case
    obtain ⟨hb, hc⟩ := List.forall_mem_append.mp hs
    unfold lowerDefault at h
    rw [Source.liveDefault]
    split at h
    · next hlater =>
      rw [if_pos hlater]
      exact lowerDefault_held cases hc h
    · next hlast =>
      rw [if_neg hlast]
      exact (lowerStmts_leaves body hb).held h

/-- The commands of the other cases are held back, around the default case. -/
theorem lowerCases_owes {scrutinee : Ir.Expr} {n : Mark → Nat} {r : Registry} {ds : List Cmd}
    {s₀ s s' : State} {chain : Option Cmd} (cases : List SwitchCase)
    (hvalues : ∀ e ∈ cases.filterMap (·.value), ∀ m ∈ e.callees, P m)
    (hs : ∀ t ∈ Source.statementsInCases cases, t.CallsOnly P) (ho : Owes P n r ds s₀ s)
    (h : Runs (lowerCases env scrutinee ds cases) s chain s') :
    Owes P (n + marksOf env.options (Source.liveCases env.options.modelsExceptions cases)) r
      (chainCmds chain ds) s₀ s' := by
  cases cases with
  | nil =>
    unfold lowerCases at h
    obtain ⟨rfl, rfl⟩ := runs_pure.mp h
    exact ho
  | cons case cases =>
    obtain ⟨span, value, body⟩ := case
    obtain ⟨hb, hc⟩ := List.forall_mem_append.mp hs
    unfold lowerCases at h
    obtain ⟨rest, s₁, h₁, h⟩ := runs_bind.mp h
    cases value with
    | none =>
      obtain ⟨rfl, rfl⟩ := runs_pure.mp h
      exact lowerCases_owes cases hvalues hc ho h₁
    | some e =>
      obtain ⟨he, hvalues⟩ := List.forall_mem_cons.mp hvalues
      obtain ⟨v, s₂, h₂, h⟩ := runs_bind.mp h
      obtain ⟨cs, s₃, h₃, h⟩ := runs_bind.mp h
      obtain ⟨rfl, rfl⟩ := runs_pure.mp h
      have hbody := ((lowerCases_owes cases hvalues hc ho h₁).step
        ((value_leaves e he).tallied h₂)).hold ((lowerStmts_leaves body hb).held h₃)
      rw [Source.liveCases, marksOf_append, add_comm (marksOf _ _), ← add_assoc]
      rw [add_zero] at hbody
      refine hbody.rearrange fun w hw => ?_
      rw [chainCmds, collect_caseTest hw, Cmd.collect_append]
      exact List.perm_append_comm

end

end

/-! ## Methods -/

/-- The marks of a body, that of the entry included. -/
def bodyMarks (o : Options) (body : Stmt) : Mark → Nat :=
  once o .branch + marksOf o (body.live o.modelsExceptions)

theorem body_of_finished {owner : Source.TypeDef} {m : Source.MethodDef}
    {params returns : List Ir.VarDecl} {cx : Context} {p : Ir.Procedure}
    (h : finished owner m params returns cx = .ok p) : p.body = some cx.cmds := by
  unfold finished Context.finish at h
  split at h
  · cases h
    rfl
  · cases h

/-- A method that is lowered leaves the marks of its body behind. -/
theorem lowerMethod_tally {P : MethodRef → Prop} {env : Env} {owner : Source.TypeDef}
    {m : Source.MethodDef} {p : Ir.Procedure} {shared shared' : Shared}
    (hm : ∀ body ∈ m.body, ∀ t ∈ body.statements, t.CallsOnly P)
    (h : Runs (lowerMethod env owner m) shared p shared') :
    Tally P (m.body.elim 0 (bodyMarks env.options)) shared.registry (p.body.getD [])
      shared'.registry := by
  unfold Runs at h
  rcases decided_or_prepared m owner.name with ⟨r, hr, hrun⟩ | ⟨body, params, returns, scopes, hp⟩
  · obtain ⟨log, hlog⟩ := hrun env owner rfl shared
    obtain ⟨rfl, rfl⟩ := Prod.mk.inj (hlog.symm.trans h)
    obtain ⟨hnone, -⟩ := hr p rfl
    cases hbody : m.body with
    | none => rw [hnone]; exact .nil _
    | some body =>
      obtain ⟨-, -, -, s, -, -, -, hsome⟩ := runs_lowerMethod hbody h
      cases hnone.symm.trans hsome
  · rcases hx : (do breadcrumb env; lowerStmt env body : Lower Unit).run
      ⟨startContext scopes params returns, announce owner m shared⟩ with ⟨r, s⟩
    rw [run_lowerMethod hp hx] at h
    obtain ⟨hr, rfl⟩ := Prod.mk.inj h
    cases r with
    | error e => cases hr
    | ok u =>
      have hcmds : p.body = some s.cmds := body_of_finished hr
      have hbody : Leaves P (bodyMarks env.options body) (do breadcrumb env; lowerStmt env body) :=
        Leaves.breadcrumb.bind fun _ => lowerStmt_leaves body (hm body hp.body_eq)
      obtain ⟨cs, hcs, ht⟩ := hbody.tallied hx
      rw [cmds_startContext, List.nil_append] at hcs
      rw [hp.body_eq, hcmds, hcs]
      exact ht

end Lowering

end Unwind
