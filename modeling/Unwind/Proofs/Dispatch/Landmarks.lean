import Unwind.LabelScopes
import Unwind.Proofs.Expansion
import Unwind.Proofs.Dispatch.Idempotence

/-!
# The landmarks of an expanded body

`Stmt.landmarks` are the places of a body that jumps and exceptions start from, lead to or cross, in
program order: `goto` statements and labels, the parts of `try` statements, and what throws. The
labels of a body are collected from its landmarks alone (`LabelScopes.collect_eq_replay`).

Expanding the virtual calls of a body keeps its landmarks (`transform_landmarks`). What a call is
replaced by has none, and a body that is put into a block with declarations in front of it has
those that it had.
-/

namespace Unwind.Source

/-- What jumps and exceptions meet in a body. -/
inductive Landmark where
  | goto (label : String)
  | label (name : String)
  /-- The start of a `try` statement, with the types of its catch clauses. -/
  | enterTry (id : UInt32) (catches : List (Option TypeRef))
  | clause
  | finallyBlock
  | leaveTry
  | throw
  | rethrow
deriving DecidableEq

mutual

/-- The landmarks of a statement, in program order. -/
def Stmt.landmarks : Stmt → List Landmark
  | ⟨id, _, kind⟩ =>
    match kind with
    | .block stmts => landmarksIn stmts
    | .conditional _ thenBranch elseBranch => thenBranch.landmarks ++ elseBranch.landmarks
    | .whileLoop _ body | .doUntil body _ | .forEach _ _ body => body.landmarks
    | .forLoop init _ step body => landmarksIn init ++ (landmarksIn step ++ body.landmarks)
    | .switch _ cases => landmarksInCases cases
    | .goto label => [.goto label]
    | .labeled label body => .label label :: body.landmarks
    | .tryCatch body catches finalizer =>
      .enterTry id (catches.map (·.exceptionType)) :: (body.landmarks ++
        (landmarksInCatches catches ++ (landmarksInFinally finalizer ++ [.leaveTry])))
    | .throw _ => [.throw]
    | .rethrow => [.rethrow]
    | _ => []

def landmarksIn : List Stmt → List Landmark
  | [] => []
  | s :: ss => s.landmarks ++ landmarksIn ss

def landmarksInCases : List SwitchCase → List Landmark
  | [] => []
  | ⟨_, _, body⟩ :: cases => landmarksIn body ++ landmarksInCases cases

def landmarksInCatches : List CatchClause → List Landmark
  | [] => []
  | ⟨_, _, _, body⟩ :: clauses => .clause :: (body.landmarks ++ landmarksInCatches clauses)

def landmarksInFinally : Option Stmt → List Landmark
  | none => []
  | some s => .finallyBlock :: s.landmarks

end

theorem landmarksIn_append (ss ts : List Stmt) :
    landmarksIn (ss ++ ts) = landmarksIn ss ++ landmarksIn ts := by
  induction ss with
  | nil => rfl
  | cons s ss ih => rw [List.cons_append, landmarksIn, landmarksIn, ih, List.append_assoc]

end Unwind.Source

namespace Unwind.LabelScopes

open Source

/-! ## Collecting from landmarks -/

/-- Enter the labels and `try` statements among landmarks. The `try` statements `around` have been
entered and not left, the innermost comes first. -/
def replay (around : List UInt32) : List Landmark → LabelScopes → Except Fault LabelScopes
  | [], sc => .ok sc
  | .label name :: marks, sc => sc.addLabel name around.head? >>= replay around marks
  | .enterTry id _ :: marks, sc => sc.addTry id >>= replay (id :: around) marks
  | .leaveTry :: marks, sc => replay around.tail marks sc
  | .goto _ :: marks, sc | .clause :: marks, sc | .finallyBlock :: marks, sc
  | .throw :: marks, sc | .rethrow :: marks, sc => replay around marks sc

/-- Two visits one after the other. -/
theorem replay_seq {f g : LabelScopes → Except Fault LabelScopes} {around : List UInt32}
    {as bs marks : List Landmark} {sc : LabelScopes}
    (hf : ∀ marks, replay around (as ++ marks) sc = f sc >>= replay around marks)
    (hg : ∀ sc, replay around (bs ++ marks) sc = g sc >>= replay around marks) :
    replay around ((as ++ bs) ++ marks) sc = (f sc >>= g) >>= replay around marks := by
  rw [List.append_assoc, hf, bind_assoc]
  exact congrArg _ (funext hg)

mutual

/-- Visiting a statement is replaying its landmarks. -/
theorem replay_landmarks (s : Stmt) (around : List UInt32) (marks : List Landmark)
    (sc : LabelScopes) :
    replay around (s.landmarks ++ marks) sc = visit around.head? s sc >>= replay around marks := by
  obtain ⟨id, span, kind⟩ := s
  cases kind with
  | block ss => exact replay_landmarksIn ss around marks sc
  | conditional _ s t =>
    exact replay_seq (fun marks => replay_landmarks s around marks sc)
      (replay_landmarks t around marks)
  | whileLoop _ s | doUntil s _ | forEach _ _ s => exact replay_landmarks s around marks sc
  | forLoop init _ step s =>
    exact replay_seq (fun marks => replay_landmarksIn init around marks sc) fun sc =>
      replay_seq (fun marks => replay_landmarksIn step around marks sc)
        (replay_landmarks s around marks)
  | switch _ cases => exact replay_landmarksInCases cases around marks sc
  | labeled label s =>
    show (sc.addLabel label around.head? >>= replay around (s.landmarks ++ marks)) =
      (sc.addLabel label around.head? >>= visit around.head? s) >>= replay around marks
    rw [bind_assoc]
    exact congrArg _ (funext (replay_landmarks s around marks))
  | tryCatch body catches finalizer =>
    let parts := body.landmarks ++ (landmarksInCatches catches ++ landmarksInFinally finalizer)
    -- leaving the statement takes its id off again, so that the rest is replayed as before
    have hparts : ∀ sc, replay (id :: around) (parts ++ .leaveTry :: marks) sc =
        (visit (some id) body sc >>= fun sc =>
          visitCatches (some id) catches sc >>= visitOption (some id) finalizer) >>=
            replay around marks := fun sc =>
      replay_seq (fun marks => replay_landmarks body (id :: around) marks sc) fun sc =>
        replay_seq (fun marks => replay_landmarksInCatches catches (id :: around) marks sc)
          (replay_landmarksInFinally finalizer (id :: around) (.leaveTry :: marks))
    have hmarks : Stmt.landmarks ⟨id, span, .tryCatch body catches finalizer⟩ ++ marks =
        .enterTry id (catches.map (·.exceptionType)) :: (parts ++ .leaveTry :: marks) := by
      simp [Stmt.landmarks, parts]
    rw [hmarks]
    show (sc.addTry id >>= replay (id :: around) (parts ++ .leaveTry :: marks)) =
      (sc.addTry id >>= _) >>= replay around marks
    rw [bind_assoc]
    exact congrArg _ (funext hparts)
  | _ => rfl

theorem replay_landmarksIn (ss : List Stmt) (around : List UInt32) (marks : List Landmark)
    (sc : LabelScopes) :
    replay around (landmarksIn ss ++ marks) sc =
      visitAll around.head? ss sc >>= replay around marks := by
  cases ss with
  | nil => rfl
  | cons s ss =>
    exact replay_seq (fun marks => replay_landmarks s around marks sc)
      (replay_landmarksIn ss around marks)

theorem replay_landmarksInCases (cases : List SwitchCase) (around : List UInt32)
    (marks : List Landmark) (sc : LabelScopes) :
    replay around (landmarksInCases cases ++ marks) sc =
      visitCases around.head? cases sc >>= replay around marks := by
  cases cases with
  | nil => rfl
  | cons case cases =>
    obtain ⟨span, value, body⟩ := case
    exact replay_seq (fun marks => replay_landmarksIn body around marks sc)
      (replay_landmarksInCases cases around marks)

theorem replay_landmarksInCatches (clauses : List CatchClause) (around : List UInt32)
    (marks : List Landmark) (sc : LabelScopes) :
    replay around (landmarksInCatches clauses ++ marks) sc =
      visitCatches around.head? clauses sc >>= replay around marks := by
  cases clauses with
  | nil => rfl
  | cons clause clauses =>
    obtain ⟨span, type, binding, body⟩ := clause
    exact replay_seq (fun marks => replay_landmarks body around marks sc)
      (replay_landmarksInCatches clauses around marks)

theorem replay_landmarksInFinally (s : Option Stmt) (around : List UInt32)
    (marks : List Landmark) (sc : LabelScopes) :
    replay around (landmarksInFinally s ++ marks) sc =
      visitOption around.head? s sc >>= replay around marks := by
  cases s with
  | none => rfl
  | some s => exact replay_landmarks s around marks sc

end

/-- The labels of a body are known from its landmarks. -/
theorem collect_eq_replay (body : Stmt) : collect body = replay [] body.landmarks {} := by
  have h := replay_landmarks body [] [] {}
  rw [List.append_nil] at h
  rw [h]
  show visit none body {} = visit none body {} >>= .ok
  exact (bind_pure _).symm

end Unwind.LabelScopes

namespace Unwind.Dispatch

open Source (CatchClause Expr Landmark Stmt SwitchCase Ty Call landmarksIn landmarksInCases
  landmarksInCatches landmarksInFinally landmarksIn_append)
open Lowering (Runs)

variable {h : Hierarchy}

/-! ## Cascades -/

/-- What becomes of a call site has no landmarks. -/
def Replacement.Unmarked : Replacement → Prop
  | .statement s => s.landmarks = []
  | .unchanged | .expression _ => True

theorem chain_unmarked (call : Call) (result : Ty) (span : Span) (receiver : Receiver)
    (os : List Override) : (chain h call result span receiver os).Unmarked := by
  unfold chain
  dsimp only
  split
  · refine cascade_induct (E := fun _ => True) (Q := fun s : Stmt => s.landmarks = [])
      (fun _ _ _ => trivial) (fun c e s _ _ hs => ?_) (fun _ _ => trivial) trivial rfl trivial
    exact hs
  · exact trivial

theorem expandCall_unmarked (call : Call) (result : Ty) (span : Span) :
    Yields (expandCall h call result span) Replacement.Unmarked := by
  unfold expandCall
  split
  · exact .pure trivial
  · refine .next fun os => ?_
    split
    · exact .pure trivial
    · exact .pure trivial
    · exact .next fun _ => .next fun _ => .pure (chain_unmarked ..)

/-! ## Statements -/

theorem expandExprStmt_landmarks (id : UInt32) (span : Span) (e : Expr) :
    Yields (expandExprStmt h id span e) fun s => s.landmarks = [] := by
  unfold expandExprStmt
  split
  · refine .next fun call => (expandCall_unmarked call .void span).bind fun r hr => ?_
    cases r with
    | statement s => exact .next fun _ => .pure hr
    | unchanged => exact .pure rfl
    | expression => exact .pure rfl
  · exact .next fun _ => .pure rfl

mutual

theorem expandStmt_landmarks (s : Stmt) :
    Yields (expandStmt h s) fun s' => s'.landmarks = s.landmarks := by
  obtain ⟨id, span, kind⟩ := s
  unfold expandStmt
  cases kind with
  | empty | breakLoop | continueLoop | goto | rethrow => exact .pure rfl
  | assert | assume | throw | push | localDecl | ret => exact .next fun _ => .pure rfl
  | expression e => exact expandExprStmt_landmarks id span e
  | block ss => exact (expandStmts_landmarks ss).bind fun _ hs => .pure hs
  | conditional _ s t =>
    refine .next fun _ => (expandStmt_landmarks s).bind fun _ hs =>
      (expandStmt_landmarks t).bind fun _ ht => .pure ?_
    rw [Stmt.landmarks, hs, ht, Stmt.landmarks]
  | whileLoop _ s | doUntil s _ | forEach _ _ s =>
    exact .next fun _ => (expandStmt_landmarks s).bind fun _ hs => .pure hs
  | forLoop init _ step s =>
    refine (expandStmts_landmarks init).bind fun _ hi => (expandStmts_landmarks step).bind
      fun _ ht => .next fun _ => (expandStmt_landmarks s).bind fun _ hs => .pure ?_
    rw [Stmt.landmarks, hi, ht, hs, Stmt.landmarks]
  | switch _ cases => exact .next fun _ => (expandCases_landmarks cases).bind fun _ hc => .pure hc
  | labeled label s =>
    exact (expandStmt_landmarks s).bind fun _ hs =>
      .pure (congrArg (List.cons (Landmark.label label)) hs)
  | tryCatch body catches finalizer =>
    refine (expandStmt_landmarks body).bind fun _ hb => (expandCatches_landmarks catches).bind
      fun _ hc => (expandStmtOption_landmarks finalizer).bind fun _ hf => .pure ?_
    rw [Stmt.landmarks, hb, hc.1, hc.2, hf, Stmt.landmarks]

theorem expandStmts_landmarks (ss : List Stmt) :
    Yields (expandStmts h ss) fun ss' => landmarksIn ss' = landmarksIn ss := by
  cases ss with
  | nil =>
    unfold expandStmts
    exact .pure rfl
  | cons s ss =>
    unfold expandStmts
    refine (expandStmt_landmarks s).bind fun _ hs => (expandStmts_landmarks ss).bind
      fun _ hss => .pure ?_
    rw [landmarksIn, hs, hss, landmarksIn]

theorem expandCases_landmarks (cases : List SwitchCase) :
    Yields (expandCases h cases) fun cases' => landmarksInCases cases' = landmarksInCases cases := by
  cases cases with
  | nil =>
    unfold expandCases
    exact .pure rfl
  | cons case cases =>
    obtain ⟨span, value, body⟩ := case
    unfold expandCases
    refine .next fun _ => (expandStmts_landmarks body).bind fun _ hb =>
      (expandCases_landmarks cases).bind fun _ hc => .pure ?_
    rw [landmarksInCases, hb, hc, landmarksInCases]

/-- The clauses catch the same types. -/
theorem expandCatches_landmarks (clauses : List CatchClause) :
    Yields (expandCatches h clauses) fun clauses' =>
      clauses'.map (·.exceptionType) = clauses.map (·.exceptionType) ∧
        landmarksInCatches clauses' = landmarksInCatches clauses := by
  cases clauses with
  | nil =>
    unfold expandCatches
    exact .pure ⟨rfl, rfl⟩
  | cons clause clauses =>
    obtain ⟨span, type, binding, body⟩ := clause
    unfold expandCatches
    refine (expandStmt_landmarks body).bind fun _ hb => (expandCatches_landmarks clauses).bind
      fun _ hc => .pure ⟨?_, ?_⟩
    · rw [List.map_cons, hc.1, List.map_cons]
    · rw [landmarksInCatches, hb, hc.2, landmarksInCatches]

theorem expandStmtOption_landmarks (s : Option Stmt) :
    Yields (expandStmtOption h s) fun s' => landmarksInFinally s' = landmarksInFinally s := by
  cases s with
  | none =>
    unfold expandStmtOption
    exact .pure rfl
  | some s =>
    unfold expandStmtOption
    exact (expandStmt_landmarks s).bind fun _ hs =>
      .pure (congrArg (List.cons Landmark.finallyBlock) hs)

end

/-! ## Bodies -/

theorem landmarksIn_flatten (s : Stmt) : landmarksIn (flatten s) = s.landmarks := by
  obtain ⟨id, span, kind⟩ := s
  cases kind with
  | block ss => rfl
  | _ => exact List.append_nil _

theorem landmarks_declareAll (receivers : List Source.Variable) (s : Stmt) :
    (declareAll receivers s).landmarks = s.landmarks := by
  have hdeclared : landmarksIn (receivers.map declare) = [] := by
    induction receivers with
    | nil => rfl
    | cons v receivers ih => exact ih
  unfold declareAll
  split
  · rfl
  · show landmarksIn (receivers.map declare ++ flatten s) = s.landmarks
    rw [landmarksIn_append, hdeclared, landmarksIn_flatten, List.nil_append]

/-- Whatever has been expanded before, an expanded body has the landmarks of the body; its labels
are collected alike, and when that fails it is for the same reason. -/
theorem transform_landmarks {body body' : Stmt} {st st' : State}
    (hrun : Runs (transform h body) st body' st') :
    LabelScopes.collect body' = LabelScopes.collect body ∧ body'.landmarks = body.landmarks := by
  have hyields : Yields (transform h body) fun body' => body'.landmarks = body.landmarks :=
    (expandStmt_landmarks body).bind fun s hs => .next fun _ => .next fun _ =>
      .pure ((landmarks_declareAll _ s).trans hs)
  have hmarks := hyields.result hrun
  refine ⟨?_, hmarks⟩
  rw [LabelScopes.collect_eq_replay, hmarks, LabelScopes.collect_eq_replay]

/-- Drawing in a `try` statement, again when that fails. -/
def redrawing : Stmt :=
  ⟨1, {}, .tryCatch (.labeled "again" (drawing "Disk"))
    [⟨{}, some ⟨"Torn", none⟩, none, .goto "again"⟩, ⟨{}, none, none, ⟨2, {}, .rethrow⟩⟩] none⟩

/-- The call in the `try` statement is replaced, its receiver declared in front of it. -/
theorem redrawing_landmarks :
    ∃ body' st', Runs (transform (.ofProgram Hierarchy.shapes) redrawing) {} body' st' ∧
      st'.replaced = 1 ∧
      LabelScopes.collect body' = .ok ⟨[("again", some 1)], [1]⟩ ∧
      body'.landmarks = [.enterTry 1 [some ⟨"Torn", none⟩, none], .label "again", .clause,
        .goto "again", .clause, .rethrow, .leaveTry] := by
  obtain ⟨stmt, hdrawing⟩ :=
    drawing_leads shapes_draw_not_exempt shapes_resolve_draw shapes_settled {}
  have hbody : Leads (expandStmt (.ofProgram Hierarchy.shapes) (.labeled "again" (drawing "Disk")))
      {} (.ok (.labeled "again" stmt)) _ := hdrawing.bind fun log => ⟨log, rfl⟩
  have hstmt : Leads (expandStmt (.ofProgram Hierarchy.shapes) redrawing) {} _ _ :=
    hbody.bind fun log => ⟨log, rfl⟩
  obtain ⟨log, hrun⟩ := hstmt.transform #[]
  obtain ⟨hcollect, hmarks⟩ := transform_landmarks hrun
  exact ⟨_, _, hrun, rfl, hcollect.trans rfl, hmarks.trans rfl⟩

end Unwind.Dispatch
