import Unwind.LabelScopes
import Unwind.Proofs.Paths

/-!
# What collecting the labels of a body finds

`Stmt.scoped` lists the labels of a statement with the innermost `try` statement around each, and
`Stmt.tries` the ids of its `try` statements. Collecting succeeds when both are free of repetition,
and finds just these (`LabelScopes.collect_eq_ok`).
-/

namespace Unwind.Source

mutual

/-- The labels of a statement in program order, each with the innermost `try` statement around it;
`enclosing` is the one around the whole statement. -/
def Stmt.scoped (enclosing : Option UInt32) : Stmt → List (String × Option UInt32)
  | ⟨id, _, kind⟩ =>
    match kind with
    | .block stmts => scopedIn enclosing stmts
    | .conditional _ thenBranch elseBranch =>
      thenBranch.scoped enclosing ++ elseBranch.scoped enclosing
    | .whileLoop _ body | .doUntil body _ | .forEach _ _ body => body.scoped enclosing
    | .forLoop init _ step body =>
      scopedIn enclosing init ++ (scopedIn enclosing step ++ body.scoped enclosing)
    | .switch _ cases => scopedInCases enclosing cases
    | .labeled label body => (label, enclosing) :: body.scoped enclosing
    | .tryCatch body catches finalizer =>
      body.scoped (some id) ++
        (scopedInCatches (some id) catches ++ scopedInOption (some id) finalizer)
    | _ => []

def scopedIn (enclosing : Option UInt32) : List Stmt → List (String × Option UInt32)
  | [] => []
  | s :: ss => s.scoped enclosing ++ scopedIn enclosing ss

def scopedInCases (enclosing : Option UInt32) : List SwitchCase → List (String × Option UInt32)
  | [] => []
  | ⟨_, _, body⟩ :: cases => scopedIn enclosing body ++ scopedInCases enclosing cases

def scopedInCatches (enclosing : Option UInt32) : List CatchClause → List (String × Option UInt32)
  | [] => []
  | ⟨_, _, _, body⟩ :: clauses => body.scoped enclosing ++ scopedInCatches enclosing clauses

def scopedInOption (enclosing : Option UInt32) : Option Stmt → List (String × Option UInt32)
  | none => []
  | some s => s.scoped enclosing

end

mutual

theorem map_fst_scoped (s : Stmt) (enclosing : Option UInt32) :
    (s.scoped enclosing).map Prod.fst = s.labels := by
  obtain ⟨id, span, kind⟩ := s
  cases kind with
  | block ss => exact map_fst_scopedIn ss enclosing
  | conditional _ s t =>
    rw [Stmt.scoped, Stmt.labels, List.map_append, map_fst_scoped s, map_fst_scoped t]
  | whileLoop _ s | doUntil s _ | forEach _ _ s => exact map_fst_scoped s enclosing
  | forLoop init _ step s =>
    rw [Stmt.scoped, Stmt.labels, List.map_append, List.map_append, map_fst_scopedIn init,
      map_fst_scopedIn step, map_fst_scoped s]
  | switch _ cases => exact map_fst_scopedInCases cases enclosing
  | labeled label s => rw [Stmt.scoped, Stmt.labels, List.map_cons, map_fst_scoped s]
  | tryCatch body catches finalizer =>
    rw [Stmt.scoped, Stmt.labels, List.map_append, List.map_append, map_fst_scoped body,
      map_fst_scopedInCatches catches, map_fst_scopedInOption finalizer]
  | _ => rfl

theorem map_fst_scopedIn (ss : List Stmt) (enclosing : Option UInt32) :
    (scopedIn enclosing ss).map Prod.fst = labelsIn ss := by
  cases ss with
  | nil => rfl
  | cons s ss => rw [scopedIn, labelsIn, List.map_append, map_fst_scoped s, map_fst_scopedIn ss]

theorem map_fst_scopedInCases (cases : List SwitchCase) (enclosing : Option UInt32) :
    (scopedInCases enclosing cases).map Prod.fst = labelsInCases cases := by
  cases cases with
  | nil => rfl
  | cons case cases =>
    obtain ⟨span, value, body⟩ := case
    rw [scopedInCases, labelsInCases, List.map_append, map_fst_scopedIn body,
      map_fst_scopedInCases cases]

theorem map_fst_scopedInCatches (clauses : List CatchClause) (enclosing : Option UInt32) :
    (scopedInCatches enclosing clauses).map Prod.fst = labelsInCatches clauses := by
  cases clauses with
  | nil => rfl
  | cons clause clauses =>
    obtain ⟨span, type, binding, body⟩ := clause
    rw [scopedInCatches, labelsInCatches, List.map_append, map_fst_scoped body,
      map_fst_scopedInCatches clauses]

theorem map_fst_scopedInOption (s : Option Stmt) (enclosing : Option UInt32) :
    (scopedInOption enclosing s).map Prod.fst = labelsInOption s := by
  cases s with
  | none => rfl
  | some s => exact map_fst_scoped s enclosing

end

mutual

/-- The ids of the `try` statements in a statement, in program order. -/
def Stmt.tries : Stmt → List UInt32
  | ⟨id, _, kind⟩ =>
    match kind with
    | .block stmts => triesIn stmts
    | .conditional _ thenBranch elseBranch => thenBranch.tries ++ elseBranch.tries
    | .whileLoop _ body | .doUntil body _ | .forEach _ _ body | .labeled _ body => body.tries
    | .forLoop init _ step body => triesIn init ++ (triesIn step ++ body.tries)
    | .switch _ cases => triesInCases cases
    | .tryCatch body catches finalizer =>
      id :: (body.tries ++ (triesInCatches catches ++ triesInOption finalizer))
    | _ => []

def triesIn : List Stmt → List UInt32
  | [] => []
  | s :: ss => s.tries ++ triesIn ss

def triesInCases : List SwitchCase → List UInt32
  | [] => []
  | ⟨_, _, body⟩ :: cases => triesIn body ++ triesInCases cases

def triesInCatches : List CatchClause → List UInt32
  | [] => []
  | ⟨_, _, _, body⟩ :: clauses => body.tries ++ triesInCatches clauses

def triesInOption : Option Stmt → List UInt32
  | none => []
  | some s => s.tries

end

end Unwind.Source

namespace Unwind.LabelScopes

open Source

/-- `sc` with more labels and `try` statements behind those it has. -/
def extend (sc : LabelScopes) (labels : List (String × Option UInt32)) (tries : List UInt32) :
    LabelScopes := ⟨sc.labels ++ labels, sc.tries ++ tries⟩

/-- Labels and `try` statements can be entered behind those that are there: none is repeated. -/
def Admits (sc : LabelScopes) (labels : List (String × Option UInt32)) (tries : List UInt32) :
    Prop :=
  ((sc.labels ++ labels).map Prod.fst).Nodup ∧ (sc.tries ++ tries).Nodup

/-- The step enters just these labels and `try` statements, and fails only on a repetition. -/
def Enters (f : LabelScopes → Except Fault LabelScopes) (labels : List (String × Option UInt32))
    (tries : List UInt32) : Prop :=
  ∀ sc sc', sc.Admits [] [] → (f sc = .ok sc' ↔ sc.Admits labels tries ∧ sc' = sc.extend labels tries)

theorem Enters.nil : Enters .ok [] [] := by
  intro sc sc' h
  have he : sc.extend [] [] = sc := by simp [extend]
  rw [he]
  constructor
  · intro heq
    exact ⟨h, (Except.ok.inj heq).symm⟩
  · rintro ⟨-, rfl⟩
    rfl

theorem Enters.seq {f g : LabelScopes → Except Fault LabelScopes}
    {as bs : List (String × Option UInt32)} {ts us : List UInt32} (hf : Enters f as ts)
    (hg : Enters g bs us) : Enters (fun sc => f sc >>= g) (as ++ bs) (ts ++ us) := by
  intro sc sc' h
  have hsplit : sc.Admits (as ++ bs) (ts ++ us) ↔
      sc.Admits as ts ∧ (sc.extend as ts).Admits bs us := by
    simp only [Admits, extend, List.append_assoc, List.map_append, List.nodup_append,
      List.mem_append]
    grind
  have hext : sc.extend (as ++ bs) (ts ++ us) = (sc.extend as ts).extend bs us := by
    simp [extend]
  rw [hsplit, hext]
  have hmid : sc.Admits as ts → (sc.extend as ts).Admits [] [] := by
    intro ha
    simpa [Admits, extend] using ha
  show (f sc >>= g) = .ok sc' ↔ _
  cases hfs : f sc with
  | error e =>
    constructor
    · intro heq
      cases heq
    · rintro ⟨⟨ha, -⟩, -⟩
      rw [(hf sc _ h).mpr ⟨ha, rfl⟩] at hfs
      cases hfs
  | ok sc₁ =>
    obtain ⟨ha, rfl⟩ := (hf sc sc₁ h).mp hfs
    show g (sc.extend as ts) = .ok sc' ↔ _
    rw [hg _ _ (hmid ha)]
    constructor
    · rintro ⟨hb, rfl⟩
      exact ⟨⟨ha, hb⟩, rfl⟩
    · rintro ⟨⟨-, hb⟩, rfl⟩
      exact ⟨hb, rfl⟩

theorem innermostTry?_isSome (sc : LabelScopes) (label : String) :
    (sc.innermostTry? label).isSome = true ↔ label ∈ sc.labels.map Prod.fst := by
  unfold innermostTry?
  induction sc.labels with
  | nil => simp
  | cons x xs ih =>
    obtain ⟨l, e⟩ := x
    rw [List.lookup_cons, List.map_cons, List.mem_cons]
    cases h : label == l with
    | true => simp [beq_iff_eq.mp h]
    | false => simp only [ih, beq_eq_false_iff_ne.mp h, false_or]

theorem addLabel_enters (label : String) (enclosing : Option UInt32) :
    Enters (·.addLabel label enclosing) [(label, enclosing)] [] := by
  intro sc sc' h
  have hadd : sc.Admits [(label, enclosing)] [] ↔ ¬ label ∈ sc.labels.map Prod.fst := by
    simp only [Admits, List.map_append, List.nodup_append, List.append_nil] at h ⊢
    simp [h.1, h.2]
    grind
  rw [hadd, ← innermostTry?_isSome]
  simp only [addLabel]
  by_cases hin : (sc.innermostTry? label).isSome = true
  · rw [if_pos hin]
    simp [hin]
  · rw [if_neg hin]
    constructor
    · intro heq
      exact ⟨hin, by rw [← Except.ok.inj heq]; simp [extend]⟩
    · rintro ⟨-, rfl⟩
      simp [extend]

theorem addTry_enters (id : UInt32) : Enters (·.addTry id) [] [id] := by
  intro sc sc' h
  have hadd : sc.Admits [] [id] ↔ ¬ id ∈ sc.tries := by
    simp only [Admits, List.append_nil, List.nodup_append] at h ⊢
    simp [h.1, h.2]
    grind
  rw [hadd]
  simp only [addTry]
  by_cases hin : id ∈ sc.tries
  · rw [if_pos hin]
    simp [hin]
  · rw [if_neg hin]
    constructor
    · intro heq
      exact ⟨hin, by rw [← Except.ok.inj heq]; simp [extend]⟩
    · rintro ⟨-, rfl⟩
      simp [extend]

mutual

theorem visit_enters (s : Stmt) (enclosing : Option UInt32) :
    Enters (visit enclosing s) (s.scoped enclosing) s.tries := by
  obtain ⟨id, span, kind⟩ := s
  cases kind with
  | block ss => exact visitAll_enters ss enclosing
  | conditional _ s t => exact (visit_enters s enclosing).seq (visit_enters t enclosing)
  | whileLoop _ s | doUntil s _ | forEach _ _ s => exact visit_enters s enclosing
  | forLoop init _ step s =>
    exact (visitAll_enters init enclosing).seq
      ((visitAll_enters step enclosing).seq (visit_enters s enclosing))
  | switch _ cases => exact visitCases_enters cases enclosing
  | labeled label s => exact (addLabel_enters label enclosing).seq (visit_enters s enclosing)
  | tryCatch body catches finalizer =>
    exact (addTry_enters id).seq ((visit_enters body (some id)).seq
      ((visitCatches_enters catches (some id)).seq (visitOption_enters finalizer (some id))))
  | _ => exact .nil

theorem visitAll_enters (ss : List Stmt) (enclosing : Option UInt32) :
    Enters (visitAll enclosing ss) (scopedIn enclosing ss) (triesIn ss) := by
  cases ss with
  | nil => exact .nil
  | cons s ss => exact (visit_enters s enclosing).seq (visitAll_enters ss enclosing)

theorem visitCases_enters (cases : List SwitchCase) (enclosing : Option UInt32) :
    Enters (visitCases enclosing cases) (scopedInCases enclosing cases) (triesInCases cases) := by
  cases cases with
  | nil => exact .nil
  | cons case cases =>
    obtain ⟨span, value, body⟩ := case
    exact (visitAll_enters body enclosing).seq (visitCases_enters cases enclosing)

theorem visitCatches_enters (clauses : List CatchClause) (enclosing : Option UInt32) :
    Enters (visitCatches enclosing clauses) (scopedInCatches enclosing clauses)
      (triesInCatches clauses) := by
  cases clauses with
  | nil => exact .nil
  | cons clause clauses =>
    obtain ⟨span, type, binding, body⟩ := clause
    exact (visit_enters body enclosing).seq (visitCatches_enters clauses enclosing)

theorem visitOption_enters (s : Option Stmt) (enclosing : Option UInt32) :
    Enters (visitOption enclosing s) (scopedInOption enclosing s) (triesInOption s) := by
  cases s with
  | none => exact .nil
  | some s => exact visit_enters s enclosing

end

/-- Collecting finds the labels and the `try` statements of a body, and fails only on a
repetition. -/
theorem collect_eq_ok {body : Stmt} {sc : LabelScopes} :
    collect body = .ok sc ↔
      (body.labels.Nodup ∧ body.tries.Nodup) ∧ sc = ⟨body.scoped none, body.tries⟩ := by
  have hstart : Admits {} [] [] := by simp [Admits]
  have h := visit_enters body none {} sc hstart
  rw [Admits, List.nil_append, List.nil_append, map_fst_scoped] at h
  exact h

end Unwind.LabelScopes
