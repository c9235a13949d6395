import Unwind.Source.Stmt

/-!
# Places of statements, and the variables they write

A statement inside a body is known by its path: the hops that lead to it from the body, the
outermost first. A path that starts with the path of a statement leads into that statement.

`Expr.assigned` and `Stmt.assigned` list the variables of the source program that running an
expression or a statement may write.
-/

namespace Unwind.Source

/-- One hop from a statement to a statement right inside it. -/
inductive Hop where
  /-- A statement of a block. -/
  | item (index : Nat)
  | thenBranch
  | elseBranch
  /-- A statement of a case of a switch. -/
  | caseItem (case index : Nat)
  /-- The statement that carries a label. -/
  | labelBody
  | tryBody
  | catchBody (clause : Nat)
  | finalizer
deriving DecidableEq

/-- The hops that lead to a statement, the outermost first. -/
abbrev Path := List Hop

/-! ## Statements inside a statement -/

/-- The statement that a hop leads to. -/
def Stmt.child? (s : Stmt) (hop : Hop) : Option Stmt :=
  match s.kind, hop with
  | .block stmts, .item i => stmts[i]?
  | .conditional _ s _, .thenBranch => some s
  | .conditional _ _ s, .elseBranch => some s
  | .switch _ cases, .caseItem i j => cases[i]?.bind (·.body[j]?)
  | .labeled _ s, .labelBody => some s
  | .tryCatch s _ _, .tryBody => some s
  | .tryCatch _ catches _, .catchBody i => catches[i]?.map (·.body)
  | .tryCatch _ _ s, .finalizer => s
  | _, _ => none

/-- The statement at a path. Loops are gone before a body is lowered; no path leads into one. -/
def Stmt.at? : Stmt → Path → Option Stmt
  | s, [] => some s
  | s, hop :: π => (s.child? hop).bind (·.at? π)

@[simp]
theorem Stmt.at?_nil (s : Stmt) : s.at? [] = some s := rfl

theorem Stmt.at?_append (s : Stmt) (π σ : Path) :
    s.at? (π ++ σ) = (s.at? π).bind (·.at? σ) := by
  induction π generalizing s with
  | nil => rfl
  | cons hop π ih =>
    rw [List.cons_append, Stmt.at?, Stmt.at?]
    cases s.child? hop with
    | none => rfl
    | some t => exact ih t

/-- One hop further down. -/
theorem Stmt.at?_concat {s t : Stmt} {π : Path} (h : s.at? π = some t) (hop : Hop) :
    s.at? (π ++ [hop]) = t.child? hop := by
  rw [Stmt.at?_append, h, Option.bind_some, Stmt.at?]
  cases t.child? hop <;> rfl

/-! ## Variables that are written -/

mutual

/-- The variables that evaluating an expression may write: the targets in it. -/
def Expr.assigned : Expr → List String
  | ⟨_, _, _, kind⟩ =>
    match kind with
    | .field object _ => assignedOption object
    | .unary _ operand => operand.assigned
    | .binary _ lhs rhs => lhs.assigned ++ rhs.assigned
    | .conditional cond thenExpr elseExpr =>
      cond.assigned ++ thenExpr.assigned ++ elseExpr.assigned
    | .assign target value => target.assigned ++ value.assigned
    | .target target => target.assigned
    | .call ⟨_, receiver, args, _⟩ => assignedOption receiver ++ assignedAll args
    | .new _ _ args => assignedAll args
    | .getType object => object.assigned
    | .conversion value _ => value.assigned
    | _ => []

/-- The variable that a target stands for, and what its object writes. -/
def Target.assigned : Target → List String
  | .var name => [name]
  | .field none field => [field.mapName]
  | .field (some object) _ => object.assigned

def assignedOption : Option Expr → List String
  | none => []
  | some e => e.assigned

def assignedAll : List Expr → List String
  | [] => []
  | e :: es => e.assigned ++ assignedAll es

end

mutual

/-- The variables that a statement may write: the targets in its expressions, the variables it
declares, and those of its catch clauses. -/
def Stmt.assigned : Stmt → List String
  | ⟨_, _, kind⟩ =>
    match kind with
    | .block stmts => assignedIn stmts
    | .assert e | .assume e | .expression e | .throw e | .push e => e.assigned
    | .conditional cond thenBranch elseBranch =>
      cond.assigned ++ (thenBranch.assigned ++ elseBranch.assigned)
    | .switch scrutinee cases => scrutinee.assigned ++ assignedInCases cases
    | .localDecl decl init => decl.name :: assignedOption init
    | .ret value => assignedOption value
    | .labeled _ body => body.assigned
    | .tryCatch body catches finalizer =>
      body.assigned ++ (assignedInCatches catches ++ assignedInOption finalizer)
    | _ => []

def assignedIn : List Stmt → List String
  | [] => []
  | s :: ss => s.assigned ++ assignedIn ss

def assignedInCases : List SwitchCase → List String
  | [] => []
  | ⟨_, value, body⟩ :: cases => assignedOption value ++ (assignedIn body ++ assignedInCases cases)

def assignedInCatches : List CatchClause → List String
  | [] => []
  | ⟨_, _, binding, body⟩ :: clauses =>
    (binding.map Variable.name).toList ++ (body.assigned ++ assignedInCatches clauses)

def assignedInOption : Option Stmt → List String
  | none => []
  | some s => s.assigned

end

/-! ## Labels -/

mutual

/-- The labels of a statement, in program order. -/
def Stmt.labels : Stmt → List String
  | ⟨_, _, kind⟩ =>
    match kind with
    | .block stmts => labelsIn stmts
    | .conditional _ thenBranch elseBranch => thenBranch.labels ++ elseBranch.labels
    | .whileLoop _ body | .doUntil body _ | .forEach _ _ body => body.labels
    | .forLoop init _ step body => labelsIn init ++ (labelsIn step ++ body.labels)
    | .switch _ cases => labelsInCases cases
    | .labeled label body => label :: body.labels
    | .tryCatch body catches finalizer =>
      body.labels ++ (labelsInCatches catches ++ labelsInOption finalizer)
    | _ => []

def labelsIn : List Stmt → List String
  | [] => []
  | s :: ss => s.labels ++ labelsIn ss

def labelsInCases : List SwitchCase → List String
  | [] => []
  | ⟨_, _, body⟩ :: cases => labelsIn body ++ labelsInCases cases

def labelsInCatches : List CatchClause → List String
  | [] => []
  | ⟨_, _, _, body⟩ :: clauses => body.labels ++ labelsInCatches clauses

def labelsInOption : Option Stmt → List String
  | none => []
  | some s => s.labels

end

theorem labelsInCatches_cons (clause : CatchClause) (clauses : List CatchClause) :
    labelsInCatches (clause :: clauses) = clause.body.labels ++ labelsInCatches clauses := by
  cases clause
  rfl

/-- The labels of the last default case, the one that runs. -/
def labelsInDefault : List SwitchCase → List String
  | [] => []
  | case :: cases =>
    if case.value.isSome || cases.any (·.value.isNone) then labelsInDefault cases
    else labelsIn case.body

/-- The labels of the cases with a value, from the last case to the first. -/
def labelsInValued : List SwitchCase → List String
  | [] => []
  | ⟨_, none, _⟩ :: cases => labelsInValued cases
  | ⟨_, some _, body⟩ :: cases => labelsInValued cases ++ labelsIn body

theorem labelsInDefault_eq_nil {cases : List SwitchCase} (h : cases.any (·.value.isNone) = false) :
    labelsInDefault cases = [] := by
  induction cases with
  | nil => rfl
  | cons case cases ih =>
    obtain ⟨span, value, body⟩ := case
    rw [List.any_cons, Bool.or_eq_false_iff] at h
    rw [labelsInDefault, ih h.2]
    cases value with
    | none => cases h.1
    | some e => rfl

/-- With one default case at most, no label of a switch is lost. -/
theorem count_labelsInCases {cases : List SwitchCase} (h : cases.countP (·.value.isNone) ≤ 1)
    (l : String) :
    (labelsInCases cases).count l =
      (labelsInDefault cases).count l + (labelsInValued cases).count l := by
  induction cases with
  | nil => rfl
  | cons case cases ih =>
    obtain ⟨span, value, body⟩ := case
    rw [List.countP_cons] at h
    rw [labelsInCases, List.count_append]
    cases value with
    | some e =>
      rw [labelsInDefault, labelsInValued, if_pos (by simp), List.count_append,
        ih (by simpa using h)]
      omega
    | none =>
      have hc : cases.countP (·.value.isNone) = 0 := by simpa using h
      have hany : cases.any (·.value.isNone) = false := by
        rw [List.any_eq_false]
        exact fun x hx hn => List.countP_eq_zero.mp hc x hx hn
      rw [labelsInDefault, labelsInValued, if_neg (by simp [hany]), ih (by omega),
        labelsInDefault_eq_nil hany]
      simp

mutual

/-- No switch in the statement has two default cases. -/
def Stmt.oneDefault : Stmt → Bool
  | ⟨_, _, kind⟩ =>
    match kind with
    | .block stmts => oneDefaultIn stmts
    | .conditional _ thenBranch elseBranch => thenBranch.oneDefault && elseBranch.oneDefault
    | .switch _ cases => decide (cases.countP (·.value.isNone) ≤ 1) && oneDefaultInCases cases
    | .labeled _ body => body.oneDefault
    | .tryCatch body catches finalizer =>
      body.oneDefault && oneDefaultInCatches catches && oneDefaultInOption finalizer
    | _ => true

def oneDefaultIn : List Stmt → Bool
  | [] => true
  | s :: ss => s.oneDefault && oneDefaultIn ss

def oneDefaultInCases : List SwitchCase → Bool
  | [] => true
  | ⟨_, _, body⟩ :: cases => oneDefaultIn body && oneDefaultInCases cases

def oneDefaultInCatches : List CatchClause → Bool
  | [] => true
  | ⟨_, _, _, body⟩ :: clauses => body.oneDefault && oneDefaultInCatches clauses

def oneDefaultInOption : Option Stmt → Bool
  | none => true
  | some s => s.oneDefault

end

theorem oneDefault_of_mem {ss : List Stmt} (h : oneDefaultIn ss = true) {s : Stmt} (hs : s ∈ ss) :
    s.oneDefault = true := by
  induction ss with
  | nil => cases hs
  | cons t ss ih =>
    rw [oneDefaultIn, Bool.and_eq_true] at h
    rcases List.mem_cons.mp hs with rfl | hs
    · exact h.1
    · exact ih h.2 hs

theorem oneDefaultIn_of_mem_cases {cases : List SwitchCase} (h : oneDefaultInCases cases = true)
    {case : SwitchCase} (hc : case ∈ cases) : oneDefaultIn case.body = true := by
  induction cases with
  | nil => cases hc
  | cons case' cases ih =>
    obtain ⟨span, value, body⟩ := case'
    rw [oneDefaultInCases, Bool.and_eq_true] at h
    rcases List.mem_cons.mp hc with rfl | hc
    · exact h.1
    · exact ih h.2 hc

theorem oneDefault_of_mem_catches {clauses : List CatchClause}
    (h : oneDefaultInCatches clauses = true) {clause : CatchClause} (hc : clause ∈ clauses) :
    clause.body.oneDefault = true := by
  induction clauses with
  | nil => cases hc
  | cons clause' clauses ih =>
    obtain ⟨span, type, binding, body⟩ := clause'
    rw [oneDefaultInCatches, Bool.and_eq_true] at h
    rcases List.mem_cons.mp hc with rfl | hc
    · exact h.1
    · exact ih h.2 hc

theorem Stmt.oneDefault_child {s t : Stmt} (h : s.oneDefault = true) {hop : Hop}
    (ht : s.child? hop = some t) : t.oneDefault = true := by
  obtain ⟨id, span, kind⟩ := s
  unfold Stmt.child? at ht
  split at ht
  · next hk =>
    cases hk
    exact oneDefault_of_mem h (List.mem_of_getElem? ht)
  · next hk =>
    cases hk
    cases ht
    rw [Stmt.oneDefault, Bool.and_eq_true] at h
    exact h.1
  · next hk =>
    cases hk
    cases ht
    rw [Stmt.oneDefault, Bool.and_eq_true] at h
    exact h.2
  · next hk =>
    cases hk
    rw [Stmt.oneDefault, Bool.and_eq_true] at h
    obtain ⟨case, hcase, ht⟩ := Option.bind_eq_some_iff.mp ht
    exact oneDefault_of_mem (oneDefaultIn_of_mem_cases h.2 (List.mem_of_getElem? hcase))
      (List.mem_of_getElem? ht)
  · next hk =>
    cases hk
    cases ht
    exact h
  · next hk =>
    cases hk
    cases ht
    rw [Stmt.oneDefault, Bool.and_eq_true, Bool.and_eq_true] at h
    exact h.1.1
  · next hk =>
    cases hk
    rw [Stmt.oneDefault, Bool.and_eq_true, Bool.and_eq_true] at h
    obtain ⟨clause, hclause, rfl⟩ := Option.map_eq_some_iff.mp ht
    exact oneDefault_of_mem_catches h.1.2 (List.mem_of_getElem? hclause)
  · next hk =>
    cases hk
    rw [Stmt.oneDefault, Bool.and_eq_true, Bool.and_eq_true, ht] at h
    exact h.2
  · cases ht

theorem Stmt.oneDefault_at {s t : Stmt} (h : s.oneDefault = true) {π : Path}
    (ht : s.at? π = some t) : t.oneDefault = true := by
  induction π generalizing s with
  | nil =>
    cases ht
    exact h
  | cons hop π ih =>
    obtain ⟨u, hu, ht⟩ := Option.bind_eq_some_iff.mp ht
    exact ih (Stmt.oneDefault_child h hu) ht

end Unwind.Source
