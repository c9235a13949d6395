import Mathlib.Data.List.Infix
import Mathlib.Data.List.Nodup
import Unwind.Proofs.Scopes

/-!
# Parts of `try` statements

A `try` statement has a body, catch clauses and a finally block, its parts. The path of a place
tells which parts it is in, and so which `try` statements are around it (`triesAround`).

`Stmt.Regular` is the condition that jumps do not enter a part from outside. Of the labels of a body
it is known from `Stmt.scoped` which `try` statement is the innermost around each; the lemmas here
turn that into statements about paths.
-/

namespace Unwind.Source

/-! ## Paths -/

/-- The hop leads into a part of a `try` statement. -/
def Hop.isPart : Hop → Bool
  | tryBody | catchBody _ | finalizer => true
  | _ => false

/-- The place is a part of a `try` statement. -/
def isPart (π : Path) : Bool := π.getLast?.any Hop.isPart

/-- The `try` statements along a path that starts at `base`, in front of those around `base`. -/
def triesAlong (base : Path) (around : List Path) : Path → List Path
  | [] => around
  | hop :: π => triesAlong (base ++ [hop]) (if hop.isPart then base :: around else around) π

/-- The `try` statements around a place, the innermost first. -/
def triesAround (π : Path) : List Path := triesAlong [] [] π

@[simp]
theorem isPart_concat (π : Path) (hop : Hop) : isPart (π ++ [hop]) = hop.isPart := by
  simp [isPart]

theorem triesAlong_concat (base : Path) (around : List Path) (π : Path) (hop : Hop) :
    triesAlong base around (π ++ [hop]) =
      if hop.isPart then (base ++ π) :: triesAlong base around π
      else triesAlong base around π := by
  induction π generalizing base around with
  | nil => simp [triesAlong]
  | cons hop' π ih =>
    rw [List.cons_append, triesAlong, triesAlong, ih, List.append_assoc, List.singleton_append]

theorem triesAround_concat (π : Path) (hop : Hop) :
    triesAround (π ++ [hop]) = if hop.isPart then π :: triesAround π else triesAround π :=
  triesAlong_concat [] [] π hop

/-! ## The statements of a body with their places -/

/-- Places below a hop. -/
def below (hop : Hop) (places : List (Path × Stmt)) : List (Path × Stmt) :=
  places.map fun (π, s) => (hop :: π, s)

theorem mem_below {hop : Hop} {places : List (Path × Stmt)} {π : Path} {s : Stmt}
    (h : (π, s) ∈ places) : (hop :: π, s) ∈ below hop places :=
  List.mem_map_of_mem (f := fun (π, s) => (hop :: π, s)) h

mutual

/-- The statements in a statement, each with its path; loops have none. -/
def Stmt.places : Stmt → List (Path × Stmt)
  | ⟨id, span, kind⟩ => ([], ⟨id, span, kind⟩) ::
    match kind with
    | .block stmts => placesIn .item 0 stmts
    | .conditional _ thenBranch elseBranch =>
      below .thenBranch thenBranch.places ++ below .elseBranch elseBranch.places
    | .switch _ cases => placesInCases 0 cases
    | .labeled _ body => below .labelBody body.places
    | .tryCatch body catches finalizer =>
      below .tryBody body.places ++ (placesInCatches 0 catches ++ placesInOption finalizer)
    | _ => []

def placesIn (hop : Nat → Hop) (index : Nat) : List Stmt → List (Path × Stmt)
  | [] => []
  | s :: ss => below (hop index) s.places ++ placesIn hop (index + 1) ss

def placesInCases (index : Nat) : List SwitchCase → List (Path × Stmt)
  | [] => []
  | ⟨_, _, body⟩ :: cases => placesIn (.caseItem index) 0 body ++ placesInCases (index + 1) cases

def placesInCatches (index : Nat) : List CatchClause → List (Path × Stmt)
  | [] => []
  | ⟨_, _, _, body⟩ :: clauses =>
    below (.catchBody index) body.places ++ placesInCatches (index + 1) clauses

def placesInOption : Option Stmt → List (Path × Stmt)
  | none => []
  | some s => below .finalizer s.places

end

section Places

variable {π : Path} {s t : Stmt}

theorem mem_placesIn {hop : Nat → Hop} {i j : Nat} {ss : List Stmt} (hs : ss[j]? = some s)
    (h : (π, t) ∈ s.places) : (hop (i + j) :: π, t) ∈ placesIn hop i ss := by
  induction ss generalizing i j with
  | nil => cases hs
  | cons s' ss ih =>
    rw [placesIn, List.mem_append]
    cases j with
    | zero =>
      cases hs
      exact .inl (mem_below h)
    | succ j =>
      rw [Nat.add_comm j, ← Nat.add_assoc]
      exact .inr (ih hs)

theorem mem_placesInCases {i j k : Nat} {cases : List SwitchCase}
    (hs : cases[j]?.bind (·.body[k]?) = some s) (h : (π, t) ∈ s.places) :
    (.caseItem (i + j) k :: π, t) ∈ placesInCases i cases := by
  induction cases generalizing i j with
  | nil => cases hs
  | cons case cases ih =>
    obtain ⟨span, value, body⟩ := case
    rw [placesInCases, List.mem_append]
    cases j with
    | zero =>
      have hm : (.caseItem i (0 + k) :: π, t) ∈ placesIn (.caseItem i) 0 body := mem_placesIn hs h
      rw [Nat.zero_add] at hm
      exact .inl hm
    | succ j =>
      rw [Nat.add_comm j, ← Nat.add_assoc]
      exact .inr (ih hs)

theorem mem_placesInCatches {i j : Nat} {clauses : List CatchClause} {clause : CatchClause}
    (hs : clauses[j]? = some clause) (h : (π, t) ∈ clause.body.places) :
    (.catchBody (i + j) :: π, t) ∈ placesInCatches i clauses := by
  induction clauses generalizing i j with
  | nil => cases hs
  | cons clause' clauses ih =>
    obtain ⟨span, type, binding, body⟩ := clause'
    rw [placesInCatches, List.mem_append]
    cases j with
    | zero =>
      cases hs
      exact .inl (mem_below h)
    | succ j =>
      rw [Nat.add_comm j, ← Nat.add_assoc]
      exact .inr (ih hs)

theorem Stmt.mem_places_child {hop : Hop} {u : Stmt} (hc : s.child? hop = some u)
    (h : (π, t) ∈ u.places) : (hop :: π, t) ∈ s.places := by
  obtain ⟨id, span, kind⟩ := s
  unfold Stmt.child? at hc
  split at hc
  · next i hk =>
    cases hk
    rw [Stmt.places]
    refine List.mem_cons_of_mem _ ?_
    rw [← Nat.zero_add i]
    exact mem_placesIn hc h
  · next hk =>
    cases hk
    rw [Stmt.places]
    refine List.mem_cons_of_mem _ ?_
    cases hc
    exact List.mem_append_left _ (mem_below h)
  · next hk =>
    cases hk
    rw [Stmt.places]
    refine List.mem_cons_of_mem _ ?_
    cases hc
    exact List.mem_append_right _ (mem_below h)
  · next i _ hk =>
    cases hk
    rw [Stmt.places]
    refine List.mem_cons_of_mem _ ?_
    rw [← Nat.zero_add i]
    exact mem_placesInCases hc h
  · next hk =>
    cases hk
    rw [Stmt.places]
    refine List.mem_cons_of_mem _ ?_
    cases hc
    exact mem_below h
  · next hk =>
    cases hk
    rw [Stmt.places]
    refine List.mem_cons_of_mem _ ?_
    cases hc
    exact List.mem_append_left _ (mem_below h)
  · next i hk =>
    cases hk
    rw [Stmt.places]
    refine List.mem_cons_of_mem _ ?_
    obtain ⟨clause, hclause, rfl⟩ := Option.map_eq_some_iff.mp hc
    refine List.mem_append_right _ (List.mem_append_left _ ?_)
    rw [← Nat.zero_add i]
    exact mem_placesInCatches hclause h
  · next hk =>
    cases hk
    rw [Stmt.places]
    refine List.mem_cons_of_mem _ ?_
    subst hc
    exact List.mem_append_right _ (List.mem_append_right _ (mem_below h))
  · cases hc

/-- Every statement that a path leads to is listed with this path. -/
theorem Stmt.mem_places (h : s.at? π = some t) : (π, t) ∈ s.places := by
  induction π generalizing s with
  | nil =>
    cases h
    obtain ⟨id, span, kind⟩ := t
    cases kind <;> exact List.mem_cons_self
  | cons hop π ih =>
    obtain ⟨u, hu, h⟩ := Option.bind_eq_some_iff.mp h
    exact Stmt.mem_places_child hu (ih h)

end Places

/-! ## Regular jumps -/

/-- The label that a `goto` statement jumps to. -/
def Stmt.target? (s : Stmt) : Option String :=
  match s.kind with
  | .goto label => some label
  | _ => none

/-- No jump enters a part of a `try` statement: every part that holds the label of a `goto`
statement, the innermost one among them, holds the statement too. -/
def Stmt.Regular (body : Stmt) : Prop :=
  ∀ p ∈ body.places, ∀ l ∈ p.2.target?, ∀ q ∈ body.places,
    isPart q.1 = true → l ∈ q.2.labels → q.1 <+: p.1

instance (body : Stmt) : Decidable body.Regular := by
  unfold Stmt.Regular
  infer_instance

/-! ## The `try` statements in a statement -/

mutual

/-- The `try` statements in a statement, in program order. -/
def Stmt.tryStmts : Stmt → List Stmt
  | ⟨id, span, kind⟩ =>
    match kind with
    | .block stmts => tryStmtsIn stmts
    | .conditional _ thenBranch elseBranch => thenBranch.tryStmts ++ elseBranch.tryStmts
    | .whileLoop _ body | .doUntil body _ | .forEach _ _ body | .labeled _ body => body.tryStmts
    | .forLoop init _ step body => tryStmtsIn init ++ (tryStmtsIn step ++ body.tryStmts)
    | .switch _ cases => tryStmtsInCases cases
    | .tryCatch body catches finalizer =>
      ⟨id, span, .tryCatch body catches finalizer⟩ ::
        (body.tryStmts ++ (tryStmtsInCatches catches ++ tryStmtsInOption finalizer))
    | _ => []

def tryStmtsIn : List Stmt → List Stmt
  | [] => []
  | s :: ss => s.tryStmts ++ tryStmtsIn ss

def tryStmtsInCases : List SwitchCase → List Stmt
  | [] => []
  | ⟨_, _, body⟩ :: cases => tryStmtsIn body ++ tryStmtsInCases cases

def tryStmtsInCatches : List CatchClause → List Stmt
  | [] => []
  | ⟨_, _, _, body⟩ :: clauses => body.tryStmts ++ tryStmtsInCatches clauses

def tryStmtsInOption : Option Stmt → List Stmt
  | none => []
  | some s => s.tryStmts

end

mutual

theorem map_id_tryStmts (s : Stmt) : s.tryStmts.map Stmt.id = s.tries := by
  obtain ⟨id, span, kind⟩ := s
  cases kind with
  | block ss => exact map_id_tryStmtsIn ss
  | conditional _ s t =>
    rw [Stmt.tryStmts, Stmt.tries, List.map_append, map_id_tryStmts s, map_id_tryStmts t]
  | whileLoop _ s | doUntil s _ | forEach _ _ s | labeled _ s => exact map_id_tryStmts s
  | forLoop init _ step s =>
    rw [Stmt.tryStmts, Stmt.tries, List.map_append, List.map_append, map_id_tryStmtsIn init,
      map_id_tryStmtsIn step, map_id_tryStmts s]
  | switch _ cases => exact map_id_tryStmtsInCases cases
  | tryCatch body catches finalizer =>
    rw [Stmt.tryStmts, Stmt.tries, List.map_cons, List.map_append, List.map_append,
      map_id_tryStmts body, map_id_tryStmtsInCatches catches, map_id_tryStmtsInOption finalizer]
  | _ => rfl

theorem map_id_tryStmtsIn (ss : List Stmt) : (tryStmtsIn ss).map Stmt.id = triesIn ss := by
  cases ss with
  | nil => rfl
  | cons s ss => rw [tryStmtsIn, triesIn, List.map_append, map_id_tryStmts s, map_id_tryStmtsIn ss]

theorem map_id_tryStmtsInCases (cases : List SwitchCase) :
    (tryStmtsInCases cases).map Stmt.id = triesInCases cases := by
  cases cases with
  | nil => rfl
  | cons case cases =>
    obtain ⟨span, value, body⟩ := case
    rw [tryStmtsInCases, triesInCases, List.map_append, map_id_tryStmtsIn body,
      map_id_tryStmtsInCases cases]

theorem map_id_tryStmtsInCatches (clauses : List CatchClause) :
    (tryStmtsInCatches clauses).map Stmt.id = triesInCatches clauses := by
  cases clauses with
  | nil => rfl
  | cons clause clauses =>
    obtain ⟨span, type, binding, body⟩ := clause
    rw [tryStmtsInCatches, triesInCatches, List.map_append, map_id_tryStmts body,
      map_id_tryStmtsInCatches clauses]

theorem map_id_tryStmtsInOption (s : Option Stmt) :
    (tryStmtsInOption s).map Stmt.id = triesInOption s := by
  cases s with
  | none => rfl
  | some s => exact map_id_tryStmts s

end

/-! ## The innermost `try` statement around a label -/

/-- A label stands in no `try` statement of the list, or one of them is the innermost around it. -/
def Within (enclosing : Option UInt32) (tries : List Stmt) (x : String × Option UInt32) : Prop :=
  x.2 = enclosing ∨ ∃ t ∈ tries, x.2 = some t.id ∧ x.1 ∈ t.labels

theorem Within.mono {enclosing : Option UInt32} {ts us : List Stmt} {x : String × Option UInt32}
    (h : Within enclosing ts x) (hsub : ts ⊆ us) : Within enclosing us x := by
  rcases h with h | ⟨t, ht, h⟩
  · exact .inl h
  · exact .inr ⟨t, hsub ht, h⟩

theorem mem_labels_of_scoped {s : Stmt} {e : Option UInt32} {x : String × Option UInt32}
    (h : x ∈ s.scoped e) : x.1 ∈ s.labels := by
  rw [← map_fst_scoped s e]
  exact List.mem_map_of_mem h

mutual

/-- What `Stmt.scoped` finds around a label is a `try` statement that holds it. -/
theorem within_scoped (s : Stmt) {e : Option UInt32} {x : String × Option UInt32}
    (h : x ∈ s.scoped e) : Within e s.tryStmts x := by
  obtain ⟨id, span, kind⟩ := s
  cases kind with
  | block ss => exact within_scopedIn ss h
  | conditional _ s t =>
    rcases List.mem_append.mp h with h | h
    · exact (within_scoped s h).mono (List.subset_append_left _ _)
    · exact (within_scoped t h).mono (List.subset_append_right _ _)
  | whileLoop _ s | doUntil s _ | forEach _ _ s => exact within_scoped s h
  | forLoop init _ step s =>
    rcases List.mem_append.mp h with h | h
    · exact (within_scopedIn init h).mono (List.subset_append_left _ _)
    refine Within.mono ?_ (List.subset_append_right _ _)
    rcases List.mem_append.mp h with h | h
    · exact (within_scopedIn step h).mono (List.subset_append_left _ _)
    · exact (within_scoped s h).mono (List.subset_append_right _ _)
  | switch _ cases => exact within_scopedInCases cases h
  | labeled label s =>
    rcases List.mem_cons.mp h with rfl | h
    · exact .inl rfl
    · exact within_scoped s h
  | tryCatch body catches finalizer =>
    have hl := mem_labels_of_scoped h
    have hx : Within (some id)
        (body.tryStmts ++ (tryStmtsInCatches catches ++ tryStmtsInOption finalizer)) x := by
      rcases List.mem_append.mp h with h | h
      · exact (within_scoped body h).mono (List.subset_append_left _ _)
      refine Within.mono ?_ (List.subset_append_right _ _)
      rcases List.mem_append.mp h with h | h
      · exact (within_scopedInCatches catches h).mono (List.subset_append_left _ _)
      · exact (within_scopedInOption finalizer h).mono (List.subset_append_right _ _)
    rcases hx with hx | ⟨t, ht, hx⟩
    · exact .inr ⟨_, List.mem_cons_self, hx, hl⟩
    · exact .inr ⟨t, List.mem_cons_of_mem _ ht, hx⟩
  | _ => cases h

theorem within_scopedIn (ss : List Stmt) {e : Option UInt32} {x : String × Option UInt32}
    (h : x ∈ scopedIn e ss) : Within e (tryStmtsIn ss) x := by
  cases ss with
  | nil => cases h
  | cons s ss =>
    rcases List.mem_append.mp h with h | h
    · exact (within_scoped s h).mono (List.subset_append_left _ _)
    · exact (within_scopedIn ss h).mono (List.subset_append_right _ _)

theorem within_scopedInCases (cases : List SwitchCase) {e : Option UInt32}
    {x : String × Option UInt32} (h : x ∈ scopedInCases e cases) :
    Within e (tryStmtsInCases cases) x := by
  cases cases with
  | nil => cases h
  | cons case cases =>
    obtain ⟨span, value, body⟩ := case
    rcases List.mem_append.mp h with h | h
    · exact (within_scopedIn body h).mono (List.subset_append_left _ _)
    · exact (within_scopedInCases cases h).mono (List.subset_append_right _ _)

theorem within_scopedInCatches (clauses : List CatchClause) {e : Option UInt32}
    {x : String × Option UInt32} (h : x ∈ scopedInCatches e clauses) :
    Within e (tryStmtsInCatches clauses) x := by
  cases clauses with
  | nil => cases h
  | cons clause clauses =>
    obtain ⟨span, type, binding, body⟩ := clause
    rcases List.mem_append.mp h with h | h
    · exact (within_scoped body h).mono (List.subset_append_left _ _)
    · exact (within_scopedInCatches clauses h).mono (List.subset_append_right _ _)

theorem within_scopedInOption (s : Option Stmt) {e : Option UInt32} {x : String × Option UInt32}
    (h : x ∈ scopedInOption e s) : Within e (tryStmtsInOption s) x := by
  cases s with
  | none => cases h
  | some s => exact within_scoped s h

end

/-! ## Statements inside a statement -/

/-- The labels and `try` statements of `t` are among those of `s`, in their order. -/
structure Stmt.Holds (s t : Stmt) : Prop where
  tries : t.tryStmts.Sublist s.tryStmts
  scopes : ∀ e, ∃ e', (t.scoped e').Sublist (s.scoped e)

section Holds

variable {s t u : Stmt} {π : Path}

theorem Stmt.Holds.refl (s : Stmt) : s.Holds s :=
  ⟨List.Sublist.refl _, fun e => ⟨e, List.Sublist.refl _⟩⟩

theorem Stmt.Holds.trans (h : s.Holds t) (h' : t.Holds u) : s.Holds u := by
  refine ⟨h'.tries.trans h.tries, fun e => ?_⟩
  obtain ⟨e₁, h₁⟩ := h.scopes e
  obtain ⟨e₂, h₂⟩ := h'.scopes e₁
  exact ⟨e₂, h₂.trans h₁⟩

theorem Stmt.Holds.labels (h : s.Holds t) : t.labels.Sublist s.labels := by
  obtain ⟨e, he⟩ := h.scopes none
  rw [← map_fst_scoped t e, ← map_fst_scoped s none]
  exact he.map _

theorem sublist_of_mem {ss : List Stmt} (h : s ∈ ss) :
    s.tryStmts.Sublist (tryStmtsIn ss) ∧ ∀ e, (s.scoped e).Sublist (scopedIn e ss) := by
  induction ss with
  | nil => cases h
  | cons s' ss ih =>
    rcases List.mem_cons.mp h with rfl | h
    · exact ⟨List.sublist_append_left _ _, fun e => List.sublist_append_left _ _⟩
    · obtain ⟨ht, hs⟩ := ih h
      exact ⟨ht.trans (List.sublist_append_right _ _),
        fun e => (hs e).trans (List.sublist_append_right _ _)⟩

theorem sublist_of_mem_cases {cases : List SwitchCase} {case : SwitchCase} (h : case ∈ cases) :
    (tryStmtsIn case.body).Sublist (tryStmtsInCases cases) ∧
      ∀ e, (scopedIn e case.body).Sublist (scopedInCases e cases) := by
  induction cases with
  | nil => cases h
  | cons case' cases ih =>
    obtain ⟨span, value, body⟩ := case'
    rcases List.mem_cons.mp h with rfl | h
    · exact ⟨List.sublist_append_left _ _, fun e => List.sublist_append_left _ _⟩
    · obtain ⟨ht, hs⟩ := ih h
      exact ⟨ht.trans (List.sublist_append_right _ _),
        fun e => (hs e).trans (List.sublist_append_right _ _)⟩

theorem sublist_of_mem_catches {clauses : List CatchClause} {clause : CatchClause}
    (h : clause ∈ clauses) :
    clause.body.tryStmts.Sublist (tryStmtsInCatches clauses) ∧
      ∀ e, (clause.body.scoped e).Sublist (scopedInCatches e clauses) := by
  induction clauses with
  | nil => cases h
  | cons clause' clauses ih =>
    obtain ⟨span, type, binding, body⟩ := clause'
    rcases List.mem_cons.mp h with rfl | h
    · exact ⟨List.sublist_append_left _ _, fun e => List.sublist_append_left _ _⟩
    · obtain ⟨ht, hs⟩ := ih h
      exact ⟨ht.trans (List.sublist_append_right _ _),
        fun e => (hs e).trans (List.sublist_append_right _ _)⟩

/-- A part of a `try` statement has only `try` statements that are further in. -/
theorem sublist_of_part {id : UInt32} {span : Span} {b : Stmt} {cs : List CatchClause}
    {f : Option Stmt} {hop : Hop}
    (h : (Stmt.mk id span (.tryCatch b cs f)).child? hop = some t) :
    t.tryStmts.Sublist (b.tryStmts ++ (tryStmtsInCatches cs ++ tryStmtsInOption f)) ∧
      ∀ e, (t.scoped (some id)).Sublist ((Stmt.mk id span (.tryCatch b cs f)).scoped e) := by
  cases hop with
  | tryBody =>
    cases h
    exact ⟨List.sublist_append_left _ _, fun e => List.sublist_append_left _ _⟩
  | catchBody i =>
    obtain ⟨clause, hclause, rfl⟩ := Option.map_eq_some_iff.mp h
    obtain ⟨ht, hs⟩ := sublist_of_mem_catches (List.mem_of_getElem? hclause)
    constructor
    · exact (ht.trans (List.sublist_append_left _ _)).trans (List.sublist_append_right _ _)
    · intro e
      exact ((hs _).trans (List.sublist_append_left _ _)).trans (List.sublist_append_right _ _)
  | finalizer =>
    obtain rfl : f = some t := h
    constructor
    · exact (List.sublist_append_right _ _).trans (List.sublist_append_right _ _)
    · intro e
      exact (List.sublist_append_right _ _).trans (List.sublist_append_right _ _)
  | _ => cases h

theorem holds_part {id : UInt32} {span : Span} {b : Stmt} {cs : List CatchClause}
    {f : Option Stmt} (hop : Hop)
    (h : (Stmt.mk id span (.tryCatch b cs f)).child? hop = some t) :
    (Stmt.mk id span (.tryCatch b cs f)).Holds t := by
  obtain ⟨ht, hs⟩ := sublist_of_part h
  exact ⟨ht.trans (List.sublist_cons_self _ _), fun e => ⟨_, hs e⟩⟩

theorem Stmt.holds_child {hop : Hop} (h : s.child? hop = some t) : s.Holds t := by
  obtain ⟨id, span, kind⟩ := s
  unfold Stmt.child? at h
  split at h
  · next hk =>
    cases hk
    obtain ⟨ht, hs⟩ := sublist_of_mem (List.mem_of_getElem? h)
    exact ⟨ht, fun e => ⟨e, hs e⟩⟩
  · next hk =>
    cases hk
    cases h
    exact ⟨List.sublist_append_left _ _, fun e => ⟨e, List.sublist_append_left _ _⟩⟩
  · next hk =>
    cases hk
    cases h
    exact ⟨List.sublist_append_right _ _, fun e => ⟨e, List.sublist_append_right _ _⟩⟩
  · next hk =>
    cases hk
    obtain ⟨case, hcase, h⟩ := Option.bind_eq_some_iff.mp h
    obtain ⟨ht, hs⟩ := sublist_of_mem (List.mem_of_getElem? h)
    obtain ⟨ht', hs'⟩ := sublist_of_mem_cases (List.mem_of_getElem? hcase)
    exact ⟨ht.trans ht', fun e => ⟨e, (hs e).trans (hs' e)⟩⟩
  · next hk =>
    cases hk
    cases h
    exact ⟨List.Sublist.refl _, fun e => ⟨e, List.sublist_cons_self _ _⟩⟩
  · next hk =>
    cases hk
    exact holds_part .tryBody h
  · next i hk =>
    cases hk
    exact holds_part (.catchBody i) h
  · next hk =>
    cases hk
    exact holds_part .finalizer h
  · cases h

theorem Stmt.holds_at (h : s.at? π = some t) : s.Holds t := by
  induction π generalizing s with
  | nil =>
    cases h
    exact .refl _
  | cons hop π ih =>
    obtain ⟨u, hu, h⟩ := Option.bind_eq_some_iff.mp h
    exact (Stmt.holds_child hu).trans (ih h)

/-- A path that goes on behind the path of a statement leads into the statement. -/
theorem Stmt.at?_of_prefix {body : Stmt} {σ : Path} (hπ : body.at? π = some s) (hσ : body.at? σ = some t)
    (h : π <+: σ) : ∃ ρ, σ = π ++ ρ ∧ s.at? ρ = some t := by
  obtain ⟨ρ, rfl⟩ := h
  refine ⟨ρ, rfl, ?_⟩
  rw [Stmt.at?_append, hπ] at hσ
  exact hσ

end Holds

/-! ## Labels and the `try` statements around them -/

section Innermost

variable {body t : Stmt} {id : UInt32} {span : Span} {b : Stmt} {cs : List CatchClause}
  {f : Option Stmt} {π σ : Path} {l : String}

theorem mem_tryStmts (h : body.at? π = some ⟨id, span, .tryCatch b cs f⟩) :
    ⟨id, span, .tryCatch b cs f⟩ ∈ body.tryStmts :=
  (Stmt.holds_at h).tries.subset List.mem_cons_self

/-- A `try` statement holds the labels of which it is the innermost around. -/
theorem mem_labels_of_innermost (hnd : body.tries.Nodup)
    (h : body.at? π = some ⟨id, span, .tryCatch b cs f⟩)
    (hl : (l, some id) ∈ body.scoped none) :
    l ∈ (Stmt.mk id span (.tryCatch b cs f)).labels := by
  rcases within_scoped body hl with hnone | ⟨t, ht, hid, hlt⟩
  · cases hnone
  · rw [← map_id_tryStmts] at hnd
    have heq : t = ⟨id, span, .tryCatch b cs f⟩ :=
      List.inj_on_of_nodup_map hnd ht (mem_tryStmts h) (Option.some.inj hid).symm
    rw [← heq]
    exact hlt

/-- The innermost `try` statement around a label of a `try` statement is this one or one in it. -/
theorem innermost_of_mem_labels (h : body.at? π = some ⟨id, span, .tryCatch b cs f⟩)
    (hl : l ∈ (Stmt.mk id span (.tryCatch b cs f)).labels) :
    ∃ t ∈ (Stmt.mk id span (.tryCatch b cs f)).tryStmts, (l, some t.id) ∈ body.scoped none := by
  obtain ⟨e, he⟩ := (Stmt.holds_at h).scopes none
  rw [← map_fst_scoped _ (some id)] at hl
  obtain ⟨⟨l', x⟩, hx, rfl⟩ := List.mem_map.mp hl
  have hbody : (l', x) ∈ body.scoped none := he.subset hx
  rcases within_scoped _ hx with hid | ⟨t, ht, hid, -⟩
  · obtain rfl : x = some id := hid
    exact ⟨_, List.mem_cons_self, hbody⟩
  · obtain rfl : x = some t.id := hid
    exact ⟨t, ht, hbody⟩

/-- A `try` statement is none of those in its parts. -/
theorem id_ne_of_part (hnd : body.tries.Nodup)
    (h : body.at? π = some ⟨id, span, .tryCatch b cs f⟩) (hσ : body.at? σ = some t) {hop : Hop}
    (hp : π ++ [hop] <+: σ) : ∀ u ∈ t.tryStmts, u.id ≠ id := by
  obtain ⟨ρ, rfl⟩ := hp
  rw [Stmt.at?_append] at hσ
  obtain ⟨part, hpart, hσ⟩ := Option.bind_eq_some_iff.mp hσ
  rw [Stmt.at?_concat h] at hpart
  intro u hu hid
  have hnd' : ((Stmt.mk id span (.tryCatch b cs f)).tryStmts.map Stmt.id).Nodup := by
    rw [← map_id_tryStmts] at hnd
    exact hnd.sublist ((Stmt.holds_at h).tries.map _)
  rw [Stmt.tryStmts, List.map_cons, List.nodup_cons] at hnd'
  refine hnd'.1 (List.mem_map.mpr ⟨u, ?_, hid⟩)
  exact (sublist_of_part hpart).1.subset ((Stmt.holds_at hσ).tries.subset hu)

end Innermost

end Unwind.Source

namespace Unwind.LabelScopes

theorem mem_of_innermostTry? {sc : LabelScopes} {label : String} {e : Option UInt32}
    (h : sc.innermostTry? label = some e) : (label, e) ∈ sc.labels := by
  unfold innermostTry? at h
  obtain ⟨as, bs, hsplit, -⟩ := List.lookup_eq_some_iff.mp h
  rw [hsplit]
  exact List.mem_append_right _ List.mem_cons_self

theorem innermostTry?_of_mem {sc : LabelScopes} {label : String} {e : Option UInt32}
    (hnd : (sc.labels.map Prod.fst).Nodup) (h : (label, e) ∈ sc.labels) :
    sc.innermostTry? label = some e := by
  have hsome : (sc.innermostTry? label).isSome = true := by
    rw [innermostTry?_isSome]
    exact List.mem_map_of_mem h
  obtain ⟨e', he'⟩ := Option.isSome_iff_exists.mp hsome
  have heq := List.inj_on_of_nodup_map hnd h (mem_of_innermostTry? he') rfl
  rw [he', (Prod.mk.inj heq).2]

end Unwind.LabelScopes
