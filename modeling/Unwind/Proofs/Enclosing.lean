import Mathlib
import Unwind.Proofs.Scopes

/-!
# The `try` statements around a label

`StmtKind.parts` are the statements right inside a statement, of every kind; a position is the
indices that lead to a statement by way of them. A `try` statement is around a position when it is
met on the way there, and the innermost is the last one (`Stmt.InnermostTry`).

Collecting the labels of a body agrees with this on every body: it fails on a label or an id that
stands at two positions, and only then, and what it finds for a label is the innermost `try`
statement around the statement that carries it (`LabelScopes.collect_exact`).
-/

namespace Unwind.Source

/-- The statements right inside a statement, in program order. -/
def StmtKind.parts : StmtKind → List Stmt
  | block stmts => stmts
  | conditional _ thenBranch elseBranch => [thenBranch, elseBranch]
  | whileLoop _ body | doUntil body _ | forEach _ _ body | labeled _ body => [body]
  | forLoop init _ step body => init ++ (step ++ [body])
  | switch _ cases => cases.flatMap (·.body)
  | tryCatch body catches finalizer => body :: (catches.map (·.body) ++ finalizer.toList)
  | empty | assert _ | assume _ | expression _ | breakLoop | continueLoop | localDecl _ _ | ret _
  | goto _ | throw _ | rethrow | push _ => []

/-- The label that a statement carries. -/
def Stmt.label? (s : Stmt) : Option String :=
  match s.kind with
  | .labeled label _ => some label
  | _ => none

/-- The id of a `try` statement. -/
def Stmt.tryId? (s : Stmt) : Option UInt32 :=
  match s.kind with
  | .tryCatch .. => some s.id
  | _ => none

section

variable {motive : Stmt → Prop}

mutual

/-- What holds of a statement as soon as it holds of the statements right inside it holds of all. -/
theorem Stmt.induction_parts (step : ∀ s, (∀ t ∈ s.kind.parts, motive t) → motive s) (s : Stmt) :
    motive s := by
  obtain ⟨id, span, kind⟩ := s
  refine step _ ?_
  cases kind with
  | block ss => exact forall_of_step step ss
  | conditional _ s t =>
    exact List.forall_mem_cons.mpr
      ⟨s.induction_parts step, List.forall_mem_singleton.mpr (t.induction_parts step)⟩
  | whileLoop _ s | doUntil s _ | forEach _ _ s | labeled _ s =>
    exact List.forall_mem_singleton.mpr (s.induction_parts step)
  | forLoop init _ ss s =>
    exact List.forall_mem_append.mpr ⟨forall_of_step step init, List.forall_mem_append.mpr
      ⟨forall_of_step step ss, List.forall_mem_singleton.mpr (s.induction_parts step)⟩⟩
  | switch _ cases => exact forall_of_stepInCases step cases
  | tryCatch body catches finalizer =>
    exact List.forall_mem_cons.mpr ⟨body.induction_parts step, List.forall_mem_append.mpr
      ⟨forall_of_stepInCatches step catches, forall_of_stepInOption step finalizer⟩⟩
  | _ => exact List.forall_mem_nil _

theorem forall_of_step (step : ∀ s, (∀ t ∈ s.kind.parts, motive t) → motive s) (ss : List Stmt) :
    ∀ s ∈ ss, motive s := by
  cases ss with
  | nil => exact List.forall_mem_nil _
  | cons s ss => exact List.forall_mem_cons.mpr ⟨s.induction_parts step, forall_of_step step ss⟩

theorem forall_of_stepInCases (step : ∀ s, (∀ t ∈ s.kind.parts, motive t) → motive s)
    (cases : List SwitchCase) : ∀ s ∈ cases.flatMap (·.body), motive s := by
  cases cases with
  | nil => exact List.forall_mem_nil _
  | cons case cases =>
    obtain ⟨span, value, body⟩ := case
    exact List.forall_mem_append.mpr ⟨forall_of_step step body, forall_of_stepInCases step cases⟩

theorem forall_of_stepInCatches (step : ∀ s, (∀ t ∈ s.kind.parts, motive t) → motive s)
    (clauses : List CatchClause) : ∀ s ∈ clauses.map (·.body), motive s := by
  cases clauses with
  | nil => exact List.forall_mem_nil _
  | cons clause clauses =>
    obtain ⟨span, type, binding, body⟩ := clause
    exact List.forall_mem_cons.mpr
      ⟨body.induction_parts step, forall_of_stepInCatches step clauses⟩

theorem forall_of_stepInOption (step : ∀ s, (∀ t ∈ s.kind.parts, motive t) → motive s)
    (s : Option Stmt) : ∀ t ∈ s.toList, motive t := by
  cases s with
  | none => exact List.forall_mem_nil _
  | some s => exact List.forall_mem_singleton.mpr (s.induction_parts step)

end

end

/-! ## Positions -/

/-- The statement at a position. -/
def Stmt.inside? : Stmt → List Nat → Option Stmt
  | s, [] => some s
  | s, i :: π => s.kind.parts[i]?.bind (·.inside? π)

/-- The statement at the position has the mark: it carries the label, or is the `try` statement of
this id. -/
def Stmt.Has {α : Type} (mark : Stmt → Option α) (s : Stmt) (π : List Nat) (a : α) : Prop :=
  (s.inside? π).bind mark = some a

/-- No mark stands at two positions. -/
def Stmt.Once {α : Type} (mark : Stmt → Option α) (s : Stmt) : Prop :=
  ∀ a π σ, s.Has mark π a → s.Has mark σ a → π = σ

/-- The position is in the body, a catch clause or the finally block of the `try` statement at
`σ`. -/
def Stmt.TryAround (s : Stmt) (π σ : List Nat) (id : UInt32) : Prop :=
  s.Has tryId? σ id ∧ σ <+: π ∧ σ ≠ π

/-- The `try` statement is the innermost around the position; `none` says that there is none. -/
def Stmt.InnermostTry (s : Stmt) (π : List Nat) : Option UInt32 → Prop
  | none => ∀ σ id, ¬ s.TryAround π σ id
  | some id => ∃ σ, s.TryAround π σ id ∧ ∀ τ id', s.TryAround π τ id' → τ <+: σ

section

variable {α : Type} {mark : Stmt → Option α} {s t : Stmt} {π σ : List Nat} {i : Nat} {a : α}

theorem Stmt.has_cons :
    s.Has mark (i :: π) a ↔ ∃ t, s.kind.parts[i]? = some t ∧ t.Has mark π a := by
  unfold Stmt.Has
  rw [Stmt.inside?]
  cases s.kind.parts[i]? with
  | none => simp
  | some t => simp

theorem Stmt.tryAround_nil (id : UInt32) : ¬ s.TryAround [] σ id :=
  fun ⟨_, hpre, hne⟩ => hne (List.prefix_nil.mp hpre)

theorem Stmt.tryAround_cons_nil {id : UInt32} :
    s.TryAround (i :: π) [] id ↔ s.tryId? = some id := by
  constructor
  · exact And.left
  · exact fun h => ⟨h, List.nil_prefix, List.cons_ne_nil _ _ ∘ Eq.symm⟩

theorem Stmt.tryAround_cons_cons (ht : s.kind.parts[i]? = some t) {id : UInt32} {j : Nat} :
    s.TryAround (i :: π) (j :: σ) id ↔ j = i ∧ t.TryAround π σ id := by
  simp only [TryAround, has_cons, List.cons_prefix_cons, ne_eq, List.cons.injEq, not_and]
  constructor
  · rintro ⟨⟨u, hu, hid⟩, ⟨rfl, hpre⟩, hne⟩
    cases ht.symm.trans hu
    exact ⟨rfl, hid, hpre, hne rfl⟩
  · rintro ⟨rfl, hid, hpre, hne⟩
    exact ⟨⟨t, ht, hid⟩, ⟨rfl, hpre⟩, fun _ => hne⟩

/-- The innermost `try` statement around a position of a statement that stands in `enclosing`. -/
def Stmt.EnclosedBy (enclosing : Option UInt32) (s : Stmt) (π : List Nat) (o : Option UInt32) :
    Prop :=
  (∃ id, s.InnermostTry π (some id) ∧ o = some id) ∨ (s.InnermostTry π none ∧ o = enclosing)

theorem Stmt.enclosedBy_none {o : Option UInt32} :
    s.EnclosedBy none π o ↔ s.InnermostTry π o := by
  cases o with
  | none => simp [EnclosedBy]
  | some id => simp [EnclosedBy]

theorem Stmt.enclosedBy_nil {e o : Option UInt32} : s.EnclosedBy e [] o ↔ o = e := by
  constructor
  · rintro (⟨id, ⟨σ, hσ, -⟩, -⟩ | ⟨-, h⟩)
    · exact absurd hσ (tryAround_nil id)
    · exact h
  · exact fun h => .inr ⟨fun σ id => tryAround_nil id, h⟩

theorem Stmt.innermostTry_cons_none (ht : s.kind.parts[i]? = some t) :
    s.InnermostTry (i :: π) none ↔ s.tryId? = none ∧ t.InnermostTry π none := by
  constructor
  · intro h
    refine ⟨Option.eq_none_iff_forall_ne_some.mpr fun id hid => ?_, fun σ id hσ => ?_⟩
    · exact h [] id (tryAround_cons_nil.2 hid)
    · exact h (i :: σ) id ((tryAround_cons_cons ht).mpr ⟨rfl, hσ⟩)
  · rintro ⟨hs, h⟩ σ id hσ
    cases σ with
    | nil => cases hs.symm.trans (tryAround_cons_nil.1 hσ)
    | cons j σ => exact h σ id ((tryAround_cons_cons ht).mp hσ).2

/-- The innermost one is further inside, or it is the statement itself. -/
theorem Stmt.innermostTry_cons_some (ht : s.kind.parts[i]? = some t) {id : UInt32} :
    s.InnermostTry (i :: π) (some id) ↔
      t.InnermostTry π (some id) ∨ t.InnermostTry π none ∧ s.tryId? = some id := by
  constructor
  · rintro ⟨σ, hσ, hlast⟩
    cases σ with
    | nil =>
      refine .inr ⟨fun τ id' hτ => ?_, tryAround_cons_nil.1 hσ⟩
      exact List.cons_ne_nil _ _
        (List.prefix_nil.mp (hlast (i :: τ) id' ((tryAround_cons_cons ht).mpr ⟨rfl, hτ⟩)))
    | cons j σ =>
      obtain ⟨rfl, hσ'⟩ := (tryAround_cons_cons ht).mp hσ
      refine .inl ⟨σ, hσ', fun τ id' hτ => ?_⟩
      exact (List.cons_prefix_cons.mp
        (hlast (j :: τ) id' ((tryAround_cons_cons ht).mpr ⟨rfl, hτ⟩))).2
  · rintro (⟨σ, hσ, hlast⟩ | ⟨hnone, hs⟩)
    · refine ⟨i :: σ, (tryAround_cons_cons ht).mpr ⟨rfl, hσ⟩, fun τ id' hτ => ?_⟩
      cases τ with
      | nil => exact List.nil_prefix
      | cons j τ =>
        obtain ⟨rfl, hτ'⟩ := (tryAround_cons_cons ht).mp hτ
        exact List.cons_prefix_cons.mpr ⟨rfl, hlast τ id' hτ'⟩
    · refine ⟨[], tryAround_cons_nil.2 hs, fun τ id' hτ => ?_⟩
      cases τ with
      | nil => exact List.nil_prefix
      | cons j τ => exact absurd ((tryAround_cons_cons ht).mp hτ).2 (hnone τ id')

theorem Stmt.enclosedBy_cons (ht : s.kind.parts[i]? = some t) {e o : Option UInt32} :
    s.EnclosedBy e (i :: π) o ↔ t.EnclosedBy (s.tryId?.or e) π o := by
  unfold EnclosedBy
  simp only [innermostTry_cons_none ht, innermostTry_cons_some ht]
  cases s.tryId? with
  | none => simp
  | some id =>
    simp only [reduceCtorEq, false_and, or_false, Option.some_or, Option.some.injEq]
    constructor
    · rintro ⟨id', h | ⟨h, rfl⟩, rfl⟩
      · exact .inl ⟨id', h, rfl⟩
      · exact .inr ⟨h, rfl⟩
    · rintro (⟨id', h, rfl⟩ | ⟨h, rfl⟩)
      · exact ⟨id', .inl h, rfl⟩
      · exact ⟨id, .inr ⟨h, rfl⟩, rfl⟩

end

/-! ## What is collected, part by part -/

theorem scopedIn_eq (e : Option UInt32) (ss : List Stmt) :
    scopedIn e ss = ss.flatMap (·.scoped e) := by
  induction ss with
  | nil => rfl
  | cons s ss ih => rw [scopedIn, ih, List.flatMap_cons]

theorem scopedInCases_eq (e : Option UInt32) (cases : List SwitchCase) :
    scopedInCases e cases = (cases.flatMap (·.body)).flatMap (·.scoped e) := by
  induction cases with
  | nil => rfl
  | cons case cases ih =>
    obtain ⟨span, value, body⟩ := case
    rw [scopedInCases, ih, scopedIn_eq, List.flatMap_cons, List.flatMap_append]

theorem scopedInCatches_eq (e : Option UInt32) (clauses : List CatchClause) :
    scopedInCatches e clauses = (clauses.map (·.body)).flatMap (·.scoped e) := by
  induction clauses with
  | nil => rfl
  | cons clause clauses ih =>
    obtain ⟨span, type, binding, body⟩ := clause
    rw [scopedInCatches, ih, List.map_cons, List.flatMap_cons]

theorem scopedInOption_eq (e : Option UInt32) (s : Option Stmt) :
    scopedInOption e s = s.toList.flatMap (·.scoped e) := by
  cases s <;> simp [scopedInOption]

/-- The labels of a statement are its own and those of its parts; a `try` statement encloses its
parts. -/
theorem Stmt.scoped_eq (s : Stmt) (e : Option UInt32) :
    s.scoped e =
      (s.label?.map (·, e)).toList ++ s.kind.parts.flatMap (·.scoped (s.tryId?.or e)) := by
  obtain ⟨id, span, kind⟩ := s
  cases kind <;>
    simp [Stmt.scoped, label?, tryId?, StmtKind.parts, scopedIn_eq, scopedInCases_eq,
      scopedInCatches_eq, scopedInOption_eq]

theorem Stmt.labels_eq (s : Stmt) :
    s.labels = s.label?.toList ++ s.kind.parts.flatMap Stmt.labels := by
  rw [← map_fst_scoped s none, scoped_eq, List.map_append, List.map_flatMap]
  simp only [map_fst_scoped]
  cases s.label? <;> rfl

theorem triesIn_eq (ss : List Stmt) : triesIn ss = ss.flatMap Stmt.tries := by
  induction ss with
  | nil => rfl
  | cons s ss ih => rw [triesIn, ih, List.flatMap_cons]

theorem triesInCases_eq (cases : List SwitchCase) :
    triesInCases cases = (cases.flatMap (·.body)).flatMap Stmt.tries := by
  induction cases with
  | nil => rfl
  | cons case cases ih =>
    obtain ⟨span, value, body⟩ := case
    rw [triesInCases, ih, triesIn_eq, List.flatMap_cons, List.flatMap_append]

theorem triesInCatches_eq (clauses : List CatchClause) :
    triesInCatches clauses = (clauses.map (·.body)).flatMap Stmt.tries := by
  induction clauses with
  | nil => rfl
  | cons clause clauses ih =>
    obtain ⟨span, type, binding, body⟩ := clause
    rw [triesInCatches, ih, List.map_cons, List.flatMap_cons]

theorem triesInOption_eq (s : Option Stmt) : triesInOption s = s.toList.flatMap Stmt.tries := by
  cases s <;> simp [triesInOption]

theorem Stmt.tries_eq (s : Stmt) :
    s.tries = s.tryId?.toList ++ s.kind.parts.flatMap Stmt.tries := by
  obtain ⟨id, span, kind⟩ := s
  cases kind <;>
    simp [Stmt.tries, tryId?, StmtKind.parts, triesIn_eq, triesInCases_eq, triesInCatches_eq,
      triesInOption_eq]

/-! ## Marks and positions -/

/-- The marks are listed statement by statement, the own one of a statement first. -/
def Lists {α : Type} (all : Stmt → List α) (mark : Stmt → Option α) : Prop :=
  ∀ s, all s = (mark s).toList ++ s.kind.parts.flatMap all

section

variable {α : Type} {all : Stmt → List α} {mark : Stmt → Option α}

theorem Lists.mem_iff (h : Lists all mark) (s : Stmt) {a : α} :
    a ∈ all s ↔ ∃ π, s.Has mark π a := by
  induction s using Stmt.induction_parts with
  | step s ih =>
    rw [h s, List.mem_append, Option.mem_toList, List.mem_flatMap]
    constructor
    · rintro (hs | ⟨t, ht, ha⟩)
      · exact ⟨[], hs⟩
      · obtain ⟨π, hπ⟩ := (ih t ht).mp ha
        obtain ⟨i, hi⟩ := List.mem_iff_getElem?.mp ht
        exact ⟨i :: π, Stmt.has_cons.mpr ⟨t, hi, hπ⟩⟩
    · rintro ⟨π, hπ⟩
      cases π with
      | nil => exact .inl hπ
      | cons i π =>
        obtain ⟨t, hi, hπ⟩ := Stmt.has_cons.mp hπ
        have ht := List.mem_of_getElem? hi
        exact .inr ⟨t, ht, (ih t ht).mpr ⟨π, hπ⟩⟩

theorem Lists.mem_flatMap_iff (h : Lists all mark) {ss : List Stmt} {a : α} :
    a ∈ ss.flatMap all ↔
      ∃ (i : Nat) (t : Stmt) (π : List Nat), ss[i]? = some t ∧ t.Has mark π a := by
  rw [List.mem_flatMap]
  constructor
  · rintro ⟨t, ht, ha⟩
    obtain ⟨i, hi⟩ := List.mem_iff_getElem?.mp ht
    obtain ⟨π, hπ⟩ := (h.mem_iff t).mp ha
    exact ⟨i, t, π, hi, hπ⟩
  · rintro ⟨i, t, π, hi, hπ⟩
    exact ⟨t, List.mem_of_getElem? hi, (h.mem_iff t).mpr ⟨π, hπ⟩⟩

variable [DecidableEq α]

/-- Statements side by side list a mark once when it stands at one position in one of them. -/
theorem Lists.count_flatMap_le_one_iff (h : Lists all mark) {a : α} {ss : List Stmt}
    (ih : ∀ s ∈ ss, (all s).count a ≤ 1 ↔ ∀ π σ, s.Has mark π a → s.Has mark σ a → π = σ) :
    (ss.flatMap all).count a ≤ 1 ↔
      ∀ (i j : Nat) (π σ : List Nat) (s t : Stmt), ss[i]? = some s → ss[j]? = some t →
        s.Has mark π a → t.Has mark σ a → i = j ∧ π = σ := by
  induction ss with
  | nil => simp
  | cons s ss ihs =>
    have ihs := ihs fun t ht => ih t (List.mem_cons_of_mem _ ht)
    have hs := ih s (List.mem_cons_self ..)
    -- once in all of them: once in each part, and not in both
    have hsplit : ((s :: ss).flatMap all).count a ≤ 1 ↔
        (all s).count a ≤ 1 ∧ (ss.flatMap all).count a ≤ 1 ∧ (a ∈ all s → a ∉ ss.flatMap all) := by
      rw [List.flatMap_cons, List.count_append, ← List.count_pos_iff, ← List.count_pos_iff]
      omega
    rw [hsplit, hs, ihs, h.mem_iff s, h.mem_flatMap_iff]
    constructor
    · rintro ⟨hown, hthere, happart⟩ (_ | i) (_ | j) π σ t u ht hu hπ hσ
      · cases ht
        cases hu
        exact ⟨rfl, hown π σ hπ hσ⟩
      · cases ht
        exact absurd ⟨j, u, σ, hu, hσ⟩ (happart ⟨π, hπ⟩)
      · cases hu
        exact absurd ⟨i, t, π, ht, hπ⟩ (happart ⟨σ, hσ⟩)
      · obtain ⟨rfl, rfl⟩ := hthere i j π σ t u ht hu hπ hσ
        exact ⟨rfl, rfl⟩
    · intro hall
      refine ⟨fun π σ hπ hσ => (hall 0 0 π σ s s rfl rfl hπ hσ).2, ?_, ?_⟩
      · intro i j π σ t u ht hu hπ hσ
        obtain ⟨hij, rfl⟩ := hall (i + 1) (j + 1) π σ t u ht hu hπ hσ
        exact ⟨Nat.succ.inj hij, rfl⟩
      · rintro ⟨π, hπ⟩ ⟨j, u, σ, hu, hσ⟩
        cases (hall 0 (j + 1) π σ s u rfl hu hπ hσ).1

theorem Lists.count_le_one_iff (h : Lists all mark) (s : Stmt) {a : α} :
    (all s).count a ≤ 1 ↔ ∀ π σ, s.Has mark π a → s.Has mark σ a → π = σ := by
  induction s using Stmt.induction_parts with
  | step s ih =>
    have hparts := h.count_flatMap_le_one_iff ih
    have hsplit : (all s).count a ≤ 1 ↔ (s.kind.parts.flatMap all).count a ≤ 1 ∧
        (mark s = some a → a ∉ s.kind.parts.flatMap all) := by
      rw [h s, List.count_append, ← List.count_pos_iff]
      cases hm : mark s with
      | none => simp
      | some b =>
        rw [Option.toList_some, List.count_singleton]
        by_cases hb : b = a
        · rw [if_pos (by simp [hb]), hb, forall_prop_of_true rfl]
          omega
        · simp [hb]
    rw [hsplit, hparts]
    constructor
    · rintro ⟨hin, hown⟩ (_ | ⟨i, π⟩) (_ | ⟨j, σ⟩) hπ hσ
      · rfl
      · obtain ⟨t, hj, ht⟩ := Stmt.has_cons.mp hσ
        exact absurd (h.mem_flatMap_iff.mpr ⟨j, t, σ, hj, ht⟩) (hown hπ)
      · obtain ⟨t, hi, ht⟩ := Stmt.has_cons.mp hπ
        exact absurd (h.mem_flatMap_iff.mpr ⟨i, t, π, hi, ht⟩) (hown hσ)
      · obtain ⟨t, hi, ht⟩ := Stmt.has_cons.mp hπ
        obtain ⟨u, hj, hu⟩ := Stmt.has_cons.mp hσ
        obtain ⟨rfl, rfl⟩ := hin i j π σ t u hi hj ht hu
        rfl
    · intro hall
      constructor
      · intro i j π σ t u ht hu hπ hσ
        exact List.cons.inj
          (hall (i :: π) (j :: σ) (Stmt.has_cons.mpr ⟨t, ht, hπ⟩) (Stmt.has_cons.mpr ⟨u, hu, hσ⟩))
      · intro hs ha
        obtain ⟨i, t, π, hi, hπ⟩ := h.mem_flatMap_iff.mp ha
        cases hall [] (i :: π) hs (Stmt.has_cons.mpr ⟨t, hi, hπ⟩)

theorem Lists.nodup_iff (h : Lists all mark) (s : Stmt) : (all s).Nodup ↔ s.Once mark := by
  rw [List.nodup_iff_count_le_one]
  exact forall_congr' fun a => h.count_le_one_iff s

end

theorem lists_labels : Lists Stmt.labels Stmt.label? := Stmt.labels_eq

theorem lists_tries : Lists Stmt.tries Stmt.tryId? := Stmt.tries_eq

/-- What is collected for a label is the innermost `try` statement around a place that carries it. -/
theorem Stmt.mem_scoped_iff (s : Stmt) {e o : Option UInt32} {l : String} :
    (l, o) ∈ s.scoped e ↔ ∃ π, s.Has label? π l ∧ s.EnclosedBy e π o := by
  induction s using Stmt.induction_parts generalizing e with
  | step s ih =>
    rw [scoped_eq, List.mem_append, Option.mem_toList, Option.map_eq_some_iff, List.mem_flatMap]
    constructor
    · rintro (⟨l', hl, heq⟩ | ⟨t, ht, hin⟩)
      · cases heq
        exact ⟨[], hl, enclosedBy_nil.mpr rfl⟩
      · obtain ⟨π, hπ, ho⟩ := (ih t ht).mp hin
        obtain ⟨i, hi⟩ := List.mem_iff_getElem?.mp ht
        exact ⟨i :: π, has_cons.mpr ⟨t, hi, hπ⟩, (enclosedBy_cons hi).mpr ho⟩
    · rintro ⟨π, hπ, ho⟩
      cases π with
      | nil => exact .inl ⟨l, hπ, by rw [enclosedBy_nil.mp ho]⟩
      | cons i π =>
        obtain ⟨t, hi, hπ⟩ := has_cons.mp hπ
        have ht := List.mem_of_getElem? hi
        exact .inr ⟨t, ht, (ih t ht).mpr ⟨π, hπ, (enclosedBy_cons hi).mp ho⟩⟩

end Unwind.Source

namespace Unwind.LabelScopes

open Source

/-! ## What a failure names -/

/-- Behind the labels and ids entered before, the fault names one that comes twice. -/
def Names (sc : LabelScopes) (labels : List (String × Option UInt32)) (tries : List UInt32)
    (fault : Fault) : Prop :=
  (∃ l, fault = .duplicateLabel l ∧ 2 ≤ ((sc.labels ++ labels).map Prod.fst).count l) ∨
    ∃ id, fault = .duplicateTry id ∧ 2 ≤ (sc.tries ++ tries).count id

/-- A step that fails names a label or an id that comes twice. -/
def Blames (f : LabelScopes → Except Fault LabelScopes) (labels : List (String × Option UInt32))
    (tries : List UInt32) : Prop :=
  ∀ sc fault, sc.Admits [] [] → f sc = .error fault → sc.Names labels tries fault

theorem Names.append {sc : LabelScopes} {as : List (String × Option UInt32)} {ts : List UInt32}
    {fault : Fault} (h : sc.Names as ts fault) (bs : List (String × Option UInt32))
    (us : List UInt32) : sc.Names (as ++ bs) (ts ++ us) fault := by
  refine h.imp ?_ ?_
  · rintro ⟨l, rfl, hl⟩
    refine ⟨l, rfl, ?_⟩
    rw [← List.append_assoc, List.map_append, List.count_append]
    omega
  · rintro ⟨id, rfl, hid⟩
    refine ⟨id, rfl, ?_⟩
    rw [← List.append_assoc, List.count_append]
    omega

theorem Blames.nil : Blames .ok [] [] := fun _ _ _ h => by cases h

theorem Blames.seq {f g : LabelScopes → Except Fault LabelScopes}
    {as bs : List (String × Option UInt32)} {ts us : List UInt32} (hf : Blames f as ts)
    (henters : Enters f as ts) (hg : Blames g bs us) :
    Blames (fun sc => f sc >>= g) (as ++ bs) (ts ++ us) := by
  intro sc fault hsc h
  change (f sc >>= g) = .error fault at h
  cases hfs : f sc with
  | error fault' =>
    rw [hfs] at h
    cases h
    exact (hf sc _ hsc hfs).append bs us
  | ok sc' =>
    rw [hfs] at h
    obtain ⟨ha, rfl⟩ := (henters sc sc' hsc).mp hfs
    have hnames := hg _ fault (by simpa [Admits, extend] using ha) h
    simpa only [Names, extend, List.append_assoc] using hnames

theorem addLabel_blames (label : String) (enclosing : Option UInt32) :
    Blames (·.addLabel label enclosing) [(label, enclosing)] [] := by
  intro sc fault _ h
  simp only [addLabel] at h
  split at h
  · next hin =>
    cases h
    have hcount := List.count_pos_iff.mpr ((innermostTry?_isSome sc label).mp hin)
    refine .inl ⟨label, rfl, ?_⟩
    rw [List.map_append, List.count_append, List.map_singleton, List.count_singleton_self]
    omega
  · cases h

theorem addTry_blames (id : UInt32) : Blames (·.addTry id) [] [id] := by
  intro sc fault _ h
  simp only [addTry] at h
  split at h
  · next hin =>
    cases h
    have hcount := List.count_pos_iff.mpr hin
    refine .inr ⟨id, rfl, ?_⟩
    rw [List.count_append, List.count_singleton_self]
    omega
  · cases h

mutual

theorem visit_blames (s : Stmt) (enclosing : Option UInt32) :
    Blames (visit enclosing s) (s.scoped enclosing) s.tries := by
  obtain ⟨id, span, kind⟩ := s
  cases kind with
  | block ss => exact visitAll_blames ss enclosing
  | conditional _ s t =>
    exact (visit_blames s enclosing).seq (visit_enters s enclosing) (visit_blames t enclosing)
  | whileLoop _ s | doUntil s _ | forEach _ _ s => exact visit_blames s enclosing
  | forLoop init _ step s =>
    exact (visitAll_blames init enclosing).seq (visitAll_enters init enclosing)
      ((visitAll_blames step enclosing).seq (visitAll_enters step enclosing)
        (visit_blames s enclosing))
  | switch _ cases => exact visitCases_blames cases enclosing
  | labeled label s =>
    exact (addLabel_blames label enclosing).seq (addLabel_enters label enclosing)
      (visit_blames s enclosing)
  | tryCatch body catches finalizer =>
    exact (addTry_blames id).seq (addTry_enters id)
      ((visit_blames body (some id)).seq (visit_enters body (some id))
        ((visitCatches_blames catches (some id)).seq (visitCatches_enters catches (some id))
          (visitOption_blames finalizer (some id))))
  | _ => exact .nil

theorem visitAll_blames (ss : List Stmt) (enclosing : Option UInt32) :
    Blames (visitAll enclosing ss) (scopedIn enclosing ss) (triesIn ss) := by
  cases ss with
  | nil => exact .nil
  | cons s ss =>
    exact (visit_blames s enclosing).seq (visit_enters s enclosing) (visitAll_blames ss enclosing)

theorem visitCases_blames (cases : List SwitchCase) (enclosing : Option UInt32) :
    Blames (visitCases enclosing cases) (scopedInCases enclosing cases) (triesInCases cases) := by
  cases cases with
  | nil => exact .nil
  | cons case cases =>
    obtain ⟨span, value, body⟩ := case
    exact (visitAll_blames body enclosing).seq (visitAll_enters body enclosing)
      (visitCases_blames cases enclosing)

theorem visitCatches_blames (clauses : List CatchClause) (enclosing : Option UInt32) :
    Blames (visitCatches enclosing clauses) (scopedInCatches enclosing clauses)
      (triesInCatches clauses) := by
  cases clauses with
  | nil => exact .nil
  | cons clause clauses =>
    obtain ⟨span, type, binding, body⟩ := clause
    exact (visit_blames body enclosing).seq (visit_enters body enclosing)
      (visitCatches_blames clauses enclosing)

theorem visitOption_blames (s : Option Stmt) (enclosing : Option UInt32) :
    Blames (visitOption enclosing s) (scopedInOption enclosing s) (triesInOption s) := by
  cases s with
  | none => exact .nil
  | some s => exact visit_blames s enclosing

end

/-- Collecting fails on a label that two statements carry, or an id that two `try` statements
have, and names it. -/
theorem collect_eq_error {body : Stmt} {fault : Fault} (h : collect body = .error fault) :
    (∃ l π σ, fault = .duplicateLabel l ∧ π ≠ σ ∧
        body.Has Stmt.label? π l ∧ body.Has Stmt.label? σ l) ∨
      ∃ id π σ, fault = .duplicateTry id ∧ π ≠ σ ∧
        body.Has Stmt.tryId? π id ∧ body.Has Stmt.tryId? σ id := by
  have hnames := visit_blames body none {} fault (by simp [Admits]) h
  rw [Names, List.nil_append, List.nil_append, map_fst_scoped] at hnames
  refine hnames.imp ?_ ?_
  · rintro ⟨l, rfl, hl⟩
    have htwice := mt (lists_labels.count_le_one_iff body (a := l)).mpr (Nat.not_le.mpr hl)
    push Not at htwice
    obtain ⟨π, σ, hπ, hσ, hne⟩ := htwice
    exact ⟨l, π, σ, rfl, hne, hπ, hσ⟩
  · rintro ⟨id, rfl, hid⟩
    have htwice := mt (lists_tries.count_le_one_iff body (a := id)).mpr (Nat.not_le.mpr hid)
    push Not at htwice
    obtain ⟨π, σ, hπ, hσ, hne⟩ := htwice
    exact ⟨id, π, σ, rfl, hne, hπ, hσ⟩

/-! ## Collecting -/

theorem collect_isOk_iff {body : Stmt} :
    (∃ sc, collect body = .ok sc) ↔ body.Once Stmt.label? ∧ body.Once Stmt.tryId? := by
  simp only [collect_eq_ok, lists_labels.nodup_iff, lists_tries.nodup_iff]
  constructor
  · rintro ⟨sc, h, -⟩
    exact h
  · exact fun h => ⟨_, h, rfl⟩

theorem lookup_eq_some_iff {xs : List (String × Option UInt32)} (h : (xs.map Prod.fst).Nodup)
    {l : String} {o : Option UInt32} : xs.lookup l = some o ↔ (l, o) ∈ xs := by
  induction xs with
  | nil => simp
  | cons x xs ih =>
    obtain ⟨l', o'⟩ := x
    obtain ⟨hnew, hrest⟩ := List.nodup_cons.mp h
    rw [List.lookup_cons, List.mem_cons, Prod.mk.injEq]
    cases hl : l == l' with
    | true =>
      cases beq_iff_eq.mp hl
      have hout : (l, o) ∉ xs := fun hin => hnew (List.mem_map.mpr ⟨(l, o), hin, rfl⟩)
      simp [hout, eq_comm]
    | false => simp [beq_eq_false_iff_ne.mp hl, ih hrest]

theorem innermostTry?_eq_some_iff {body : Stmt} {sc : LabelScopes} (h : collect body = .ok sc)
    {l : String} {o : Option UInt32} :
    sc.innermostTry? l = some o ↔ ∃ π, body.Has Stmt.label? π l ∧ body.InnermostTry π o := by
  obtain ⟨⟨hlabels, -⟩, rfl⟩ := collect_eq_ok.mp h
  rw [← map_fst_scoped body none] at hlabels
  rw [innermostTry?, lookup_eq_some_iff hlabels, Stmt.mem_scoped_iff]
  simp only [Stmt.enclosedBy_none]

theorem innermostTry?_isSome_iff {body : Stmt} {sc : LabelScopes} (h : collect body = .ok sc)
    {l : String} : (sc.innermostTry? l).isSome = true ↔ ∃ π, body.Has Stmt.label? π l := by
  obtain ⟨-, rfl⟩ := collect_eq_ok.mp h
  rw [innermostTry?_isSome, map_fst_scoped, lists_labels.mem_iff]

/-- Collecting succeeds when no label and no id of a `try` statement stands at two positions, and
fails naming one that does. What it finds are the labels that stand somewhere, each with the
innermost `try` statement around where it stands. -/
theorem collect_exact (body : Stmt) :
    ((∃ sc, collect body = .ok sc) ↔ body.Once Stmt.label? ∧ body.Once Stmt.tryId?) ∧
      (∀ sc, collect body = .ok sc →
        (∀ l, (sc.innermostTry? l).isSome = true ↔ ∃ π, body.Has Stmt.label? π l) ∧
          ∀ l π, body.Has Stmt.label? π l →
            ∀ o, sc.innermostTry? l = some o ↔ body.InnermostTry π o) ∧
      ∀ fault, collect body = .error fault →
        (∃ l π σ, fault = .duplicateLabel l ∧ π ≠ σ ∧
            body.Has Stmt.label? π l ∧ body.Has Stmt.label? σ l) ∨
          ∃ id π σ, fault = .duplicateTry id ∧ π ≠ σ ∧
            body.Has Stmt.tryId? π id ∧ body.Has Stmt.tryId? σ id := by
  refine ⟨collect_isOk_iff, fun sc hsc => ⟨fun l => innermostTry?_isSome_iff hsc, ?_⟩,
    fun fault => collect_eq_error⟩
  intro l π hπ o
  obtain ⟨honce, -⟩ := collect_isOk_iff.1 ⟨sc, hsc⟩
  rw [innermostTry?_eq_some_iff hsc]
  constructor
  · rintro ⟨σ, hσ, ho⟩
    rwa [honce l π σ hπ hσ]
  · exact fun ho => ⟨π, hπ, ho⟩

/-- A labeled `try` statement; a clause of it holds a loop with labels in its step and its body, and
its finally block has a label. -/
def loopInClause : Stmt :=
  let loop : Stmt := .ofKind (.forLoop [] none [.labeled "step" .empty] (.labeled "body" .empty))
  .labeled "outside" ⟨7, {}, .tryCatch .empty [⟨{}, none, none, loop⟩]
    (some (.labeled "after" .empty))⟩

/-- The labels of the clause and of the finally block are in the `try` statement. -/
theorem loopInClause_collect :
    collect loopInClause =
        .ok ⟨[("outside", none), ("step", some 7), ("body", some 7), ("after", some 7)], [7]⟩ ∧
      loopInClause.Has Stmt.label? [0, 1, 0] "step" ∧
      loopInClause.InnermostTry [0, 1, 0] (some 7) ∧
      loopInClause.Once Stmt.label? := by
  have hcollect : collect loopInClause =
      .ok ⟨[("outside", none), ("step", some 7), ("body", some 7), ("after", some 7)], [7]⟩ := by
    rfl
  have hstep : loopInClause.Has Stmt.label? [0, 1, 0] "step" := rfl
  obtain ⟨hok, hfound, -⟩ := collect_exact loopInClause
  exact ⟨hcollect, hstep, ((hfound _ hcollect).2 _ _ hstep _).mp rfl, (hok.mp ⟨_, hcollect⟩).1⟩

end Unwind.LabelScopes
