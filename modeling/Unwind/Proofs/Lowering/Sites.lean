import Unwind.Proofs.Lowering.Laid

/-!
# The code of a statement inside a body

Every statement of a body that is lowered has its code in one piece, and the code of a statement
inside another is a part of the code of the outer one (`Listing.at`). So what `Listing` says about a
statement holds wherever the statement stands.

One kind of statement is not lowered at all: of several default cases of a switch only the last one
counts. `Stmt.lowers` tells the paths that do not lead into such a case.
-/

namespace Unwind.Source

/-- The hop leads into a default case in front of a later one. -/
def Stmt.drops (s : Stmt) (hop : Hop) : Bool :=
  match s.kind, hop with
  | .switch _ cases, .caseItem i _ =>
    cases[i]?.any (·.value.isNone) && (cases.drop (i + 1)).any (·.value.isNone)
  | _, _ => false

/-- The statement at the path is lowered: no default case around it gives way to a later one. -/
def Stmt.lowers : Stmt → Path → Bool
  | _, [] => true
  | s, hop :: π => !s.drops hop && (s.child? hop).all (·.lowers π)

/-- Where no switch has two default cases, none gives way to a later one. -/
theorem Stmt.drops_of_oneDefault {s : Stmt} (h : s.oneDefault = true) (hop : Hop) :
    s.drops hop = false := by
  obtain ⟨id, span, kind⟩ := s
  unfold drops
  split
  · next cases i k hk =>
    obtain rfl : kind = .switch _ cases := hk
    rw [oneDefault, Bool.and_eq_true, decide_eq_true_eq] at h
    by_contra hd
    rw [Bool.not_eq_false, Bool.and_eq_true, List.any_eq_true] at hd
    obtain ⟨hi, later, hlater, hnone⟩ := hd
    cases hc : cases[i]? with
    | none => simp [hc] at hi
    | some case =>
      rw [hc, Option.any_some] at hi
      obtain ⟨hlt, hcase⟩ := List.getElem?_eq_some_iff.mp hc
      have hsplit := List.take_append_drop i cases
      rw [List.drop_eq_getElem_cons hlt, hcase] at hsplit
      have hcount := h.1
      rw [← hsplit, List.countP_append, List.countP_cons, if_pos hi] at hcount
      have hpos : 0 < (cases.drop (i + 1)).countP (·.value.isNone) :=
        List.countP_pos_iff.mpr ⟨later, hlater, hnone⟩
      omega
  · rfl

theorem Stmt.lowers_of_oneDefault {s t : Stmt} {π : Path} (h : s.oneDefault = true)
    (ht : s.at? π = some t) : s.lowers π = true := by
  induction π generalizing s with
  | nil => rfl
  | cons hop π ih =>
    obtain ⟨u, hu, ht⟩ := Option.bind_eq_some_iff.mp ht
    rw [lowers, drops_of_oneDefault h, hu, Option.all_some, ih (oneDefault_child h hu) ht]
    rfl

end Unwind.Source

namespace Unwind.Lowering

open Source (CatchClause Expr Hop Path Stmt StmtKind SwitchCase)

/-- The statement has its code between these frames, and the code is a part of the lines. -/
def CodeIn (L : Layout) (s : Stmt) (π : Path) (ρ : List Frame) (lines : List Line) : Prop :=
  ∃ c ls c', Listing L (.stmt s) π ρ c ls c' ∧ ls <:+: lines

section

variable {L : Layout} {s : Stmt} {π : Path} {ρ : List Frame} {c c' : Counters} {ls ks : List Line}

theorem CodeIn.mono (h : CodeIn L s π ρ ls) (hls : ls <:+: ks) : CodeIn L s π ρ ks := by
  obtain ⟨c, ms, c', hl, hms⟩ := h
  exact ⟨c, ms, c', hl, hms.trans hls⟩

theorem CodeIn.append_left (h : CodeIn L s π ρ ls) (as : List Line) :
    CodeIn L s π ρ (as ++ ls) := h.mono (List.suffix_append as ls).isInfix

theorem CodeIn.append_right (h : CodeIn L s π ρ ls) (bs : List Line) :
    CodeIn L s π ρ (ls ++ bs) := h.mono (List.prefix_append ls bs).isInfix

theorem CodeIn.choice_left {σ : Path} {ρ' : List Frame} {v : Ir.Expr} {as bs : List Line}
    (h : CodeIn L s π ρ as) : CodeIn L s π ρ (choice σ ρ' v as bs) :=
  (h.append_right _).append_left _

theorem CodeIn.choice_right {σ : Path} {ρ' : List Frame} {v : Ir.Expr} {as bs : List Line}
    (h : CodeIn L s π ρ bs) : CodeIn L s π ρ (choice σ ρ' v as bs) :=
  ((h.append_left _).append_left _).append_left _

theorem CodeIn.finally {σ : Path} {ρ' : List Frame} {n : Nat} (h : CodeIn L s π ρ ls) :
    CodeIn L s π ρ (finallyLines σ ρ' n ls) := (h.append_right _).append_left _

/-! ## Lists of statements, cases and clauses -/

theorem Listing.stmts_get {hop : Nat → Hop} {ss : List Stmt} {i j : Nat}
    (h : Listing L (.stmts hop i ss) π ρ c ls c') (hs : ss[j]? = some s) :
    CodeIn L s (π ++ [hop (i + j)]) ρ ls := by
  induction ss generalizing i j c ls with
  | nil => cases hs
  | cons t ss ih =>
    obtain ⟨_, _, _, ht, hss, rfl⟩ := h.inv
    cases j with
    | zero =>
      cases hs
      exact CodeIn.append_right ⟨_, _, _, ht, List.infix_rfl⟩ _
    | succ j =>
      rw [Nat.add_comm j, ← Nat.add_assoc]
      exact (ih hss hs).append_left _

/-- The code of a default case behind which there is no other one. -/
theorem Listing.default_get {cases : List SwitchCase} {i j k : Nat} {case : SwitchCase}
    (h : Listing L (.default i cases) π ρ c ls c') (hc : cases[j]? = some case)
    (hv : case.value.isNone = true) (hlast : (cases.drop (j + 1)).any (·.value.isNone) = false)
    (hs : case.body[k]? = some s) : CodeIn L s (π ++ [.caseItem (i + j) k]) ρ ls := by
  induction cases generalizing i j c ls with
  | nil => cases hc
  | cons case' cases ih =>
    cases j with
    | zero =>
      cases hc
      rw [List.drop_one, List.tail_cons] at hlast
      rcases h.inv with ⟨hlater, -⟩ | ⟨-, -, hl⟩
      · rw [hlast, Bool.or_false, Option.isSome_iff_ne_none] at hlater
        exact absurd (Option.isNone_iff_eq_none.mp hv) hlater
      · have hcode := hl.stmts_get hs
        rwa [Nat.zero_add] at hcode
    | succ j =>
      have hany : cases.any (·.value.isNone) = true :=
        List.any_eq_true.mpr ⟨case, List.mem_of_getElem? hc, hv⟩
      rcases h.inv with ⟨-, hl⟩ | ⟨-, hnone, -⟩
      · rw [Nat.add_comm j, ← Nat.add_assoc]
        exact ih hl hc hlast
      · rw [hnone] at hany
        cases hany

/-- The tests of a switch end with the code of the default case. -/
theorem Listing.cases_default {cases : List SwitchCase} {v : Ir.Expr} {ds vs : List Line} {i : Nat}
    (h : Listing L (.cases v ds vs i cases) π ρ c ls c') : ds <:+: ls := by
  induction cases generalizing i c c' vs ls with
  | nil =>
    obtain ⟨-, rfl, -⟩ := h.inv
    exact List.infix_rfl
  | cons case cases ih =>
    obtain ⟨span, value, body⟩ := case
    cases value with
    | none => exact ih h.inv
    | some e =>
      obtain ⟨_, _, _, _, _, _, hl, -, -, -, rfl⟩ := h.inv
      refine (ih hl).trans ?_
      rw [choice, ← List.append_assoc, ← List.append_assoc]
      exact (List.suffix_append _ _).isInfix

theorem Listing.cases_get {cases : List SwitchCase} {v : Ir.Expr} {ds vs : List Line} {i j k : Nat}
    {case : SwitchCase} (h : Listing L (.cases v ds vs i cases) π ρ c ls c')
    (hc : cases[j]? = some case) (hv : case.value.isSome = true) (hs : case.body[k]? = some s) :
    CodeIn L s (π ++ [.caseItem (i + j) k]) ρ ls := by
  induction cases generalizing i j c c' vs ls with
  | nil => cases hc
  | cons case' cases ih =>
    obtain ⟨span, value, body⟩ := case'
    cases value with
    | none =>
      cases j with
      | zero =>
        cases hc
        cases hv
      | succ j =>
        rw [Nat.add_comm j, ← Nat.add_assoc]
        exact ih h.inv hc
    | some e =>
      obtain ⟨_, _, _, _, _, _, hl, -, hb, -, rfl⟩ := h.inv
      cases j with
      | zero =>
        cases hc
        have hcode := hb.stmts_get hs
        rw [Nat.zero_add] at hcode
        exact hcode.choice_left
      | succ j =>
        rw [Nat.add_comm j, ← Nat.add_assoc]
        exact (ih hl hc).choice_right

/-- The tests of the catch clauses before are inside those of the clauses behind. -/
theorem Listing.catches_before {clauses : List CatchClause} {region i : Nat} {before : List Line}
    (h : Listing L (.catches region before i clauses) π ρ c ls c') : before <:+: ls := by
  induction clauses generalizing i c before with
  | nil =>
    obtain ⟨rfl, -⟩ := h.inv
    exact List.infix_rfl
  | cons clause clauses ih =>
    obtain ⟨_, _, _, -, -, hl⟩ := h.inv
    refine List.IsInfix.trans ?_ (ih hl)
    rw [choice, ← List.append_assoc, ← List.append_assoc]
    exact (List.suffix_append _ _).isInfix

theorem Listing.catches_get {clauses : List CatchClause} {region i j : Nat} {before : List Line}
    {clause : CatchClause} (h : Listing L (.catches region before i clauses) π ρ c ls c')
    (hc : clauses[j]? = some clause) : CodeIn L clause.body (π ++ [.catchBody (i + j)]) ρ ls := by
  induction clauses generalizing i j c before with
  | nil => cases hc
  | cons clause' clauses ih =>
    obtain ⟨_, _, _, -, hb, hl⟩ := h.inv
    cases j with
    | zero =>
      cases hc
      refine CodeIn.mono (CodeIn.choice_left ?_) hl.catches_before
      exact (CodeIn.append_right ⟨_, _, _, hb, List.infix_rfl⟩ _).append_left _
    | succ j =>
      rw [Nat.add_comm j, ← Nat.add_assoc]
      exact ih hl hc

/-! ## Statements inside a statement -/

/-- The code of a `try` statement holds the code of its parts. -/
theorem Listing.part {id : UInt32} {span : Span} {b t : Stmt} {cs : List CatchClause}
    {f : Option Stmt} {hop : Hop} {phase : Phase}
    (h : Listing L (.stmt ⟨id, span, .tryCatch b cs f⟩) π ρ c ls c')
    (hc : (Stmt.mk id span (.tryCatch b cs f)).child? hop = some t)
    (hp : phaseOf? hop = some phase) :
    ∃ region, CodeIn L t (π ++ [hop]) (⟨region, id, phase, π⟩ :: ρ) ls := by
  obtain ⟨hk, -⟩ | ⟨_, _, ms, bs, as, fs, -, -, hb, ha, hf, rfl⟩ := h.inv
  · cases hk
  refine ⟨c.regions, CodeIn.append_left ?_ _⟩
  rw [regionLines]
  cases hop with
  | tryBody =>
    cases hc
    cases hp
    exact CodeIn.append_right ⟨_, _, _, hb, List.infix_rfl⟩ _
  | catchBody i =>
    cases hp
    obtain ⟨clause, hclause, rfl⟩ := Option.map_eq_some_iff.mp hc
    have hcode := ha.catches_get hclause
    rw [Nat.zero_add] at hcode
    exact (((hcode.append_right _).append_left _).append_left _).append_left _
  | finalizer =>
    cases hp
    obtain rfl : f = some t := hc
    obtain ⟨_, _, -, hl, rfl⟩ := hf.inv
    refine CodeIn.append_left (CodeIn.append_left (CodeIn.append_left ?_ _) _) _
    refine CodeIn.append_left (CodeIn.append_left (CodeIn.append_left ?_ _) _) _
    exact CodeIn.append_right (CodeIn.finally ⟨_, _, _, hl, List.infix_rfl⟩) _
  | _ => cases hp

/-- The code of a statement holds the code of the statements right inside it. -/
theorem Listing.child {body t : Stmt} {hop : Hop} (h : Listing L (.stmt s) π ρ c ls c')
    (hat : Stands body π ρ s) (hc : s.child? hop = some t) (hd : s.drops hop = false) :
    ∃ ρ', Stands body (π ++ [hop]) ρ' t ∧ CodeIn L t (π ++ [hop]) ρ' ls := by
  obtain ⟨id, span, kind⟩ := s
  cases kind with
  | block ss =>
    obtain ⟨hk, -⟩ | hl := h.inv
    · cases hk
    cases hop with
    | item i =>
      have hcode := hl.stmts_get hc
      rw [Nat.zero_add] at hcode
      exact ⟨ρ, hat.child hc rfl, hcode⟩
    | _ => cases hc
  | conditional cond s₁ s₂ =>
    obtain ⟨hk, -⟩ | ⟨_, _, _, _, _, _, _, -, -, ha, -, hb, rfl⟩ := h.inv
    · cases hk
    cases hop with
    | thenBranch =>
      cases hc
      refine ⟨ρ, hat.child rfl rfl, CodeIn.append_left (CodeIn.choice_left ?_) _⟩
      exact CodeIn.append_left ⟨_, _, _, ha, List.infix_rfl⟩ _
    | elseBranch =>
      cases hc
      refine ⟨ρ, hat.child rfl rfl, CodeIn.append_left (CodeIn.choice_right ?_) _⟩
      exact CodeIn.append_left ⟨_, _, _, hb, List.infix_rfl⟩ _
    | _ => cases hc
  | switch scrutinee cases =>
    obtain ⟨hk, -⟩ | ⟨_, _, _, _, _, _, -, hdef, hcases, rfl⟩ := h.inv
    · cases hk
    cases hop with
    | caseItem i k =>
      refine ⟨ρ, hat.child hc rfl, CodeIn.append_left (CodeIn.append_left ?_ _) _⟩
      obtain ⟨case, hcase, hk⟩ := Option.bind_eq_some_iff.mp hc
      rw [← Nat.zero_add i]
      cases hv : case.value with
      | some e => exact hcases.cases_get hcase (by rw [hv]; rfl) hk
      | none =>
        have hnone : case.value.isNone = true := by rw [hv]; rfl
        simp only [Stmt.drops, hcase, Option.any_some, hnone, Bool.true_and] at hd
        exact (hdef.default_get hcase hnone hd hk).mono hcases.cases_default
    | _ => cases hc
  | labeled label s₁ =>
    obtain ⟨hk, -⟩ | ⟨_, _, -, hl, rfl⟩ := h.inv
    · cases hk
    cases hop with
    | labelBody =>
      cases hc
      refine ⟨ρ, hat.child rfl rfl, CodeIn.append_left (CodeIn.append_left ?_ _) _⟩
      exact ⟨_, _, _, hl, List.infix_rfl⟩
    | _ => cases hc
  | tryCatch b cs f =>
    have hphase : ∃ phase, phaseOf? hop = some phase := by
      cases hop <;> first | exact ⟨_, rfl⟩ | cases hc
    obtain ⟨phase, hp⟩ := hphase
    obtain ⟨region, hcode⟩ := h.part hc hp
    exact ⟨_, hat.part region hc hp, hcode⟩
  | _ => cases hc

/-- The code of a statement holds the code of every statement in it that is lowered. -/
theorem Listing.at {body t : Stmt} {σ : Path} (h : Listing L (.stmt s) π ρ c ls c')
    (hat : Stands body π ρ s) (ht : s.at? σ = some t) (hlow : s.lowers σ = true) :
    ∃ ρ', Stands body (π ++ σ) ρ' t ∧ CodeIn L t (π ++ σ) ρ' ls := by
  induction σ generalizing s π ρ c ls c' with
  | nil =>
    cases ht
    rw [List.append_nil]
    exact ⟨ρ, hat, c, ls, c', h, List.infix_rfl⟩
  | cons hop σ ih =>
    obtain ⟨u, hu, ht⟩ := Option.bind_eq_some_iff.mp ht
    rw [Stmt.lowers, hu, Option.all_some, Bool.and_eq_true, Bool.not_eq_true'] at hlow
    obtain ⟨ρ₁, hat₁, c₁, ks, c₁', hl, hks⟩ := h.child hat hu hlow.1
    obtain ⟨ρ', hat', hcode⟩ := ih hl hat₁ ht hlow.2
    rw [List.append_assoc, List.singleton_append] at hat' hcode
    exact ⟨ρ', hat', hcode.mono hks⟩

/-- The code of a body holds the code of every statement in it that is lowered. -/
theorem BodyListing.at {body t : Stmt} {lines : List Line} (h : BodyListing L body lines)
    (ht : body.at? π = some t) (hlow : body.lowers π = true) :
    ∃ ρ, Framed body π ρ ∧ CodeIn L t π ρ lines := by
  obtain ⟨-, hl⟩ := h
  have hat : Stands body [] [] body := ⟨rfl, .nil⟩
  obtain ⟨ρ, hat', hcode⟩ := hl.at hat ht hlow
  exact ⟨ρ, hat'.2, hcode.append_left _⟩

end

end Unwind.Lowering
