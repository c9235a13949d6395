import Mathlib.Data.List.Nodup
import Unwind.Proofs.Lowering.Labels

/-!
# How often labels stand in lowered code

The labels of the code of a statement are labels of the statement, none more often than there, and
generated labels, each once. Code can lack labels of the statement: of several default cases of one
switch, only the last becomes code.
-/

namespace Unwind.Source

/-! ## The cases of a switch that become code -/

/-- The cases that become code hold no label more often than all cases. -/
theorem count_labelsInCases_ge (cases : List SwitchCase) (l : String) :
    (labelsInDefault cases).count l + (labelsInValued cases).count l ≤
      (labelsInCases cases).count l := by
  induction cases with
  | nil => exact Nat.le_refl _
  | cons case cases ih =>
    obtain ⟨span, value, body⟩ := case
    rw [labelsInCases, List.count_append]
    cases value with
    | some e =>
      rw [labelsInDefault, labelsInValued, if_pos (by simp), List.count_append]
      omega
    | none =>
      rw [labelsInDefault, labelsInValued]
      cases hany : cases.any (·.value.isNone) with
      | true =>
        rw [if_pos (by simp)]
        omega
      | false =>
        rw [labelsInDefault_eq_nil hany, List.count_nil] at ih
        rw [if_neg (by simp)]
        simp only
        omega

/-- The `try` statements of the last default case. -/
def triesInDefault : List SwitchCase → List UInt32
  | [] => []
  | case :: cases =>
    if case.value.isSome || cases.any (·.value.isNone) then triesInDefault cases
    else triesIn case.body

/-- The `try` statements of the cases with a value, from the last case to the first. -/
def triesInValued : List SwitchCase → List UInt32
  | [] => []
  | ⟨_, none, _⟩ :: cases => triesInValued cases
  | ⟨_, some _, body⟩ :: cases => triesInValued cases ++ triesIn body

theorem triesInDefault_eq_nil {cases : List SwitchCase} (h : cases.any (·.value.isNone) = false) :
    triesInDefault cases = [] := by
  induction cases with
  | nil => rfl
  | cons case cases ih =>
    rw [List.any_cons, Bool.or_eq_false_iff, ← Option.not_isSome, Bool.not_eq_false'] at h
    rw [triesInDefault, h.1, ih h.2, Bool.true_or, if_pos rfl]

theorem count_triesInCases_ge (cases : List SwitchCase) (node : UInt32) :
    (triesInDefault cases ++ triesInValued cases).count node ≤ (triesInCases cases).count node := by
  induction cases with
  | nil => exact Nat.le_refl _
  | cons case cases ih =>
    obtain ⟨span, value, body⟩ := case
    rw [List.count_append] at ih ⊢
    rw [triesInCases, List.count_append]
    cases value with
    | some e =>
      rw [triesInDefault, triesInValued, if_pos (by simp), List.count_append]
      omega
    | none =>
      rw [triesInDefault, triesInValued]
      cases hany : cases.any (·.value.isNone) with
      | true =>
        rw [if_pos (by simp)]
        omega
      | false =>
        rw [triesInDefault_eq_nil hany, List.count_nil] at ih
        rw [if_neg (by simp)]
        simp only
        omega

end Unwind.Source

namespace Unwind.Lowering

open Machine (Instr isGenerated)
open Source (Path Stmt)

variable {L : Layout} {π : Path} {ρ : List Frame} {c c₁ c' : Counters} {ls : List Line}

/-- Labels by their origin: those of the source program are among some names, the generated ones
were given out between two counters. -/
structure Tagged (ts : List Tag) (names : List String) (c c' : Counters) : Prop where
  source : ∀ l, ts.count (.source l) ≤ names.count l
  given : ∀ t : Tag, t.isSource = false → ts.count t + (c.has t).toNat = (c'.has t).toNat

theorem Tagged.nil (names : List String) (c : Counters) : Tagged [] names c c :=
  ⟨fun _ => Nat.zero_le _, fun t _ => by rw [List.count_nil, Nat.zero_add]⟩

theorem Tagged.append {ts us : List Tag} {ks ks' : List String} (h : Tagged ts ks c c₁)
    (h' : Tagged us ks' c₁ c') : Tagged (ts ++ us) (ks ++ ks') c c' := by
  constructor
  · intro l
    have := h.source l
    have := h'.source l
    rw [List.count_append, List.count_append]
    omega
  · intro t ht
    have := h.given t ht
    have := h'.given t ht
    rw [List.count_append]
    omega

theorem Tagged.weaken {ts : List Tag} {ks ks' : List String} (h : Tagged ts ks c c')
    (hk : ∀ l, ks.count l ≤ ks'.count l) : Tagged ts ks' c c' :=
  ⟨fun l => Nat.le_trans (h.source l) (hk l), h.given⟩

namespace Piece

/-- The labels in a piece. -/
def labels : Piece → List String
  | stmt s => s.labels
  | stmts _ _ ss => Source.labelsIn ss
  | default _ cs => Source.labelsInDefault cs
  | cases _ _ _ _ cs => Source.labelsInValued cs
  | catches _ _ _ clauses => Source.labelsInCatches clauses
  | finalizer s => Source.labelsInOption s

/-- The code around which tests are laid. -/
def inner : Piece → List Line
  | cases _ ds _ _ _ => ds
  | catches _ before _ _ => before
  | _ => []

end Piece

/-- The values of the cases of a switch are computed without labels. -/
theorem Listing.labelsOf_values {v : Ir.Expr} {ds vs : List Line} {i : Nat}
    {cases : List Source.SwitchCase} (h : Listing L (.cases v ds vs i cases) π ρ c ls c') :
    labelsOf vs = [] := by
  induction cases generalizing vs i ls c' with
  | nil =>
    obtain ⟨rfl, -, -⟩ := h.inv
    rfl
  | cons case cases ih =>
    obtain ⟨span, value, body⟩ := case
    cases value with
    | none => exact ih h.inv
    | some e =>
      obtain ⟨_, _, _, _, _, _, hl, hw, -, rfl, -⟩ := h.inv
      rw [labelsOf_append, ih hl, hw.1.labelsOf, List.append_nil]

/-- The labels of lowered code. -/
theorem Listing.tagged {p : Piece} (h : Listing L p π ρ c ls c') :
    ∃ ts, (∀ l, (labelsOf ls).count l = (labelsOf p.inner).count l + (ts.map Tag.name).count l) ∧
      Tagged ts p.labels c c' := by
  induction h with
  | plain hk hl =>
    refine ⟨[], fun l => ?_, .nil _ _⟩
    rw [hl.1.labelsOf]
    rfl
  | block _ ih => exact ih
  | conditional hh hm _ hn _ iha ihb =>
    obtain ⟨ts, ha, hta⟩ := iha
    obtain ⟨us, hb, hub⟩ := ihb
    refine ⟨ts ++ us, fun l => ?_, hta.append hub⟩
    simp only [Piece.inner, labelsOf_nil, List.count_nil] at ha hb
    simp only [Piece.inner, labelsOf_append, labelsOf_choice, hh.1.labelsOf, hm.1.labelsOf,
      hn.1.labelsOf, List.map_append, List.count_append, List.nil_append, labelsOf_nil,
      List.count_nil, ha, hb]
    omega
  | switch hh _ hc ihd ihc =>
    obtain ⟨us, hd, htd⟩ := ihd
    obtain ⟨ts, hl, htl⟩ := ihc
    refine ⟨us ++ ts, fun l => ?_, (htd.append htl).weaken fun l => ?_⟩
    · simp only [Piece.inner, labelsOf_nil, List.count_nil] at hd hl
      simp only [Piece.inner, labelsOf_append, hh.1.labelsOf, hc.labelsOf_values, List.map_append,
        List.count_append, List.nil_append, labelsOf_nil, List.count_nil, hl, hd]
      omega
    · rw [List.count_append]
      exact Source.count_labelsInCases_ge _ l
  | goto hm hs =>
    -- one label for each region that is left: there the jump is resumed
    refine ⟨resumes _ _, fun l => ?_, ?_, fun t _ => count_resumes _ _ t⟩
    · rw [labelsOf_append, labelsOf_append, hm.1.labelsOf, labelsOf_escapeLines, labelsOf_own]
      simp [Piece.inner, Instr.label?]
    · intro l
      rw [counts_resumes]
      exact Nat.zero_le _
  | @labeled id span label s π ρ c c' ms ls hm _ ih =>
    obtain ⟨ts, hl, ht⟩ := ih
    have hmark : Tagged [.source label] [label] c c := by
      refine ⟨fun l => ?_, fun t hs => ?_⟩
      · simp [List.count_cons]
      · rw [List.count_cons_of_ne, List.count_nil, Nat.zero_add]
        rintro rfl
        cases hs
    refine ⟨[Tag.source label] ++ ts, fun l => ?_, hmark.append ht⟩
    simp only [Piece.inner, labelsOf_nil, List.count_nil] at hl
    rw [labelsOf_append, labelsOf_append, hm.1.labelsOf, labelsOf_own, List.nil_append,
      List.count_append, hl l]
    simp only [Piece.inner, Machine.labels_cons, Instr.label?, Option.toList, Machine.labels_nil,
      List.append_nil, labelsOf_nil, List.map_append, List.map_cons, List.map_nil, Tag.name,
      List.count_append, List.count_nil]
    omega
  | @tryCatch id span body catches finalizer π ρ c c₁ c₂ c₃ ms bs as fs hm _ _ _ _ ihb iha ihf =>
    obtain ⟨ts, hb, htb⟩ := ihb
    obtain ⟨us, ha, hua⟩ := iha
    obtain ⟨vs, hf, hvf⟩ := ihf
    -- a region has three labels of its own
    have hnew : Tagged [.catches c.regions, .finalizer c.regions, .behind c.regions] [] c
        { c with regions := c.regions + 1 } :=
      ⟨fun l => by simp, fun t _ => (c.has_enter t).symm⟩
    refine ⟨_, fun l => ?_, hnew.append (htb.append (hua.append hvf))⟩
    simp only [Piece.inner, labelsOf_nil, List.count_nil] at hb ha hf
    simp only [Piece.inner, regionLines, takeLines, labelsOf_append, hm.1.labelsOf, labelsOf_own,
      labelsOf_raise, labelsOf_leaveLines, labelsOf_raiseLines, labelsOf_resumeLines,
      labelsOf_checkLines, List.map_append, List.map_cons, List.map_nil, List.count_append,
      labelsOf_nil, hb, ha, hf]
    simp only [Machine.labels_cons, Instr.label?, Instr.set, Option.toList, Machine.labels_nil,
      List.count_cons, List.count_nil, List.append_nil]
    omega
  | throw hh | rethrow _ hh =>
    refine ⟨[], fun l => ?_, .nil _ _⟩
    rw [labelsOf_append, hh.1.labelsOf, labelsOf_raiseLines]
    rfl
  | stmtsNil => exact ⟨[], fun _ => rfl, .nil _ _⟩
  | stmtsCons _ _ iha ihb =>
    obtain ⟨ts, ha, hta⟩ := iha
    obtain ⟨us, hb, hub⟩ := ihb
    refine ⟨ts ++ us, fun l => ?_, hta.append hub⟩
    simp only [Piece.inner, labelsOf_nil, List.count_nil] at ha hb
    simp only [Piece.inner, labelsOf_append, List.map_append, List.count_append, labelsOf_nil,
      List.count_nil, ha, hb]
    omega
  | defaultNil => exact ⟨[], fun _ => rfl, .nil _ _⟩
  | defaultLater hv _ ih =>
    obtain ⟨ts, hl, ht⟩ := ih
    refine ⟨ts, hl, ?_⟩
    rw [Piece.labels, Source.labelsInDefault, if_pos hv]
    exact ht
  | defaultHere hv _ ih =>
    obtain ⟨ts, hl, ht⟩ := ih
    refine ⟨ts, hl, ?_⟩
    rw [Piece.labels, Source.labelsInDefault, if_neg (by simp [hv])]
    exact ht
  | casesNil => exact ⟨[], fun _ => rfl, .nil _ _⟩
  | casesDefault _ ih => exact ih
  | casesCons _ hw _ ihc ihb =>
    obtain ⟨ts, hl, ht⟩ := ihc
    obtain ⟨us, hb, hub⟩ := ihb
    refine ⟨ts ++ us, fun l => ?_, ht.append hub⟩
    simp only [Piece.inner, labelsOf_nil, List.count_nil] at hl hb
    simp only [Piece.inner, labelsOf_choice, List.map_append, List.count_append, hl, hb]
    omega
  | catchesNil => exact ⟨[], fun _ => rfl, .nil _ _⟩
  | catchesCons hm _ _ ihb ihc =>
    obtain ⟨ts, hb, htb⟩ := ihb
    obtain ⟨us, hl, hul⟩ := ihc
    refine ⟨ts ++ us, fun l => ?_, ?_⟩
    · simp only [Piece.inner, labelsOf_nil, List.count_nil, labelsOf_choice, labelsOf_append,
        hm.1.labelsOf, labelsOf_leaveLines, List.count_append] at hb hl
      simp only [Piece.inner, List.map_append, List.count_append, hl, hb]
      omega
    · rw [Piece.labels, Source.labelsInCatches_cons]
      exact htb.append hul
  | finalizerNone => exact ⟨[], fun _ => rfl, .nil _ _⟩
  | @finalizerSome s π ρ c c' n ls _ _ ih =>
    obtain ⟨ts, hl, ht⟩ := ih
    refine ⟨ts, fun l => ?_, ht.source, fun t hs => ?_⟩
    · have hg : Guard π ρ n (some s) (n + 2) ls (finallyLines π ρ n ls) := .some (Nat.le_refl _)
      rw [hg.labelsOf]
      exact hl l
    · have h := ht.given t hs
      rwa [Counters.has_temps] at h

/-- No label stands in two places of the code of a statement. -/
theorem Listing.nodup_labels {s : Stmt} (h : Listing L (.stmt s) π ρ c ls c')
    (hnd : s.labels.Nodup) (hn : ∀ l ∈ s.labels, isGenerated l = false) :
    (labelsOf ls).Nodup := by
  obtain ⟨ts, hcount, ht⟩ := h.tagged
  have hproper : ∀ t ∈ ts, t.Proper := by
    intro t hmem
    cases t with
    | source l =>
      refine hn l (List.count_pos_iff.mp ?_)
      exact Nat.lt_of_lt_of_le (List.count_pos_iff.mpr hmem) (ht.source l)
    | _ => trivial
  have hts : ts.Nodup := by
    rw [List.nodup_iff_count_le_one]
    intro t
    cases hs : t.isSource with
    | true =>
      cases t with
      | source l => exact Nat.le_trans (ht.source l) (List.nodup_iff_count_le_one.mp hnd l)
      | _ => cases hs
    | false =>
      have := ht.given t hs
      have := Bool.toNat_le (c'.has t)
      omega
  have hmap : (ts.map Tag.name).Nodup :=
    hts.map_on fun t h₁ t' h₂ => Tag.name_inj (hproper t h₁) (hproper t' h₂)
  rw [List.nodup_iff_count_le_one] at hmap ⊢
  intro l
  rw [hcount l]
  simpa [Piece.inner] using hmap l

/-- A label of the code that is not generated is a label of the piece, or stands in the code around
which the piece is laid. -/
theorem Listing.mem_labels {p : Piece} (h : Listing L p π ρ c ls c') {l : String}
    (hl : l ∈ labelsOf ls) : isGenerated l = true ∨ l ∈ labelsOf p.inner ∨ l ∈ p.labels := by
  obtain ⟨ts, hcount, ht⟩ := h.tagged
  have hpos := List.count_pos_iff.mpr hl
  rw [hcount l] at hpos
  by_cases hin : l ∈ labelsOf p.inner
  · exact .inr (.inl hin)
  rw [List.count_eq_zero_of_not_mem hin, Nat.zero_add, List.count_pos_iff] at hpos
  obtain ⟨t, hmem, rfl⟩ := List.mem_map.mp hpos
  cases t with
  | source l =>
    refine .inr (.inr (List.count_pos_iff.mp ?_))
    exact Nat.lt_of_lt_of_le (List.count_pos_iff.mpr hmem) (ht.source l)
  | _ => exact .inl (Tag.isGenerated_name trivial)

end Unwind.Lowering
