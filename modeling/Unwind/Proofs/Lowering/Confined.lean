import Unwind.Proofs.FinallyJumps
import Unwind.Proofs.Lowering.Pending

/-!
# Control in a finally block

The code of a finally block is left at its end, or because an exception is raised in it; then
control goes behind the region (`Laid.confined`). It cannot be left by a jump: with regular jumps, a
label to which a finally block jumps stands in the block itself (`Jumps.label_in_finally`). And
nothing in it belongs to the `try` statement itself (`Listing.owner_prefix`).
-/

namespace Unwind.Source

theorem mem_labelsInCatches {l : String} {cs : List CatchClause} (h : l ∈ labelsInCatches cs) :
    ∃ (i : Nat) (clause : CatchClause), cs[i]? = some clause ∧ l ∈ clause.body.labels := by
  induction cs with
  | nil => cases h
  | cons clause cs ih =>
    rw [labelsInCatches_cons] at h
    rcases List.mem_append.mp h with h | h
    · exact ⟨0, clause, rfl, h⟩
    · obtain ⟨i, clause', hc, hl⟩ := ih h
      exact ⟨i + 1, clause', hc, hl⟩

/-- A label in a `try` statement stands in one of its parts. -/
theorem Stmt.exists_part_of_mem_labels {l : String} {id : UInt32} {span : Span} {b : Stmt}
    {cs : List CatchClause} {fin : Option Stmt}
    (h : l ∈ (Stmt.mk id span (.tryCatch b cs fin)).labels) :
    ∃ hop t, (Stmt.mk id span (.tryCatch b cs fin)).child? hop = some t ∧ hop.isPart = true ∧
      l ∈ t.labels := by
  rw [Stmt.labels, List.mem_append, List.mem_append] at h
  rcases h with h | h | h
  · exact ⟨.tryBody, b, rfl, rfl, h⟩
  · obtain ⟨i, clause, hc, hl⟩ := mem_labelsInCatches h
    refine ⟨.catchBody i, clause.body, ?_, rfl, hl⟩
    simp only [Stmt.child?, hc, Option.map_some]
  · cases fin with
    | none => cases h
    | some s => exact ⟨.finalizer, s, rfl, rfl, h⟩

end Unwind.Source

namespace Unwind.Lowering

open Source (CatchClause Path Stmt)
open Machine (Along Config Data Instr Reaches World eval isGenerated labels step)

variable {L : Layout} {body : Stmt} {π : Path} {ρ : List Frame} {c c' : Counters}
  {bs fs lines : List Line} {ts : List Tag} {f : Frame}

/-- Control is in the code `fs`, in front of `bs`. -/
def InCode (fs bs : List Line) (c : Config) : Prop :=
  ∃ ℓ ks, ℓ :: ks <:+ fs ∧ c.rest = instrs (ℓ :: ks ++ bs)

/-! ## Owners of lines -/

theorem Listing.owner_values {v : Ir.Expr} {ds vs ls : List Line} {i : Nat}
    {cases : List Source.SwitchCase} (h : Listing L (.cases v ds vs i cases) π ρ c ls c') :
    ∀ ℓ ∈ vs, ℓ.owner = π := by
  induction cases generalizing vs i ls c' with
  | nil =>
    obtain ⟨rfl, -, -⟩ := h.inv
    exact List.forall_mem_nil _
  | cons case cases ih =>
    obtain ⟨span, value, body⟩ := case
    cases value with
    | none => exact ih h.inv
    | some e =>
      obtain ⟨_, _, _, _, _, _, hl, hw, -, rfl, -⟩ := h.inv
      intro ℓ hℓ
      rcases List.mem_append.mp hℓ with hℓ | hℓ
      · exact ih hl ℓ hℓ
      · exact (hw.1.mem hℓ).2

/-- The code of a piece belongs to statements at or below its place. -/
theorem Listing.owner_prefix {p : Piece} {ls : List Line} (h : Listing L p π ρ c ls c') :
    ∀ ℓ ∈ ls, ℓ ∈ p.inner ∨ π <+: ℓ.owner := by
  have hself : ∀ {ℓ : Line} {π : Path}, ℓ.owner = π → π <+: ℓ.owner :=
    fun h => h ▸ List.prefix_refl _
  have hbelow : ∀ {ℓ : Line} {π : Path} {hop : Source.Hop} {ks : List Line},
      (∀ ℓ ∈ ks, ℓ ∈ ([] : List Line) ∨ π ++ [hop] <+: ℓ.owner) → ℓ ∈ ks → π <+: ℓ.owner :=
    fun h hℓ => (List.prefix_append _ _).trans ((h _ hℓ).resolve_left List.not_mem_nil)
  have hown : ∀ {ℓ : Line} {π : Path} {ρ : List Frame} {is : List Instr}, ℓ ∈ own π ρ is →
      π <+: ℓ.owner := by
    intro ℓ π ρ is hℓ
    obtain ⟨i, -, rfl⟩ := mem_own.mp hℓ
    exact List.prefix_refl _
  induction h with
  | plain _ hl => exact fun ℓ hℓ => .inr (hself (hl.1.mem hℓ).2)
  | block _ ih => exact ih
  | conditional hh hm _ hn _ iha ihb =>
    intro ℓ hℓ
    rw [List.mem_append, mem_choice, List.mem_append, List.mem_append] at hℓ
    rcases hℓ with hℓ | rfl | (hℓ | hℓ) | rfl | (hℓ | hℓ)
    · exact .inr (hself (hh.1.mem hℓ).2)
    · exact .inr (hself rfl)
    · exact .inr (hself (hm.1.mem hℓ).2)
    · exact .inr (hbelow iha hℓ)
    · exact .inr (hself rfl)
    · exact .inr (hself (hn.1.mem hℓ).2)
    · exact .inr (hbelow ihb hℓ)
  | switch hh _ hc ihd ihc =>
    intro ℓ hℓ
    rw [List.mem_append, List.mem_append] at hℓ
    rcases hℓ with hℓ | hℓ | hℓ
    · exact .inr (hself (hh.1.mem hℓ).2)
    · exact .inr (hself (hc.owner_values ℓ hℓ))
    · rcases ihc ℓ hℓ with hℓ | h
      · exact ihd ℓ hℓ
      · exact .inr h
  | goto hm hs =>
    intro ℓ hℓ
    rw [List.mem_append, List.mem_append] at hℓ
    rcases hℓ with hℓ | hℓ | hℓ
    · exact .inr (hself (hm.1.mem hℓ).2)
    · exact .inr (hself (mem_escapeLines hℓ).2)
    · exact .inr (hown hℓ)
  | labeled hm _ ih =>
    intro ℓ hℓ
    rw [List.mem_append, List.mem_append] at hℓ
    rcases hℓ with hℓ | hℓ | hℓ
    · exact .inr (hself (hm.1.mem hℓ).2)
    · exact .inr (hown hℓ)
    · exact .inr (hbelow ih hℓ)
  | tryCatch hm _ _ _ _ ihb iha ihf =>
    intro ℓ hℓ
    rcases List.mem_append.mp hℓ with hℓ | hℓ
    · exact .inr (hself (hm.1.mem hℓ).2)
    · rcases part_or_own_of_mem_regionLines hℓ with (hℓ | hℓ | hℓ) | ⟨howner, -⟩
      · exact .inr (hbelow ihb hℓ)
      · exact iha ℓ hℓ
      · exact ihf ℓ hℓ
      · exact .inr (hself howner)
  | throw hh | rethrow _ hh =>
    intro ℓ hℓ
    rcases List.mem_append.mp hℓ with hℓ | hℓ
    · exact .inr (hself (hh.1.mem hℓ).2)
    · exact .inr (hself (mem_raiseLines hℓ).2)
  | stmtsNil | defaultNil => exact List.forall_mem_nil _
  | stmtsCons _ _ iha ihb =>
    intro ℓ hℓ
    rcases List.mem_append.mp hℓ with hℓ | hℓ
    · exact .inr (hbelow iha hℓ)
    · exact ihb ℓ hℓ
  | defaultLater _ _ ih | defaultHere _ _ ih | casesDefault _ ih => exact ih
  | casesNil | catchesNil => exact fun ℓ hℓ => .inl hℓ
  | casesCons _ hw _ ihc ihb =>
    intro ℓ hℓ
    rcases mem_choice.mp hℓ with rfl | hℓ | rfl | hℓ
    · exact .inr (hself rfl)
    · exact .inr ((ihb ℓ hℓ).resolve_left List.not_mem_nil)
    · exact .inr (hself rfl)
    · exact ihc ℓ hℓ
  | catchesCons hm _ _ ihb ihc =>
    intro ℓ hℓ
    rcases ihc ℓ hℓ with hℓ | h
    · rw [Piece.inner, mem_choice, List.mem_append, List.mem_append] at hℓ
      rcases hℓ with rfl | (hℓ | hℓ | hℓ) | rfl | hℓ
      · exact .inr (hself rfl)
      · exact .inr (hself (hm.1.mem hℓ).2)
      · exact .inr (hbelow ihb hℓ)
      · exact .inr (hown hℓ)
      · exact .inr (hself rfl)
      · exact .inl hℓ
    · exact .inr h
  | finalizerNone => exact List.forall_mem_nil _
  | finalizerSome _ _ ih =>
    intro ℓ hℓ
    rw [finallyLines, List.mem_append, List.mem_append] at hℓ
    rcases hℓ with hℓ | hℓ | hℓ
    · exact .inr (hown hℓ)
    · exact .inr (hbelow ih hℓ)
    · exact .inr (hown hℓ)

/-! ## Jumps in a finally block -/

/-- From a finally block, code is left for behind the region only, with an exception. -/
theorem Outlet.of_finally {ℓ : Line} {l : String} (h : Outlet ℓ (f :: ρ) l)
    (hf : f.phase = .inFinally) : l = (Tag.behind f.region).name ∧ ℓ.raising = true := by
  cases h with
  | catches hp =>
    rw [hf] at hp
    cases hp
  | behind _ hr => exact ⟨rfl, hr⟩
  | exit h =>
    cases h with
    | here hp | outer hp => exact absurd hf hp

/-- With regular jumps, a finally block jumps to labels in the block. -/
theorem Jumps.label_in_finally (htries : body.tries.Nodup)
    (hsc : L.scopes = ⟨body.scoped none, body.tries⟩) (hreg : body.Regular) {ℓ : Line}
    {l : String} (h : Jumps L body (f :: ρ) ℓ l) (hf : f.phase = .inFinally) {id : UInt32}
    {span : Span} {b fin : Stmt} {cs : List CatchClause}
    (htry : body.at? f.place = some ⟨id, span, .tryCatch b cs (some fin)⟩) : l ∈ fin.labels := by
  obtain ⟨hgoto, ρ', left, hsuf, hfr, hsplit⟩ := h
  obtain ⟨goto, hat, htarget⟩ := Option.bind_eq_some_iff.mp hgoto
  obtain ⟨-, ⟨hop, hhop, hpre⟩, -⟩ := hfr.of_suffix hsuf
  rw [hf] at hhop
  rw [finalizer_of_phaseOf? hhop] at hpre
  rw [hsc] at hsplit
  rcases hsplit.label_of_finally htries hfr htry hpre with hl | hinner
  · exact hl
  · -- the part with the label holds the jump, so it is the finally block
    have hmem := Source.mem_labels_of_innermost htries htry
      (LabelScopes.mem_of_innermostTry? hinner)
    obtain ⟨hop', t, hchild, hpart, hl⟩ := Stmt.exists_part_of_mem_labels hmem
    have hpre' : f.place ++ [hop'] <+: ℓ.owner := by
      refine hreg _ (Stmt.mem_places hat) l htarget _
        (Stmt.mem_places ((Stmt.at?_concat htry hop').trans hchild)) ?_ hl
      rw [Source.isPart_concat]
      exact hpart
    have heq : f.place ++ [hop'] = f.place ++ [Source.Hop.finalizer] :=
      (List.prefix_of_prefix_length_le hpre' hpre (by simp)).eq_of_length (by simp)
    obtain rfl : hop' = .finalizer := by simpa using heq
    obtain rfl : fin = t := Option.some.inj hchild
    exact hl

/-- A label that is counted stands in the code. -/
theorem Laid.exists_label (h : Laid L body ρ c fs ts c') {s : Stmt} (hts : Counts ts s.labels)
    {l : String} (hl : l ∈ s.labels) : ∃ k ∈ fs, k.instr = .label l := by
  have hmem : l ∈ labelsOf fs := by
    rw [← List.count_pos_iff, h.count_labels l, List.count_pos_iff]
    have hts' : Tag.source l ∈ ts := by
      rw [← List.count_pos_iff, hts l, List.count_pos_iff]
      exact hl
    exact List.mem_map_of_mem hts'
  obtain ⟨i, hi, hlabel⟩ := List.mem_filterMap.mp hmem
  obtain ⟨k, hk, rfl⟩ := List.mem_map.mp hi
  refine ⟨k, hk, ?_⟩
  cases hki : k.instr with
  | label l' =>
    rw [hki] at hlabel
    cases hlabel
    rfl
  | _ =>
    rw [hki] at hlabel
    cases hlabel

/-! ## Running a finally block -/

section

variable {w : World} {c₀ c₁ : Config}

/-- Control is in the finally block of the frame `f` still, at its end, or behind the region with an
exception. -/
inductive Confined (f : Frame) (fs bs : List Line) (c : Config) : Prop where
  | inside : InCode fs bs c → Confined f fs bs c
  | ends : c.rest = instrs bs → Confined f fs bs c
  | raises {is : List Instr} : c.rest = .label (Tag.behind f.region).name :: is →
      c.data.memory.exception ≠ none → Confined f fs bs c

theorem confined_of_suffix {ks : List Line} (h : ks <:+ fs) (hr : c₁.rest = instrs (ks ++ bs)) :
    Confined f fs bs c₁ := by
  cases ks with
  | nil => exact .ends hr
  | cons k ks => exact .inside ⟨k, ks, h, hr⟩

theorem landing_label {prog is : List Instr} {l : String} (h : Machine.landing l prog = some is) :
    ∃ js, is = .label l :: js := by
  induction prog with
  | nil => cases h
  | cons i prog ih =>
    rw [Machine.landing] at h
    split at h
    · next hi =>
      cases h
      cases i with
      | label l' =>
        cases hi
        exact ⟨prog, rfl⟩
      | _ => cases hi
    · exact ih h

/-- A step in a finally block. -/
theorem Laid.step_confined (hl : Laid L body (f :: ρ) c fs ts c') (ho : Ordered (f :: ρ) c)
    (hf : f.phase = .inFinally) (hsuf : fs ++ bs <:+ lines) (hnd : (labelsOf lines).Nodup)
    (hjumps : ∀ ℓ l, Jumps L body (f :: ρ) ℓ l → ∃ k ∈ fs, k.instr = .label l)
    (hin : InCode fs bs c₀) (hfit : Fitting lines c₀)
    (hs : step w (instrs lines) c₀ = some c₁) : Confined f fs bs c₁ := by
  obtain ⟨ℓ, ks, hks, hrest⟩ := hin
  obtain ⟨is, d⟩ := c₀
  obtain rfl : is = ℓ.instr :: instrs (ks ++ bs) := hrest
  have hbelow : ∀ {ks : List Line}, ks <:+ fs → ks ++ bs <:+ lines := by
    rintro ks ⟨as, rfl⟩
    rw [List.append_assoc] at hsuf
    exact (List.suffix_append _ _).trans hsuf
  have htail : ks <:+ fs := (List.suffix_cons _ _).trans hks
  have hmem : ℓ ∈ fs := hks.subset List.mem_cons_self
  obtain ⟨-, hover⟩ := (hl.chained opens_nil).1.linked hks
  -- a label of the block is in no other place
  have hlands : ∀ l, (∃ k ∈ fs, k.instr = .label l) →
      Machine.landing l (instrs lines) = some c₁.rest → Confined f fs bs c₁ := by
    rintro l ⟨k, hk, hkl⟩ hland
    obtain ⟨as, ms, rfl⟩ := List.append_of_mem hk
    have hkms : k.instr :: instrs (ms ++ bs) <:+ instrs lines :=
      (hbelow (List.suffix_append as (k :: ms))).map Line.instr
    rw [hkl] at hkms
    have hland' := Machine.landing_of_suffix hnd hkms
    rw [hland, Option.some.injEq] at hland'
    refine .inside ⟨k, ms, List.suffix_append _ _, ?_⟩
    rw [hland', ← hkl]
    rfl
  rcases Machine.step_cases hs with ⟨-, hr, -⟩ | ⟨n, hn, hr, -⟩ | ⟨l, hi, hland, hd⟩
  · exact confined_of_suffix htail hr
  · refine confined_of_suffix ((List.drop_suffix n _).trans htail) ?_
    rw [hr, instrs, ← List.map_drop, List.drop_append_of_le_length (hover n hn)]
    rfl
  · rcases hl.target ho hmem hi with ⟨k, hk, hkl, -⟩ | hout | hjump
    · exact hlands l ⟨k, hk, hkl⟩ hland
    · obtain ⟨rfl, hraising⟩ := hout.of_finally hf
      obtain ⟨js, hjs⟩ := landing_label hland
      refine .raises hjs ?_
      rw [hd]
      exact (hfit.fits ⟨hbelow hks, rfl⟩).pending hraising
    · exact hlands l (hjumps ℓ l hjump) hland

/-- A run in a finally block. It keeps the variables that were in use before the block. -/
theorem Laid.confined (hl : Laid L body (f :: ρ) c fs ts c') (ho : Ordered (f :: ρ) c)
    (hf : f.phase = .inFinally) (hsuf : fs ++ bs <:+ lines) (hnd : (labelsOf lines).Nodup)
    (hw : ∀ x, L.writes x → isGenerated x = false)
    (hjumps : ∀ ℓ l, Jumps L body (f :: ρ) ℓ l → ∃ k ∈ fs, k.instr = .label l) {d : Data}
    (hfit : ∀ c₁, Reaches w (instrs lines) ⟨instrs (fs ++ bs), d⟩ c₁ → Fitting lines c₁)
    (hrun : Along w (instrs lines) (InCode fs bs) ⟨instrs (fs ++ bs), d⟩ c₁) :
    Confined f fs bs c₁ ∧ Keeps c d c₁.data := by
  induction hrun with
  | refl => exact ⟨confined_of_suffix (List.suffix_refl _) rfl, .refl _ _⟩
  | @tail c₀ c₁ hrun hs ih =>
    obtain ⟨hs, hin⟩ := hs
    refine ⟨hl.step_confined ho hf hsuf hnd hjumps hin (hfit c₀ (Along.reaches hrun)) hs,
      ih.2.trans ?_⟩
    obtain ⟨ℓ, ks, hks, hrest⟩ := hin
    obtain ⟨is, d'⟩ := c₀
    obtain rfl : is = ℓ.instr :: instrs (ks ++ bs) := hrest
    exact step_keeps hs (hl.sparesAll hw ℓ (hks.subset List.mem_cons_self))

end

end Unwind.Lowering
