import Unwind.Proofs.Lowering.Listing
import Unwind.Proofs.Parts

/-!
# Frames and the place they belong to

The frames between which a statement is lowered are those of the `try` statements around its place,
each in the part that the place is in (`Framed`). So the regions that a jump leaves are known from
the source alone: they belong to the `try` statements around the jump that do not hold its label
(`Splits.map_place`).
-/

namespace Unwind.Source

/-- The `try` statements around a place that do not hold the label, the innermost first: those that
a jump from the place to the label leaves. -/
def Stmt.triesLeft (body : Stmt) (π : Path) (label : String) : List Path :=
  (triesAround π).filter fun τ => (body.at? τ).all fun s => !s.labels.contains label

end Unwind.Source

namespace Unwind.Lowering

open Source (CatchClause Hop Path Stmt triesAround)

/-- The part of a `try` statement that a hop leads into. -/
def phaseOf? : Hop → Option Phase
  | .tryBody => some .inTry
  | .catchBody _ => some .inCatch
  | .finalizer => some .inFinally
  | _ => none

theorem isPart_of_phaseOf? {hop : Hop} {phase : Phase} (h : phaseOf? hop = some phase) :
    hop.isPart = true := by
  cases hop <;> first | rfl | cases h

/-- The frames are those of the `try` statements around the place. -/
inductive Framed (body : Stmt) : Path → List Frame → Prop where
  | nil : Framed body [] []
  | inner {π : Path} {hop : Hop} {ρ : List Frame} :
      hop.isPart = false → Framed body π ρ → Framed body (π ++ [hop]) ρ
  | part {π : Path} {hop : Hop} {ρ : List Frame} {region : Nat} {id : UInt32} {phase : Phase}
      {span : Span} {b : Stmt} {cs : List CatchClause} {f : Option Stmt} :
      phaseOf? hop = some phase → body.at? π = some ⟨id, span, .tryCatch b cs f⟩ →
      Framed body π ρ → Framed body (π ++ [hop]) (⟨region, id, phase, π⟩ :: ρ)

section

variable {body : Stmt} {π : Path} {ρ : List Frame}

theorem Framed.map_place (h : Framed body π ρ) : ρ.map Frame.place = triesAround π := by
  induction h with
  | nil => rfl
  | inner hp _ ih => rw [Source.triesAround_concat, hp, if_neg Bool.false_ne_true, ih]
  | part hp _ _ ih =>
    rw [Source.triesAround_concat, if_pos (isPart_of_phaseOf? hp), List.map_cons, ih]

/-- A frame belongs to a `try` statement around the place, in the part that the place is in; the
frames behind it are those around that statement. -/
theorem Framed.of_suffix (h : Framed body π ρ) {f : Frame} {ρ' : List Frame} (hs : f :: ρ' <:+ ρ) :
    Framed body f.place ρ' ∧
      (∃ hop, phaseOf? hop = some f.phase ∧ f.place ++ [hop] <+: π) ∧
      ∃ span b cs fin, body.at? f.place = some ⟨f.node, span, .tryCatch b cs fin⟩ := by
  induction h with
  | nil => exact absurd (List.suffix_nil.mp hs) (List.cons_ne_nil _ _)
  | @inner π hop ρ hp h ih =>
    obtain ⟨hf, ⟨hop', hph, hpre⟩, hat⟩ := ih hs
    exact ⟨hf, ⟨hop', hph, hpre.trans (List.prefix_append _ _)⟩, hat⟩
  | @part π hop ρ region id phase span b cs fin hp hat h ih =>
    rcases List.suffix_cons_iff.mp hs with heq | hs
    · obtain ⟨rfl, rfl⟩ := List.cons.inj heq
      exact ⟨h, ⟨hop, hp, List.prefix_refl _⟩, span, b, cs, fin, hat⟩
    · obtain ⟨hf, ⟨hop', hph, hpre⟩, hat⟩ := ih hs
      exact ⟨hf, ⟨hop', hph, hpre.trans (List.prefix_append _ _)⟩, hat⟩

/-- The hop of a part decides where control is. -/
theorem finalizer_of_phaseOf? {hop : Hop} (h : phaseOf? hop = some .inFinally) :
    hop = .finalizer := by
  cases hop <;> cases h
  rfl

/-- A place in a part of a `try` statement has the frame of this part around it. -/
theorem Framed.mem_part (h : Framed body π ρ) {τ : Path} {hop : Hop} {phase : Phase}
    (hp : phaseOf? hop = some phase) (hin : τ ++ [hop] <+: π) :
    ∃ f ∈ ρ, f.place = τ ∧ f.phase = phase := by
  induction h with
  | nil =>
    have hlen := hin.length_le
    simp at hlen
  | @inner π hop' ρ hp' _ ih =>
    rcases List.prefix_concat_iff.mp hin with heq | hin
    · have hhop : hop = hop' := (List.append_inj' heq rfl).2 |> List.cons.inj |>.1
      rw [← hhop, isPart_of_phaseOf? hp] at hp'
      cases hp'
    · exact ih hin
  | @part π hop' ρ region id phase' span b cs fin hp' _ _ ih =>
    rcases List.prefix_concat_iff.mp hin with heq | hin
    · obtain ⟨rfl, hhop⟩ := List.append_inj' heq rfl
      obtain rfl : hop = hop' := (List.cons.inj hhop).1
      rw [hp] at hp'
      exact ⟨_, List.mem_cons_self, rfl, (Option.some.inj hp').symm⟩
    · obtain ⟨f, hf, h⟩ := ih hin
      exact ⟨f, List.mem_cons_of_mem _ hf, h⟩

/-- The suffix of the frames from one of them on. -/
theorem suffix_of_mem {f : Frame} (h : f ∈ ρ) : ∃ ρ', f :: ρ' <:+ ρ := by
  obtain ⟨as, bs, rfl⟩ := List.append_of_mem h
  exact ⟨bs, List.suffix_append _ _⟩

/-! ## The regions that a jump leaves -/

variable {label : String} {left kept : List Frame}

/-- The `try` statement of the first region that a jump does not leave holds the label. -/
theorem Splits.mem_labels (hnd : body.tries.Nodup) (hfr : Framed body π ρ) {f : Frame}
    {rest : List Frame} {tries : List UInt32}
    (h : Splits ⟨body.scoped none, tries⟩ label ρ left (f :: rest)) {s : Stmt}
    (hs : body.at? f.place = some s) : label ∈ s.labels := by
  rcases h.kept with ⟨-, hnil⟩ | ⟨f', rest', heq, hin, -⟩
  · cases hnil
  · obtain ⟨rfl, rfl⟩ := List.cons.inj heq
    have hsuf : f :: rest <:+ ρ := h.eq ▸ List.suffix_append _ _
    obtain ⟨-, -, span, b, cs, fin, hat⟩ := hfr.of_suffix hsuf
    rw [hat] at hs
    cases hs
    exact Source.mem_labels_of_innermost hnd hat (LabelScopes.mem_of_innermostTry? hin)

/-- A `try` statement further out holds the labels of one further in. -/
theorem Framed.mem_labels_of_mem (hfr : Framed body π ρ) {f g : Frame} {ρ' : List Frame}
    (hs : f :: ρ' <:+ ρ) (hg : g ∈ ρ') {s t : Stmt} (hf : body.at? f.place = some s)
    (ht : body.at? g.place = some t) (hl : label ∈ s.labels) : label ∈ t.labels := by
  obtain ⟨hfr', -, -⟩ := hfr.of_suffix hs
  obtain ⟨ρ'', hg⟩ := suffix_of_mem hg
  obtain ⟨-, ⟨hop, -, hpre⟩, -⟩ := hfr'.of_suffix hg
  obtain ⟨σ, -, hσ⟩ := Stmt.at?_of_prefix ht hf ((List.prefix_append _ _).trans hpre)
  exact (Stmt.holds_at hσ).labels.subset hl

/-- A `try` statement whose region a jump leaves does not hold the label. -/
theorem Splits.notMem_labels (hlabels : body.labels.Nodup) (hnd : body.tries.Nodup)
    (hfr : Framed body π ρ) {tries : List UInt32}
    (h : Splits ⟨body.scoped none, tries⟩ label ρ left kept) {f : Frame} (hf : f ∈ left) {s : Stmt}
    (hs : body.at? f.place = some s) : label ∉ s.labels := by
  intro hl
  obtain ⟨as, bs, rfl⟩ := List.append_of_mem hf
  have hsuf : f :: (bs ++ kept) <:+ ρ := by
    rw [h.eq, List.append_assoc]
    exact List.suffix_append _ _
  obtain ⟨hfr', -, span, b, cs, fin, hat⟩ := hfr.of_suffix hsuf
  rw [hat] at hs
  cases hs
  obtain ⟨t, ht, hin⟩ := Source.innermost_of_mem_labels hat hl
  have hnames : ((body.scoped none).map Prod.fst).Nodup := by
    rw [Source.map_fst_scoped]
    exact hlabels
  have hlookup : LabelScopes.innermostTry? ⟨body.scoped none, tries⟩ label = some (some t.id) :=
    LabelScopes.innermostTry?_of_mem hnames hin
  rcases h.kept with ⟨hnone, -⟩ | ⟨f', rest, rfl, hsome, -⟩
  · rw [hlookup] at hnone
    cases hnone
  · -- the innermost `try` statement around the label is around this one too
    rw [hlookup] at hsome
    obtain ⟨-, ⟨hop, -, hpre⟩, _, _, _, _, hat'⟩ :=
      hfr'.of_suffix (List.suffix_append bs (f' :: rest))
    exact Source.id_ne_of_part hnd hat' hat hpre t ht (Option.some.inj (Option.some.inj hsome))

/-- The regions that a jump leaves are those of the `try` statements around it that do not hold its
label. -/
theorem Splits.map_place (hlabels : body.labels.Nodup) (hnd : body.tries.Nodup)
    (hfr : Framed body π ρ) {tries : List UInt32}
    (h : Splits ⟨body.scoped none, tries⟩ label ρ left kept) :
    left.map Frame.place = body.triesLeft π label := by
  have hat : ∀ f ∈ ρ, ∃ s, body.at? f.place = some s := by
    intro f hf
    obtain ⟨ρ', hs⟩ := suffix_of_mem hf
    obtain ⟨-, -, span, b, cs, fin, hat⟩ := hfr.of_suffix hs
    exact ⟨_, hat⟩
  have hleft : ∀ τ ∈ left.map Frame.place,
      ((body.at? τ).all fun s => !s.labels.contains label) = true := by
    intro τ hτ
    obtain ⟨f, hf, rfl⟩ := List.mem_map.mp hτ
    obtain ⟨s, hs⟩ := hat f (h.eq ▸ List.mem_append_left _ hf)
    have hn := h.notMem_labels hlabels hnd hfr hf hs
    simpa [hs] using hn
  have hkept : ∀ τ ∈ kept.map Frame.place,
      ¬ ((body.at? τ).all fun s => !s.labels.contains label) = true := by
    intro τ hτ
    obtain ⟨f, hf, rfl⟩ := List.mem_map.mp hτ
    obtain ⟨s, hs⟩ := hat f (h.eq ▸ List.mem_append_right _ hf)
    cases kept with
    | nil => cases hf
    | cons f' rest =>
      have hsuf : f' :: rest <:+ ρ := h.eq ▸ List.suffix_append _ _
      obtain ⟨s', hs'⟩ := hat f' (hsuf.subset List.mem_cons_self)
      have hl := h.mem_labels hnd hfr hs'
      have hls : label ∈ s.labels := by
        rcases List.mem_cons.mp hf with rfl | hf
        · rw [hs] at hs'
          cases hs'
          exact hl
        · exact hfr.mem_labels_of_mem hsuf hf hs' hs hl
      simpa [hs] using hls
  rw [Stmt.triesLeft, ← hfr.map_place, h.eq, List.map_append, List.filter_append,
    List.filter_eq_self.mpr hleft, List.filter_eq_nil_iff.mpr hkept, List.append_nil]

end

end Unwind.Lowering
