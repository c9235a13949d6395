import Unwind.Proofs.JumpTargets
import Unwind.Proofs.Lowering.Regions
import Unwind.Proofs.Lowering.Tags

/-!
# Where jumps land

A `try` statement is entered once, so that its node tells its region wherever a line stands in it
(`Listing.entered`). In a body with regular jumps, a label lies in no part of a `try` statement that
its jumps are not in. So every jump of the code lands where no more is known than at the jump
(`BodyListing.lands_of_regular`).
-/

namespace Unwind.Lowering

open Source (Hop Path Stmt)
open Machine (Instr isGenerated)

variable {L : Layout} {body : Stmt} {π : Path} {ρ : List Frame} {c c' : Counters} {ls : List Line}

/-! ## Regions of `try` statements -/

/-- The frames of the line are among `ρ`, or belong to `try` statements that are entered. -/
def Line.Among (ℓ : Line) (ρ : List Frame) (es : List (UInt32 × Nat)) : Prop :=
  ∀ f ∈ ℓ.frames, f ∈ ρ ∨ (f.node, f.region) ∈ es

theorem Line.Among.of_eq {ℓ : Line} (h : ℓ.frames = ρ) (es : List (UInt32 × Nat)) : ℓ.Among ρ es :=
  fun _ hf => .inl (h ▸ hf)

theorem Line.Among.of_suffix {ℓ : Line} (h : ℓ.frames <:+ ρ) (es : List (UInt32 × Nat)) :
    ℓ.Among ρ es := fun _ hf => .inl (h.subset hf)

theorem Line.Among.mono {ℓ : Line} {es es' : List (UInt32 × Nat)} (h : ℓ.Among ρ es)
    (he : es ⊆ es') : ℓ.Among ρ es' := fun f hf => (h f hf).imp_right fun hm => he hm

/-- A line in a part of a region. -/
theorem Line.Among.part {ℓ : Line} {f : Frame} {es es' : List (UInt32 × Nat)}
    (h : ℓ.Among (f :: ρ) es) (hf : (f.node, f.region) ∈ es') (he : es ⊆ es') : ℓ.Among ρ es' := by
  intro g hg
  rcases h g hg with hg | hg
  · rcases List.mem_cons.mp hg with rfl | hg
    · exact .inr hf
    · exact .inl hg
  · exact .inr (he hg)

/-- A line of a region, whose parts enter `es`, `es'` and `es''`: the region is entered as well. -/
theorem Line.Among.of_mem_regionLines {env : Env} {r jumps : Nat} {node : UInt32}
    {bs as gs : List Line} {ℓ : Line} {es es' es'' : List (UInt32 × Nat)}
    (h : ℓ ∈ regionLines env π ρ r node bs as gs jumps)
    (hb : ℓ ∈ bs → ∃ phase, ℓ.Among (⟨r, node, phase, π⟩ :: ρ) es)
    (ha : ℓ ∈ as → ∃ phase, ℓ.Among (⟨r, node, phase, π⟩ :: ρ) es')
    (hg : ℓ ∈ gs → ∃ phase, ℓ.Among (⟨r, node, phase, π⟩ :: ρ) es'') :
    ℓ.Among ρ ((node, r) :: (es ++ (es' ++ es''))) := by
  -- the part that the line is in enters no more than all of them
  have hpart : ∀ {es₁ : List (UInt32 × Nat)}, es₁ ⊆ es ++ (es' ++ es'') →
      (∃ phase, ℓ.Among (⟨r, node, phase, π⟩ :: ρ) es₁) →
      ℓ.Among ρ ((node, r) :: (es ++ (es' ++ es''))) := by
    rintro es₁ hsub ⟨phase, hin⟩
    exact hin.part List.mem_cons_self (List.Subset.trans hsub (List.subset_cons_self _ _))
  rcases part_or_own_of_mem_regionLines h with (h | h | h) | ⟨-, h | ⟨phase, h⟩⟩
  · exact hpart (List.subset_append_left _ _) (hb h)
  · exact hpart (List.Subset.trans (List.subset_append_left _ _) (List.subset_append_right _ _))
      (ha h)
  · exact hpart (List.Subset.trans (List.subset_append_right _ _) (List.subset_append_right _ _))
      (hg h)
  · exact .of_eq h _
  · exact hpart (List.nil_subset _) ⟨phase, .of_eq h []⟩

/-- The `try` statements in a piece. -/
def Piece.tries : Piece → List UInt32
  | stmt s => s.tries
  | stmts _ _ ss => Source.triesIn ss
  | default _ cs => Source.triesInDefault cs
  | cases _ _ _ _ cs => Source.triesInValued cs
  | catches _ _ _ clauses => Source.triesInCatches clauses
  | finalizer s => Source.triesInOption s

/-- Entered `try` statements, none more often than it is listed. -/
def Enters (es : List (UInt32 × Nat)) (tries : List UInt32) : Prop :=
  ∀ node, (es.map Prod.fst).count node ≤ tries.count node

theorem Enters.nil (tries : List UInt32) : Enters [] tries := fun _ => Nat.zero_le _

theorem Enters.append {es es' : List (UInt32 × Nat)} {ts ts' : List UInt32} (h : Enters es ts)
    (h' : Enters es' ts') : Enters (es ++ es') (ts ++ ts') := by
  intro node
  have := h node
  have := h' node
  rw [List.map_append, List.count_append, List.count_append]
  omega

theorem Enters.cons {es : List (UInt32 × Nat)} {ts : List UInt32} (h : Enters es ts)
    (node : UInt32) (region : Nat) : Enters ((node, region) :: es) (node :: ts) := by
  intro n
  rw [List.map_cons, List.count_cons, List.count_cons]
  exact Nat.add_le_add_right (h n) _

theorem Listing.frames_values {v : Ir.Expr} {ds vs : List Line} {i : Nat}
    {cases : List Source.SwitchCase} (h : Listing L (.cases v ds vs i cases) π ρ c ls c') :
    ∀ ℓ ∈ vs, ℓ.frames = ρ := by
  induction cases generalizing vs i ls c' with
  | nil =>
    obtain ⟨rfl, -, -⟩ := h.inv
    exact List.forall_mem_nil _
  | cons case cases ih =>
    obtain ⟨span, value, body⟩ := case
    cases value with
    | none => exact ih h.inv
    | some e =>
      obtain ⟨_, _, _, _, _, _, hl, hw, -, rfl, -⟩ := h.inv
      intro ℓ hℓ
      rcases List.mem_append.mp hℓ with hℓ | hℓ
      · exact ih hl ℓ hℓ
      · exact (hw.1.mem hℓ).1

/-- The code of a piece lies in the frames around it and in `try` statements that are entered there,
each at most once. -/
theorem Listing.entered {p : Piece} (h : Listing L p π ρ c ls c') :
    ∃ es, Enters es p.tries ∧ ∀ ℓ ∈ ls, ℓ ∈ p.inner ∨ ℓ.Among ρ es := by
  induction h with
  | plain _ hl => exact ⟨[], .nil _, fun ℓ hℓ => .inr (.of_eq (hl.1.mem hℓ).1 _)⟩
  | block _ ih => exact ih
  | conditional hh hm _ hn _ iha ihb =>
    obtain ⟨es, he, ha⟩ := iha
    obtain ⟨es', he', hb⟩ := ihb
    refine ⟨es ++ es', he.append he', fun ℓ hℓ => .inr ?_⟩
    rw [List.mem_append, mem_choice, List.mem_append, List.mem_append] at hℓ
    rcases hℓ with hℓ | rfl | (hℓ | hℓ) | rfl | (hℓ | hℓ)
    · exact .of_eq (hh.1.mem hℓ).1 _
    · exact .of_eq rfl _
    · exact .of_eq (hm.1.mem hℓ).1 _
    · exact ((ha ℓ hℓ).resolve_left (List.not_mem_nil)).mono (List.subset_append_left _ _)
    · exact .of_eq rfl _
    · exact .of_eq (hn.1.mem hℓ).1 _
    · exact ((hb ℓ hℓ).resolve_left (List.not_mem_nil)).mono (List.subset_append_right _ _)
  | switch hh _ hc ihd ihc =>
    obtain ⟨es, he, hd⟩ := ihd
    obtain ⟨es', he', hl⟩ := ihc
    refine ⟨es ++ es', fun node => ?_, fun ℓ hℓ => .inr ?_⟩
    · exact Nat.le_trans (he.append he' node) (Source.count_triesInCases_ge _ node)
    · rw [List.mem_append, List.mem_append] at hℓ
      rcases hℓ with hℓ | hℓ | hℓ
      · exact .of_eq (hh.1.mem hℓ).1 _
      · exact .of_eq (hc.frames_values ℓ hℓ) _
      · rcases hl ℓ hℓ with hℓ | h
        · exact ((hd ℓ hℓ).resolve_left (List.not_mem_nil)).mono (List.subset_append_left _ _)
        · exact h.mono (List.subset_append_right _ _)
  | goto hm hs =>
    refine ⟨[], .nil _, fun ℓ hℓ => .inr ?_⟩
    rw [List.mem_append, List.mem_append] at hℓ
    rcases hℓ with hℓ | hℓ | hℓ
    · exact .of_eq (hm.1.mem hℓ).1 _
    · exact .of_suffix (hs.eq ▸ (mem_escapeLines hℓ).1) _
    · obtain ⟨i, -, rfl⟩ := mem_own.mp hℓ
      exact .of_suffix (hs.eq ▸ List.suffix_append _ _) _
  | labeled hm _ ih =>
    obtain ⟨es, he, hl⟩ := ih
    refine ⟨es, he, fun ℓ hℓ => .inr ?_⟩
    rw [List.mem_append, List.mem_append] at hℓ
    rcases hℓ with hℓ | hℓ | hℓ
    · exact .of_eq (hm.1.mem hℓ).1 _
    · obtain ⟨i, -, rfl⟩ := mem_own.mp hℓ
      exact .of_eq rfl _
    · exact (hl ℓ hℓ).resolve_left (List.not_mem_nil)
  | @tryCatch id _ _ _ _ π ρ c _ _ _ _ _ _ _ hm _ _ _ _ ihb iha ihf =>
    obtain ⟨es, he, hb⟩ := ihb
    obtain ⟨es', he', ha⟩ := iha
    obtain ⟨es'', he'', hf⟩ := ihf
    refine ⟨(id, c.regions) :: (es ++ (es' ++ es'')), ?_, fun ℓ hℓ => .inr ?_⟩
    · exact (he.append (he'.append he'')).cons id c.regions
    · rcases List.mem_append.mp hℓ with hℓ | hℓ
      · exact .of_eq (hm.1.mem hℓ).1 _
      · exact .of_mem_regionLines hℓ
          (fun hℓ => ⟨_, (hb ℓ hℓ).resolve_left (List.not_mem_nil)⟩)
          (fun hℓ => ⟨_, (ha ℓ hℓ).resolve_left (List.not_mem_nil)⟩)
          (fun hℓ => ⟨_, (hf ℓ hℓ).resolve_left (List.not_mem_nil)⟩)
  | throw hh | rethrow _ hh =>
    refine ⟨[], .nil _, fun ℓ hℓ => .inr ?_⟩
    rcases List.mem_append.mp hℓ with hℓ | hℓ
    · exact .of_eq (hh.1.mem hℓ).1 _
    · exact .of_eq (mem_raiseLines hℓ).1 _
  | stmtsNil | defaultNil => exact ⟨[], .nil _, List.forall_mem_nil _⟩
  | stmtsCons _ _ iha ihb =>
    obtain ⟨es, he, ha⟩ := iha
    obtain ⟨es', he', hb⟩ := ihb
    refine ⟨es ++ es', he.append he', fun ℓ hℓ => .inr ?_⟩
    rcases List.mem_append.mp hℓ with hℓ | hℓ
    · exact ((ha ℓ hℓ).resolve_left (List.not_mem_nil)).mono (List.subset_append_left _ _)
    · exact ((hb ℓ hℓ).resolve_left (List.not_mem_nil)).mono (List.subset_append_right _ _)
  | defaultLater hv _ ih =>
    rw [Piece.tries, Source.triesInDefault, if_pos hv]
    exact ih
  | defaultHere hv _ ih =>
    rw [Piece.tries, Source.triesInDefault, if_neg (by simp [hv])]
    exact ih
  | casesNil | catchesNil => exact ⟨[], .nil _, fun ℓ hℓ => .inl hℓ⟩
  | casesDefault _ ih => exact ih
  | casesCons _ hw _ ihc ihb =>
    obtain ⟨es, he, hl⟩ := ihc
    obtain ⟨es', he', hb⟩ := ihb
    refine ⟨es ++ es', he.append he', fun ℓ hℓ => ?_⟩
    rcases mem_choice.mp hℓ with rfl | hℓ | rfl | hℓ
    · exact .inr (.of_eq rfl _)
    · exact .inr (((hb ℓ hℓ).resolve_left (List.not_mem_nil)).mono (List.subset_append_right _ _))
    · exact .inr (.of_eq rfl _)
    · exact (hl ℓ hℓ).imp_right (·.mono (List.subset_append_left _ _))
  | @catchesCons region i before clause clauses π ρ c c₁ c₂ ms bs ls hm _ _ ihb ihc =>
    obtain ⟨es, he, hb⟩ := ihb
    obtain ⟨es', he', hl⟩ := ihc
    refine ⟨es ++ es', ?_, fun ℓ hℓ => ?_⟩
    · obtain ⟨span, type, binding, b⟩ := clause
      exact he.append he'
    · rcases hl ℓ hℓ with hℓ | h
      · rw [Piece.inner, mem_choice, List.mem_append, List.mem_append] at hℓ
        rcases hℓ with rfl | (hℓ | hℓ | hℓ) | rfl | hℓ
        · exact .inr (.of_eq rfl _)
        · exact .inr (.of_eq (hm.1.mem hℓ).1 _)
        · exact .inr (((hb ℓ hℓ).resolve_left (List.not_mem_nil)).mono
            (List.subset_append_left _ _))
        · obtain ⟨i, -, rfl⟩ := mem_own.mp hℓ
          exact .inr (.of_eq rfl _)
        · exact .inr (.of_eq rfl _)
        · exact .inl hℓ
      · exact .inr (h.mono (List.subset_append_right _ _))
  | finalizerNone => exact ⟨[], .nil _, List.forall_mem_nil _⟩
  | finalizerSome _ _ ih =>
    obtain ⟨es, he, hl⟩ := ih
    refine ⟨es, he, fun ℓ hℓ => .inr ?_⟩
    rw [finallyLines, List.mem_append, List.mem_append] at hℓ
    rcases hℓ with hℓ | hℓ | hℓ
    · obtain ⟨i, -, rfl⟩ := mem_own.mp hℓ
      exact .of_eq rfl _
    · exact (hl ℓ hℓ).resolve_left (List.not_mem_nil)
    · obtain ⟨i, -, rfl⟩ := mem_own.mp hℓ
      exact .of_eq rfl _

/-- Frames of one `try` statement belong to one region. -/
theorem BodyListing.region_unique (h : BodyListing L body ls) (hnd : body.tries.Nodup)
    {ℓ k : Line} (hℓ : ℓ ∈ ls) (hk : k ∈ ls) {f g : Frame} (hf : f ∈ ℓ.frames)
    (hg : g ∈ k.frames) (hnode : f.node = g.node) : f.region = g.region := by
  obtain @⟨ms, ks, c, hms, hls⟩ := h
  obtain ⟨es, he, hall⟩ := hls.entered
  have hes : (es.map Prod.fst).Nodup := by
    rw [List.nodup_iff_count_le_one] at hnd ⊢
    exact fun node => Nat.le_trans (he node) (hnd node)
  have hin : ∀ {ℓ : Line} {f : Frame}, ℓ ∈ ms ++ ks → f ∈ ℓ.frames → (f.node, f.region) ∈ es := by
    intro ℓ f hℓ hf
    rcases List.mem_append.mp hℓ with hℓ | hℓ
    · rw [(hms.1.mem hℓ).1] at hf
      cases hf
    · exact (((hall ℓ hℓ).resolve_left (List.not_mem_nil)) f hf).resolve_left (List.not_mem_nil)
  have heq := List.inj_on_of_nodup_map hes (hin hℓ hf) (hin hk hg) hnode
  exact (Prod.mk.inj heq).2

/-! ## Labels of the source program -/

/-- A label that is not generated belongs to a labeled statement. -/
theorem Laid.stands_of_label {ts : List Tag} (h : Laid L body ρ c ls ts c') {ℓ : Line} (hℓ : ℓ ∈ ls)
    {l : String} (hl : ℓ.instr = .label l) (hn : isGenerated l = false) :
    (∃ id span s, Stands body ℓ.owner ℓ.frames ⟨id, span, .labeled l s⟩) ∧ ℓ.raising = false := by
  -- code without labels, and code whose labels are generated
  have hnone : ∀ {ks : List Line}, labelsOf ks = [] → ℓ ∉ ks := by
    intro ks hks hmem
    have := mem_labelsOf hmem hl
    rw [hks] at this
    cases this
  have hgen : ∀ {t : Tag} {π : Path} {ρ : List Frame} {raising : Bool}, t.isSource = false →
      ℓ ≠ ⟨.label t.name, π, ρ, raising⟩ := by
    rintro t π ρ raising ht rfl
    cases hl
    rw [Tag.isGenerated_of_not_isSource ht] at hn
    cases hn
  induction h with
  | nil => cases hℓ
  | leaf _ hlf => exact absurd hℓ (hnone hlf.labelsOf)
  | seq _ _ iha ihb => exact (List.mem_append.mp hℓ).elim iha ihb
  | choice _ _ _ iha ihb =>
    rcases mem_choice.mp hℓ with rfl | hℓ | rfl | hℓ
    · cases hl
    · exact iha hℓ
    · cases hl
    · exact ihb hℓ
  | choiceBack _ _ _ ihb iha =>
    rcases mem_choice.mp hℓ with rfl | hℓ | rfl | hℓ
    · cases hl
    · exact iha hℓ
    · cases hl
    · exact ihb hℓ
  | mark hs =>
    obtain ⟨i, hi, rfl⟩ := mem_own.mp hℓ
    rw [List.mem_singleton.mp hi] at hl
    cases hl
    exact ⟨⟨_, _, _, hs⟩, rfl⟩
  | jump _ _ hms =>
    rw [List.mem_append, List.mem_append] at hℓ
    rcases hℓ with hℓ | hℓ | hℓ
    · exact absurd hℓ (hnone hms.labelsOf)
    · have hmem := mem_labelsOf hℓ hl
      rw [labelsOf_escapeLines] at hmem
      obtain ⟨t, ht, rfl⟩ := List.mem_map.mp hmem
      have hs : t.isSource = false := by
        cases t with
        | source l =>
          have hpos := List.count_pos_iff.mpr ht
          rw [counts_resumes, List.count_nil] at hpos
          cases hpos
        | _ => rfl
      rw [Tag.isGenerated_of_not_isSource hs] at hn
      cases hn
    · obtain ⟨i, hi, rfl⟩ := mem_own.mp hℓ
      rw [List.mem_singleton.mp hi] at hl
      cases hl
  | leave => exact absurd hℓ (hnone (labelsOf_leaveLines _))
  | raise => exact absurd hℓ (hnone (labelsOf_raiseLines _ _))
  | region _ _ _ _ _ _ hgd _ ihb iha ihf =>
    rcases mem_regionLines.mp hℓ with hℓ | hℓ | hℓ | hℓ | hℓ | hℓ | hℓ | hℓ | hℓ | hℓ
    · exact ihb hℓ
    · exact absurd hℓ (hnone (labelsOf_leaveLines _))
    · simp only [takeLines, List.mem_append, mem_raise, mem_own, List.mem_cons, List.not_mem_nil,
        or_false] at hℓ
      rcases hℓ with ⟨i, rfl | rfl, h⟩ | ⟨i, rfl, h⟩
      · exact absurd h (hgen rfl)
      · rw [h] at hl
        cases hl
      · rw [h] at hl
        cases hl
    · exact iha hℓ
    · exact absurd hℓ (hnone (labelsOf_raiseLines _ _))
    · obtain ⟨i, hi, h⟩ := mem_own.mp hℓ
      rw [List.mem_singleton.mp hi] at h
      exact absurd h (hgen rfl)
    · rcases hgd.mem hℓ with hℓ | ⟨x, e, rfl⟩
      · exact ihf hℓ
      · cases hl
    · exact absurd hℓ (hnone (labelsOf_resumeLines _ _))
    · obtain ⟨i, hi, h⟩ := mem_own.mp hℓ
      rw [List.mem_singleton.mp hi] at h
      exact absurd h (hgen rfl)
    · exact absurd hℓ (hnone (labelsOf_checkLines _))

/-! ## Regular jumps -/

/-- A `goto` statement is in every part of a `try` statement that its label is in. -/
theorem Jumps.leads (hbody : BodyListing L body ls) (hlabels : body.labels.Nodup)
    (hnd : body.tries.Nodup) (hsc : L.scopes = ⟨body.scoped none, body.tries⟩)
    (hreg : body.Regular) {ℓ k : Line} (hℓ : ℓ ∈ ls) (hk : k ∈ ls) {l : String}
    (hjump : Jumps L body [] ℓ l) {id : UInt32} {span : Span} {s : Stmt}
    (hstands : Stands body k.owner k.frames ⟨id, span, .labeled l s⟩) :
    ∀ f ∈ k.frames, f ∈ ℓ.frames := by
  intro f hf
  obtain ⟨hgoto, ρ', left, -, hfr, hsplit⟩ := hjump
  obtain ⟨goto, hat, htarget⟩ := Option.bind_eq_some_iff.mp hgoto
  obtain ⟨σ, hsuf⟩ := suffix_of_mem hf
  obtain ⟨-, ⟨hop, hpart, hpre⟩, tspan, b, cs, fin, htry⟩ := hstands.2.of_suffix hsuf
  -- the part holds the label, so that the jump is in it
  obtain ⟨part, hpartAt, hin⟩ : ∃ part, body.at? (f.place ++ [hop]) = some part ∧
      l ∈ part.labels := by
    obtain ⟨τ, hτ⟩ := hpre
    have hlabeled := hstands.1
    rw [← hτ, Stmt.at?_append] at hlabeled
    obtain ⟨part, hpartAt, hrest⟩ := Option.bind_eq_some_iff.mp hlabeled
    exact ⟨part, hpartAt, (Stmt.holds_at hrest).labels.subset List.mem_cons_self⟩
  have hprefix : f.place ++ [hop] <+: ℓ.owner := by
    refine hreg _ (Stmt.mem_places hat) l htarget _ (Stmt.mem_places hpartAt) ?_ hin
    rw [Source.isPart_concat]
    exact isPart_of_phaseOf? hpart
  obtain ⟨g, hg, hplace, hphase⟩ := hfr.mem_part hpart hprefix
  have hgnode : g.node = f.node := by
    obtain ⟨σ', hsuf'⟩ := suffix_of_mem hg
    obtain ⟨-, -, _, _, _, _, htry'⟩ := hfr.of_suffix hsuf'
    rw [hplace, htry] at htry'
    exact (congrArg Stmt.id (Option.some.inj htry')).symm
  -- and its region is not left, since its statement holds the label
  have hgmem : g ∈ ℓ.frames := by
    rw [hsplit.eq] at hg
    rcases List.mem_append.mp hg with hg | hg
    · rw [hsc] at hsplit
      have hholds : l ∈ (Stmt.mk f.node tspan (.tryCatch b cs fin)).labels := by
        rw [Stmt.at?_concat htry] at hpartAt
        exact (Stmt.holds_child hpartAt).labels.subset hin
      exact absurd hholds (hsplit.notMem_labels hlabels hnd hfr hg (hplace ▸ htry))
    · exact hg
  have hregion := hbody.region_unique hnd hℓ hk hgmem hf hgnode
  rwa [Frame.ext hregion hgnode hphase hplace] at hgmem

/-- In a body with regular jumps every jump lands where no more is known than at the jump. -/
theorem BodyListing.lands_of_regular (hone : body.oneDefault = true) (hlabels : body.labels.Nodup)
    (hnd : body.tries.Nodup) (hsc : L.scopes = ⟨body.scoped none, body.tries⟩)
    (hn : ∀ l ∈ body.labels, isGenerated l = false) (hreg : body.Regular)
    (h : BodyListing L body ls) {ℓ : Line} (hℓ : ℓ ∈ ls) {l : String} (hg : ℓ.instr = .goto l) :
    Lands ls ℓ l := by
  have hscopes : L.scopes.labels.map Prod.fst = body.labels := by
    rw [hsc]
    exact Source.map_fst_scoped body none
  obtain ⟨ts, c', hl, -⟩ := h.laid hone hscopes
  rcases hl.target (ordered_nil _) hℓ hg with h' | h' | h'
  · exact h'
  · cases h' with
    | exit h' => cases h'
  · obtain ⟨i, hi, hlabel⟩ := List.mem_filterMap.mp (h.lands hone hscopes hℓ hg)
    obtain ⟨k, hk, rfl⟩ := List.mem_map.mp hi
    have hkl : k.instr = .label l := by
      cases hki : k.instr with
      | label l' =>
        rw [hki] at hlabel
        cases hlabel
        rfl
      | _ =>
        rw [hki] at hlabel
        cases hlabel
    obtain ⟨-, ρ', left, -, -, hsplit⟩ := id h'
    have hln : isGenerated l = false := hn l (hscopes ▸ hsplit.mem_scopes)
    obtain ⟨⟨id, span, s, hstands⟩, hraising⟩ := hl.stands_of_label hk hkl hln
    refine ⟨k, hk, hkl, fun f hf _ => h'.leads h hlabels hnd hsc hreg hℓ hk hstands f hf, ?_⟩
    rw [hraising]
    exact nofun

end Unwind.Lowering
