import Unwind.Proofs.Lowering.Labels

/-!
# Regions and jumps in the code of a body

Where a line lies in a region, the code of the region can be found around it
(`Laid.region_of_frame`), with the code of its finally block and the tests that resume the jumps out
of it.
-/

namespace Unwind.Lowering

open Source (CatchClause Path Stmt)
open Machine (Instr flatten)

variable {L : Layout} {body : Stmt} {π : Path} {ρ : List Frame} {c c' : Counters} {ls : List Line}

/-! ## Frames and owners of lines -/

theorem Leaf.mem {ℓ : Line} (h : Leaf L π ρ ls) (hℓ : ℓ ∈ ls) : ℓ.frames = ρ ∧ ℓ.owner = π := by
  have hown : ∀ {is : List Instr}, ℓ ∈ own π ρ is → ℓ.frames = ρ ∧ ℓ.owner = π := by
    intro is hm
    obtain ⟨i, -, rfl⟩ := mem_own.mp hm
    exact ⟨rfl, rfl⟩
  induction h with
  | nil => cases hℓ
  | cons _ _ ih =>
    rcases List.mem_append.mp hℓ with hℓ | hℓ
    · exact hown hℓ
    · exact ih hℓ
  | check _ ih =>
    rw [List.mem_append, checkLines, mem_choice] at hℓ
    rcases hℓ with (rfl | hℓ | rfl | hℓ) | hℓ
    · exact ⟨rfl, rfl⟩
    · obtain ⟨i, -, rfl⟩ := mem_raise.mp hℓ
      exact ⟨rfl, rfl⟩
    · exact ⟨rfl, rfl⟩
    · cases hℓ
    · exact ih hℓ
  | branch _ _ _ iha ihb ih =>
    rw [List.mem_append, mem_choice] at hℓ
    rcases hℓ with (rfl | hℓ | rfl | hℓ) | hℓ
    · exact ⟨rfl, rfl⟩
    · exact iha hℓ
    · exact ⟨rfl, rfl⟩
    · exact ihb hℓ
    · exact ih hℓ

theorem mem_checkLines {env : Env} {ℓ : Line} (h : ℓ ∈ checkLines env π ρ) :
    ℓ.frames = ρ ∧ ℓ.owner = π := by
  rw [checkLines, mem_choice] at h
  rcases h with rfl | h | rfl | h
  · exact ⟨rfl, rfl⟩
  · obtain ⟨i, -, rfl⟩ := mem_raise.mp h
    exact ⟨rfl, rfl⟩
  · exact ⟨rfl, rfl⟩
  · cases h

theorem mem_raiseLines {env : Env} {v : Ir.Expr} {ℓ : Line} (h : ℓ ∈ raiseLines env π ρ v) :
    ℓ.frames = ρ ∧ ℓ.owner = π := by
  rcases List.mem_append.mp h with h | h
  · obtain ⟨i, -, rfl⟩ := mem_own.mp h
    exact ⟨rfl, rfl⟩
  · obtain ⟨i, -, rfl⟩ := mem_raise.mp h
    exact ⟨rfl, rfl⟩

theorem mem_escapeLines {kept left : List Frame} {c₁ : Counters} {ℓ : Line}
    (h : ℓ ∈ escapeLines π kept left c₁) : ℓ.frames <:+ left ++ kept ∧ ℓ.owner = π := by
  induction left generalizing c₁ with
  | nil => cases h
  | cons f left ih =>
    rw [escapeLines, List.mem_append, List.mem_append] at h
    rcases h with h | h | h
    · obtain ⟨i, -, rfl⟩ := mem_own.mp h
      exact ⟨List.suffix_refl _, rfl⟩
    · obtain ⟨i, -, rfl⟩ := mem_own.mp h
      exact ⟨List.suffix_cons _ _, rfl⟩
    · obtain ⟨hs, ho⟩ := ih h
      exact ⟨hs.trans (List.suffix_cons _ _), ho⟩

/-! ## Regions -/

/-- The code of a finally block, if there is one: around the code of its statement, what is under
way is kept in two variables that are in use from there on. -/
inductive FinallyCode (L : Layout) (body : Stmt) (π : Path) (ρ : List Frame) :
    Option Stmt → List Line → Prop where
  | none : FinallyCode L body π ρ none []
  | some {s : Stmt} {n : Nat} {fs : List Line} {c c' : Counters} {vs : List Tag} :
      Laid L body ρ c fs vs c' → Ordered ρ c → n + 1 < c.temps → Counts vs s.labels →
      Listing L (.stmt s) (π ++ [.finalizer]) ρ c fs c' →
      FinallyCode L body π ρ (some s) (finallyLines π ρ n fs)

/-- The region of the frame `f`, between the frames `ρ`, is part of the code. -/
def RegionIn (L : Layout) (body : Stmt) (ls : List Line) (f : Frame) (ρ : List Frame)
    (jumps : Nat) : Prop :=
  ∃ span b cs fin bs as gs, body.at? f.place = some ⟨f.node, span, .tryCatch b cs fin⟩ ∧
    Framed body f.place ρ ∧
    FinallyCode L body f.place (⟨f.region, f.node, .inFinally, f.place⟩ :: ρ) fin gs ∧
    regionLines L.env f.place ρ f.region f.node bs as gs jumps <:+: ls

theorem RegionIn.mono {f : Frame} {jumps : Nat} {ks : List Line} (h : RegionIn L body ks f ρ jumps)
    (hs : ks <:+: ls) : RegionIn L body ls f ρ jumps := by
  obtain ⟨span, b, cs, fin, bs, as, gs, hat, hfr, hfin, hin⟩ := h
  exact ⟨span, b, cs, fin, bs, as, gs, hat, hfr, hfin, hin.trans hs⟩

theorem infix_behind {as bs ks : List Line} (h : ks <:+: bs) : ks <:+: as ++ bs :=
  h.trans (List.suffix_append _ _).isInfix

theorem infix_choice_left {v : Ir.Expr} (as bs : List Line) : as <:+: choice π ρ v as bs :=
  infix_behind (List.prefix_append _ _).isInfix

theorem infix_choice_right {v : Ir.Expr} (as bs : List Line) : bs <:+: choice π ρ v as bs :=
  infix_behind (infix_behind (infix_behind (List.infix_refl _)))

section

variable {env : Env} {r jumps : Nat} {node : UInt32} {bs as gs : List Line}

theorem infix_regionLines_body : bs <:+: regionLines env π ρ r node bs as gs jumps :=
  (List.prefix_append _ _).isInfix

theorem infix_regionLines_arms : as <:+: regionLines env π ρ r node bs as gs jumps :=
  infix_behind (infix_behind (infix_behind (List.prefix_append _ _).isInfix))

theorem infix_regionLines_final : gs <:+: regionLines env π ρ r node bs as gs jumps := by
  refine infix_behind (infix_behind (infix_behind (infix_behind (infix_behind (infix_behind ?_)))))
  exact (List.prefix_append _ _).isInfix

theorem Guard.isInfix {t t' : Nat} {fin : Option Stmt} {fs : List Line}
    (h : Guard π ρ t fin t' fs gs) : fs <:+: gs := by
  cases h with
  | none => exact List.infix_refl _
  | some => exact infix_behind (List.prefix_append _ _).isInfix

end

/-! ## The frames around a line -/

/-- The frame, between the frames `ρ'`, is one of those around the code, or its region is part of the
code. -/
def FrameOf (L : Layout) (body : Stmt) (ρ : List Frame) (c : Counters) (ls : List Line)
    (c' : Counters) (f : Frame) (ρ' : List Frame) : Prop :=
  f :: ρ' <:+ ρ ∨ (RegionIn L body ls f ρ' (c'.escapes f.region) ∧ f.region < c'.regions) ∧
    c.regions ≤ f.region

section

variable {ρ' ρ'' : List Frame} {c₁ c₂ : Counters} {as : List Line} {us : List Tag} {f : Frame}

/-- More code is laid behind the counters; it changes nothing in the regions before. -/
theorem FrameOf.first (h : FrameOf L body ρ c as c₁ f ρ') (hb : Laid L body ρ'' c₁ ls us c₂)
    (hρ : ∀ g ∈ ρ'', g.region < c.regions) : FrameOf L body ρ c as c₂ f ρ' := by
  refine h.imp_right fun ⟨⟨hin, hlt⟩, hle⟩ => ⟨?_, hle⟩
  have hne : ∀ g ∈ ρ'', g.region ≠ f.region := by
    intro g hg
    have := hρ g hg
    omega
  rw [hb.escapes_eq hlt hne]
  exact ⟨hin, Nat.lt_of_lt_of_le hlt hb.regions_le⟩

/-- Code is laid in front of the counters. -/
theorem FrameOf.second (h : FrameOf L body ρ c₁ as c₂ f ρ') (hle : c.regions ≤ c₁.regions) :
    FrameOf L body ρ c as c₂ f ρ' :=
  h.imp_right fun ⟨hin, hle'⟩ => ⟨hin, Nat.le_trans hle hle'⟩

/-- The code is part of more code. -/
theorem FrameOf.mono (h : FrameOf L body ρ c as c₁ f ρ') (hs : as <:+: ls) :
    FrameOf L body ρ c ls c₁ f ρ' :=
  h.imp_right fun ⟨⟨hin, hlt⟩, hle⟩ => ⟨⟨hin.mono hs, hlt⟩, hle⟩

/-- The code of a region: the frame that it adds is its own. -/
theorem FrameOf.region {id : UInt32} {phase : Phase}
    (hthis : ∀ phase, RegionIn L body ls ⟨c.regions, id, phase, π⟩ ρ (c'.escapes c.regions))
    (hlt : c.regions < c'.regions) (hle : c.regions ≤ c₁.regions)
    (h : FrameOf L body (⟨c.regions, id, phase, π⟩ :: ρ) c₁ ls c' f ρ') :
    FrameOf L body ρ c ls c' f ρ' := by
  rcases h with hs | hin
  · rcases List.suffix_cons_iff.mp hs with heq | hs
    · obtain ⟨rfl, rfl⟩ := List.cons.inj heq
      exact .inr ⟨⟨hthis phase, hlt⟩, Nat.le_refl _⟩
    · exact .inl hs
  · exact FrameOf.second (.inr hin) hle

end

/-- A line of a region is in one of its three parts, or it belongs to the `try` statement itself,
between the frames of the region or around it. -/
theorem part_or_own_of_mem_regionLines {env : Env} {r jumps : Nat} {node : UInt32}
    {bs as gs : List Line} {ℓ : Line} (h : ℓ ∈ regionLines env π ρ r node bs as gs jumps) :
    (ℓ ∈ bs ∨ ℓ ∈ as ∨ ℓ ∈ gs) ∨
      ℓ.owner = π ∧ (ℓ.frames = ρ ∨ ∃ phase, ℓ.frames = ⟨r, node, phase, π⟩ :: ρ) := by
  have hown : ∀ {ρ' : List Frame} {is : List Instr}, ℓ ∈ own π ρ' is →
      ℓ.owner = π ∧ ℓ.frames = ρ' := by
    intro ρ' is hm
    obtain ⟨i, -, rfl⟩ := mem_own.mp hm
    exact ⟨rfl, rfl⟩
  rcases mem_regionLines.mp h with h | h | h | h | h | h | h | h | h | h
  · exact .inl (.inl h)
  · exact .inr ((hown h).imp_right fun h => .inr ⟨_, h⟩)
  · rcases List.mem_append.mp h with h | h
    · obtain ⟨i, -, rfl⟩ := mem_raise.mp h
      exact .inr ⟨rfl, .inl rfl⟩
    · exact .inr ((hown h).imp_right fun h => .inr ⟨_, h⟩)
  · exact .inl (.inr (.inl h))
  · obtain ⟨hframes, howner⟩ := mem_raiseLines h
    exact .inr ⟨howner, .inr ⟨_, hframes⟩⟩
  · exact .inr ((hown h).imp_right .inl)
  · exact .inl (.inr (.inr h))
  · exact .inr ((hown h).imp_right .inl)
  · exact .inr ((hown h).imp_right .inl)
  · obtain ⟨hframes, howner⟩ := mem_checkLines h
    exact .inr ⟨howner, .inl hframes⟩

/-- A line between a frame and some others lies in the region of the frame. The region is part of
the code unless the frame was around the code already. -/
theorem Laid.region_of_frame {ts : List Tag} (h : Laid L body ρ c ls ts c') (ho : Ordered ρ c)
    {ℓ : Line} (hℓ : ℓ ∈ ls) {f : Frame} {ρ' : List Frame} (hf : f :: ρ' <:+ ℓ.frames) :
    FrameOf L body ρ c ls c' f ρ' := by
  induction h with
  | nil => cases hℓ
  | leaf _ hl =>
    rw [(hl.mem hℓ).1] at hf
    exact .inl hf
  | seq ha hb iha ihb =>
    rcases List.mem_append.mp hℓ with hℓ | hℓ
    · exact ((iha ho hℓ).first hb ho.lt).mono (List.prefix_append _ _).isInfix
    · exact ((ihb (ho.mono ha.regions_le) hℓ).second ha.regions_le).mono
        (List.suffix_append _ _).isInfix
  | choice _ ha hb iha ihb =>
    rcases mem_choice.mp hℓ with rfl | hℓ | rfl | hℓ
    · exact .inl hf
    · exact ((iha ho hℓ).first hb ho.lt).mono (infix_choice_left _ _)
    · exact .inl hf
    · exact ((ihb (ho.mono ha.regions_le) hℓ).second ha.regions_le).mono (infix_choice_right _ _)
  | choiceBack _ hb ha ihb iha =>
    rcases mem_choice.mp hℓ with rfl | hℓ | rfl | hℓ
    · exact .inl hf
    · exact ((iha (ho.mono hb.regions_le) hℓ).second hb.regions_le).mono (infix_choice_left _ _)
    · exact .inl hf
    · exact ((ihb ho hℓ).first ha ho.lt).mono (infix_choice_right _ _)
  | mark =>
    obtain ⟨i, -, rfl⟩ := mem_own.mp hℓ
    exact .inl hf
  | jump _ _ hms _ hs =>
    rw [List.mem_append, List.mem_append] at hℓ
    rcases hℓ with hℓ | hℓ | hℓ
    · rw [(hms.mem hℓ).1] at hf
      exact .inl hf
    · rw [hs.eq]
      exact .inl (hf.trans (mem_escapeLines hℓ).1)
    · obtain ⟨i, -, rfl⟩ := mem_own.mp hℓ
      rw [hs.eq]
      exact .inl (hf.trans (List.suffix_append _ _))
  | leave =>
    obtain ⟨i, -, rfl⟩ := mem_own.mp hℓ
    exact .inl hf
  | raise =>
    rw [(mem_raiseLines hℓ).1] at hf
    exact .inl hf
  | @region id span b cs fin π ρ c c₁ c₂ c₃ t bs as fs gs ts us vs hat hfr hfresh hb ha hfl hgd hfin
      ihb iha ihf =>
    obtain ⟨hob, hoa, hof⟩ := ho.region hb ha
    have h₁ := hb.regions_le
    have h₂ := ha.regions_le
    have h₃ := hfl.regions_le
    simp only at h₁ h₃
    have hcode : FinallyCode L body π (⟨c.regions, id, .inFinally, π⟩ :: ρ) fin gs := by
      cases hgd with
      | none => exact .none
      | some hn =>
        obtain ⟨hcounts, hlist⟩ := hfin _ rfl
        exact .some hfl (hof _) (by simp only; omega) hcounts hlist
    have hthis : ∀ phase, RegionIn L body
        (regionLines L.env π ρ c.regions id bs as gs (c₃.escapes c.regions))
        ⟨c.regions, id, phase, π⟩ ρ (c₃.escapes c.regions) :=
      fun _ => ⟨span, b, cs, fin, bs, as, gs, hat, hfr, hcode, List.infix_refl _⟩
    have hlt : c.regions < c₃.regions := by omega
    have hbelow : ∀ {phase : Phase}, ∀ g ∈ (⟨c.regions, id, phase, π⟩ :: ρ : List Frame),
        g.region < c.regions + 1 := by
      intro phase
      have hcons : Ordered (⟨c.regions, id, phase, π⟩ :: ρ) { c with regions := c.regions + 1 } :=
        ho.cons rfl (Nat.lt_succ_self _)
      exact hcons.lt
    rcases part_or_own_of_mem_regionLines hℓ with
      (hℓ | hℓ | hℓ) | ⟨-, hframes | ⟨phase, hframes⟩⟩
    · have hbody := (ihb hob hℓ).first ha hbelow
      have hpart : FrameOf L body _ _ bs { c₂ with temps := t } f ρ' := hbody
      exact .region hthis hlt (Nat.le_succ _)
        ((hpart.first hfl hbelow).mono infix_regionLines_body)
    · have hpart : FrameOf L body _ _ as { c₂ with temps := t } f ρ' := iha hoa hℓ
      exact .region hthis hlt (by omega)
        ((hpart.first hfl fun g hg => Nat.lt_of_lt_of_le (hbelow g hg) h₁).mono
          infix_regionLines_arms)
    · rcases hgd.mem hℓ with hm | ⟨x, e, rfl⟩
      · have hpart := (ihf (hof _) hm).mono hgd.isInfix
        exact .region hthis hlt (by simp only; omega) (hpart.mono infix_regionLines_final)
      · exact .region hthis hlt (Nat.le_refl _) (.inl hf)
    · exact .inl (hframes ▸ hf)
    · exact .region hthis hlt (Nat.le_refl _) (.inl (hframes ▸ hf))

end Unwind.Lowering
