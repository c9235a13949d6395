import Unwind.Proofs.Modes.Stages

/-!
# Jumps in two modes

With exceptions a jump runs the finally blocks of the `try` statements that it leaves; without them
it does not. So the modes can agree only on jumps that leave no `try` part with a finally block. A
jump into a finally block from outside would bring back what was never put aside, and a label in a
catch clause is gone when the clauses are. `Stmt.JumpsEvenly` excludes these three.

Under this condition a jump is related in both modes (`goto_twin`): what it leaves are regions
without finally block, which it leaves through their ends.
-/

namespace Unwind.Source

/-- The hop leads into a catch clause. -/
def Hop.isCatch : Hop → Bool
  | catchBody _ => true
  | _ => false

/-- A jump from `π` to the label neither goes into a catch clause or the finally block of the
statement, which stands at `τ`, nor out of its `try` part past its finally block. -/
def Stmt.Spared (s : Stmt) (τ π : Path) (label : String) : Prop :=
  match s.kind with
  | .tryCatch b catches finalizer =>
    label ∉ labelsInCatches catches ∧
      ∀ f ∈ finalizer, (label ∈ f.labels → τ ++ [.finalizer] <+: π) ∧
        (τ ++ [.tryBody] <+: π → label ∈ b.labels)
  | _ => True

instance (s : Stmt) (τ π : Path) (label : String) : Decidable (s.Spared τ π label) := by
  unfold Stmt.Spared
  split <;> infer_instance

/-- Every jump outside of catch clauses spares all `try` statements. -/
def Stmt.JumpsEvenly (body : Stmt) : Prop :=
  ∀ p ∈ body.places, ∀ l ∈ p.2.target?, p.1.any Hop.isCatch = false →
    ∀ q ∈ body.places, q.2.Spared q.1 p.1 l

instance (body : Stmt) : Decidable body.JumpsEvenly := by
  unfold Stmt.JumpsEvenly
  infer_instance

end Unwind.Source

namespace Unwind.Lowering

open Source (Hop Path Stmt)

theorem tryBody_of_phaseOf? {hop : Hop} (h : phaseOf? hop = some .inTry) : hop = .tryBody := by
  cases hop <;> cases h
  rfl

/-- A place that no catch clause is around. -/
theorem Framed.any_isCatch {body : Stmt} {π : Path} {ρ : List Frame} (h : Framed body π ρ)
    (hρ : ∀ f ∈ ρ, f.phase ≠ .inCatch) : π.any Hop.isCatch = false := by
  induction h with
  | nil => rfl
  | @inner π hop ρ hp _ ih =>
    have hhop : hop.isCatch = false := by
      cases hop with
      | catchBody => cases hp
      | _ => rfl
    rw [List.any_append, ih hρ, List.any_cons, hhop]
    rfl
  | @part π hop ρ region id phase span b cs fin hp _ _ ih =>
    have hhop : hop.isCatch = false := by
      cases hop with
      | catchBody =>
        cases hp
        exact absurd rfl (hρ _ List.mem_cons_self)
      | _ => rfl
    rw [List.any_append, ih fun f hf => hρ f (List.mem_cons_of_mem _ hf), List.any_cons, hhop]
    rfl

theorem Counters.escapes_le_escape (c : Counters) (r r' : Nat) :
    c.escapes r ≤ (c.escape r').escapes r := by
  by_cases h : r = r'
  · rw [h, escapes_escape_self]
    exact Nat.le_succ _
  · rw [escapes_escape_of_ne h]

theorem Counters.escapes_le_escapeAll (left : List Frame) (c : Counters) (r : Nat) :
    c.escapes r ≤ (c.escapeAll left).escapes r := by
  induction left generalizing c with
  | nil => exact Nat.le_refl _
  | cons f left ih => exact Nat.le_trans (c.escapes_le_escape r f.region) (ih _)

end Unwind.Lowering

namespace Unwind.Modes

open Lowering
open Machine (Instr flatten isGenerated)
open Source (CatchClause Path Stmt)

/-- What is asked of a body as a whole: no label and no `try` statement occurs twice, no label looks
generated, and the jumps are even. -/
structure Setting (body : Stmt) : Prop where
  labels : body.labels.Nodup
  tries : body.tries.Nodup
  named : ∀ l ∈ body.labels, isGenerated l = false
  even : body.JumpsEvenly

section

variable {body : Stmt} {π τ : Path} {ρ left kept : List Frame} {W : Stage} {ns : List Nook}
  {label : String} {id : UInt32} {span : Span}

/-- A jump spares every `try` statement. -/
theorem Setting.spared (hset : Setting body) (hgoto : Stands body π ρ ⟨id, span, .goto label⟩)
    (hρ : ∀ f ∈ ρ, f.phase ≠ .inCatch) {id' : UInt32} {span' : Span} {b : Stmt}
    {cs : List CatchClause} {fin : Option Stmt}
    (htry : body.at? τ = some ⟨id', span', .tryCatch b cs fin⟩) :
    label ∉ Source.labelsInCatches cs ∧ ∀ f ∈ fin, (label ∈ f.labels → τ ++ [.finalizer] <+: π) ∧
      (τ ++ [.tryBody] <+: π → label ∈ b.labels) :=
  hset.even (π, _) (Stmt.mem_places hgoto.1) label rfl (hgoto.2.any_isCatch hρ) (τ, _)
    (Stmt.mem_places htry)

/-- The finally blocks around the label of a jump are around the jump. -/
theorem Setting.home_subset (hset : Setting body)
    (hgoto : Stands body π ρ ⟨id, span, .goto label⟩) (hρ : ∀ f ∈ ρ, f.phase ≠ .inCatch)
    {nodes : List UInt32} (hhome : (plan body W).home label nodes) : nodes ⊆ finalNodes ρ := by
  obtain ⟨σ, ρ', id', span', s, hlabel, rfl⟩ := hhome
  intro node hnode
  obtain ⟨f', hf', rfl⟩ := List.mem_map.mp hnode
  rw [List.mem_filter, beq_iff_eq] at hf'
  obtain ⟨ρ'', hsuf⟩ := suffix_of_mem hf'.1
  obtain ⟨-, ⟨hop, hpart, hpre⟩, spanf, b, cs, fin, hat⟩ := hlabel.2.of_suffix hsuf
  rw [hf'.2] at hpart
  obtain rfl := finalizer_of_phaseOf? hpart
  -- the label stands in the finally block, so the jump does
  obtain ⟨σ', rfl⟩ := hpre
  have hl := hlabel.1
  rw [Stmt.at?_append] at hl
  obtain ⟨part, hpart, hl⟩ := Option.bind_eq_some_iff.mp hl
  obtain rfl : fin = some part := (Stmt.at?_concat hat .finalizer).symm.trans hpart
  have hmem : label ∈ part.labels := (Stmt.holds_at hl).labels.subset List.mem_cons_self
  obtain ⟨f, hf, hplace, hphase⟩ :=
    hgoto.2.mem_part rfl (((hset.spared hgoto hρ hat).2 _ rfl).1 hmem)
  refine List.mem_map.mpr ⟨f, List.mem_filter.mpr ⟨hf, beq_iff_eq.mpr hphase⟩, ?_⟩
  obtain ⟨ρ₁, hsuf₁⟩ := suffix_of_mem hf
  obtain ⟨-, -, span₁, b₁, cs₁, fin₁, hat₁⟩ := hgoto.2.of_suffix hsuf₁
  rw [hplace, hat] at hat₁
  exact (congrArg Stmt.id (Option.some.inj hat₁)).symm

/-- Control is in the `try` part of a region, without finally block or with one. -/
theorem Nests.bare_or_guarded {escapes : Nat → Nat} (h : Nests body escapes ρ ns) {f : Frame}
    (hf : f ∈ ρ) (hphase : f.phase ≠ .inFinally) :
    f.phase = .inTry ∧ ((∃ jumps, .bare f.region jumps ∈ ns ∧ escapes f.region ≤ jumps) ∨
      ∃ id span b cs fin, body.at? f.place = some ⟨id, span, .tryCatch b cs (some fin)⟩) := by
  induction h with
  | nil => cases hf
  | bare hin hj _ ih =>
    rcases List.mem_cons.mp hf with rfl | hf
    · exact ⟨hin, .inl ⟨_, List.mem_cons_self, hj⟩⟩
    · refine (ih hf).imp_right (Or.imp_left ?_)
      exact fun ⟨jumps, hmem, hj⟩ => ⟨jumps, List.mem_cons_of_mem _ hmem, hj⟩
  | guarded hin hat _ ih =>
    rcases List.mem_cons.mp hf with rfl | hf
    · exact ⟨hin, .inr ⟨_, _, _, _, _, hat⟩⟩
    · refine (ih hf).imp_right (Or.imp_left ?_)
      exact fun ⟨jumps, hmem, hj⟩ => ⟨jumps, List.mem_cons_of_mem _ hmem, hj⟩
  | final hin _ ih =>
    rcases List.mem_cons.mp hf with rfl | hf
    · exact absurd hin hphase
    · refine (ih hf).imp_right (Or.imp_left ?_)
      exact fun ⟨jumps, hmem, hj⟩ => ⟨jumps, List.mem_cons_of_mem _ hmem, hj⟩

/-- The regions that a jump leaves have no finally block. -/
theorem Setting.bare_of_left (hset : Setting body)
    (hgoto : Stands body π ρ ⟨id, span, .goto label⟩) (hρ : ∀ f ∈ ρ, f.phase ≠ .inCatch)
    (hs : Splits (scopesOf body) label ρ left kept) {escapes : Nat → Nat}
    (hns : Nests body escapes ρ ns) {f : Frame} (hf : f ∈ left) :
    ∃ jumps, .bare f.region jumps ∈ ns ∧ escapes f.region ≤ jumps := by
  have hmem : f ∈ ρ := hs.eq ▸ List.mem_append_left _ hf
  obtain ⟨hphase, hbare | ⟨id', span', b, cs, fin, hat⟩⟩ :=
    hns.bare_or_guarded hmem (hs.leaving f hf)
  · exact hbare
  · obtain ⟨ρ', hsuf⟩ := suffix_of_mem hmem
    obtain ⟨-, ⟨hop, hpart, hpre⟩, -⟩ := hgoto.2.of_suffix hsuf
    rw [hphase] at hpart
    rw [tryBody_of_phaseOf? hpart] at hpre
    have hl := ((hset.spared hgoto hρ hat).2 fin rfl).2 hpre
    have hnot := hs.notMem_labels hset.labels hset.tries hgoto.2 hf hat
    exact absurd (List.mem_append_left _ hl) hnot

/-- The way out of regions without finally block. -/
theorem escape_escapeLines {c : Counters}
    (h : ∀ f ∈ left, ∃ jumps, .bare f.region jumps ∈ ns ∧
      (c.escapeAll left).escapes f.region ≤ jumps) :
    Escape ns (instrs (escapeLines π kept left c)) := by
  induction left generalizing c with
  | nil => exact .nil
  | cons f left ih =>
    obtain ⟨jumps, hmem, hle⟩ := h f List.mem_cons_self
    have hlt : c.escapes f.region < jumps := by
      have hself := c.escapes_escape_self f.region
      have hmono := Counters.escapes_le_escapeAll left (c.escape f.region) f.region
      have htotal : ((c.escape f.region).escapeAll left).escapes f.region ≤ jumps := hle
      omega
    have hrest := ih fun g hg => h g (List.mem_cons_of_mem _ hg)
    simp only [escapeLines, instrs_append, instrs_own, List.cons_append, List.nil_append]
    exact .cons hmem hlt hrest

/-- A jump in both modes. -/
theorem goto_twin {env : Env} (hset : Setting body)
    (hgoto : Stands body π ρ ⟨id, span, .goto label⟩) (hρ : ∀ f ∈ ρ, f.phase ≠ .inCatch) :
    Twin body ρ W [] (lowerGoto (env.withMode 1) label span) (lowerGoto (env.withMode 0) label span)
      fun _ _ _ => True := by
  refine ⟨fun {s s' t t' u u'} hj hx hy => ?_⟩
  have hkept := hj.joint.kept (keeps_lowerGoto.kept hx) (keeps_lowerGoto.kept hy)
  simp only [lowerGoto, runs_bind, runs_context, runs_lift] at hx hy
  obtain ⟨_, s₁, ⟨rfl, rfl⟩, keep, s₂, ⟨hkeep, rfl⟩, _, s₃, h₃, h₄⟩ := hx
  obtain ⟨_, t₁, ⟨rfl, rfl⟩, keep', t₂, ⟨-, rfl⟩, _, t₃, h₃', h₄'⟩ := hy
  -- with exceptions, the jump leaves regions
  let L : Layout := ⟨env.withMode 1, scopesOf body, fun _ => True⟩
  have hr : Ready L ρ s₂.counters s₂ := hj.ready rfl
  have hst : s₂.stack.take (s₂.depth - keep) = (ρ.take (ρ.length - keep)).map Frame.entry := by
    rw [Context.depth, hr.view.stack, List.length_map, List.map_take]
  rw [hst] at h₃
  obtain ⟨⟨cs, hcs, hf⟩, hr₃, hleft⟩ := escape_adds π (ρ.drop (ρ.length - keep)) _ hr
    (fun f hf => List.mem_of_mem_take hf) h₃
  have hs := splits_of_sharedDepth (L := L) rfl hr.view hkeep hleft
  have hr₄ := hr₃.emits (emits_emit h₄)
  -- without exceptions, it is only a jump
  have hstack : t₂.stack = [] := hj.flat.stack
  rw [hstack, List.take_nil, escape, runs_pure] at h₃'
  rw [runs_emit] at h₄ h₄'
  rw [h₃'.2] at h₄'
  let left := ρ.take (ρ.length - keep)
  refine ⟨{ W with escapes := (s₂.counters.escapeAll left).escapes }, cs ++ [Ir.Cmd.goto label],
    [.goto label], .withEscapes fun r => ?_, ⟨hkept, hr₄.view, ?_, hr₄.escapes.symm⟩, ?_, ?_, ?_,
    trivial⟩
  · rw [← hj.escapes]
    exact Counters.escapes_le_escapeAll left _ r
  · rw [h₄']
    exact hj.flat.withCmds _
  · rw [h₄, hcs, List.append_assoc]
  · rw [h₄']
  · intro W' hle ns hns ks ks' hrest
    rw [Machine.flatten_append, hf, Machine.flatten_singleton, List.append_assoc]
    have hmem : label ∈ body.labels := by
      have hin : ∃ e, (scopesOf body).innermostTry? label = some e := by
        rcases hs.kept with ⟨hin, -⟩ | ⟨f, rest, -, hin, -⟩
        · exact ⟨_, hin⟩
        · exact ⟨_, hin⟩
      obtain ⟨e, hin⟩ := hin
      exact Source.mem_labels_of_scoped (LabelScopes.mem_of_innermostTry? hin)
    refine .goto (escape_escapeLines ?_) (hset.named label hmem) ?_ (fun nodes hhome => ?_) hrest
    · exact fun f hf => hset.bare_of_left hgoto hρ hs hns hf
    · rintro ⟨τ, id', span', b, cs', fin, hat, hdead⟩
      exact (hset.spared hgoto hρ hat).1 hdead
    · rw [hns.finals_eq]
      exact hset.home_subset hgoto hρ hhome

end

end Unwind.Modes
