import Unwind.Proofs.JumpTargets
import Unwind.Proofs.Lowering.Sites

/-!
# Jumps from inside a finally block

A jump must not leave a finally block: what is pending there would be lost. The lowering finds out
which regions a jump leaves by the innermost `try` statement around its label, whichever part of
that statement the label is in. So it rejects every jump to a label outside the `try` statement of
the finally block, and to a label in a further `try` statement of another part; what it lets pass
besides jumps inside the finally block are jumps to labels that stand directly in the `try` part or
in a catch clause.
-/

namespace Unwind.Lowering

open Source (CatchClause Hop MethodDef Path Stmt TypeDef)

variable {L : Layout} {body : Stmt} {π τ : Path} {ρ left kept : List Frame} {label : String}

/-- A jump keeps the frames of all finally blocks around it. The first frame that it keeps is the
one of the innermost `try` statement around the label: it is the frame of a finally block itself, or
it stands in the block. -/
theorem Splits.label_of_finally (hnd : body.tries.Nodup) (hfr : Framed body π ρ)
    {tries : List UInt32} (h : Splits ⟨body.scoped none, tries⟩ label ρ left kept) {id : UInt32}
    {span : Span} {b fin : Stmt} {cs : List CatchClause}
    (htry : body.at? τ = some ⟨id, span, .tryCatch b cs (some fin)⟩)
    (hin : τ ++ [.finalizer] <+: π) :
    label ∈ fin.labels ∨
      LabelScopes.innermostTry? ⟨body.scoped none, tries⟩ label = some (some id) := by
  obtain ⟨f, hf, hplace, hphase⟩ := hfr.mem_part rfl hin
  have hkept : f ∈ kept := by
    rw [h.eq] at hf
    rcases List.mem_append.mp hf with hf | hf
    · exact absurd hphase (h.leaving f hf)
    · exact hf
  cases kept with
  | nil => cases hkept
  | cons g rest =>
    have hsuf : g :: rest <:+ ρ := h.eq ▸ List.suffix_append _ _
    obtain ⟨hfr', -, spang, bg, csg, fing, hg⟩ := hfr.of_suffix hsuf
    rcases List.mem_cons.mp hkept with rfl | hrest
    · right
      rcases h.kept with ⟨-, hnil⟩ | ⟨g', rest', heq, hinner, -⟩
      · cases hnil
      · obtain ⟨rfl, rfl⟩ := List.cons.inj heq
        rw [hplace, htry] at hg
        cases hg
        exact hinner
    · -- the frame of the label is further in, so the finally block holds its statement
      left
      obtain ⟨ρ'', hsuf'⟩ := suffix_of_mem hrest
      obtain ⟨-, ⟨hop, hpart, hpre⟩, -⟩ := hfr'.of_suffix hsuf'
      rw [hphase] at hpart
      rw [finalizer_of_phaseOf? hpart, hplace] at hpre
      have hfin : body.at? (τ ++ [Hop.finalizer]) = some fin := Stmt.at?_concat htry _
      obtain ⟨σ, -, hσ⟩ := Stmt.at?_of_prefix hfin hg hpre
      exact (Stmt.holds_at hσ).labels.subset (h.mem_labels hnd hfr hg)

/-- In a lowered method that models exceptions, a `goto` statement in the finally block of a `try`
statement (not in a default case that gives way to a later one) jumps to a label of the same `try`
statement: to one of the finally block, or to one that stands in no `try` statement further in. -/
theorem lowerMethod_goto_in_finally {env : Env} {owner : TypeDef} {m : MethodDef}
    {p : Ir.Procedure} {shared shared' : Shared} (hm : env.options.modelExceptions ≠ 0)
    (h : (lowerMethod env owner m).run shared = (.ok p, shared')) (hbody : m.body = some body)
    {id : UInt32} {span : Span} {b fin : Stmt} {cs : List CatchClause}
    (htry : body.at? τ = some ⟨id, span, .tryCatch b cs (some fin)⟩) {goto : Stmt}
    (hgoto : body.at? π = some goto) (htarget : goto.target? = some label)
    (hlow : body.lowers π = true) (hin : τ ++ [.finalizer] <+: π) :
    label ∈ (Stmt.mk id span (.tryCatch b cs (some fin))).labels ∧
      (label ∈ fin.labels ∨ ∃ scopes, LabelScopes.collect body = .ok scopes ∧
        scopes.innermostTry? label = some (some id)) := by
  have hm' : env.options.modelsExceptions = true := bne_iff_ne.mpr hm
  obtain ⟨scopes, hsc, hlist⟩ := lowerMethod_listed hm' hbody h
  obtain ⟨lines, hlines, -⟩ := hlist (fun _ => True) (fun _ _ => trivial)
  obtain ⟨⟨-, hnd⟩, rfl⟩ := LabelScopes.collect_eq_ok.mp hsc
  obtain ⟨ρ, hfr, c, ls, c', hl, -⟩ := hlines.at hgoto hlow
  obtain ⟨_, _, _, -, hs, -⟩ := hl.goto_inv htarget
  have hor := hs.label_of_finally hnd hfr htry hin
  constructor
  · rcases hor with hfin | hinner
    · have hfin' : body.at? (τ ++ [Hop.finalizer]) = some fin := Stmt.at?_concat htry _
      obtain ⟨σ, -, hσ⟩ := Stmt.at?_of_prefix htry hfin' (List.prefix_append _ _)
      exact (Stmt.holds_at hσ).labels.subset hfin
    · exact Source.mem_labels_of_innermost hnd htry (LabelScopes.mem_of_innermostTry? hinner)
  · exact hor.imp_right fun hinner => ⟨_, hsc, hinner⟩

/-- A finally block that jumps to its own end. -/
def skipBlock : Stmt := .block [.goto "end", .labeled "end" .empty]

def skipMethod : MethodDef where
  name := "skip"
  body := some ⟨7, {}, .tryCatch .empty [] (some skipBlock)⟩

theorem skipMethod_goto_in_finally :
    ∃ p shared', (lowerMethod {} ⟨⟨"T", none⟩, .classType, [], [], [], [], []⟩ skipMethod).run {} =
        (.ok p, shared') ∧
      "end" ∈ (Stmt.mk 7 {} (.tryCatch .empty [] (some skipBlock))).labels ∧
      ("end" ∈ skipBlock.labels ∨
        ∃ scopes, LabelScopes.collect ⟨7, {}, .tryCatch .empty [] (some skipBlock)⟩ = .ok scopes ∧
          scopes.innermostTry? "end" = some (some 7)) := by
  have hok : ((lowerMethod {} ⟨⟨"T", none⟩, .classType, [], [], [], [], []⟩ skipMethod).run
      {}).1.toBool = true := by decide +kernel
  obtain ⟨p, shared', h⟩ := exists_ok_of_toBool hok
  exact ⟨p, shared', h, lowerMethod_goto_in_finally (π := [.finalizer, .item 0]) (τ := [])
    (by decide) h rfl rfl rfl rfl rfl (by decide)⟩

/-- A method whose finally block jumps back into the `try` part. -/
def reenterMethod : MethodDef where
  name := "reenter"
  body := some (.ofKind (.tryCatch (.labeled "start" .empty) [] (some (.goto "start"))))

/-- A jump out of a finally block is let pass when its label stands in the `try` part of the same
statement. -/
theorem exists_lowered_goto_leaving_finally :
    ¬ ∀ (env : Env) (owner : TypeDef) (m : MethodDef) (body fin goto : Stmt) (τ π : Path)
      (label : String) (p : Ir.Procedure) (shared shared' : Shared),
      env.options.modelExceptions ≠ 0 →
      (lowerMethod env owner m).run shared = (.ok p, shared') → m.body = some body →
      body.at? (τ ++ [.finalizer]) = some fin → body.at? π = some goto →
      goto.target? = some label → τ ++ [.finalizer] <+: π → label ∈ fin.labels := by
  intro hall
  have hok : ((lowerMethod {} ⟨⟨"T", none⟩, .classType, [], [], [], [], []⟩ reenterMethod).run
      {}).1.toBool = true := by decide +kernel
  obtain ⟨p, shared', h⟩ := exists_ok_of_toBool hok
  have hlabel := hall _ _ _ _ _ _ [] [.finalizer] "start" p _ shared' (by decide) h rfl rfl rfl rfl
    (by decide)
  cases hlabel

end Unwind.Lowering
