import Mathlib.Data.List.Nodup
import Unwind.Proofs.Lowering.Labels
import Unwind.Proofs.Lowering.Sound
import Unwind.Proofs.Scopes

/-!
# Jump targets of a procedure

No label of a lowered procedure stands in two places, and every jump has a label to go to. Both are
read off the flattened body: flattening keeps labels and jumps.
-/

namespace Unwind.Ir

open Machine (Instr flatten flattenCmd labels)

/-- The label that a command puts in its place. -/
def Cmd.label? : Cmd → Option String
  | label l => some l
  | _ => none

/-- The labels of a procedure, wherever they are nested. -/
def Procedure.labels (p : Procedure) : List String := p.commands.filterMap Cmd.label?

mutual

theorem labels_flattenCmd (c : Cmd) : labels (flattenCmd c) = c.withNested.filterMap Cmd.label? := by
  cases c with
  | ifElse cond as bs =>
    rw [flattenCmd, Cmd.withNested, Machine.labels_cons, Machine.labels_append, Machine.labels_cons,
      labels_flatten as, labels_flatten bs, List.filterMap_cons, List.filterMap_append]
    rfl
  | call attrs =>
    cases attrs <;> rfl
  | _ => rfl

theorem labels_flatten (cs : List Cmd) : labels (flatten cs) = (Cmd.allNested cs).filterMap Cmd.label? := by
  cases cs with
  | nil => rfl
  | cons c cs =>
    rw [flatten, Cmd.allNested, Machine.labels_append, List.filterMap_append, labels_flattenCmd c,
      labels_flatten cs]

end

mutual

theorem goto_mem_flattenCmd (c : Cmd) (l : String) :
    .goto l ∈ flattenCmd c ↔ .goto l ∈ c.withNested := by
  cases c with
  | ifElse cond as bs =>
    simp [flattenCmd, Cmd.withNested, goto_mem_flatten as l, goto_mem_flatten bs l]
  | call attrs =>
    cases attrs <;> simp [flattenCmd, Cmd.withNested]
  | _ => simp [flattenCmd, Cmd.withNested]

theorem goto_mem_flatten (cs : List Cmd) (l : String) :
    .goto l ∈ flatten cs ↔ .goto l ∈ Cmd.allNested cs := by
  cases cs with
  | nil => simp [flatten, Cmd.allNested]
  | cons c cs =>
    rw [flatten, Cmd.allNested, List.mem_append, List.mem_append, goto_mem_flattenCmd c,
      goto_mem_flatten cs]

end

theorem Procedure.mem_labels {p : Procedure} {l : String} : l ∈ p.labels ↔ .label l ∈ p.commands := by
  unfold Procedure.labels
  rw [List.mem_filterMap]
  constructor
  · rintro ⟨c, hc, hl⟩
    cases c with
    | label l' =>
      cases hl
      exact hc
    | _ => cases hl
  · intro h
    exact ⟨_, h, rfl⟩

end Unwind.Ir

namespace Unwind.Lowering

open Source (MethodDef Path Stmt TypeDef)
open Machine (Instr flatten isGenerated labels)

variable {L : Layout} {body : Stmt} {lines : List Line}

theorem Splits.mem_scopes {sc : LabelScopes} {l : String} {ρ left kept : List Frame}
    (h : Splits sc l ρ left kept) : l ∈ sc.labels.map Prod.fst := by
  rw [← LabelScopes.innermostTry?_isSome]
  rcases h.kept with ⟨h, -⟩ | ⟨f, rest, -, h, -⟩ <;> simp [h]

/-- A body with code is no `goto` statement, which would have no label to jump to. -/
theorem BodyListing.gotoAt?_nil (hscopes : L.scopes.labels.map Prod.fst = body.labels)
    (h : BodyListing L body lines) : gotoAt? body [] = none := by
  obtain ⟨-, hls⟩ := h
  change body.target? = none
  cases htarget : body.target? with
  | none => rfl
  | some label =>
    obtain ⟨_, _, _, -, hs, -⟩ := hls.goto_inv htarget
    have hmem := hs.mem_scopes
    obtain ⟨id, span, kind⟩ := body
    cases kind with
    | goto l =>
      rw [hscopes] at hmem
      cases hmem
    | _ => cases htarget

/-- The code of a whole body, with its labels. -/
theorem BodyListing.laid (hone : body.oneDefault = true)
    (hscopes : L.scopes.labels.map Prod.fst = body.labels) (h : BodyListing L body lines) :
    ∃ ts c', Laid L body [] ⟨0, 0, fun _ => 0⟩ lines ts c' ∧ Counts ts body.labels := by
  have hg := h.gotoAt?_nil hscopes
  obtain ⟨hms, hls⟩ := h
  obtain ⟨ts, hl, ht⟩ := hls.shaped hone ⟨rfl, .nil⟩
  exact ⟨[] ++ ts, _, .seq (.leaf hg hms.1) hl, ht⟩

theorem ordered_nil (c : Counters) : Ordered [] c := ⟨.nil, by simp⟩

/-- The labels of a body with proper source labels have proper origins. -/
theorem Counts.proper {ts : List Tag} {names : List String} (h : Counts ts names)
    (hn : ∀ l ∈ names, isGenerated l = false) : ∀ t ∈ ts, t.Proper := by
  intro t ht
  cases t with
  | source l =>
    refine hn l ?_
    rw [← List.count_pos_iff, ← h l, List.count_pos_iff]
    exact ht
  | _ => trivial

/-- No label stands in two places. -/
theorem BodyListing.nodup_labels (hone : body.oneDefault = true) (hnd : body.labels.Nodup)
    (hscopes : L.scopes.labels.map Prod.fst = body.labels)
    (hn : ∀ l ∈ body.labels, isGenerated l = false) (h : BodyListing L body lines) :
    (labelsOf lines).Nodup := by
  obtain ⟨ts, c', hl, ht⟩ := h.laid hone hscopes
  have hts : ts.Nodup := by
    rw [List.nodup_iff_count_le_one]
    intro t
    cases hs : t.isSource with
    | true =>
      cases t with
      | source l =>
        rw [ht l]
        exact List.nodup_iff_count_le_one.mp hnd l
      | _ => cases hs
    | false =>
      have hc := hl.count_tags hs
      have := Bool.toNat_le (c'.has t)
      omega
  have hmap : (ts.map Tag.name).Nodup := by
    refine List.Nodup.map_on ?_ hts
    intro t ht₁ t' ht₂ heq
    exact Tag.name_inj (ht.proper hn t ht₁) (ht.proper hn t' ht₂) heq
  rw [List.nodup_iff_count_le_one] at hmap ⊢
  intro l
  rw [hl.count_labels l]
  exact hmap l

theorem mem_labelsOf {ℓ : Line} (hℓ : ℓ ∈ lines) {l : String} (hl : ℓ.instr = .label l) :
    l ∈ labelsOf lines := by
  refine List.mem_filterMap.mpr ⟨ℓ.instr, List.mem_map_of_mem hℓ, ?_⟩
  rw [hl]
  rfl

/-- Every jump has its label. -/
theorem BodyListing.lands (hone : body.oneDefault = true)
    (hscopes : L.scopes.labels.map Prod.fst = body.labels) (h : BodyListing L body lines)
    {ℓ : Line} (hℓ : ℓ ∈ lines) {l : String} (hg : ℓ.instr = .goto l) : l ∈ labelsOf lines := by
  obtain ⟨ts, c', hl, ht⟩ := h.laid hone hscopes
  rcases hl.target (ordered_nil _) hℓ hg with h | h | h
  · obtain ⟨k, hk, hkl, -⟩ := h
    exact mem_labelsOf hk hkl
  · -- there is no frame around a whole body
    cases h with
    | exit h => cases h
  · obtain ⟨-, ρ, left, -, -, hs⟩ := h
    have hmem := hs.mem_scopes
    rw [hscopes] at hmem
    have hts : Tag.source l ∈ ts := by
      rw [← List.count_pos_iff, ht l, List.count_pos_iff]
      exact hmem
    rw [← List.count_pos_iff, hl.count_labels l, List.count_pos_iff]
    exact List.mem_map_of_mem hts

/-- A run that ends well has a result. -/
theorem exists_ok_of_toBool {α : Type} {r : Except Fault α × Shared} (h : r.1.toBool = true) :
    ∃ a shared', r = (.ok a, shared') := by
  obtain ⟨e | a, shared'⟩ := r
  · cases h
  · exact ⟨a, shared', rfl⟩

/-- A run that ends with a procedure whose commands pass a test. -/
theorem exists_commands {r : Except Fault Ir.Procedure × Shared} {check : List Ir.Cmd → Bool}
    (h : (r.1.toOption.bind (·.body)).any check = true) :
    ∃ p shared cmds, r = (.ok p, shared) ∧ p.body = some cmds ∧ check cmds = true := by
  obtain ⟨r, shared⟩ := r
  cases r with
  | error => cases h
  | ok p =>
    obtain ⟨cmds, hp, hcheck⟩ := (Option.any_eq_true _ _).mp h
    exact ⟨p, shared, cmds, rfl, hp, hcheck⟩

/-- In every lowered method that models exceptions, with source labels that do not look generated
and one default case per switch at most, no two labels are the same, and every jump leads to a
label of the procedure. -/
theorem lowerMethod_labels_nodup_gotos_closed {env : Env} {owner : TypeDef} {m : MethodDef}
    {p : Ir.Procedure} {shared shared' : Shared} (hm : env.options.modelExceptions ≠ 0)
    (hnames : ∀ body, m.body = some body → ∀ l ∈ body.labels, isGenerated l = false)
    (hone : ∀ body, m.body = some body → body.oneDefault = true)
    (h : (lowerMethod env owner m).run shared = (.ok p, shared')) :
    p.labels.Nodup ∧ ∀ l, .goto l ∈ p.commands → .label l ∈ p.commands := by
  cases hbody : m.body with
  | none =>
    have hp : p.body = none := by
      have h' : Runs (lowerMethod env owner m) shared p shared' := h
      simp only [lowerMethod, hbody, runs_bind, runs_pure] at h'
      obtain ⟨_, _, -, _, _, -, rfl, -⟩ := h'
      rfl
    simp [Ir.Procedure.labels, Ir.Procedure.commands, hp, Ir.Cmd.allNested]
  | some body =>
    have hm' : env.options.modelsExceptions = true := bne_iff_ne.mpr hm
    obtain ⟨scopes, hsc, hlist⟩ := lowerMethod_listed hm' hbody h
    obtain ⟨lines, hlines, cmds, hp, hf⟩ := hlist (fun _ => True) (fun _ _ => trivial)
    obtain ⟨⟨hnd, -⟩, rfl⟩ := LabelScopes.collect_eq_ok.mp hsc
    have hlabels : p.labels = labelsOf lines := by
      rw [Ir.Procedure.labels, Ir.Procedure.commands, hp, Option.getD_some, ← Ir.labels_flatten, hf]
      rfl
    constructor
    · rw [hlabels]
      exact hlines.nodup_labels (hone body hbody) hnd (Source.map_fst_scoped body none)
        (hnames body hbody)
    · intro l hl
      rw [← Ir.Procedure.mem_labels, hlabels]
      rw [Ir.Procedure.commands, hp, Option.getD_some, ← Ir.goto_mem_flatten, hf] at hl
      obtain ⟨ℓ, hℓ, hg⟩ := List.mem_map.mp hl
      exact hlines.lands (hone body hbody) (Source.map_fst_scoped body none) hℓ hg

/-- A method that jumps out of a `try` statement, back to the label in front of it. -/
def retryMethod : MethodDef where
  name := "retry"
  body := some (.labeled "again" (.withId (.ofKind (.tryCatch (.goto "again")
    [⟨{}, none, none, .ofKind .rethrow⟩] (some .empty))) 7))

theorem retryMethod_labels_nodup_gotos_closed :
    ∃ p shared', (lowerMethod {} ⟨⟨"T", none⟩, .classType, [], [], [], [], []⟩ retryMethod).run {} =
        (.ok p, shared') ∧
      p.labels.Nodup ∧ ∀ l, .goto l ∈ p.commands → .label l ∈ p.commands := by
  have hok : ((lowerMethod {} ⟨⟨"T", none⟩, .classType, [], [], [], [], []⟩ retryMethod).run
      {}).1.toBool = true := by decide +kernel
  obtain ⟨p, shared', h⟩ := exists_ok_of_toBool hok
  refine ⟨p, shared', h, lowerMethod_labels_nodup_gotos_closed (by decide) ?_ ?_ h⟩
  · rintro body ⟨⟩
    decide
  · rintro body ⟨⟩
    rfl

end Unwind.Lowering
