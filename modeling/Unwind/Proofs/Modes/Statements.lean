import Unwind.Proofs.Modes.Jumps

/-!
# Statements in two modes

`lowerStmt_twin`: the two lowerings of a statement outside of catch clauses emit codes that are
related. A `try` statement is where they differ: with exceptions its parts are a region, without
them the `try` part and the finally block stand one behind the other.

What only one mode lowers, catch clauses and thrown values, must leave the operands alone
(`Stmt.operandsApart`), and the variables that run when nothing is raised (`Stmt.names`) must not
look generated.
-/

namespace Unwind.Source

/-! ## Conditions -/

mutual

/-- The variables that a statement reads or writes when nothing is raised. -/
def Stmt.names : Stmt → List String
  | ⟨_, _, kind⟩ =>
    match kind with
    | .block stmts => namesIn stmts
    | .assert e | .assume e | .expression e | .push e => e.names
    | .conditional cond thenBranch elseBranch =>
      cond.names ++ (thenBranch.names ++ elseBranch.names)
    | .switch scrutinee cases => scrutinee.names ++ namesInCases cases
    | .localDecl decl init => decl.name :: namesOption init
    | .ret value => namesOption value
    | .labeled _ body => body.names
    | .tryCatch body _ finalizer => body.names ++ namesInOption finalizer
    | _ => []

def namesIn : List Stmt → List String
  | [] => []
  | s :: ss => s.names ++ namesIn ss

def namesInCases : List SwitchCase → List String
  | [] => []
  | ⟨_, value, body⟩ :: cases => namesOption value ++ (namesIn body ++ namesInCases cases)

def namesInOption : Option Stmt → List String
  | none => []
  | some s => s.names

end

mutual

/-- Catch clauses and thrown values neither push nor pop. -/
def Stmt.operandsApart : Stmt → Bool
  | ⟨_, _, kind⟩ =>
    match kind with
    | .block stmts => operandsApartIn stmts
    | .conditional _ thenBranch elseBranch => thenBranch.operandsApart && elseBranch.operandsApart
    | .switch _ cases => operandsApartInCases cases
    | .labeled _ body => body.operandsApart
    | .tryCatch body catches finalizer =>
      body.operandsApart && (!usesOperandsInCatches catches && operandsApartInOption finalizer)
    | .throw e => !e.pops
    | _ => true

def operandsApartIn : List Stmt → Bool
  | [] => true
  | s :: ss => s.operandsApart && operandsApartIn ss

def operandsApartInCases : List SwitchCase → Bool
  | [] => true
  | ⟨_, _, body⟩ :: cases => operandsApartIn body && operandsApartInCases cases

def operandsApartInOption : Option Stmt → Bool
  | none => true
  | some s => s.operandsApart

end

end Unwind.Source

namespace Unwind.Lowering

open Ir (Cmd)
open Machine (Instr flatten isGenerated labels)
open Source (CatchClause Path Stmt)

/-! ## From a `try` part to its finally block -/

/-- What stands between the `try` part of a region and its finally block. -/
def closing (env : Env) (region : Nat) (catches : List CatchClause) : Lower Unit := do
  leaveNormally region
  popPhase region .inTry
  let caught ← takeException region
  pushPhase region .inCatch
  let arms ← lowerCatches env region caught catches
  finishCatches env caught arms
  popPhase region .inCatch
  emit (.label (← finallyLabel region))

theorem lowerStmt_tryCatch {env : Env} (hm : env.options.modelsExceptions = true) (id : UInt32)
    (span : Span) (body : Stmt) (catches : List CatchClause) (finalizer : Option Stmt) :
    lowerStmt env ⟨id, span, .tryCatch body catches finalizer⟩ = (do
      emitMarks env span (.tryCatch body catches finalizer)
      let region ← enterRegion id (catches.map (·.exceptionType))
      pushPhase region .inTry
      lowerStmt env body
      closing env region catches
      lowerFinally env region finalizer
      finishRegion env region) := by
  simp only [lowerStmt, if_pos hm, closing, bind_assoc]

variable {L : Layout} {π : Path} {ρ : List Frame} {c c' : Counters} {s s' : State} {u : Unit}

/-- Lowering adds jumps out of regions only. -/
theorem Listing.escapes_le {p : Piece} {ls : List Line} (h : Listing L p π ρ c ls c') (r : Nat) :
    c.escapes r ≤ c'.escapes r := by
  obtain ⟨ts, -, ht⟩ := h.tagged
  by_contra hlt
  have hgiven := ht.given (.resume r (c'.escapes r)) rfl
  have hbefore : c.has (.resume r (c'.escapes r)) = true := decide_eq_true (by omega)
  have hafter : c'.has (.resume r (c'.escapes r)) = false := decide_eq_false (by omega)
  rw [hbefore, hafter, Bool.toNat_true, Bool.toNat_false] at hgiven
  omega

/-- Control goes from the `try` part to the finally block past the catch clauses. -/
theorem closing_adds {region : Nat} {id : UInt32} {catches : List CatchClause}
    (hm : L.env.options.modelsExceptions = true) (hw : ∀ xs, L.Allows xs)
    (hr : Ready L (⟨region, id, .inTry, π⟩ :: ρ) c s)
    (h : Runs (closing L.env region catches) s u s') :
    ∃ rs c' cs, s'.cmds = s.cmds ++ cs ∧
      flatten cs = .set labelVar (.int normal) :: .goto (Tag.finalizer region).name ::
        (rs ++ [.label (Tag.finalizer region).name]) ∧
      (∀ l ∈ labels rs, isGenerated l = true ∨ l ∈ Source.labelsInCatches catches) ∧
      Ready L ρ c' s' ∧ s'.HasNode region id ∧ ∀ r, c.escapes r ≤ c'.escapes r := by
  simp only [closing, runs_bind] at h
  obtain ⟨_, s₁, h₁, _, s₂, h₂, x, s₃, h₃, _, s₄, h₄, arms, s₅, h₅, _, s₆, h₆, _, s₇, h₇, l, s₈, h₈,
    h₉⟩ := h
  have he₁ := emits_leaveNormally π hr.view h₁
  obtain ⟨hr₂, hc₂, hn₂⟩ := ready_popPhase (hr.emits he₁) h₂
  obtain ⟨rfl, he₃⟩ := emits_takeException (f := ⟨region, id, .inCatch, π⟩) π hr₂.view hn₂ h₃
  obtain ⟨hr₄, hc₄⟩ := ready_pushPhase (f := ⟨region, id, .inCatch, π⟩) (hr₂.emits he₃)
    (he₃.nodes hn₂) h₄
  have hnone : flatten (none : Option Cmd).toList = instrs [] := rfl
  obtain ⟨as, c₅, has, hf₅, hc₅, hr₅⟩ :=
    lowerCatches_listed catches 0 (π := π) hm (hw _) hnone hr₄ h₅
  have he₆ := emits_finishCatches π hr₅.view hf₅ h₆
  obtain ⟨hr₇, hc₇, hn₇⟩ := ready_popPhase (hr₅.emits he₆) h₇
  obtain ⟨rfl, he₈⟩ := runs_finallyLabel hr₇.view hn₇.lt h₈
  have he₉ := he₈.trans (emits_own π ρ rfl h₉)
  have a₇ := he₆.adds.trans ((Emits.adds he₉).of_cmds_eq hc₇)
  have a₃ := he₃.adds.trans (a₇.of_cmds_eq (hc₅.trans hc₄))
  obtain ⟨cs, hcs, hf⟩ := he₁.adds.trans (a₃.of_cmds_eq hc₂)
  let f : Frame := ⟨region, id, .inCatch, π⟩
  refine ⟨instrs (takeLines π f ρ ++ (as ++ raiseLines L.env π (f :: ρ)
    (.ident (Slot.caught region).name))), c₅, cs, hcs, ?_, ?_, hr₇.emits he₉, he₉.nodes hn₇,
    has.escapes_le⟩
  · simpa [leaveLines] using hf
  · intro l hl
    change l ∈ labelsOf _ at hl
    rw [labelsOf_append, labelsOf_append, labelsOf_raiseLines, List.append_nil,
      List.mem_append] at hl
    rcases hl with hl | hl
    · left
      rw [takeLines, labelsOf_append, labelsOf_raise, labelsOf_own] at hl
      simp only [Machine.labels_cons, Instr.label?, Instr.set, Option.toList, Machine.labels_nil,
        List.append_nil, List.mem_singleton] at hl
      rw [hl]
      exact Tag.isGenerated_name (t := .catches region) trivial
    · rcases has.mem_labels hl with hg | hin | hcatch
      · exact .inl hg
      · cases hin
      · exact .inr hcatch

end Unwind.Lowering

namespace Unwind.Modes

open Ir (Cmd)
open Lowering
open Machine (Instr flatten labels)
open Source (CatchClause Expr Hop Path Stmt SwitchCase)

variable {body : Stmt} {π : Path} {ρ : List Frame} {W : Stage} {env : Env} {s s' t t' : State}
  {u u' : Unit} {id : UInt32} {span : Span} {region : Nat}

/-! ## Regions -/

theorem keeps_closing {catches : List CatchClause}
    (h : Source.usesOperandsInCatches catches = false) : Keeps (closing env region catches) :=
  keeps_leaveNormally.bind fun _ => Keeps.popPhase.bind fun _ => keeps_takeException.bind fun _ =>
    Keeps.pushPhase.bind fun _ => (keeps_lowerCatches catches h).bind fun _ =>
      keeps_finishCatches.bind fun _ => Keeps.popPhase.bind fun _ =>
        Keeps.finallyLabel.bind fun _ => .emit

/-- The code of catch clauses is not run. -/
theorem shade_of_catches {catches : List CatchClause} {b : Stmt} {fin : Option Stmt}
    {rs : List Instr} (hst : Stands body π ρ ⟨id, span, .tryCatch b catches fin⟩)
    (h : ∀ l ∈ labels rs, Machine.isGenerated l = true ∨ l ∈ Source.labelsInCatches catches) :
    Shade (plan body W) rs :=
  fun l hl => (h l hl).imp_right fun hin => ⟨π, id, span, b, catches, fin, hst.1, hin⟩

/-- The code of a region without finally block. -/
theorem Codes.bareRegion {W₁ : Stage} {f : Frame} {is js rs test : List Instr} (hf : f.phase = .inTry)
    (h : Codes body W₁ (f :: ρ) is js) (hle : W₁.Le W) (hrs : ∀ W', Shade (plan body W') rs)
    (htest : Test true test) :
    Codes body W ρ (is ++ .set labelVar (.int normal) :: .goto (Tag.finalizer f.region).name ::
      (rs ++ .label (Tag.finalizer f.region).name :: (resuming f.region (W.escapes f.region) ++
        .label (Tag.behind f.region).name :: test))) js := by
  intro W' hle' ns hns ks ks' hrest
  have hleave : Rest (plan body W') (.bare f.region (W.escapes f.region) :: ns) _ ks' :=
    .leave (hrs W') htest hrest
  have hcodes := h W' (hle.trans hle') _ (.bare hf (hle.escapes _) (hns.mono hle.escapes)) _ _ hleave
  have henter : Rest (plan body W') ns _ _ := .enter rfl hcodes
  simpa using henter

/-- The code of a region with a finally block. -/
theorem Codes.guardedRegion {W₁ : Stage} {b fin : Stmt} {catches : List CatchClause} {n : Nat}
    {is js is' js' rs test : List Instr}
    (h : Codes body W₁ (⟨region, id, .inTry, π⟩ :: ρ) is js) (jumps : Nat)
    (hst : Stands body π ρ ⟨id, span, .tryCatch b catches (some fin)⟩) (hle : W₁.Le W)
    (h' : Codes body W (⟨region, id, .inFinally, π⟩ :: ρ) is' js')
    (hrs : ∀ W', Shade (plan body W') rs) (hn : (id, n) ∈ W.saved) (htest : Test true test) :
    Codes body W ρ (is ++ .set labelVar (.int normal) :: .goto (Tag.finalizer region).name ::
      (rs ++ .label (Tag.finalizer region).name :: .set (Slot.savedExc n).name .exception ::
        .set (Slot.savedLabel (n + 1)).name (.ident labelVar) :: .set Ir.exceptionVar .null ::
        (is' ++ .set Ir.exceptionVar (.ident (Slot.savedExc n).name) ::
          .set labelVar (.ident (Slot.savedLabel (n + 1)).name) ::
          (resuming region jumps ++ .label (Tag.behind region).name :: test)))) (js ++ js') := by
  intro W' hle' ns hns ks ks' hrest
  have hsaved : (plan body W').saved id n := hle'.saved hn
  have hrestore := @Rest.restore _ _ region jumps _ _ _ _ _ hsaved htest hrest
  have hfinal := h' W' hle' _ (.final rfl hns) _ _ hrestore
  have hsave := @Rest.save _ _ region _ _ _ _ _ (hrs W') hsaved hfinal
  have hcodes := h W' (hle.trans hle') _ (.guarded rfl hst.1 (hns.mono hle.escapes)) _ _ hsave
  have henter : Rest (plan body W') ns _ _ := .enter rfl hcodes
  simpa using henter

/-- The end of a region. -/
theorem emits_region_end {scopes : LabelScopes} (hv : View scopes ρ s) (hn : s.HasNode region id)
    (h : Runs (finishRegion env region) s u s') :
    ∃ test, Test true test ∧ Emits s (resuming region (s.counters.escapes region) ++
      .label (Tag.behind region).name :: test) s' := by
  refine ⟨instrs (checkLines env [] ρ), ?_, ?_⟩
  · rw [checkLines, instrs_choice, instrs_raise]
    exact .some rfl (labels_propagation env ρ)
  · have he := emits_finishRegion [] hv hn h
    rw [instrs_append, instrs_append, resumeLines, instrs_own, instrs_own] at he
    exact he

/-- A finally block, with what it puts aside. -/
theorem finally_twin {st : Stmt}
    (hst : ∀ W, Twin body (⟨region, id, .inFinally, π⟩ :: ρ) W st.tries
      (lowerStmt (env.withMode 1) st) (lowerStmt (env.withMode 0) st) fun _ _ _ => True)
    (hj : Joined body ρ W s t) (hn : s.HasNode region id)
    (h : Runs (lowerFinally (env.withMode 1) region (some st)) s u s')
    (h' : Runs (lowerStmt (env.withMode 0) st) t u' t') :
    ∃ W' n cs ds is, W.Grows (id :: st.tries) W' ∧ Joined body ρ W' s' t' ∧
      s'.HasNode region id ∧ (id, n) ∈ W'.saved ∧ s'.cmds = s.cmds ++ cs ∧
      t'.cmds = t.cmds ++ ds ∧
      flatten cs = .set (Slot.savedExc n).name .exception ::
        .set (Slot.savedLabel (n + 1)).name (.ident labelVar) :: .set Ir.exceptionVar .null ::
        (is ++ [.set Ir.exceptionVar (.ident (Slot.savedExc n).name),
          .set labelVar (.ident (Slot.savedLabel (n + 1)).name)]) ∧
      Codes body W' (⟨region, id, .inFinally, π⟩ :: ρ) is (flatten ds) := by
  simp only [lowerFinally, runs_bind] at h
  obtain ⟨_, s₁, h₁, ⟨x, y⟩, s₂, h₂, _, s₃, h₃, _, s₄, h₄, h₅⟩ := h
  obtain ⟨hc₁, hv₁, hcount₁⟩ := runs_pushPhase (f := ⟨region, id, .inFinally, π⟩) hj.view hn h₁
  obtain ⟨hxy, -, he₂⟩ := emits_saveForFinally h₂
  cases hxy
  have hj₂ : Joined body (⟨region, id, .inFinally, π⟩ :: ρ)
      { W with saved := (id, s₁.nextTemp) :: W.saved } s₂ t := by
    refine ⟨?_, he₂.view hv₁, hj.flat, ?_⟩
    · exact hj.joint.kept ((Keeps.pushPhase.kept h₁).trans (keeps_saveForFinally.kept h₂)) (.refl t)
    · rw [he₂.escapes, hcount₁]
      exact hj.escapes
  obtain ⟨W', cs₃, ds, hgrow, hj₃, hcs₃, hds, hcodes, -⟩ := (hst _).run hj₂ h₃ h'
  have he₄ := emits_restoreAfterFinally h₄
  obtain ⟨hc₅, hv₅, hcount₅, hn₅⟩ := runs_popPhase (he₄.view hj₃.view) h₅
  obtain ⟨cs₂, hcs₂, hf₂⟩ := he₂.cmds
  obtain ⟨cs₄, hcs₄, hf₄⟩ := he₄.cmds
  refine ⟨W', s₁.nextTemp, cs₂ ++ (cs₃ ++ cs₄), ds, flatten cs₃, (Stage.Grows.save _ _ _).trans hgrow,
    ⟨?_, hv₅, hj₃.flat, ?_⟩, hn₅, hgrow.le.saved List.mem_cons_self, ?_, hds, ?_, hcodes⟩
  · exact hj₃.joint.kept ((keeps_restoreAfterFinally.kept h₄).trans (Keeps.popPhase.kept h₅))
      (.refl t')
  · rw [hcount₅, he₄.escapes]
    exact hj₃.escapes
  · rw [hc₅, hcs₄, hcs₃, hcs₂, hc₁, List.append_assoc, List.append_assoc]
  · rw [Machine.flatten_append, Machine.flatten_append, hf₂, hf₄]
    rfl

/-- A `try` statement is a region in one mode, and its `try` part and finally block in the other. -/
theorem region_twin {types : List (Option Source.TypeRef)} {b : Stmt} {catches : List CatchClause}
    {fin : Option Stmt} (hst : Stands body π ρ ⟨id, span, .tryCatch b catches fin⟩)
    (hops : Source.usesOperandsInCatches catches = false)
    (hb : ∀ region W, Twin body (⟨region, id, .inTry, π⟩ :: ρ) W b.tries
      (lowerStmt (env.withMode 1) b) (lowerStmt (env.withMode 0) b) fun _ _ _ => True)
    (hf : ∀ region W f, fin = some f → Twin body (⟨region, id, .inFinally, π⟩ :: ρ) W f.tries
      (lowerStmt (env.withMode 1) f) (lowerStmt (env.withMode 0) f) fun _ _ _ => True) :
    Twin body ρ W (b.tries ++ (id :: Source.triesInOption fin))
      (do
        let region ← enterRegion id types
        pushPhase region .inTry
        lowerStmt (env.withMode 1) b
        closing (env.withMode 1) region catches
        lowerFinally (env.withMode 1) region fin
        finishRegion (env.withMode 1) region)
      (do
        lowerStmt (env.withMode 0) b
        lowerOptional (env.withMode 0) fin) fun _ _ _ => True := by
  refine ⟨fun {s s' t t' _ _} hj hx hy => ?_⟩
  simp only [runs_bind] at hx hy
  obtain ⟨r, s₁, h₁, _, s₂, h₂, _, s₃, h₃, _, s₄, h₄, _, s₅, h₅, h₆⟩ := hx
  obtain ⟨_, t₁, h₃', h₅'⟩ := hy
  let L : Layout := ⟨env.withMode 1, scopesOf body, fun _ => True⟩
  -- the region is entered
  obtain ⟨hr₁, hc₁, hn₁, rfl, -⟩ := ready_enterRegion (hj.ready (L := L) rfl) h₁
  obtain ⟨hr₂, hc₂⟩ := ready_pushPhase (f := ⟨s.counters.regions, id, .inTry, π⟩) hr₁ hn₁ h₂
  have hj₂ : Joined body (⟨s.counters.regions, id, .inTry, π⟩ :: ρ) W s₂ t := by
    refine ⟨?_, hr₂.view, hj.flat, hr₂.escapes.symm.trans hj.escapes⟩
    exact hj.joint.kept ((keeps_enterRegion.kept h₁).trans (Keeps.pushPhase.kept h₂)) (.refl t)
  -- its `try` part and the catch clauses
  obtain ⟨W₁, cs₃, ds₃, hgrow₁, hj₃, hcs₃, hds₃, hcodes, -⟩ := (hb _ W).run hj₂ h₃ h₃'
  obtain ⟨rs, c₄, cs₄, hcs₄, hf₄, hrs, hr₄, hn₄, hesc⟩ :=
    closing_adds (L := L) rfl (fun _ _ _ => trivial) (hj₃.ready rfl) h₄
  rw [hj₃.escapes] at hesc
  have hgrow₂ : W₁.Grows [] { W₁ with escapes := c₄.escapes } := .withEscapes hesc
  have hj₄ : Joined body ρ { W₁ with escapes := c₄.escapes } s₄ t₁ := by
    refine ⟨?_, hr₄.view, hj₃.flat, hr₄.escapes.symm⟩
    exact hj₃.joint.kept ((keeps_closing hops).kept h₄) (.refl t₁)
  have hshade : ∀ W', Shade (plan body W') rs := fun W' => shade_of_catches hst hrs
  cases fin with
  | none =>
    rw [lowerFinally, runs_pure] at h₅
    rw [lowerOptional, runs_pure] at h₅'
    obtain ⟨-, rfl⟩ := h₅
    obtain ⟨-, rfl⟩ := h₅'
    obtain ⟨test, htest, he₆⟩ := emits_region_end hj₄.view hn₄ h₆
    obtain ⟨cs₆, hcs₆, hf₆⟩ := he₆.cmds
    refine ⟨_, cs₃ ++ (cs₄ ++ cs₆), ds₃, ⟨hgrow₁.le.trans hgrow₂.le, fun node => ?_⟩,
      ⟨?_, he₆.view hj₄.view, hj₄.flat, he₆.escapes.trans hj₄.escapes⟩, ?_, hds₃, ?_, trivial⟩
    · have := (hgrow₁.trans hgrow₂).counts node
      simp only [List.append_nil, List.count_append] at this ⊢
      omega
    · exact hj₄.joint.kept (keeps_finishRegion.kept h₆) (.refl _)
    · rw [hcs₆, hcs₄, hcs₃, hc₂, hc₁, List.append_assoc, List.append_assoc]
    · rw [hj₄.escapes] at hf₆
      have hcodes₆ := hcodes.bareRegion rfl hgrow₂.le hshade htest
      simpa [Machine.flatten_append, hf₄, hf₆] using hcodes₆
  | some f =>
    rw [lowerOptional] at h₅'
    obtain ⟨W₅, n, cs₅, ds₅, is, hgrow₅, hj₅, hn₅, hsaved, hcs₅, hds₅, hf₅, hcodes₅⟩ :=
      finally_twin (fun W => hf s.counters.regions W f rfl) hj₄ hn₄ h₅ h₅'
    obtain ⟨test, htest, he₆⟩ := emits_region_end hj₅.view hn₅ h₆
    obtain ⟨cs₆, hcs₆, hf₆⟩ := he₆.cmds
    refine ⟨W₅, cs₃ ++ (cs₄ ++ (cs₅ ++ cs₆)), ds₃ ++ ds₅, hgrow₁.trans (hgrow₂.trans hgrow₅),
      ⟨?_, he₆.view hj₅.view, hj₅.flat, he₆.escapes.trans hj₅.escapes⟩, ?_, ?_, ?_, trivial⟩
    · exact hj₅.joint.kept (keeps_finishRegion.kept h₆) (.refl _)
    · rw [hcs₆, hcs₅, hcs₄, hcs₃, hc₂, hc₁]
      simp only [List.append_assoc]
    · rw [hds₅, hds₃, List.append_assoc]
    · have hcodes₆ :=
        hcodes.guardedRegion (s₅.counters.escapes s.counters.regions) hst
          (hgrow₂.le.trans hgrow₅.le) hcodes₅ hshade hsaved htest
      simpa [Machine.flatten_append, hf₄, hf₅, hf₆] using hcodes₆

/-! ## Raising -/

/-- Without exceptions, what raises one cannot be reached. -/
theorem throw_twin {e : Expr} (h : e.pops = false) :
    Twin body ρ W [] (lowerThrow (env.withMode 1) e) (lowerThrow (env.withMode 0) e)
      fun _ _ _ => True := by
  refine ⟨fun {s s' t t' _ _} hj hx hy => ?_⟩
  have hkept := hj.joint.kept ((keeps_lowerThrow h).kept hx) ((keeps_lowerThrow h).kept hy)
  let L : Layout := ⟨env.withMode 1, scopesOf body, fun _ => True⟩
  have hm : (env.withMode 1).options.modelsExceptions = true := rfl
  simp only [lowerThrow, if_pos hm, runs_bind] at hx
  obtain ⟨v, s₁, h₁, _, s₂, h₂, _, s₃, h₃, h₄⟩ := hx
  obtain ⟨ls, he, hl⟩ := (value_coded (L := L) (π := []) (fun _ _ => trivial) hj.view h₁).trans
    (.of_marks (.record h₂))
  have he' := he.trans (emits_raise (π := []) (he.view hj.view) h₃ h₄)
  obtain ⟨cs, hcs, hf⟩ := he'.cmds
  have hy' : t' = { t with cmds := t.cmds ++ [.suppose (.bool false)] } := runs_emit.mp hy
  refine ⟨W, cs, [.suppose (.bool false)], .refl W, ⟨hkept, he'.view hj.view, ?_,
    he'.escapes.trans hj.escapes⟩, hcs, ?_, .raise ?_, trivial⟩
  · rw [hy']
    exact hj.flat.withCmds _
  · rw [hy']
  · rw [hf, ← instrs_append]
    exact (labelsOf_append _ _).trans (by rw [hl.labelsOf, labelsOf_raiseLines]; rfl)

/-- There is no catch clause to raise from again. -/
theorem rethrow_twin {y : Lower Unit} (hρ : ∀ f ∈ ρ, f.phase ≠ .inCatch) :
    Twin body ρ W [] (lowerRethrow (env.withMode 1) span) y fun _ _ _ => True := by
  refine ⟨fun {s s' t t' _ _} hj hx _ => ?_⟩
  have hm : (env.withMode 1).options.modelsExceptions = true := rfl
  simp only [lowerRethrow, if_pos hm, runs_bind, runs_context] at hx
  obtain ⟨_, s₁, ⟨rfl, rfl⟩, hx⟩ := hx
  rw [hj.view.innermostCatch_eq] at hx
  split at hx
  · next hregion =>
    obtain ⟨f, hf, hphase, -⟩ := catchOf_mem hregion
    exact absurd hphase (hρ f hf)
  · exact absurd hx not_runs_throw

/-! ## All statements -/

theorem Twin.bindLast {α α' β β' : Type} {ts : List UInt32} {R : Stage → α → β → Prop}
    {R' : Stage → α' → β' → Prop} {x : Lower α} {y : Lower β} {f : α → Lower α'}
    {g : β → Lower β'} (h : Twin body ρ W ts x y R)
    (hf : ∀ {W' a b}, W.Le W' → R W' a b → Twin body ρ W' [] (f a) (g b) R') :
    Twin body ρ W ts (x >>= f) (y >>= g) R' := by
  have hb := h.bind hf
  rwa [List.append_nil] at hb

/-- A branch, with the breadcrumb in front of it. -/
theorem branch_twin {st : Stmt} (h : ∀ W, Twin body ρ W st.tries (lowerStmt (env.withMode 1) st)
      (lowerStmt (env.withMode 0) st) fun _ _ _ => True) :
    Twin body ρ W st.tries (commandsOf (do breadcrumb (env.withMode 1); lowerStmt (env.withMode 1) st))
      (commandsOf (do breadcrumb (env.withMode 0); lowerStmt (env.withMode 0) st))
      fun W' cs ds => Codes body W' ρ (flatten cs) (flatten ds) :=
  (breadcrumb_twin.andThen fun _ _ => h _).commandsOf

mutual

theorem lowerStmt_twin (hset : Setting body) (st : Stmt) {π : Path} {ρ : List Frame} {W : Stage}
    (hst : Stands body π ρ st) (hρ : ∀ f ∈ ρ, f.phase ≠ .inCatch)
    (hn : Known IsSource st.names) (ho : st.operandsApart = true) :
    Twin body ρ W st.tries (lowerStmt (env.withMode 1) st) (lowerStmt (env.withMode 0) st)
      fun _ _ _ => True := by
  obtain ⟨id, span, kind⟩ := st
  cases kind with
  | block ss =>
    rw [lowerStmt, lowerStmt]
    have hin : (Piece.stmts .item 0 ss).Within body π ρ := by
      intro j s hs
      rw [Nat.zero_add]
      exact hst.child hs rfl
    exact emitMarks_twin.andThen fun _ _ => lowerStmts_twin hset ss hin hρ hn ho
  | empty =>
    rw [lowerStmt, lowerStmt]
    exact emitMarks_twin.andThen fun _ _ => .pure trivial
  | assert cond =>
    rw [lowerStmt, lowerStmt]
    exact emitMarks_twin.andThen fun _ _ => (condition_twin hn).andThen fun _ hv =>
      emitAssertion_twin hv
  | assume cond =>
    rw [lowerStmt, lowerStmt]
    exact emitMarks_twin.andThen fun _ _ => (condition_twin hn).andThen fun _ hv =>
      .emit (.assume hv)
  | conditional cond thenBranch elseBranch =>
    rw [Stmt.names, known_append, known_append] at hn
    rw [Stmt.operandsApart, Bool.and_eq_true] at ho
    rw [lowerStmt, lowerStmt]
    refine emitMarks_twin.andThen fun _ _ => (condition_twin hn.1).andThen fun _ hv => ?_
    refine (branch_twin fun W => lowerStmt_twin hset thenBranch (π := π ++ [.thenBranch])
      (hst.child rfl rfl) hρ hn.2.1 ho.1).bind fun hle₁ ha => ?_
    refine (branch_twin fun W => lowerStmt_twin hset elseBranch (π := π ++ [.elseBranch])
      (hst.child rfl rfl) hρ hn.2.2 ho.2).bindLast fun hle₂ hb => .emit ?_
    exact .ifElse (hv.mono (hle₁.trans hle₂).paired) (ha.mono hle₂) hb
  | expression e =>
    rw [lowerStmt, lowerStmt]
    exact emitMarks_twin.andThen fun _ _ => (lowerExpr_twin hn).andThen fun _ _ => .pure trivial
  | breakLoop | continueLoop | whileLoop | doUntil | forLoop | forEach =>
    rw [lowerStmt, lowerStmt]
    exact emitMarks_twin.andThen fun _ _ => .throw
  | switch scrutinee cases =>
    rw [Stmt.names, known_append] at hn
    rw [lowerStmt, lowerStmt]
    refine emitMarks_twin.andThen fun _ _ => (value_twin hn.1).andThen fun _ hv => ?_
    refine Twin.more ?_ (Source.count_triesInCases_ge cases)
    have hin := Piece.within_cases hst
    refine (lowerDefault_twin hset cases hin hρ hn.2 ho).bind fun hle₁ hd => ?_
    refine (lowerCases_twin hset cases hin hρ hn.2 ho (hv.mono hle₁.paired) hd).bindLast
      fun hle₂ hchain => ?_
    cases hchain with
    | some hc => exact .emit hc
    | none => exact .emitAll (hd.mono hle₂)
  | localDecl decl init =>
    rw [lowerStmt, lowerStmt]
    exact emitMarks_twin.andThen fun _ _ => lowerLocalDecl_twin (hn _ List.mem_cons_self)
      fun x hx => hn x (List.mem_cons_of_mem _ hx)
  | ret result =>
    rw [lowerStmt, lowerStmt]
    exact emitMarks_twin.andThen fun _ _ => lowerReturn_twin hn
  | goto label =>
    rw [lowerStmt, lowerStmt]
    exact emitMarks_twin.andThen fun _ _ => goto_twin hset hst hρ
  | labeled label st =>
    rw [lowerStmt, lowerStmt]
    refine emitMarks_twin.andThen fun _ _ => (Twin.emit (.label hst)).andThen fun _ _ => ?_
    exact lowerStmt_twin hset st (π := π ++ [.labelBody]) (hst.child rfl rfl) hρ hn ho
  | tryCatch b catches finalizer =>
    rw [Stmt.names, known_append] at hn
    simp only [Stmt.operandsApart, Bool.and_eq_true, Bool.not_eq_true'] at ho
    rw [lowerStmt_tryCatch rfl, lowerStmt]
    refine emitMarks_twin.andThen fun _ _ => ?_
    -- the catch clauses, which only one of the modes lowers, are no part of what is related
    have hρ' : ∀ {f : Frame}, f.phase ≠ .inCatch → ∀ g ∈ f :: ρ, g.phase ≠ .inCatch :=
      fun hf => List.forall_mem_cons.mpr ⟨hf, hρ⟩
    refine Twin.more (region_twin hst ho.2.1 (fun region W => ?_) fun region W => ?_) fun node => ?_
    · exact lowerStmt_twin hset b (π := π ++ [.tryBody]) (hst.part region rfl rfl)
        (hρ' nofun) hn.1 ho.1
    · exact finalizer_twin hset finalizer (π := π) (fun f hf => hst.part region hf rfl)
        (hρ' nofun) hn.2 ho.2.2
    · simp only [Stmt.tries, List.count_append, List.count_cons]
      omega
  | throw e =>
    rw [Stmt.operandsApart, Bool.not_eq_true'] at ho
    rw [lowerStmt, lowerStmt]
    exact emitMarks_twin.andThen fun _ _ => throw_twin ho
  | rethrow =>
    rw [lowerStmt, lowerStmt]
    exact emitMarks_twin.andThen fun _ _ => rethrow_twin hρ
  | push e =>
    rw [lowerStmt, lowerStmt]
    exact emitMarks_twin.andThen fun _ _ => (value_twin hn).andThen fun _ hv => pushOperand_twin hv

theorem finalizer_twin (hset : Setting body) (fin : Option Stmt) {π : Path} {ρ : List Frame}
    {W : Stage} (hst : (Piece.finalizer fin).Within body π ρ) (hρ : ∀ f ∈ ρ, f.phase ≠ .inCatch)
    (hn : Known IsSource (Source.namesInOption fin))
    (ho : Source.operandsApartInOption fin = true) (f : Stmt) (hf : fin = some f) :
    Twin body ρ W f.tries (lowerStmt (env.withMode 1) f) (lowerStmt (env.withMode 0) f)
      fun _ _ _ => True := by
  cases fin with
  | none => cases hf
  | some st =>
    obtain rfl := Option.some.inj hf
    exact lowerStmt_twin hset st (hst st rfl) hρ hn ho

theorem lowerStmts_twin (hset : Setting body) (ss : List Stmt) {hop : Nat → Hop} {i : Nat}
    {π : Path} {ρ : List Frame} {W : Stage} (hst : (Piece.stmts hop i ss).Within body π ρ)
    (hρ : ∀ f ∈ ρ, f.phase ≠ .inCatch) (hn : Known IsSource (Source.namesIn ss))
    (ho : Source.operandsApartIn ss = true) :
    Twin body ρ W (Source.triesIn ss) (lowerStmts (env.withMode 1) ss)
      (lowerStmts (env.withMode 0) ss) fun _ _ _ => True := by
  cases ss with
  | nil =>
    rw [lowerStmts, lowerStmts]
    exact .pure trivial
  | cons st ss =>
    rw [Source.namesIn, known_append] at hn
    rw [Source.operandsApartIn, Bool.and_eq_true] at ho
    rw [lowerStmts, lowerStmts]
    have hin : (Piece.stmts hop (i + 1) ss).Within body π ρ := by
      intro j s hs
      rw [Nat.add_assoc, Nat.add_comm 1]
      exact hst (j + 1) s hs
    exact (lowerStmt_twin hset st (hst 0 st rfl) hρ hn.1 ho.1).bind fun _ _ =>
      lowerStmts_twin hset ss hin hρ hn.2 ho.2

theorem lowerDefault_twin (hset : Setting body) (cases : List SwitchCase) {i : Nat} {π : Path}
    {ρ : List Frame} {W : Stage} (hst : (Piece.default i cases).Within body π ρ)
    (hρ : ∀ f ∈ ρ, f.phase ≠ .inCatch) (hn : Known IsSource (Source.namesInCases cases))
    (ho : Source.operandsApartInCases cases = true) :
    Twin body ρ W (Source.triesInDefault cases) (lowerDefault (env.withMode 1) cases)
      (lowerDefault (env.withMode 0) cases)
      fun W' cs ds => Codes body W' ρ (flatten cs) (flatten ds) := by
  cases cases with
  | nil =>
    rw [lowerDefault, lowerDefault]
    exact .pure .nil
  | cons case cases =>
    obtain ⟨sp, value, stmts⟩ := case
    rw [Source.namesInCases, known_append, known_append] at hn
    rw [Source.operandsApartInCases, Bool.and_eq_true] at ho
    rw [lowerDefault, lowerDefault, Source.triesInDefault]
    by_cases hv : (value.isSome || cases.any (·.value.isNone)) = true
    · rw [if_pos hv, if_pos hv, if_pos hv]
      have hin : (Piece.default (i + 1) cases).Within body π ρ := by
        intro j k s hs
        rw [Nat.add_assoc, Nat.add_comm 1]
        exact hst (j + 1) k s hs
      exact lowerDefault_twin hset cases hin hρ hn.2.2 ho.2
    · rw [if_neg hv, if_neg hv, if_neg hv]
      have hin : (Piece.stmts (.caseItem i) 0 stmts).Within body π ρ := by
        intro k s hs
        rw [Nat.zero_add]
        exact hst 0 k s hs
      exact (lowerStmts_twin hset stmts hin hρ hn.2.1 ho.1).commandsOf

theorem lowerCases_twin (hset : Setting body) (cases : List SwitchCase) {i : Nat} {π : Path}
    {ρ : List Frame} {W : Stage} {v v' : Ir.Expr} {dflt dflt' : List Cmd}
    (hst : (Piece.default i cases).Within body π ρ) (hρ : ∀ f ∈ ρ, f.phase ≠ .inCatch)
    (hn : Known IsSource (Source.namesInCases cases))
    (ho : Source.operandsApartInCases cases = true) (hv : Values IsSource W.pairs v v')
    (hd : Codes body W ρ (flatten dflt) (flatten dflt')) :
    Twin body ρ W (Source.triesInValued cases) (lowerCases (env.withMode 1) v dflt cases)
      (lowerCases (env.withMode 0) v' dflt' cases) fun W' => Option.Rel fun c d =>
        Codes body W' ρ (Machine.flattenCmd c) (Machine.flattenCmd d) := by
  cases cases with
  | nil =>
    rw [lowerCases, lowerCases]
    exact .pure .none
  | cons case cases =>
    obtain ⟨sp, value?, stmts⟩ := case
    rw [Source.namesInCases, known_append, known_append] at hn
    rw [Source.operandsApartInCases, Bool.and_eq_true] at ho
    have hin : (Piece.default (i + 1) cases).Within body π ρ := by
      intro j k s hs
      rw [Nat.add_assoc, Nat.add_comm 1]
      exact hst (j + 1) k s hs
    have hrest := lowerCases_twin hset cases hin hρ hn.2.2 ho.2 hv hd
    rw [lowerCases, lowerCases]
    cases value? with
    | none => exact hrest.bindLast fun _ hchain => .pure hchain
    | some e =>
      have hin' : (Piece.stmts (.caseItem i) 0 stmts).Within body π ρ := by
        intro k s hs
        rw [Nat.zero_add]
        exact hst 0 k s hs
      refine hrest.bind fun hle₁ hchain => (value_twin hn.1).andThen fun hle₂ hw => ?_
      refine (lowerStmts_twin hset stmts hin' hρ hn.2.1 ho.1).commandsOf.bindLast
        fun hle₃ hb => .pure (.some ?_)
      have hle := hle₁.trans (hle₂.trans hle₃)
      refine .ifElse (.binary (hv.mono hle.paired) (hw.mono hle₃.paired)) hb ?_
      cases hchain with
      | some hc =>
        rw [Machine.flatten_singleton, Machine.flatten_singleton]
        exact hc.mono (hle₂.trans hle₃)
      | none => exact hd.mono hle

end

end Unwind.Modes
