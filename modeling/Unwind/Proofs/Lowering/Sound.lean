import Unwind.Proofs.Lowering.Listing

/-!
# The lowering emits what the listing says

`lowerStmt_listed`: where the lowering of a statement succeeds, the commands that it emits are the
lines of a `Listing` of the statement. The induction is the one of the lowering itself; what it
needs to know of the state is `Ready`.
-/

namespace Unwind.Lowering

open Source (CatchClause Expr Hop Path Stmt StmtKind SwitchCase Variable)
open Ir (Cmd)
open Machine (Instr flatten)

variable {L : Layout} {π : Path} {ρ : List Frame} {c : Counters} {s s' : State} {u : Unit}

/-! ## States and counters -/

/-- A state between the frames `ρ` where the counters have come as far as `c`. -/
structure Ready (L : Layout) (ρ : List Frame) (c : Counters) (s : State) : Prop where
  view : View L.scopes ρ s
  regions : c.regions = s.counters.regions
  temps : c.temps ≤ s.counters.temps
  escapes : c.escapes = s.counters.escapes

/-- The lines were emitted between `s` and `s'`. -/
def Adds (s : State) (ls : List Line) (s' : State) : Prop :=
  ∃ cs, s'.cmds = s.cmds ++ cs ∧ flatten cs = instrs ls

/-- What was emitted between `s` and `s'` is the code of a piece. -/
def Listed (L : Layout) (p : Piece) (π : Path) (ρ : List Frame) (c : Counters) (s s' : State) :
    Prop :=
  ∃ ls c', Listing L p π ρ c ls c' ∧ Adds s ls s' ∧ Ready L ρ c' s'

theorem Adds.of_eq (h : s'.cmds = s.cmds) : Adds s [] s' := ⟨[], by rw [h, List.append_nil], rfl⟩

theorem Adds.trans {s₁ : State} {as bs : List Line} (h : Adds s as s₁) (h' : Adds s₁ bs s') :
    Adds s (as ++ bs) s' := by
  obtain ⟨cs, hc, hf⟩ := h
  obtain ⟨cs', hc', hf'⟩ := h'
  refine ⟨cs ++ cs', ?_, ?_⟩
  · rw [hc', hc, List.append_assoc]
  · rw [Machine.flatten_append, hf, hf', instrs_append]

/-- A change in front of the code that adds nothing itself. -/
theorem Adds.of_cmds_eq {s₁ : State} {ls : List Line} (h : Adds s₁ ls s')
    (hc : s₁.cmds = s.cmds) : Adds s ls s' := by
  obtain ⟨cs, hcs, hf⟩ := h
  exact ⟨cs, by rw [hcs, hc], hf⟩

theorem Emits.adds {ls : List Line} (h : Emits s (instrs ls) s') : Adds s ls s' := h.cmds

theorem Ready.emits {is : List Instr} (hr : Ready L ρ c s) (h : Emits s is s') :
    Ready L ρ c s' where
  view := h.view hr.view
  regions := hr.regions.trans h.regions.symm
  temps := Nat.le_trans hr.temps h.temps
  escapes := hr.escapes.trans h.escapes.symm

theorem Ready.withCmds (hr : Ready L ρ c s) (cs : List Cmd) :
    Ready L ρ c { s with cmds := cs } :=
  ⟨hr.view.withCmds cs, hr.regions, hr.temps, hr.escapes⟩

/-- The code of a piece that is lowered aside. -/
theorem listed_aside {act : Lower Unit} {cs : List Cmd} {P : List Line → Counters → Prop}
    (hact : ∀ {t t' : State}, Ready L ρ c t → Runs act t () t' →
      ∃ ls c', P ls c' ∧ Adds t ls t' ∧ Ready L ρ c' t')
    (hr : Ready L ρ c s) (h : Runs (commandsOf act) s cs s') :
    ∃ ls c', P ls c' ∧ flatten cs = instrs ls ∧ s'.cmds = s.cmds ∧ Ready L ρ c' s' := by
  obtain ⟨s₁, h₁, rfl, rfl⟩ := runs_commandsOf.mp h
  obtain ⟨ls, c', hp, ⟨cs, hc, hf⟩, hr'⟩ := hact (hr.withCmds []) h₁
  refine ⟨ls, c', hp, ?_, rfl, hr'.withCmds _⟩
  rw [hc, List.nil_append, hf]

/-- Code without statements, with the step that emits it. -/
theorem Coded.plain {α : Type} {act : Lower α} {a : α} (hc : Coded L π ρ s s')
    (hv : View L.scopes ρ s) (h : Runs act s a s') :
    ∃ ls, Plain L π ρ act a ls ∧ Emits s (instrs ls) s' := by
  obtain ⟨ls, he, hl⟩ := hc
  exact ⟨ls, ⟨hl, s, s', hv, h, he⟩, he⟩

/-! ## Statements without statements in them -/

/-- An assertion, or an assumption when checks are weakened. -/
theorem emitAssertion_coded {v : Ir.Expr} (h : Runs (emitAssertion L.env v) s u s') :
    Coded L π ρ s s' := by
  unfold emitAssertion at h
  by_cases hg : L.env.options.getMeHere = true
  · rw [if_pos hg] at h
    exact .emit rfl .assume h
  · rw [if_neg hg] at h
    exact .emit rfl .assert h

theorem lowerReturn_coded {span : Span} {e : Option Expr}
    (hw : L.Allows (Source.assignedOption e)) (hv : View L.scopes ρ s)
    (h : Runs (lowerReturn L.env span e) s u s') : Coded L π ρ s s' := by
  cases e with
  | none =>
    exact .emit rfl .ret h
  | some e =>
    simp only [lowerReturn, runs_bind, runs_context] at h
    obtain ⟨v, s₁, h₁, cx, s₂, ⟨rfl, rfl⟩, h⟩ := h
    have c₁ := value_coded (π := π) (by simpa [Source.assignedOption] using hw) hv h₁
    split at h
    · next slot hslot =>
      simp only [runs_bind, runs_lift] at h
      obtain ⟨ty, s₃, ⟨-, rfl⟩, _, s₄, h₄, _, s₅, h₅, h₆⟩ := h
      have hx : slot = (Slot.result).name := (c₁.view hv).returnVar slot hslot
      subst hx
      exact ((c₁.trans (.of_marks (.record h₄))).trans (.emit rfl (.set .result) h₅)).trans
        (.emit rfl .ret h₆)
    · rw [runs_bind] at h
      obtain ⟨_, s₃, h₃, -⟩ := h
      exact absurd h₃ not_runs_throw

theorem lowerLocalDecl_coded {decl : Variable} {init : Option Expr}
    (hw : L.Allows (decl.name :: Source.assignedOption init)) (hv : View L.scopes ρ s)
    (h : Runs (lowerLocalDecl L.env decl init) s u s') : Coded L π ρ s s' := by
  have hx : Writable L decl.name := .source (hw _ List.mem_cons_self)
  have hwi : L.Allows (Source.assignedOption init) :=
    fun x hm => hw x (List.mem_cons_of_mem _ hm)
  simp only [lowerLocalDecl, runs_bind, runs_lift] at h
  obtain ⟨ty, s₁, ⟨-, rfl⟩, _, s₂, h₂, h⟩ := h
  have c₂ : Coded L π ρ _ s₂ := .of_nil (emits_declareLocal h₂)
  split at h
  · split at h
    · next e type he ht =>
      simp only [runs_bind] at h
      obtain ⟨proc, s₃, h₃, v, s₄, h₄, h₅⟩ := h
      have c₃ := c₂.trans (.of_nil (emits_withRegistry h₃))
      have hwe : L.Allows e.assigned := by
        rw [Option.filter_eq_some_iff] at he
        rw [he.1] at hwi
        simpa [Source.assignedOption] using hwi
      have c₄ := c₃.trans (value_coded hwe (c₃.view hv) h₄)
      refine c₄.trans (.emit rfl (.call fun x hm => ?_) h₅)
      rw [List.mem_singleton.mp hm]
      exact hx
    · simp only [runs_bind] at h
      obtain ⟨v, s₃, h₃, h₄⟩ := h
      have hwe : L.Allows (Expr.ofKind (.defaultValue decl.ty) decl.ty).assigned := by
        simp [Expr.ofKind, Expr.assigned, Layout.Allows]
      exact (c₂.trans (value_coded hwe (c₂.view hv) h₃)).trans (.emit rfl (.set hx) h₄)
  · cases init with
    | none =>
      rw [(runs_pure.mp h).2]
      exact c₂
    | some e =>
      simp only [runs_bind] at h
      obtain ⟨v, s₃, h₃, _, s₄, h₄, h₅⟩ := h
      have hwe : L.Allows e.assigned := by simpa [Source.assignedOption] using hwi
      have c₃ := c₂.trans (value_coded hwe (c₂.view hv) h₃)
      exact (c₃.trans (.of_marks (.record h₄))).trans (.emit rfl (.set hx) h₅)

theorem bindCaught_coded {caught : String} {span : Span} {binding : Option Variable}
    (hw : L.Allows (binding.map Variable.name).toList)
    (h : Runs (bindCaught L.env caught span binding) s u s') : Coded L π ρ s s' := by
  cases binding with
  | none =>
    rw [(runs_pure.mp h).2]
    exact .refl s
  | some v =>
    simp only [bindCaught, runs_bind, runs_lift] at h
    obtain ⟨ty, s₁, ⟨-, rfl⟩, _, s₂, h₂, _, s₃, h₃, h₄⟩ := h
    have hx : Writable L v.name := .source (hw v.name (by simp))
    exact (Coded.of_nil (emits_declareLocal h₂)).trans
      (.trans (.of_marks (.record h₃)) (.emit rfl (.set hx) h₄))

theorem plainStmt_coded {id : UInt32} {span : Span} {kind : StmtKind} (hk : isPlain kind = true)
    (hw : L.Allows (Stmt.assigned ⟨id, span, kind⟩)) (hv : View L.scopes ρ s)
    (h : Runs (lowerStmt L.env ⟨id, span, kind⟩) s u s') : Coded L π ρ s s' := by
  have hmarks : ∀ {s₁ : State} {u : Unit}, Runs (emitMarks L.env span kind) s u s₁ →
      Coded L π ρ s s₁ := fun h => .of_marks (.emitMarks h)
  cases kind with
  | empty =>
    simp only [lowerStmt, runs_bind, runs_pure] at h
    obtain ⟨_, s₁, h₁, -, rfl⟩ := h
    exact hmarks h₁
  | assert cond =>
    simp only [lowerStmt, runs_bind] at h
    obtain ⟨_, s₁, h₁, v, s₂, h₂, h₃⟩ := h
    have c₁ := hmarks h₁
    exact (c₁.trans (condition_coded hw (c₁.view hv) h₂)).trans (emitAssertion_coded h₃)
  | assume cond =>
    simp only [lowerStmt, runs_bind] at h
    obtain ⟨_, s₁, h₁, v, s₂, h₂, h₃⟩ := h
    have c₁ := hmarks h₁
    exact (c₁.trans (condition_coded hw (c₁.view hv) h₂)).trans (.emit rfl .assume h₃)
  | expression e =>
    simp only [lowerStmt, runs_bind, runs_pure] at h
    obtain ⟨_, s₁, h₁, v, s₂, h₂, -, rfl⟩ := h
    have c₁ := hmarks h₁
    exact c₁.trans (lowerExpr_coded e _ hw (c₁.view hv) h₂)
  | localDecl decl init =>
    simp only [lowerStmt, runs_bind] at h
    obtain ⟨_, s₁, h₁, h₂⟩ := h
    have c₁ := hmarks h₁
    exact c₁.trans (lowerLocalDecl_coded hw (c₁.view hv) h₂)
  | ret e =>
    simp only [lowerStmt, runs_bind] at h
    obtain ⟨_, s₁, h₁, h₂⟩ := h
    have c₁ := hmarks h₁
    exact c₁.trans (lowerReturn_coded hw (c₁.view hv) h₂)
  | push e =>
    simp only [lowerStmt, runs_bind] at h
    obtain ⟨_, s₁, h₁, v, s₂, h₂, h₃⟩ := h
    have c₁ := hmarks h₁
    exact (c₁.trans (value_coded hw (c₁.view hv) h₂)).trans (.of_nil (emits_pushOperand h₃))
  | _ => cases hk

/-! ## Parts of a region -/

theorem State.HasNode.lt {id : Nat} {node : UInt32} (h : s.HasNode id node) :
    id < s.regions.length := by
  obtain ⟨r, hr, -⟩ := h
  exact (List.getElem?_eq_some_iff.mp hr).1

theorem emits_leaveNormally {scopes : LabelScopes} {f : Frame} (π : Path)
    (hv : View scopes (f :: ρ) s) (h : Runs (leaveNormally f.region) s u s') :
    Emits s (instrs (leaveLines π (f :: ρ) f.region)) s' := by
  simp only [leaveNormally, runs_bind] at h
  obtain ⟨x, s₁, h₁, _, s₂, h₂, l, s₃, h₃, h₄⟩ := h
  obtain ⟨rfl, e₁⟩ := runs_useLabelVar h₁
  have e₂ := e₁.trans (emits_emit h₂)
  have hv₂ := e₂.view hv
  obtain ⟨rfl, e₃⟩ := runs_finallyLabel hv₂ (hv₂.lt_regions List.mem_cons_self) h₃
  rw [leaveLines, instrs_own]
  exact (e₂.trans e₃).trans (emits_emit h₄)

theorem emits_takeException {scopes : LabelScopes} {f : Frame} {x : String} (π : Path)
    (hv : View scopes ρ s) (hn : s.HasNode f.region f.node)
    (h : Runs (takeException f.region) s x s') :
    x = (Slot.caught f.region).name ∧ Emits s (instrs (takeLines π f ρ)) s' := by
  simp only [takeException, runs_bind, runs_pure] at h
  obtain ⟨l, s₁, h₁, _, s₂, h₂, y, s₃, h₃, _, s₄, h₄, _, s₅, h₅, rfl, rfl⟩ := h
  obtain ⟨rfl, e₁⟩ := runs_catchLabel hv hn.lt h₁
  have e₂ := e₁.trans (emits_emit h₂)
  obtain ⟨rfl, e₃⟩ := runs_exceptionLocal (e₂.view hv) (e₂.nodes hn).lt h₃
  refine ⟨rfl, ?_⟩
  rw [takeLines, instrs_append, instrs_own, instrs_raise]
  exact ((e₂.trans e₃).trans (emits_emit h₄)).trans (emits_emit h₅)

theorem emits_saveForFinally {r : String × String} (h : Runs saveForFinally s r s') :
    r = ((Slot.savedExc s.nextTemp).name, (Slot.savedLabel (s.nextTemp + 1)).name) ∧
      s.nextTemp + 2 ≤ s'.nextTemp ∧
      Emits s [.set (Slot.savedExc s.nextTemp).name .exception,
        .set (Slot.savedLabel (s.nextTemp + 1)).name (.ident labelVar),
        .set Ir.exceptionVar .null] s' := by
  simp only [saveForFinally, runs_bind, runs_pure] at h
  obtain ⟨x, s₁, h₁, y, s₂, h₂, z, s₃, h₃, _, s₄, h₄, _, s₅, h₅, _, s₆, h₆, rfl, rfl⟩ := h
  obtain ⟨rfl, e₁⟩ := runs_useLabelVar h₁
  have ht₁ : s₁.nextTemp = s.nextTemp := by
    rw [useLabelVar, changeContext, runs_bind] at h₁
    obtain ⟨_, t, ht, ht'⟩ := h₁
    rw [runs_modify] at ht
    rw [(runs_pure.mp ht').2, ht]
    rfl
  obtain ⟨rfl, ht₂, e₂⟩ := runs_freshLocal h₂
  obtain ⟨rfl, ht₃, e₃⟩ := runs_freshLocal h₃
  have e₄ := (emits_emit h₄).trans ((emits_emit h₅).trans (emits_emit h₆))
  have ht₄ : s₃.nextTemp ≤ s'.nextTemp := e₄.temps
  rw [ht₂, ht₁] at e₄ ht₃
  rw [ht₁, ht₂, ht₁]
  exact ⟨rfl, by omega, (e₁.trans (e₂.trans e₃)).trans e₄⟩

theorem emits_restoreAfterFinally {x y : String} (h : Runs (restoreAfterFinally x y) s u s') :
    Emits s [.set Ir.exceptionVar (.ident x), .set labelVar (.ident y)] s' := by
  simp only [restoreAfterFinally, runs_bind] at h
  obtain ⟨_, s₁, h₁, h₂⟩ := h
  exact (emits_emit h₁).trans (emits_emit h₂)

/-- A value becomes the pending exception and is sent to the handler. -/
theorem emits_raise {env : Env} {scopes : LabelScopes} {v : Ir.Expr} {s₁ : State}
    (hv : View scopes ρ s) (h : Runs (emit (.set Ir.exceptionVar v)) s u s₁)
    (h' : Runs (propagate env) s₁ u s') : Emits s (instrs (raiseLines env π ρ v)) s' := by
  have he := emits_emit h
  rw [raiseLines, instrs_append, instrs_own, instrs_raise]
  exact he.trans (emits_propagate (he.view hv) h')

theorem emits_finishCatches {env : Env} {scopes : LabelScopes} {caught : String}
    {arms : List (Ir.Expr × List Cmd)} {as : List Line} (π : Path) (hv : View scopes ρ s)
    (ha : flatten (catchTests arms).toList = instrs as)
    (h : Runs (finishCatches env caught arms) s u s') :
    Emits s (instrs (as ++ raiseLines env π ρ (.ident caught))) s' := by
  simp only [finishCatches, runs_bind] at h
  obtain ⟨_, s₁, h₁, _, s₂, h₂, h₃⟩ := h
  have e₁ : Emits s (instrs as) s₁ := ha ▸ emits_emitAll h₁
  exact e₁.append (emits_raise (e₁.view hv) h₂ h₃)

/-- The jumps that leave a region, as its number and their count determine them. -/
theorem View.escapingEdges {scopes : LabelScopes} {id : Nat} {node : UInt32}
    (hv : View scopes ρ s) (hn : s.HasNode id node) :
    s.escapingEdges id = (List.range (s.counters.escapes id)).map (edge id) := by
  obtain ⟨r, hr, -⟩ := hn
  have he : s.escapingEdges id = r.escapes := by simp only [Context.escapingEdges, hr]
  simp only [State.counters]
  rw [he]
  exact (hv.named id r hr).escapes

theorem emits_finishRegion {env : Env} {scopes : LabelScopes} {id : Nat} {node : UInt32}
    (π : Path) (hv : View scopes ρ s) (hn : s.HasNode id node)
    (h : Runs (finishRegion env id) s u s') :
    Emits s (instrs (resumeLines π ρ id (s.counters.escapes id) ++
      (own π ρ [.label (Tag.behind id).name] ++ checkLines env π ρ))) s' := by
  simp only [finishRegion, dispatchContinuation, runs_bind, runs_context] at h
  obtain ⟨_, s₅, ⟨l, s₁, h₁, cx, s₂, ⟨rfl, rfl⟩, h⟩, l', s₆, h₆, _, s₇, h₇, h₈⟩ := h
  obtain ⟨rfl, e₁⟩ := runs_continuationLabel hv hn.lt h₁
  have hv₁ := e₁.view hv
  have hedges := hv₁.escapingEdges (e₁.nodes hn)
  have e₂ : Emits s (flatten (resumeTests (Tag.behind id).name (s₂.escapingEdges id))) s₅ := by
    split at h
    · exact e₁.trans (emits_emitAll h)
    · obtain ⟨x, s₃, h₃, h₄⟩ := runs_bind.mp h
      exact (e₁.trans (runs_useLabelVar h₃).2).trans (emits_emitAll h₄)
  rw [hedges, e₁.escapes] at e₂
  obtain ⟨rfl, e₆⟩ := runs_continuationLabel (e₂.view hv) (e₂.nodes hn).lt h₆
  have e₇ := (e₂.trans e₆).trans (emits_emit h₇)
  rw [instrs_append, resumeLines, instrs_own, instrs_append, instrs_own]
  have e := e₇.trans (emits_propagateIfAny (π := π) (e₇.view hv) h₈)
  simpa [Machine.flattenCmd] using e

theorem ready_enterRegion {node : UInt32} {types : List (Option Source.TypeRef)} {id : Nat}
    (hr : Ready L ρ c s) (h : Runs (enterRegion node types) s id s') :
    Ready L ρ { c with regions := c.regions + 1 } s' ∧ s'.cmds = s.cmds ∧
      s'.HasNode c.regions node ∧ id = c.regions ∧ c.escapes c.regions = 0 := by
  obtain ⟨rfl, hc, hv, hcount, hn⟩ := runs_enterRegion hr.view h
  rw [← hr.regions] at hn hcount ⊢
  refine ⟨⟨hv, ?_, ?_, ?_⟩, hc, hn, rfl, ?_⟩
  · rw [hcount]
  · rw [hcount]
    exact hr.temps
  · rw [hcount]
    exact hr.escapes
  · rw [hr.escapes, hr.regions]
    simp [State.counters, Context.escapingEdges]

theorem ready_pushPhase {f : Frame} (hr : Ready L ρ c s) (hn : s.HasNode f.region f.node)
    (h : Runs (pushPhase f.region f.phase) s u s') :
    Ready L (f :: ρ) c s' ∧ s'.cmds = s.cmds := by
  obtain ⟨hc, hv, hcount⟩ := runs_pushPhase hr.view hn h
  exact ⟨⟨hv, hcount ▸ hr.regions, hcount ▸ hr.temps, hcount ▸ hr.escapes⟩, hc⟩

theorem ready_popPhase {f : Frame} (hr : Ready L (f :: ρ) c s)
    (h : Runs (popPhase f.region f.phase) s u s') :
    Ready L ρ c s' ∧ s'.cmds = s.cmds ∧ s'.HasNode f.region f.node := by
  obtain ⟨hc, hv, hcount, hn⟩ := runs_popPhase hr.view h
  exact ⟨⟨hv, hcount ▸ hr.regions, hcount ▸ hr.temps, hcount ▸ hr.escapes⟩, hc, hn⟩

/-! ## Jumps -/

/-- Leaving regions one after the other. -/
theorem escape_adds {target : String} {span : Span} (π : Path) (kept left : List Frame)
    (hr : Ready L ρ c s) (hleft : ∀ f ∈ left, f ∈ ρ)
    (h : Runs (escape target span (left.map Frame.entry)) s u s') :
    Adds s (escapeLines π kept left c) s' ∧ Ready L ρ (c.escapeAll left) s' ∧
      ∀ f ∈ left, f.phase ≠ .inFinally := by
  induction left generalizing c s with
  | nil =>
    rw [List.map_nil, escape, runs_pure] at h
    rw [h.2]
    exact ⟨.of_eq rfl, hr, by simp⟩
  | cons f left ih =>
    have hf : f ∈ ρ := hleft f List.mem_cons_self
    by_cases hp : f.phase = .inFinally
    · rw [List.map_cons, Frame.entry, hp, escape] at h
      exact absurd h not_runs_throw
    · rw [List.map_cons, Frame.entry, escape] at h
      · simp only [runs_bind] at h
        obtain ⟨e, s₁, h₁, x, s₂, h₂, _, s₃, h₃, l, s₄, h₄, _, s₅, h₅, _, s₆, h₆, h₇⟩ := h
        obtain ⟨rfl, hc₁, hv₁, hcount⟩ := runs_addEscapingEdge hr.view (hr.view.lt_regions hf) h₁
        have hr₁ : Ready L ρ (c.escape f.region) s₁ := by
          refine ⟨hv₁, ?_, ?_, ?_⟩
          · rw [hcount]
            exact hr.regions
          · rw [hcount]
            exact hr.temps
          · rw [hcount, Counters.escape, Counters.escape, hr.escapes]
        obtain ⟨rfl, e₂⟩ := runs_useLabelVar h₂
        have e₃ := e₂.trans (emits_emit h₃)
        obtain ⟨rfl, e₄⟩ := runs_finallyLabel (e₃.view hv₁) ((e₃.view hv₁).lt_regions hf) h₄
        have e₆ := ((e₃.trans e₄).trans (emits_emit h₅)).trans (emits_emit h₆)
        obtain ⟨ha, hr', hleft'⟩ := ih (hr₁.emits e₆)
          (fun g hg => hleft g (List.mem_cons_of_mem _ hg)) h₇
        refine ⟨?_, hr', ?_⟩
        · have hk : c.escapes f.region = s.counters.escapes f.region := by rw [hr.escapes]
          rw [escapeLines, ← List.append_assoc]
          refine .trans (Adds.of_cmds_eq (Emits.adds ?_) hc₁) ha
          rw [instrs_append, instrs_own, instrs_own, hk]
          exact e₆
        · intro g hg
          rcases List.mem_cons.mp hg with rfl | hg
          · exact hp
          · exact hleft' g hg
      · exact hp

/-- The position of a `try` statement on the stack, as the frames show it. -/
theorem View.position_eq {scopes : LabelScopes} (hv : View scopes ρ s) (node : UInt32) :
    s.position? node = ρ.reverse.findIdx? (·.node == node) := by
  unfold Context.position?
  rw [hv.stack, ← List.map_reverse, List.findIdx?_map]
  have hsearch : ∀ (p : Frame → Bool) (fs : List Frame),
      (∀ f ∈ fs, p f = (f.node == node)) → fs.findIdx? p = fs.findIdx? (·.node == node) := by
    intro p fs hp
    induction fs with
    | nil => rfl
    | cons f fs ih =>
      rw [List.findIdx?_cons, List.findIdx?_cons, hp f List.mem_cons_self,
        ih fun g hg => hp g (List.mem_cons_of_mem _ hg)]
  refine hsearch _ _ fun f hf => ?_
  obtain ⟨r, hr, hn⟩ := hv.nodes f (List.mem_reverse.mp hf)
  simp only [Function.comp_apply, Frame.entry, hr, hn]

/-- The regions that a jump leaves are those inside the innermost one that holds its label. -/
theorem splits_of_sharedDepth {target : String} {keep : Nat}
    (hm : L.env.options.modelsExceptions = true) (hv : View L.scopes ρ s)
    (h : sharedDepth L.env s.toContext target = .ok keep)
    (hleft : ∀ f ∈ ρ.take (ρ.length - keep), f.phase ≠ .inFinally) :
    Splits L.scopes target ρ (ρ.take (ρ.length - keep)) (ρ.drop (ρ.length - keep)) := by
  refine ⟨(List.take_append_drop _ _).symm, hleft, ?_⟩
  unfold sharedDepth at h
  rw [hv.scopes] at h
  split at h
  · cases h
  · next hsc =>
    cases h
    exact .inl ⟨hsc, by simp⟩
  · next node hsc =>
    rw [hv.position_eq] at h
    split at h
    · next p hp =>
      cases h
      rw [List.findIdx?_eq_some_iff_getElem] at hp
      obtain ⟨hlt, hpn, hmin⟩ := hp
      have hlt' : p < ρ.length := by simpa using hlt
      rw [List.getElem_reverse, beq_iff_eq] at hpn
      have hi : ρ.length - (p + 1) = ρ.length - 1 - p := by omega
      have hd : ρ.drop (ρ.length - (p + 1)) =
          ρ.get ⟨ρ.length - 1 - p, by omega⟩ :: ρ.drop (ρ.length - 1 - p + 1) := by
        rw [hi]
        exact List.drop_eq_getElem_cons (by omega)
      refine .inr ⟨_, _, hd, ?_, ?_⟩
      · rw [hsc, ← hpn]
        rfl
      · -- a frame further out comes earlier in the search
        intro g hg heq
        obtain ⟨j, hj, rfl⟩ := List.mem_iff_getElem.mp hg
        rw [List.length_drop] at hj
        rw [List.getElem_drop] at heq
        refine hmin (p - 1 - j) (by omega) ?_
        rw [List.getElem_reverse, beq_iff_eq, ← hpn]
        have hidx : ρ.length - 1 - (p - 1 - j) = ρ.length - 1 - p + 1 + j := by omega
        simp only [hidx]
        exact heq
    · rw [if_pos hm] at h
      cases h

/-- A jump to a label. -/
theorem goto_listed {id : UInt32} {span : Span} {label : String}
    (hm : L.env.options.modelsExceptions = true) (hr : Ready L ρ c s)
    (h : Runs (lowerStmt L.env ⟨id, span, .goto label⟩) s u s') :
    Listed L (.stmt ⟨id, span, .goto label⟩) π ρ c s s' := by
  simp only [lowerStmt, lowerGoto, runs_bind, runs_context, runs_lift] at h
  obtain ⟨_, s₁, h₁, cx, s₂, ⟨rfl, rfl⟩, keep, s₃, ⟨hkeep, rfl⟩, _, s₄, h₄, h₅⟩ := h
  have hc₁ : Coded L π ρ s s₃ := .of_marks (.emitMarks h₁)
  obtain ⟨ms, hms, he₁⟩ := hc₁.plain hr.view h₁
  have hr₁ := hr.emits he₁
  have hst : s₃.stack.take (s₃.depth - keep) = (ρ.take (ρ.length - keep)).map Frame.entry := by
    rw [Context.depth, hr₁.view.stack, List.length_map, List.map_take]
  rw [hst] at h₄
  obtain ⟨ha, hr₄, hleft⟩ := escape_adds π (ρ.drop (ρ.length - keep))
    (ρ.take (ρ.length - keep)) hr₁ (fun f hf => List.mem_of_mem_take hf) h₄
  have he₅ := emits_own π (ρ.drop (ρ.length - keep)) rfl h₅
  exact ⟨_, _, .goto hms (splits_of_sharedDepth hm hr₁.view hkeep hleft),
    he₁.adds.trans (ha.trans he₅.adds), hr₄.emits he₅⟩

theorem throw_listed {id : UInt32} {span : Span} {e : Expr}
    (hm : L.env.options.modelsExceptions = true) (hw : L.Allows e.assigned)
    (hr : Ready L ρ c s) (h : Runs (lowerStmt L.env ⟨id, span, .throw e⟩) s u s') :
    Listed L (.stmt ⟨id, span, .throw e⟩) π ρ c s s' := by
  simp only [lowerStmt, lowerThrow, if_pos hm, runs_bind] at h
  obtain ⟨_, s₁, h₁, v, s₂, h₂, _, s₃, h₃, _, s₄, h₄, h₅⟩ := h
  have c₁ : Coded L π ρ s s₁ := .of_marks (.emitMarks h₁)
  have c₂ := c₁.trans (value_coded hw (c₁.view hr.view) h₂)
  have c₃ := c₂.trans (.of_marks (.record h₃))
  have hhead : Runs (do
      emitMarks L.env span (.throw e)
      let v ← value L.env e
      record L.env "<thrown exception>" .ref v
      return v) s v s₃ := by
    simp only [runs_bind, runs_pure]
    exact ⟨_, s₁, h₁, v, s₂, h₂, _, s₃, h₃, rfl, rfl⟩
  obtain ⟨hs, hhs, he₃⟩ := c₃.plain hr.view hhead
  have he : Emits s₃ (instrs (raiseLines L.env π ρ v)) s' := emits_raise (he₃.view hr.view) h₄ h₅
  exact ⟨_, _, .throw hhs, he₃.adds.trans he.adds, (hr.emits he₃).emits he⟩

theorem View.innermostCatch_eq {scopes : LabelScopes} (hv : View scopes ρ s) :
    s.innermostCatch? = catchOf ρ := by
  rw [Context.innermostCatch?, hv.stack, List.find?_map, Option.map_map]
  rfl

theorem catchOf_mem {region : Nat} (h : catchOf ρ = some region) :
    ∃ f ∈ ρ, f.phase = .inCatch ∧ f.region = region := by
  obtain ⟨f, hf, hr⟩ := Option.map_eq_some_iff.mp h
  exact ⟨f, List.mem_of_find?_eq_some hf, by simpa using List.find?_some hf, hr⟩

theorem rethrow_listed {id : UInt32} {span : Span}
    (hm : L.env.options.modelsExceptions = true) (hr : Ready L ρ c s)
    (h : Runs (lowerStmt L.env ⟨id, span, .rethrow⟩) s u s') :
    Listed L (.stmt ⟨id, span, .rethrow⟩) π ρ c s s' := by
  simp only [lowerStmt, lowerRethrow, if_pos hm, runs_bind, runs_context] at h
  obtain ⟨_, s₁, h₁, cx, s₂, ⟨rfl, rfl⟩, h⟩ := h
  have c₁ : Coded L π ρ s s₂ := .of_marks (.emitMarks h₁)
  have hv₁ := c₁.view hr.view
  rw [hv₁.innermostCatch_eq] at h
  split at h
  · next region hregion =>
    simp only [runs_bind] at h
    obtain ⟨x, s₃, h₃, _, s₄, h₄, _, s₅, h₅, h₆⟩ := h
    obtain ⟨f, hf, -, rfl⟩ := catchOf_mem hregion
    obtain ⟨rfl, e₃⟩ := runs_exceptionLocal hv₁ (hv₁.lt_regions hf) h₃
    have c₄ := (c₁.trans (.of_nil e₃)).trans (.of_marks (.record h₄))
    have hhead : Runs (do
        emitMarks L.env span .rethrow
        let caught ← exceptionLocal f.region
        record L.env "<rethrown exception>" .ref (.ident caught)) s () s₄ := by
      simp only [runs_bind]
      exact ⟨_, s₂, h₁, _, s₃, h₃, h₄⟩
    obtain ⟨hs, hhs, he₄⟩ := c₄.plain hr.view hhead
    have he : Emits s₄ (instrs (raiseLines L.env π ρ (.ident (Slot.caught f.region).name))) s' :=
      emits_raise (he₄.view hr.view) h₅ h₆
    exact ⟨_, _, .rethrow hregion hhs, he₄.adds.trans he.adds, (hr.emits he₄).emits he⟩
  · exact absurd h not_runs_throw

/-! ## All statements -/

/-- A branch, with the breadcrumb in front of it. -/
theorem branch_listed {s₀ : Stmt} {cs : List Cmd} {κ : Path}
    (hbody : ∀ {t t' : State}, Ready L ρ c t → Runs (lowerStmt L.env s₀) t () t' →
      Listed L (.stmt s₀) κ ρ c t t')
    (hr : Ready L ρ c s)
    (h : Runs (commandsOf (do breadcrumb L.env; lowerStmt L.env s₀)) s cs s') :
    ∃ ms ls c', Plain L π ρ (breadcrumb L.env) () ms ∧ Listing L (.stmt s₀) κ ρ c ls c' ∧
      flatten cs = instrs (ms ++ ls) ∧ s'.cmds = s.cmds ∧ Ready L ρ c' s' := by
  obtain ⟨ls, c', ⟨ms, bs, hls, hms, hbs⟩, hf, hc, hr'⟩ := listed_aside
    (P := fun ls c' => ∃ ms bs, ls = ms ++ bs ∧ Plain L π ρ (breadcrumb L.env) () ms ∧
      Listing L (.stmt s₀) κ ρ c bs c')
    (fun {t t'} ht h => by
      obtain ⟨_, t₁, h₁, h₂⟩ := runs_bind.mp h
      have hc₁ : Coded L π ρ t t₁ := .of_marks (.breadcrumb h₁)
      obtain ⟨ms, hms, he₁⟩ := hc₁.plain ht.view h₁
      obtain ⟨bs, c', hbs, ha, ht'⟩ := hbody (ht.emits he₁) h₂
      exact ⟨ms ++ bs, c', ⟨ms, bs, rfl, hms, hbs⟩, he₁.adds.trans ha, ht'⟩) hr h
  subst hls
  exact ⟨ms, bs, c', hms, hbs, hf, hc, hr'⟩

mutual

theorem lowerStmt_listed (st : Stmt) {π : Path} {ρ : List Frame} {c : Counters} {s s' : State}
    {u : Unit} (hm : L.env.options.modelsExceptions = true) (hw : L.Allows st.assigned)
    (hr : Ready L ρ c s) (h : Runs (lowerStmt L.env st) s u s') :
    Listed L (.stmt st) π ρ c s s' := by
  obtain ⟨id, span, kind⟩ := st
  by_cases hk : isPlain kind = true
  · obtain ⟨ls, hls, he⟩ := (plainStmt_coded (π := π) hk hw hr.view h).plain hr.view h
    exact ⟨ls, c, .plain hk hls, he.adds, hr.emits he⟩
  cases kind with
  | empty | assert | assume | expression | localDecl | ret | push => exact absurd rfl hk
  | breakLoop | continueLoop | whileLoop | doUntil | forLoop | forEach =>
    simp only [lowerStmt, runs_bind] at h
    obtain ⟨_, s₁, -, h₂⟩ := h
    exact absurd h₂ not_runs_throw
  | block ss =>
    simp only [lowerStmt, runs_bind] at h
    obtain ⟨_, s₁, h₁, h₂⟩ := h
    -- a block carries no marks
    have hs₁ : s₁ = s := (runs_pure.mp h₁).2
    subst hs₁
    obtain ⟨ls, c', hl, ha, hr'⟩ := lowerStmts_listed ss .item 0 hm hw hr h₂
    exact ⟨ls, c', .block hl, ha, hr'⟩
  | conditional cond thenBranch elseBranch =>
    rw [Stmt.assigned, L.allows_append, L.allows_append] at hw
    simp only [lowerStmt, runs_bind] at h
    obtain ⟨_, s₁, h₁, v, s₂, h₂, thenCmds, s₃, h₃, elseCmds, s₄, h₄, h₅⟩ := h
    have c₁ : Coded L π ρ s s₁ := .of_marks (.emitMarks h₁)
    have c₂ := c₁.trans (condition_coded hw.1 (c₁.view hr.view) h₂)
    have hhead : Runs (do
        emitMarks L.env span (.conditional cond thenBranch elseBranch)
        condition L.env cond) s v s₂ := runs_bind.mpr ⟨_, s₁, h₁, h₂⟩
    obtain ⟨hs, hhs, he₂⟩ := c₂.plain hr.view hhead
    obtain ⟨ms, as, c', hms, has, hfa, hc₃, hr₃⟩ := branch_listed
      (fun hr h => lowerStmt_listed thenBranch (π := π ++ [Hop.thenBranch]) hm hw.2.1 hr h)
      (hr.emits he₂) h₃
    obtain ⟨ns, bs, c'', hns, hbs, hfb, hc₄, hr₄⟩ := branch_listed
      (fun hr h => lowerStmt_listed elseBranch (π := π ++ [Hop.elseBranch]) hm hw.2.2 hr h) hr₃ h₄
    have he₅ := emits_ifElse π ρ hfa hfb h₅
    refine ⟨_, _, .conditional hhs hms has hns hbs, he₂.adds.trans ?_, hr₄.emits he₅⟩
    exact he₅.adds.of_cmds_eq (hc₄.trans hc₃)
  | switch scrutinee cases =>
    rw [Stmt.assigned, L.allows_append] at hw
    simp only [lowerStmt, runs_bind] at h
    obtain ⟨_, s₁, h₁, v, s₂, h₂, dflt, s₃, h₃, chain, s₄, h₄, h₅⟩ := h
    have c₁ : Coded L π ρ s s₁ := .of_marks (.emitMarks h₁)
    have c₂ := c₁.trans (value_coded hw.1 (c₁.view hr.view) h₂)
    have hhead : Runs (do
        emitMarks L.env span (.switch scrutinee cases)
        value L.env scrutinee) s v s₂ := runs_bind.mpr ⟨_, s₁, h₁, h₂⟩
    obtain ⟨hs, hhs, he₂⟩ := c₂.plain hr.view hhead
    obtain ⟨ds, c', hds, hfd, hc₃, hr₃⟩ := lowerDefault_listed cases 0 hm hw.2 (hr.emits he₂) h₃
    obtain ⟨vs, ls, c'', hls, ha₄, hr₄, hchain⟩ := lowerCases_listed cases 0 hm hw.2 hfd hr₃ h₄
    have ha : Adds s (hs ++ vs) s₄ := he₂.adds.trans (ha₄.of_cmds_eq hc₃)
    rcases hchain with ⟨rfl, rfl⟩ | ⟨k, rfl, hk⟩
    · have he₅ := emits_emitAll h₅
      rw [hfd] at he₅
      refine ⟨_, _, .switch hhs hds hls, ?_, hr₄.emits he₅⟩
      rw [← List.append_assoc]
      exact ha.trans he₅.adds
    · have he₅ := emits_emit h₅
      rw [hk] at he₅
      refine ⟨_, _, .switch hhs hds hls, ?_, hr₄.emits he₅⟩
      rw [← List.append_assoc]
      exact ha.trans he₅.adds
  | goto label => exact goto_listed hm hr h
  | labeled label body =>
    simp only [lowerStmt, runs_bind] at h
    obtain ⟨_, s₁, h₁, _, s₂, h₂, h₃⟩ := h
    have c₁ : Coded L π ρ s s₁ := .of_marks (.emitMarks h₁)
    obtain ⟨ms, hms, he₁⟩ := c₁.plain hr.view h₁
    have he₂ := emits_own π ρ rfl h₂
    obtain ⟨ls, c', hl, ha, hr'⟩ := lowerStmt_listed body (π := π ++ [Hop.labelBody]) hm hw
      ((hr.emits he₁).emits he₂) h₃
    exact ⟨_, _, .labeled hms hl, he₁.adds.trans (he₂.adds.trans ha), hr'⟩
  | tryCatch body catches finalizer =>
    rw [Stmt.assigned, L.allows_append, L.allows_append] at hw
    simp only [lowerStmt, if_pos hm, runs_bind] at h
    obtain ⟨_, s₁, h₁, r, s₂, h₂, _, s₃, h₃, _, s₄, h₄, _, s₅, h₅, _, s₆, h₆, x, s₇, h₇, _, s₈, h₈,
      arms, s₉, h₉, _, s₁₀, h₁₀, _, s₁₁, h₁₁, l, s₁₂, h₁₂, _, s₁₃, h₁₃, _, s₁₄, h₁₄, h₁₅⟩ := h
    have c₁ : Coded L π ρ s s₁ := .of_marks (.emitMarks h₁)
    obtain ⟨ms, hms, he₁⟩ := c₁.plain hr.view h₁
    have hr₁ := hr.emits he₁
    obtain ⟨hr₂, hc₂, hn₂, rfl, hfresh⟩ := ready_enterRegion hr₁ h₂
    -- the body
    obtain ⟨hr₃, hc₃⟩ := ready_pushPhase (f := ⟨c.regions, id, .inTry, π⟩) hr₂ hn₂ h₃
    obtain ⟨bs, c₄, hbs, ha₄, hr₄⟩ := lowerStmt_listed body (π := π ++ [Hop.tryBody]) hm hw.1 hr₃ h₄
    have he₅ := emits_leaveNormally π hr₄.view h₅
    obtain ⟨hr₆, hc₆, hn₆⟩ := ready_popPhase (hr₄.emits he₅) h₆
    -- the catch clauses
    obtain ⟨rfl, he₇⟩ := emits_takeException (f := ⟨c.regions, id, .inCatch, π⟩) π hr₆.view hn₆ h₇
    obtain ⟨hr₈, hc₈⟩ := ready_pushPhase (f := ⟨c.regions, id, .inCatch, π⟩) (hr₆.emits he₇)
      (he₇.nodes hn₆) h₈
    have hnone : flatten (none : Option Cmd).toList = instrs [] := rfl
    obtain ⟨as, c₉, has, hf₉, hc₉, hr₉⟩ :=
      lowerCatches_listed catches 0 (π := π) hm hw.2.1 hnone hr₈ h₉
    have he₁₀ := emits_finishCatches π hr₉.view hf₉ h₁₀
    obtain ⟨hr₁₁, hc₁₁, hn₁₁⟩ := ready_popPhase (hr₉.emits he₁₀) h₁₁
    -- the finally block and the end
    obtain ⟨rfl, he₁₂⟩ := runs_finallyLabel hr₁₁.view hn₁₁.lt h₁₂
    have he₁₃ := he₁₂.trans (emits_own π ρ rfl h₁₃)
    obtain ⟨fs, c₁₄, hfs, ha₁₄, hr₁₄, hn₁₄⟩ := lowerFinally_listed finalizer (π := π)
      (f := ⟨c.regions, id, .inFinally, π⟩) hm hw.2.2 rfl (hr₁₁.emits he₁₃) (he₁₃.nodes hn₁₁) h₁₄
    have he₁₅ := emits_finishRegion π hr₁₄.view hn₁₄ h₁₅
    rw [← hr₁₄.escapes] at he₁₅
    refine ⟨_, c₁₄, .tryCatch hms hfresh hbs has hfs, he₁.adds.trans ?_, hr₁₄.emits he₁₅⟩
    have a₁₁ := (Emits.adds he₁₃).trans (ha₁₄.trans he₁₅.adds)
    have a₉ := he₁₀.adds.trans (a₁₁.of_cmds_eq hc₁₁)
    rw [List.append_assoc] at a₉
    have a₆ := he₇.adds.trans (a₉.of_cmds_eq (hc₉.trans hc₈))
    exact (ha₄.trans (he₅.adds.trans (a₆.of_cmds_eq hc₆))).of_cmds_eq (hc₃.trans hc₂)
  | throw e => exact throw_listed hm hw hr h
  | rethrow => exact rethrow_listed hm hr h

theorem lowerStmts_listed (ss : List Stmt) (hop : Nat → Hop) (i : Nat) {π : Path}
    {ρ : List Frame} {c : Counters} {s s' : State} {u : Unit}
    (hm : L.env.options.modelsExceptions = true) (hw : L.Allows (Source.assignedIn ss))
    (hr : Ready L ρ c s) (h : Runs (lowerStmts L.env ss) s u s') :
    Listed L (.stmts hop i ss) π ρ c s s' := by
  cases ss with
  | nil =>
    rw [lowerStmts, runs_pure] at h
    rw [h.2]
    exact ⟨[], c, .stmtsNil, .of_eq rfl, hr⟩
  | cons st ss =>
    rw [Source.assignedIn, L.allows_append] at hw
    simp only [lowerStmts, runs_bind] at h
    obtain ⟨_, s₁, h₁, h₂⟩ := h
    obtain ⟨as, c₁, has, ha₁, hr₁⟩ := lowerStmt_listed st (π := π ++ [hop i]) hm hw.1 hr h₁
    obtain ⟨bs, c₂, hbs, ha₂, hr₂⟩ := lowerStmts_listed ss hop (i + 1) hm hw.2 hr₁ h₂
    exact ⟨_, _, .stmtsCons has hbs, ha₁.trans ha₂, hr₂⟩

theorem lowerDefault_listed (cases : List SwitchCase) (i : Nat) {π : Path} {ρ : List Frame}
    {c : Counters} {s s' : State} {cs : List Cmd} (hm : L.env.options.modelsExceptions = true)
    (hw : L.Allows (Source.assignedInCases cases)) (hr : Ready L ρ c s)
    (h : Runs (lowerDefault L.env cases) s cs s') :
    ∃ ls c', Listing L (.default i cases) π ρ c ls c' ∧ flatten cs = instrs ls ∧
      s'.cmds = s.cmds ∧ Ready L ρ c' s' := by
  cases cases with
  | nil =>
    rw [lowerDefault, runs_pure] at h
    rw [h.1, h.2]
    exact ⟨[], c, .defaultNil, rfl, rfl, hr⟩
  | cons case cases =>
    obtain ⟨span, value, body⟩ := case
    rw [Source.assignedInCases, L.allows_append, L.allows_append] at hw
    rw [lowerDefault] at h
    by_cases hv : (value.isSome || cases.any (·.value.isNone)) = true
    · rw [if_pos hv] at h
      obtain ⟨ls, c', hl, hf, hc, hr'⟩ := lowerDefault_listed cases (i + 1) hm hw.2.2 hr h
      exact ⟨ls, c', .defaultLater hv hl, hf, hc, hr'⟩
    · rw [if_neg hv] at h
      obtain ⟨ls, c', hl, hf, hc, hr'⟩ := listed_aside
        (fun hr h => lowerStmts_listed body (.caseItem i) 0 hm hw.2.1 hr h) hr h
      rw [Bool.or_eq_true, not_or, Bool.not_eq_true, Bool.not_eq_true] at hv
      obtain rfl : value = none := by simpa using hv.1
      exact ⟨ls, c', .defaultHere hv.2 hl, hf, hc, hr'⟩

theorem lowerCases_listed (cases : List SwitchCase) (i : Nat) {π : Path} {ρ : List Frame}
    {c : Counters} {s s' : State} {v : Ir.Expr} {dflt : List Cmd} {ds : List Line}
    {chain : Option Cmd} (hm : L.env.options.modelsExceptions = true)
    (hw : L.Allows (Source.assignedInCases cases)) (hd : flatten dflt = instrs ds)
    (hr : Ready L ρ c s) (h : Runs (lowerCases L.env v dflt cases) s chain s') :
    ∃ vs ls c', Listing L (.cases v ds vs i cases) π ρ c ls c' ∧ Adds s vs s' ∧
      Ready L ρ c' s' ∧
      ((chain = none ∧ ls = ds) ∨ ∃ k, chain = some k ∧ Machine.flattenCmd k = instrs ls) := by
  cases cases with
  | nil =>
    rw [lowerCases, runs_pure] at h
    rw [h.1, h.2]
    exact ⟨[], ds, c, .casesNil, .of_eq rfl, hr, .inl ⟨rfl, rfl⟩⟩
  | cons case cases =>
    obtain ⟨span, value?, body⟩ := case
    rw [Source.assignedInCases, L.allows_append, L.allows_append] at hw
    simp only [lowerCases, runs_bind] at h
    obtain ⟨rest, s₁, h₁, h⟩ := h
    obtain ⟨vs, ls, c₁, hl, ha₁, hr₁, hrest⟩ :=
      lowerCases_listed cases (i + 1) hm hw.2.2 hd hr h₁
    cases value? with
    | none =>
      rw [runs_pure] at h
      rw [h.1, h.2]
      exact ⟨vs, ls, c₁, .casesDefault hl, ha₁, hr₁, hrest⟩
    | some e =>
      simp only [runs_bind, runs_pure] at h
      obtain ⟨w, s₂, h₂, cmds, s₃, h₃, rfl, rfl⟩ := h
      have hwe : L.Allows e.assigned := by simpa [Source.assignedOption] using hw.1
      obtain ⟨ws, hws, he₂⟩ := (value_coded (π := π) hwe hr₁.view h₂).plain hr₁.view h₂
      obtain ⟨bs, c₂, hbs, hfb, hc₃, hr₃⟩ := listed_aside
        (fun hr h => lowerStmts_listed body (.caseItem i) 0 hm hw.2.1 hr h) (hr₁.emits he₂) h₃
      have helse : flatten (match rest with
          | some inner => [inner]
          | none => dflt) = instrs ls := by
        rcases hrest with ⟨rfl, rfl⟩ | ⟨k, rfl, hk⟩
        · exact hd
        · rw [Machine.flatten_singleton, hk]
      have ha : Adds s (vs ++ ws) s' := by
        obtain ⟨cs, hcs, hf⟩ := ha₁.trans he₂.adds
        exact ⟨cs, by rw [hc₃, hcs], hf⟩
      refine ⟨_, _, _, .casesCons hl hws hbs, ha, hr₃, .inr ⟨_, rfl, ?_⟩⟩
      rw [instrs_choice, ← hfb, ← helse]
      cases rest <;> rfl

theorem lowerCatches_listed (clauses : List CatchClause) (i : Nat) {π : Path} {f : Frame}
    {ρ : List Frame} {c : Counters} {s s' : State} {arms : List (Ir.Expr × List Cmd)}
    {inner : Option Cmd} {before : List Line} (hm : L.env.options.modelsExceptions = true)
    (hw : L.Allows (Source.assignedInCatches clauses))
    (hb : flatten inner.toList = instrs before) (hr : Ready L (f :: ρ) c s)
    (h : Runs (lowerCatches L.env f.region (Slot.caught f.region).name clauses) s arms s') :
    ∃ ls c', Listing L (.catches f.region before i clauses) π (f :: ρ) c ls c' ∧
      flatten (arms.foldl (fun inner (test, body) => some (.ifElse test body inner.toList))
        inner).toList = instrs ls ∧
      s'.cmds = s.cmds ∧ Ready L (f :: ρ) c' s' := by
  cases clauses with
  | nil =>
    rw [lowerCatches, runs_pure] at h
    rw [h.1, h.2]
    exact ⟨before, c, .catchesNil, hb, rfl, hr⟩
  | cons clause clauses =>
    obtain ⟨span, type, binding, body⟩ := clause
    rw [Source.assignedInCatches, L.allows_append, L.allows_append] at hw
    simp only [lowerCatches, runs_bind, runs_pure] at h
    obtain ⟨cmds, s₁, h₁, rest, s₂, h₂, rfl, rfl⟩ := h
    obtain ⟨ls, c₁, ⟨ms, bs, rfl, hms, hbs⟩, hf₁, hc₁, hr₁⟩ := listed_aside
      (P := fun ls c' => ∃ ms bs, ls = ms ++ (bs ++ leaveLines π (f :: ρ) f.region) ∧
        Plain L π (f :: ρ) (bindCaught L.env (Slot.caught f.region).name span binding) () ms ∧
        Listing L (.stmt body) (π ++ [Hop.catchBody i]) (f :: ρ) c bs c')
      (fun {t t'} ht h => by
        simp only [runs_bind] at h
        obtain ⟨_, t₁, h₁, _, t₂, h₂, h₃⟩ := h
        obtain ⟨ms, hms, he₁⟩ := (bindCaught_coded (π := π) hw.1 h₁).plain ht.view h₁
        obtain ⟨bs, c', hbs, ha₂, ht₂⟩ :=
          lowerStmt_listed body (π := π ++ [Hop.catchBody i]) hm hw.2.1 (ht.emits he₁) h₂
        have he₃ := emits_leaveNormally π ht₂.view h₃
        exact ⟨_, c', ⟨ms, bs, rfl, hms, hbs⟩, he₁.adds.trans (ha₂.trans he₃.adds),
          ht₂.emits he₃⟩) hr h₁
    have hb' : flatten (some (Cmd.ifElse (catchTest (Slot.caught f.region).name type) cmds
        inner.toList)).toList = instrs (choice π (f :: ρ)
          (catchTest (Slot.caught f.region).name type)
          (ms ++ (bs ++ leaveLines π (f :: ρ) f.region)) before) := by
      rw [Option.toList_some, Machine.flatten_singleton, Machine.flattenCmd, instrs_choice, hf₁, hb]
    obtain ⟨ls, c₂, hl, hf₂, hc₂, hr₂⟩ := lowerCatches_listed clauses (i + 1) hm hw.2.2 hb' hr₁ h₂
    exact ⟨ls, c₂, .catchesCons hms hbs hl, hf₂, hc₂.trans hc₁, hr₂⟩

theorem lowerFinally_listed (st : Option Stmt) {π : Path} {f : Frame} {ρ : List Frame}
    {c : Counters} {s s' : State} {u : Unit} (hm : L.env.options.modelsExceptions = true)
    (hw : L.Allows (Source.assignedInOption st)) (hf : f.phase = .inFinally)
    (hr : Ready L ρ c s) (hn : s.HasNode f.region f.node)
    (h : Runs (lowerFinally L.env f.region st) s u s') :
    ∃ ls c', Listing L (.finalizer st) π (f :: ρ) c ls c' ∧ Adds s ls s' ∧ Ready L ρ c' s' ∧
      s'.HasNode f.region f.node := by
  cases st with
  | none =>
    rw [lowerFinally, runs_pure] at h
    rw [h.2]
    exact ⟨[], c, .finalizerNone, .of_eq rfl, hr, hn⟩
  | some st =>
    simp only [lowerFinally, runs_bind] at h
    obtain ⟨_, s₁, h₁, ⟨x, y⟩, s₂, h₂, _, s₃, h₃, _, s₄, h₄, h₅⟩ := h
    rw [← hf] at h₁ h₅
    obtain ⟨hc₁, hv₁, hcount₁⟩ := runs_pushPhase hr.view hn h₁
    obtain ⟨hxy, ht₂, he₂⟩ := emits_saveForFinally h₂
    cases hxy
    have ht₁ : s₁.nextTemp = s.nextTemp := congrArg Counters.temps hcount₁
    have hr₂ : Ready L (f :: ρ) { c with temps := s₁.nextTemp + 2 } s₂ := by
      refine ⟨he₂.view hv₁, ?_, ht₂, ?_⟩
      · rw [he₂.regions, hcount₁]
        exact hr.regions
      · rw [he₂.escapes, hcount₁]
        exact hr.escapes
    obtain ⟨ls, c', hl, ha₃, hr₃⟩ := lowerStmt_listed st (π := π ++ [Hop.finalizer]) hm hw hr₂ h₃
    have he₄ := emits_restoreAfterFinally h₄
    have hr₄ := hr₃.emits he₄
    obtain ⟨hc₅, hv₅, hcount₅, hn₅⟩ := runs_popPhase hr₄.view h₅
    refine ⟨_, c', .finalizerSome (n := s₁.nextTemp) ?_ hl, ?_, ?_, hn₅⟩
    · rw [ht₁]
      exact hr.temps
    · rw [← instrs_own π (f :: ρ) [_, _, _]] at he₂
      rw [← instrs_own π (f :: ρ) [_, _]] at he₄
      obtain ⟨cs, hcs, hfl⟩ := (he₂.adds.trans (ha₃.trans he₄.adds)).of_cmds_eq hc₁
      exact ⟨cs, by rw [hc₅, hcs], hfl⟩
    · exact ⟨hv₅, hcount₅ ▸ hr₄.regions, hcount₅ ▸ hr₄.temps, hcount₅ ▸ hr₄.escapes⟩

end

/-! ## Methods -/

/-- A body starts between no frames, with nothing given out. -/
theorem ready_startContext (params returns : List Ir.VarDecl) (t : Shared) :
    Ready L [] ⟨0, 0, fun _ => 0⟩ ⟨startContext L.scopes params returns, t⟩ := by
  obtain ⟨names, slot, hslot, he⟩ := startContext_eq L.scopes params returns
  rw [he]
  exact ⟨⟨by simp, rfl, by simp, rfl, hslot⟩, rfl, Nat.le_refl _, rfl⟩

/-- A method that is lowered has the code of its body. -/
theorem lowerMethod_listed {env : Env} {owner : Source.TypeDef} {m : Source.MethodDef}
    {body : Stmt} {p : Ir.Procedure} {shared shared' : Shared}
    (hm : env.options.modelsExceptions = true) (hbody : m.body = some body)
    (h : Runs (lowerMethod env owner m) shared p shared') :
    ∃ scopes, LabelScopes.collect body = .ok scopes ∧
      ∀ writes : String → Prop, (∀ x ∈ body.assigned, writes x) →
        ∃ lines, BodyListing ⟨env, scopes, writes⟩ body lines ∧
          ∃ cmds, p.body = some cmds ∧ flatten cmds = instrs lines := by
  obtain ⟨-, -, scopes, s, hsc, hrun, -, hp⟩ := runs_lowerMethod hbody h
  refine ⟨scopes, hsc, fun writes hw => ?_⟩
  obtain ⟨_, s₁, h₁, h₂⟩ := runs_bind.mp hrun
  let L : Layout := ⟨env, scopes, writes⟩
  have hr : Ready L [] _ _ := ready_startContext p.params p.returns (announce owner m shared)
  have c₁ : Coded L [] [] _ s₁ := .of_marks (.breadcrumb h₁)
  obtain ⟨ms, hms, he₁⟩ := c₁.plain hr.view h₁
  obtain ⟨ls, c, hls, ha₂, -⟩ := lowerStmt_listed body (L := L) (π := []) hm hw (hr.emits he₁) h₂
  obtain ⟨cs, hcs, hf⟩ := he₁.adds.trans ha₂
  refine ⟨ms ++ ls, .mk hms hls, s.cmds, hp, ?_⟩
  rw [hcs, cmds_startContext, List.nil_append, hf]

end Unwind.Lowering
