import Unwind.Proofs.Lowering.Sound
import Unwind.Proofs.Scopes
import Unwind.Proofs.Structured

/-!
# Structured bodies are accepted

The lowering fails on a body without jumps only where a value is missing, at a stray `rethrow`, or
at an unbalanced stack. None of these occurs in a structured body: most steps succeed in every
state, and those that look at the stack find the frames they have put there.
-/

namespace Unwind.Lowering

open Source (CatchClause Expr MethodDef MethodRef Path Stmt StmtKind TypeDef Variable)
open Structured (isAtom isBinding isStructured isVoidCall isNew)

/-! ## Steps that succeed -/

section Steps

variable {α β : Type} {s : State} {env : Env}

/-- The step succeeds in this state. -/
def Succeeds (act : Lower α) (s : State) : Prop := ∃ a s', Runs act s a s'

/-- The step succeeds in every state. -/
def Total (act : Lower α) : Prop := ∀ s, Succeeds act s

theorem Succeeds.bind {x : Lower α} {f : α → Lower β} (hx : Succeeds x s)
    (hf : ∀ {a s₁}, Runs x s a s₁ → Succeeds (f a) s₁) : Succeeds (x >>= f) s := by
  obtain ⟨a, s₁, h₁⟩ := hx
  obtain ⟨b, s₂, h₂⟩ := hf h₁
  exact ⟨b, s₂, runs_bind.mpr ⟨a, s₁, h₁, h₂⟩⟩

theorem Succeeds.aside {act : Lower Unit} (h : Succeeds act { s with cmds := [] }) :
    Succeeds (commandsOf act) s := by
  obtain ⟨_, s₁, h₁⟩ := h
  exact ⟨_, _, runs_commandsOf.mpr ⟨s₁, h₁, rfl, rfl⟩⟩

theorem total_bind {x : Lower α} {f : α → Lower β} (hx : Total x) (hf : ∀ a, Total (f a)) :
    Total (x >>= f) := fun s => (hx s).bind fun _ => hf _ _

theorem total_pure (a : α) : Total (pure a : Lower α) :=
  fun s => ⟨a, s, runs_pure.mpr ⟨rfl, rfl⟩⟩

theorem total_modify (f : State → State) : Total (modify f) :=
  fun _ => ⟨(), _, runs_modify.mpr rfl⟩

theorem total_modifyGet (f : State → α × State) : Total (modifyGet f) :=
  fun _ => ⟨_, _, runs_modifyGet.mpr rfl⟩

theorem total_context : Total context := fun s => ⟨_, s, runs_context.mpr ⟨rfl, rfl⟩⟩

theorem total_emit (c : Ir.Cmd) : Total (emit c) := total_modify _

theorem total_emitAll (cs : List Ir.Cmd) : Total (emitAll cs) := total_modify _

theorem total_when {b : Bool} {act : Lower Unit} (h : Total act) :
    Total (if b = true then act else pure ()) := by
  cases b with
  | false => exact total_pure ()
  | true => exact h

theorem total_record (label : String) (ty : Ir.Ty) (v : Ir.Expr) : Total (record env label ty v) :=
  total_when (total_bind (total_modifyGet _) fun _ => total_emit _)

theorem total_breadcrumb : Total (breadcrumb env) :=
  total_when (total_bind (total_modifyGet _) fun _ => total_emit _)

theorem total_emitMarks (span : Span) (kind : StmtKind) : Total (emitMarks env span kind) := by
  refine total_when ?_
  dsimp only
  split
  · exact total_bind (total_emit _) fun _ =>
      total_when (total_bind (total_modifyGet _) fun _ => total_emit _)
  · exact total_when (total_bind (total_modifyGet _) fun _ => total_emit _)

theorem total_useLabelVar : Total useLabelVar :=
  total_bind (total_modify _) fun _ => total_pure _

theorem total_pushPhase (region : Nat) (phase : Phase) : Total (pushPhase region phase) :=
  total_bind (total_modify _) fun _ => total_modify _

theorem total_leaveNormally (region : Nat) : Total (leaveNormally region) :=
  total_bind total_useLabelVar fun _ => total_bind (total_emit _) fun _ =>
    total_bind (total_modifyGet _) fun _ => total_emit _

theorem total_propagate : Total (propagate env) := by
  refine total_bind total_context fun cx => ?_
  split
  · exact total_bind (total_record _ _ _) fun _ => total_emit _
  · exact total_bind (total_modifyGet _) fun _ => total_emit _
  · exact total_bind total_useLabelVar fun _ => total_bind (total_emit _) fun _ =>
      total_bind (total_modifyGet _) fun _ => total_emit _
  · exact total_bind (total_modifyGet _) fun _ => total_emit _

theorem total_propagateIfAny : Total (propagateIfAny env) :=
  total_bind (fun _ => (total_propagate _).aside) fun _ => total_emit _

theorem total_emitCall (method : MethodRef) (args : List Ir.Expr) (outs : List String) :
    Total (emitCall env method args outs) :=
  total_bind (total_emit _) fun _ => total_when total_propagateIfAny

theorem total_finishNew (type : Source.TypeRef) (ctor : Option MethodRef) (args : List Ir.Expr) :
    Total (finishNew env type ctor args) := by
  refine total_bind ?_ fun object => ?_
  · exact total_bind (total_modifyGet _) fun _ => total_bind (total_emit _) fun _ => total_pure _
  · cases ctor with
    | none => exact total_pure _
    | some method => exact total_bind (total_emitCall _ _ _) fun _ => total_pure _

theorem total_takeException (region : Nat) : Total (takeException region) :=
  total_bind (total_modifyGet _) fun _ => total_bind (total_emit _) fun _ =>
    total_bind (total_modifyGet _) fun _ => total_bind (total_emit _) fun _ =>
      total_bind (total_emit _) fun _ => total_pure _

theorem total_finishCatches (caught : String) (arms : List (Ir.Expr × List Ir.Cmd)) :
    Total (finishCatches env caught arms) :=
  total_bind (total_emitAll _) fun _ => total_bind (total_emit _) fun _ => total_propagate

theorem total_saveForFinally : Total saveForFinally :=
  total_bind total_useLabelVar fun _ => total_bind (total_modifyGet _) fun _ =>
    total_bind (total_modifyGet _) fun _ => total_bind (total_emit _) fun _ =>
      total_bind (total_emit _) fun _ => total_bind (total_emit _) fun _ => total_pure _

theorem total_restoreAfterFinally (x y : String) : Total (restoreAfterFinally x y) :=
  total_bind (total_emit _) fun _ => total_emit _

theorem total_finishRegion (region : Nat) : Total (finishRegion env region) := by
  refine total_bind ?_ fun _ => total_bind (total_modifyGet _) fun _ =>
    total_bind (total_emit _) fun _ => total_propagateIfAny
  refine total_bind (total_modifyGet _) fun l => total_bind total_context fun cx => ?_
  dsimp only
  split
  · exact total_emitAll _
  · exact total_bind total_useLabelVar fun _ => total_emitAll _

end Steps

/-! ## Expressions of the fragment -/

section Expressions

variable {env : Env} {s s' : State}

/-- The expression that a literal or a variable is lowered to. -/
def atomExpr (env : Env) (e : Expr) : Ir.Expr :=
  match e.kind with
  | .literal lit => literal env lit
  | .var name => .ident name
  | _ => .ident "this"

/-- A literal or a variable is lowered without commands. -/
theorem runs_atom {e : Expr} {compound : Bool} {r : Option Ir.Expr} (h : isAtom e = true) :
    Runs (lowerExpr env e compound) s r s' ↔ r = some (atomExpr env e) ∧ s' = s := by
  obtain ⟨id, span, ty, kind⟩ := e
  cases kind with
  | literal | var | self => simp only [lowerExpr, runs_pure, atomExpr]
  | _ => cases h

theorem runs_atoms {es : List Expr} {vs : List Ir.Expr} (h : es.all isAtom = true) :
    Runs (lowerArgs env es) s vs s' ↔ vs = es.map (atomExpr env) ∧ s' = s := by
  induction es generalizing s s' vs with
  | nil => simp only [lowerArgs, runs_pure, List.map_nil]
  | cons e es ih =>
    rw [List.all_cons, Bool.and_eq_true] at h
    simp only [lowerArgs, runs_bind, runs_valueOf, runs_pure, runs_atom h.1, ih h.2]
    constructor
    · rintro ⟨v, _, ⟨⟨⟩, rfl⟩, _, _, ⟨rfl, rfl⟩, rfl, rfl⟩
      exact ⟨rfl, rfl⟩
    · rintro ⟨rfl, rfl⟩
      exact ⟨_, s', ⟨rfl, rfl⟩, _, s', ⟨rfl, rfl⟩, rfl, rfl⟩

theorem runs_atomOption {e : Option Expr} {r : Option Ir.Expr} (h : e.all isAtom = true) :
    Runs (lowerOption env e) s r s' ↔ r = e.map (atomExpr env) ∧ s' = s := by
  cases e with
  | none => simp only [lowerOption, runs_pure, Option.map_none]
  | some e =>
    have he : isAtom e = true := h
    simp only [lowerOption, runs_bind, runs_valueOf, runs_pure, runs_atom he, Option.map_some]
    constructor
    · rintro ⟨v, _, ⟨⟨⟩, rfl⟩, rfl, rfl⟩
      exact ⟨rfl, rfl⟩
    · rintro ⟨rfl, rfl⟩
      exact ⟨_, s', ⟨rfl, rfl⟩, rfl, rfl⟩

theorem total_voidCall {e : Expr} (h : isVoidCall e = true) (compound : Bool) :
    Total (lowerExpr env e compound) := by
  obtain ⟨id, span, ty, kind⟩ := e
  cases kind with
  | call call =>
    obtain ⟨method, receiver, args, isVirtual⟩ := call
    simp only [isVoidCall, Bool.and_eq_true] at h
    obtain ⟨⟨⟨hty, -⟩, hrec⟩, hargs⟩ := h
    rw [lowerExpr]
    refine total_bind (fun s => ⟨_, s, (runs_atomOption hrec).mpr ⟨rfl, rfl⟩⟩) fun r => ?_
    refine total_bind (fun s => ⟨_, s, (runs_atoms hargs).mpr ⟨rfl, rfl⟩⟩) fun vs => ?_
    rw [finishCall, if_pos hty]
    exact total_bind (total_emitCall _ _ _) fun _ => total_pure _
  | _ => cases h

theorem total_new {e : Expr} (h : isNew e = true) : Total (value env e) := by
  obtain ⟨id, span, ty, kind⟩ := e
  cases kind with
  | new type ctor args =>
    rw [value, valueOf, lowerExpr]
    intro s
    obtain ⟨v, s', hv⟩ : Succeeds (finishNew env type ctor (args.map (atomExpr env))) s :=
      total_finishNew _ _ _ s
    refine ⟨v, s', runs_bind.mpr ⟨some v, s', ?_, runs_pure.mpr ⟨rfl, rfl⟩⟩⟩
    exact runs_bind.mpr ⟨_, s, (runs_atoms h).mpr ⟨rfl, rfl⟩,
      runs_bind.mpr ⟨v, s', hv, runs_pure.mpr ⟨rfl, rfl⟩⟩⟩
  | _ => cases h

/-- The truth of a value that is not void. -/
theorem exists_truthOf {e : Expr} (h : e.ty.isVoid = false) (v : Ir.Expr) :
    ∃ c, truthOf e v = .ok c := by
  unfold truthOf
  cases hty : e.ty with
  | void =>
    rw [hty] at h
    cases h
  | bool | int | named => exact ⟨_, rfl⟩

theorem total_condition {e : Expr} (h : isAtom e = true) (hty : e.ty.isVoid = false) :
    Total (condition env e) := by
  intro s
  obtain ⟨c, hc⟩ := exists_truthOf hty (atomExpr env e)
  exact ⟨c, s, runs_conditionOf.mpr ⟨_, (runs_atom h).mpr ⟨rfl, rfl⟩, hc⟩⟩

theorem exists_irTy {ty : Source.Ty} (h : ty.isVoid = false) (span : Span) :
    ∃ t, irTy ty span = .ok t := by
  cases ty with
  | void => cases h
  | bool | int | named => exact ⟨_, rfl⟩

theorem total_bindCaught {binding : Option Variable} (h : isBinding binding = true)
    (caught : String) (span : Span) : Total (bindCaught env caught span binding) := by
  cases binding with
  | none => exact total_pure ()
  | some v =>
    simp only [isBinding, Option.all_some, Bool.and_eq_true, Bool.not_eq_true'] at h
    obtain ⟨t, ht⟩ := exists_irTy h.2 span
    rw [bindCaught]
    refine total_bind (fun s => ⟨t, s, runs_lift.mpr ⟨ht, rfl⟩⟩) fun _ => ?_
    exact total_bind (total_modify _) fun _ => total_bind (total_record _ _ _) fun _ => total_emit _

end Expressions

/-! ## Statements -/

section Statements

variable {L : Layout} {ρ : List Frame} {c : Counters} {s s' : State} {u : Unit}

theorem Ready.marks (hr : Ready L ρ c s) (h : Marks s s') : Ready L ρ c s' := by
  obtain ⟨is, -, he⟩ := h
  exact hr.emits he

theorem succeeds_popPhase {f : Frame} (hr : Ready L (f :: ρ) c s) :
    Succeeds (popPhase f.region f.phase) s :=
  ⟨(), _, (runs_popPhase_iff hr.view).mpr rfl⟩

theorem succeeds_rethrow {span : Span} (hin : (catchOf ρ).isSome = true) (hr : Ready L ρ c s) :
    Succeeds (lowerRethrow L.env span) s := by
  unfold lowerRethrow
  split
  · refine (total_context s).bind fun {cx s₁} h => ?_
    obtain ⟨rfl, rfl⟩ := runs_context.mp h
    obtain ⟨region, hregion⟩ := Option.isSome_iff_exists.mp hin
    rw [hr.view.innermostCatch_eq, hregion]
    exact total_bind (total_modifyGet _) (fun _ => total_bind (total_record _ _ _) fun _ =>
      total_bind (total_emit _) fun _ => total_propagate) _
  · exact total_emit _ _

/-- A branch, with the breadcrumb in front of it. -/
theorem succeeds_branch {st : Stmt}
    (hst : ∀ {t : State}, Ready L ρ c t → Succeeds (lowerStmt L.env st) t) (hr : Ready L ρ c s) :
    Succeeds (commandsOf (do breadcrumb L.env; lowerStmt L.env st)) s :=
  (Succeeds.bind (total_breadcrumb _) fun h =>
    hst ((hr.withCmds []).marks (.breadcrumb h))).aside

mutual

/-- A structured statement is lowered wherever its `rethrow`s find a catch clause. -/
theorem lowerStmt_succeeds (st : Stmt) {inCatch : Bool} {ρ : List Frame} {c : Counters} {s : State}
    (hm : L.env.options.modelsExceptions = true) (hw : ∀ x, L.writes x)
    (hst : isStructured inCatch st = true) (hin : inCatch = true → (catchOf ρ).isSome = true)
    (hr : Ready L ρ c s) : Succeeds (lowerStmt L.env st) s := by
  obtain ⟨id, span, kind⟩ := st
  cases kind with
  | block ss =>
    refine Succeeds.bind (total_emitMarks _ _ _) fun h₁ => ?_
    exact lowerStmts_succeeds ss hm hw hst hin (hr.marks (.emitMarks h₁))
  | empty => exact Succeeds.bind (total_emitMarks _ _ _) fun _ => total_pure _ _
  | conditional cond thenBranch elseBranch =>
    simp only [isStructured, Bool.and_eq_true, Bool.not_eq_true'] at hst
    obtain ⟨⟨⟨hatom, hty⟩, hthen⟩, helse⟩ := hst
    refine Succeeds.bind (total_emitMarks _ _ _) fun h₁ => ?_
    have hr₁ := hr.marks (.emitMarks h₁)
    refine Succeeds.bind (total_condition hatom hty _) fun h₂ => ?_
    obtain ⟨v, h₂, -⟩ := runs_conditionOf.mp h₂
    obtain ⟨-, rfl⟩ := (runs_atom hatom).mp h₂
    have hthen' : ∀ {t : State}, Ready L ρ c t → Succeeds (lowerStmt L.env thenBranch) t :=
      fun hr => lowerStmt_succeeds thenBranch hm hw hthen hin hr
    refine Succeeds.bind (succeeds_branch hthen' hr₁) fun h₃ => ?_
    obtain ⟨_, _, c₃, -, -, -, -, hr₃⟩ := branch_listed (π := []) (κ := [])
      (fun hr h => lowerStmt_listed thenBranch hm (fun x _ => hw x) hr h) hr₁ h₃
    have helse' : ∀ {t : State}, Ready L ρ c₃ t → Succeeds (lowerStmt L.env elseBranch) t :=
      fun hr => lowerStmt_succeeds elseBranch hm hw helse hin hr
    exact Succeeds.bind (succeeds_branch helse' hr₃) fun _ => total_emit _ _
  | expression e =>
    refine Succeeds.bind (total_emitMarks _ _ _) fun _ => ?_
    exact Succeeds.bind (total_voidCall hst _ _) fun _ => total_pure _ _
  | throw e =>
    refine Succeeds.bind (total_emitMarks _ _ _) fun _ => ?_
    simp only [lowerThrow, if_pos hm]
    exact Succeeds.bind (total_new hst _) fun _ => total_bind (total_record _ _ _)
      (fun _ => total_bind (total_emit _) fun _ => total_propagate) _
  | rethrow =>
    refine Succeeds.bind (total_emitMarks _ _ _) fun h₁ => ?_
    exact succeeds_rethrow (hin hst) (hr.marks (.emitMarks h₁))
  | tryCatch body catches finalizer =>
    simp only [isStructured, Bool.and_eq_true] at hst
    obtain ⟨⟨hbody, hcatches⟩, hfinal⟩ := hst
    refine Succeeds.bind (total_emitMarks _ _ _) fun h₁ => ?_
    have hr₁ := hr.marks (.emitMarks h₁)
    simp only [if_pos hm]
    refine Succeeds.bind (total_modifyGet _ _) fun h₂ => ?_
    obtain ⟨hr₂, -, hn₂, rfl, -⟩ := ready_enterRegion hr₁ h₂
    -- the body
    refine Succeeds.bind (total_pushPhase _ _ _) fun h₃ => ?_
    obtain ⟨hr₃, -⟩ := ready_pushPhase (f := ⟨c.regions, id, .inTry, []⟩) hr₂ hn₂ h₃
    refine Succeeds.bind (lowerStmt_succeeds body hm hw hbody ?_ hr₃) fun h₄ => ?_
    · intro h
      exact hin h
    obtain ⟨_, c₄, -, -, hr₄⟩ := lowerStmt_listed body (π := []) hm (fun x _ => hw x) hr₃ h₄
    refine Succeeds.bind (total_leaveNormally _ _) fun h₅ => ?_
    have hr₅ := hr₄.emits (emits_leaveNormally [] hr₄.view h₅)
    refine Succeeds.bind (succeeds_popPhase hr₅) fun h₆ => ?_
    obtain ⟨hr₆, -, hn₆⟩ := ready_popPhase hr₅ h₆
    -- the catch clauses
    refine Succeeds.bind (total_takeException _ _) fun h₇ => ?_
    obtain ⟨rfl, he₇⟩ := emits_takeException (f := ⟨c.regions, id, .inCatch, []⟩) [] hr₆.view hn₆ h₇
    refine Succeeds.bind (total_pushPhase _ _ _) fun h₈ => ?_
    obtain ⟨hr₈, -⟩ := ready_pushPhase (f := ⟨c.regions, id, .inCatch, []⟩) (hr₆.emits he₇)
      (he₇.nodes hn₆) h₈
    refine Succeeds.bind (lowerCatches_succeeds catches hm hw hcatches rfl hr₈) fun h₉ => ?_
    have hnone : Machine.flatten (none : Option Ir.Cmd).toList = instrs [] := rfl
    obtain ⟨_, c₉, -, hf₉, -, hr₉⟩ :=
      lowerCatches_listed catches 0 (π := []) hm (fun x _ => hw x) hnone hr₈ h₉
    refine Succeeds.bind (total_finishCatches _ _ _) fun h₁₀ => ?_
    have hr₁₀ := hr₉.emits (emits_finishCatches [] hr₉.view hf₉ h₁₀)
    refine Succeeds.bind (succeeds_popPhase hr₁₀) fun h₁₁ => ?_
    obtain ⟨hr₁₁, -, hn₁₁⟩ := ready_popPhase hr₁₀ h₁₁
    -- the finally block and the end
    refine Succeeds.bind (total_modifyGet _ _) fun h₁₂ => ?_
    obtain ⟨rfl, he₁₂⟩ := runs_finallyLabel hr₁₁.view hn₁₁.lt h₁₂
    refine Succeeds.bind (total_emit _ _) fun h₁₃ => ?_
    have he₁₃ := he₁₂.trans (emits_emit h₁₃)
    refine Succeeds.bind (lowerFinally_succeeds finalizer (f := ⟨c.regions, id, .inFinally, []⟩)
      hm hw hfinal hin rfl (hr₁₁.emits he₁₃) (he₁₃.nodes hn₁₁)) fun _ => ?_
    exact total_finishRegion _ _
  | _ => cases hst

theorem lowerStmts_succeeds (ss : List Stmt) {inCatch : Bool} {ρ : List Frame} {c : Counters}
    {s : State} (hm : L.env.options.modelsExceptions = true) (hw : ∀ x, L.writes x)
    (hss : Structured.allStructured inCatch ss = true)
    (hin : inCatch = true → (catchOf ρ).isSome = true) (hr : Ready L ρ c s) :
    Succeeds (lowerStmts L.env ss) s := by
  cases ss with
  | nil => exact total_pure _ _
  | cons st ss =>
    rw [Structured.allStructured, Bool.and_eq_true] at hss
    refine Succeeds.bind (lowerStmt_succeeds st hm hw hss.1 hin hr) fun h₁ => ?_
    obtain ⟨_, c₁, -, -, hr₁⟩ := lowerStmt_listed st (π := []) hm (fun x _ => hw x) hr h₁
    exact lowerStmts_succeeds ss hm hw hss.2 hin hr₁

theorem lowerCatches_succeeds (clauses : List CatchClause) {f : Frame} {ρ : List Frame}
    {c : Counters} {s : State} (hm : L.env.options.modelsExceptions = true) (hw : ∀ x, L.writes x)
    (hcl : Structured.catchesStructured clauses = true) (hf : f.phase = .inCatch)
    (hr : Ready L (f :: ρ) c s) :
    Succeeds (lowerCatches L.env f.region (Slot.caught f.region).name clauses) s := by
  cases clauses with
  | nil => exact total_pure _ _
  | cons clause clauses =>
    obtain ⟨span, type, binding, body⟩ := clause
    simp only [Structured.catchesStructured, Bool.and_eq_true] at hcl
    obtain ⟨⟨hbind, hbody⟩, hrest⟩ := hcl
    have hin : true = true → (catchOf (f :: ρ)).isSome = true := fun _ => by simp [catchOf, hf]
    refine Succeeds.bind (Succeeds.aside ?_) fun h₁ => ?_
    · refine Succeeds.bind (total_bindCaught hbind _ _ _) fun h₂ => ?_
      obtain ⟨_, he₂, -⟩ := bindCaught_coded (L := L) (π := []) (ρ := f :: ρ) (fun x _ => hw x) h₂
      have hr₂ := (hr.withCmds []).emits he₂
      exact Succeeds.bind (lowerStmt_succeeds body hm hw hbody hin hr₂) fun _ =>
        total_leaveNormally _ _
    · obtain ⟨_, c₁, -, -, -, hr₁⟩ := listed_aside
        (P := fun _ _ => True)
        (fun {t t'} ht h => by
          simp only [runs_bind] at h
          obtain ⟨_, t₁, h₁, _, t₂, h₂, h₃⟩ := h
          obtain ⟨ms, he₁, -⟩ := bindCaught_coded (L := L) (π := []) (ρ := f :: ρ)
            (fun x _ => hw x) h₁
          obtain ⟨bs, c', -, ha₂, ht₂⟩ :=
            lowerStmt_listed body (π := []) hm (fun x _ => hw x) (ht.emits he₁) h₂
          have he₃ := emits_leaveNormally [] ht₂.view h₃
          exact ⟨_, c', trivial, he₁.adds.trans (ha₂.trans he₃.adds), ht₂.emits he₃⟩) hr h₁
      exact Succeeds.bind (lowerCatches_succeeds clauses hm hw hrest hf hr₁) fun _ => total_pure _ _

theorem lowerFinally_succeeds (st : Option Stmt) {inCatch : Bool} {f : Frame} {ρ : List Frame}
    {c : Counters} {s : State} (hm : L.env.options.modelsExceptions = true) (hw : ∀ x, L.writes x)
    (hst : Structured.optionStructured inCatch st = true)
    (hin : inCatch = true → (catchOf ρ).isSome = true) (hf : f.phase = .inFinally)
    (hr : Ready L ρ c s) (hn : s.HasNode f.region f.node) :
    Succeeds (lowerFinally L.env f.region st) s := by
  cases st with
  | none => exact total_pure _ _
  | some st =>
    have hin' : inCatch = true → (catchOf (f :: ρ)).isSome = true := by
      intro h
      simpa [catchOf, hf] using hin h
    refine Succeeds.bind (total_pushPhase _ _ _) fun h₁ => ?_
    rw [← hf] at h₁
    obtain ⟨hr₁, -⟩ := ready_pushPhase hr hn h₁
    refine Succeeds.bind (total_saveForFinally _) fun h₂ => ?_
    obtain ⟨-, -, he₂⟩ := emits_saveForFinally h₂
    have hr₂ := hr₁.emits he₂
    refine Succeeds.bind (lowerStmt_succeeds st hm hw hst hin' hr₂) fun h₃ => ?_
    obtain ⟨_, c₃, -, -, hr₃⟩ := lowerStmt_listed st (π := []) hm (fun x _ => hw x) hr₂ h₃
    refine Succeeds.bind (total_restoreAfterFinally _ _ _) fun h₄ => ?_
    have hr₄ := hr₃.emits (emits_restoreAfterFinally h₄)
    rw [← hf]
    exact succeeds_popPhase hr₄

end

end Statements

/-! ## Methods -/

mutual

/-- A structured statement has no label and no switch. -/
theorem labels_of_isStructured (st : Stmt) {inCatch : Bool} (h : isStructured inCatch st = true) :
    st.labels = [] ∧ st.oneDefault = true := by
  obtain ⟨id, span, kind⟩ := st
  cases kind with
  | block ss =>
    rw [Stmt.labels, Stmt.oneDefault]
    exact labels_of_allStructured ss h
  | conditional cond thenBranch elseBranch =>
    simp only [isStructured, Bool.and_eq_true] at h
    obtain ⟨ht, ht'⟩ := labels_of_isStructured thenBranch h.1.2
    obtain ⟨he, he'⟩ := labels_of_isStructured elseBranch h.2
    rw [Stmt.labels, Stmt.oneDefault, ht, he, ht', he']
    exact ⟨rfl, rfl⟩
  | tryCatch body catches finalizer =>
    simp only [isStructured, Bool.and_eq_true] at h
    obtain ⟨hb, hb'⟩ := labels_of_isStructured body h.1.1
    obtain ⟨hc, hc'⟩ := labels_of_catchesStructured catches h.1.2
    obtain ⟨hf, hf'⟩ := labels_of_optionStructured finalizer h.2
    rw [Stmt.labels, Stmt.oneDefault, hb, hc, hf, hb', hc', hf']
    exact ⟨rfl, rfl⟩
  | empty | expression | throw | rethrow => exact ⟨rfl, rfl⟩
  | _ => cases h

theorem labels_of_allStructured (ss : List Stmt) {inCatch : Bool}
    (h : Structured.allStructured inCatch ss = true) :
    Source.labelsIn ss = [] ∧ Source.oneDefaultIn ss = true := by
  cases ss with
  | nil => exact ⟨rfl, rfl⟩
  | cons st ss =>
    rw [Structured.allStructured, Bool.and_eq_true] at h
    obtain ⟨hs, hs'⟩ := labels_of_isStructured st h.1
    obtain ⟨hss, hss'⟩ := labels_of_allStructured ss h.2
    rw [Source.labelsIn, Source.oneDefaultIn, hs, hss, hs', hss']
    exact ⟨rfl, rfl⟩

theorem labels_of_catchesStructured (clauses : List CatchClause)
    (h : Structured.catchesStructured clauses = true) :
    Source.labelsInCatches clauses = [] ∧ Source.oneDefaultInCatches clauses = true := by
  cases clauses with
  | nil => exact ⟨rfl, rfl⟩
  | cons clause clauses =>
    obtain ⟨span, type, binding, body⟩ := clause
    simp only [Structured.catchesStructured, Bool.and_eq_true] at h
    obtain ⟨hb, hb'⟩ := labels_of_isStructured body h.1.2
    obtain ⟨hc, hc'⟩ := labels_of_catchesStructured clauses h.2
    rw [Source.labelsInCatches, Source.oneDefaultInCatches, hb, hc, hb', hc']
    exact ⟨rfl, rfl⟩

theorem labels_of_optionStructured (st : Option Stmt) {inCatch : Bool}
    (h : Structured.optionStructured inCatch st = true) :
    Source.labelsInOption st = [] ∧ Source.oneDefaultInOption st = true := by
  cases st with
  | none => exact ⟨rfl, rfl⟩
  | some st => exact labels_of_isStructured st h

end

theorem exists_paramsOf {m : MethodDef} (h : ∀ p ∈ m.params, p.ty.isVoid = false) :
    ∃ ps, paramsOf m = .ok ps := by
  have hmap : ∀ vs : List Variable, (∀ p ∈ vs, p.ty.isVoid = false) →
      ∃ ps, vs.mapM (fun p => do return Ir.VarDecl.mk p.name (← irTy p.ty {})) = .ok ps := by
    intro vs
    induction vs with
    | nil => exact fun _ => ⟨[], rfl⟩
    | cons v vs ih =>
      intro hvs
      obtain ⟨ps, hps⟩ := ih fun p hp => hvs p (List.mem_cons_of_mem _ hp)
      obtain ⟨t, ht⟩ := exists_irTy (hvs v List.mem_cons_self) {}
      refine ⟨⟨v.name, t⟩ :: ps, ?_⟩
      rw [List.mapM_cons, ht, hps]
      rfl
  obtain ⟨ps, hps⟩ := hmap m.params h
  exact ⟨_, by rw [paramsOf, hps]; rfl⟩

theorem exists_returnsOf (m : MethodDef) : ∃ rs, returnsOf m = .ok rs := by
  unfold returnsOf
  cases h : m.ret.isVoid with
  | true => exact ⟨[], rfl⟩
  | false =>
    obtain ⟨t, ht⟩ := exists_irTy h {}
    exact ⟨[⟨resultVar, t⟩], by rw [ht]; rfl⟩

theorem runs_inContext_of_runs {cx : Context} {act : Lower Unit} {t : Shared} {s : State}
    (h : Runs act ⟨cx, t⟩ () s) : Runs (inContext cx act) t s.toContext s.toShared := by
  have e : (inContext cx act).run t =
      ((act.run ⟨cx, t⟩).1.map fun _ => (act.run ⟨cx, t⟩).2.toContext,
        (act.run ⟨cx, t⟩).2.toShared) := rfl
  unfold Runs at h ⊢
  rw [e, h]
  rfl

/-- A method with a structured body is lowered, whatever was compiled before. -/
theorem lowerMethod_succeeds {env : Env} (owner : TypeDef) {m : MethodDef} {body : Stmt}
    (shared : Shared) (hm : env.options.modelsExceptions = true) (hbody : m.body = some body)
    (hparams : ∀ p ∈ m.params, p.ty.isVoid = false) (hst : isStructured false body = true)
    (hnd : body.tries.Nodup) :
    ∃ p shared', Runs (lowerMethod env owner m) shared p shared' := by
  obtain ⟨params, hps⟩ := exists_paramsOf hparams
  obtain ⟨returns, hrs⟩ := exists_returnsOf m
  have hlabels := (labels_of_isStructured body hst).1
  let L : Layout := ⟨env, ⟨body.scoped none, body.tries⟩, fun _ => True⟩
  have hsc : LabelScopes.collect body = .ok L.scopes :=
    LabelScopes.collect_eq_ok.mpr ⟨⟨by rw [hlabels]; exact .nil, hnd⟩, rfl⟩
  have hr : ∀ t, Ready L [] _ _ := ready_startContext params returns
  have hrun : ∀ t, Succeeds (do breadcrumb env; lowerStmt env body)
      ⟨startContext L.scopes params returns, t⟩ := fun t =>
    Succeeds.bind (total_breadcrumb _) fun h₁ =>
      lowerStmt_succeeds body (L := L) hm (fun _ => trivial) hst nofun
        ((hr t).marks (.breadcrumb h₁))
  simp only [lowerMethod, hbody, runs_bind, runs_lift, runs_modify, runs_pure]
  obtain ⟨⟨⟩, s, hs⟩ := hrun { shared with
    log := shared.log.add .debug s!"lowering procedure {(m.reference owner.name).procedureName}" }
  obtain ⟨_, s₁, h₁, h₂⟩ := runs_bind.mp hs
  obtain ⟨_, c, -, -, hr'⟩ := lowerStmt_listed body (L := L) (π := []) hm (fun _ _ => trivial)
    ((hr _).marks (.breadcrumb h₁)) h₂
  have hstack : s.stack = [] := hr'.view.stack
  refine ⟨_, _, params, _, ⟨hps, rfl⟩, returns, _, ⟨hrs, rfl⟩, (), _, rfl, L.scopes, _, ⟨hsc, rfl⟩,
    s.toContext, s.toShared, runs_inContext_of_runs hs, (s.locals, s.cmds), _, ⟨?_, rfl⟩, rfl, rfl⟩
  rw [Context.finish, hstack]
  rfl

end Unwind.Lowering
