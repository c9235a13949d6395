import Mathlib
import Unwind.Proofs.Variables.Declares
import Unwind.Proofs.Variables.Types

/-!
# Steps that store values of the right types

What a procedure records about its variables is known when its body is complete. The records are
fixed here from the start, and `Typed` follows a step towards them: variables are never dropped and
never get another type, so that what has been declared by a step is found in the records. What is
stored on the way then has the types that are recorded.

The two go together in one judgement. The declarations are followed in any case
(`State.Sorted`, `State.Widens`). The types of the values are followed where everything declared up
to the end of the step is recorded, and where what was known in front of it holds, the proposition
`pre`. Steps compose along `bind` (`Typed.bind`).
-/

namespace Unwind.Lowering

open Machine (isGenerated)
open Source (TypeRef)
open Ir (Cmd VarDecl)

/-! ## Records -/

/-- What is recorded for a body. -/
structure Records where
  /-- The types of all variables and fields. -/
  types : Ir.Types
  /-- The types that the variables of the source program are declared with. -/
  source : String → Option Ir.Ty

/-- A variable of this kind may be declared with this type when `n` variables have been numbered. -/
def Slot.Allows (R : Records) (n : Nat) : Slot → Ir.Ty → Prop
  | source x, ty => R.source x = some ty
  | temp k, _ | savedExc k, _ | savedLabel k, _ => k < n
  | label, ty => ty = .int
  | caught _, ty => ty = .ref
  | exception, _ | result, _ => False

theorem Slot.Allows.mono {R : Records} {n m : Nat} {slot : Slot} {ty : Ir.Ty}
    (h : slot.Allows R n ty) (hnm : n ≤ m) : slot.Allows R m ty := by
  cases slot with
  | temp k | savedExc k | savedLabel k => exact Nat.lt_of_lt_of_le h hnm
  | _ => exact h

/-- What holds of the declarations while a body is lowered. -/
structure State.Sorted (R : Records) (s : State) : Prop where
  kinds : ∀ v ∈ s.locals, ∃ slot : Slot, slot.Proper ∧ v.name = slot.name ∧
    slot.Allows R s.nextTemp v.ty
  nodup : (s.locals.map (·.name)).Nodup
  apart : ∀ v ∈ s.locals, v.name ∉ s.params
  params : ∀ x ∈ s.params, isGenerated x = false ∧ R.types.var x = R.source x ∨ x = resultVar
  returnVar : ∀ x, s.returnVar = some x → x = resultVar
  caught : ∀ (id : Nat) (r : Region) (x : String), s.regions[id]? = some r →
    r.exceptionLocal = some x → ⟨x, .ref⟩ ∈ s.locals
  grounded : s.Grounded

/-- Two variables of a kind that allows one type only are the same when they have one name. -/
theorem State.Sorted.eq_of_name {R : Records} {s : State} {ty : Ir.Ty} {v : VarDecl}
    (hs : s.Sorted R) (slot : Slot) (hv : v ∈ s.locals) (hproper : slot.Proper)
    (hname : v.name = slot.name) (honly : ∀ ty', slot.Allows R s.nextTemp ty' → ty' = ty) :
    v = ⟨slot.name, ty⟩ := by
  obtain ⟨slot', hproper', hname', hallows⟩ := hs.kinds v hv
  obtain rfl : slot = slot' := Slot.name_inj hproper hproper' (hname.symm.trans hname')
  obtain ⟨x, ty'⟩ := v
  obtain rfl : x = slot.name := hname
  rw [honly ty' hallows]

/-- The variables that a body starts with are not generated ones, the result apart. -/
theorem State.Sorted.notMem_params {R : Records} {s : State} {slot : Slot} (hs : s.Sorted R)
    (hproper : slot.Proper) (hsource : slot.isSource = false) (hne : slot ≠ .result) :
    slot.name ∉ s.params := by
  intro hmem
  rcases hs.params _ hmem with ⟨hplain, -⟩ | hresult
  · rw [Slot.isGenerated_name hproper, hsource] at hplain
    cases hplain
  · exact hne (@Slot.name_inj _ .result hproper trivial hresult)

/-- Variables and regions are added only, and the body starts with the same ones. -/
structure State.Widens (s s' : State) : Prop where
  locals : s.locals ⊆ s'.locals
  regions : s.regions.length ≤ s'.regions.length
  params : s'.params = s.params

theorem State.Widens.refl (s : State) : s.Widens s := ⟨List.Subset.refl _, Nat.le_refl _, rfl⟩

theorem State.Widens.trans {s s₁ s' : State} (h : s.Widens s₁) (h' : s₁.Widens s') : s.Widens s' :=
  ⟨List.Subset.trans h.locals h'.locals, Nat.le_trans h.regions h'.regions,
    h'.params.trans h.params⟩

/-- What has been declared is recorded. -/
def State.Recorded (R : Records) (s : State) : Prop :=
  ∀ v ∈ s.locals, R.types.var v.name = some v.ty

theorem State.Recorded.of_widens {R : Records} {s s' : State} (h : s'.Recorded R)
    (hw : s.Widens s') : s.Recorded R := fun v hv => h v (hw.locals hv)

/-- The commands store values of the recorded types, and `σ` are the types of the operands. -/
structure State.Stored (R : Records) (σ : List (Option Ir.Ty)) (s : State) : Prop where
  cmds : Cmd.AllFit R.types s.cmds
  operands : s.operands.map (Ir.Expr.ty? R.types) = σ

/-! ## Steps -/

/-- A step with at least `n` regions takes operands of the types `σ` to operands of the types `τ`,
and what `post` says holds of its result. -/
structure Typed {α : Type} (R : Records) (n : Nat) (pre : Prop) (σ : List (Option Ir.Ty))
    (act : Lower α) (τ : List (Option Ir.Ty)) (post : α → Prop) : Prop where
  run : ∀ {s s' : State} {a : α}, s.Sorted R → n ≤ s.regions.length → Runs act s a s' →
    s'.Sorted R ∧ s.Widens s' ∧ (s'.Recorded R → pre → s.Stored R σ → s'.Stored R τ ∧ post a)

namespace Typed

variable {α β : Type} {R : Records} {n : Nat} {pre pre' : Prop} {σ σ₁ τ : List (Option Ir.Ty)}
  {x y act : Lower α} {z : Lower β} {f : α → Lower β} {ps qs : α → Prop} {us : β → Prop}

theorem bind (hx : Typed R n pre σ x σ₁ ps) (hf : ∀ a, Typed R n (ps a ∧ pre) σ₁ (f a) τ us) :
    Typed R n pre σ (x >>= f) τ us := by
  refine ⟨fun hs hn hrun => ?_⟩
  obtain ⟨a, s₁, h₁, h₂⟩ := runs_bind.mp hrun
  obtain ⟨hs₁, hw₁, hfirst⟩ := hx.run hs hn h₁
  obtain ⟨hs', hw', hsecond⟩ := (hf a).run hs₁ (Nat.le_trans hn hw₁.regions) h₂
  refine ⟨hs', hw₁.trans hw', fun hrec hpre hst => ?_⟩
  obtain ⟨hst₁, ha⟩ := hfirst (hrec.of_widens hw') hpre hst
  exact hsecond hrec ⟨ha, hpre⟩ hst₁

theorem consequence (h : Typed R n pre σ act τ ps) (hpre : pre' → pre)
    (hpost : ∀ a, ps a → pre' → qs a) : Typed R n pre' σ act τ qs := by
  refine ⟨fun hs hn hrun => ?_⟩
  obtain ⟨hs', hw, hrest⟩ := h.run hs hn hrun
  refine ⟨hs', hw, fun hrec hpre' hst => ?_⟩
  obtain ⟨hst', ha⟩ := hrest hrec (hpre hpre') hst
  exact ⟨hst', hpost _ ha hpre'⟩

theorem weaken (h : Typed R n pre σ act τ ps) (hpre : pre' → pre) : Typed R n pre' σ act τ ps :=
  h.consequence hpre fun _ ha _ => ha

/-- A step whose result does not matter. -/
theorem seq (hx : Typed R n pre σ x σ₁ ps) (hz : Typed R n pre σ₁ z τ us) :
    Typed R n pre σ (x >>= fun _ => z) τ us := hx.bind fun _ => hz.weaken fun hp => hp.2

theorem pure {a : α} (h : pre → ps a) : Typed R n pre σ (Pure.pure a : Lower α) σ ps := by
  refine ⟨fun hs hn hrun => ?_⟩
  obtain ⟨rfl, rfl⟩ := runs_pure.mp hrun
  exact ⟨hs, .refl _, fun _ hpre hst => ⟨hst, h hpre⟩⟩

theorem throw {e : Fault} : Typed R n pre σ (throw e : Lower α) τ ps :=
  ⟨fun _ _ hrun => absurd hrun not_runs_throw⟩

theorem lift {r : Except Fault α} (h : ∀ a, r = .ok a → pre → ps a) :
    Typed R n pre σ (liftM r : Lower α) σ ps := by
  cases r with
  | ok a => exact .pure (h a rfl)
  | error e => exact .throw

/-- What comes from outside of the state is known in any case. -/
theorem lift_bind {r : Except Fault α} (hf : ∀ a, r = .ok a → Typed R n pre σ (f a) τ us) :
    Typed R n pre σ ((liftM r : Lower α) >>= f) τ us := by
  refine ⟨fun hs hn hrun => ?_⟩
  obtain ⟨a, s₁, h₁, h₂⟩ := runs_bind.mp hrun
  obtain ⟨hr, rfl⟩ := runs_lift.mp h₁
  exact (hf a hr).run hs hn h₂

theorem ite {c : Prop} [Decidable c] (hx : c → Typed R n pre σ x τ ps)
    (hy : ¬ c → Typed R n pre σ y τ ps) : Typed R n pre σ (if c then x else y) τ ps := by
  split
  · next h => exact hx h
  · next h => exact hy h

/-- What is done with the context may depend on it. -/
theorem look {f : Context → Lower α}
    (hf : ∀ s : State, s.Sorted R → Typed R s.regions.length pre σ (f s.toContext) τ ps) :
    Typed R n pre σ (context >>= f) τ ps := by
  refine ⟨fun {s _ _} hs _ hrun => ?_⟩
  obtain ⟨cx, s₁, h₁, h₂⟩ := runs_bind.mp hrun
  obtain ⟨rfl, rfl⟩ := runs_context.mp h₁
  exact (hf _ hs).run hs (Nat.le_refl _) h₂

end Typed

section

variable {α : Type} {R : Records} {n : Nat} {pre : Prop} {σ τ : List (Option Ir.Ty)} {s : State}

/-! ## Emitting -/

theorem typed_emitAll {cs : List Cmd} (h : pre → Cmd.AllFit R.types cs) :
    Typed R n pre σ (emitAll cs) σ fun _ => True := by
  refine ⟨fun {s _ _} hs hn hrun => ?_⟩
  rw [runs_emitAll] at hrun
  subst hrun
  refine ⟨{ hs with }, ⟨List.Subset.refl _, Nat.le_refl _, rfl⟩,
    fun _ hpre hst => ⟨⟨?_, hst.2⟩, trivial⟩⟩
  exact Cmd.allFit_append.mpr ⟨hst.cmds, h hpre⟩

theorem typed_emit {c : Cmd} (h : pre → Cmd.AllFit R.types [c]) :
    Typed R n pre σ (emit c) σ fun _ => True := typed_emitAll h

/-- A value is stored. -/
theorem typed_set {x : String} {v : Ir.Expr}
    (h : pre → ∃ t, R.types.var x = some t ∧ v.ty? R.types = some t) :
    Typed R n pre σ (emit (.set x v)) σ fun _ => True :=
  typed_emit fun hpre => (Cmd.allFit_singleton rfl).mpr (h hpre)

/-- What a step emits aside stores values of the recorded types. -/
theorem Typed.buffered {act : Lower α} {ps : α → Prop} (h : Typed R n pre σ act τ ps) :
    Typed R n pre σ (buffered act) τ fun r => ps r.1 ∧ Cmd.AllFit R.types r.2 := by
  refine ⟨fun {s _ _} hs hn hrun => ?_⟩
  obtain ⟨s₁, h₁, hcmds, rfl⟩ := runs_buffered.mp hrun
  have hs₀ : State.Sorted R { s with cmds := [] } := { hs with }
  obtain ⟨hs₁, hw, hrest⟩ := h.run hs₀ hn h₁
  refine ⟨{ hs₁ with }, ⟨hw.locals, hw.regions, hw.params⟩, fun hrec hpre hst => ?_⟩
  obtain ⟨hst₁, ha⟩ := hrest hrec hpre ⟨Cmd.allFit_nil, hst.operands⟩
  exact ⟨⟨hst.cmds, hst₁.operands⟩, ha, hcmds ▸ hst₁.cmds⟩

theorem Typed.commandsOf {act : Lower Unit} {ps : Unit → Prop} (h : Typed R n pre σ act τ ps) :
    Typed R n pre σ (commandsOf act) τ fun cs => Cmd.AllFit R.types cs :=
  h.buffered.bind fun _ => .pure fun hpre => hpre.1.2

theorem typed_withRegistry {f : Registry → α × Registry} :
    Typed R n pre σ (withRegistry f) σ fun _ => True := by
  refine ⟨fun hs _ hrun => ?_⟩
  cases hrun
  exact ⟨{ hs with }, ⟨List.Subset.refl _, Nat.le_refl _, rfl⟩,
    fun _ _ hst => ⟨⟨hst.1, hst.2⟩, trivial⟩⟩

/-! ## Operands -/

theorem typed_pushOperand {v : Ir.Expr} {t : Option Ir.Ty} (h : pre → v.ty? R.types = t) :
    Typed R n pre σ (pushOperand v) (t :: σ) fun _ => True := by
  refine ⟨fun hs _ hrun => ?_⟩
  cases hrun
  refine ⟨{ hs with }, ⟨List.Subset.refl _, Nat.le_refl _, rfl⟩,
    fun _ hpre hst => ⟨⟨hst.1, ?_⟩, trivial⟩⟩
  rw [List.map_cons, h hpre, hst.operands]

theorem typed_popOperand {t : Option Ir.Ty} :
    Typed R n pre (t :: σ) popOperand σ fun v => v.ty? R.types = t := by
  refine ⟨fun {s s' v} hs _ hrun => ?_⟩
  rw [popOperand, runs_bind] at hrun
  obtain ⟨cx, s₁, h₁, h₂⟩ := hrun
  obtain ⟨rfl, rfl⟩ := runs_context.mp h₁
  split at h₂
  · next w rest hops =>
    cases h₂
    refine ⟨{ hs with }, ⟨List.Subset.refl _, Nat.le_refl _, rfl⟩, fun _ _ hst => ?_⟩
    have htypes := hst.operands
    rw [hops, List.map_cons] at htypes
    obtain ⟨hw, hrest⟩ := List.cons.inj htypes
    exact ⟨⟨hst.1, hrest⟩, hw⟩
  · exact absurd h₂ not_runs_throw

/-! ## Declarations -/

theorem subset_declareNew (ls : List VarDecl) (v : VarDecl) : ls ⊆ Context.declareNew ls v := by
  unfold Context.declareNew
  split
  · exact List.Subset.refl _
  · exact List.subset_append_left _ _

theorem mem_declareNew_self {ls : List VarDecl} {v : VarDecl}
    (h : ∀ w ∈ ls, w.name = v.name → w = v) : v ∈ Context.declareNew ls v := by
  unfold Context.declareNew
  split
  · next hany =>
    obtain ⟨w, hw, hname⟩ := List.any_eq_true.mp hany
    exact h w hw (by simpa using hname) ▸ hw
  · exact List.mem_append_right _ List.mem_cons_self

/-- A variable that is there already is not changed when it is declared again as it is. -/
theorem subset_redeclare {ls : List VarDecl} {v : VarDecl}
    (h : ∀ w ∈ ls, w.name = v.name → w = v) : ls ⊆ Context.redeclare v ls := by
  induction ls with
  | nil => exact List.nil_subset _
  | cons w ls ih =>
    obtain ⟨hw, hls⟩ := List.forall_mem_cons.mp h
    rw [Context.redeclare]
    split
    · next hname =>
      rw [hw (by simpa using hname)]
      exact List.Subset.refl _
    · exact List.cons_subset_cons _ (ih hls)

theorem mem_redeclare_self (v : VarDecl) (ls : List VarDecl) : v ∈ Context.redeclare v ls := by
  induction ls with
  | nil => exact List.mem_cons_self
  | cons w ls ih =>
    rw [Context.redeclare]
    split
    · exact List.mem_cons_self
    · exact List.mem_cons_of_mem _ ih

/-- One more variable is declared. -/
theorem State.Sorted.declare {v : VarDecl} {ls : List VarDecl} {k : Nat} (hs : s.Sorted R)
    (slot : Slot) (hsub : s.locals ⊆ ls) (hmem : ∀ w ∈ ls, w ∈ s.locals ∨ w = v)
    (hnames : ls.map (·.name) =
      if v.name ∈ s.locals.map (·.name) then s.locals.map (·.name)
      else s.locals.map (·.name) ++ [v.name])
    (hparams : v.name ∉ s.params) (hk : s.nextTemp ≤ k) (hproper : slot.Proper)
    (hname : v.name = slot.name) (hallows : slot.Allows R k v.ty) :
    State.Sorted R { s with locals := ls, nextTemp := k } := by
  refine { hs with kinds := fun w hw => ?_, nodup := ?_, apart := fun w hw => ?_
                   caught := fun id r x hr hx => hsub (hs.caught id r x hr hx) }
  · rcases hmem w hw with hw | rfl
    · obtain ⟨slot', hproper', hname', hallows'⟩ := hs.kinds w hw
      exact ⟨slot', hproper', hname', hallows'.mono hk⟩
    · exact ⟨slot, hproper, hname, hallows⟩
  · show (ls.map (·.name)).Nodup
    rw [hnames]
    split
    · exact hs.nodup
    · next h => exact List.nodup_append'.mpr ⟨hs.nodup, List.nodup_singleton _, by simpa using h⟩
  · rcases hmem w hw with hw | rfl
    · exact hs.apart w hw
    · exact hparams

/-- A variable of the source program is found in the records. -/
theorem typed_declareLocal {name : String} {ty : Ir.Ty} (hname : isGenerated name = false)
    (hsource : R.source name = some ty) :
    Typed R n pre σ (declareLocal name ty) σ fun _ => R.types.var name = some ty := by
  refine ⟨fun {s _ _} hs _ hrun => ?_⟩
  rw [declareLocal, changeContext, runs_modify] at hrun
  subst hrun
  unfold Context.declareLocal
  by_cases hparam : s.params.contains name = true
  · simp only [if_pos hparam]
    refine ⟨hs, .refl s, fun _ _ hst => ⟨hst, ?_⟩⟩
    rcases hs.params name (by simpa using hparam) with ⟨-, hsame⟩ | rfl
    · rw [hsame, hsource]
    · exact absurd hname (by decide)
  · simp only [if_neg hparam]
    have hsub := subset_declareNew s.locals ⟨name, ty⟩
    have hsame : ∀ w ∈ s.locals, w.name = name → w = ⟨name, ty⟩ := fun w hw hwn =>
      hs.eq_of_name (.source name) hw hname hwn fun ty' h =>
        Option.some.inj (h.symm.trans hsource)
    refine ⟨hs.declare (.source name) hsub (fun _ => mem_declareNew) (names_declareNew _ _)
      (by simpa using hparam) (Nat.le_refl _) hname rfl hsource, ⟨hsub, Nat.le_refl _, rfl⟩,
      fun hrec _ hst => ⟨⟨hst.1, hst.2⟩, ?_⟩⟩
    exact hrec _ (mem_declareNew_self hsame)

theorem typed_useLabelVar :
    Typed R n pre σ useLabelVar σ fun x => x = labelVar ∧ R.types.var labelVar = some .int := by
  refine ⟨fun {s s' x} hs _ hrun => ?_⟩
  rw [useLabelVar, runs_bind] at hrun
  obtain ⟨_, s₁, h₁, h₂⟩ := hrun
  rw [changeContext, runs_modify] at h₁
  obtain ⟨rfl, rfl⟩ := runs_pure.mp h₂
  subst h₁
  have hsub := subset_declareNew s.locals ⟨labelVar, .int⟩
  have hsame : ∀ w ∈ s.locals, w.name = labelVar → w = ⟨labelVar, .int⟩ := fun w hw hwn =>
    hs.eq_of_name .label hw trivial hwn fun _ h => h
  have hparams : labelVar ∉ s.params :=
    @State.Sorted.notMem_params R s .label hs trivial rfl (by simp)
  refine ⟨hs.declare .label hsub (fun _ => mem_declareNew) (names_declareNew _ _) hparams
    (Nat.le_refl _) trivial rfl rfl, ⟨hsub, Nat.le_refl _, rfl⟩,
    fun hrec _ hst => ⟨⟨hst.1, hst.2⟩, rfl, ?_⟩⟩
  exact hrec _ (mem_declareNew_self hsame)

/-- A generated variable of the type. -/
def Records.Has (R : Records) (x : String) (ty : Ir.Ty) : Prop :=
  isGenerated x = true ∧ R.types.var x = some ty

/-- The number of a new variable has not been given out. -/
theorem typed_freshLocal {stem : String} {ty : Ir.Ty} (slot : Nat → Slot)
    (hname : ∀ k, (slot k).name = "$" ++ stem ++ toString k)
    (hproper : ∀ k, (slot k).Proper ∧ (slot k).isSource = false)
    (hallows : ∀ k m ty, (slot k).Allows R m ty ↔ k < m) :
    Typed R n pre σ (freshLocal stem ty) σ fun x => R.Has x ty := by
  refine ⟨fun {s s' x} hs _ hrun => ?_⟩
  rw [freshLocal, withContext, runs_modifyGet] at hrun
  have hnew : ∀ w ∈ s.locals, w.name = "$" ++ stem ++ toString s.nextTemp →
      w = ⟨"$" ++ stem ++ toString s.nextTemp, ty⟩ := fun w hw hwn => by
    rw [← hname]
    exact hs.eq_of_name _ hw (hproper _).1 (hwn.trans (hname _).symm) fun ty' h =>
      absurd ((hallows _ _ _).mp h) (Nat.lt_irrefl _)
  have hsub := subset_redeclare (v := ⟨"$" ++ stem ++ toString s.nextTemp, ty⟩) hnew
  have hparams : "$" ++ stem ++ toString s.nextTemp ∉ s.params := by
    rw [← hname]
    refine hs.notMem_params (hproper _).1 (hproper _).2 fun hresult => ?_
    have hallowed := (hallows s.nextTemp (s.nextTemp + 1) ty).mpr (Nat.lt_succ_self _)
    rw [hresult] at hallowed
    exact hallowed
  have hs' := hs.declare (slot s.nextTemp) hsub (fun _ => mem_redeclare) (names_redeclare _ _)
    hparams (Nat.le_succ _) (hproper s.nextTemp).1 (hname _).symm
    ((hallows _ _ ty).mpr (Nat.lt_succ_self _))
  have hgen : isGenerated ("$" ++ stem ++ toString s.nextTemp) = true := by
    rw [← hname, Slot.isGenerated_name (hproper _).1, (hproper _).2]
    rfl
  cases hrun
  exact ⟨hs', ⟨hsub, Nat.le_refl _, rfl⟩, fun hrec _ hst => ⟨⟨hst.1, hst.2⟩, hgen,
    hrec _ (mem_redeclare_self _ _)⟩⟩

theorem typed_temp {ty : Ir.Ty} :
    Typed R n pre σ (freshLocal "tmp" ty) σ fun x => R.Has x ty :=
  typed_freshLocal .temp (fun _ => rfl) (fun _ => ⟨trivial, rfl⟩) fun _ _ _ => Iff.rfl

theorem typed_savedExc :
    Typed R n pre σ (freshLocal "savedExc" .ref) σ fun x => R.Has x .ref :=
  typed_freshLocal .savedExc (fun _ => rfl) (fun _ => ⟨trivial, rfl⟩) fun _ _ _ => Iff.rfl

theorem typed_savedLabel :
    Typed R n pre σ (freshLocal "savedLabel" .int) σ fun x => R.Has x .int :=
  typed_freshLocal .savedLabel (fun _ => rfl) (fun _ => ⟨trivial, rfl⟩) fun _ _ _ => Iff.rfl

/-! ## Regions -/

/-- Regions are given names of labels, and jumps. -/
theorem State.Sorted.withRegions (rs : List Region) (hs : s.Sorted R)
    (hlen : s.regions.length ≤ rs.length)
    (hcaught : ∀ (id : Nat) (r : Region) (x : String), rs[id]? = some r →
      r.exceptionLocal = some x → ∃ r', s.regions[id]? = some r' ∧ r'.exceptionLocal = some x) :
    State.Sorted R { s with regions := rs } := by
  refine { hs with caught := fun id r x hr hx => ?_, grounded := fun e he => ?_ }
  · obtain ⟨r', hr', hx'⟩ := hcaught id r x hr hx
    exact hs.caught id r' x hr' hx'
  · exact Nat.lt_of_lt_of_le (hs.grounded e he) hlen

/-- A region is changed apart from its variable. -/
theorem State.Sorted.setRegion (hs : s.Sorted R) {id : Nat} {r r' : Region}
    (hr : s.regions[id]? = some r) (hexc : r'.exceptionLocal = r.exceptionLocal) :
    State.Sorted R { s with regions := s.regions.set id r' } := by
  refine hs.withRegions _ (Nat.le_of_eq List.length_set.symm) fun id' r₁ x hr₁ hx => ?_
  rcases getElem?_set_eq_some hr₁ with ⟨rfl, rfl⟩ | hr₁
  · exact ⟨r, hr, hexc.symm.trans hx⟩
  · exact ⟨r₁, hr₁, hx⟩

theorem typed_allot {id : Nat} {slot : Region → Option String}
    {fill : Region → String → Region} {name : String}
    (hfill : ∀ r l, (fill r l).exceptionLocal = r.exceptionLocal) :
    Typed R n pre σ (withContext (·.allot id slot fill name)) σ fun _ => True := by
  refine ⟨fun {s s' l} hs _ hrun => ?_⟩
  obtain ⟨-, rfl⟩ := runs_withContext.mp hrun
  unfold Context.allot
  rcases hr : s.regions[id]? with _ | r
  · exact ⟨hs, .refl _, fun _ _ hst => ⟨hst, trivial⟩⟩
  rcases hslot : slot r with _ | taken
  · simp only [hslot]
    exact ⟨hs.setRegion hr (hfill r name),
      ⟨List.Subset.refl _, Nat.le_of_eq List.length_set.symm, rfl⟩,
      fun _ _ hst => ⟨⟨hst.1, hst.2⟩, trivial⟩⟩
  · simp only [hslot]
    exact ⟨hs, .refl _, fun _ _ hst => ⟨hst, trivial⟩⟩

theorem typed_catchLabel {id : Nat} : Typed R n pre σ (catchLabel id) σ fun _ => True :=
  typed_allot fun _ _ => rfl

theorem typed_finallyLabel {id : Nat} : Typed R n pre σ (finallyLabel id) σ fun _ => True :=
  typed_allot fun _ _ => rfl

theorem typed_continuationLabel {id : Nat} :
    Typed R n pre σ (continuationLabel id) σ fun _ => True :=
  typed_allot fun _ _ => rfl

theorem typed_addEscapingEdge {id : Nat} :
    Typed R n pre σ (addEscapingEdge id) σ fun _ => True := by
  refine ⟨fun {s s' e} hs _ hrun => ?_⟩
  obtain ⟨-, rfl⟩ := runs_withContext.mp hrun
  unfold Context.addEscapingEdge
  rcases hr : s.regions[id]? with _ | r
  · exact ⟨hs, .refl _, fun _ _ hst => ⟨hst, trivial⟩⟩
  · have hs' : ∀ edges, State.Sorted R { s with
        regions := s.regions.set id { r with escapes := edges } } := fun _ => hs.setRegion hr rfl
    exact ⟨hs' _, ⟨List.Subset.refl _, Nat.le_of_eq List.length_set.symm, rfl⟩,
      fun _ _ hst => ⟨⟨hst.1, hst.2⟩, trivial⟩⟩

/-- What a region has caught is a reference. -/
theorem typed_exceptionLocal {id : Nat} (hid : id < n) :
    Typed R n pre σ (exceptionLocal id) σ fun x => R.types.var x = some .ref := by
  refine ⟨fun {s s' x} hs hn hrun => ?_⟩
  obtain ⟨hx, rfl⟩ := runs_withContext.mp hrun
  unfold Context.exceptionLocal at hx ⊢
  rcases hr : s.regions[id]? with _ | r
  · exact absurd (List.getElem?_eq_none_iff.mp hr) (by omega)
  rw [hr] at hx
  rcases hlocal : r.exceptionLocal with _ | taken
  · have hsame : ∀ w ∈ s.locals, w.name = "$localExc" ++ toString id →
        w = ⟨"$localExc" ++ toString id, .ref⟩ := fun w hw hwn =>
      hs.eq_of_name (.caught id) hw trivial hwn fun _ h => h
    have hsub := subset_redeclare (v := ⟨"$localExc" ++ toString id, .ref⟩) hsame
    have hparams : "$localExc" ++ toString id ∉ s.params :=
      @State.Sorted.notMem_params R s (.caught id) hs trivial rfl (by simp)
    have hs' := hs.declare (.caught id) hsub (fun _ => mem_redeclare) (names_redeclare _ _)
      hparams (Nat.le_refl _) trivial rfl rfl
    have hin := mem_redeclare_self ⟨"$localExc" ++ toString id, Ir.Ty.ref⟩ s.locals
    simp only [hlocal] at hx ⊢
    subst hx
    refine ⟨{ hs' with caught := fun id' r' x hr' hx' => ?_, grounded := fun e he => ?_ },
      ⟨hsub, Nat.le_of_eq List.length_set.symm, rfl⟩,
      fun hrec _ hst => ⟨⟨hst.1, hst.2⟩, hrec _ hin⟩⟩
    · rcases getElem?_set_eq_some hr' with ⟨rfl, rfl⟩ | hr'
      · cases hx'
        exact hin
      · exact hs'.caught id' r' x hr' hx'
    · exact Nat.lt_of_lt_of_le (hs.grounded e he) (Nat.le_of_eq List.length_set.symm)
  · simp only [hlocal] at hx ⊢
    subst hx
    exact ⟨hs, .refl _, fun hrec _ hst => ⟨hst, hrec _ (hs.caught id r _ hr hlocal)⟩⟩

theorem typed_enterRegion {β : Type} {node : UInt32} {catchTypes : List (Option TypeRef)}
    {f : Nat → Lower β} {us : β → Prop} (hf : ∀ id, Typed R (id + 1) pre σ (f id) τ us) :
    Typed R n pre σ (enterRegion node catchTypes >>= f) τ us := by
  refine ⟨fun {s s' b} hs hn hrun => ?_⟩
  obtain ⟨id, s₁, h₁, h₂⟩ := runs_bind.mp hrun
  obtain ⟨rfl, rfl⟩ := runs_withContext.mp h₁
  let region : Region := { node, catchTypes }
  have hlen : (s.regions ++ [region]).length = s.regions.length + 1 := List.length_append
  have hs₁ := hs.withRegions (s.regions ++ [region]) (by omega) fun id r x hr hx => by
    rw [List.getElem?_append] at hr
    split at hr
    · exact ⟨r, hr, hx⟩
    · -- the new region has no variable yet
      obtain rfl := List.mem_singleton.mp (List.mem_of_getElem? hr)
      cases hx
  obtain ⟨hs', hw, hrest⟩ := (hf s.regions.length).run hs₁ (Nat.le_of_eq hlen.symm) h₂
  have hle : s.regions.length ≤ s'.regions.length :=
    Nat.le_trans (Nat.le_succ _) (Nat.le_trans (Nat.le_of_eq hlen.symm) hw.regions)
  refine ⟨hs', ⟨hw.locals, hle, hw.params⟩, fun hrec hpre hst => hrest hrec hpre ⟨hst.1, hst.2⟩⟩

/-! ## The stack -/

theorem typed_pushPhase {id : Nat} (phase : Phase) (hid : id < n) :
    Typed R n pre σ (pushPhase id phase) σ fun _ => True := by
  refine ⟨fun {s s' u} hs hn hrun => ?_⟩
  cases hrun
  exact ⟨{ hs with
      grounded := List.forall_mem_cons.mpr ⟨Nat.lt_of_lt_of_le hid hn, hs.grounded⟩ },
    ⟨List.Subset.refl _, Nat.le_refl _, rfl⟩, fun _ _ hst => ⟨⟨hst.1, hst.2⟩, trivial⟩⟩

theorem typed_popPhase {id : Nat} (phase : Phase) :
    Typed R n pre σ (popPhase id phase) σ fun _ => True := by
  refine ⟨fun {s s' u} hs hn hrun => ?_⟩
  rw [Runs, run_popPhase] at hrun
  split at hrun
  · cases hrun
  · cases hrun
    exact ⟨{ hs with grounded := fun e he => hs.grounded e (List.mem_of_mem_tail he) },
      ⟨List.Subset.refl _, Nat.le_refl _, rfl⟩, fun _ _ hst => ⟨⟨hst.1, hst.2⟩, trivial⟩⟩

end

end Unwind.Lowering
