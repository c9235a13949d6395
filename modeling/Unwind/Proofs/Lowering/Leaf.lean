import Unwind.Proofs.Lowering.Steps

/-!
# The code of expressions

Evaluating an expression emits assignments, calls, tests on values, and behind every call the test
whether the callee has raised. `Leaf` describes such code: it has no label, leaves its place only
through the propagation of an exception, and writes only what `Writable` allows: the targets in the
expression, and temporary variables whose numbers were given out meanwhile.

A `Line` is an instruction with what is known about it: the statement it belongs to, the frames
around it, and whether an exception is pending in front of it.
-/

namespace Unwind.Lowering

open Source (Expr Path Stmt Target)
open Ir (Cmd)
open Machine (Instr flatten)

/-- An instruction and what is known about its place. -/
structure Line where
  instr : Instr
  /-- The path of the innermost statement that the instruction belongs to. -/
  owner : Path
  /-- The `try` statements that control is in. -/
  frames : List Frame
  /-- `$Exception` holds an exception here. -/
  raising : Bool

/-- The instructions of a listing. -/
def instrs (lines : List Line) : List Instr := lines.map Line.instr

@[simp]
theorem instrs_nil : instrs [] = [] := rfl

@[simp]
theorem instrs_append (as bs : List Line) : instrs (as ++ bs) = instrs as ++ instrs bs :=
  List.map_append

@[simp]
theorem length_instrs (lines : List Line) : (instrs lines).length = lines.length :=
  List.length_map _

theorem Emits.append {s s₁ s₂ : State} {ls ks : List Line} (h : Emits s (instrs ls) s₁)
    (h' : Emits s₁ (instrs ks) s₂) : Emits s (instrs (ls ++ ks)) s₂ := by
  rw [instrs_append]
  exact h.trans h'

/-- Instructions of the statement at `π`. -/
def own (π : Path) (ρ : List Frame) (is : List Instr) : List Line := is.map (⟨·, π, ρ, false⟩)

/-- Instructions of the statement at `π` in front of which an exception is pending. -/
def raise (π : Path) (ρ : List Frame) (is : List Instr) : List Line := is.map (⟨·, π, ρ, true⟩)

@[simp]
theorem instrs_own (π : Path) (ρ : List Frame) (is : List Instr) : instrs (own π ρ is) = is := by
  simp [instrs, own, Function.comp_def]

@[simp]
theorem instrs_raise (π : Path) (ρ : List Frame) (is : List Instr) :
    instrs (raise π ρ is) = is := by
  simp [instrs, raise, Function.comp_def]

@[simp]
theorem own_append (π : Path) (ρ : List Frame) (is js : List Instr) :
    own π ρ (is ++ js) = own π ρ is ++ own π ρ js := List.map_append

/-- A conditional of the statement at `π`: a branch over the first part, and behind it a jump over
the second. -/
def choice (π : Path) (ρ : List Frame) (cond : Ir.Expr) (as bs : List Line) : List Line :=
  own π ρ [.branchUnless cond (as.length + 1)] ++ (as ++ (own π ρ [.jump bs.length] ++ bs))

@[simp]
theorem instrs_choice (π : Path) (ρ : List Frame) (cond : Ir.Expr) (as bs : List Line) :
    instrs (choice π ρ cond as bs) =
      .branchUnless cond ((instrs as).length + 1) ::
        (instrs as ++ .jump (instrs bs).length :: instrs bs) := by
  simp [choice]

/-- A command that is one instruction. -/
theorem emits_own {s s' : State} {c : Cmd} {i : Instr} {u : Unit} (π : Path) (ρ : List Frame)
    (hc : Machine.flattenCmd c = [i]) (h : Runs (emit c) s u s') :
    Emits s (instrs (own π ρ [i])) s' := by
  rw [instrs_own, ← hc]
  exact emits_emit h

/-- A conditional command whose branches were lowered before. -/
theorem emits_ifElse {s s' : State} {u : Unit} {cond : Ir.Expr} {as bs : List Line}
    {thenCmds elseCmds : List Cmd} (π : Path) (ρ : List Frame)
    (ha : flatten thenCmds = instrs as) (hb : flatten elseCmds = instrs bs)
    (h : Runs (emit (.ifElse cond thenCmds elseCmds)) s u s') :
    Emits s (instrs (choice π ρ cond as bs)) s' := by
  have he := emits_emit h
  rw [Machine.flattenCmd, ha, hb] at he
  rw [instrs_choice]
  exact he

/-! ## Propagation -/

/-- The code that sends the pending exception to the innermost handler. -/
def propagation (env : Env) : List Frame → List Instr
  | [] => (if env.options.recordValues then [.note] else []) ++ [.ret]
  | ⟨region, _, .inTry, _⟩ :: _ => [.goto (Tag.catches region).name]
  | ⟨region, _, .inCatch, _⟩ :: _ =>
    [.set labelVar (.int propagating), .goto (Tag.finalizer region).name]
  | ⟨region, _, .inFinally, _⟩ :: _ => [.goto (Tag.behind region).name]

/-- The test whether an exception is pending, around its propagation. -/
def checkLines (env : Env) (π : Path) (ρ : List Frame) : List Line :=
  choice π ρ (.neq .exception .null) (raise π ρ (propagation env ρ)) []

section

variable {env : Env} {scopes : LabelScopes} {ρ : List Frame} {s s' : State} {u : Unit}

/-- Recording a value emits a note, or nothing. -/
theorem emits_record {label : String} {ty : Ir.Ty} {v : Ir.Expr}
    (h : Runs (record env label ty v) s u s') :
    Emits s (if env.options.recordValues then [.note] else []) s' := by
  unfold record at h
  by_cases hr : env.options.recordValues = true
  · rw [if_pos hr] at h ⊢
    obtain ⟨proc, s₁, h₁, h₂⟩ := runs_bind.mp h
    exact (emits_withRegistry h₁).trans (emits_emit h₂)
  · rw [if_neg hr] at h ⊢
    obtain ⟨-, rfl⟩ := runs_pure.mp h
    exact .refl _

theorem View.lt_regions (hv : View scopes ρ s) {f : Frame} (hf : f ∈ ρ) :
    f.region < s.regions.length := by
  obtain ⟨r, hr, -⟩ := hv.nodes f hf
  exact (List.getElem?_eq_some_iff.mp hr).1

theorem emits_propagate (hv : View scopes ρ s) (h : Runs (propagate env) s u s') :
    Emits s (propagation env ρ) s' := by
  obtain ⟨cx, s₁, h₁, h⟩ := runs_bind.mp h
  obtain ⟨rfl, rfl⟩ := runs_context.mp h₁
  simp only [hv.stack] at h
  cases ρ with
  | nil =>
    obtain ⟨_, s₂, h₂, h₃⟩ := runs_bind.mp h
    exact (emits_record h₂).trans (emits_emit h₃)
  | cons f ρ =>
    have hlt := hv.lt_regions List.mem_cons_self
    obtain ⟨region, node, phase, place⟩ := f
    cases phase with
    | inTry =>
      obtain ⟨l, s₂, h₂, h₃⟩ := runs_bind.mp h
      obtain ⟨rfl, he⟩ := runs_catchLabel hv hlt h₂
      exact he.trans (emits_emit h₃)
    | inCatch =>
      simp only [List.map_cons, List.head?_cons, Frame.entry, runs_bind] at h
      obtain ⟨x, s₂, h₂, _, s₃, h₃, l, s₄, h₄, h₅⟩ := h
      obtain ⟨rfl, he⟩ := runs_useLabelVar h₂
      have he₃ := he.trans (emits_emit h₃)
      have hv₃ := he₃.view hv
      obtain ⟨rfl, he₄⟩ := runs_finallyLabel hv₃ (hv₃.lt_regions List.mem_cons_self) h₄
      exact (he₃.trans he₄).trans (emits_emit h₅)
    | inFinally =>
      obtain ⟨l, s₂, h₂, h₃⟩ := runs_bind.mp h
      obtain ⟨rfl, he⟩ := runs_continuationLabel hv hlt h₂
      exact he.trans (emits_emit h₃)

theorem emits_propagateIfAny {π : Path} (hv : View scopes ρ s)
    (h : Runs (propagateIfAny env) s u s') :
    Emits s (instrs (checkLines env π ρ)) s' := by
  obtain ⟨cs, s₁, h₁, h₂⟩ := runs_bind.mp h
  obtain ⟨s₂, hp, rfl, rfl⟩ := runs_commandsOf.mp h₁
  obtain ⟨he, hf⟩ := (emits_propagate (hv.withCmds []) hp).unbuffer
  have hcs : flatten s₂.cmds = instrs (raise π ρ (propagation env ρ)) := by
    rw [hf, instrs_raise]
  exact he.trans (emits_ifElse π ρ hcs rfl h₂)

end

/-! ## Marks -/

/-- An instruction that does nothing. -/
inductive Quiet : Instr → Prop where
  | assert : Quiet (.assert (.bool true))
  | assume : Quiet (.assume (.bool true))
  | note : Quiet .note

/-- What was emitted between `s` and `s'` does nothing. -/
def Marks (s s' : State) : Prop := ∃ is, (∀ i ∈ is, Quiet i) ∧ Emits s is s'

namespace Marks

variable {env : Env} {s s₁ s' : State} {u : Unit}

theorem refl (s : State) : Marks s s := ⟨[], by simp, .refl s⟩

theorem trans (h : Marks s s₁) (h' : Marks s₁ s') : Marks s s' := by
  obtain ⟨is, hq, he⟩ := h
  obtain ⟨js, hq', he'⟩ := h'
  refine ⟨is ++ js, fun i hi => ?_, he.trans he'⟩
  rcases List.mem_append.mp hi with hi | hi
  · exact hq i hi
  · exact hq' i hi

theorem emit {c : Cmd} {i : Instr} (hc : Machine.flattenCmd c = [i]) (hi : Quiet i)
    (h : Runs (Lowering.emit c) s u s') : Marks s s' := by
  refine ⟨[i], ?_, hc ▸ emits_emit h⟩
  intro j hj
  rw [List.mem_singleton.mp hj]
  exact hi

/-- A marker carries a number that the registry gives out. -/
theorem marker {α : Type} {f : Registry → α × Registry} {attr : α → Ir.Attr}
    (h : Runs (withRegistry f >>= fun n => Lowering.emit (.marker (attr n))) s u s') :
    Marks s s' := by
  obtain ⟨n, s₁, h₁, h₂⟩ := runs_bind.mp h
  have hn : Marks s s₁ := ⟨[], by simp, emits_withRegistry h₁⟩
  exact hn.trans (emit rfl .assume h₂)

theorem record {label : String} {ty : Ir.Ty} {v : Ir.Expr}
    (h : Runs (Lowering.record env label ty v) s u s') : Marks s s' := by
  refine ⟨_, ?_, emits_record h⟩
  intro i hi
  split at hi
  · rw [List.mem_singleton.mp hi]
    exact .note
  · cases hi

theorem breadcrumb (h : Runs (Lowering.breadcrumb env) s u s') : Marks s s' := by
  unfold Lowering.breadcrumb at h
  split at h
  · exact marker h
  · rw [(runs_pure.mp h).2]
    exact refl s

theorem emitMarks {span : Span} {kind : Source.StmtKind}
    (h : Runs (Lowering.emitMarks env span kind) s u s') : Marks s s' := by
  have hcapture : ∀ {s : State}, Runs (if env.options.captureState then
      withRegistry (·.nextCaptureState) >>= fun n =>
        Lowering.emit (.marker ⟨"captureState", [.str ("s" ++ toString n.toNat)]⟩)
      else pure ()) s u s' → Marks s s' := by
    intro s h
    split at h
    · exact marker h
    · rw [(runs_pure.mp h).2]
      exact refl s
  unfold Lowering.emitMarks at h
  by_cases hk : carriesMarks kind = true
  · rw [if_pos hk] at h
    by_cases hs : (env.options.emitSourceContext && span.isKnown) = true
    · simp only [if_pos hs, runs_bind] at h
      obtain ⟨_, s₁, h₁, h₂⟩ := h
      exact trans (emit rfl .assert h₁) (hcapture h₂)
    · simp only [if_neg hs] at h
      exact hcapture h
  · rw [if_neg hk, runs_pure] at h
    rw [h.2]
    exact refl s

end Marks

/-! ## Code without statements in it -/

/-- What the code of a body is laid out by. -/
structure Layout where
  env : Env
  scopes : LabelScopes
  /-- The variables that the body may write. -/
  writes : String → Prop

/-- The variables that code without statements may write: those of the body, the result of the
procedure, and intermediate values. -/
inductive Writable (L : Layout) : String → Prop where
  | source {x : String} : L.writes x → Writable L x
  | result : Writable L (Slot.result).name
  | temp {n : Nat} : Writable L (Slot.temp n).name

/-- An instruction that always goes on with the next one, or returns, and writes only what it
may. -/
inductive Harmless (L : Layout) : Instr → Prop where
  | assert {cond : Ir.Expr} : Harmless L (.assert cond)
  | assume {cond : Ir.Expr} : Harmless L (.assume cond)
  | note : Harmless L .note
  | set {x : String} {e : Ir.Expr} : Writable L x → Harmless L (.assign (.var x) e)
  | store {map : String} {index e : Ir.Expr} : Harmless L (.assign (.map map index) e)
  | call {proc : String} {args : List Ir.Expr} {outs : List String} :
      (∀ x ∈ outs, Writable L x) → Harmless L (.call proc args outs)
  | ret : Harmless L .ret

/-- Code of the statement at `π` between the frames `ρ` that holds no statement. -/
inductive Leaf (L : Layout) (π : Path) (ρ : List Frame) : List Line → Prop where
  | nil : Leaf L π ρ []
  | cons {i : Instr} {ls : List Line} :
      Harmless L i → Leaf L π ρ ls → Leaf L π ρ (own π ρ [i] ++ ls)
  | check {ls : List Line} : Leaf L π ρ ls → Leaf L π ρ (checkLines L.env π ρ ++ ls)
  | branch {cond : Ir.Expr} {as bs ls : List Line} :
      Leaf L π ρ as → Leaf L π ρ bs → Leaf L π ρ ls →
      Leaf L π ρ (choice π ρ cond as bs ++ ls)

section

variable {L : Layout} {π : Path} {ρ : List Frame}

theorem Leaf.append {ls ks : List Line} (h : Leaf L π ρ ls) (h' : Leaf L π ρ ks) :
    Leaf L π ρ (ls ++ ks) := by
  induction h with
  | nil => exact h'
  | cons hi _ ih =>
    rw [List.append_assoc]
    exact .cons hi ih
  | check _ ih =>
    rw [List.append_assoc]
    exact .check ih
  | branch ha hb _ _ _ ih =>
    rw [List.append_assoc]
    exact .branch ha hb ih

theorem Leaf.single {i : Instr} (h : Harmless L i) : Leaf L π ρ (own π ρ [i]) := by
  simpa using Leaf.cons (π := π) (ρ := ρ) h .nil

theorem Leaf.choice {cond : Ir.Expr} {as bs : List Line} (ha : Leaf L π ρ as)
    (hb : Leaf L π ρ bs) : Leaf L π ρ (choice π ρ cond as bs) := by
  simpa using Leaf.branch (π := π) (ρ := ρ) ha hb .nil

end

/-- What was emitted between `s` and `s'` is code without statements in it. -/
def Coded (L : Layout) (π : Path) (ρ : List Frame) (s s' : State) : Prop :=
  ∃ ls, Emits s (instrs ls) s' ∧ Leaf L π ρ ls

namespace Coded

variable {L : Layout} {π : Path} {ρ : List Frame} {s s₁ s' : State} {u : Unit}

theorem of_nil (h : Emits s [] s') : Coded L π ρ s s' := ⟨[], h, .nil⟩

theorem refl (s : State) : Coded L π ρ s s := of_nil (.refl s)

theorem trans (h : Coded L π ρ s s₁) (h' : Coded L π ρ s₁ s') : Coded L π ρ s s' := by
  obtain ⟨ls, he, hl⟩ := h
  obtain ⟨ls', he', hl'⟩ := h'
  exact ⟨ls ++ ls', he.append he', hl.append hl'⟩

theorem view {scopes : LabelScopes} (h : Coded L π ρ s s') (hv : View scopes ρ s) :
    View scopes ρ s' := by
  obtain ⟨ls, he, -⟩ := h
  exact he.view hv

/-- A command whose instruction is harmless. -/
theorem emit {c : Cmd} {i : Instr} (hc : Machine.flattenCmd c = [i]) (hi : Harmless L i)
    (h : Runs (Lowering.emit c) s u s') : Coded L π ρ s s' :=
  ⟨own π ρ [i], (emits_own π ρ hc h), .single hi⟩

/-- Marks are code without statements. -/
theorem of_marks (h : Marks s s') : Coded L π ρ s s' := by
  obtain ⟨is, hq, he⟩ := h
  refine ⟨own π ρ is, by rwa [instrs_own], ?_⟩
  clear he
  induction is with
  | nil => exact .nil
  | cons i is ih =>
    have hi : Harmless L i := by
      cases hq i List.mem_cons_self with
      | assert => exact .assert
      | assume => exact .assume
      | note => exact .note
    exact .cons hi (ih fun j hj => hq j (List.mem_cons_of_mem _ hj))

theorem propagateIfAny (hv : View L.scopes ρ s)
    (h : Runs (Lowering.propagateIfAny L.env) s u s') : Coded L π ρ s s' := by
  have he := emits_propagateIfAny (π := π) hv h
  exact ⟨checkLines L.env π ρ, he, by simpa using Leaf.check (π := π) (ρ := ρ) .nil⟩

end Coded

end Unwind.Lowering
