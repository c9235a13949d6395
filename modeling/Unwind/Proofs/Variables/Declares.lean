import Mathlib
import Unwind.Proofs.Lowering.Arena
import Unwind.Proofs.Variables.Names

/-!
# Which variables are declared

The variables that the lowering adds are declared where they are first asked for. `State.Tidy` says
what holds of the declarations at any time: no name is declared twice or is that of a parameter, a
generated variable has the type that goes with its kind, and everything that the code uses has been
declared. Without exceptions, only intermediate values are kept in variables.

`Declares xs act ys` says that a step keeps a state tidy. It may use the variables `xs`, which have
been declared before, and those of its result, `ys`, are declared afterwards. Steps compose along
`bind` (`Declares.bind`).
-/

namespace Unwind.Lowering

open Machine (isGenerated)
open Source (TypeRef)
open Ir (Cmd VarDecl)

/-! ## Names -/

/-- The name needs no declaration in a body: it is not that of a generated variable, or it is that
of the variable that holds the exception. -/
def IsGlobal (models : Bool) (x : String) : Prop :=
  isGenerated x = false ∨ (models = true ∧ x = Ir.exceptionVar)

/-- Those of the names `ys` that need a declaration are among `xs`. -/
def Covers (models : Bool) (xs ys : List String) : Prop := ∀ y ∈ ys, IsGlobal models y ∨ y ∈ xs

section

variable {models : Bool} {xs ys zs : List String} {x : String}

theorem covers_nil : Covers models xs [] := nofun

theorem covers_append : Covers models xs (ys ++ zs) ↔ Covers models xs ys ∧ Covers models xs zs :=
  List.forall_mem_append

theorem covers_cons : Covers models xs (x :: ys) ↔
    (IsGlobal models x ∨ x ∈ xs) ∧ Covers models xs ys := List.forall_mem_cons

theorem Covers.self : Covers models xs xs := fun _ h => .inr h

theorem Covers.trans (h : Covers models xs ys) (h' : Covers models ys zs) : Covers models xs zs :=
  fun z hz => (h' z hz).elim .inl (h z)

theorem Covers.left : Covers models (ys ++ xs) ys := fun _ h => .inr (List.mem_append_left _ h)

theorem Covers.weaken (h : Covers models xs zs) : Covers models (ys ++ xs) zs := fun z hz =>
  (h z hz).imp_right (List.mem_append_right _)

theorem Covers.plain (h : ∀ y ∈ ys, isGenerated y = false) : Covers models xs ys := fun y hy =>
  .inl (.inl (h y hy))

end

/-! ## Tidy states -/

/-- A variable of this kind may be declared with this type. -/
def Slot.Suits (models : Bool) : Slot → Ir.Ty → Prop
  | source _, _ | temp _, _ => True
  | label, ty | savedLabel _, ty => models = true ∧ ty = .int
  | caught _, ty | savedExc _, ty => models = true ∧ ty = .ref
  | exception, _ | result, _ => False

/-- The variables that are declared in a body, its result included. -/
def State.names (s : State) : List String := s.returnVar.toList ++ s.locals.map (·.name)

/-- What holds of the declarations while a body is lowered. -/
structure State.Tidy (models : Bool) (s : State) : Prop where
  nodup : (s.locals.map (·.name)).Nodup
  suits : ∀ v ∈ s.locals, ∃ slot : Slot, slot.Proper ∧ v.name = slot.name ∧ slot.Suits models v.ty
  apart : ∀ v ∈ s.locals, v.name ∉ s.params
  params : ∀ x ∈ s.params, isGenerated x = false ∨ x = resultVar
  caught : ∀ (id : Nat) (r : Region) (x : String), s.regions[id]? = some r →
    r.exceptionLocal = some x → x ∈ s.names
  cmds : Covers models s.names (Cmd.allVars s.cmds)
  operands : Covers models s.names (Ir.Expr.allVars s.operands)
  grounded : s.Grounded
  /-- Without exceptions there are no regions. -/
  stack : models = false → s.stack = []

/-- More variables have been declared. -/
structure State.Grows (s s' : State) : Prop where
  names : s.names ⊆ s'.names
  params : s'.params = s.params
  returnVar : s'.returnVar = s.returnVar
  regions : s.regions.length ≤ s'.regions.length

theorem State.Grows.refl (s : State) : s.Grows s :=
  ⟨List.Subset.refl _, rfl, rfl, Nat.le_refl _⟩

theorem State.Grows.trans {s s₁ s' : State} (h : s.Grows s₁) (h' : s₁.Grows s') : s.Grows s' :=
  ⟨List.Subset.trans h.names h'.names, h'.params.trans h.params, h'.returnVar.trans h.returnVar,
    Nat.le_trans h.regions h'.regions⟩

theorem Covers.grow {models : Bool} {s s' : State} {ys : List String} (hg : s.Grows s')
    (h : Covers models s.names ys) : Covers models s'.names ys := fun y hy =>
  (h y hy).imp_right (@hg.names y)

/-! ## Steps -/

/-- When the variables `xs` have been declared, and at least `n` regions are there, the step keeps
the state tidy and declares the variables `ys` of its result. -/
structure Declares {α : Type} (models : Bool) (n : Nat) (xs : List String) (act : Lower α)
    (ys : α → List String) : Prop where
  run : ∀ {s s' : State} {a : α}, s.Tidy models → n ≤ s.regions.length →
    Covers models s.names xs → Runs act s a s' →
    s'.Tidy models ∧ s.Grows s' ∧ Covers models s'.names (ys a)

namespace Declares

variable {α β : Type} {models : Bool} {n : Nat} {xs : List String} {x y act : Lower α}
  {f : α → Lower β} {ys : α → List String} {us : β → List String}

theorem bind (hx : Declares models n xs x ys)
    (hf : ∀ a, Declares models n (ys a ++ xs) (f a) us) : Declares models n xs (x >>= f) us := by
  refine ⟨fun ht hn hxs hrun => ?_⟩
  obtain ⟨a, s₁, h₁, h₂⟩ := runs_bind.mp hrun
  obtain ⟨ht₁, hg₁, hys⟩ := hx.run ht hn hxs h₁
  obtain ⟨ht', hg', hus⟩ := (hf a).run ht₁ (Nat.le_trans hn hg₁.regions)
    (covers_append.2 ⟨hys, hxs.grow hg₁⟩) h₂
  exact ⟨ht', hg₁.trans hg', hus⟩

theorem pure {a : α} (h : Covers models xs (ys a)) :
    Declares models n xs (Pure.pure a : Lower α) ys := by
  refine ⟨fun ht hn hxs hrun => ?_⟩
  obtain ⟨rfl, rfl⟩ := runs_pure.mp hrun
  exact ⟨ht, .refl _, hxs.trans h⟩

theorem throw {e : Fault} : Declares models n xs (throw e : Lower α) ys :=
  ⟨fun _ _ _ hrun => absurd hrun not_runs_throw⟩

theorem lift {r : Except Fault α} (h : ∀ a, r = .ok a → Covers models xs (ys a)) :
    Declares models n xs (liftM r : Lower α) ys := by
  cases r with
  | ok a => exact .pure (h a rfl)
  | error e => exact .throw

theorem ite {c : Prop} [Decidable c] (hx : c → Declares models n xs x ys)
    (hy : ¬ c → Declares models n xs y ys) : Declares models n xs (if c then x else y) ys := by
  split
  · next h => exact hx h
  · next h => exact hy h

/-- What is done with the context may depend on it. -/
theorem look {f : Context → Lower α}
    (hf : ∀ s : State, s.Tidy models →
      Declares models s.regions.length (s.returnVar.toList ++ xs) (f s.toContext) ys) :
    Declares models n xs (context >>= f) ys := by
  refine ⟨fun {s _ _} ht _ hxs hrun => ?_⟩
  obtain ⟨cx, s₁, h₁, h₂⟩ := runs_bind.mp hrun
  obtain ⟨rfl, rfl⟩ := runs_context.mp h₁
  exact (hf _ ht).run ht (Nat.le_refl _) (covers_append.mpr ⟨.left, hxs⟩) h₂

end Declares

theorem runs_withContext {α : Type} {f : Context → α × Context} {s s' : State} {a : α} :
    Runs (withContext f) s a s' ↔
      a = (f s.toContext).1 ∧ s' = { s with toContext := (f s.toContext).2 } := by
  rw [withContext, runs_modifyGet, Prod.mk.injEq, eq_comm, @eq_comm _ s']

/-! ## Emitting -/

section

variable {α : Type} {models : Bool} {n : Nat} {xs : List String} {s s' : State}

theorem declares_emitAll {cs : List Cmd} (h : Covers models xs (Cmd.allVars cs)) :
    Declares models n xs (emitAll cs) fun _ => [] := by
  refine ⟨fun ht hn hxs hrun => ?_⟩
  rw [runs_emitAll] at hrun
  subst hrun
  refine ⟨{ ht with cmds := ?_ }, ⟨List.Subset.refl _, rfl, rfl, Nat.le_refl _⟩, covers_nil⟩
  rw [Cmd.allVars_append]
  exact covers_append.mpr ⟨ht.cmds, hxs.trans h⟩

theorem declares_emit {c : Cmd} (h : Covers models xs c.vars) :
    Declares models n xs (emit c) fun _ => [] :=
  have hcs : Covers models xs (Cmd.allVars [c]) := by
    rwa [Cmd.allVars, Cmd.allVars, List.append_nil]
  declares_emitAll hcs

/-- What a step emits aside uses variables that are declared afterwards. -/
theorem Declares.buffered {act : Lower α} {ys : α → List String}
    (h : Declares models n xs act ys) :
    Declares models n xs (buffered act) fun r => ys r.1 ++ Cmd.allVars r.2 := by
  refine ⟨fun {s _ _} ht hn hxs hrun => ?_⟩
  obtain ⟨s₁, h₁, hcmds, rfl⟩ := runs_buffered.mp hrun
  have ht₀ : State.Tidy models { s with cmds := [] } := { ht with cmds := covers_nil }
  obtain ⟨ht₁, hg, hys⟩ := h.run ht₀ hn hxs h₁
  have hg' : s.Grows { s₁ with cmds := s.cmds } :=
    ⟨hg.names, hg.params, hg.returnVar, hg.regions⟩
  refine ⟨{ ht₁ with cmds := ht.cmds.grow hg' }, hg', ?_⟩
  rw [hcmds]
  exact covers_append.mpr ⟨hys, ht₁.cmds⟩

theorem Declares.commandsOf {act : Lower Unit} {ys : Unit → List String}
    (h : Declares models n xs act ys) :
    Declares models n xs (commandsOf act) fun cs => Cmd.allVars cs := by
  refine h.buffered.bind fun r => .pure ?_
  exact (covers_append.mp .left).2

theorem declares_withRegistry {f : Registry → α × Registry} :
    Declares models n xs (withRegistry f) fun _ => [] := by
  refine ⟨fun ht _ _ hrun => ?_⟩
  cases hrun
  exact ⟨{ ht with }, ⟨List.Subset.refl _, rfl, rfl, Nat.le_refl _⟩, covers_nil⟩

/-! ## Operands -/

theorem declares_pushOperand {v : Ir.Expr} (h : Covers models xs v.vars) :
    Declares models n xs (pushOperand v) fun _ => [] := by
  refine ⟨fun ht _ hxs hrun => ?_⟩
  cases hrun
  exact ⟨{ ht with operands := covers_append.mpr ⟨hxs.trans h, ht.operands⟩ },
    ⟨List.Subset.refl _, rfl, rfl, Nat.le_refl _⟩, covers_nil⟩

/-- The variables of an operand were declared when it was pushed. -/
theorem declares_popOperand : Declares models n xs popOperand fun v => v.vars := by
  refine ⟨fun {s s' v} ht _ _ hrun => ?_⟩
  rw [popOperand, runs_bind] at hrun
  obtain ⟨cx, s₁, h₁, h₂⟩ := hrun
  obtain ⟨rfl, rfl⟩ := runs_context.mp h₁
  split at h₂
  · next w rest hops =>
    have hcov : Covers models s₁.names (Ir.Expr.allVars (w :: rest)) := by
      rw [← hops]
      exact ht.operands
    obtain ⟨hw, hrest⟩ := covers_append.mp hcov
    cases h₂
    exact ⟨{ ht with operands := hrest }, ⟨List.Subset.refl _, rfl, rfl, Nat.le_refl _⟩, hw⟩
  · exact absurd h₂ not_runs_throw

/-! ## Declarations -/

theorem names_declareNew (ls : List VarDecl) (v : VarDecl) :
    (Context.declareNew ls v).map (·.name) =
      if v.name ∈ ls.map (·.name) then ls.map (·.name) else ls.map (·.name) ++ [v.name] := by
  have hany : ls.any (·.name == v.name) = true ↔ v.name ∈ ls.map (·.name) := by
    simp
  unfold Context.declareNew
  by_cases h : v.name ∈ ls.map (·.name)
  · rw [if_pos (hany.mpr h), if_pos h]
  · rw [if_neg (mt hany.mp h), if_neg h, List.map_append, List.map_cons, List.map_nil]

theorem mem_declareNew {ls : List VarDecl} {v w : VarDecl} (h : w ∈ Context.declareNew ls v) :
    w ∈ ls ∨ w = v := by
  unfold Context.declareNew at h
  split at h
  · exact .inl h
  · simpa using h

theorem names_redeclare (v : VarDecl) (ls : List VarDecl) :
    (Context.redeclare v ls).map (·.name) =
      if v.name ∈ ls.map (·.name) then ls.map (·.name) else ls.map (·.name) ++ [v.name] := by
  induction ls with
  | nil => rfl
  | cons w ls ih =>
    rw [Context.redeclare]
    by_cases hw : w.name = v.name
    · simp [hw]
    · rw [if_neg (by simpa using hw), List.map_cons, ih]
      by_cases hmem : v.name ∈ ls.map (·.name)
      · simp [hmem]
      · simp [hmem, Ne.symm hw]

theorem mem_redeclare {ls : List VarDecl} {v w : VarDecl} (h : w ∈ Context.redeclare v ls) :
    w ∈ ls ∨ w = v := by
  induction ls with
  | nil => exact .inr (List.mem_singleton.mp h)
  | cons u ls ih =>
    rw [Context.redeclare] at h
    split at h
    · rcases List.mem_cons.mp h with rfl | h
      · exact .inr rfl
      · exact .inl (List.mem_cons_of_mem _ h)
    · rcases List.mem_cons.mp h with rfl | h
      · exact .inl List.mem_cons_self
      · exact (ih h).imp_left (List.mem_cons_of_mem _)

/-- One more variable is declared, or the type of one is set. -/
theorem State.Tidy.declare {v : VarDecl} {ls : List VarDecl} (ht : s.Tidy models)
    (hnames : ls.map (·.name) =
      if v.name ∈ s.locals.map (·.name) then s.locals.map (·.name)
      else s.locals.map (·.name) ++ [v.name])
    (hmem : ∀ w ∈ ls, w ∈ s.locals ∨ w = v)
    (hsuits : ∃ slot : Slot, slot.Proper ∧ v.name = slot.name ∧ slot.Suits models v.ty)
    (hparams : v.name ∉ s.params) :
    State.Tidy models { s with locals := ls } ∧ s.Grows { s with locals := ls } ∧
      v.name ∈ State.names { s with locals := ls } := by
  have hsub : s.locals.map (·.name) ⊆ ls.map (·.name) := by
    rw [hnames]
    split
    · exact List.Subset.refl _
    · exact List.subset_append_left _ _
  have hg : s.Grows { s with locals := ls } :=
    ⟨List.append_subset.mpr ⟨List.subset_append_left _ _, fun x hx =>
      List.mem_append_right _ (hsub hx)⟩, rfl, rfl, Nat.le_refl _⟩
  have hin : v.name ∈ ls.map (·.name) := by
    rw [hnames]
    split
    · next h => exact h
    · exact List.mem_append_right _ List.mem_cons_self
  refine ⟨{ ht with nodup := ?_, suits := ?_, apart := ?_, caught := ?_, cmds := ht.cmds.grow hg
                    operands := ht.operands.grow hg }, hg, List.mem_append_right _ hin⟩
  · show (ls.map (·.name)).Nodup
    rw [hnames]
    split
    · exact ht.nodup
    · next h => exact List.nodup_append'.mpr ⟨ht.nodup, List.nodup_singleton _, by simpa using h⟩
  · intro w hw
    rcases hmem w hw with hw | rfl
    · exact ht.suits w hw
    · exact hsuits
  · intro w hw
    rcases hmem w hw with hw | rfl
    · exact ht.apart w hw
    · exact hparams
  · exact fun id r x hr hx => hg.names (ht.caught id r x hr hx)

/-- A generated variable does not meet a parameter. -/
theorem Slot.Suits.name_not_mem_params {slot : Slot} {ty : Ir.Ty} (hsuits : slot.Suits models ty)
    (ht : s.Tidy models) (hsource : slot.isSource = false) : slot.name ∉ s.params := by
  have hproper : slot.Proper := by
    cases slot with
    | source => cases hsource
    | _ => trivial
  intro hmem
  rcases ht.params _ hmem with hplain | hresult
  · rw [Slot.isGenerated_name hproper, hsource] at hplain
    cases hplain
  · obtain rfl : slot = .result := Slot.name_inj hproper trivial hresult
    exact hsuits

/-- A variable of the source program is declared unless it is a parameter. -/
theorem declares_declareLocal {name : String} {ty : Ir.Ty} (hname : isGenerated name = false) :
    Declares models n xs (declareLocal name ty) fun _ => [] := by
  refine ⟨fun {s _ _} ht _ _ hrun => ?_⟩
  rw [declareLocal, changeContext, runs_modify] at hrun
  subst hrun
  unfold Context.declareLocal
  by_cases hparam : s.params.contains name = true
  · simp only [if_pos hparam]
    exact ⟨ht, .refl s, covers_nil⟩
  · simp only [if_neg hparam]
    obtain ⟨ht', hg, -⟩ := ht.declare (names_declareNew s.locals ⟨name, ty⟩)
      (fun _ => mem_declareNew) ⟨.source name, hname, rfl, trivial⟩ (by simpa using hparam)
    exact ⟨ht', hg, covers_nil⟩

theorem declares_freshLocal {stem : String} {ty : Ir.Ty} (slot : Nat → Slot)
    (hname : ∀ k, (slot k).name = "$" ++ stem ++ toString k)
    (hslot : ∀ k, (slot k).isSource = false ∧ (slot k).Proper ∧ (slot k).Suits models ty) :
    Declares models n xs (freshLocal stem ty) fun x => [x] := by
  refine ⟨fun {s s' x} ht _ _ hrun => ?_⟩
  rw [freshLocal, withContext, runs_modifyGet] at hrun
  obtain ⟨hsource, hproper, hsuits⟩ := hslot s.nextTemp
  obtain ⟨ht', hg, hin⟩ := ht.declare
    (names_redeclare ⟨"$" ++ stem ++ toString s.nextTemp, ty⟩ s.locals) (fun _ => mem_redeclare)
    ⟨slot s.nextTemp, hproper, (hname _).symm, hsuits⟩
    (by rw [← hname]; exact hsuits.name_not_mem_params ht hsource)
  cases hrun
  exact ⟨{ ht' with }, ⟨hg.names, rfl, rfl, Nat.le_refl _⟩, fun y hy =>
    .inr (List.mem_singleton.mp hy ▸ hin)⟩

/-- An intermediate value has a variable of its own. -/
theorem declares_temp {ty : Ir.Ty} : Declares models n xs (freshLocal "tmp" ty) fun x => [x] :=
  declares_freshLocal .temp (fun _ => rfl) fun _ => ⟨rfl, trivial, trivial⟩

theorem declares_savedExc : Declares true n xs (freshLocal "savedExc" .ref) fun x => [x] :=
  declares_freshLocal .savedExc (fun _ => rfl) fun _ => ⟨rfl, trivial, rfl, rfl⟩

theorem declares_savedLabel : Declares true n xs (freshLocal "savedLabel" .int) fun x => [x] :=
  declares_freshLocal .savedLabel (fun _ => rfl) fun _ => ⟨rfl, trivial, rfl, rfl⟩

theorem declares_useLabelVar : Declares true n xs useLabelVar fun x => [x, labelVar] := by
  refine ⟨fun {s s' x} ht _ _ hrun => ?_⟩
  rw [useLabelVar, runs_bind] at hrun
  obtain ⟨_, s₁, h₁, h₂⟩ := hrun
  rw [changeContext, runs_modify] at h₁
  obtain ⟨rfl, rfl⟩ := runs_pure.mp h₂
  have hsuits : Slot.label.Suits true .int := ⟨rfl, rfl⟩
  obtain ⟨ht', hg, hin⟩ := ht.declare (names_declareNew s.locals ⟨labelVar, .int⟩)
    (fun _ => mem_declareNew) ⟨.label, trivial, rfl, hsuits⟩ (hsuits.name_not_mem_params ht rfl)
  subst h₁
  exact ⟨ht', hg, covers_cons.mpr ⟨.inr hin, covers_cons.mpr ⟨.inr hin, covers_nil⟩⟩⟩

/-! ## Regions -/

/-- Regions are given names of labels, and jumps. -/
theorem State.Tidy.withRegions (rs : List Region) (ht : s.Tidy models)
    (hlen : s.regions.length ≤ rs.length)
    (hcaught : ∀ (id : Nat) (r : Region) (x : String), rs[id]? = some r →
      r.exceptionLocal = some x → ∃ r', s.regions[id]? = some r' ∧ r'.exceptionLocal = some x) :
    State.Tidy models { s with regions := rs } ∧ s.Grows { s with regions := rs } := by
  refine ⟨{ ht with caught := fun id r x hr hx => ?_, grounded := fun e he => ?_ },
    ⟨List.Subset.refl _, rfl, rfl, hlen⟩⟩
  · obtain ⟨r', hr', hx'⟩ := hcaught id r x hr hx
    exact ht.caught id r' x hr' hx'
  · exact Nat.lt_of_lt_of_le (ht.grounded e he) hlen

theorem getElem?_set_eq_some {rs : List Region} {id id' : Nat} {r r' : Region}
    (h : (rs.set id r)[id']? = some r') : (id = id' ∧ r' = r) ∨ rs[id']? = some r' := by
  rw [List.getElem?_set] at h
  split at h
  · next heq =>
    split at h
    · exact .inl ⟨heq, (Option.some.inj h).symm⟩
    · cases h
  · exact .inr h

theorem declares_allot {id : Nat} {slot : Region → Option String}
    {fill : Region → String → Region} {name : String}
    (hfill : ∀ r l, (fill r l).exceptionLocal = r.exceptionLocal) :
    Declares models n xs (withContext (·.allot id slot fill name)) fun _ => [] := by
  refine ⟨fun {s s' l} ht _ _ hrun => ?_⟩
  obtain ⟨-, rfl⟩ := runs_withContext.mp hrun
  unfold Context.allot
  rcases hr : s.regions[id]? with _ | r
  · exact ⟨ht, .refl _, covers_nil⟩
  rcases hs : slot r with _ | taken
  · obtain ⟨ht', hg⟩ := ht.withRegions (s.regions.set id (fill r name))
      (Nat.le_of_eq List.length_set.symm) fun id' r' x hr' hx => by
        rcases getElem?_set_eq_some hr' with ⟨rfl, rfl⟩ | hr'
        · exact ⟨r, hr, (hfill r name).symm.trans hx⟩
        · exact ⟨r', hr', hx⟩
    simp only [hs]
    exact ⟨ht', hg, covers_nil⟩
  · simp only [hs]
    exact ⟨ht, .refl _, covers_nil⟩

theorem declares_catchLabel {id : Nat} : Declares models n xs (catchLabel id) fun _ => [] :=
  declares_allot fun _ _ => rfl

theorem declares_finallyLabel {id : Nat} : Declares models n xs (finallyLabel id) fun _ => [] :=
  declares_allot fun _ _ => rfl

theorem declares_continuationLabel {id : Nat} :
    Declares models n xs (continuationLabel id) fun _ => [] :=
  declares_allot fun _ _ => rfl

theorem declares_addEscapingEdge {id : Nat} :
    Declares models n xs (addEscapingEdge id) fun _ => [] := by
  refine ⟨fun {s s' e} ht _ _ hrun => ?_⟩
  obtain ⟨-, rfl⟩ := runs_withContext.mp hrun
  unfold Context.addEscapingEdge
  rcases hr : s.regions[id]? with _ | r
  · exact ⟨ht, .refl _, covers_nil⟩
  · have h := fun edges => ht.withRegions (s.regions.set id { r with escapes := edges })
      (Nat.le_of_eq List.length_set.symm) fun id' r' x hr' hx => by
        rcases getElem?_set_eq_some hr' with ⟨rfl, rfl⟩ | hr'
        · exact ⟨r, hr, hx⟩
        · exact ⟨r', hr', hx⟩
    exact ⟨(h _).1, (h _).2, covers_nil⟩

/-- The variable of a region is declared when it is first asked for. -/
theorem declares_exceptionLocal {id : Nat} (hid : id < n) :
    Declares true n xs (exceptionLocal id) fun x => [x] := by
  refine ⟨fun {s s' x} ht hn _ hrun => ?_⟩
  obtain ⟨hx, rfl⟩ := runs_withContext.mp hrun
  unfold Context.exceptionLocal at hx ⊢
  rcases hr : s.regions[id]? with _ | r
  · exact absurd (List.getElem?_eq_none_iff.mp hr) (by omega)
  rw [hr] at hx
  rcases hs : r.exceptionLocal with _ | taken
  · have hsuits : (Slot.caught id).Suits true .ref := ⟨rfl, rfl⟩
    obtain ⟨ht', hg, hin⟩ := ht.declare
      (names_redeclare ⟨"$localExc" ++ toString id, .ref⟩ s.locals) (fun _ => mem_redeclare)
      ⟨.caught id, trivial, rfl, hsuits⟩ (hsuits.name_not_mem_params ht rfl)
    simp only [hs] at hx ⊢
    refine ⟨{ ht' with caught := fun id' r' x hr' hx' => ?_, grounded := fun e he => ?_ },
      ⟨hg.names, rfl, rfl, Nat.le_of_eq List.length_set.symm⟩, fun y hy =>
      .inr (List.mem_singleton.mp hy ▸ hx ▸ hin)⟩
    · rcases getElem?_set_eq_some hr' with ⟨rfl, rfl⟩ | hr'
      · cases hx'
        exact hin
      · exact ht'.caught id' r' x hr' hx'
    · exact Nat.lt_of_lt_of_le (ht.grounded e he) (Nat.le_of_eq List.length_set.symm)
  · simp only [hs] at hx ⊢
    have hin := ht.caught id r _ hr hs
    exact ⟨ht, .refl _, fun y hy => .inr (List.mem_singleton.mp hy ▸ hx ▸ hin)⟩

theorem declares_enterRegion {β : Type} {node : UInt32} {catchTypes : List (Option TypeRef)}
    {f : Nat → Lower β} {us : β → List String}
    (hf : ∀ id, Declares models (id + 1) xs (f id) us) :
    Declares models n xs (enterRegion node catchTypes >>= f) us := by
  refine ⟨fun {s s' b} ht hn hxs hrun => ?_⟩
  obtain ⟨id, s₁, h₁, h₂⟩ := runs_bind.mp hrun
  obtain ⟨rfl, rfl⟩ := runs_withContext.mp h₁
  let region : Region := { node, catchTypes }
  have hlen : (s.regions ++ [region]).length = s.regions.length + 1 := List.length_append
  obtain ⟨ht₁, hg₁⟩ := ht.withRegions (s.regions ++ [region]) (by omega)
    fun id r x hr hx => by
      rw [List.getElem?_append] at hr
      split at hr
      · exact ⟨r, hr, hx⟩
      · -- the new region has no variable yet
        obtain rfl := List.mem_singleton.mp (List.mem_of_getElem? hr)
        cases hx
  obtain ⟨ht', hg', hus⟩ := (hf s.regions.length).run ht₁ (Nat.le_of_eq hlen.symm)
    (hxs.grow hg₁) h₂
  exact ⟨ht', hg₁.trans hg', hus⟩

/-! ## The stack -/

theorem declares_pushPhase {id : Nat} (phase : Phase) (hid : id < n) :
    Declares true n xs (pushPhase id phase) fun _ => [] := by
  refine ⟨fun {s s' u} ht hn _ hrun => ?_⟩
  cases hrun
  exact ⟨{ ht with
      grounded := List.forall_mem_cons.mpr ⟨Nat.lt_of_lt_of_le hid hn, ht.grounded⟩
      stack := nofun }, ⟨List.Subset.refl _, rfl, rfl, Nat.le_refl _⟩, covers_nil⟩

theorem declares_popPhase {id : Nat} (phase : Phase) :
    Declares models n xs (popPhase id phase) fun _ => [] := by
  refine ⟨fun {s s' u} ht hn _ hrun => ?_⟩
  rw [Runs, run_popPhase] at hrun
  split at hrun
  · cases hrun
  · cases hrun
    refine ⟨{ ht with grounded := fun e he => ht.grounded e (List.mem_of_mem_tail he)
                      stack := fun hm => ?_ },
      ⟨List.Subset.refl _, rfl, rfl, Nat.le_refl _⟩, covers_nil⟩
    show s.stack.tail = []
    rw [ht.stack hm]
    rfl

end

end Unwind.Lowering
