import Unwind.Lowering.Method
import Unwind.Proofs.Names
import Unwind.Proofs.Paths

/-!
# What the steps of a lowering do

`Runs act s a s'` says that the step `act` succeeds in the state `s` with the result `a` and leaves
`s'`. The equivalences of the first section take a composed step apart; every operation of the
lowering then has one lemma that says what it does.

Of a state, the code that is emitted depends on little: the frames of the stack (`View`) and three
counters (`Counters`). In a `View` every name that a region has been given is the one its number
asks for, so that names are functions of numbers from here on.
-/

namespace Unwind.Lowering

open Source (Expr Stmt TypeRef)
open Ir (Cmd)
open Machine (Instr flatten)

/-! ## Successful steps -/

section Runs

variable {σ α β : Type} {t t' : σ} {s s' : State} {a : α} {b : β}

/-- The step succeeds with `a` and leads from `t` to `t'`. -/
def Runs (act : ExceptT Fault (StateM σ) α) (t : σ) (a : α) (t' : σ) : Prop :=
  act.run t = (.ok a, t')

theorem runs_pure {a' : α} :
    Runs (pure a : ExceptT Fault (StateM σ) α) t a' t' ↔ a' = a ∧ t' = t := by
  constructor
  · intro h
    cases h
    exact ⟨rfl, rfl⟩
  · rintro ⟨rfl, rfl⟩
    rfl

/-- A composed step: the second part runs when the first one succeeds. -/
theorem run_bind {ε : Type} (x : ExceptT ε (StateM σ) α) (f : α → ExceptT ε (StateM σ) β) (t : σ) :
    (x >>= f).run t =
      match x.run t with
      | (.ok a, t₁) => (f a).run t₁
      | (.error e, t₁) => (.error e, t₁) := by
  rw [ExceptT.run_bind]
  have e : ∀ g : Except ε α → StateM σ (Except ε β),
      (x.run >>= g) t = g (x.run t).1 (x.run t).2 := fun _ => rfl
  rw [e]
  rcases x.run t with ⟨a | a, t₁⟩ <;> rfl

theorem runs_bind {x : ExceptT Fault (StateM σ) α} {f : α → ExceptT Fault (StateM σ) β} :
    Runs (x >>= f) t b t' ↔ ∃ a t₁, Runs x t a t₁ ∧ Runs (f a) t₁ b t' := by
  unfold Runs
  rw [run_bind]
  rcases x.run t with ⟨a | a, t₁⟩
  · constructor
    · intro h
      cases h
    · rintro ⟨_, _, h, -⟩
      cases h
  · constructor
    · intro h
      exact ⟨a, t₁, rfl, h⟩
    · rintro ⟨_, _, h, h'⟩
      cases h
      exact h'

theorem runs_lift {x : Except Fault α} :
    Runs (liftM x : ExceptT Fault (StateM σ) α) t a t' ↔ x = .ok a ∧ t' = t := by
  constructor
  · intro h
    cases x with
    | ok a => cases h; exact ⟨rfl, rfl⟩
    | error e => cases h
  · rintro ⟨rfl, rfl⟩
    rfl

theorem not_runs_throw {e : Fault} :
    ¬ Runs (throw e : ExceptT Fault (StateM σ) α) t a t' := fun h => by cases h

theorem runs_modify {f : σ → σ} {u : Unit} :
    Runs (modify f : ExceptT Fault (StateM σ) Unit) t u t' ↔ t' = f t := by
  constructor
  · intro h
    cases h
    rfl
  · rintro rfl
    rfl

theorem runs_modifyGet {f : σ → α × σ} :
    Runs (modifyGet f : ExceptT Fault (StateM σ) α) t a t' ↔ f t = (a, t') := by
  constructor
  · intro h
    cases h
    rfl
  · intro h
    show (Except.ok (f t).1, (f t).2) = _
    rw [h]

theorem runs_context {cx : Context} : Runs context s cx s' ↔ cx = s.toContext ∧ s' = s := by
  constructor
  · intro h
    cases h
    exact ⟨rfl, rfl⟩
  · rintro ⟨rfl, rfl⟩
    rfl

theorem runs_emit {c : Cmd} {u : Unit} :
    Runs (emit c) s u s' ↔ s' = { s with cmds := s.cmds ++ [c] } := runs_modify

theorem runs_emitAll {cs : List Cmd} {u : Unit} :
    Runs (emitAll cs) s u s' ↔ s' = { s with cmds := s.cmds ++ cs } := runs_modify

theorem run_buffered {act : Lower α} {r : Except Fault α}
    (h : act.run { s with cmds := [] } = (r, s')) :
    (buffered act).run s = (r.map fun a => (a, s'.cmds), { s' with cmds := s.cmds }) := by
  show (Except.map (fun a => (a, (act.run { s with cmds := [] }).2.cmds))
      (act.run { s with cmds := [] }).1,
    { (act.run { s with cmds := [] }).2 with cmds := s.cmds }) = _
  rw [h]

/-- A buffered step starts without commands; afterwards the commands from before are back. -/
theorem runs_buffered {act : Lower α} {r : α × List Cmd} :
    Runs (buffered act) s r s' ↔
      ∃ s₁, Runs act { s with cmds := [] } r.1 s₁ ∧ r.2 = s₁.cmds ∧
        s' = { s₁ with cmds := s.cmds } := by
  unfold Runs
  rcases h : act.run { s with cmds := [] } with ⟨e | a, s₁⟩ <;> rw [run_buffered h]
  · constructor
    · intro h
      cases h
    · rintro ⟨_, h, -⟩
      cases h
  · constructor
    · intro h
      cases h
      exact ⟨s₁, rfl, rfl, rfl⟩
    · rintro ⟨_, h, h', rfl⟩
      cases h
      rw [← Prod.eta r, h']
      rfl

theorem runs_commandsOf {act : Lower Unit} {cs : List Cmd} :
    Runs (commandsOf act) s cs s' ↔
      ∃ s₁, Runs act { s with cmds := [] } () s₁ ∧ cs = s₁.cmds ∧
        s' = { s₁ with cmds := s.cmds } := by
  unfold commandsOf
  rw [runs_bind]
  constructor
  · rintro ⟨⟨u, cs'⟩, s₁, h, h'⟩
    obtain ⟨rfl, rfl⟩ := runs_pure.mp h'
    exact runs_buffered.1 h
  · rintro ⟨s₁, h, rfl, rfl⟩
    exact ⟨((), s₁.cmds), _, runs_buffered.2 ⟨s₁, h, rfl, rfl⟩, runs_pure.mpr ⟨rfl, rfl⟩⟩

end Runs

/-! ## What the code depends on -/

/-- A `try` statement around the code: its region, its id, the part that is being emitted, and its
path. -/
@[ext]
structure Frame where
  region : Nat
  node : UInt32
  phase : Phase
  place : Source.Path
deriving DecidableEq

/-- The entry of the stack for a frame. -/
def Frame.entry (f : Frame) : Entry := ⟨f.region, f.phase⟩

/-- What has been given out: regions, numbers of variables, and jumps out of each region. -/
@[ext]
structure Counters where
  regions : Nat
  temps : Nat
  escapes : Nat → Nat

/-- The jump number `k` out of a region. -/
def edge (region k : Nat) : EscapingEdge := ⟨Int64.ofNat k, (Tag.resume region k).name⟩

/-- The names that a region has been given are the ones its number asks for. -/
structure Region.Named (id : Nat) (r : Region) : Prop where
  catchLabel : ∀ l, r.catchLabel = some l → l = (Tag.catches id).name
  finallyLabel : ∀ l, r.finallyLabel = some l → l = (Tag.finalizer id).name
  continuationLabel : ∀ l, r.continuationLabel = some l → l = (Tag.behind id).name
  exceptionLocal : ∀ x, r.exceptionLocal = some x → x = (Slot.caught id).name
  escapes : r.escapes = (List.range r.escapes.length).map (edge id)

/-- The region `id` belongs to the `try` statement `node`. -/
def State.HasNode (s : State) (id : Nat) (node : UInt32) : Prop :=
  ∃ r, s.regions[id]? = some r ∧ r.node = node

/-- The state of a body between the frames `ρ`. -/
structure View (scopes : LabelScopes) (ρ : List Frame) (s : State) : Prop where
  named : ∀ (id : Nat) (r : Region), s.regions[id]? = some r → r.Named id
  stack : s.stack = ρ.map Frame.entry
  nodes : ∀ f ∈ ρ, s.HasNode f.region f.node
  scopes : s.scopes = scopes
  returnVar : ∀ x, s.returnVar = some x → x = resultVar

/-- The commands are not part of the view. -/
theorem View.withCmds {scopes : LabelScopes} {ρ : List Frame} {s : State} (hv : View scopes ρ s)
    (cs : List Cmd) : View scopes ρ { s with cmds := cs } :=
  ⟨hv.named, hv.stack, hv.nodes, hv.scopes, hv.returnVar⟩

/-- The counters of a state. -/
def State.counters (s : State) : Counters where
  regions := s.regions.length
  temps := s.nextTemp
  escapes := fun id => (s.escapingEdges id).length

/-- Between `s` and `s'`, exactly the instructions `is` were emitted, and of the counters only the
numbers of variables have moved. -/
structure Emits (s : State) (is : List Instr) (s' : State) : Prop where
  cmds : ∃ cs, s'.cmds = s.cmds ++ cs ∧ flatten cs = is
  view : ∀ {scopes ρ}, View scopes ρ s → View scopes ρ s'
  nodes : ∀ {id node}, s.HasNode id node → s'.HasNode id node
  regions : s'.counters.regions = s.counters.regions
  temps : s.counters.temps ≤ s'.counters.temps
  escapes : s'.counters.escapes = s.counters.escapes

theorem Emits.refl (s : State) : Emits s [] s :=
  ⟨⟨[], by simp, rfl⟩, id, id, rfl, Nat.le_refl _, rfl⟩

theorem Emits.trans {s s₁ s₂ : State} {is js : List Instr} (h : Emits s is s₁)
    (h' : Emits s₁ js s₂) : Emits s (is ++ js) s₂ := by
  obtain ⟨cs, hc, hf⟩ := h.cmds
  obtain ⟨cs', hc', hf'⟩ := h'.cmds
  refine ⟨⟨cs ++ cs', ?_, ?_⟩, fun hv => h'.view (h.view hv), fun hn => h'.nodes (h.nodes hn),
    h'.regions.trans h.regions, Nat.le_trans h.temps h'.temps, h'.escapes.trans h.escapes⟩
  · rw [hc', hc, List.append_assoc]
  · rw [Machine.flatten_append, hf, hf']

/-- A change of what neither the code nor the counters depend on. -/
theorem Emits.of_eq {s s' : State} (hc : s'.cmds = s.cmds) (hr : s'.regions = s.regions)
    (hst : s'.stack = s.stack) (hsc : s'.scopes = s.scopes) (hrv : s'.returnVar = s.returnVar)
    (ht : s.nextTemp ≤ s'.nextTemp) : Emits s [] s' := by
  refine ⟨⟨[], by simp [hc], rfl⟩, fun hv => ?_, fun hn => ?_, ?_, ht, ?_⟩
  · refine ⟨?_, ?_, ?_, ?_, ?_⟩
    · rw [hr]; exact hv.named
    · rw [hst]; exact hv.stack
    · unfold State.HasNode
      rw [hr]
      exact hv.nodes
    · rw [hsc]; exact hv.scopes
    · rw [hrv]; exact hv.returnVar
  · unfold State.HasNode
    rw [hr]
    exact hn
  · simp [State.counters, hr]
  · simp [State.counters, Context.escapingEdges, hr]

theorem emits_emitAll {s s' : State} {cs : List Cmd} {u : Unit} (h : Runs (emitAll cs) s u s') :
    Emits s (flatten cs) s' := by
  rw [runs_emitAll] at h
  subst h
  exact ⟨⟨cs, rfl, rfl⟩, fun hv => hv.withCmds _, id, rfl, Nat.le_refl _, rfl⟩

theorem emits_emit {s s' : State} {c : Cmd} {u : Unit} (h : Runs (emit c) s u s') :
    Emits s (Machine.flattenCmd c) s' := by
  rw [← Machine.flatten_singleton]
  exact emits_emitAll h

/-- What a buffered step emits is not emitted; the state around its commands moves on. -/
theorem Emits.unbuffer {s s' : State} {is : List Instr} (h : Emits { s with cmds := [] } is s') :
    Emits s [] { s' with cmds := s.cmds } ∧ flatten s'.cmds = is := by
  obtain ⟨cs, hc, hf⟩ := h.cmds
  refine ⟨⟨⟨[], by simp, rfl⟩, fun hv => ?_, fun hn => h.nodes hn, h.regions, h.temps,
    h.escapes⟩, ?_⟩
  · exact (h.view (hv.withCmds [])).withCmds _
  · rw [hc, List.nil_append, hf]

/-! ## Operations that emit nothing -/

section Operations

variable {s s' : State} {u : Unit}

theorem emits_withRegistry {α : Type} {a : α} {f : Registry → α × Registry}
    (h : Runs (withRegistry f) s a s') : Emits s [] s' := by
  rw [withRegistry, runs_modifyGet] at h
  cases h
  exact .of_eq rfl rfl rfl rfl rfl (Nat.le_refl _)

theorem emits_declareLocal {name : String} {ty : Ir.Ty}
    (h : Runs (declareLocal name ty) s u s') : Emits s [] s' := by
  rw [declareLocal, changeContext, runs_modify] at h
  subst h
  unfold Context.declareLocal
  split
  · exact .refl s
  · exact .of_eq rfl rfl rfl rfl rfl (Nat.le_refl _)

theorem emits_pushOperand {v : Ir.Expr} (h : Runs (pushOperand v) s u s') : Emits s [] s' := by
  rw [pushOperand, changeContext, runs_modify] at h
  subst h
  exact .of_eq rfl rfl rfl rfl rfl (Nat.le_refl _)

theorem emits_popOperand {v : Ir.Expr} (h : Runs popOperand s v s') : Emits s [] s' := by
  rw [popOperand, runs_bind] at h
  obtain ⟨cx, s₁, hcx, h⟩ := h
  obtain ⟨rfl, rfl⟩ := runs_context.mp hcx
  split at h
  · rw [runs_bind] at h
    obtain ⟨_, s₂, h₁, h₂⟩ := h
    rw [changeContext, runs_modify] at h₁
    obtain ⟨-, rfl⟩ := runs_pure.mp h₂
    subst h₁
    exact .of_eq rfl rfl rfl rfl rfl (Nat.le_refl _)
  · exact absurd h not_runs_throw

/-- A new variable carries the number that is next. -/
theorem runs_freshLocal {stem : String} {ty : Ir.Ty} {x : String}
    (h : Runs (freshLocal stem ty) s x s') :
    x = "$" ++ stem ++ toString s.nextTemp ∧ s'.nextTemp = s.nextTemp + 1 ∧ Emits s [] s' := by
  rw [freshLocal, withContext, runs_modifyGet] at h
  cases h
  exact ⟨rfl, rfl, .of_eq rfl rfl rfl rfl rfl (Nat.le_succ _)⟩

theorem runs_useLabelVar {x : String} (h : Runs useLabelVar s x s') :
    x = labelVar ∧ Emits s [] s' := by
  rw [useLabelVar, runs_bind] at h
  obtain ⟨_, s₁, h₁, h₂⟩ := h
  rw [changeContext, runs_modify] at h₁
  obtain ⟨rfl, rfl⟩ := runs_pure.mp h₂
  subst h₁
  exact ⟨rfl, .of_eq rfl rfl rfl rfl rfl (Nat.le_refl _)⟩

/-! ## Operations on regions -/

/-- The place of a region in a view is taken by one that differs in names only. -/
theorem Emits.setRegion {id : Nat} {r r' : Region} {locals : List Ir.VarDecl}
    (hr : s.regions[id]? = some r) (hn : r.Named id → r'.Named id) (hnode : r'.node = r.node)
    (hesc : r'.escapes = r.escapes) :
    Emits s [] { s with regions := s.regions.set id r', locals } := by
  have hlt : id < s.regions.length := (List.getElem?_eq_some_iff.mp hr).1
  have hnodes : ∀ {id' node}, s.HasNode id' node →
      State.HasNode { s with regions := s.regions.set id r', locals } id' node := by
    rintro id' node ⟨q, hq, hqn⟩
    by_cases he : id = id'
    · refine ⟨r', by rw [List.getElem?_set, if_pos he, if_pos (he ▸ hlt)], ?_⟩
      rw [← he, hr] at hq
      cases hq
      rw [hnode, hqn]
    · exact ⟨q, by rw [List.getElem?_set, if_neg he]; exact hq, hqn⟩
  refine ⟨⟨[], by simp, rfl⟩, fun hv => ⟨?_, hv.stack, fun f hf => hnodes (hv.nodes f hf),
    hv.scopes, hv.returnVar⟩, hnodes, ?_, Nat.le_refl _, ?_⟩
  · intro id' q hq
    rw [List.getElem?_set] at hq
    split at hq
    · next he =>
      subst he
      cases hq
      exact hn (hv.named _ _ hr)
    · exact hv.named _ _ hq
  · simp [State.counters]
  · funext id'
    simp only [State.counters, Context.escapingEdges, List.getElem?_set]
    by_cases he : id = id'
    · rw [if_pos he, if_pos (he ▸ hlt), ← he, hr]
      exact congrArg List.length hesc
    · rw [if_neg he]

/-- A slot of a region holds the name it asks for, now and ever after. -/
theorem runs_allot {id : Nat} {slot : Region → Option String} {fill : Region → String → Region}
    {name x : String} {scopes : LabelScopes} {ρ : List Frame} (hv : View scopes ρ s)
    (hid : id < s.regions.length)
    (hslot : ∀ r, r.Named id → ∀ y, slot r = some y → y = name)
    (hfill : ∀ r, r.Named id → (fill r name).Named id)
    (hnode : ∀ r, (fill r name).node = r.node) (hesc : ∀ r, (fill r name).escapes = r.escapes)
    (h : Runs (withContext (·.allot id slot fill name)) s x s') :
    x = name ∧ Emits s [] s' := by
  rw [withContext, runs_modifyGet] at h
  obtain ⟨r, hr⟩ : ∃ r, s.regions[id]? = some r := ⟨_, List.getElem?_eq_getElem hid⟩
  unfold Context.allot at h
  simp only [hr] at h
  cases hs : slot r with
  | some y =>
    simp only [hs] at h
    cases h
    exact ⟨hslot r (hv.named id r hr) _ hs, .refl s⟩
  | none =>
    simp only [hs] at h
    cases h
    exact ⟨rfl, .setRegion hr (fun hn => hfill r hn) (hnode r) (hesc r)⟩

variable {scopes : LabelScopes} {ρ : List Frame}

theorem runs_catchLabel {id : Nat} {x : String} (hv : View scopes ρ s)
    (hid : id < s.regions.length) (h : Runs (catchLabel id) s x s') :
    x = (Tag.catches id).name ∧ Emits s [] s' :=
  runs_allot hv hid (fun _ hn _ hy => hn.catchLabel _ hy)
    (fun _ hn => { hn with catchLabel := fun _ hl => by cases hl; rfl }) (fun _ => rfl)
    (fun _ => rfl) h

theorem runs_finallyLabel {id : Nat} {x : String} (hv : View scopes ρ s)
    (hid : id < s.regions.length) (h : Runs (finallyLabel id) s x s') :
    x = (Tag.finalizer id).name ∧ Emits s [] s' :=
  runs_allot hv hid (fun _ hn _ hy => hn.finallyLabel _ hy)
    (fun _ hn => { hn with finallyLabel := fun _ hl => by cases hl; rfl }) (fun _ => rfl)
    (fun _ => rfl) h

theorem runs_continuationLabel {id : Nat} {x : String} (hv : View scopes ρ s)
    (hid : id < s.regions.length) (h : Runs (continuationLabel id) s x s') :
    x = (Tag.behind id).name ∧ Emits s [] s' :=
  runs_allot hv hid (fun _ hn _ hy => hn.continuationLabel _ hy)
    (fun _ hn => { hn with continuationLabel := fun _ hl => by cases hl; rfl }) (fun _ => rfl)
    (fun _ => rfl) h

theorem runs_exceptionLocal {id : Nat} {x : String} (hv : View scopes ρ s)
    (hid : id < s.regions.length) (h : Runs (exceptionLocal id) s x s') :
    x = (Slot.caught id).name ∧ Emits s [] s' := by
  rw [exceptionLocal, withContext, runs_modifyGet] at h
  obtain ⟨r, hr⟩ : ∃ r, s.regions[id]? = some r := ⟨_, List.getElem?_eq_getElem hid⟩
  unfold Context.exceptionLocal at h
  simp only [hr] at h
  cases hs : r.exceptionLocal with
  | some y =>
    simp only [hs] at h
    cases h
    exact ⟨(hv.named id r hr).exceptionLocal _ hs, .refl s⟩
  | none =>
    simp only [hs] at h
    cases h
    exact ⟨rfl, .setRegion hr
      (fun hn => { hn with exceptionLocal := fun _ hl => by cases hl; rfl }) rfl rfl⟩

/-- One more jump out of a region. -/
def Counters.escape (c : Counters) (id : Nat) : Counters :=
  { c with escapes := Function.update c.escapes id (c.escapes id + 1) }

theorem runs_addEscapingEdge {id : Nat} {e : EscapingEdge} (hv : View scopes ρ s)
    (hid : id < s.regions.length) (h : Runs (addEscapingEdge id) s e s') :
    e = edge id (s.counters.escapes id) ∧ s'.cmds = s.cmds ∧ View scopes ρ s' ∧
      s'.counters = s.counters.escape id := by
  rw [addEscapingEdge, withContext, runs_modifyGet] at h
  obtain ⟨r, hr⟩ : ∃ r, s.regions[id]? = some r := ⟨_, List.getElem?_eq_getElem hid⟩
  unfold Context.addEscapingEdge at h
  simp only [hr] at h
  cases h
  have hlen : (s.escapingEdges id).length = r.escapes.length := by
    simp only [Context.escapingEdges, hr]
  refine ⟨rfl, rfl, ⟨?_, hv.stack, ?_, hv.scopes, hv.returnVar⟩, ?_⟩
  · intro id' q hq
    simp only [Context.setRegion, List.getElem?_set] at hq
    split at hq
    · next he =>
      subst he
      cases hq
      have hn := hv.named id r hr
      refine { hn with escapes := ?_ }
      rw [List.length_append, List.length_singleton, List.range_succ, List.map_append,
        ← hn.escapes]
      simp [edge, Tag.name, hlen]
    · exact hv.named _ _ hq
  · intro f hf
    obtain ⟨q, hq, hqn⟩ := hv.nodes f hf
    simp only [State.HasNode, Context.setRegion, List.getElem?_set]
    by_cases he : id = f.region
    · refine ⟨_, by rw [if_pos he, if_pos (he ▸ hid)], ?_⟩
      rw [← he, hr] at hq
      cases hq
      exact hqn
    · exact ⟨q, by rw [if_neg he]; exact hq, hqn⟩
  · refine Counters.ext (by simp [State.counters, Counters.escape, Context.setRegion]) rfl ?_
    funext id'
    simp only [State.counters, Counters.escape, Context.escapingEdges, Context.setRegion,
      List.getElem?_set, Function.update_apply]
    by_cases he : id = id'
    · rw [if_pos he, if_pos (he ▸ hid), if_pos he.symm, hr]
      simp
    · rw [if_neg he, if_neg (Ne.symm he)]

theorem runs_enterRegion {node : UInt32} {types : List (Option TypeRef)} {id : Nat}
    (hv : View scopes ρ s) (h : Runs (enterRegion node types) s id s') :
    id = s.counters.regions ∧ s'.cmds = s.cmds ∧ View scopes ρ s' ∧
      s'.counters = { s.counters with regions := s.counters.regions + 1 } ∧
      s'.HasNode id node := by
  rw [enterRegion, withContext, runs_modifyGet] at h
  cases h
  refine ⟨rfl, rfl, ⟨?_, hv.stack, ?_, hv.scopes, hv.returnVar⟩, ?_, ?_⟩
  · intro id' q hq
    simp only [List.getElem?_append, List.getElem?_singleton] at hq
    by_cases hlt : id' < s.regions.length
    · rw [if_pos hlt] at hq
      exact hv.named _ _ hq
    · rw [if_neg hlt] at hq
      by_cases h0 : id' - s.regions.length = 0
      · rw [if_pos h0] at hq
        cases hq
        exact ⟨nofun, nofun, nofun, nofun, rfl⟩
      · rw [if_neg h0] at hq
        cases hq
  · intro f hf
    obtain ⟨q, hq, hqn⟩ := hv.nodes f hf
    have hlt : f.region < s.regions.length := (List.getElem?_eq_some_iff.mp hq).1
    exact ⟨q, by simp only [List.getElem?_append, if_pos hlt]; exact hq, hqn⟩
  · refine Counters.ext (by simp [State.counters]) rfl ?_
    funext id'
    simp only [State.counters, Context.escapingEdges, List.getElem?_append,
      List.getElem?_singleton]
    by_cases hlt : id' < s.regions.length
    · rw [if_pos hlt]
    · rw [if_neg hlt, List.getElem?_eq_none (Nat.le_of_not_lt hlt)]
      by_cases h0 : id' - s.regions.length = 0
      · rw [if_pos h0]
      · rw [if_neg h0]
  · exact ⟨{ node, catchTypes := types }, by simp, rfl⟩

theorem runs_pushPhase {f : Frame} (hv : View scopes ρ s)
    (hf : s.HasNode f.region f.node)
    (h : Runs (pushPhase f.region f.phase) s u s') :
    s'.cmds = s.cmds ∧ View scopes (f :: ρ) s' ∧ s'.counters = s.counters := by
  rw [pushPhase, runs_bind] at h
  obtain ⟨_, s₁, h₁, h₂⟩ := h
  rw [report, runs_modify] at h₁
  rw [changeContext, runs_modify] at h₂
  subst h₁ h₂
  refine ⟨rfl, ⟨hv.named, ?_, ?_, hv.scopes, hv.returnVar⟩, rfl⟩
  · exact congrArg (f.entry :: ·) hv.stack
  · intro g hg
    rcases List.mem_cons.mp hg with rfl | hg
    · exact hf
    · exact hv.nodes g hg

/-- The phase that ends is the one on top of the stack, so that ending it always succeeds. -/
theorem runs_popPhase_iff {f : Frame} (hv : View scopes (f :: ρ) s) :
    Runs (popPhase f.region f.phase) s u s' ↔
      s' = { s with toContext := { s.toContext with stack := s.stack.tail } } := by
  have hst : s.stack.head? = some ⟨f.region, f.phase⟩ := by rw [hv.stack]; rfl
  rw [popPhase, runs_bind]
  constructor
  · rintro ⟨cx, s₁, h₁, h₂⟩
    obtain ⟨rfl, rfl⟩ := runs_context.mp h₁
    obtain ⟨_, s₂, h₂, h₃⟩ := runs_bind.mp h₂
    rw [changeContext, runs_modify] at h₂
    rw [if_neg (by simp [hst]), runs_pure] at h₃
    rw [h₃.2, h₂]
  · rintro rfl
    refine ⟨_, _, runs_context.mpr ⟨rfl, rfl⟩, runs_bind.mpr ⟨(), _, runs_modify.mpr rfl, ?_⟩⟩
    rw [if_neg (by simp [hst])]
    exact runs_pure.mpr ⟨rfl, rfl⟩

theorem runs_popPhase {f : Frame} (hv : View scopes (f :: ρ) s)
    (h : Runs (popPhase f.region f.phase) s u s') :
    s'.cmds = s.cmds ∧ View scopes ρ s' ∧ s'.counters = s.counters ∧
      s'.HasNode f.region f.node := by
  rw [runs_popPhase_iff hv] at h
  subst h
  refine ⟨rfl, ⟨hv.named, ?_, fun g hg => hv.nodes g (List.mem_cons_of_mem _ hg), hv.scopes,
    hv.returnVar⟩, rfl, hv.nodes f List.mem_cons_self⟩
  simp [hv.stack]

end Operations

/-! ## Marks and operators -/

theorem emitMarks_eq (env : Env) (span : Span) (kind : Source.StmtKind) :
    emitMarks env span kind =
      if carriesMarks kind then (do
        (if env.options.emitSourceContext && span.isKnown then emit (sourceMark env span)
          else pure ())
        (if env.options.captureState then (do
            let n ← withRegistry (·.nextCaptureState)
            emit (.marker ⟨"captureState", [.str ("s" ++ toString n.toNat)]⟩))
          else pure ()))
      else pure () := by
  unfold emitMarks
  by_cases hp : (env.options.emitSourceContext && span.isKnown) = true
  · simp only [hp, if_true]
  · simp only [hp]
    rfl

/-- The equation of an operator that is no assignment. -/
theorem lowerExpr_binary (env : Env) {id : UInt32} {span : Span} {ty : Source.Ty}
    {op : Source.BinOp} {lhs rhs : Expr} {compound : Bool} (h : lhs.isTarget = false) :
    lowerExpr env ⟨id, span, ty, .binary op lhs rhs⟩ compound = (do
      let left ← valueOf lhs (lowerExpr env lhs false)
      let right ← buffered (valueOf rhs (lowerExpr env rhs false))
      return some (← finishBinary op lhs left right.1 right.2)) := by
  rw [lowerExpr]
  rintro i sp t target rfl
  cases h

/-! ## Methods -/

theorem startContext_eq (scopes : LabelScopes) (params returns : List Ir.VarDecl) :
    ∃ names slot, (∀ x, slot = some x → x = resultVar) ∧
      startContext scopes params returns = { params := names, scopes, returnVar := slot } := by
  have hfold : ∀ (ps : List Ir.VarDecl) (cx : Context),
      ps.foldl (fun cx p => cx.bindParam p.name) cx =
        { cx with params := cx.params ++ ps.map (·.name) } := by
    intro ps
    induction ps with
    | nil => simp
    | cons p ps ih =>
      intro cx
      rw [List.foldl_cons, ih]
      simp [Context.bindParam]
  unfold startContext
  rw [hfold]
  split
  · exact ⟨_, none, by simp, rfl⟩
  · refine ⟨_, some resultVar, ?_, rfl⟩
    intro x hx
    cases hx
    rfl

theorem run_inContext {cx : Context} {act : Lower Unit} {t : Shared} {r : Except Fault Unit}
    {s : State} (h : act.run ⟨cx, t⟩ = (r, s)) :
    (inContext cx act).run t = (r.map fun _ => s.toContext, s.toShared) := by
  show ((act.run ⟨cx, t⟩).1.map fun _ => (act.run ⟨cx, t⟩).2.toContext,
    (act.run ⟨cx, t⟩).2.toShared) = _
  rw [h]

theorem runs_inContext {cx cx' : Context} {act : Lower Unit} {t t' : Shared}
    (h : Runs (inContext cx act) t cx' t') :
    ∃ s, Runs act ⟨cx, t⟩ () s ∧ cx' = s.toContext := by
  unfold Runs at h ⊢
  rcases hact : act.run ⟨cx, t⟩ with ⟨e | a, s⟩
  · rw [run_inContext hact] at h
    cases h
  · rw [run_inContext hact] at h
    cases h
    exact ⟨s, rfl, rfl⟩

/-- What all bodies share when the body of a method starts. -/
def announce (owner : Source.TypeDef) (m : Source.MethodDef) (shared : Shared) : Shared :=
  let name := (m.reference owner.name).procedureName
  { shared with log := shared.log.add .debug s!"lowering procedure {name}" }

/-- A method whose signature and labels are in order, up to the lowering of its body. -/
structure Prepared (m : Source.MethodDef) (body : Stmt) (params returns : List Ir.VarDecl)
    (scopes : LabelScopes) : Prop where
  body_eq : m.body = some body
  params_eq : paramsOf m = .ok params
  returns_eq : returnsOf m = .ok returns
  scopes_eq : LabelScopes.collect body = .ok scopes

/-- A method is either decided without its body, or prepared. -/
theorem decided_or_prepared (m : Source.MethodDef) (type : TypeRef) :
    (∃ r, (∀ p, r = .ok p → p.body = none ∧ p.name = (m.reference type).procedureName) ∧
        ∀ (env : Env) (owner : Source.TypeDef), owner.name = type → ∀ shared : Shared,
          ∃ log, (lowerMethod env owner m).run shared = (r, ⟨shared.registry, log⟩)) ∨
      ∃ body params returns scopes, Prepared m body params returns scopes := by
  rcases hparams : paramsOf m with e | params
  · refine .inl ⟨.error e, nofun, fun env owner _ shared => ⟨shared.log, ?_⟩⟩
    simp only [lowerMethod, hparams]
    rfl
  rcases hreturns : returnsOf m with e | returns
  · refine .inl ⟨.error e, nofun, fun env owner _ shared => ⟨shared.log, ?_⟩⟩
    simp only [lowerMethod, hparams, hreturns]
    rfl
  rcases hbody : m.body with _ | body
  · refine .inl ⟨.ok (.declaration (m.reference type).procedureName params returns), ?_, ?_⟩
    · rintro p ⟨⟩
      exact ⟨rfl, rfl⟩
    · rintro env owner rfl shared
      simp only [lowerMethod, hparams, hreturns, hbody]
      exact ⟨shared.log, rfl⟩
  rcases hscopes : LabelScopes.collect body with e | scopes
  · refine .inl ⟨.error e, nofun, fun env owner _ shared => ⟨(announce owner m shared).log, ?_⟩⟩
    simp only [lowerMethod, hparams, hreturns, hbody, hscopes]
    rfl
  exact .inr ⟨body, params, returns, scopes, hbody, hparams, hreturns, hscopes⟩

/-- The procedure made of a body that is complete. -/
def finished (owner : Source.TypeDef) (m : Source.MethodDef) (params returns : List Ir.VarDecl)
    (cx : Context) : Except Fault Ir.Procedure :=
  cx.finish.map fun done =>
    { name := (m.reference owner.name).procedureName, params, returns, locals := done.1,
      body := some done.2 }

theorem name_of_finished {owner : Source.TypeDef} {m : Source.MethodDef}
    {params returns : List Ir.VarDecl} {cx : Context} {p : Ir.Procedure}
    (h : finished owner m params returns cx = .ok p) :
    p.name = (m.reference owner.name).procedureName := by
  unfold finished at h
  cases hf : cx.finish with
  | error e =>
    rw [hf] at h
    cases h
  | ok done =>
    rw [hf] at h
    cases h
    rfl

/-- A method is lowered by lowering its body. -/
theorem run_lowerMethod {env : Env} {owner : Source.TypeDef} {m : Source.MethodDef} {body : Stmt}
    {params returns : List Ir.VarDecl} {scopes : LabelScopes} {shared : Shared}
    {r : Except Fault Unit} {s : State} (hm : Prepared m body params returns scopes)
    (h : (do breadcrumb env; lowerStmt env body : Lower Unit).run
      ⟨startContext scopes params returns, announce owner m shared⟩ = (r, s)) :
    (lowerMethod env owner m).run shared =
      (r.bind fun _ => finished owner m params returns s.toContext, s.toShared) := by
  unfold lowerMethod
  rw [hm.params_eq, hm.returns_eq, hm.body_eq]
  dsimp only
  rw [hm.scopes_eq]
  show (inContext _ (do breadcrumb env; lowerStmt env body) >>= _).run (announce owner m shared) = _
  rw [run_bind, run_inContext h]
  cases r with
  | error e => rfl
  | ok u =>
    show (liftM s.finish >>= _ : Compiling _).run _ = _
    unfold finished
    show _ = (s.finish.map _, _)
    cases s.finish with
    | error e => rfl
    | ok done => rfl

/-- A lowered method has the name of its procedure. -/
theorem name_of_lowerMethod {env : Env} {owner : Source.TypeDef} {m : Source.MethodDef}
    {p : Ir.Procedure} {shared : Shared} (h : ((lowerMethod env owner m).run shared).1 = .ok p) :
    p.name = (m.reference owner.name).procedureName := by
  rcases decided_or_prepared m owner.name with ⟨r, hr, hrun⟩ | ⟨body, params, returns, scopes, hm⟩
  · obtain ⟨_, h'⟩ := hrun env owner rfl shared
    rw [h'] at h
    exact (hr p h).2
  · rcases hx : (do breadcrumb env; lowerStmt env body : Lower Unit).run
      ⟨startContext scopes params returns, announce owner m shared⟩ with ⟨r, s⟩
    rw [run_lowerMethod hm hx] at h
    cases r with
    | error e => cases h
    | ok u => exact name_of_finished h

/-- A lowered method with a body has the parameters and results of the method; its locals and
commands are those that its body declares and emits. -/
theorem runs_lowerMethod {env : Env} {owner : Source.TypeDef} {m : Source.MethodDef} {body : Stmt}
    {p : Ir.Procedure} {shared shared' : Shared} (hbody : m.body = some body)
    (h : Runs (lowerMethod env owner m) shared p shared') :
    paramsOf m = .ok p.params ∧ returnsOf m = .ok p.returns ∧ ∃ scopes s,
      LabelScopes.collect body = .ok scopes ∧
      Runs (do breadcrumb env; lowerStmt env body)
        ⟨startContext scopes p.params p.returns, announce owner m shared⟩ () s ∧
      p.locals = s.locals ∧ p.body = some s.cmds := by
  simp only [lowerMethod, hbody, runs_bind, runs_lift, runs_modify, runs_pure] at h
  obtain ⟨params, t₁, ⟨hparams, rfl⟩, returns, t₂, ⟨hreturns, rfl⟩, _, t₃, rfl, scopes, t₄,
    ⟨hsc, rfl⟩, cx, t₅, hcx, ⟨locals, cmds⟩, t₆, ⟨hfin, rfl⟩, rfl, rfl⟩ := h
  obtain ⟨s, hrun, rfl⟩ := runs_inContext hcx
  refine ⟨hparams, hreturns, scopes, s, hsc, hrun, ?_⟩
  unfold Context.finish at hfin
  split at hfin
  · cases hfin
    exact ⟨rfl, rfl⟩
  · cases hfin

theorem cmds_startContext (scopes : LabelScopes) (params returns : List Ir.VarDecl) :
    (startContext scopes params returns).cmds = [] := by
  obtain ⟨_, _, -, he⟩ := startContext_eq scopes params returns
  rw [he]

end Unwind.Lowering
