import Mathlib.Algebra.Group.Pi.Basic
import Mathlib.Algebra.GroupWithZero.Nat
import Unwind.Proofs.Callees
import Unwind.Proofs.Marks.Numbers

/-!
# What steps of a lowering leave behind

`Tally` relates the registry before some commands were made, the commands, and the registry behind
them: every number that was given out meanwhile stands in one mark, and every call is that of a
helper which the registry has or of a method that may be called. Tallies add up
(`Tally.append`), so that the tally of a lowering is the sum of those of its steps. `Leaves` says
that a step leaves such a tally behind, with so many marks.
-/

namespace Unwind.Lowering

open Ir (Cmd)
open Source (MethodRef TypeRef)

/-! ## Tallies -/

/-- A call fits a registry: it is a call of `$Alloc`, of a helper that the registry has, with as
many arguments and results as the helper has parameters and results, or of a method that may be
called. -/
inductive CallFits (P : MethodRef → Prop) (r : Registry) :
    String × List Ir.Expr × List String → Prop
  | alloc {type object} : CallFits P r (Ir.allocProc, [type], [object])
  | structCopy {type : TypeRef} {original copy} : r.Has (.structCopy type) →
    CallFits P r ((Registry.structCopyDecl type).name, [original], [copy])
  | recorder {ty : Ir.Ty} {value} : r.Has (.recorder ty) →
    CallFits P r ((Registry.recorderDecl ty).name, [value], [])
  | method {m : MethodRef} {args outs} : P m → CallFits P r (m.procedureName, args, outs)

theorem CallFits.mono {P P' : MethodRef → Prop} {r r' : Registry}
    {call : String × List Ir.Expr × List String} (h : CallFits P r call) (hP : ∀ m, P m → P' m)
    (hr : ∀ q, r.Has q → r'.Has q) : CallFits P' r' call := by
  cases h with
  | alloc => exact .alloc
  | structCopy h => exact .structCopy (hr _ h)
  | recorder h => exact .recorder (hr _ h)
  | method h => exact .method (hP _ h)

/-- Between the registries `r` and `r'` the commands were made: with `n k` marks of each kind `k`,
which carry the numbers given out meanwhile, and with calls that fit. -/
structure Tally (P : MethodRef → Prop) (n : Mark → Nat) (r : Registry) (cs : List Cmd)
    (r' : Registry) : Prop where
  counter : ∀ k : Mark, k.counter r' = k.counter r + .ofNat (n k)
  marks : ∀ k : Mark, (Cmd.collect (Cmd.noted k.key) cs).Perm (k.interval (k.counter r) (n k))
  sound : r.Sound → r'.Sound
  has : r.Sound → ∀ q, r.Has q → r'.Has q
  fits : r.Sound → ∀ call ∈ Cmd.collect Cmd.calls cs, CallFits P r' call

namespace Tally

variable {P : MethodRef → Prop} {n m : Mark → Nat} {r r₁ r' : Registry} {cs ds : List Cmd}

theorem nil (r : Registry) : Tally P 0 r [] r where
  counter _ := (UInt64.add_zero _).symm
  marks _ := .nil
  sound := id
  has _ _ := id
  fits _ := nofun

theorem append (h : Tally P n r cs r₁) (h' : Tally P m r₁ ds r') :
    Tally P (n + m) r (cs ++ ds) r' where
  counter k := by
    rw [h'.counter, h.counter, Pi.add_apply, UInt64.ofNat_add, UInt64.add_assoc]
  marks k := by
    rw [Cmd.collect_append, Pi.add_apply, Mark.interval_add, ← h.counter]
    exact (h.marks k).append (h'.marks k)
  sound hr := h'.sound (h.sound hr)
  has hr q hq := h'.has (h.sound hr) q (h.has hr q hq)
  fits hr := by
    rw [Cmd.collect_append, List.forall_mem_append]
    exact ⟨fun call hc => (h.fits hr call hc).mono (fun _ => id) (h'.has (h.sound hr)),
      h'.fits (h.sound hr)⟩

/-- The same marks and calls in another arrangement. -/
theorem rearrange (h : Tally P n r cs r')
    (hd : ∀ {β : Type} (v : Cmd → List β), Cmd.SkipsTests v →
      (Cmd.collect v ds).Perm (Cmd.collect v cs)) : Tally P n r ds r' where
  counter := h.counter
  marks k := (hd _ (Cmd.skipsTests_noted _)).trans (h.marks k)
  sound := h.sound
  has := h.has
  fits hr call hc := h.fits hr call ((hd _ Cmd.skipsTests_calls).mem_iff.mp hc)

/-- One command more that carries no number. -/
theorem snoc (h : Tally P n r cs r') {c : Cmd} (hc : ∀ cond as bs, c ≠ .ifElse cond as bs)
    (hn : ∀ k : Mark, c.noted k.key = []) (hf : r.Sound → ∀ call ∈ c.calls, CallFits P r' call) :
    Tally P n r (cs ++ [c]) r' where
  counter := h.counter
  marks k := by
    rw [Cmd.collect_append, Cmd.collect_leaf hc, hn, List.append_nil]
    exact h.marks k
  sound := h.sound
  has := h.has
  fits hr := by
    rw [Cmd.collect_append, Cmd.collect_leaf hc, List.forall_mem_append]
    exact ⟨h.fits hr, hf hr⟩

/-- A command without notes and calls. -/
theorem plain {c : Cmd} (hc : c.isPlain = true) (hn : c.calls = []) : Tally P 0 r [c] r := by
  refine (nil r).snoc ?_ (fun k => ?_) (fun _ => by rw [hn]; nofun)
  · rintro cond as bs rfl
    cases hc
  · cases c with
    | assert => cases hc
    | assume | call => rw [Cmd.noted, Cmd.notes, List.isEmpty_iff.mp hc]; rfl
    | _ => rfl

/-- Asking for a helper. -/
theorem request {q : Request} (hq : q.IsLookup) (r : Registry) :
    Tally P 0 r [] (q.serve r).2 where
  counter k := by rw [k.counter_serve hq]; exact (UInt64.add_zero _).symm
  marks k := .nil
  sound hr := (hr.serve hq).2.1
  has hr q' hq' := ((hr.serve hq).2.2 q').mpr (.inr hq')
  fits _ := nofun

/-- A mark with the next number. -/
theorem mark (k : Mark) (r : Registry) :
    Tally P (Pi.single k 1) r [.marker (k.note (k.next r).1)] (k.next r).2 where
  counter k' := by
    rw [k.counter_next]
    by_cases hk : k' = k
    · subst hk
      rw [if_pos rfl, Pi.single_eq_same]
      rfl
    · rw [if_neg hk, Pi.single_eq_of_ne hk]
      rfl
  marks k' := by
    rw [Cmd.collect_marker, Cmd.noted, Cmd.marker, Cmd.notes]
    by_cases hk : k' = k
    · subst hk
      rw [Pi.single_eq_same, List.filter_singleton, k'.key_note, k'.next_fst]
      simp [Mark.interval]
    · have hkey : (k.key == k'.key) = false := by
        rw [beq_eq_false_iff_ne]
        exact fun h => hk (Mark.key_injective h).symm
      rw [Pi.single_eq_of_ne hk, List.filter_singleton, k.key_note, hkey]
      exact .nil
  sound := k.sound_next
  has _ q hq := (k.has_next r q).mpr hq
  fits _ := by
    rw [Cmd.collect_marker]
    exact List.forall_mem_nil _

end Tally

/-! ## Steps -/

/-- The commands emitted between two states leave a tally behind. -/
def Tallied (P : MethodRef → Prop) (n : Mark → Nat) (s s' : State) : Prop :=
  ∃ cs, s'.cmds = s.cmds ++ cs ∧ Tally P n s.registry cs s'.registry

/-- The step leaves a tally behind where it succeeds. -/
structure Leaves {α : Type} (P : MethodRef → Prop) (n : Mark → Nat) (x : Lower α) : Prop where
  tallied : ∀ {s s' : State} {a : α}, Runs x s a s' → Tallied P n s s'

section

variable {α β : Type} {P : MethodRef → Prop} {n m : Mark → Nat} {env : Env}

theorem Tallied.trans {s s₁ s' : State} (h : Tallied P n s s₁) (h' : Tallied P m s₁ s') :
    Tallied P (n + m) s s' := by
  obtain ⟨cs, hc, ht⟩ := h
  obtain ⟨ds, hd, ht'⟩ := h'
  exact ⟨cs ++ ds, by rw [hd, hc, List.append_assoc], ht.append ht'⟩

/-- Helpers stay. -/
theorem Tallied.has {s s' : State} (h : Tallied P n s s') (hs : s.registry.Sound) :
    s'.registry.Sound ∧ ∀ q, s.registry.Has q → s'.registry.Has q := by
  obtain ⟨cs, -, ht⟩ := h
  exact ⟨ht.sound hs, ht.has hs⟩

/-- One command more. -/
theorem Tallied.emit {s s₁ s' : State} {c : Cmd} {u : Unit} (h : Tallied P n s s₁)
    (hrun : Runs (Lowering.emit c) s₁ u s') (hc : ∀ cond as bs, c ≠ .ifElse cond as bs)
    (hn : ∀ k : Mark, c.noted k.key = [])
    (hf : s.registry.Sound → ∀ call ∈ c.calls, CallFits P s₁.registry call) : Tallied P n s s' := by
  obtain ⟨cs, hcs, ht⟩ := h
  rw [runs_emit.mp hrun]
  exact ⟨cs ++ [c], by rw [hcs, List.append_assoc], ht.snoc hc hn hf⟩

/-- Between `s` and `s'` commands were emitted, and the commands `cs` were made and are still held
back; `r` is the registry before all of them. -/
def Owes (P : MethodRef → Prop) (n : Mark → Nat) (r : Registry) (cs : List Cmd) (s s' : State) :
    Prop :=
  ∃ ds, s'.cmds = s.cmds ++ ds ∧ Tally P n r (ds ++ cs) s'.registry

/-- Neither commands nor the registry change. -/
theorem Tallied.of_eq {s s' : State} (hc : s'.cmds = s.cmds) (hr : s'.registry = s.registry) :
    Tallied P 0 s s' :=
  ⟨[], by rw [hc, List.append_nil], hr ▸ .nil _⟩

namespace Owes

variable {r : Registry} {cs ds : List Cmd} {s s₁ s' : State}

theorem of_tallied (h : Tallied P n s s') : Owes P n s.registry [] s s' := by
  obtain ⟨ds, hd, ht⟩ := h
  exact ⟨ds, hd, (List.append_nil ds).symm ▸ ht⟩

theorem tallied (h : Owes P n s.registry [] s s') : Tallied P n s s' := by
  obtain ⟨ds, hd, ht⟩ := h
  exact ⟨ds, hd, List.append_nil ds ▸ ht⟩

/-- A step while commands are held back. -/
theorem step (h : Owes P n r cs s s₁) (h' : Tallied P m s₁ s') : Owes P (n + m) r cs s s' := by
  obtain ⟨ds, hd, ht⟩ := h
  obtain ⟨es, he, ht'⟩ := h'
  refine ⟨ds ++ es, by rw [he, hd, List.append_assoc], (ht.append ht').rearrange fun v _ => ?_⟩
  simp only [Cmd.collect_append, List.append_assoc]
  exact (List.perm_append_comm).append_left _

/-- More commands are held back. -/
theorem hold (h : Owes P n r cs s s₁)
    (h' : s'.cmds = s₁.cmds ∧ Tally P m s₁.registry ds s'.registry) :
    Owes P (n + m) r (cs ++ ds) s s' := by
  obtain ⟨es, he, ht⟩ := h
  exact ⟨es, h'.1.trans he, List.append_assoc es cs ds ▸ ht.append h'.2⟩

/-- The same marks and calls in another arrangement. -/
theorem rearrange (h : Owes P n r cs s s')
    (hd : ∀ {β : Type} (v : Cmd → List β), Cmd.SkipsTests v →
      (Cmd.collect v ds).Perm (Cmd.collect v cs)) : Owes P n r ds s s' := by
  obtain ⟨es, he, ht⟩ := h
  refine ⟨es, he, ht.rearrange fun v hv => ?_⟩
  rw [Cmd.collect_append, Cmd.collect_append]
  exact (hd v hv).append_left _

/-- One command more that carries no number and calls nothing. -/
theorem plain (h : Owes P n r cs s s') {c : Cmd} (hc : c.isPlain = true) (hn : c.calls = []) :
    Owes P n r (cs ++ [c]) s s' := by
  have h' := h.hold ⟨rfl, .plain hc hn⟩
  rwa [add_zero] at h'

/-- All that was held back is emitted. -/
theorem emitAll (h : Owes P n r cs s s₁) {u : Unit} (hrun : Runs (Lowering.emitAll cs) s₁ u s') :
    Owes P n r [] s s' := by
  obtain ⟨ds, hd, ht⟩ := h
  rw [runs_emitAll.mp hrun]
  exact ⟨ds ++ cs, by rw [hd, List.append_assoc], (List.append_nil (ds ++ cs)).symm ▸ ht⟩

/-- All that was held back is emitted inside a test. -/
theorem emitTest (h : Owes P n r (cs ++ ds) s s₁) {cond : Ir.Expr} {u : Unit}
    (hrun : Runs (Lowering.emit (.ifElse cond cs ds)) s₁ u s') : Owes P n r [] s s' := by
  refine (h.rearrange fun v hv => .of_eq ?_).emitAll hrun
  rw [Cmd.collect_ifElse hv, Cmd.collect_append]

end Owes

namespace Leaves

theorem bind {x : Lower α} {f : α → Lower β} (hx : Leaves P n x) (hf : ∀ a, Leaves P m (f a)) :
    Leaves P (n + m) (x >>= f) := by
  refine ⟨fun h => ?_⟩
  obtain ⟨a, s₁, h₁, h₂⟩ := runs_bind.mp h
  exact (hx.tallied h₁).trans ((hf a).tallied h₂)

/-- A step without marks in front. -/
theorem andThen {x : Lower α} {f : α → Lower β} (hx : Leaves P 0 x)
    (hf : ∀ a, Leaves P m (f a)) : Leaves P m (x >>= f) := by
  have h := hx.bind hf
  rwa [zero_add] at h

/-- A step without marks behind. -/
theorem followed {x : Lower α} {f : α → Lower β} (hx : Leaves P n x)
    (hf : ∀ a, Leaves P 0 (f a)) : Leaves P n (x >>= f) := by
  have h := hx.bind hf
  rwa [add_zero] at h

theorem pure {a : α} : Leaves P 0 (Pure.pure a : Lower α) := by
  refine ⟨fun h => ?_⟩
  rw [(runs_pure.mp h).2]
  exact .of_eq rfl rfl

theorem throw {e : Fault} : Leaves P n (throw e : Lower α) := ⟨fun h => absurd h not_runs_throw⟩

theorem lift {x : Except Fault α} : Leaves P 0 (liftM x : Lower α) := by
  refine ⟨fun h => ?_⟩
  rw [(runs_lift.mp h).2]
  exact .of_eq rfl rfl

theorem context : Leaves P 0 Lowering.context := by
  refine ⟨fun h => ?_⟩
  rw [(runs_context.mp h).2]
  exact .of_eq rfl rfl

theorem ite {c : Prop} [Decidable c] {x y : Lower α} (hx : Leaves P n x) (hy : Leaves P n y) :
    Leaves P n (if c then x else y) := by
  split
  · exact hx
  · exact hy

theorem emitAll {cs : List Cmd} (h : ∀ r, Tally P n r cs r) : Leaves P n (Lowering.emitAll cs) := by
  refine ⟨fun hrun => ?_⟩
  rw [runs_emitAll.mp hrun]
  exact ⟨cs, rfl, h _⟩

theorem emit {c : Cmd} (h : ∀ r, Tally P n r [c] r) : Leaves P n (Lowering.emit c) := emitAll h

theorem emitPlain {c : Cmd} (hc : c.isPlain = true) (hn : c.calls = []) :
    Leaves P 0 (Lowering.emit c) := emit fun _ => .plain hc hn

/-- The commands of a step that are held back. -/
theorem held {x : Lower Unit} (hx : Leaves P n x) {s s' : State} {cs : List Cmd}
    (h : Runs (Lowering.commandsOf x) s cs s') :
    s'.cmds = s.cmds ∧ Tally P n s.registry cs s'.registry := by
  obtain ⟨s₁, h₁, rfl, rfl⟩ := runs_commandsOf.mp h
  obtain ⟨cs, hc, ht⟩ := hx.tallied h₁
  rw [List.nil_append] at hc
  exact ⟨rfl, hc ▸ ht⟩

/-- The commands of a step that are held back, with its result. -/
theorem heldWith {x : Lower α} (hx : Leaves P n x) {s s' : State} {a : α × List Cmd}
    (h : Runs (buffered x) s a s') :
    s'.cmds = s.cmds ∧ Tally P n s.registry a.2 s'.registry := by
  obtain ⟨s₁, h₁, h₂, rfl⟩ := runs_buffered.mp h
  obtain ⟨cs, hc, ht⟩ := hx.tallied h₁
  rw [List.nil_append] at hc
  exact ⟨rfl, h₂ ▸ hc ▸ ht⟩

/-! ### Operations of the context -/

theorem withContext {f : Context → α × Context} (h : ∀ cx, (f cx).2.cmds = cx.cmds) :
    Leaves P 0 (Lowering.withContext f) := by
  refine ⟨fun hrun => ?_⟩
  rw [Lowering.withContext, runs_modifyGet] at hrun
  cases hrun
  exact .of_eq (h _) rfl

theorem changeContext {f : Context → Context} (h : ∀ cx, (f cx).cmds = cx.cmds) :
    Leaves P 0 (Lowering.changeContext f) := by
  refine ⟨fun hrun => ?_⟩
  rw [Lowering.changeContext, runs_modify] at hrun
  subst hrun
  exact .of_eq (h _) rfl

theorem freshLocal {stem : String} {ty : Ir.Ty} : Leaves P 0 (Lowering.freshLocal stem ty) :=
  withContext fun _ => rfl

theorem declareLocal {name : String} {ty : Ir.Ty} :
    Leaves P 0 (Lowering.declareLocal name ty) := by
  refine changeContext fun cx => ?_
  unfold Context.declareLocal
  split <;> rfl

theorem useLabelVar : Leaves P 0 Lowering.useLabelVar :=
  andThen (changeContext (f := Context.declareLabelVar) fun _ => rfl) fun _ => pure

theorem enterRegion {node : UInt32} {types : List (Option TypeRef)} :
    Leaves P 0 (Lowering.enterRegion node types) := withContext fun _ => rfl

theorem allot {id : Nat} {slot : Region → Option String} {fill : Region → String → Region}
    {name : String} : Leaves P 0 (Lowering.withContext (·.allot id slot fill name)) :=
  withContext fun cx => congrArg (·.2.cmds) (Correspondence.oblivious_allot cx cx.cmds)

theorem catchLabel {id : Nat} : Leaves P 0 (Lowering.catchLabel id) := allot

theorem finallyLabel {id : Nat} : Leaves P 0 (Lowering.finallyLabel id) := allot

theorem continuationLabel {id : Nat} : Leaves P 0 (Lowering.continuationLabel id) := allot

theorem exceptionLocal {id : Nat} : Leaves P 0 (Lowering.exceptionLocal id) := by
  refine withContext fun cx => ?_
  unfold Context.exceptionLocal
  split
  · split <;> rfl
  · rfl

theorem addEscapingEdge {id : Nat} : Leaves P 0 (Lowering.addEscapingEdge id) := by
  refine withContext fun cx => ?_
  unfold Context.addEscapingEdge
  dsimp only
  split <;> rfl

theorem report {level : Log.Level} {message : String} :
    Leaves P 0 (Lowering.report level message) := by
  refine ⟨fun h => ?_⟩
  rw [Lowering.report, runs_modify] at h
  subst h
  exact .of_eq rfl rfl

theorem pushPhase {id : Nat} {phase : Phase} : Leaves P 0 (Lowering.pushPhase id phase) :=
  .andThen report fun _ => changeContext fun _ => rfl

theorem popPhase {id : Nat} {phase : Phase} : Leaves P 0 (Lowering.popPhase id phase) := by
  refine context.andThen fun _ => andThen ?_ fun _ => ite throw pure
  exact changeContext fun _ => rfl

theorem pushOperand {v : Ir.Expr} : Leaves P 0 (Lowering.pushOperand v) :=
  changeContext fun _ => rfl

theorem popOperand : Leaves P 0 Lowering.popOperand := by
  refine context.andThen fun cx => ?_
  split
  · refine andThen ?_ fun _ => pure
    exact changeContext fun _ => rfl
  · exact throw

/-! ### Marks and helpers -/

/-- A helper that was asked for is there, under the name that is known beforehand. -/
theorem asked {q : Request} (hq : q.IsLookup) {s s' : State} {x : q.Answer}
    (h : Runs (withRegistry q.serve) s x s') :
    Tallied P 0 s s' ∧ (s.registry.Sound → x = q.answer ∧ s'.registry.Has q) := by
  rw [withRegistry, runs_modifyGet] at h
  cases h
  refine ⟨⟨[], (List.append_nil _).symm, .request hq _⟩, fun hr => ?_⟩
  obtain ⟨hans, -, hhas⟩ := hr.serve hq
  refine ⟨hans, (hhas q).mpr (.inl ?_)⟩
  cases q with
  | structCopy | recorder => rfl
  | breadcrumb | captureState => exact hq.elim

theorem record {label : String} {ty : Ir.Ty} {v : Ir.Expr} :
    Leaves P 0 (Lowering.record env label ty v) := by
  refine ite ⟨fun h => ?_⟩ pure
  obtain ⟨proc, s₁, h₁, h₂⟩ := runs_bind.mp h
  obtain ⟨ht, hhas⟩ := asked (q := .recorder ty) trivial h₁
  refine ht.emit h₂ nofun (fun k => by cases k <;> rfl) fun hr call hcall => ?_
  obtain ⟨rfl, hr'⟩ := hhas hr
  rw [List.mem_singleton.mp hcall]
  exact .recorder hr'

/-- A mark with the next number. -/
theorem mark (k : Mark) :
    Leaves P (Pi.single k 1) (withRegistry k.next >>= fun n =>
      Lowering.emit (.marker (k.note n))) := by
  refine ⟨fun h => ?_⟩
  obtain ⟨n, s₁, h₁, h₂⟩ := runs_bind.mp h
  rw [withRegistry, runs_modifyGet] at h₁
  cases h₁
  rw [runs_emit.mp h₂]
  exact ⟨_, rfl, .mark k _⟩

end Leaves

end

end Unwind.Lowering
