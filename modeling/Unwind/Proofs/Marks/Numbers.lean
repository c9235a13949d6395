import Mathlib.Data.List.Perm.Basic
import Mathlib.Logic.Function.Basic
import Unwind.Proofs.Instrumentation
import Unwind.Proofs.Names
import Unwind.Proofs.Talks

/-!
# Numbered marks

Breadcrumbs and state markers carry numbers that are given out by the registry. A `Mark` is one of
these two kinds of marks. `Procedure.noted` lists the marks of a procedure, and `Cmd.renumber`
replaces their numbers and nothing else: the calls stay (`calls_renumber`), and so do the places of
the marks (`noted_renumber`).
-/

namespace Unwind

/-- The kinds of marks that carry a number. -/
inductive Mark where
  /-- A breadcrumb. -/
  | branch
  /-- A state marker. -/
  | state
deriving DecidableEq

namespace Mark

/-- The key of the notes. -/
def key : Mark → String
  | branch => "breadcrumb"
  | state => "captureState"

/-- The note with the number `n`. -/
def note : Mark → UInt64 → Ir.Attr
  | branch, n => .breadcrumb n
  | state, n => ⟨"captureState", [.str ("s" ++ toString n.toNat)]⟩

/-- The counter that the numbers come from. -/
def counter : Mark → Registry → UInt64
  | branch, r => r.breadcrumbs
  | state, r => r.captureStates

/-- The next number. -/
def next : Mark → Registry → UInt64 × Registry
  | branch => Registry.nextBreadcrumb
  | state => Registry.nextCaptureState

/-- The marks are switched on. -/
def isOn : Mark → Options → Bool
  | branch, o => o.instrumentBranches
  | state, o => o.captureState

@[simp]
theorem next_fst (k : Mark) (r : Registry) : (k.next r).1 = k.counter r := by
  cases k <;> rfl

@[simp]
theorem counter_empty (k : Mark) : k.counter {} = 0 := by
  cases k <;> rfl

/-- Giving out a number moves one counter. -/
theorem counter_next (k k' : Mark) (r : Registry) :
    k'.counter (k.next r).2 = k'.counter r + if k' = k then 1 else 0 := by
  cases k <;> cases k' <;> simp [counter, next, Registry.nextBreadcrumb, Registry.nextCaptureState]

theorem has_next (k : Mark) (r : Registry) (q : Request) : (k.next r).2.Has q ↔ r.Has q := by
  cases k <;> cases q <;> rfl

theorem sound_next (k : Mark) {r : Registry} (h : r.Sound) : (k.next r).2.Sound := by
  cases k <;> exact ⟨h.structCopies, h.recorders⟩

/-- Asking for a helper moves no counter. -/
theorem counter_serve (k : Mark) {q : Request} (hq : q.IsLookup) (r : Registry) :
    k.counter (q.serve r).2 = k.counter r := by
  cases k <;> cases q <;> first | rfl | exact hq.elim

@[simp]
theorem key_note (k : Mark) (n : UInt64) : (k.note n).key = k.key := by
  cases k <;> rfl

theorem key_injective : Function.Injective key := by
  intro k k' h
  revert h
  cases k <;> cases k' <;> decide

/-- The note tells its number. -/
theorem values_note_injective (k : Mark) : Function.Injective fun n => (k.note n).values := by
  intro m n h
  cases k with
  | branch =>
    injection h with h
    injection h with h
    injection h with h
    injection h with h
    simpa using congrArg Int64.toUInt64 h
  | state =>
    injection h with h
    injection h with h
    have h := congrArg String.toList ((String.append_right_inj _).mp h)
    exact UInt64.toNat_inj.mp (Lowering.toDigits_inj.mp (by simpa using h))

theorem note_injective : Function.Injective fun x : Mark × UInt64 => x.1.note x.2 := by
  rintro ⟨k, m⟩ ⟨k', n⟩ h
  dsimp only at h
  have hkey : k = k' := key_injective (by rw [← key_note k m, h, key_note])
  subst hkey
  rw [values_note_injective k (congrArg Ir.Attr.values h)]

/-- The values of the `n` notes that begin with the number `b`. -/
def interval (k : Mark) (b : UInt64) (n : Nat) : List (List Ir.AttrValue) :=
  (List.range n).map fun i => (k.note (b + .ofNat i)).values

theorem interval_add (k : Mark) (b : UInt64) (m n : Nat) :
    k.interval b (m + n) = k.interval b m ++ k.interval (b + .ofNat m) n := by
  unfold interval
  rw [List.range_add, List.map_append, List.map_map]
  congr 1
  refine List.map_congr_left fun i _ => ?_
  simp only [Function.comp_apply, UInt64.ofNat_add, UInt64.add_assoc]

end Mark

namespace Ir

/-! ## The notes and the calls of a procedure -/

namespace Cmd

/-- The values of the notes under a key. -/
def noted (key : String) (c : Cmd) : List (List AttrValue) :=
  (c.notes.filter (·.key == key)).map Attr.values

/-- The command as a call: the procedure, the arguments, and the variables for the results. -/
def calls : Cmd → List (String × List Expr × List String)
  | call _ proc args outs => [(proc, args, outs)]
  | _ => []

theorem mem_calls {c : Cmd} {proc : String} {args : List Expr} {outs : List String} :
    (proc, args, outs) ∈ c.calls ↔ ∃ attrs, c = .call attrs proc args outs := by
  cases c <;> simp [calls, eq_comm]

theorem allNested_append (cs ds : List Cmd) :
    allNested (cs ++ ds) = allNested cs ++ allNested ds := by
  induction cs with
  | nil => rfl
  | cons c cs ih => rw [List.cons_append, allNested, allNested, ih, List.append_assoc]

/-- What is read off commands without parts, at any depth, in the order of the commands. -/
def collect {β : Type} (v : Cmd → List β) (cs : List Cmd) : List β := (allNested cs).flatMap v

/-- Nothing is read off a test itself. -/
def SkipsTests {β : Type} (v : Cmd → List β) : Prop := ∀ cond cs ds, v (ifElse cond cs ds) = []

theorem skipsTests_noted (key : String) : SkipsTests (noted key) := fun _ _ _ => rfl

theorem skipsTests_calls : SkipsTests calls := fun _ _ _ => rfl

section

variable {β : Type} {leaf : Cmd → List Cmd} {v w : Cmd → List β}

@[simp]
theorem collect_nil : collect v [] = [] := rfl

@[simp]
theorem collect_append (cs ds : List Cmd) :
    collect v (cs ++ ds) = collect v cs ++ collect v ds := by
  rw [collect, allNested_append, List.flatMap_append, collect, collect]

theorem collect_ifElse (hv : SkipsTests v) (cond : Expr) (cs ds : List Cmd) :
    collect v [ifElse cond cs ds] = collect v cs ++ collect v ds := by
  rw [collect, allNested, allNested, List.append_nil, withNested, List.flatMap_cons, hv,
    List.nil_append, List.flatMap_append, collect, collect]

theorem collect_leaf {c : Cmd} (hc : ∀ cond cs ds, c ≠ ifElse cond cs ds) :
    collect v [c] = v c := by
  cases c with
  | ifElse => exact absurd rfl (hc _ _ _)
  | _ => simp [collect, allNested, withNested]

theorem collect_marker (a : Attr) : collect v [marker a] = v (marker a) :=
  collect_leaf fun _ _ _ => nofun

mutual

theorem collect_editOne (hv : SkipsTests v) (hw : SkipsTests w)
    (h : ∀ c, (∀ cond cs ds, c ≠ ifElse cond cs ds) → collect v (leaf c) = w c) (c : Cmd) :
    collect v (editOne leaf c) = collect w [c] := by
  cases c with
  | ifElse cond cs ds =>
    rw [editOne, collect_ifElse hv, collect_ifElse hw, collect_edit hv hw h cs,
      collect_edit hv hw h ds]
  | _ =>
    rw [editOne, h, collect_leaf]
    all_goals nofun

/-- What is read off edited commands is read off the commands, when that is so for commands without
parts. -/
theorem collect_edit (hv : SkipsTests v) (hw : SkipsTests w)
    (h : ∀ c, (∀ cond cs ds, c ≠ ifElse cond cs ds) → collect v (leaf c) = w c) (cs : List Cmd) :
    collect v (edit leaf cs) = collect w cs := by
  cases cs with
  | nil => rfl
  | cons c cs =>
    rw [edit, collect_append, collect_editOne hv hw h c, collect_edit hv hw h cs,
      ← collect_append, List.singleton_append]

end

end

end Cmd

/-- The values of the notes under a key, in the order of the commands. -/
def Procedure.noted (key : String) (p : Procedure) : List (List AttrValue) :=
  Cmd.collect (Cmd.noted key) (p.body.getD [])

/-- The calls of a procedure, in the order of the commands. -/
def Procedure.calls (p : Procedure) : List (String × List Expr × List String) :=
  Cmd.collect Cmd.calls (p.body.getD [])

theorem Procedure.mem_calls {p : Procedure} {proc : String} {args : List Expr}
    {outs : List String} :
    (proc, args, outs) ∈ p.calls ↔ ∃ attrs, .call attrs proc args outs ∈ p.commands := by
  simp only [calls, Cmd.collect, List.mem_flatMap, Cmd.mem_calls]
  constructor
  · rintro ⟨_, hc, attrs, rfl⟩
    exact ⟨attrs, hc⟩
  · rintro ⟨attrs, hc⟩
    exact ⟨_, hc, attrs, rfl⟩

/-! ## Other numbers -/

/-- A note that carries a number gets another one; other notes stay. -/
noncomputable def Attr.renumber (ν : Mark → UInt64 → UInt64) : Attr → Attr :=
  Function.extend (fun x : Mark × UInt64 => x.1.note x.2) (fun x => x.1.note (ν x.1 x.2)) id

section

variable (ν μ : Mark → UInt64 → UInt64)

@[simp]
theorem Attr.renumber_note (k : Mark) (n : UInt64) : (k.note n).renumber ν = k.note (ν k n) :=
  Mark.note_injective.extend_apply _ _ (k, n)

/-- A note that is no mark stays. -/
theorem Attr.renumber_of_key {a : Attr} (h : ∀ k : Mark, a.key ≠ k.key) : a.renumber ν = a := by
  refine Function.extend_apply' _ _ _ ?_
  rintro ⟨⟨k, n⟩, rfl⟩
  exact h k (k.key_note n)

theorem Attr.renumber_renumber (a : Attr) :
    (a.renumber ν).renumber μ = a.renumber fun k n => μ k (ν k n) := by
  by_cases h : ∃ x : Mark × UInt64, x.1.note x.2 = a
  · obtain ⟨⟨k, n⟩, rfl⟩ := h
    simp only [renumber_note]
  · have hid : ∀ ν, a.renumber ν = a := fun ν => Function.extend_apply' _ _ _ h
    rw [hid, hid, hid]

@[simp]
theorem Attr.key_renumber (a : Attr) : (a.renumber ν).key = a.key := by
  by_cases h : ∃ x : Mark × UInt64, x.1.note x.2 = a
  · obtain ⟨⟨k, n⟩, rfl⟩ := h
    rw [renumber_note, Mark.key_note, Mark.key_note]
  · exact congrArg Attr.key (Function.extend_apply' _ _ _ h)

namespace Cmd

/-- A command without parts gets other numbers. -/
noncomputable def renumber : Cmd → List Cmd
  | assert cond attrs => [assert cond (attrs.map (Attr.renumber ν))]
  | assume cond attrs => [assume cond (attrs.map (Attr.renumber ν))]
  | call attrs proc args outs => [call (attrs.map (Attr.renumber ν)) proc args outs]
  | c => [c]

theorem renumber_plain (c : Cmd) (hc : c.isPlain) : c.renumber ν = [c] := by
  cases c <;> simp_all [Cmd.isPlain, Cmd.renumber]

mutual

theorem editOne_renumber_renumber (c : Cmd) :
    edit (renumber μ) (editOne (renumber ν) c) = editOne (renumber fun k n => μ k (ν k n)) c := by
  cases c with
  | ifElse cond cs ds =>
    rw [editOne, edit_ifElse, editOne, edit_renumber_renumber cs, edit_renumber_renumber ds]
  | assert | assume | call =>
    simp [editOne, renumber, edit, Attr.renumber_renumber]
  | _ => rfl

/-- Two changes of numbers are one. -/
theorem edit_renumber_renumber (cs : List Cmd) :
    edit (renumber μ) (edit (renumber ν) cs) = edit (renumber fun k n => μ k (ν k n)) cs := by
  cases cs with
  | nil => rfl
  | cons c cs =>
    rw [edit, edit_append, edit, editOne_renumber_renumber c, edit_renumber_renumber cs]

end

/-- The calls stay. -/
theorem calls_edit_renumber (cs : List Cmd) :
    collect calls (edit (renumber ν) cs) = collect calls cs := by
  refine collect_edit skipsTests_calls skipsTests_calls (fun c hc => ?_) cs
  cases c with
  | ifElse => exact absurd rfl (hc _ _ _)
  | _ => rfl

mutual

theorem editOne_congr {leaf leaf' : Cmd → List Cmd} (c : Cmd)
    (h : ∀ d ∈ withNested c, leaf d = leaf' d) : editOne leaf c = editOne leaf' c := by
  cases c with
  | ifElse cond cs ds =>
    obtain ⟨hcs, hds⟩ := List.forall_mem_append.mp (List.forall_mem_cons.mp h).2
    rw [editOne, editOne, edit_congr cs hcs, edit_congr ds hds]
  | _ => exact h _ List.mem_cons_self

theorem edit_congr {leaf leaf' : Cmd → List Cmd} (cs : List Cmd)
    (h : ∀ d ∈ allNested cs, leaf d = leaf' d) : edit leaf cs = edit leaf' cs := by
  cases cs with
  | nil => rfl
  | cons c cs =>
    obtain ⟨hc, hcs⟩ := List.forall_mem_append.mp h
    rw [edit, edit, editOne_congr c hc, edit_congr cs hcs]

end

end Cmd

/-- The procedure with other numbers in its marks. -/
noncomputable def Procedure.renumber (p : Procedure) : Procedure := p.edit (Cmd.renumber ν)

/-- The procedure with all numbers struck out. -/
noncomputable def Procedure.unnumbered (p : Procedure) : Procedure := p.renumber fun _ _ => 0

theorem Procedure.renumber_renumber (p : Procedure) :
    (p.renumber ν).renumber μ = p.renumber fun k n => μ k (ν k n) := by
  obtain ⟨name, params, returns, locals, body⟩ := p
  cases body with
  | none => rfl
  | some cs => simp only [renumber, edit, Option.map_some, Cmd.edit_renumber_renumber]

theorem Procedure.collect_renumber {β : Type} (v : Cmd → List β) (p : Procedure) :
    Cmd.collect v ((p.renumber ν).body.getD []) =
      Cmd.collect v (Cmd.edit (Cmd.renumber ν) (p.body.getD [])) := by
  obtain ⟨name, params, returns, locals, body⟩ := p
  cases body <;> rfl

theorem Procedure.calls_renumber (p : Procedure) : (p.renumber ν).calls = p.calls := by
  rw [calls, collect_renumber, Cmd.calls_edit_renumber, calls]

/-- Only the numbers that stand in the marks matter. -/
theorem Procedure.renumber_congr {ν μ : Mark → UInt64 → UInt64} {p : Procedure}
    (h : ∀ (k : Mark) (n : UInt64), (k.note n).values ∈ p.noted k.key → ν k n = μ k n) :
    p.renumber ν = p.renumber μ := by
  have hattrs : ∀ (c : Cmd), c ∈ Cmd.allNested (p.body.getD []) →
      c.notes.map (Attr.renumber ν) = c.notes.map (Attr.renumber μ) := by
    intro c hc
    refine List.map_congr_left fun a ha => ?_
    by_cases hmark : ∃ x : Mark × UInt64, x.1.note x.2 = a
    · obtain ⟨⟨k, n⟩, rfl⟩ := hmark
      rw [Attr.renumber_note, Attr.renumber_note, h k n]
      refine List.mem_flatMap.mpr ⟨c, hc, List.mem_map_of_mem (List.mem_filter.mpr ⟨ha, ?_⟩)⟩
      rw [Mark.key_note, beq_self_eq_true]
    · have hid : ∀ ν, a.renumber ν = a := fun ν => Function.extend_apply' _ _ _ hmark
      rw [hid, hid]
  have hleaf : ∀ c ∈ Cmd.allNested (p.body.getD []), c.renumber ν = c.renumber μ := by
    intro c hc
    have := hattrs c hc
    cases c <;> simp_all [Cmd.renumber, Cmd.notes]
  obtain ⟨name, params, returns, locals, body⟩ := p
  cases body with
  | none => rfl
  | some cs =>
    simp only [renumber, edit, Option.map_some]
    rw [Cmd.edit_congr cs hleaf]

end

end Ir

end Unwind
