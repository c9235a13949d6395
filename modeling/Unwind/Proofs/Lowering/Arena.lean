import Mathlib
import Unwind.Proofs.Lowering.Steps

/-!
# Regions, and the stack of those being lowered

A region is given labels, a variable and jumps as the lowering goes on, and is never given up or
changed otherwise (`Region.Le`). `Extends` says this of all regions of a state, and that commands
are only appended.

Regions are known by their numbers. `InRange` says that a step, run from a state, finds every
region that it asks for: it is made of the operations on regions, each applied to a number below
the number of regions at its time, and of steps that ask for none. An operation on a region that is
not there is out of range (`inRange_catchLabel_iff` and its like).

`Balanced` is what holds of every step of a lowering. It takes some entries off the stack and puts
others there; it extends the state otherwise; it does not fail for a stack that is out of balance;
and it stays in range as long as the regions on the stack, and those it is given, exist.
-/

namespace Unwind

/-! ## Faults -/

/-- Not a fault of the stack of regions. -/
def Fault.Ordinary (f : Fault) : Prop :=
  (∀ expected found, f ≠ .unbalanced expected found) ∧ ∀ count, f ≠ .openRegions count

namespace Fault

theorem ordinary_unsupported (kind : String) (span : Span) (message : String) :
    (unsupported kind span message).Ordinary := ⟨fun _ _ => nofun, fun _ => nofun⟩

/-- A message of three parts starts as its first part does. -/
theorem head?_message (lead : String) {middle tail : String} {c : Char}
    (h : lead.toList.head? = some c) :
    (lead ++ middle ++ tail).toList.head? = some c := by
  rw [String.toList_append, String.toList_append, List.append_assoc, List.head?_append, h,
    Option.some_or]

theorem head?_unbalanced (expected found : String) :
    s!"region stack out of balance: expected {expected}, found {found}".toList.head? = some 'r' := by
  rw [String.append_assoc]
  exact head?_message "region stack out of balance: expected " (by decide)

/-- The first character of the message is a digit of the count. -/
theorem isDigit_of_head?_openRegions {count : Nat} {c : Char}
    (h : s!"{count} regions still open at the end of the body".toList.head? = some c) :
    c.isDigit = true := by
  have hdigits : (toString count).toList = Nat.toDigits 10 count := Nat.toList_repr
  cases hcount : Nat.toDigits 10 count with
  | nil => exact absurd hcount Nat.toDigits_ne_nil
  | cons d ds =>
    rw [String.toList_append, hdigits, hcount] at h
    cases h
    exact Nat.isDigit_of_mem_toDigits (by decide) (by decide) (hcount ▸ List.mem_cons_self)

/-- The two messages start with an `r` and with a digit. -/
theorem ordinary_of_head? {message : String} {c : Char} (h : message.toList.head? = some c)
    (hr : c ≠ 'r') (hd : c.isDigit = false) : (inconsistent message).Ordinary := by
  constructor
  · intro expected found heq
    cases heq
    exact hr (Option.some.inj (h.symm.trans (head?_unbalanced expected found)))
  · intro count heq
    cases heq
    cases hd.symm.trans (isDigit_of_head?_openRegions h)

/-- A message of three parts whose first part starts with neither. -/
theorem ordinary_message (lead : String) {middle tail : String} {c : Char}
    (h : lead.toList.head? = some c) (hr : c ≠ 'r') (hd : c.isDigit = false) :
    (inconsistent (lead ++ middle ++ tail)).Ordinary :=
  ordinary_of_head? (head?_message lead h) hr hd

theorem ordinary_emptyOperands : emptyOperands.Ordinary :=
  ordinary_of_head? (c := 'p') (by decide) (by decide) (by decide)

theorem ordinary_unknownLabel (label : String) : (unknownLabel label).Ordinary :=
  ordinary_message "goto targets unknown label `" (c := 'g') (by decide)
    (by decide) (by decide)

theorem ordinary_jumpIntoTry (label : String) : (jumpIntoTry label).Ordinary :=
  ordinary_message "goto `" (c := 'g') (by decide) (by decide) (by decide)

theorem ordinary_duplicateLabel (label : String) : (duplicateLabel label).Ordinary :=
  ordinary_message "label `" (c := 'l') (by decide) (by decide) (by decide)

theorem ordinary_duplicateTry (id : UInt32) : (duplicateTry id).Ordinary :=
  ordinary_message "try statement id " (c := 't') (by decide) (by decide)
    (by decide)

end Fault

end Unwind

namespace Unwind.Lowering

open Source (TypeRef)
open Ir (Cmd)

/-! ## Regions -/

/-- What becomes of a region: it is still that of its statement, keeps the names that it has been
given, and more jumps leave it behind those that do. -/
structure Region.Le (r r' : Region) : Prop where
  node : r'.node = r.node
  catchTypes : r'.catchTypes = r.catchTypes
  catchLabel : ∀ l, r.catchLabel = some l → r'.catchLabel = some l
  finallyLabel : ∀ l, r.finallyLabel = some l → r'.finallyLabel = some l
  continuationLabel : ∀ l, r.continuationLabel = some l → r'.continuationLabel = some l
  exceptionLocal : ∀ x, r.exceptionLocal = some x → r'.exceptionLocal = some x
  escapes : r.escapes <+: r'.escapes

theorem Region.Le.refl (r : Region) : r.Le r :=
  ⟨rfl, rfl, fun _ h => h, fun _ h => h, fun _ h => h, fun _ h => h, List.prefix_rfl⟩

theorem Region.Le.trans {r r₁ r' : Region} (h : r.Le r₁) (h' : r₁.Le r') : r.Le r' where
  node := h'.node.trans h.node
  catchTypes := h'.catchTypes.trans h.catchTypes
  catchLabel l hl := h'.catchLabel l (h.catchLabel l hl)
  finallyLabel l hl := h'.finallyLabel l (h.finallyLabel l hl)
  continuationLabel l hl := h'.continuationLabel l (h.continuationLabel l hl)
  exceptionLocal x hx := h'.exceptionLocal x (h.exceptionLocal x hx)
  escapes := h.escapes.trans h'.escapes

/-- Regions are added behind those that there are, and these are only given more. -/
def Arena (rs rs' : List Region) : Prop :=
  ∀ (id : Nat) (r : Region), rs[id]? = some r → ∃ r', rs'[id]? = some r' ∧ r.Le r'

theorem Arena.refl (rs : List Region) : Arena rs rs := fun _ r hr => ⟨r, hr, .refl r⟩

theorem Arena.trans {rs rs₁ rs' : List Region} (h : Arena rs rs₁) (h' : Arena rs₁ rs') :
    Arena rs rs' := by
  intro id r hr
  obtain ⟨r₁, hr₁, hle⟩ := h id r hr
  obtain ⟨r', hr', hle'⟩ := h' id r₁ hr₁
  exact ⟨r', hr', hle.trans hle'⟩

theorem Arena.length_le {rs rs' : List Region} (h : Arena rs rs') : rs.length ≤ rs'.length := by
  by_contra hlt
  obtain ⟨r', hr', -⟩ := h rs'.length _ (List.getElem?_eq_getElem (Nat.not_le.mp hlt))
  rw [List.getElem?_eq_none (Nat.le_refl _)] at hr'
  cases hr'

theorem Arena.append (rs more : List Region) : Arena rs (rs ++ more) := by
  intro id r hr
  refine ⟨r, ?_, .refl r⟩
  rwa [List.getElem?_append_left (List.getElem?_eq_some_iff.mp hr).1]

theorem Arena.set {rs : List Region} {id : Nat} {r r' : Region} (hr : rs[id]? = some r)
    (h : r.Le r') : Arena rs (rs.set id r') := by
  intro id' q hq
  by_cases he : id = id'
  · subst he
    cases hr.symm.trans hq
    exact ⟨r', by rw [List.getElem?_set_self (List.getElem?_eq_some_iff.mp hr).1], h⟩
  · exact ⟨q, by rw [List.getElem?_set_ne he, hq], .refl q⟩

/-- Between the two states, regions have been added and given more, and commands appended. -/
structure Extends (s s' : State) : Prop where
  regions : Arena s.regions s'.regions
  cmds : s.cmds <+: s'.cmds

theorem Extends.refl (s : State) : Extends s s := ⟨.refl _, List.prefix_rfl⟩

theorem Extends.trans {s s₁ s' : State} (h : Extends s s₁) (h' : Extends s₁ s') : Extends s s' :=
  ⟨h.regions.trans h'.regions, h.cmds.trans h'.cmds⟩

/-! ## Steps in range -/

/-- The state with more regions. -/
def State.plus (s : State) (more : List Region) : State := { s with regions := s.regions ++ more }

/-- The step does the same whatever the regions are, and leaves them as they are. -/
def Apart {α : Type} (act : Lower α) : Prop :=
  ∀ (s : State) (regions : List Region),
    act.run { s with regions } = ((act.run s).1, { (act.run s).2 with regions })

/-- The step, run from the state, finds every region that it asks for. -/
inductive InRange : {α : Type} → Lower α → State → Prop
  /-- It asks for none. -/
  | apart {α : Type} {act : Lower α} {s : State} : Apart act → InRange act s
  | bind {α β : Type} {x : Lower α} {f : α → Lower β} {s : State} : InRange x s →
      (∀ a s', Runs x s a s' → InRange (f a) s') → InRange (x >>= f) s
  | buffered {α : Type} {act : Lower α} {s : State} : InRange act { s with cmds := [] } →
      InRange (buffered act) s
  /-- What it does with the context is the same when there are more regions. -/
  | look {α : Type} {f : Context → Lower α} {s : State} :
      (∀ more, f { s.toContext with regions := s.regions ++ more } = f s.toContext) →
      InRange (f s.toContext) s → InRange (context >>= f) s
  | enterRegion {node : UInt32} {catchTypes : List (Option TypeRef)} {s : State} :
      InRange (enterRegion node catchTypes) s
  | catchLabel {id : Nat} {s : State} : id < s.regions.length → InRange (catchLabel id) s
  | finallyLabel {id : Nat} {s : State} : id < s.regions.length → InRange (finallyLabel id) s
  | continuationLabel {id : Nat} {s : State} : id < s.regions.length →
      InRange (continuationLabel id) s
  | exceptionLocal {id : Nat} {s : State} : id < s.regions.length → InRange (exceptionLocal id) s
  | addEscapingEdge {id : Nat} {s : State} : id < s.regions.length →
      InRange (addEscapingEdge id) s

section

variable {α : Type} {act : Lower α} {s s' : State} {r : Except Fault α}

theorem Apart.regions_eq (h : Apart act) (hrun : act.run s = (r, s')) :
    s'.regions = s.regions := by
  have hs := h s s.regions
  rw [hrun] at hs
  exact congrArg (·.2.regions) hs

/-- An operation on a region that is there adds none, and does not notice whether there are more. -/
def ActsOn (id : Nat) (g : Context → α × Context) : Prop :=
  ∀ cx : Context, id < cx.regions.length → (g cx).2.regions.length = cx.regions.length ∧
    ∀ more, g { cx with regions := cx.regions ++ more } =
      ((g cx).1, { (g cx).2 with regions := (g cx).2.regions ++ more })

theorem getElem?_append_of_lt {rs : List Region} {id : Nat} (hid : id < rs.length)
    (more : List Region) : (rs ++ more)[id]? = some rs[id] := by
  rw [List.getElem?_append_left hid, List.getElem?_eq_getElem hid]

theorem actsOn_allot (id : Nat) (slot : Region → Option String)
    (fill : Region → String → Region) (name : String) :
    ActsOn id (·.allot id slot fill name) := by
  intro cx hid
  have hr := List.getElem?_eq_getElem hid
  cases hs : slot cx.regions[id] with
  | some taken => simp [Context.allot, getElem?_append_of_lt hid, hr, hs]
  | none =>
    simp [Context.allot, getElem?_append_of_lt hid, hr, hs, Context.setRegion,
      List.set_append_left _ _ hid]

theorem actsOn_exceptionLocal (id : Nat) : ActsOn id (·.exceptionLocal id) := by
  intro cx hid
  have hr := List.getElem?_eq_getElem hid
  cases hs : cx.regions[id].exceptionLocal with
  | some taken => simp [Context.exceptionLocal, getElem?_append_of_lt hid, hr, hs]
  | none =>
    simp [Context.exceptionLocal, getElem?_append_of_lt hid, hr, hs, Context.setRegion,
      List.set_append_left _ _ hid]

theorem actsOn_addEscapingEdge (id : Nat) : ActsOn id (·.addEscapingEdge id) := by
  intro cx hid
  have hr := List.getElem?_eq_getElem hid
  simp [Context.addEscapingEdge, Context.escapingEdges, getElem?_append_of_lt hid, hr,
    Context.setRegion, List.set_append_left _ _ hid]

theorem ActsOn.run_append {id : Nat} {g : Context → α × Context} (hg : ActsOn id g)
    (hid : id < s.regions.length) (hrun : (withContext g).run s = (r, s')) :
    s.regions.length ≤ s'.regions.length ∧ (s'.regions.length = s.regions.length → ∀ more,
      (withContext g).run (s.plus more) = (r, s'.plus more)) := by
  obtain ⟨hlen, hmore⟩ := hg s.toContext hid
  cases hrun
  refine ⟨Nat.le_of_eq hlen.symm, fun _ more => ?_⟩
  have hrun : ∀ t : State, (withContext g).run t = (.ok (g t.toContext).1,
      { t with toContext := (g t.toContext).2 }) := fun _ => rfl
  have hplus : g (s.plus more).toContext = _ := hmore more
  rw [hrun, hplus]
  rfl

/-- A step in range that adds no region does not notice whether there are more of them: it does the
same, and leaves these alone. -/
theorem InRange.run_append (h : InRange act s) (hrun : act.run s = (r, s')) :
    s.regions.length ≤ s'.regions.length ∧ (s'.regions.length = s.regions.length → ∀ more,
      act.run (s.plus more) = (r, s'.plus more)) := by
  induction h generalizing s' with
  | @apart α act s h =>
    have hkeep := h.regions_eq hrun
    refine ⟨Nat.le_of_eq (congrArg _ hkeep.symm), fun _ more => ?_⟩
    rw [State.plus, h s, hrun, State.plus, hkeep]
  | @bind α β x f s hx hf ihx ihf =>
    rw [run_bind] at hrun
    cases hx₁ : x.run s with
    | mk rx s₁ =>
      obtain ⟨hle, hmore⟩ := ihx hx₁
      rw [hx₁] at hrun
      cases rx with
      | error e =>
        cases hrun
        refine ⟨hle, fun hlen more => ?_⟩
        rw [run_bind, hmore hlen more]
      | ok a =>
        obtain ⟨hle', hmore'⟩ := ihf a s₁ hx₁ hrun
        refine ⟨Nat.le_trans hle hle', fun hlen more => ?_⟩
        -- no region is ever given up, so that none is added in between either
        have hlen₁ : s₁.regions.length = s.regions.length :=
          Nat.le_antisymm (hlen ▸ hle') hle
        rw [run_bind, hmore hlen₁ more]
        exact hmore' (hlen.trans hlen₁.symm) more
  | @buffered α act s h ih =>
    cases hact : act.run { s with cmds := [] } with
    | mk ra s₁ =>
      obtain ⟨hle, hmore⟩ := ih hact
      rw [run_buffered hact] at hrun
      cases hrun
      refine ⟨hle, fun hlen more => ?_⟩
      have hmore : act.run { s.plus more with cmds := [] } = (ra, s₁.plus more) := hmore hlen more
      exact run_buffered hmore
  | @look α f s hmore h ih =>
    obtain ⟨hle, hsame⟩ := ih hrun
    refine ⟨hle, fun hlen more => ?_⟩
    show (f { s.toContext with regions := s.regions ++ more }).run (s.plus more) = _
    rw [hmore more]
    exact hsame hlen more
  | @enterRegion node types s =>
    cases hrun
    have hlen : (s.regions ++ [({ node, catchTypes := types } : Region)]).length =
        s.regions.length + 1 := List.length_append
    exact ⟨hlen ▸ Nat.le_succ _, fun h => absurd (hlen.symm.trans h) (Nat.succ_ne_self _)⟩
  | catchLabel h => exact (actsOn_allot _ _ _ _).run_append h hrun
  | finallyLabel h => exact (actsOn_allot _ _ _ _).run_append h hrun
  | continuationLabel h => exact (actsOn_allot _ _ _ _).run_append h hrun
  | exceptionLocal h => exact (actsOn_exceptionLocal _).run_append h hrun
  | addEscapingEdge h => exact (actsOn_addEscapingEdge _).run_append h hrun

/-- A region that nothing has been given to. -/
def blank : Region := { node := 0, catchTypes := [] }

/-- An operation that would change a blank region asks for it: the region must be there. -/
theorem InRange.lt_of_changes {id : Nat} {g : Context → α × Context}
    (h : InRange (withContext g) s)
    (hout : s.regions[id]? = none → (g s.toContext).2 = s.toContext)
    (hchanges : ∀ cx : Context, cx.regions[id]? = some blank →
      ∃ r, r ≠ blank ∧ (g cx).2.regions = cx.regions.set id r) : id < s.regions.length := by
  by_contra hge
  have hlen : (g s.toContext).2.regions.length = s.regions.length := by
    rw [hout (List.getElem?_eq_none (Nat.not_lt.mp hge))]
  -- with blank regions up to this number the step would not do the same
  let more := List.replicate (id + 1 - s.regions.length) blank
  have hblank : ∀ rs : List Region, rs.length = s.regions.length →
      (rs ++ more)[id]? = some blank := by
    intro rs hrs
    rw [List.getElem?_append_right (by omega), List.getElem?_replicate_of_lt (by omega)]
  have hrun : ∀ t : State, (withContext g).run t = (.ok (g t.toContext).1,
      { t with toContext := (g t.toContext).2 }) := fun _ => rfl
  have hsame := (h.run_append (hrun s)).2 hlen more
  rw [hrun] at hsame
  have hregions : (g (s.plus more).toContext).2.regions =
      (g s.toContext).2.regions ++ more := congrArg (·.2.regions) hsame
  obtain ⟨r, hr, hset⟩ := hchanges (s.plus more).toContext (hblank s.regions rfl)
  have hid : id < (s.regions ++ more).length := (List.getElem?_eq_some_iff.mp (hblank _ rfl)).1
  have hget := hblank _ hlen
  rw [← hregions, hset] at hget
  exact hr (Option.some.inj ((List.getElem?_set_self hid).symm.trans hget))

/-- A name that a blank region lacks is only given to a region that is there. -/
theorem InRange.lt_of_allot {id : Nat} {slot : Region → Option String}
    {fill : Region → String → Region} {name : String}
    (h : InRange (withContext (·.allot id slot fill name)) s) (hslot : slot blank = none)
    (hfill : fill blank name ≠ blank) : id < s.regions.length := by
  refine h.lt_of_changes (fun hout => ?_) fun cx hcx => ⟨_, hfill, ?_⟩
  · rw [Context.allot, hout]
  · rw [Context.allot, hcx]
    dsimp only
    rw [hslot]
    rfl

theorem inRange_catchLabel_iff {id : Nat} : InRange (catchLabel id) s ↔ id < s.regions.length :=
  ⟨fun h => h.lt_of_allot rfl nofun, .catchLabel⟩

theorem inRange_finallyLabel_iff {id : Nat} :
    InRange (finallyLabel id) s ↔ id < s.regions.length :=
  ⟨fun h => h.lt_of_allot rfl nofun, .finallyLabel⟩

theorem inRange_continuationLabel_iff {id : Nat} :
    InRange (continuationLabel id) s ↔ id < s.regions.length :=
  ⟨fun h => h.lt_of_allot rfl nofun, .continuationLabel⟩

theorem inRange_exceptionLocal_iff {id : Nat} :
    InRange (exceptionLocal id) s ↔ id < s.regions.length := by
  refine ⟨fun h => h.lt_of_changes (fun hout => ?_) fun cx hcx => ?_, .exceptionLocal⟩
  · rw [Context.exceptionLocal, hout]
  · rw [Context.exceptionLocal, hcx]
    exact ⟨{ blank with exceptionLocal := some ("$localExc" ++ toString id) }, nofun, rfl⟩

theorem inRange_addEscapingEdge_iff {id : Nat} :
    InRange (addEscapingEdge id) s ↔ id < s.regions.length := by
  refine ⟨fun h => h.lt_of_changes (fun hout => ?_) fun cx hcx => ?_, .addEscapingEdge⟩
  · rw [Context.addEscapingEdge, hout]
  · rw [Context.addEscapingEdge, hcx]
    exact ⟨{ blank with escapes := [_] }, nofun, rfl⟩

end

/-- The regions on the stack exist. -/
def State.Grounded (s : State) : Prop := ∀ e ∈ s.stack, e.region < s.regions.length

/-- A number above those of the regions in these entries. -/
def reach (es : List Entry) : Nat := es.foldr (fun e n => max (e.region + 1) n) 0

theorem reach_le_iff {es : List Entry} {n : Nat} : reach es ≤ n ↔ ∀ e ∈ es, e.region < n := by
  induction es with
  | nil => simp [reach]
  | cons e es ih =>
    rw [List.forall_mem_cons, ← ih]
    show max (e.region + 1) (reach es) ≤ n ↔ _
    rw [Nat.max_le, Nat.succ_le_iff]

theorem lt_reach {es : List Entry} {e : Entry} (h : e ∈ es) : e.region < reach es :=
  reach_le_iff.1 (Nat.le_refl _) e h

/-! ## Balanced steps -/

/-- The step takes `π` off the stack and puts `σ` there. It stays in range when the regions on the
stack, and all those below `n`, exist. -/
structure Balanced {α : Type} (n : Nat) (π σ : List Entry) (act : Lower α) : Prop where
  stack : ∀ {s s' : State} {a : α} {rest : List Entry}, s.stack = π ++ rest → Runs act s a s' →
    s'.stack = σ ++ rest
  grows : ∀ {s s' : State} {a : α} {rest : List Entry}, s.stack = π ++ rest → Runs act s a s' →
    Extends s s'
  fault : ∀ {s s' : State} {f : Fault} {rest : List Entry}, s.stack = π ++ rest →
    act.run s = (.error f, s') → f.Ordinary
  inRange : ∀ {s : State} {rest : List Entry}, s.stack = π ++ rest → s.Grounded →
    n ≤ s.regions.length → InRange act s
  grounded : ∀ {s s' : State} {a : α} {rest : List Entry}, s.stack = π ++ rest → s.Grounded →
    n ≤ s.regions.length → Runs act s a s' → s'.Grounded

/-- The stack is the same afterwards. -/
abbrev Steady {α : Type} (n : Nat) (act : Lower α) : Prop := Balanced n [] [] act

section

variable {α β : Type} {n m : Nat} {π σ τ : List Entry} {act x : Lower α} {f : α → Lower β}

theorem Steady.stack_eq (h : Steady n act) {s s' : State} {a : α} (hrun : Runs act s a s') :
    s'.stack = s.stack := h.stack rfl hrun

/-- Steps that keep the stack are known by what they do to the rest of the state. -/
theorem Steady.intro
    (hruns : ∀ {s s' : State} {a : α}, Runs act s a s' → s'.stack = s.stack ∧ Extends s s')
    (hfault : ∀ {s s' : State} {f : Fault}, act.run s = (.error f, s') → f.Ordinary)
    (hrange : ∀ {s : State}, s.Grounded → n ≤ s.regions.length → InRange act s) :
    Steady n act where
  stack hst hrun := (hruns hrun).1.trans hst
  grows _ hrun := (hruns hrun).2
  fault _ hrun := hfault hrun
  inRange _ hg hn := hrange hg hn
  grounded _ hg _ hrun := by
    obtain ⟨hst, hext⟩ := hruns hrun
    rw [State.Grounded, hst]
    exact fun e he => Nat.lt_of_lt_of_le (hg e he) hext.regions.length_le

theorem Steady.frame (h : Steady n act) (π : List Entry) : Balanced n π π act where
  stack hst hrun := (h.stack_eq hrun).trans hst
  grows _ hrun := h.grows rfl hrun
  fault _ hrun := h.fault rfl hrun
  inRange _ hg hn := h.inRange rfl hg hn
  grounded _ hg hn hrun := h.grounded rfl hg hn hrun

theorem Balanced.mono (h : Balanced n π σ act) (hnm : n ≤ m) : Balanced m π σ act where
  stack := h.stack
  grows := h.grows
  fault := h.fault
  inRange hst hg hm := h.inRange hst hg (Nat.le_trans hnm hm)
  grounded hst hg hm hrun := h.grounded hst hg (Nat.le_trans hnm hm) hrun

theorem Balanced.bind (hx : Balanced n π σ x) (hf : ∀ a, Balanced n σ τ (f a)) :
    Balanced n π τ (x >>= f) where
  stack hst hrun := by
    obtain ⟨a, s₁, h₁, h₂⟩ := runs_bind.mp hrun
    exact (hf a).stack (hx.stack hst h₁) h₂
  grows hst hrun := by
    obtain ⟨a, s₁, h₁, h₂⟩ := runs_bind.mp hrun
    exact (hx.grows hst h₁).trans ((hf a).grows (hx.stack hst h₁) h₂)
  fault {s} _ _ _ hst hrun := by
    rw [run_bind] at hrun
    cases hx₁ : x.run s with
    | mk r s₁ =>
      rw [hx₁] at hrun
      cases r with
      | error e =>
        cases hrun
        exact hx.fault hst hx₁
      | ok a => exact (hf a).fault (hx.stack hst hx₁) hrun
  inRange hst hg hn := by
    refine .bind (hx.inRange hst hg hn) fun a s₁ h₁ => ?_
    have hlen := (hx.grows hst h₁).regions.length_le
    exact (hf a).inRange (hx.stack hst h₁) (hx.grounded hst hg hn h₁) (Nat.le_trans hn hlen)
  grounded hst hg hn hrun := by
    obtain ⟨a, s₁, h₁, h₂⟩ := runs_bind.mp hrun
    have hlen := (hx.grows hst h₁).regions.length_le
    exact (hf a).grounded (hx.stack hst h₁) (hx.grounded hst hg hn h₁) (Nat.le_trans hn hlen) h₂

theorem Balanced.ite {c : Prop} [Decidable c] {x y : Lower α} (hx : Balanced n π σ x)
    (hy : Balanced n π σ y) : Balanced n π σ (if c then x else y) := by
  split
  · exact hx
  · exact hy

/-! ## Steps that ask for no region -/

theorem Steady.modifyGet {f : State → α × State}
    (hstack : ∀ s, (f s).2.stack = s.stack) (hcmds : ∀ s, s.cmds <+: (f s).2.cmds)
    (hapart : ∀ (s : State) (regions : List Region),
      f { s with regions } = ((f s).1, { (f s).2 with regions })) :
    Steady n (modifyGet f : Lower α) := by
  refine .intro (fun {s s' a} hrun => ?_) (fun hrun => by cases hrun) fun _ _ =>
    .apart fun s regions => ?_
  · cases hrun
    have hkeep : (f s).2.regions = s.regions := congrArg (·.2.regions) (hapart s s.regions)
    refine ⟨hstack s, ?_, hcmds s⟩
    rw [hkeep]
    exact .refl _
  · show (Except.ok (f { s with regions }).1, (f { s with regions }).2) = _
    rw [hapart]
    rfl

theorem Steady.modify {f : State → State} (hstack : ∀ s, (f s).stack = s.stack)
    (hcmds : ∀ s, s.cmds <+: (f s).cmds)
    (hapart : ∀ (s : State) (regions : List Region), f { s with regions } = { f s with regions }) :
    Steady n (modify f : Lower Unit) :=
  .modifyGet hstack hcmds fun s regions => by rw [hapart]

theorem Balanced.pure {a : α} : Balanced n π π (Pure.pure a : Lower α) := by
  refine Steady.frame (.intro (fun hrun => ?_) (fun hrun => by cases hrun) fun _ _ =>
    .apart fun _ _ => rfl) π
  rw [(runs_pure.mp hrun).2]
  exact ⟨rfl, .refl _⟩

theorem Balanced.throw {e : Fault} (he : e.Ordinary) : Balanced n π σ (throw e : Lower α) where
  stack _ hrun := absurd hrun not_runs_throw
  grows _ hrun := absurd hrun not_runs_throw
  fault _ hrun := by
    cases hrun
    exact he
  inRange _ _ _ := .apart fun _ _ => rfl
  grounded _ _ _ hrun := absurd hrun not_runs_throw

theorem Balanced.lift {r : Except Fault α} (hr : ∀ e, r = .error e → e.Ordinary) :
    Balanced n π π (liftM r : Lower α) := by
  cases r with
  | ok a => exact .pure
  | error e => exact .throw (hr e rfl)

theorem Steady.buffered (h : Steady n act) : Steady n (buffered act) := by
  refine .intro (fun hrun => ?_) (fun {s s' f} hrun => ?_) fun hg hn =>
    .buffered (h.inRange rfl hg hn)
  · obtain ⟨s₁, h₁, -, rfl⟩ := runs_buffered.mp hrun
    have hst : s₁.stack = _ := h.stack rfl h₁
    have hext := h.grows rfl h₁
    exact ⟨hst, hext.regions, List.prefix_rfl⟩
  · cases hact : act.run { s with cmds := [] } with
    | mk r s₁ =>
      rw [run_buffered hact] at hrun
      cases r with
      | ok a => cases hrun
      | error e =>
        cases hrun
        exact h.fault rfl hact

theorem Steady.commandsOf {act : Lower Unit} (h : Steady n act) : Steady n (commandsOf act) :=
  h.buffered.bind fun _ => .pure

theorem steady_emitAll {cs : List Cmd} : Steady n (emitAll cs) :=
  .modify (fun _ => rfl) (fun _ => List.prefix_append _ _) fun _ _ => rfl

theorem steady_emit {c : Cmd} : Steady n (emit c) := steady_emitAll

theorem steady_withRegistry {f : Registry → α × Registry} : Steady n (withRegistry f) :=
  .modifyGet (fun _ => rfl) (fun _ => List.prefix_rfl) fun _ _ => rfl

theorem steady_report {level : Log.Level} {message : String} : Steady n (report level message) :=
  .modify (fun _ => rfl) (fun _ => List.prefix_rfl) fun _ _ => rfl

theorem steady_freshLocal {stem : String} {ty : Ir.Ty} : Steady n (freshLocal stem ty) :=
  .modifyGet (fun _ => rfl) (fun _ => List.prefix_rfl) fun _ _ => rfl

theorem Steady.changeContext {f : Context → Context} (hstack : ∀ cx, (f cx).stack = cx.stack)
    (hcmds : ∀ cx, (f cx).cmds = cx.cmds)
    (hapart : ∀ (cx : Context) (regions : List Region),
      f { cx with regions } = { f cx with regions }) : Steady n (changeContext f) := by
  refine .modify (fun s => hstack s.toContext) (fun s => ?_) fun s regions => ?_
  · show s.cmds <+: (f s.toContext).cmds
    rw [hcmds]
  · exact congrArg (fun cx => State.mk cx s.toShared) (hapart s.toContext regions)

theorem steady_declareLocal {name : String} {ty : Ir.Ty} : Steady n (declareLocal name ty) := by
  refine .changeContext (fun cx => ?_) (fun cx => ?_) fun cx regions => ?_ <;>
    unfold Context.declareLocal
  · split <;> rfl
  · split <;> rfl
  · dsimp only
    split <;> rfl

theorem steady_useLabelVar : Steady n useLabelVar := by
  refine Balanced.bind (σ := []) ?_ fun _ => .pure
  exact Steady.changeContext (fun _ => rfl) (fun _ => rfl) fun _ _ => rfl

theorem steady_pushOperand {v : Ir.Expr} : Steady n (pushOperand v) :=
  .changeContext (fun _ => rfl) (fun _ => rfl) fun _ _ => rfl

theorem Balanced.look {f : Context → Lower α}
    (hlook : ∀ cx more, max n (reach cx.stack) ≤ cx.regions.length →
      f { cx with regions := cx.regions ++ more } = f cx)
    (hf : ∀ cx, Balanced (max n (reach cx.stack)) π σ (f cx)) :
    Balanced n π σ (context >>= f) := by
  have hreach : ∀ {s : State}, s.Grounded → n ≤ s.regions.length →
      max n (reach s.stack) ≤ s.regions.length :=
    fun hg hn => Nat.max_le.mpr ⟨hn, reach_le_iff.mpr hg⟩
  have hruns : ∀ {s s' : State} {a : α}, Runs (context >>= f) s a s' →
      Runs (f s.toContext) s a s' := by
    intro s s' a hrun
    obtain ⟨cx, s₁, h₁, h₂⟩ := runs_bind.mp hrun
    obtain ⟨rfl, rfl⟩ := runs_context.mp h₁
    exact h₂
  refine ⟨fun hst hrun => (hf _).stack hst (hruns hrun), fun hst hrun =>
    (hf _).grows hst (hruns hrun), fun {s} _ _ _ hst hrun => (hf s.toContext).fault hst hrun,
    fun {s} _ hst hg hn => ?_, fun hst hg hn hrun => ?_⟩
  · exact .look (fun more => hlook _ more (hreach hg hn)) ((hf _).inRange hst hg (hreach hg hn))
  · exact (hf _).grounded hst hg (hreach hg hn) (hruns hrun)

/-- Most of what is done with the context does not depend on the regions. -/
theorem Balanced.glance {f : Context → Lower α}
    (hlook : ∀ cx more, f { cx with regions := cx.regions ++ more } = f cx)
    (hf : ∀ cx, Balanced n π σ (f cx)) : Balanced n π σ (context >>= f) :=
  .look (fun cx more _ => hlook cx more) fun cx => (hf cx).mono (Nat.le_max_left _ _)

theorem steady_popOperand : Steady n popOperand := by
  refine .glance (fun _ _ => rfl) fun cx => ?_
  split
  · refine Balanced.bind (σ := []) ?_ fun _ => .pure
    exact Steady.changeContext (fun _ => rfl) (fun _ => rfl) fun _ _ => rfl
  · exact .throw Fault.ordinary_emptyOperands

/-! ## The stack -/

theorem balanced_pushPhase {id : Nat} (phase : Phase) (hid : id < n) :
    Balanced n π (⟨id, phase⟩ :: π) (pushPhase id phase) := by
  refine (steady_report.frame π).bind fun _ => ?_
  refine ⟨fun hst h => ?_, fun _ h => ?_, fun _ h => ?_, fun _ _ _ => .apart fun _ _ => rfl,
    fun _ hg hn h => ?_⟩
  · cases h
    exact congrArg (_ :: ·) hst
  · cases h
    exact ⟨.refl _, List.prefix_rfl⟩
  · cases h
  · cases h
    exact List.forall_mem_cons.mpr ⟨Nat.lt_of_lt_of_le hid hn, hg⟩

theorem run_popPhase (id : Nat) (phase : Phase) (s : State) :
    (popPhase id phase).run s =
      (if s.stack.head? ≠ some ⟨id, phase⟩ then
          .error (.unbalanced (Entry.text ⟨id, phase⟩) (Entry.topText s.stack.head?))
        else .ok (), { s with stack := s.stack.tail }) := by
  have hthrow : (popPhase id phase).run s =
      (if s.stack.head? ≠ some ⟨id, phase⟩ then
          throw (.unbalanced (Entry.text ⟨id, phase⟩) (Entry.topText s.stack.head?))
        else pure () : Lower Unit).run { s with stack := s.stack.tail } := rfl
  rw [hthrow]
  split <;> rfl

theorem balanced_popPhase {id : Nat} (phase : Phase) :
    Balanced n (⟨id, phase⟩ :: π) π (popPhase id phase) := by
  have hrun : ∀ {s : State} {rest : List Entry}, s.stack = (⟨id, phase⟩ :: π) ++ rest →
      (popPhase id phase).run s = (.ok (), { s with stack := π ++ rest }) := by
    intro s rest hst
    rw [run_popPhase, hst]
    exact congrArg (·, _) (if_neg (not_not.mpr rfl))
  refine ⟨fun hst h => ?_, fun hst h => ?_, fun hst h => ?_, fun _ _ _ => .apart fun s regions => ?_,
    fun hst hg _ h => ?_⟩
  · cases (hrun hst).symm.trans h
    rfl
  · cases (hrun hst).symm.trans h
    exact ⟨.refl _, List.prefix_rfl⟩
  · cases (hrun hst).symm.trans h
  · rw [run_popPhase, run_popPhase]
  · cases (hrun hst).symm.trans h
    rw [State.Grounded, hst] at hg
    exact (List.forall_mem_cons.mp hg).2

/-! ## Regions -/

/-- The state with one more region. -/
def State.entered (s : State) (node : UInt32) (types : List (Option TypeRef)) : State :=
  { s with regions := s.regions ++ [{ node, catchTypes := types }] }

theorem run_enterRegion (node : UInt32) (types : List (Option TypeRef)) (s : State) :
    (enterRegion node types).run s = (.ok s.regions.length, s.entered node types) := rfl

theorem stack_entered {s : State} {node : UInt32} {types : List (Option TypeRef)}
    {es : List Entry} (h : s.stack = es) : (s.entered node types).stack = es := h

theorem extends_entered (s : State) (node : UInt32) (types : List (Option TypeRef)) :
    Extends s (s.entered node types) := ⟨.append _ _, List.prefix_rfl⟩

theorem length_entered (s : State) (node : UInt32) (types : List (Option TypeRef)) :
    (s.entered node types).regions.length = s.regions.length + 1 := List.length_append

theorem State.Grounded.entered {s : State} (h : s.Grounded) (node : UInt32)
    (types : List (Option TypeRef)) : (s.entered node types).Grounded := by
  intro e he
  rw [length_entered]
  exact Nat.lt_succ_of_lt (h e he)

/-- What follows may use the new region. -/
theorem balanced_enterRegion {node : UInt32} {types : List (Option TypeRef)} {f : Nat → Lower α}
    (hf : ∀ id, Balanced (id + 1) π σ (f id)) : Balanced n π σ (enterRegion node types >>= f) := by
  have hlen := fun s : State => Nat.le_of_eq (length_entered s node types).symm
  have hruns : ∀ {s s' : State} {a : α}, Runs (enterRegion node types >>= f) s a s' →
      Runs (f s.regions.length) (s.entered node types) a s' := by
    intro s s' a h
    obtain ⟨id, s₁, h₁, h₂⟩ := runs_bind.mp h
    cases (run_enterRegion node types s).symm.trans h₁
    exact h₂
  refine ⟨fun hst h => (hf _).stack (stack_entered hst) (hruns h), fun {s _ _ _} hst h =>
    (extends_entered s node types).trans ((hf _).grows (stack_entered hst) (hruns h)),
    fun {s _ _ _} hst h => ?_, fun {s _} hst hg _ => ?_, fun {s _ _ _} hst hg _ h =>
    (hf _).grounded (stack_entered hst) (hg.entered node types) (hlen s) (hruns h)⟩
  · rw [run_bind, run_enterRegion] at h
    exact (hf _).fault (stack_entered hst) h
  · refine .bind .enterRegion fun id s₁ h₁ => ?_
    cases (run_enterRegion node types s).symm.trans h₁
    exact (hf _).inRange (stack_entered hst) (hg.entered node types) (hlen s)

/-- An operation of the context that may give more to one region. -/
theorem Steady.withContext {g : Context → α × Context} {id : Nat}
    (hstack : ∀ cx, (g cx).2.stack = cx.stack) (hcmds : ∀ cx, (g cx).2.cmds = cx.cmds)
    (hregions : ∀ cx, Arena cx.regions (g cx).2.regions)
    (hrange : ∀ {s : State}, id < s.regions.length → InRange (withContext g) s) (hid : id < n) :
    Steady n (withContext g) := by
  refine .intro (fun {s _ _} hrun => ?_) (fun hrun => by cases hrun) fun _ hn =>
    hrange (Nat.lt_of_lt_of_le hid hn)
  cases hrun
  refine ⟨hstack s.toContext, hregions s.toContext, ?_⟩
  show s.cmds <+: (g s.toContext).2.cmds
  rw [hcmds]

section

variable {slot : Region → Option String} {fill : Region → String → Region} {name : String}
  {id : Nat}

theorem Steady.allot (hfill : ∀ r : Region, slot r = none → r.Le (fill r name))
    (hrange : ∀ {s : State}, id < s.regions.length →
      InRange (Lowering.withContext (·.allot id slot fill name)) s) (hid : id < n) :
    Steady n (Lowering.withContext (·.allot id slot fill name)) := by
  refine .withContext (fun cx => ?_) (fun cx => ?_) (fun cx => ?_) hrange hid <;>
    unfold Context.allot <;> split
  · split <;> rfl
  · rfl
  · split <;> rfl
  · rfl
  · next r hr =>
    split
    · exact .refl _
    · next hnone => exact .set hr (hfill r hnone)
  · exact .refl _

end

/-- Filling an empty slot takes no name away. -/
theorem keeps_of_none {slot : Option String} {l x : String} (h : slot = none) :
    slot = some l → some x = some l := fun hl => by cases h.symm.trans hl

theorem steady_catchLabel {id : Nat} (hid : id < n) : Steady n (catchLabel id) :=
  .allot (fun r h => { Region.Le.refl r with catchLabel := fun _ => keeps_of_none h })
    inRange_catchLabel_iff.mpr hid

theorem steady_finallyLabel {id : Nat} (hid : id < n) : Steady n (finallyLabel id) :=
  .allot (fun r h => { Region.Le.refl r with finallyLabel := fun _ => keeps_of_none h })
    inRange_finallyLabel_iff.mpr hid

theorem steady_continuationLabel {id : Nat} (hid : id < n) : Steady n (continuationLabel id) :=
  .allot (fun r h => { Region.Le.refl r with continuationLabel := fun _ => keeps_of_none h })
    inRange_continuationLabel_iff.mpr hid

theorem steady_exceptionLocal {id : Nat} (hid : id < n) : Steady n (exceptionLocal id) := by
  refine .withContext (fun cx => ?_) (fun cx => ?_) (fun cx => ?_) inRange_exceptionLocal_iff.mpr hid <;>
    unfold Context.exceptionLocal <;> split
  · split <;> rfl
  · rfl
  · split <;> rfl
  · rfl
  · next r hr =>
    split
    · exact .refl _
    · next hnone =>
      exact .set hr { Region.Le.refl r with exceptionLocal := fun _ => keeps_of_none hnone }
  · exact .refl _

theorem steady_addEscapingEdge {id : Nat} (hid : id < n) : Steady n (addEscapingEdge id) := by
  refine .withContext (fun cx => ?_) (fun cx => ?_) (fun cx => ?_) inRange_addEscapingEdge_iff.mpr hid <;>
    unfold Context.addEscapingEdge <;> dsimp only <;> split
  · rfl
  · rfl
  · rfl
  · rfl
  · next r hr => exact .set hr { Region.Le.refl r with escapes := List.prefix_append _ _ }
  · exact .refl _

end

end Unwind.Lowering
