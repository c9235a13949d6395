import Unwind.Proofs.Compilation.Alone
import Unwind.Proofs.Interleavings
import Unwind.Proofs.Marks.Voices

/-!
# Compilations as interleavings

Workers share the registry, and every access to it is one step. An `Interleaving` of a compilation
is a pool of workers that has come to its end: each method is a talk, the talks were dealt out to
the workers, and the registry has served their requests in any order. The compilation that runs its
workers one after the other is one of them (`exists_interleaving`).

In every interleaving, a method has become what its talk makes of the numbers that it was told
(`Becomes`), and all the numbers told are those from zero on, each one told once
(`Interleaving.histories`).
-/

namespace Unwind.Compilation

open Exchange (heard)
open Ir (Procedure)
open Lowering (Env Shared)
open Workers (Pool Thread)

/-! ## The talk of a method -/

/-- How many numbers a method takes for marks of one kind. -/
def Member.takes (env : Env) (h : Hierarchy) (m : Member) (k : Mark) : Nat :=
  match m.expanded h, outcomeOf env h m with
  | .ok method, .ok _ => method.body.elim 0 (Lowering.bodyMarks env.options) k
  | _, _ => (k.counter (registryOf env h m)).toNat

/-- Every method is a talk that asks for the numbers it takes. -/
theorem exists_voices (env : Env) (h : Hierarchy) (m : Member) :
    ∃ t : Talk (Except Fault Procedure), t.Voices (attempt env h m) ∧
      ∀ k N, k.count (t.requests N) = m.takes env h k := by
  have htally : ∀ q, outcomeOf env h m = .ok q → ∃ P,
      Lowering.Tally P (m.takes env h) {} (q.body.getD []) (registryOf env h m) := by
    intro q hq
    obtain ⟨method, he, ht⟩ := outcome_tally (P := fun _ => True) (fun _ _ _ _ => trivial)
      (fun _ _ _ _ => trivial) hq
    have htakes : m.takes env h = method.body.elim 0 (Lowering.bodyMarks env.options) := by
      funext k
      rw [Member.takes, he, hq]
    exact ⟨_, htakes ▸ ht⟩
  refine Talk.exists_voices (fun _ => attempt_alone env h m) (m.takes env h) (fun k => ?_)
    fun q hq k => ?_
  · cases hq : outcomeOf env h m with
    | error e =>
      have htakes : m.takes env h k = (k.counter (registryOf env h m)).toNat := by
        rw [Member.takes, hq]
        cases m.expanded h <;> rfl
      rw [htakes, UInt64.ofNat_toNat]
      rfl
    | ok q =>
      obtain ⟨P, ht⟩ := htally q hq
      have hcounter := ht.counter k
      rwa [k.counter_empty, UInt64.zero_add] at hcounter
  · obtain ⟨P, ht⟩ := htally q hq
    rw [← k.counter_empty]
    exact ht.marks k

theorem sound_workOf (options : Options) (p : Source.Program) (literal : Int64 → Int64)
    (m : Member) {shared : Shared} (hs : shared.registry.Sound) :
    ((workOf options p literal m).run shared).2.registry.Sound :=
  (attempt_alone _ _ m hs).2.sound_top

/-! ## Interleavings -/

/-- One interleaving of the workers of a compilation, from the first step to the last one. -/
structure Interleaving (options : Options) (p : Source.Program) (literal : Int64 → Int64) where
  talk : Member → Talk (Except Fault Procedure)
  voices : ∀ m ∈ membersOf p, (talk m).Voices (workOf options p literal m)
  pool : Pool (Except Fault Procedure)
  reached : (Pool.start (Workers.count options.jobs.toNat (membersOf p).length)
    ((membersOf p).map talk)).Reaches pool
  done : pool.IsDone

section

variable {options : Options} {p : Source.Program} {literal : Int64 → Int64}

namespace Interleaving

/-- What the compilation comes to. -/
def result (x : Interleaving options p literal) (policy : FailurePolicy) :
    Except Fault Compilation :=
  concluded policy p (Workers.inOrder x.pool.results) x.pool.registry.helpers

/-- How often the counter for marks of one kind is incremented. -/
def increments (x : Interleaving options p literal) (k : Mark) : Nat :=
  k.count ((membersOf p).flatMap fun m => (x.talk m).requests (Registry.upcoming {}))

end Interleaving

/-! ## One worker after the other -/

/-- Items in turn, and their talks in turn. -/
theorem mapM_same (work : Member → StateM Shared (Except Fault Procedure))
    (talk : Member → Talk (Except Fault Procedure))
    (hsound : ∀ m shared, shared.registry.Sound → ((work m).run shared).2.registry.Sound)
    (items : List (Member × Nat)) (hv : ∀ x ∈ items, (talk x.1).Voices (work x.1))
    {shared : Shared} {r : Registry} (hr : r.Sound) (hs : shared.registry.Sound)
    (h : r.Same shared.registry) :
    let held := (Pool.holdAll (items.map (Prod.map talk id))).run r
    let out := (items.mapM fun item => return (← work item.1, item.2) : StateM Shared _).run shared
    held.1 = out.1 ∧ held.2.Sound ∧ out.2.registry.Sound ∧ held.2.Same out.2.registry := by
  induction items generalizing shared r with
  | nil => exact ⟨rfl, hr, hs, h⟩
  | cons x items ih =>
    obtain ⟨hx, hitems⟩ := List.forall_mem_cons.mp hv
    obtain ⟨hres, hsame⟩ := (talk x.1).run_same hr hs h
    obtain ⟨hact, hafter⟩ := hx.performs shared hs
    obtain ⟨hlist, hrest⟩ := ih hitems ((talk x.1).sound_run hr) (hsound x.1 shared hs)
      (hsame.trans hafter)
    rw [List.map_cons, List.mapM_cons]
    dsimp only [Prod.map]
    rw [Pool.run_holdAll_cons]
    refine ⟨?_, hrest⟩
    rw [hlist, hres, hact]
    rfl

/-- The compilation that runs its workers one after the other is one interleaving, in which every
method takes as many numbers as alone. -/
theorem exists_interleaving (options : Options) (policy : FailurePolicy) (p : Source.Program)
    (literal : Int64 → Int64) :
    ∃ x : Interleaving options p literal,
      x.result policy = (compile options policy p literal).1 ∧
      ∀ k, x.increments k = ((membersOf p).map fun m =>
        m.takes (envOf options p literal) (Hierarchy.ofProgram p) k).sum := by
  choose talk hv htakes using fun m =>
    exists_voices (envOf options p literal) (Hierarchy.ofProgram p) m
  let n := Workers.count options.jobs.toNat (membersOf p).length
  obtain ⟨pool, hreached, hdone, hrun⟩ := Pool.reaches_run n ((membersOf p).map talk)
  refine ⟨⟨talk, fun m _ => hv m, pool, hreached, hdone⟩, ?_, fun k => ?_⟩
  · obtain ⟨log, hlog⟩ := compile_run options policy p literal
    let shared : Shared := ⟨{}, log⟩
    have hempty : Registry.Same {} shared.registry := ⟨fun _ => rfl, fun _ => Iff.rfl⟩
    obtain ⟨hlist, hsound, hsound', hsame⟩ := mapM_same (workOf options p literal) talk
      (fun m _ => sound_workOf options p literal m) (Workers.schedule n (membersOf p))
      (fun x _ => hv x.1) .empty .empty hempty
    rw [← Workers.schedule_map] at hlist hsound hsame
    obtain ⟨hresults, hregistry⟩ := Prod.mk.inj hrun
    rw [hlog, Interleaving.result, ← hresults, ← hregistry]
    congr 1
    · exact congrArg Workers.inOrder hlist
    · exact hsound.helpers_eq_of_has hsound' hsame.has_iff
  · rw [Interleaving.increments, Mark.count, List.countP_flatMap]
    congr 1
    exact List.map_congr_left fun m _ => htakes m k _

/-! ## Histories -/

/-- The method has become `a` after its talk had exchanged this with the registry. -/
structure Becomes (options : Options) (p : Source.Program) (literal : Int64 → Int64) (m : Member)
    (es : List Exchange) (a : Except Fault Procedure) : Prop where
  known : ∀ e ∈ es, e.IsKnown
  voiced : ∃ t : Talk (Except Fault Procedure),
    t.Voices (workOf options p literal m) ∧ t.Follows es (.done a)

/-- In every interleaving each method has become something after an exchange of its own. The numbers
exchanged are those from zero on, each one once, and the registry has what was asked for. -/
theorem Interleaving.histories (x : Interleaving options p literal) :
    ∃ hs : List (List Exchange × Except Fault Procedure),
      List.Forall₂ (fun m h => Becomes options p literal m h.1 h.2) (membersOf p) hs ∧
      Workers.inOrder x.pool.results = hs.map Prod.snd ∧ x.pool.registry.Sound ∧
      (∀ k, (hs.flatMap fun h => heard k h.1).Perm ((List.range (x.increments k)).map .ofNat)) ∧
      ∀ q, x.pool.registry.Has q ↔ ∃ h ∈ hs, ∃ e ∈ h.1, q.Alike e.request := by
  obtain ⟨threads, h⟩ := (Pool.recorded_start (count_pos options.jobs.toNat (membersOf p).length)
    ((membersOf p).map x.talk)).of_reaches x.reached
  have hnow := h.results x.done
  have hdone : ∀ d ∈ threads, d.now = .done d.now.outcome := by
    intro d hd
    obtain ⟨a, -, ha⟩ := List.mem_map.mp (hnow ▸ List.mem_map_of_mem hd)
    rw [← ha]
    rfl
  have hbegun : List.Forall₂ (fun m d => x.talk m = d.begun) (membersOf p) threads := by
    have heq : List.Forall₂ Eq ((membersOf p).map x.talk) (threads.map Thread.begun) := by
      rw [List.forall₂_eq_eq_eq]
      exact h.begun.symm
    rwa [List.forall₂_map_left_iff, List.forall₂_map_right_iff] at heq
  have hbecomes : ∀ {m d}, (m, d) ∈ (membersOf p).zip threads →
      (x.talk m).Voices (workOf options p literal m) ∧
        (x.talk m).Follows d.history (.done d.now.outcome) := by
    intro m d hmd
    obtain ⟨hm, hd⟩ := List.of_mem_zip hmd
    refine ⟨x.voices m hm, ?_⟩
    rw [← hdone d hd, (List.forall₂_iff_zip.mp hbegun).2 hmd]
    exact d.follows
  have hcount : ∀ k, x.increments k = (Workers.numbers k threads).length := by
    intro k
    rw [increments, Mark.count, List.countP_flatMap, Workers.numbers, List.length_flatMap]
    congr 1
    rw [← List.forall₂_eq_eq_eq, List.forall₂_map_left_iff, List.forall₂_map_right_iff,
      List.forall₂_iff_zip]
    refine ⟨hbegun.length_eq, fun {m d} hmd => ?_⟩
    obtain ⟨hv, hf⟩ := hbecomes hmd
    exact hv.count_requests hf d.known k _
  refine ⟨threads.map fun d => (d.history, d.now.outcome), ?_, ?_, h.sound, fun k => ?_,
    fun q => ?_⟩
  · rw [List.forall₂_map_right_iff, List.forall₂_iff_zip]
    exact ⟨hbegun.length_eq, fun {m d} hmd => ⟨d.known, x.talk m, hbecomes hmd⟩⟩
  · have hout := congrArg (List.map Talk.outcome) hnow
    rw [List.map_map, List.map_map] at hout
    rw [List.map_map]
    exact (hout.trans (List.map_id _)).symm
  · rw [List.flatMap_map, hcount]
    exact h.numbers k
  · rw [h.has_iff]
    simp only [List.mem_map, exists_exists_and_eq_and]

/-! ## What is emitted -/

namespace Becomes

variable {m : Member} {es : List Exchange} {q : Procedure}

/-- Alone, the method becomes the same procedure, up to the numbers in its marks. -/
theorem alone (hb : Becomes options p literal m es (.ok q)) :
    ∃ q₀, outcomeOf (envOf options p literal) (Hierarchy.ofProgram p) m = .ok q₀ ∧
      q.unnumbered = q₀.unnumbered := by
  obtain ⟨t, hv, hf⟩ := hb.voiced
  have h : Except.ok q.unnumbered =
      (outcomeOf (envOf options p literal) (Hierarchy.ofProgram p) m).map Procedure.unnumbered :=
    hv.unnumbered_eq hf hb.known
  cases hq : outcomeOf (envOf options p literal) (Hierarchy.ofProgram p) m with
  | error e =>
    rw [hq] at h
    cases h
  | ok q₀ =>
    rw [hq] at h
    exact ⟨q₀, rfl, Except.ok.inj h⟩

theorem name_eq (hb : Becomes options p literal m es (.ok q)) : q.name = m.procedureName := by
  obtain ⟨q₀, hq₀, hu⟩ := hb.alone
  have hname : q₀.name = m.procedureName := name_of_compileMember hq₀
  rw [← hname]
  show q.unnumbered.name = q₀.unnumbered.name
  rw [hu]

end Becomes

/-- A compilation that succeeds has the procedures that its methods have become, then `$Alloc`, then
the helpers. -/
theorem Interleaving.procedures_of_ok {x : Interleaving options p literal} {policy : FailurePolicy}
    {c : Compilation} (h : x.result policy = .ok c) :
    c.program.procedures = emitted ((membersOf p).zip (Workers.inOrder x.pool.results)) ++
      allocDecl :: x.pool.registry.helpers :=
  procedures_of_assemble (concluded_eq_ok h).1

/-- Helpers have no code. -/
theorem body_of_mem_helpers {r : Registry} (hr : r.Sound) {q : Procedure}
    (hq : q ∈ allocDecl :: r.helpers) : q.body = none := by
  rcases List.mem_cons.mp hq with rfl | hq
  · rfl
  · rcases hr.mem_helpers hq with ⟨type, rfl⟩ | ⟨ty, rfl⟩
    · rfl
    · rfl

theorem mem_emitted {hs : List (List Exchange × Except Fault Procedure)}
    (h : List.Forall₂ (fun m h => Becomes options p literal m h.1 h.2) (membersOf p) hs)
    {q : Procedure} (hq : q ∈ emitted ((membersOf p).zip (hs.map Prod.snd))) :
    ∃ m ∈ membersOf p, ∃ es, (es, .ok q) ∈ hs ∧ Becomes options p literal m es (.ok q) := by
  obtain ⟨⟨m, r⟩, hmem, hr⟩ := List.mem_filterMap.mp hq
  rw [List.zip_map_right] at hmem
  obtain ⟨⟨m', es, r'⟩, hzip, heq⟩ := List.mem_map.mp hmem
  cases heq
  cases r' with
  | error e => cases hr
  | ok q' =>
    cases hr
    obtain ⟨hm, hes⟩ := List.of_mem_zip hzip
    exact ⟨m', hm, es, hes, (List.forall₂_iff_zip.mp h).2 hzip⟩

end

end Unwind.Compilation
