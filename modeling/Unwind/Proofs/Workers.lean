import Mathlib.Data.List.Perm.Basic
import Mathlib.Logic.Relation
import Unwind.Proofs.Talks
import Unwind.Workers

/-!
# Workers that share a registry

Workers hold the talks that are dealt out to them, each one after the other, while all of them talk
to one registry. `Step` is what can happen next: a request of some worker is served, or some worker
is done with a talk. What the workers are going to return and what they are going to ask for never
changes along such steps (`Pool.keeps_step`, `Pool.keeps_reaches`), so that every interleaving ends
with the same results and the same helpers (`Pool.settled`), and none gets stuck
(`Pool.can_finish`). Workers that are run one after the other end alike (`run_settled`).
-/

namespace Unwind.Workers

open Lowering (Shared)

variable {α β : Type}

/-! ## Dealing out and collecting -/

/-- Dealing out in strides forgets nothing and repeats nothing. -/
theorem flatMap_filter_perm (items : List β) (key : β → Nat) (n : Nat) :
    ((List.range n).flatMap fun w => items.filter (key · == w)).Perm
      (items.filter fun x => decide (key x < n)) := by
  induction n with
  | zero => simp
  | succ n ih =>
    rw [List.range_succ, List.flatMap_append, List.flatMap_singleton]
    have hsplit := List.filter_append_perm (fun x => decide (key x < n))
      (items.filter fun x => decide (key x < n + 1))
    rw [List.filter_filter, List.filter_filter] at hsplit
    refine (ih.append_right _).trans (List.Perm.trans (.of_eq ?_) hsplit)
    congr 1
    · refine List.filter_congr fun x _ => ?_
      rw [Bool.eq_iff_iff]
      simp only [decide_eq_true_eq, Bool.and_eq_true]
      omega
    · refine List.filter_congr fun x _ => ?_
      rw [Bool.eq_iff_iff]
      simp only [beq_iff_eq, decide_eq_true_eq, Bool.and_eq_true, Bool.not_eq_true',
        decide_eq_false_iff_not]
      omega

theorem schedule_perm {n : Nat} (hn : 0 < n) (items : List β) :
    (schedule n items).Perm items.zipIdx := by
  refine (flatMap_filter_perm items.zipIdx (·.2 % n) n).trans (.of_eq ?_)
  rw [List.filter_eq_self]
  intro x _
  exact decide_eq_true (Nat.mod_lt _ hn)

/-- Every item is dealt out. -/
theorem exists_mem_schedule {n : Nat} (hn : 0 < n) {items : List β} {P : β → Prop} :
    (∃ x ∈ schedule n items, P x.1) ↔ ∃ x ∈ items, P x := by
  have hperm := schedule_perm hn items
  constructor
  · rintro ⟨x, hx, hP⟩
    exact ⟨x.1, List.fst_mem_of_mem_zipIdx (hperm.mem_iff.mp hx), hP⟩
  · rintro ⟨x, hx, hP⟩
    obtain ⟨i, hi⟩ := List.mem_iff_getElem?.mp hx
    exact ⟨(x, i), hperm.mem_iff.mpr (List.mem_zipIdx_iff_getElem?.mpr hi), hP⟩

/-- Sorting by position puts results back into the order of their items. -/
theorem inOrder_of_perm {results : List (α × Nat)} {xs : List α} (h : results.Perm xs.zipIdx) :
    inOrder results = xs := by
  unfold inOrder
  rw [mergeSort_eq_of_perm ?_ ?_ ?_ h, List.mergeSort_of_pairwise ?_, List.zipIdx_map_fst]
  · have hidx : ((xs.zipIdx).map Prod.snd).Pairwise (· < ·) := by
      rw [List.zipIdx_map_snd]
      exact List.pairwise_lt_range'
    refine (List.pairwise_map.mp hidx).imp fun h => ?_
    exact decide_eq_true (Nat.le_of_lt h)
  · intro a b c hab hbc
    simp only [decide_eq_true_eq] at *
    omega
  · intro a b
    simp only [Bool.or_eq_true, decide_eq_true_eq]
    omega
  · intro a ha b hb hab hba
    simp only [decide_eq_true_eq] at hab hba
    have ha' := List.mem_zipIdx_iff_getElem?.mp (h.mem_iff.mp ha)
    have hb' := List.mem_zipIdx_iff_getElem?.mp (h.mem_iff.mp hb)
    have hidx : a.2 = b.2 := by omega
    rw [hidx, hb'] at ha'
    exact Prod.ext (Option.some.inj ha').symm hidx

/-! ## What the talks come to -/

/-- The results and the registry that the talks lead to. -/
structure Settled (talks : List (Talk α)) (results : List α) (r : Registry) : Prop where
  results_eq : results = talks.map Talk.outcome
  sound : r.Sound
  has_iff : ∀ q, r.Has q ↔ ∃ t ∈ talks, ∃ q' ∈ t.asks, q.Alike q'

theorem Settled.helpers_eq {talks : List (Talk α)} {results results' : List α} {r r' : Registry}
    (h : Settled talks results r) (h' : Settled talks results' r') : r.helpers = r'.helpers :=
  h.sound.helpers_eq_of_has h'.sound fun q => (h.has_iff q).trans (h'.has_iff q).symm

/-! ## One worker after the other -/

section Sequential

variable {work : β → StateM Shared α} {talk : β → Talk α}

section Each

variable {good : Shared → Prop} {P : β → α → Prop}
  (h : ∀ x s, good s → P x ((work x).run s).1 ∧ good ((work x).run s).2)
include h

theorem mapM_each (items : List (β × Nat)) {s : Shared} (hs : good s) :
    let out := (items.mapM fun item => return (← work item.1, item.2) : StateM Shared _).run s
    List.Forall₂ (fun x y => P x.1 y.1 ∧ y.2 = x.2) items out.1 ∧ good out.2 := by
  induction items generalizing s with
  | nil => exact ⟨.nil, hs⟩
  | cons x items ih =>
    obtain ⟨hx, hs'⟩ := h x.1 s hs
    obtain ⟨hall, hgood⟩ := ih hs'
    rw [List.mapM_cons]
    exact ⟨.cons ⟨hx, rfl⟩ hall, hgood⟩

/-- Whatever the workers keep true of what they share, every item gets a result of its own. -/
theorem run_each {n : Nat} (hn : 0 < n) (items : List β) {s : Shared} (hs : good s) :
    List.Forall₂ P items ((run n work items).run s).1 ∧ good ((run n work items).run s).2 := by
  obtain ⟨hall, hgood⟩ := mapM_each h (schedule n items) hs
  refine ⟨?_, hgood⟩
  obtain ⟨out, hout, hperm⟩ := List.perm_comp_forall₂ (schedule_perm hn items).symm hall
  have hfst : List.Forall₂ P items (out.map Prod.fst) := by
    rw [List.forall₂_map_right_iff, ← List.zipIdx_map_fst 0 items, List.forall₂_map_left_iff]
    exact hout.imp fun _ _ hxy => hxy.1
  have hsnd : out.map Prod.snd = List.range' 0 (out.map Prod.fst).length := by
    have heq : List.Forall₂ Eq (items.zipIdx.map Prod.snd) (out.map Prod.snd) := by
      rw [List.forall₂_map_right_iff, List.forall₂_map_left_iff]
      exact hout.imp fun _ _ hxy => hxy.2.symm
    rw [List.forall₂_eq_eq_eq] at heq
    rw [← heq, List.zipIdx_map_snd, ← hfst.length_eq]
  have hidx : out = (out.map Prod.fst).zipIdx := by
    rw [List.zipIdx_eq_zip_range']
    exact List.zip_of_prod rfl hsnd
  show List.Forall₂ P items (inOrder _)
  rwa [inOrder_of_perm (hidx ▸ hperm.symm)]

end Each

/-- Each item in turn, with its position. -/
theorem mapM_sound (items : List (β × Nat))
    (h : ∀ x ∈ items, (talk x.1).Lookups ∧ (talk x.1).Performs (work x.1)) (shared : Shared)
    (hr : shared.registry.Sound) :
    ∃ shared',
      (items.mapM fun item => return (← work item.1, item.2) : StateM Shared _).run shared =
        (items.map fun x => ((talk x.1).outcome, x.2), shared') ∧ shared'.registry.Sound ∧
      ∀ q, shared'.registry.Has q ↔
        (∃ x ∈ items, ∃ q' ∈ (talk x.1).asks, q.Alike q') ∨ shared.registry.Has q := by
  induction items generalizing shared with
  | nil => exact ⟨shared, rfl, hr, fun q => by simp⟩
  | cons x items ih =>
    obtain ⟨hl, hp⟩ := h x List.mem_cons_self
    obtain ⟨log, hlog⟩ := hp shared
    obtain ⟨hres, hsound, hhas⟩ := Talk.run_sound hl hr
    obtain ⟨shared', hrun, hsound', hhas'⟩ :=
      ih (fun y hy => h y (List.mem_cons_of_mem _ hy)) ⟨_, log⟩ hsound
    refine ⟨shared', ?_, hsound', fun q => ?_⟩
    · rw [List.mapM_cons, List.map_cons, ← hres]
      simp only [StateT.run_bind, StateT.run_pure, bind_assoc, pure_bind, hlog]
      exact congrArg (fun o => (_ :: o.1, o.2)) hrun
    · rw [hhas', hhas]
      simp only [List.mem_cons, exists_eq_or_imp]
      rw [or_left_comm, or_assoc]

/-- Workers that are run one after the other settle the talks. -/
theorem run_settled {n : Nat} (hn : 0 < n) {items : List β}
    (h : ∀ x ∈ items, (talk x).Lookups ∧ (talk x).Performs (work x)) (log : Log) :
    ∃ results shared, (run n work items).run ⟨{}, log⟩ = (results, shared) ∧
      Settled (items.map talk) results shared.registry := by
  have hperm := schedule_perm hn items
  obtain ⟨shared, hrun, hsound, hhas⟩ := mapM_sound (schedule n items)
    (fun x hx => h x.1 (List.fst_mem_of_mem_zipIdx (hperm.mem_iff.mp hx))) ⟨{}, log⟩ .empty
  refine ⟨items.map fun x => (talk x).outcome, shared, ?_, ⟨?_, hsound, fun q => ?_⟩⟩
  · unfold run
    simp only [StateT.run_bind, StateT.run_pure, hrun]
    have hres : ((schedule n items).map fun x => ((talk x.1).outcome, x.2)).Perm
        (items.map fun x => (talk x).outcome).zipIdx := by
      rw [List.zipIdx_map]
      exact hperm.map _
    exact congrArg (·, shared) (inOrder_of_perm hres)
  · rw [List.map_map]
    rfl
  · rw [hhas]
    simp only [Registry.not_has_empty, or_false, List.mem_map, exists_exists_and_eq_and]
    exact exists_mem_schedule hn (P := fun x => ∃ q' ∈ (talk x).asks, q.Alike q')

end Sequential

/-! ## Workers in any interleaving -/

/-- A worker: what it has finished, and the talks it still has to hold, the first one under way.
Each goes with the position of its item. -/
structure Worker (α : Type) where
  finished : List (α × Nat) := []
  queue : List (Talk α × Nat)

/-- The workers and the registry that they share. -/
structure Pool (α : Type) where
  registry : Registry
  workers : List (Worker α)

/-- What can happen next: a request is served, or a talk is over. -/
inductive Step : Pool α → Pool α → Prop
  | serve {r : Registry} {before after : List (Worker α)} {finished : List (α × Nat)} {q : Request}
      {next : q.Answer → Talk α} {i : Nat} {queue : List (Talk α × Nat)} :
    Step ⟨r, before ++ ⟨finished, (.ask q next, i) :: queue⟩ :: after⟩
      ⟨(q.serve r).2, before ++ ⟨finished, (next (q.serve r).1, i) :: queue⟩ :: after⟩
  | finish {r : Registry} {before after : List (Worker α)} {finished : List (α × Nat)} {a : α}
      {i : Nat} {queue : List (Talk α × Nat)} :
    Step ⟨r, before ++ ⟨finished, (.done a, i) :: queue⟩ :: after⟩
      ⟨r, before ++ ⟨finished ++ [(a, i)], queue⟩ :: after⟩

namespace Pool

/-- The talks dealt out to `n` workers. -/
def start (n : Nat) (talks : List (Talk α)) : Pool α where
  registry := {}
  workers := (List.range n).map fun w =>
    { queue := talks.zipIdx.filter fun item => item.2 % n == w }

/-- One interleaving of the workers leads from one pool to the other. -/
abbrev Reaches : Pool α → Pool α → Prop := Relation.ReflTransGen Step

/-- No worker has anything left to do. -/
def IsDone (p : Pool α) : Prop := ∀ w ∈ p.workers, w.queue = []

/-- What the workers return, one worker after the other. -/
def results (p : Pool α) : List (α × Nat) := p.workers.flatMap (·.finished)

/-- What the workers have returned or are going to return. -/
def promised (p : Pool α) : List (α × Nat) :=
  p.workers.flatMap fun w => w.finished ++ w.queue.map fun item => (item.1.outcome, item.2)

/-- What the workers are going to ask for. -/
def pending (p : Pool α) : List Request := p.workers.flatMap fun w => w.queue.flatMap (·.1.asks)

/-- The registry has the helper, or some worker is going to ask for it. -/
def Wants (p : Pool α) (q : Request) : Prop := p.registry.Has q ∨ ∃ q' ∈ p.pending, q.Alike q'

/-- The registry is sound, and the workers ask for helpers only. -/
structure Calm (p : Pool α) : Prop where
  sound : p.registry.Sound
  lookups : ∀ w ∈ p.workers, ∀ item ∈ w.queue, item.1.Lookups

/-- What is promised and what is wanted stays the same. -/
structure Keeps (p p' : Pool α) : Prop where
  calm : p'.Calm
  promised : p'.promised = p.promised
  wants : ∀ q, p'.Wants q ↔ p.Wants q

theorem keeps_step {p p' : Pool α} (hp : p.Calm) (h : Step p p') : p.Keeps p' := by
  obtain ⟨hsound, hlookups⟩ := hp
  cases h with
  | @serve r before after finished q next i queue =>
    simp only [List.forall_mem_append, List.forall_mem_cons] at hlookups
    obtain ⟨hbefore, ⟨hask, hqueue⟩, hafter⟩ := hlookups
    cases hask with
    | ask hq hnext =>
    obtain ⟨hans, hsound', hhas⟩ := hsound.serve hq
    rw [hans]
    refine ⟨⟨hsound', ?_⟩, ?_, fun q' => ?_⟩
    · simp only [List.forall_mem_append, List.forall_mem_cons]
      exact ⟨hbefore, ⟨hnext _, hqueue⟩, hafter⟩
    · simp [Pool.promised, Talk.outcome]
    · simp only [Wants, hhas, pending, Talk.asks, List.flatMap_append, List.flatMap_cons,
        List.mem_append, List.mem_cons, or_and_right, exists_or, exists_eq_left]
      grind
  | @finish r before after finished a i queue =>
    simp only [List.forall_mem_append, List.forall_mem_cons] at hlookups
    obtain ⟨hbefore, ⟨-, hqueue⟩, hafter⟩ := hlookups
    refine ⟨⟨hsound, ?_⟩, ?_, fun q' => ?_⟩
    · simp only [List.forall_mem_append, List.forall_mem_cons]
      exact ⟨hbefore, hqueue, hafter⟩
    · simp [Pool.promised, Talk.outcome]
    · simp only [Wants, pending, Talk.asks, List.flatMap_append, List.flatMap_cons, List.nil_append]

theorem keeps_reaches {p p' : Pool α} (hp : p.Calm) (h : p.Reaches p') : p.Keeps p' := by
  induction h with
  | refl => exact ⟨hp, rfl, fun _ => Iff.rfl⟩
  | tail _ hstep ih =>
    obtain ⟨hc, hpr, hw⟩ := keeps_step ih.calm hstep
    exact ⟨hc, hpr.trans ih.promised, fun q => (hw q).trans (ih.wants q)⟩

theorem calm_start (n : Nat) {talks : List (Talk α)} (h : ∀ t ∈ talks, t.Lookups) :
    (start n talks).Calm := by
  refine ⟨.empty, ?_⟩
  intro w hw item hitem
  obtain ⟨i, -, rfl⟩ := List.mem_map.mp hw
  exact h _ (List.fst_mem_of_mem_zipIdx (List.mem_filter.mp hitem).1)

theorem promised_start {n : Nat} (hn : 0 < n) (talks : List (Talk α)) :
    (start n talks).promised.Perm (talks.map Talk.outcome).zipIdx := by
  have hflat : (start n talks).promised =
      (schedule n talks).map fun item => (item.1.outcome, item.2) := by
    simp only [promised, start, List.flatMap_map, List.nil_append, schedule, List.map_flatMap]
  rw [hflat, List.zipIdx_map]
  exact (schedule_perm hn talks).map _

theorem wants_start {n : Nat} (hn : 0 < n) (talks : List (Talk α)) (q : Request) :
    (start n talks).Wants q ↔ ∃ t ∈ talks, ∃ q' ∈ t.asks, q.Alike q' := by
  have hflat : (start n talks).pending = (schedule n talks).flatMap (·.1.asks) := by
    simp only [pending, start, List.flatMap_map, schedule, List.flatMap_assoc]
  have hempty : ¬ (start n talks).registry.Has q := Registry.not_has_empty q
  rw [Wants, hflat, or_iff_right hempty,
    ← exists_mem_schedule hn (P := fun t : Talk α => ∃ q' ∈ t.asks, q.Alike q')]
  constructor
  · rintro ⟨q', hq', ha⟩
    obtain ⟨item, hitem, hq'⟩ := List.mem_flatMap.mp hq'
    exact ⟨item, hitem, q', hq', ha⟩
  · rintro ⟨item, hitem, q', hq', ha⟩
    exact ⟨q', List.mem_flatMap.mpr ⟨item, hitem, hq'⟩, ha⟩

/-- Every interleaving that is over has settled the talks. -/
theorem settled {n : Nat} (hn : 0 < n) {talks : List (Talk α)} (h : ∀ t ∈ talks, t.Lookups)
    {p : Pool α} (hp : (start n talks).Reaches p) (hdone : p.IsDone) :
    Settled talks (inOrder p.results) p.registry := by
  obtain ⟨hcalm, hpromised, hwants⟩ := keeps_reaches (calm_start n h) hp
  have hresults : p.promised = p.results := by
    refine List.flatMap_congr fun w hw => ?_
    rw [hdone w hw, List.map_nil, List.append_nil]
  have hpending : p.pending = [] := by
    refine List.flatMap_eq_nil_iff.mpr fun w hw => ?_
    rw [hdone w hw, List.flatMap_nil]
  refine ⟨inOrder_of_perm ?_, hcalm.sound, fun q => ?_⟩
  · rw [← hresults, hpromised]
    exact promised_start hn talks
  · rw [← wants_start hn talks q, ← hwants q, Wants, hpending]
    simp

/-- One talk can be held to its end. -/
theorem exists_reaches_talk (t : Talk α) (r : Registry) (before after : List (Worker α))
    (finished : List (α × Nat)) (i : Nat) (queue : List (Talk α × Nat)) :
    ∃ r' a, Reaches ⟨r, before ++ ⟨finished, (t, i) :: queue⟩ :: after⟩
      ⟨r', before ++ ⟨finished ++ [(a, i)], queue⟩ :: after⟩ := by
  induction t generalizing r with
  | done a => exact ⟨r, a, .single .finish⟩
  | ask q next ih =>
    obtain ⟨r', a, h⟩ := ih (q.serve r).1 (q.serve r).2
    exact ⟨r', a, .head .serve h⟩

/-- So can all talks of one worker. -/
theorem exists_reaches_queue (queue : List (Talk α × Nat)) (r : Registry)
    (before after : List (Worker α)) (finished : List (α × Nat)) :
    ∃ r' finished', Reaches ⟨r, before ++ ⟨finished, queue⟩ :: after⟩
      ⟨r', before ++ ⟨finished', []⟩ :: after⟩ := by
  induction queue generalizing r finished with
  | nil => exact ⟨r, finished, .refl⟩
  | cons item queue ih =>
    obtain ⟨r₁, a, h₁⟩ := exists_reaches_talk item.1 r before after finished item.2 queue
    obtain ⟨r₂, finished', h₂⟩ := ih r₁ (finished ++ [(a, item.2)])
    exact ⟨r₂, finished', h₁.trans h₂⟩

/-- And those of the workers behind the ones that are done. -/
theorem exists_reaches_done (after before : List (Worker α)) (r : Registry)
    (hbefore : ∀ w ∈ before, w.queue = []) :
    ∃ p', Reaches ⟨r, before ++ after⟩ p' ∧ p'.IsDone := by
  induction after generalizing before r with
  | nil => exact ⟨_, .refl, by simpa [IsDone] using hbefore⟩
  | cons w after ih =>
    obtain ⟨r', finished', h⟩ := exists_reaches_queue w.queue r before after w.finished
    have hnext : ∀ w ∈ before ++ [(⟨finished', []⟩ : Worker α)], w.queue = [] :=
      List.forall_mem_append.mpr ⟨hbefore, List.forall_mem_singleton.mpr rfl⟩
    obtain ⟨p', h', hdone⟩ := ih (before ++ [⟨finished', []⟩]) r' hnext
    rw [List.append_assoc, List.singleton_append] at h'
    exact ⟨p', h.trans h', hdone⟩

/-- Whatever has happened so far, the workers can finish. -/
theorem can_finish (p : Pool α) : ∃ p', p.Reaches p' ∧ p'.IsDone :=
  exists_reaches_done p.workers [] p.registry (List.forall_mem_nil _)

end Pool

end Unwind.Workers
