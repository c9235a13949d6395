import Mathlib.Data.Set.List
import Unwind.Proofs.Marks.Telling
import Unwind.Proofs.Workers

/-!
# What an interleaving has exchanged

Every talk of an interleaving has a history: what it has asked for, and the answers that it got
while others were served in between. `Pool.Recorded` ties the histories of all talks to what
the workers hold and to the registry that they share: the numbers in them are those that the
registry has given out, each one once, and the registry has the helpers that they ask for. One
step keeps this true (`Pool.Recorded.step`), and when all workers are done, the histories say where
the results come from (`Pool.Recorded.results`). Workers that are run one after the other are one
of the interleavings (`Pool.reaches_run`).
-/

namespace Unwind.Workers

open Exchange (heard)

variable {α : Type}

/-! ## Histories -/

/-- A talk that is under way: what it was in the beginning, what was exchanged since, and what is
left of it. -/
structure Thread (α : Type) where
  begun : Talk α
  history : List Exchange
  now : Talk α
  follows : begun.Follows history now
  known : ∀ e ∈ history, e.IsKnown

/-- A talk that has not begun. -/
def Thread.start (t : Talk α) : Thread α := ⟨t, [], t, .start, nofun⟩

/-- The numbers that were given out in these histories for marks of one kind. -/
def numbers (k : Mark) (threads : List (Thread α)) : List UInt64 :=
  threads.flatMap fun d => heard k d.history

namespace Pool

/-- What the workers have finished and what they still hold, each talk with its position. -/
def items (p : Pool α) : List (Talk α × Nat) :=
  p.workers.flatMap fun w => w.finished.map (fun r => (.done r.1, r.2)) ++ w.queue

/-- The threads are the histories of the talks in this pool. -/
structure Recorded (talks : List (Talk α)) (threads : List (Thread α)) (p : Pool α) : Prop where
  begun : threads.map Thread.begun = talks
  items : p.items.Perm (threads.map Thread.now).zipIdx
  sound : p.registry.Sound
  counter : ∀ k : Mark, k.counter p.registry = .ofNat (numbers k threads).length
  numbers : ∀ k, (numbers k threads).Perm ((List.range (numbers k threads).length).map .ofNat)
  has_iff : ∀ q, p.registry.Has q ↔ ∃ d ∈ threads, ∃ e ∈ d.history, q.Alike e.request

theorem recorded_start {n : Nat} (hn : 0 < n) (talks : List (Talk α)) :
    Recorded talks (talks.map .start) (start n talks) := by
  have hnumbers : ∀ k, Workers.numbers k (talks.map Thread.start) = [] := by
    intro k
    rw [Workers.numbers, List.flatMap_map]
    exact List.flatMap_eq_nil_iff.mpr fun _ _ => rfl
  have hnow : ((talks.map Thread.start).map Thread.now) = talks := by
    rw [List.map_map]
    exact List.map_id _
  refine ⟨?_, ?_, .empty, fun k => ?_, fun k => ?_, fun q => ?_⟩
  · rw [List.map_map]
    exact List.map_id _
  · rw [hnow]
    refine .trans (.of_eq ?_) (schedule_perm hn talks)
    simp only [Pool.items, start, List.flatMap_map, List.map_nil, List.nil_append, schedule]
  · rw [hnumbers]
    cases k <;> rfl
  · rw [hnumbers]
    exact .nil
  · simp [start, Registry.not_has_empty, Thread.start]

end Pool

/-! ## Steps -/

/-- The talk with the answer to its request. -/
def Thread.answered (d : Thread α) {q : Request} {next : q.Answer → Talk α}
    (hnow : d.now = .ask q next) {x : q.Answer} (hx : q.IsLookup → x = q.answer) : Thread α where
  begun := d.begun
  history := d.history ++ [⟨q, x⟩]
  now := next x
  follows := .ask x (hnow ▸ d.follows)
  known := by
    rw [List.forall_mem_append, List.forall_mem_singleton]
    exact ⟨d.known, hx⟩

/-- A talk that some worker holds is that of some thread. -/
theorem exists_thread {threads : List (Thread α)} {t : Talk α} {i : Nat}
    (h : (t, i) ∈ (threads.map Thread.now).zipIdx) :
    ∃ ds d ds', threads = ds ++ d :: ds' ∧ ds.length = i ∧ d.now = t := by
  have hi := List.mem_zipIdx_iff_getElem?.mp h
  rw [List.getElem?_map, Option.map_eq_some_iff] at hi
  obtain ⟨d, hd, hnow⟩ := hi
  obtain ⟨hlt, rfl⟩ := List.getElem?_eq_some_iff.mp hd
  refine ⟨threads.take i, threads[i], threads.drop (i + 1), ?_, ?_, hnow⟩
  · rw [← List.drop_eq_getElem_cons hlt, List.take_append_drop]
  · exact List.length_take_of_le (Nat.le_of_lt hlt)

/-- Another talk at one position. -/
theorem perm_replace {ds ds' : List (Talk α)} {before after : List (Talk α × Nat)}
    {t t' : Talk α} (h : (before ++ (t, ds.length) :: after).Perm (ds ++ t :: ds').zipIdx) :
    (before ++ (t', ds.length) :: after).Perm (ds ++ t' :: ds').zipIdx := by
  rw [List.zipIdx_append, List.zipIdx_cons, Nat.zero_add] at h ⊢
  have hrest := (List.perm_middle.symm.trans (h.trans List.perm_middle)).cons_inv
  exact List.perm_middle.trans ((hrest.cons _).trans List.perm_middle.symm)

/-- An answer adds its number, if it is one. -/
theorem numbers_answered (k : Mark) (ds ds' : List (Thread α)) (d : Thread α) {q : Request}
    {next : q.Answer → Talk α} (hnow : d.now = .ask q next) {x : q.Answer}
    (hx : q.IsLookup → x = q.answer) :
    (numbers k (ds ++ d.answered hnow hx :: ds')).Perm
      (numbers k (ds ++ d :: ds') ++ Exchange.number k ⟨q, x⟩) := by
  have hheard : heard k (d.answered hnow hx).history =
      heard k d.history ++ Exchange.number k ⟨q, x⟩ := by
    rw [Thread.answered, heard, List.flatMap_append, List.flatMap_singleton, ← heard]
  simp only [numbers, List.flatMap_append, List.flatMap_cons, hheard, List.append_assoc]
  exact (List.perm_append_comm.append_left _).append_left _

/-- The number that a registry gives out is that of its counter. -/
theorem number_serve (k : Mark) (q : Request) (r : Registry) :
    Exchange.number k ⟨q, (q.serve r).1⟩ = if q.mark? = some k then [k.counter r] else [] := by
  cases q <;> cases k <;> rfl

namespace Pool.Recorded

variable {talks : List (Talk α)} {threads : List (Thread α)} {p p' : Pool α}

/-- One step more is recorded in the history of one talk. -/
theorem step (h : Recorded talks threads p) (hstep : Step p p') :
    ∃ threads', Recorded talks threads' p' := by
  cases hstep with
  | @finish r before after finished a i queue =>
    refine ⟨threads, h.begun, ?_, h.sound, h.counter, h.numbers, h.has_iff⟩
    refine .trans (.of_eq ?_) h.items
    simp [Pool.items]
  | @serve r before after finished q next i queue =>
    have hitems := h.items
    simp only [Pool.items, List.flatMap_append, List.flatMap_cons, List.append_assoc,
      List.cons_append] at hitems
    rw [← List.append_assoc] at hitems
    obtain ⟨ds, d, ds', rfl, rfl, hnow⟩ :=
      exists_thread (hitems.mem_iff.mp (List.mem_append_right _ List.mem_cons_self))
    obtain ⟨-, -, hhas⟩ := h.sound.serve_tell q
    have hknown : q.IsLookup → (q.serve r).1 = q.answer := fun hq => (h.sound.serve hq).1
    refine ⟨ds ++ d.answered hnow hknown :: ds', ?_, ?_, h.sound.serve_sound q, ?_, ?_, ?_⟩
    · rw [← h.begun, List.map_append, List.map_cons, List.map_append, List.map_cons]
      rfl
    · simp only [Pool.items, List.flatMap_append, List.flatMap_cons, List.append_assoc,
        List.cons_append]
      rw [← List.append_assoc, List.map_append, List.map_cons, ← List.length_map Thread.now]
      refine perm_replace (t := .ask q next) ?_
      rwa [List.map_append, List.map_cons, hnow, ← List.length_map Thread.now] at hitems
    · intro k
      rw [(numbers_answered k ds ds' d hnow hknown).length_eq, List.length_append,
        k.counter_serve_eq, h.counter, number_serve, UInt64.ofNat_add]
      split <;> rfl
    · intro k
      have hperm := numbers_answered k ds ds' d hnow hknown
      rw [hperm.length_eq]
      refine hperm.trans ?_
      rw [number_serve]
      split
      · -- the number given out is the next one
        rw [List.length_append, List.length_singleton, List.range_succ, List.map_append,
          List.map_singleton, h.counter]
        exact (h.numbers k).append_right _
      · rw [List.append_nil]
        exact h.numbers k
    · intro q'
      rw [hhas, h.has_iff]
      simp only [List.mem_append, List.mem_cons, or_and_right, exists_or, exists_eq_left,
        Thread.answered, List.not_mem_nil, or_false]
      rw [or_left_comm, or_right_comm, or_comm (a := q'.Alike q)]

/-- Every interleaving has its histories. -/
theorem of_reaches (h : Recorded talks threads p) (hp : p.Reaches p') :
    ∃ threads', Recorded talks threads' p' := by
  induction hp with
  | refl => exact ⟨threads, h⟩
  | tail _ hstep ih =>
    obtain ⟨threads', h'⟩ := ih
    exact h'.step hstep

/-- When all workers are done, so are the threads, and they tell the results. -/
theorem results (h : Recorded talks threads p) (hdone : p.IsDone) :
    threads.map Thread.now = (inOrder p.results).map .done := by
  have hitems : p.items = p.results.map (Prod.map .done id) := by
    rw [Pool.items, Pool.results, List.map_flatMap]
    refine List.flatMap_congr fun w hw => ?_
    rw [hdone w hw, List.append_nil]
    rfl
  have hperm := hitems ▸ h.items
  have hall : ∀ t ∈ threads.map Thread.now, t ∈ Set.range (Talk.done (α := α)) := by
    intro t ht
    obtain ⟨i, hi⟩ := List.mem_iff_getElem?.mp ht
    have hmem : (t, i) ∈ (threads.map Thread.now).zipIdx := List.mem_zipIdx_iff_getElem?.mpr hi
    obtain ⟨r, -, hr⟩ := List.mem_map.mp (hperm.mem_iff.mpr hmem)
    exact ⟨r.1, congrArg Prod.fst hr⟩
  obtain ⟨xs, hxs⟩ : threads.map Thread.now ∈ Set.range (List.map (Talk.done (α := α))) := by
    rw [Set.range_list_map]
    exact hall
  rw [← hxs, List.zipIdx_map] at hperm
  have hinj : Function.Injective (Prod.map (Talk.done (α := α)) (id : Nat → Nat)) :=
    Function.Injective.prodMap (fun _ _ h => Talk.done.inj h) Function.injective_id
  rw [← hxs, inOrder_of_perm ((List.map_perm_map_iff hinj).mp hperm)]

end Pool.Recorded

/-! ## One worker after the other -/

theorem schedule_map {β γ : Type} (f : β → γ) (n : Nat) (items : List β) :
    schedule n (items.map f) = (schedule n items).map (Prod.map f id) := by
  unfold schedule
  rw [List.map_flatMap, List.zipIdx_map]
  refine List.flatMap_congr fun w _ => ?_
  rw [List.filter_map]
  rfl

namespace Pool

/-- Hold talks one after the other. -/
def holdAll (queue : List (Talk α × Nat)) : StateM Registry (List (α × Nat)) :=
  queue.mapM fun item => return (← (item.1.run : StateM Registry α), item.2)

theorem run_holdAll_cons (t : Talk α) (i : Nat) (queue : List (Talk α × Nat)) (r : Registry) :
    (holdAll ((t, i) :: queue)).run r =
      (((t.run r).1, i) :: ((holdAll queue).run (t.run r).2).1,
        ((holdAll queue).run (t.run r).2).2) := by
  rw [holdAll, List.mapM_cons]
  rfl

theorem run_holdAll_append (queue queue' : List (Talk α × Nat)) (r : Registry) :
    (holdAll (queue ++ queue')).run r =
      (((holdAll queue).run r).1 ++ ((holdAll queue').run ((holdAll queue).run r).2).1,
        ((holdAll queue').run ((holdAll queue).run r).2).2) := by
  rw [holdAll, List.mapM_append]
  rfl

/-- One talk is held to its end. -/
theorem reaches_talk (t : Talk α) (r : Registry) (before after : List (Worker α))
    (finished : List (α × Nat)) (i : Nat) (queue : List (Talk α × Nat)) :
    Reaches ⟨r, before ++ ⟨finished, (t, i) :: queue⟩ :: after⟩
      ⟨(t.run r).2, before ++ ⟨finished ++ [((t.run r).1, i)], queue⟩ :: after⟩ := by
  induction t generalizing r with
  | done a => exact .single .finish
  | ask q next ih => exact .head .serve (ih (q.serve r).1 (q.serve r).2)

/-- One worker holds all its talks. -/
theorem reaches_queue (queue : List (Talk α × Nat)) (r : Registry)
    (before after : List (Worker α)) (finished : List (α × Nat)) :
    Reaches ⟨r, before ++ ⟨finished, queue⟩ :: after⟩
      ⟨((holdAll queue).run r).2,
        before ++ ⟨finished ++ ((holdAll queue).run r).1, []⟩ :: after⟩ := by
  induction queue generalizing r finished with
  | nil =>
    rw [show ((holdAll []).run r : List (α × Nat) × Registry) = ([], r) from rfl,
      List.append_nil]
  | cons item queue ih =>
    obtain ⟨t, i⟩ := item
    rw [run_holdAll_cons]
    refine (reaches_talk t r before after finished i queue).trans ?_
    have h := ih (t.run r).2 (finished ++ [((t.run r).1, i)])
    rwa [List.append_assoc, List.singleton_append] at h

/-- The workers hold their talks one after the other. -/
theorem reaches_all (queues : List (List (Talk α × Nat))) (r : Registry)
    (before : List (Worker α)) :
    ∃ ws : List (Worker α), (∀ w ∈ ws, w.queue = []) ∧
      ws.flatMap (·.finished) = ((holdAll queues.flatten).run r).1 ∧
      Reaches ⟨r, before ++ queues.map (.mk [])⟩
        ⟨((holdAll queues.flatten).run r).2, before ++ ws⟩ := by
  induction queues generalizing r before with
  | nil => exact ⟨[], nofun, rfl, .refl⟩
  | cons queue queues ih =>
    let worker : Worker α := ⟨((holdAll queue).run r).1, []⟩
    obtain ⟨ws, hdone, hfinished, hreaches⟩ := ih ((holdAll queue).run r).2 (before ++ [worker])
    have hfirst := reaches_queue queue r before (queues.map (.mk [])) []
    rw [List.append_assoc, List.append_assoc, List.singleton_append, List.singleton_append]
      at hreaches
    rw [List.flatten_cons, run_holdAll_append]
    exact ⟨worker :: ws, List.forall_mem_cons.mpr ⟨rfl, hdone⟩,
      congrArg (worker.finished ++ ·) hfinished, hfirst.trans hreaches⟩

/-- Workers that are run one after the other are one of the interleavings. -/
theorem reaches_run (n : Nat) (talks : List (Talk α)) :
    ∃ p : Pool α, (start n talks).Reaches p ∧ p.IsDone ∧
      (Workers.run n (fun t => (t.run : StateM Registry α)) talks).run {} =
        (inOrder p.results, p.registry) := by
  let queues := (List.range n).map fun w => talks.zipIdx.filter fun item => item.2 % n == w
  obtain ⟨ws, hdone, hfinished, hreaches⟩ := reaches_all queues {} []
  refine ⟨⟨((holdAll queues.flatten).run {}).2, ws⟩, ?_, hdone, ?_⟩
  · have hstart : start n talks = ⟨{}, [] ++ queues.map (.mk [])⟩ := by
      rw [List.nil_append, List.map_map]
      rfl
    rw [hstart]
    exact hreaches
  · have hflat : queues.flatten = schedule n talks := List.flatMap_def.symm
    rw [Pool.results, hfinished, hflat]
    rfl

end Pool

end Unwind.Workers
