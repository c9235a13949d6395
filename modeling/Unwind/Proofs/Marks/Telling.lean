import Mathlib.Data.Stream.Init
import Unwind.Proofs.Marks.Numbers

/-!
# Talks that are told their numbers

In an interleaving of several talks, the numbers that one of them is given depend on all the others.
`Talk.told` is the result of a talk that is given the numbers of a stream for every kind of mark,
and `Talk.requests` lists what it asks for meanwhile; helpers get the names that are known
beforehand. What a talk has exchanged with the registry so far decides with which numbers it goes on
(`Talk.Follows.told`), and a talk that is run in one go is told the numbers that come next
(`Talk.run_told`).
-/

namespace Unwind

/-! ## Streams of numbers -/

/-- The numbers that are given out for each kind of mark, in order. -/
abbrev Numbers := Mark → Stream' UInt64

namespace Request

/-- The kind of mark that a number is requested for. -/
def mark? : Request → Option Mark
  | breadcrumb => some .branch
  | captureState => some .state
  | _ => none

/-- The answer when numbers are given out in this order. -/
def tell : (q : Request) → Numbers → q.Answer
  | structCopy type, _ => (Registry.structCopyDecl type).name
  | recorder ty, _ => (Registry.recorderDecl ty).name
  | breadcrumb, N => (N .branch).head
  | captureState, N => (N .state).head

/-- The numbers that are left after the request. -/
def rest (q : Request) (N : Numbers) : Numbers := fun k =>
  if q.mark? = some k then (N k).tail else N k

end Request

/-- The numbers that a registry is going to give out. -/
def Registry.upcoming (r : Registry) : Numbers := fun k i => k.counter r + .ofNat i

/-- How often a number is requested for a mark of this kind. -/
def Mark.count (k : Mark) (qs : List Request) : Nat := qs.countP (·.mark? == some k)

/-- A request moves the counter that it is for. -/
theorem Mark.counter_serve_eq (k : Mark) (q : Request) (r : Registry) :
    k.counter (q.serve r).2 = k.counter r + if q.mark? = some k then 1 else 0 := by
  cases q with
  | structCopy type =>
    rw [if_neg nofun, UInt64.add_zero]
    exact k.counter_serve (q := .structCopy type) trivial r
  | recorder ty =>
    rw [if_neg nofun, UInt64.add_zero]
    exact k.counter_serve (q := .recorder ty) trivial r
  | breadcrumb => exact (Mark.branch.counter_next k r).trans (by simp [Request.mark?, eq_comm])
  | captureState => exact (Mark.state.counter_next k r).trans (by simp [Request.mark?, eq_comm])

/-- A sound registry tells its upcoming numbers, and has what was asked for. -/
theorem Registry.Sound.serve_tell {r : Registry} (h : r.Sound) (q : Request) :
    (q.serve r).1 = q.tell r.upcoming ∧ (q.serve r).2.upcoming = q.rest r.upcoming ∧
      ∀ q', (q.serve r).2.Has q' ↔ q'.Alike q ∨ r.Has q' := by
  refine ⟨?_, ?_, fun q' => ?_⟩
  · cases q with
    | structCopy type => exact (h.serve (q := .structCopy type) trivial).1
    | recorder ty => exact (h.serve (q := .recorder ty) trivial).1
    | breadcrumb | captureState => exact (UInt64.add_zero _).symm
  · funext k i
    show k.counter (q.serve r).2 + .ofNat i = q.rest r.upcoming k i
    rw [k.counter_serve_eq, Request.rest]
    split
    · show k.counter r + 1 + .ofNat i = k.counter r + .ofNat (i + 1)
      rw [UInt64.add_assoc, Nat.add_comm i 1, UInt64.ofNat_add]
      rfl
    · rw [UInt64.add_zero]
      rfl
  · cases q with
    | structCopy type => exact (h.serve (q := .structCopy type) trivial).2.2 q'
    | recorder ty => exact (h.serve (q := .recorder ty) trivial).2.2 q'
    | breadcrumb =>
      rw [show (Request.breadcrumb.serve r).2 = (Mark.branch.next r).2 from rfl, Mark.has_next]
      cases q' <;> simp [Request.Alike]
    | captureState =>
      rw [show (Request.captureState.serve r).2 = (Mark.state.next r).2 from rfl, Mark.has_next]
      cases q' <;> simp [Request.Alike]

/-! ## Talks -/

namespace Talk

variable {α : Type}

/-- The result of the talk when numbers are given out in this order. -/
def told : Talk α → Numbers → α
  | done a, _ => a
  | ask q next, N => (next (q.tell N)).told (q.rest N)

/-- What the talk asks for when numbers are given out in this order. -/
def requests : Talk α → Numbers → List Request
  | done _, _ => []
  | ask q next, N => q :: (next (q.tell N)).requests (q.rest N)

/-- In a sound registry a talk is told the numbers that come next. Afterwards the registry has
what was asked for. -/
theorem run_told (t : Talk α) {r : Registry} (hr : r.Sound) :
    (t.run r).1 = t.told r.upcoming ∧
      (∀ k : Mark, k.counter (t.run r).2 =
        k.counter r + .ofNat (k.count (t.requests r.upcoming))) ∧
      ∀ q, (t.run r).2.Has q ↔ (∃ q' ∈ t.requests r.upcoming, q.Alike q') ∨ r.Has q := by
  induction t generalizing r with
  | done a => exact ⟨rfl, fun k => (UInt64.add_zero _).symm, fun q => by simp [run, requests]⟩
  | ask q next ih =>
    obtain ⟨htell, hrest, hserve⟩ := hr.serve_tell q
    obtain ⟨hres, hcounter, hhas⟩ := ih (q.serve r).1 (hr.serve_sound q)
    rw [run, told, requests, ← htell, ← hrest]
    refine ⟨hres, fun k => ?_, fun q' => ?_⟩
    · rw [hcounter, k.counter_serve_eq, UInt64.add_assoc, Mark.count, Mark.count, List.countP_cons,
        Nat.add_comm, UInt64.ofNat_add]
      congr 2
      by_cases hk : q.mark? = some k <;> simp [hk]
    · rw [hhas, hserve]
      simp only [List.mem_cons, exists_eq_or_imp]
      rw [or_left_comm, or_assoc]

end Talk

/-! ## What was exchanged so far -/

/-- A request and the answer it got. -/
structure Exchange where
  request : Request
  answer : request.Answer

namespace Exchange

/-- The number that was given out for a mark of this kind, if any. -/
def number (k : Mark) : Exchange → List UInt64
  | ⟨.breadcrumb, n⟩ => if k = .branch then [n] else []
  | ⟨.captureState, n⟩ => if k = .state then [n] else []
  | _ => []

/-- A helper got the name that is known beforehand. -/
def IsKnown (e : Exchange) : Prop := e.request.IsLookup → e.answer = e.request.answer

/-- The numbers that were given out for marks of this kind. -/
def heard (k : Mark) (es : List Exchange) : List UInt64 := es.flatMap (number k)

theorem length_heard (k : Mark) (es : List Exchange) :
    (heard k es).length = k.count (es.map (·.request)) := by
  induction es with
  | nil => rfl
  | cons e es ih =>
    rw [heard, List.flatMap_cons, List.length_append, ← heard, ih, Mark.count, Mark.count,
      List.map_cons, List.countP_cons, Nat.add_comm]
    congr 1
    obtain ⟨q, x⟩ := e
    cases q <;> cases k <;> rfl

/-- A request is told what the exchange says when its number comes first. -/
theorem IsKnown.tell {e : Exchange} (he : e.IsKnown) (N : Numbers) :
    e.request.tell (fun k => e.number k ++ₛ N k) = e.answer ∧
      e.request.rest (fun k => e.number k ++ₛ N k) = N := by
  obtain ⟨q, x⟩ := e
  cases q with
  | structCopy | recorder => exact ⟨(he trivial).symm, rfl⟩
  | breadcrumb => exact ⟨rfl, funext fun k => by cases k <;> rfl⟩
  | captureState => exact ⟨rfl, funext fun k => by cases k <;> rfl⟩

end Exchange

namespace Talk

open Exchange (heard)

variable {α : Type}

/-- After these exchanges the talk has become the other one. -/
inductive Follows (t : Talk α) : List Exchange → Talk α → Prop
  | start : Follows t [] t
  | ask {es : List Exchange} {q : Request} {next : q.Answer → Talk α} (x : q.Answer) :
    Follows t es (ask q next) → Follows t (es ++ [⟨q, x⟩]) (next x)

/-- The talk goes on with the numbers that come behind those it has heard. -/
theorem Follows.told {t t' : Talk α} {es : List Exchange} (h : Follows t es t')
    (hknown : ∀ e ∈ es, e.IsKnown) (N : Numbers) :
    t.told (fun k => heard k es ++ₛ N k) = t'.told N ∧
      t.requests (fun k => heard k es ++ₛ N k) = es.map (·.request) ++ t'.requests N := by
  induction h generalizing N with
  | start => exact ⟨rfl, rfl⟩
  | @ask es q next x h ih =>
    obtain ⟨hes, he⟩ := List.forall_mem_append.mp hknown
    obtain ⟨htell, hrest⟩ := (List.forall_mem_singleton.mp he).tell N
    have hheard (k : Mark) : heard k (es ++ [⟨q, x⟩]) ++ₛ N k =
        heard k es ++ₛ (Exchange.number k ⟨q, x⟩ ++ₛ N k) := by
      rw [heard, List.flatMap_append, List.flatMap_singleton, Stream'.append_append_stream, ← heard]
    simp only [hheard]
    obtain ⟨htold, hrequests⟩ := ih hes fun k => Exchange.number k ⟨q, x⟩ ++ₛ N k
    rw [htold, hrequests, Talk.told, requests]
    dsimp only at htell hrest
    rw [htell, hrest, List.map_append, List.append_assoc]
    exact ⟨rfl, rfl⟩

end Talk

end Unwind
