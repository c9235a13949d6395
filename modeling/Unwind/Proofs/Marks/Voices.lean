import Mathlib.Algebra.Group.Nat.Defs
import Mathlib.Data.List.GetD
import Unwind.Proofs.Marks.Renumbering
import Unwind.Proofs.Marks.Telling

/-!
# Talks that only carry their numbers

`Talk.Voices` says that a talk is what the compilation of a method asks the registry for. Between
its requests others may be served, so that the numbers it is told need not follow each other; but
all that it does with them is to put them into marks. What becomes of the method is therefore what
becomes of it alone, with the numbers that were heard in place of those from zero on
(`Talk.Voices.eq_renumber`).
-/

namespace Unwind

open Ir (Cmd Procedure)
open Lowering (Shared)

/-- Registries that have the same helpers and are going to give out the same numbers. -/
structure Registry.Same (r r' : Registry) : Prop where
  counter : ∀ k : Mark, k.counter r = k.counter r'
  has_iff : ∀ q, r.Has q ↔ r'.Has q

theorem Registry.Same.trans {r r₁ r' : Registry} (h : r.Same r₁) (h' : r₁.Same r') : r.Same r' :=
  ⟨fun k => (h.counter k).trans (h'.counter k), fun q => (h.has_iff q).trans (h'.has_iff q)⟩

namespace Talk

open Exchange (heard)

/-- Registries that are the same are talked to alike. -/
theorem run_same {α : Type} (t : Talk α) {r r' : Registry} (hr : r.Sound) (hr' : r'.Sound)
    (h : r.Same r') : (t.run r).1 = (t.run r').1 ∧ (t.run r).2.Same (t.run r').2 := by
  have hup : r.upcoming = r'.upcoming := by
    funext k i
    exact congrArg (· + UInt64.ofNat i) (h.counter k)
  obtain ⟨hres, hcounter, hhas⟩ := t.run_told hr
  obtain ⟨hres', hcounter', hhas'⟩ := t.run_told hr'
  refine ⟨by rw [hres, hres', hup], fun k => ?_, fun q => ?_⟩
  · rw [hcounter, hcounter', hup, h.counter]
  · rw [hhas, hhas', hup, h.has_iff]

/-- The talk is what a step asks the registry for, one request after the other: run in one go, the
step is the talk; what is asked for does not depend on numbers; and the talk does nothing with
the numbers it is told but put them into marks. -/
structure Voices (t : Talk (Except Fault Procedure))
    (act : StateM Shared (Except Fault Procedure)) : Prop where
  performs : ∀ shared, shared.registry.Sound →
    (t.run shared.registry).1 = (act.run shared).1 ∧
      (t.run shared.registry).2.Same (act.run shared).2.registry
  requests_eq : ∀ N N', t.requests N = t.requests N'
  told_map : ∀ (ν : Mark → UInt64 → UInt64) (N : Numbers),
    t.told (fun k => (N k).map (ν k)) = (t.told N).map (Procedure.renumber ν)

namespace Voices

variable {t : Talk (Except Fault Procedure)} {act : StateM Shared (Except Fault Procedure)}
  {es : List Exchange} {a : Except Fault Procedure}

/-- What becomes of the method alone is told by the numbers from zero on. -/
theorem told_alone (h : t.Voices act) : t.told (Registry.upcoming {}) = (act.run {}).1 := by
  rw [← (h.performs {} .empty).1]
  exact (t.run_told .empty).1.symm

/-- A talk that is over has asked for all that it asks for. -/
theorem requests_of_follows (h : t.Voices act) (hf : t.Follows es (.done a))
    (hknown : ∀ e ∈ es, e.IsKnown) (N : Numbers) : t.requests N = es.map (·.request) := by
  rw [h.requests_eq N fun k => heard k es ++ₛ N k, (hf.told hknown N).2]
  exact List.append_nil _

theorem count_requests (h : t.Voices act) (hf : t.Follows es (.done a))
    (hknown : ∀ e ∈ es, e.IsKnown) (k : Mark) (N : Numbers) :
    k.count (t.requests N) = (heard k es).length := by
  rw [h.requests_of_follows hf hknown, Exchange.length_heard]

/-- Alone, the method leaves the helpers that the talk has asked for. -/
theorem has_alone_iff (h : t.Voices act) (hf : t.Follows es (.done a))
    (hknown : ∀ e ∈ es, e.IsKnown) (q : Request) :
    (act.run {}).2.registry.Has q ↔ ∃ e ∈ es, q.Alike e.request := by
  rw [← (h.performs {} .empty).2.has_iff, (t.run_told .empty).2.2,
    h.requests_of_follows hf hknown]
  simp [Registry.not_has_empty]

/-- With all numbers struck out, what becomes of the method is what becomes of it alone. -/
theorem unnumbered_eq (h : t.Voices act) (hf : t.Follows es (.done a))
    (hknown : ∀ e ∈ es, e.IsKnown) :
    a.map Procedure.unnumbered = (act.run {}).1.map Procedure.unnumbered := by
  let N : Numbers := Registry.upcoming {}
  calc a.map Procedure.unnumbered
      = t.told fun k => (heard k es ++ₛ N k).map fun _ => 0 := by
        rw [h.told_map fun _ _ => 0, (hf.told hknown N).1]
        rfl
    _ = t.told fun k => (N k).map fun _ => 0 := rfl
    _ = (act.run {}).1.map Procedure.unnumbered := by
        rw [h.told_map fun _ _ => 0, h.told_alone]
        rfl

/-- The number that was heard in place of `n`, the numbers being counted from zero on. -/
def heardAt (es : List Exchange) (k : Mark) (n : UInt64) : UInt64 := (heard k es).getD n.toNat 0

end Voices

/-! ## A talk for every method -/

/-- Make these requests one after the other, and go on with what was exchanged. -/
def askAll {α : Type} : List Request → (List Exchange → Talk α) → Talk α
  | [], f => f []
  | q :: qs, f => ask q fun x => askAll qs fun es => f (⟨q, x⟩ :: es)

/-- What is exchanged when numbers are given out in this order. -/
def exchanged : List Request → Numbers → List Exchange
  | [], _ => []
  | q :: qs, N => ⟨q, q.tell N⟩ :: exchanged qs (q.rest N)

theorem told_askAll {α : Type} (qs : List Request) (g : List Exchange → α) (N : Numbers) :
    (askAll qs fun es => done (g es)).told N = g (exchanged qs N) ∧
      (askAll qs fun es => done (g es)).requests N = qs := by
  induction qs generalizing g N with
  | nil => exact ⟨rfl, rfl⟩
  | cons q qs ih =>
    obtain ⟨htold, hrequests⟩ := ih (fun es => g (⟨q, q.tell N⟩ :: es)) (q.rest N)
    exact ⟨htold, congrArg (q :: ·) hrequests⟩

theorem heard_exchanged (k : Mark) (qs : List Request) (N : Numbers) :
    heard k (exchanged qs N) = (N k).take (k.count qs) := by
  induction qs generalizing N with
  | nil => rfl
  | cons q qs ih =>
    have hcons : heard k (exchanged (q :: qs) N) =
        Exchange.number k ⟨q, q.tell N⟩ ++ heard k (exchanged qs (q.rest N)) := rfl
    rw [hcons, ih, Mark.count, Mark.count, List.countP_cons]
    cases q with
    | structCopy | recorder => rfl
    | breadcrumb => cases k <;> rfl
    | captureState => cases k <;> rfl

/-- The helpers that a registry has, as requests. -/
def lookups (r : Registry) : List Request :=
  r.structCopies.entries.map (fun e => .structCopy e.1) ++
    r.recorders.entries.map fun e => .recorder e.1

theorem has_iff_lookups {r : Registry} (hr : r.Sound) (q : Request) :
    r.Has q ↔ ∃ q' ∈ lookups r, q.Alike q' := by
  have hmem {κ : Type} {make : κ → Procedure} {m : Memo κ Procedure} (hm : m.MadeBy make)
      (key : κ) : make key ∈ m.values ↔ ∃ e ∈ m.entries, make key = make e.1 := by
    rw [Memo.values, List.mem_map]
    refine exists_congr fun e => and_congr_right fun he => ?_
    rw [hm.made e he, eq_comm]
  have hsplit : (∃ q' ∈ lookups r, q.Alike q') ↔
      (∃ e ∈ r.structCopies.entries, q.Alike (.structCopy e.1)) ∨
        ∃ e ∈ r.recorders.entries, q.Alike (.recorder e.1) := by
    simp only [lookups, List.mem_append, List.mem_map, or_and_right, exists_or,
      exists_exists_and_eq_and]
  rw [hsplit]
  cases q with
  | structCopy type => simpa [Request.Alike, Registry.Has] using hmem hr.structCopies type
  | recorder ty => simpa [Request.Alike, Registry.Has] using hmem hr.recorders ty
  | breadcrumb | captureState => simp [Request.Alike, Registry.Has]

/-- The requests of a method: the helpers that it leaves, then the numbers for its marks. -/
def script (r : Registry) (n : Mark → Nat) : List Request :=
  lookups r ++ (List.replicate (n .branch) .breadcrumb ++ List.replicate (n .state) .captureState)

theorem count_script (r : Registry) (n : Mark → Nat) (k : Mark) : k.count (script r n) = n k := by
  have hlookups : k.count (lookups r) = 0 := by
    rw [Mark.count, List.countP_eq_zero]
    intro q hq
    rcases List.mem_append.mp hq with hq | hq
    · obtain ⟨e, -, rfl⟩ := List.mem_map.mp hq
      exact Bool.false_ne_true
    · obtain ⟨e, -, rfl⟩ := List.mem_map.mp hq
      exact Bool.false_ne_true
  rw [script, Mark.count, List.countP_append, ← Mark.count, hlookups, List.countP_append,
    List.countP_replicate, List.countP_replicate, Nat.zero_add]
  cases k <;> simp [Request.mark?]

theorem exists_alike_script (r : Registry) (n : Mark → Nat) (q : Request) :
    (∃ q' ∈ script r n, q.Alike q') ↔ ∃ q' ∈ lookups r, q.Alike q' := by
  constructor
  · rintro ⟨q', hq', ha⟩
    rcases List.mem_append.mp hq' with hq' | hq'
    · exact ⟨q', hq', ha⟩
    · rcases List.mem_append.mp hq' with hq' | hq'
      · rw [List.eq_of_mem_replicate hq'] at ha
        cases q <;> exact ha.elim
      · rw [List.eq_of_mem_replicate hq'] at ha
        cases q <;> exact ha.elim
  · rintro ⟨q', hq', ha⟩
    exact ⟨q', List.mem_append_left _ hq', ha⟩

/-- A method that becomes on top of others what it becomes alone, with shifted numbers, is some
talk, which asks for the numbers of its marks. -/
theorem exists_voices {act : StateM Shared (Except Fault Procedure)}
    (halone : ∀ shared, shared.registry.Sound →
      (act.run shared).1 = (act.run {}).1.map (Procedure.renumber shared.registry.shift) ∧
        shared.registry.Atop (act.run {}).2.registry (act.run shared).2.registry)
    (n : Mark → Nat) (hn : ∀ k : Mark, k.counter (act.run {}).2.registry = .ofNat (n k))
    (hmarks : ∀ q, (act.run {}).1 = .ok q → ∀ k : Mark,
      (q.noted k.key).Perm (k.interval 0 (n k))) :
    ∃ t : Talk (Except Fault Procedure), t.Voices act ∧
      ∀ (k : Mark) (N : Numbers), k.count (t.requests N) = n k := by
  let qs := script (act.run {}).2.registry n
  let g (es : List Exchange) := (act.run {}).1.map (Procedure.renumber (Voices.heardAt es))
  -- a number that stands in a mark is one of those that are asked for
  have hheard : ∀ (N : Numbers) (ν : Mark → UInt64 → UInt64),
      (∀ k, ∀ x : UInt64, x.toNat < n k → (N k).get x.toNat = ν k x) →
        g (exchanged qs N) = (act.run {}).1.map (Procedure.renumber ν) := by
    intro N ν hN
    cases hq : (act.run {}).1 with
    | error e => simp only [g, hq]; rfl
    | ok q =>
      simp only [g, hq]
      refine congrArg Except.ok (Procedure.renumber_congr fun k x hx => ?_)
      obtain ⟨i, hi, hxi⟩ := List.mem_map.mp ((hmarks q hq k).mem_iff.mp hx)
      have hx : .ofNat i = x := by
        rw [← UInt64.zero_add (.ofNat i)]
        exact k.values_note_injective hxi
      have hlt : x.toNat < n k := by
        rw [← hx, UInt64.toNat_ofNat']
        exact Nat.lt_of_le_of_lt (Nat.mod_le _ _) (List.mem_range.mp hi)
      rw [Voices.heardAt, heard_exchanged, count_script,
        List.getD_eq_getElem _ _ (by rwa [Stream'.length_take]), Stream'.take_get, hN k x hlt]
  have htold (N : Numbers) := told_askAll qs g N
  refine ⟨askAll qs fun es => done (g es), ⟨?_, fun N N' => ?_, fun ν N => ?_⟩, fun k N => ?_⟩
  · intro shared hs
    obtain ⟨hres, hcounter, hhas⟩ := (askAll qs fun es => done (g es)).run_told hs
    obtain ⟨hact, hatop⟩ := halone shared hs
    rw [(htold _).2] at hcounter hhas
    refine ⟨?_, fun k => ?_, fun q => ?_⟩
    · rw [hres, (htold _).1, hact]
      refine hheard _ _ fun k x _ => ?_
      show k.counter _ + .ofNat x.toNat = _
      rw [UInt64.ofNat_toNat]
      rfl
    · rw [hcounter, hatop.counter, hn, count_script]
    · rw [hhas, hatop.has_iff, exists_alike_script, ← has_iff_lookups hatop.sound, or_comm]
  · rw [(htold N).2, (htold N').2]
  · let told (k : Mark) (x : UInt64) := (N k).get x.toNat
    rw [(htold _).1, (htold N).1, hheard N told fun _ _ _ => rfl,
      hheard _ (fun k x => ν k (told k x)) fun _ _ _ => rfl]
    cases (act.run {}).1 with
    | error e => rfl
    | ok q => exact congrArg Except.ok (q.renumber_renumber told ν).symm
  · rw [(htold N).2, count_script]

end Talk

end Unwind
