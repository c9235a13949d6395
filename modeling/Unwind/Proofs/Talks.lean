import Unwind.Lowering.Basic
import Unwind.Proofs.Registry

/-!
# Talks with the registry

The methods of a program are compiled at the same time, and the registry answers their requests one
by one. A `Talk` is a computation seen as the requests it makes: what it asks next depends on the
answers it has got, and between two of its requests others may be served. `Talk.Performs` says that
a step of a compilation, run in one go, is such a talk.

A talk that asks for helpers only has the same outcome whatever is asked in between, because a sound
registry gives it the answers that are known beforehand (`Talk.run_sound`).
-/

namespace Unwind

open Source (TypeRef)
open Lowering (Shared)

/-! ## Requests -/

/-- What a method may ask the registry for while it is compiled. -/
inductive Request where
  /-- The procedure that copies a struct. -/
  | structCopy (type : TypeRef)
  /-- The procedure that records values of a type. -/
  | recorder (ty : Ir.Ty)
  /-- The number of a breadcrumb. -/
  | breadcrumb
  /-- The number of a state. -/
  | captureState

namespace Request

/-- What a request is answered with: the name of a procedure, or a number. -/
def Answer : Request → Type
  | structCopy _ | recorder _ => String
  | breadcrumb | captureState => UInt64

/-- The registry answers a request, in one step. -/
def serve : (q : Request) → Registry → q.Answer × Registry
  | structCopy type, r => r.structCopy type
  | recorder ty, r => r.recorder ty
  | breadcrumb, r => r.nextBreadcrumb
  | captureState, r => r.nextCaptureState

/-- The request is for a helper, which is made when it is asked for the first time. -/
def IsLookup : Request → Prop
  | structCopy _ | recorder _ => True
  | breadcrumb | captureState => False

/-- The answer of a registry that has declared helpers only. -/
def answer : (q : Request) → q.Answer
  | structCopy type => (Registry.structCopyDecl type).name
  | recorder ty => (Registry.recorderDecl ty).name
  | breadcrumb => (0 : UInt64)
  | captureState => (0 : UInt64)

/-- Requests for the same helper. -/
def Alike : Request → Request → Prop
  | structCopy a, structCopy b => Registry.structCopyDecl a = Registry.structCopyDecl b
  | recorder a, recorder b => Registry.recorderDecl a = Registry.recorderDecl b
  | _, _ => False

end Request

namespace Registry

/-- The helper has been asked for. -/
def Has (r : Registry) : Request → Prop
  | .structCopy type => structCopyDecl type ∈ r.structCopies.values
  | .recorder ty => recorderDecl ty ∈ r.recorders.values
  | .breadcrumb | .captureState => False

theorem not_has_empty (q : Request) : ¬ Has {} q := by
  cases q <;> simp [Has, Memo.values]

/-- A sound registry gives the answer that is known beforehand, and has one helper more. -/
theorem Sound.serve {r : Registry} (h : r.Sound) {q : Request} (hq : q.IsLookup) :
    (q.serve r).1 = q.answer ∧ (q.serve r).2.Sound ∧
      ∀ q', (q.serve r).2.Has q' ↔ q'.Alike q ∨ r.Has q' := by
  cases q with
  | structCopy type =>
    obtain ⟨hv, hmade, hmem⟩ := h.structCopies.getOrInsertWith beq_iff_structCopyDecl type
    refine ⟨congrArg Ir.Procedure.name hv, ⟨hmade, h.recorders⟩, fun q' => ?_⟩
    cases q' with
    | structCopy type' => exact hmem _
    | _ => simp [Request.serve, Registry.structCopy, Has, Request.Alike]
  | recorder ty =>
    obtain ⟨hv, hmade, hmem⟩ := h.recorders.getOrInsertWith beq_iff_recorderDecl ty
    refine ⟨congrArg Ir.Procedure.name hv, ⟨h.structCopies, hmade⟩, fun q' => ?_⟩
    cases q' with
    | recorder ty' => exact hmem _
    | _ => simp [Request.serve, Registry.recorder, Has, Request.Alike]
  | breadcrumb | captureState => exact hq.elim

/-- Whatever is asked for, a sound registry stays sound. -/
theorem Sound.serve_sound {r : Registry} (h : r.Sound) (q : Request) : (q.serve r).2.Sound := by
  cases q with
  | structCopy type => exact (h.serve (q := .structCopy type) trivial).2.1
  | recorder ty => exact (h.serve (q := .recorder ty) trivial).2.1
  | breadcrumb | captureState => exact ⟨h.structCopies, h.recorders⟩

/-- Registries that have the same helpers declare them in the same order. -/
theorem Sound.helpers_eq_of_has {r r' : Registry} (h : r.Sound) (h' : r'.Sound)
    (hhas : ∀ q, r.Has q ↔ r'.Has q) : r.helpers = r'.helpers := by
  refine h.helpers_eq h' (fun p => ?_) (fun p => ?_)
  · constructor
    · intro hp
      obtain ⟨type, rfl⟩ := h.structCopies.mem_values hp
      exact (hhas (.structCopy type)).mp hp
    · intro hp
      obtain ⟨type, rfl⟩ := h'.structCopies.mem_values hp
      exact (hhas (.structCopy type)).mpr hp
  · constructor
    · intro hp
      obtain ⟨ty, rfl⟩ := h.recorders.mem_values hp
      exact (hhas (.recorder ty)).mp hp
    · intro hp
      obtain ⟨ty, rfl⟩ := h'.recorders.mem_values hp
      exact (hhas (.recorder ty)).mpr hp

end Registry

/-! ## Talks -/

/-- A computation that makes requests, one after the other. -/
inductive Talk (α : Type) where
  | done (result : α)
  | ask (q : Request) (next : q.Answer → Talk α)

namespace Talk

variable {α β : Type}

/-- The talk without anyone in between. -/
def run : Talk α → Registry → α × Registry
  | done a, r => (a, r)
  | ask q next, r => (next (q.serve r).1).run (q.serve r).2

/-- One talk after another. -/
def bind : Talk α → (α → Talk β) → Talk β
  | done a, f => f a
  | ask q next, f => ask q fun x => (next x).bind f

theorem run_bind (t : Talk α) (f : α → Talk β) (r : Registry) :
    (t.bind f).run r = (f (t.run r).1).run (t.run r).2 := by
  induction t generalizing r with
  | done a => rfl
  | ask q next ih => exact ih _ _

/-- The talk makes only requests that may be made, whatever it is answered. -/
inductive Only (may : Request → Prop) : Talk α → Prop
  | done (a : α) : Only may (done a)
  | ask {q : Request} {next : q.Answer → Talk α} : may q → (∀ x, Only may (next x)) →
    Only may (ask q next)

theorem Only.bind {may : Request → Prop} {t : Talk α} {f : α → Talk β} (ht : t.Only may)
    (hf : ∀ a, (f a).Only may) : (t.bind f).Only may := by
  induction ht with
  | done a => exact hf a
  | ask hq _ ih => exact .ask hq ih

/-- The talk asks for helpers only. -/
abbrev Lookups : Talk α → Prop := Only Request.IsLookup

/-- The result when every answer is the one known beforehand. -/
def outcome : Talk α → α
  | done a => a
  | ask q next => (next q.answer).outcome

/-- The requests when every answer is the one known beforehand. -/
def asks : Talk α → List Request
  | done _ => []
  | ask q next => q :: (next q.answer).asks

/-- In a sound registry the outcome of a talk is known, and so are the helpers it leaves. -/
theorem run_sound {t : Talk α} (ht : t.Lookups) {r : Registry} (hr : r.Sound) :
    (t.run r).1 = t.outcome ∧ (t.run r).2.Sound ∧
      ∀ q, (t.run r).2.Has q ↔ (∃ q' ∈ t.asks, q.Alike q') ∨ r.Has q := by
  induction ht generalizing r with
  | done a => exact ⟨rfl, hr, fun q => by simp [run, asks]⟩
  | @ask q next hq _ ih =>
    obtain ⟨hans, hsound, hhas⟩ := hr.serve hq
    rw [run, outcome, hans]
    obtain ⟨hres, hsound', hhas'⟩ := ih q.answer hsound
    refine ⟨hres, hsound', fun q' => ?_⟩
    rw [hhas', hhas, asks]
    simp only [List.mem_cons, exists_eq_or_imp]
    rw [or_left_comm, or_assoc]

/-- A sound registry stays sound over a whole talk. -/
theorem sound_run (t : Talk α) {r : Registry} (hr : r.Sound) : (t.run r).2.Sound := by
  induction t generalizing r with
  | done a => exact hr
  | ask q next ih => exact ih _ (hr.serve_sound q)

/-- Run in one go, the step is the talk. -/
def Performs (t : Talk α) (act : StateM Shared α) : Prop :=
  ∀ shared, ∃ log, act.run shared = ((t.run shared.registry).1, ⟨(t.run shared.registry).2, log⟩)

end Talk

end Unwind
