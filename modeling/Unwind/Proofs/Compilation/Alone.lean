import Unwind.Proofs.Compilation.Outcomes
import Unwind.Proofs.Expansion
import Unwind.Proofs.Marks.Renumbering
import Unwind.Proofs.Marks.Statements

/-!
# Methods compiled alone and on top of others

A method is compiled by expanding its virtual calls and lowering what comes out
(`Member.run_compileMember`). Compiled after other methods, it becomes what it becomes alone, with
shifted numbers in its marks (`attempt_alone`). What its code holds when it is compiled alone is
read off its expanded body: so many marks, and only calls of methods that the body calls, of methods
that the program declares, and of helpers that were asked for (`outcome_tally`).
-/

namespace Unwind.Compilation

open Ir (Cmd Procedure)
open Lowering (Env Shared Runs Tally bodyMarks run_bind)
open Source (MethodDef MethodRef Stmt)

/-! ## Expansion and lowering -/

/-- The method with its virtual calls expanded. -/
def Member.expanded (h : Hierarchy) (m : Member) : Except Fault MethodDef :=
  match m.method.body with
  | some body => ((Dispatch.transform h body).run {}).1.map fun body =>
      { m.method with body := some body }
  | none => .ok m.method

/-- A method is compiled by lowering the expanded one. -/
theorem run_compileMember (env : Env) (h : Hierarchy) (m : Member) (shared : Shared) :
    ∃ log, (compileMember env h m).run shared =
      match m.expanded h with
      | .ok method => (Lowering.lowerMethod env m.owner method).run ⟨shared.registry, log⟩
      | .error e => (.error e, ⟨shared.registry, log⟩) := by
  unfold compileMember Member.expanded
  cases m.method.body with
  | none => exact ⟨shared.log, rfl⟩
  | some body =>
    obtain ⟨r, hx, -⟩ := devirtualize_eq (.refl h) body
    obtain ⟨log₀, hstart⟩ := hx {}
    obtain ⟨log, hlog⟩ := hx shared
    have hr : (((Dispatch.transform h body).run {}).1.map fun expanded =>
        (expanded, ((Dispatch.transform h body).run {}).2.replaced)) = r :=
      congrArg Prod.fst hstart
    dsimp only
    rw [run_bind, hlog]
    cases ht : ((Dispatch.transform h body).run {}).1 with
    | error e =>
      rw [ht] at hr
      subst hr
      exact ⟨log, rfl⟩
    | ok expanded =>
      rw [ht] at hr
      subst hr
      dsimp only [Except.map]
      split
      · exact ⟨_, run_bind _ _ _⟩
      · exact ⟨log, rfl⟩

/-! ## On top of other methods -/

/-- The registry that a method leaves when it is compiled alone. -/
def registryOf (env : Env) (h : Hierarchy) (m : Member) : Registry :=
  ((attempt env h m).run {}).2.registry

/-- After other methods, a method becomes what it becomes alone, with numbers that follow theirs. -/
theorem attempt_alone (env : Env) (h : Hierarchy) (m : Member) {shared : Shared}
    (hs : shared.registry.Sound) :
    ((attempt env h m).run shared).1 =
        (outcomeOf env h m).map (Procedure.renumber shared.registry.shift) ∧
      shared.registry.Atop (registryOf env h m) ((attempt env h m).run shared).2.registry := by
  unfold outcomeOf registryOf attempt
  obtain ⟨log, hlog⟩ := run_compileMember env h m {}
  obtain ⟨log', hlog'⟩ := run_compileMember env h m shared
  show ((compileMember env h m).run shared).1 =
      ((compileMember env h m).run {}).1.map (Procedure.renumber shared.registry.shift) ∧
    shared.registry.Atop ((compileMember env h m).run {}).2.registry
      ((compileMember env h m).run shared).2.registry
  rw [hlog, hlog']
  cases m.expanded h with
  | error e => exact ⟨rfl, .start hs⟩
  | ok method => exact Lowering.lowerMethod_atop env m.owner method (.start hs)

/-! ## What the code holds -/

/-- The statements of an expanded body call what is declared or called by the method. -/
theorem expanded_calls {h : Hierarchy} {m : Member} {method : MethodDef} {P : MethodRef → Prop}
    (hP : h.Declares P) (hm : ∀ body ∈ m.method.body, ∀ c ∈ body.callees, P c)
    (he : m.expanded h = .ok method) :
    (m.method.body = none ∧ method = m.method) ∨ ∃ body body', m.method.body = some body ∧
      ((Dispatch.transform h body).run {}).1 = .ok body' ∧ method.body = some body' ∧
      Dispatch.Expands P body body' := by
  unfold Member.expanded at he
  cases hbody : m.method.body with
  | none =>
    rw [hbody] at he
    cases he
    exact .inl ⟨rfl, rfl⟩
  | some body =>
    rw [hbody] at he
    dsimp only at he
    cases ht : ((Dispatch.transform h body).run {}).1 with
    | error e =>
      rw [ht] at he
      cases he
    | ok body' =>
      rw [ht] at he
      cases he
      have hyields := Dispatch.transform_expands hP body (Stmt.forall_callees.mp (hm body hbody))
      exact .inr ⟨body, body', rfl, ht, rfl, hyields.result (Prod.ext ht rfl)⟩

/-- Alone, the expanded method is lowered from the empty registry. -/
theorem lowered_of_outcome {env : Env} {h : Hierarchy} {m : Member} {q : Procedure}
    (hq : outcomeOf env h m = .ok q) :
    ∃ method log shared, m.expanded h = .ok method ∧
      Runs (Lowering.lowerMethod env m.owner method) ⟨{}, log⟩ q shared ∧
      shared.registry = registryOf env h m := by
  obtain ⟨log, hlog⟩ := run_compileMember env h m {}
  have hq : ((compileMember env h m).run {}).1 = .ok q := hq
  have hr : registryOf env h m = ((compileMember env h m).run {}).2.registry := rfl
  rw [hlog] at hq hr
  cases he : m.expanded h with
  | error e =>
    rw [he] at hq
    cases hq
  | ok method =>
    rw [he] at hq hr
    exact ⟨method, log, _, rfl, Prod.ext hq rfl, hr.symm⟩

/-- The code of a method that is compiled alone holds the marks of its expanded body, and calls
what is declared or called by the method. -/
theorem outcome_tally {env : Env} {h : Hierarchy} {m : Member} {q : Procedure}
    {P : MethodRef → Prop} (hP : h.Declares P)
    (hm : ∀ body ∈ m.method.body, ∀ c ∈ body.callees, P c) (hq : outcomeOf env h m = .ok q) :
    ∃ method, m.expanded h = .ok method ∧
      Tally P (method.body.elim 0 (bodyMarks env.options)) {} (q.body.getD [])
        (registryOf env h m) := by
  obtain ⟨method, log, shared, he, hrun, hr⟩ := lowered_of_outcome hq
  refine ⟨method, he, hr ▸ Lowering.lowerMethod_tally (fun body' hbody => ?_) hrun⟩
  rcases expanded_calls hP hm he with ⟨hnone, rfl⟩ | ⟨body, expanded, -, -, hsome, hexpands⟩
  · rw [hnone] at hbody
    cases hbody
  · rw [hsome] at hbody
    cases hbody
    exact hexpands.calls

end Unwind.Compilation
