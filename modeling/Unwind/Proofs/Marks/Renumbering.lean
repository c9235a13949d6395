import Unwind.Proofs.Lowering.Requests
import Unwind.Proofs.Marks.Numbers

/-!
# Lowering on top of what was asked for before

What a lowering finds in the registry shows in its code only in the numbers of its marks. Two
lowerings of one method are followed, one from the empty registry and one from a registry in which
other methods have left their helpers and their numbers: the second registry stays `Atop` of the
first one, and the code of the second lowering is that of the first with shifted numbers
(`lowerMethod_atop`).
-/

namespace Unwind

/-- The registry `ρ` is what `r` becomes when it serves the requests that lead from the empty
registry to `a`. -/
structure Registry.Atop (r a ρ : Registry) : Prop where
  sound : a.Sound
  sound_top : ρ.Sound
  counter : ∀ k : Mark, k.counter ρ = k.counter r + k.counter a
  has_iff : ∀ q, ρ.Has q ↔ r.Has q ∨ a.Has q

namespace Registry.Atop

variable {r a ρ : Registry}

theorem start (h : r.Sound) : Atop r {} r where
  sound := .empty
  sound_top := h
  counter k := by rw [k.counter_empty, UInt64.add_zero]
  has_iff q := by simp [not_has_empty]

/-- Both registries give the same answer to the request for a helper. -/
theorem serve (h : Atop r a ρ) {q : Request} (hq : q.IsLookup) :
    (q.serve ρ).1 = (q.serve a).1 ∧ Atop r (q.serve a).2 (q.serve ρ).2 := by
  obtain ⟨hans, hsound, hhas⟩ := h.sound.serve hq
  obtain ⟨hans', hsound', hhas'⟩ := h.sound_top.serve hq
  refine ⟨hans'.trans hans.symm, hsound, hsound', fun k => ?_, fun q' => ?_⟩
  · rw [k.counter_serve hq, k.counter_serve hq, h.counter]
  · rw [hhas, hhas', h.has_iff]
    exact or_left_comm

theorem next (h : Atop r a ρ) (k : Mark) : Atop r (k.next a).2 (k.next ρ).2 where
  sound := k.sound_next h.sound
  sound_top := k.sound_next h.sound_top
  counter k' := by rw [k.counter_next, k.counter_next, h.counter, UInt64.add_assoc]
  has_iff q := by rw [k.has_next, k.has_next, h.has_iff]

end Registry.Atop

/-- The numbers on top of those that a registry has given out. -/
def Registry.shift (r : Registry) (k : Mark) (n : UInt64) : UInt64 := k.counter r + n

namespace Lowering

open Ir (Cmd Procedure)
open Source (MethodDef TypeDef)

/-! ## Steps on top of each other -/

section

variable (r : Registry)

/-- States of one body whose registries are on top of each other; commands and logs differ. -/
structure Stacked (s s' : State) : Prop where
  context : ∃ cs, s'.toContext = { s.toContext with cmds := cs }
  registry : r.Atop s.registry s'.registry

/-- How two steps end that began in `s` and `s'`: alike, and what the second one emits is what the
first one emits, with shifted numbers. -/
inductive Arrives {α β : Type} (R : α → β → Prop) (s s' : State) :
    Except Fault α × State → Except Fault β × State → Prop
  | ok {a : α} {b : β} {t t' : State} (cs : List Cmd) : R a b → Stacked r t t' →
    t.cmds = s.cmds ++ cs → t'.cmds = s'.cmds ++ Cmd.edit (Cmd.renumber r.shift) cs →
    Arrives R s s' (.ok a, t) (.ok b, t')
  | error {e : Fault} {t t' : State} : Stacked r t t' → Arrives R s s' (.error e, t) (.error e, t')

/-- Whatever the registries hold, the second step is the first one with shifted numbers. -/
def Shifts {α β : Type} (R : α → β → Prop) (x : Lower α) (y : Lower β) : Prop :=
  ∀ s s', Stacked r s s' → Arrives r R s s' (x.run s) (y.run s')

end

section

variable {r : Registry}

theorem edited_renumber {cs : List Cmd} {tight : Bool} (ν : Mark → UInt64 → UInt64) :
    Edited (Cmd.renumber ν) tight cs (Cmd.edit (Cmd.renumber ν) cs) := by
  refine ⟨rfl, fun _ h => ?_⟩
  cases cs with
  | nil => rfl
  | cons c cs =>
    rw [Cmd.edit] at h
    cases c <;> exact absurd h (List.cons_ne_nil _ _)

namespace Shifts

theorem pure {α β : Type} {R : α → β → Prop} {a : α} {b : β} (h : R a b) :
    Shifts r R (Pure.pure a) (Pure.pure b) :=
  fun _ _ hs => .ok [] h hs (List.append_nil _).symm (List.append_nil _).symm

theorem bind {α β α' β' : Type} {R : α → β → Prop} {R' : α' → β' → Prop} {x : Lower α}
    {y : Lower β} {f : α → Lower α'} {g : β → Lower β'} (h : Shifts r R x y)
    (h' : ∀ a b, R a b → Shifts r R' (f a) (g b)) : Shifts r R' (x >>= f) (y >>= g) := by
  intro s s' hs
  rw [run_bind, run_bind]
  have hx := h s s' hs
  generalize x.run s = p at hx
  generalize y.run s' = q at hx
  cases hx with
  | error hs => exact .error hs
  | ok cs hab hs hc hc' =>
    rename_i a b t t'
    have hf := h' a b hab t t' hs
    show Arrives r R' s s' ((f a).run t) ((g b).run t')
    generalize (f a).run t = p at hf
    generalize (g b).run t' = q at hf
    cases hf with
    | error hs => exact .error hs
    | ok ds hab' hs ht ht' =>
      refine .ok (cs ++ ds) hab' hs ?_ ?_
      · rw [ht, hc, List.append_assoc]
      · rw [ht', hc', List.append_assoc, Cmd.edit_append]

theorem throw {α β : Type} {R : α → β → Prop} {e : Fault} :
    Shifts r R (MonadExcept.throw e : Lower α) (MonadExcept.throw e : Lower β) :=
  fun _ _ hs => .error hs

theorem context :
    Shifts r (fun cx cx' => ∃ cs, cx' = { cx with cmds := cs }) Lowering.context
      Lowering.context :=
  fun _ _ hs => .ok [] hs.context hs (List.append_nil _).symm (List.append_nil _).symm

theorem withContext {α : Type} {f : Context → α × Context} (hf : Oblivious f) :
    Shifts r Eq (Lowering.withContext f) (Lowering.withContext f) := by
  rintro ⟨cx, sh⟩ ⟨_, sh'⟩ ⟨⟨cs, rfl⟩, hr⟩
  have hcmds : (f cx).2.cmds = cx.cmds := congrArg (·.2.cmds) (hf cx cx.cmds)
  show Arrives r Eq _ _ (.ok (f cx).1, ⟨(f cx).2, sh⟩)
    (.ok (f { cx with cmds := cs }).1, ⟨(f { cx with cmds := cs }).2, sh'⟩)
  rw [hf cx cs]
  refine .ok [] rfl ⟨⟨cs, rfl⟩, hr⟩ ?_ (List.append_nil _).symm
  rw [List.append_nil]
  exact hcmds

theorem report {level : Log.Level} {message : String} :
    Shifts r Eq (Lowering.report level message) (Lowering.report level message) :=
  fun _ _ hs => .ok [] rfl ⟨hs.context, hs.registry⟩ (List.append_nil _).symm
    (List.append_nil _).symm

theorem emitAll (cs : List Cmd) :
    Shifts r Eq (Lowering.emitAll cs)
      (Lowering.emitAll (Cmd.edit (Cmd.renumber r.shift) cs)) := by
  rintro ⟨cx, sh⟩ ⟨_, sh'⟩ ⟨⟨cs', rfl⟩, hr⟩
  exact .ok cs rfl ⟨⟨_, rfl⟩, hr⟩ rfl rfl

/-- A command that carries no number. -/
theorem emit {c : Cmd} (hc : Cmd.edit (Cmd.renumber r.shift) [c] = [c]) :
    Shifts r Eq (Lowering.emit c) (Lowering.emit c) := by
  have h := emitAll (r := r) [c]
  rwa [hc] at h

theorem buffered {α β : Type} {R : α → β → Prop} {x : Lower α} {y : Lower β}
    (h : Shifts r R x y) {tight : Bool} :
    Shifts r (fun a b => R a.1 b.1 ∧ Edited (Cmd.renumber r.shift) tight a.2 b.2)
      (Lowering.buffered x) (Lowering.buffered y) := by
  rintro ⟨cx, sh⟩ ⟨_, sh'⟩ ⟨⟨cs, rfl⟩, hr⟩
  have hrun := h ⟨{ cx with cmds := [] }, sh⟩ ⟨{ cx with cmds := [] }, sh'⟩ ⟨⟨[], rfl⟩, hr⟩
  rcases hx : x.run ⟨{ cx with cmds := [] }, sh⟩ with ⟨p, t⟩
  rcases hy : y.run ⟨{ cx with cmds := [] }, sh'⟩ with ⟨q, t'⟩
  rw [run_buffered hx, run_buffered hy]
  rw [hx, hy] at hrun
  cases hrun with
  | error hs =>
    obtain ⟨⟨_, hc⟩, hr⟩ := hs
    exact .error ⟨⟨cs, by simp [hc]⟩, hr⟩
  | ok _ hab hs ht ht' =>
    obtain ⟨⟨_, hc⟩, hr⟩ := hs
    refine .ok [] ⟨hab, ?_⟩ ⟨⟨cs, by simp [hc]⟩, hr⟩ (List.append_nil _).symm
      (List.append_nil _).symm
    rw [ht, ht']
    exact edited_renumber _

/-- The request for a helper. -/
theorem request {q : Request} (hq : q.IsLookup) :
    Shifts r Eq (withRegistry q.serve) (withRegistry q.serve) := by
  intro s s' hs
  obtain ⟨hans, hr⟩ := hs.registry.serve hq
  exact .ok [] hans.symm ⟨hs.context, hr⟩ (List.append_nil _).symm
    (List.append_nil _).symm

/-- A mark gets the next number on both sides. -/
theorem mark (k : Mark) :
    Shifts r Eq (withRegistry k.next >>= fun n => Lowering.emit (.marker (k.note n)))
      (withRegistry k.next >>= fun n => Lowering.emit (.marker (k.note n))) := by
  rintro ⟨cx, sh⟩ ⟨_, sh'⟩ ⟨⟨cs, rfl⟩, hr⟩
  refine .ok [.marker (k.note (k.next sh.registry).1)] rfl ⟨⟨_, rfl⟩, hr.next k⟩ rfl ?_
  have hedit : Cmd.edit (Cmd.renumber r.shift) [.marker (k.note (k.next sh.registry).1)] =
      [.marker (k.note (k.next sh'.registry).1)] := by
    show [Cmd.marker ((k.note (k.next sh.registry).1).renumber r.shift)] = _
    rw [Ir.Attr.renumber_note, k.next_fst, k.next_fst, hr.counter, Registry.shift]
  rw [hedit]
  rfl

end Shifts

/-- A note under another key carries no number. -/
theorem edit_renumber_call (ν : Mark → UInt64 → UInt64) (label proc : String)
    (args : List Ir.Expr) (outs : List String) :
    Cmd.edit (Cmd.renumber ν) [.call [⟨"cexpr", [.str label]⟩] proc args outs] =
      [.call [⟨"cexpr", [.str label]⟩] proc args outs] := by
  have hnote : Ir.Attr.renumber ν ⟨"cexpr", [.str label]⟩ = ⟨"cexpr", [.str label]⟩ :=
    Ir.Attr.renumber_of_key ν fun k => show "cexpr" ≠ k.key by cases k <;> decide
  show [Cmd.call [Ir.Attr.renumber ν _] proc args outs] = _
  rw [hnote]

theorem edit_renumber_sourceMark (ν : Mark → UInt64 → UInt64) (env : Env) (span : Span) :
    Cmd.edit (Cmd.renumber ν) [sourceMark env span] = [sourceMark env span] := by
  have hnote : ∀ key values, key ∈ ["first", "sourceFile", "sourceLine"] →
      Ir.Attr.renumber ν ⟨key, values⟩ = ⟨key, values⟩ := by
    intro key values hkey
    refine Ir.Attr.renumber_of_key ν fun k => ?_
    revert hkey
    cases k <;> simp only [Mark.key] <;> rintro hkey rfl <;> revert hkey <;> decide
  show [Cmd.assert _ [Ir.Attr.renumber ν _, Ir.Attr.renumber ν _, Ir.Attr.renumber ν _]] = _
  rw [hnote _ _ (by simp), hnote _ _ (by simp), hnote _ _ (by simp)]
  rfl

/-- A lowering shifts its numbers. -/
noncomputable def shifting (r : Registry) (env : Env) : Correspondence env env where
  leaf := Cmd.renumber r.shift
  rel _ := Shifts r
  leaf_plain c hc := Cmd.renumber_plain _ c hc
  models := rfl
  literal := rfl
  isStruct _ := rfl
  pure := .pure
  bind := .bind
  throw := .throw
  loosen := id
  context := .context
  withContext := .withContext
  report := .report
  emitAll := by
    rintro _ cs _ ⟨rfl, -⟩
    exact .emitAll cs
  buffered h := .buffered h
  structCopy := .request (q := .structCopy _) trivial
  breadcrumb := by
    unfold breadcrumb
    split
    · exact .mark .branch
    · exact .pure rfl
  record := by
    intro label ty v
    unfold record
    split
    · refine .bind (.request (q := .recorder ty) trivial) ?_
      rintro proc _ rfl
      exact .emit (edit_renumber_call _ _ _ _ _)
    · exact .pure rfl
  emitMarks := by
    intro span kind
    rw [emitMarks_eq]
    split
    · refine .bind (R := Eq) ?_ fun _ _ _ => ?_
      · split
        · exact .emit (edit_renumber_sourceMark _ env span)
        · exact .pure rfl
      · split
        · exact .mark .state
        · exact .pure rfl
    · exact .pure rfl
  emitAssertion := by
    intro v
    unfold emitAssertion
    split
    · exact .emit rfl
    · exact .emit rfl

end

/-! ## Methods -/

/-- On top of other registries a method is lowered as in the first one, with shifted numbers. -/
theorem lowerMethod_atop {r : Registry} (env : Env) (owner : TypeDef) (m : MethodDef)
    {shared shared' : Shared} (hr : r.Atop shared.registry shared'.registry) :
    ((lowerMethod env owner m).run shared').1 =
        ((lowerMethod env owner m).run shared).1.map (Procedure.renumber r.shift) ∧
      r.Atop ((lowerMethod env owner m).run shared).2.registry
        ((lowerMethod env owner m).run shared').2.registry := by
  rcases decided_or_prepared m owner.name with ⟨o, ho, hrun⟩ | ⟨body, params, returns, scopes, hm⟩
  · obtain ⟨_, h⟩ := hrun env owner rfl shared
    obtain ⟨_, h'⟩ := hrun env owner rfl shared'
    rw [h, h']
    refine ⟨?_, hr⟩
    cases o with
    | error e => rfl
    | ok p => exact congrArg Except.ok (edit_of_body_eq_none (ho p rfl).1).symm
  let C := shifting r env
  have hbody : Shifts r Eq (do breadcrumb env; lowerStmt env body)
      (do breadcrumb env; lowerStmt env body) := C.andThen C.breadcrumb fun _ _ => C.lowerStmt body
  have hrun := hbody ⟨startContext scopes params returns, announce owner m shared⟩
    ⟨startContext scopes params returns, announce owner m shared'⟩ ⟨⟨_, rfl⟩, hr⟩
  rcases hx : (do breadcrumb env; lowerStmt env body : Lower Unit).run
    ⟨startContext scopes params returns, announce owner m shared⟩ with ⟨o, t⟩
  rcases hy : (do breadcrumb env; lowerStmt env body : Lower Unit).run
    ⟨startContext scopes params returns, announce owner m shared'⟩ with ⟨o', t'⟩
  rw [run_lowerMethod hm hx, run_lowerMethod hm hy]
  rw [hx, hy] at hrun
  cases hrun with
  | error hs => exact ⟨rfl, hs.registry⟩
  | ok _ _ hs ht ht' =>
    refine ⟨?_, hs.registry⟩
    obtain ⟨cs, hcs⟩ := hs.context
    refine finished_edit hcs ?_
    simp only [cmds_startContext, List.nil_append] at ht ht'
    rw [ht, ht']

end Lowering

end Unwind
