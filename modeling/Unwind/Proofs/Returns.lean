import Unwind.Proofs.JumpTargets
import Unwind.Proofs.Lowering.Regions
import Unwind.Proofs.Lowering.Sites
import Unwind.Proofs.Modes.Expressions

/-!
# Returns

A `return` statement stores its value and ends the procedure at once, wherever it stands. It is the
one way out of a region that does not go through the finally block: from the first instruction of a
`return` statement on, control stays in the code of this statement until the procedure is over, or
until an exception is pending (`lowerMethod_return_at_once`).

That the code of an expression has no way out but a call that raises is read off from `Steps`, of
the code beside itself.
-/

namespace Unwind.Machine

variable {w : World} {prog code rest : List Instr}

/-- Control is in the code, in front of the rest. -/
def Inside (code rest : List Instr) (c : Config) : Prop :=
  ∃ is, is ≠ [] ∧ is <:+ code ∧ c.rest = is ++ rest

/-- The second configuration follows on the first by instructions of the code only. -/
def Stays (w : World) (prog code rest : List Instr) : Config → Config → Prop :=
  Relation.ReflTransGen fun c c' => step w prog c = some c' ∧ Inside code rest c

/-- Control stays in the code up to a call that leaves an exception. -/
def Raises (w : World) (prog code rest : List Instr) (start : Config) : Prop :=
  ∃ proc args outs is d, .call proc args outs :: is <:+ code ∧
    Stays w prog code rest start ⟨.call proc args outs :: is ++ rest, d⟩ ∧
    (invoke w d proc (evalAll w d args) outs).memory.exception ≠ none

/-- Control goes through the code in front of `more`, or a call leaves an exception on the way. -/
def Passes (w : World) (prog code rest : List Instr) (start : Config) (more : List Instr) : Prop :=
  (∃ d, Stays w prog code rest start ⟨more ++ rest, d⟩) ∨ Raises w prog code rest start

/-- One step inside the code. -/
theorem Stays.step {i : Instr} {is : List Instr} {d : Data} {c : Config} (hcode : i :: is <:+ code)
    (hs : step w prog ⟨i :: is ++ rest, d⟩ = some c) :
    Stays w prog code rest ⟨i :: is ++ rest, d⟩ c :=
  .single ⟨hs, _, List.cons_ne_nil _ _, hcode, rfl⟩

theorem Raises.head {start c : Config} (h : Stays w prog code rest start c)
    (h' : Raises w prog code rest c) : Raises w prog code rest start := by
  obtain ⟨proc, args, outs, is, d, hcode, hd, he⟩ := h'
  exact ⟨proc, args, outs, is, d, hcode, h.trans hd, he⟩

/-- Behind the call the exception is pending. -/
theorem Raises.exists_pending {start : Config} (h : Raises w prog code rest start) :
    ∃ c, Stays w prog code rest start c ∧ c.data.memory.exception ≠ none := by
  obtain ⟨proc, args, outs, is, d, hcode, hd, he⟩ := h
  exact ⟨_, hd.trans (Stays.step hcode rfl), he⟩

theorem Passes.head {start c : Config} {more : List Instr} (h : Stays w prog code rest start c)
    (h' : Passes w prog code rest c more) : Passes w prog code rest start more := by
  rcases h' with ⟨d, hd⟩ | hraises
  · exact .inl ⟨d, h.trans hd⟩
  · exact .inr (hraises.head h)

theorem Passes.trans {start : Config} {is more : List Instr}
    (h : Passes w prog code rest start is)
    (h' : ∀ d, Passes w prog code rest ⟨is ++ rest, d⟩ more) :
    Passes w prog code rest start more := by
  rcases h with ⟨d, hd⟩ | h
  · exact (h' d).head hd
  · exact .inr h

end Unwind.Machine

namespace Unwind.Modes

open Lowering (Quiet)
open Machine

variable {w : World} {prog code rest : List Instr} {P : Pairing} {models models' : Bool}

theorem test_passes {test more : List Instr} (ht : Test models test)
    (hcode : test ++ more <:+ code) {d : Data} (hd : d.memory.exception = none) :
    Passes w prog code rest ⟨test ++ more ++ rest, d⟩ more := by
  cases ht with
  | none => exact .inl ⟨d, .refl⟩
  | some =>
    refine .inl ⟨d, .step hcode ?_⟩
    simp [step, holds_pending_none hd]

/-- The code of an expression is gone through, unless a call raises. -/
theorem Steps.passes {is js more : List Instr} (h : Steps P models models' is js)
    (hcode : is ++ more <:+ code) {d : Data} :
    Passes w prog code rest ⟨is ++ more ++ rest, d⟩ more := by
  induction h generalizing more d with
  | nil => exact .inl ⟨d, .refl⟩
  | set _ _ _ ih => exact .head (.step hcode rfl) (ih ((List.suffix_cons _ _).trans hcode))
  | store _ _ _ ih => exact .head (.step hcode rfl) (ih ((List.suffix_cons _ _).trans hcode))
  | @call proc args args' outs outs' test test' is js _ _ ht _ _ ih =>
    rw [List.cons_append, List.append_assoc] at hcode ⊢
    have hcode' : test ++ (is ++ more) <:+ code := (List.suffix_cons _ _).trans hcode
    by_cases he : (invoke w d proc (evalAll w d args) outs).memory.exception = none
    · refine .head (.step hcode rfl) ((test_passes ht hcode' he).trans fun d' => ?_)
      exact ih ((List.suffix_append _ _).trans hcode')
    · exact .inr ⟨proc, args, outs, _, d, hcode, .refl, he⟩
  | @quiet i is js hi _ ih =>
    have hs : step w prog ⟨i :: (is ++ more) ++ rest, d⟩ = some ⟨is ++ more ++ rest, d⟩ := by
      cases hi <;> rfl
    exact .head (.step hcode hs) (ih ((List.suffix_cons _ _).trans hcode))
  | @branch c c' as as' bs bs' is js _ _ _ _ iha ihb ih =>
    have hsplit : Instr.branchUnless c (as.length + 1) :: (as ++ .jump bs.length :: (bs ++ is)) ++ more
        = .branchUnless c (as.length + 1) :: (as ++ .jump bs.length :: (bs ++ (is ++ more))) := by
      simp
    rw [hsplit] at hcode ⊢
    have hthen : as ++ .jump bs.length :: (bs ++ (is ++ more)) <:+ code :=
      (List.suffix_cons _ _).trans hcode
    have hjump : .jump bs.length :: (bs ++ (is ++ more)) <:+ code :=
      (List.suffix_append _ _).trans hthen
    have helse : bs ++ (is ++ more) <:+ code := (List.suffix_cons _ _).trans hjump
    have hend : is ++ more <:+ code := (List.suffix_append _ _).trans helse
    by_cases hc : (eval w d c).holds = true
    · -- the first part, and the jump over the second
      have hbranch : Stays w prog code rest ⟨.branchUnless c (as.length + 1) ::
          (as ++ .jump bs.length :: (bs ++ (is ++ more))) ++ rest, d⟩
          ⟨as ++ .jump bs.length :: (bs ++ (is ++ more)) ++ rest, d⟩ := by
        refine .step hcode ?_
        simp [step, hc]
      refine .head hbranch ((iha hthen).trans fun d' => ?_)
      have hover : Stays w prog code rest ⟨.jump bs.length :: (bs ++ (is ++ more)) ++ rest, d'⟩
          ⟨is ++ more ++ rest, d'⟩ := by
        refine .step hjump ?_
        simp [step]
      exact .head hover (ih hend)
    · have hbranch : Stays w prog code rest ⟨.branchUnless c (as.length + 1) ::
          (as ++ .jump bs.length :: (bs ++ (is ++ more))) ++ rest, d⟩
          ⟨bs ++ (is ++ more) ++ rest, d⟩ := by
        refine .step hcode ?_
        simp [step, hc]
      exact .head hbranch ((ihb helse).trans fun d' => ih hend)

theorem steps_quiet {is : List Instr} (h : ∀ i ∈ is, Quiet i) : Steps P models models' is is := by
  induction is with
  | nil => exact .nil
  | cons i is ih =>
    exact .quiet (h i List.mem_cons_self) (ih fun j hj => h j (List.mem_cons_of_mem _ hj))

end Unwind.Modes

namespace Unwind.Lowering

open Machine (Config Data Instr Passes Stays World eval flatten)
open Modes (Joint Steps)
open Source (Expr MethodDef MethodRef Path Stmt TypeDef)

/-! ## The code of a return -/

/-- Every state is joint with itself. -/
theorem joint_self (s : State) : Joint (fun _ => True) [] s s := by
  refine ⟨List.forall₂_same.mpr fun e _ => ?_, fun _ => rfl, rfl, nofun, nofun⟩
  exact .refl (fun _ => .source trivial) e

/-- The code of an expression beside itself. -/
theorem value_steps {env : Env} {e : Expr} {s s' : State} {v : Ir.Expr}
    (h : Runs (value env e) s v s') :
    ∃ P models cs, s'.cmds = s.cmds ++ cs ∧ Steps P models models (flatten cs) (flatten cs) := by
  have h' : Runs (value (env.withMode env.options.modelExceptions) e) s v s' := h
  obtain ⟨qs, cs, ds, -, -, hcs, hds, hm, -⟩ :=
    (Modes.value_alongside fun _ _ => trivial).run (joint_self s) h' h'
  rw [hcs, List.append_cancel_left_eq] at hds
  subst hds
  exact ⟨_, _, cs, hcs, hm.steps⟩

/-- How a `return` statement stores its result: there may be none. -/
inductive Stores (env : Env) : Option Expr → List Instr → Prop where
  | none : Stores env none []
  | some {e : Expr} {v : Ir.Expr} {s s' : State} :
      Runs (value env e) s v s' → Stores env (some e) [.set resultVar v]

/-- The code of a `return` statement: the code of its value, the store, and the end. -/
theorem plain_return {L : Layout} {π : Path} {ρ : List Frame} {id : UInt32} {span : Span}
    {e : Option Expr} {ls : List Line}
    (h : Plain L π ρ (lowerStmt L.env ⟨id, span, .ret e⟩) () ls) :
    ∃ P models is store, instrs ls = is ++ (store ++ [.ret]) ∧ Steps P models models is is ∧
      Stores L.env e store := by
  obtain ⟨-, s, s', hv, hrun, he⟩ := h
  simp only [lowerStmt, runs_bind] at hrun
  obtain ⟨_, s₁, h₁, h⟩ := hrun
  obtain ⟨ms, hms, hm⟩ := Marks.emitMarks h₁
  cases e with
  | none =>
    have hret := hm.trans (emits_emit h)
    exact ⟨fun _ _ => False, true, ms, [], emits_unique he hret, Modes.steps_quiet hms, .none⟩
  | some e =>
    simp only [lowerReturn, runs_bind, runs_context] at h
    obtain ⟨v, _, h₂, _, s₂, ⟨rfl, rfl⟩, h⟩ := h
    obtain ⟨P, models, cs, hcs, hsteps⟩ := value_steps h₂
    have hv₁ := hm.view hv
    have hv₂ : View L.scopes ρ s₂ := by
      have hall : Layout.Allows ⟨L.env, L.scopes, fun _ => True⟩ e.assigned := fun _ _ => trivial
      exact (value_coded (L := ⟨L.env, L.scopes, fun _ => True⟩) (π := π) hall hv₁ h₂).view hv₁
    split at h
    · next slot hslot =>
      simp only [runs_bind, runs_lift] at h
      obtain ⟨ty, _, ⟨-, rfl⟩, _, s₄, h₄, _, s₅, h₅, h₆⟩ := h
      obtain rfl : slot = resultVar := hv₂.returnVar slot hslot
      obtain ⟨rs, hrs, hr⟩ := Marks.record h₄
      have hend := hr.trans ((emits_emit h₅).trans (emits_emit h₆))
      refine ⟨P, models, ms ++ flatten cs ++ rs, [.set resultVar v], ?_, ?_, .some h₂⟩
      · -- the commands are those of the parts, one behind the other
        obtain ⟨ks, hks, hf⟩ := he.cmds
        obtain ⟨ms', hms', hf'⟩ := hm.cmds
        obtain ⟨es, hes, hf''⟩ := hend.cmds
        rw [hes, hcs, hms', List.append_assoc, List.append_assoc, List.append_cancel_left_eq] at hks
        rw [← hf, ← hks, Machine.flatten_append, Machine.flatten_append, hf', hf'']
        simp [Machine.flattenCmd, Ir.Cmd.set, Instr.set]
      · exact ((Modes.steps_quiet hms).append hsteps).append (Modes.steps_quiet hrs)
    · obtain ⟨_, _, h, -⟩ := runs_bind.mp h
      exact absurd h not_runs_throw

/-! ## Running a return -/

/-- The data behind a store. -/
def afterStore (w : World) (d : Data) : List Instr → Data
  | [.assign (.var x) v] => d.set w x (eval w d v)
  | _ => d

/-- The procedure returns right from the code, with what the store leaves; or an exception is
pending before. -/
def ReturnsAtOnce (w : World) (prog code rest : List Instr) (store : List Instr) (d : Data) : Prop :=
  (∃ d', Stays w prog code rest ⟨code ++ rest, d⟩ ⟨.ret :: rest, afterStore w d' store⟩) ∨
    ∃ c, Stays w prog code rest ⟨code ++ rest, d⟩ c ∧ c.data.memory.exception ≠ none

theorem returnsAtOnce {w : World} {prog is store rest : List Instr} {env : Env} {e : Option Expr}
    {P : Modes.Pairing} {models : Bool} (hsteps : Steps P models models is is)
    (hstore : Stores env e store) {d : Data} :
    ReturnsAtOnce w prog (is ++ (store ++ [.ret])) rest store d := by
  have hpass : Passes w prog (is ++ (store ++ [Instr.ret])) rest
      ⟨is ++ (store ++ [Instr.ret]) ++ rest, d⟩ (store ++ [Instr.ret]) :=
    hsteps.passes (List.suffix_refl _)
  rcases hpass with ⟨d', hd'⟩ | h
  · cases hstore with
    | none => exact .inl ⟨d', hd'⟩
    | some => exact .inl ⟨d', hd'.trans (Stays.step (List.suffix_append _ _) rfl)⟩
  · exact .inr h.exists_pending

/-- In a lowered method that models exceptions, take a `return` statement (not in a default case
that gives way to a later one). Its code is one piece of the procedure. A run that comes to the
first instruction of this code, with no exception pending, runs no other code before it stands at
the end of the procedure, with the value of the statement in the place of the result, or before an
exception is pending. So no finally block is run. -/
theorem lowerMethod_return_at_once {env : Env} {owner : TypeDef} {m : MethodDef} {body : Stmt}
    {p : Ir.Procedure} {shared shared' : Shared} (hm : env.options.modelExceptions ≠ 0)
    (h : (lowerMethod env owner m).run shared = (.ok p, shared')) (hbody : m.body = some body)
    {π : Path} {id : UInt32} {span : Span} {e : Option Expr}
    (hat : body.at? π = some ⟨id, span, .ret e⟩) (hlow : body.lowers π = true) :
    ∃ cmds as ls bs store, p.body = some cmds ∧ flatten cmds = instrs (as ++ (ls ++ bs)) ∧
      (∀ ℓ ∈ ls, ℓ.owner = π) ∧ Stores env e store ∧
      ∀ (w : World) (d : Data), d.memory.exception = none →
        ReturnsAtOnce w (flatten cmds) (instrs ls) (instrs bs) store d := by
  have hm' : env.options.modelsExceptions = true := bne_iff_ne.mpr hm
  obtain ⟨scopes, -, hlist⟩ := lowerMethod_listed hm' hbody h
  obtain ⟨lines, hlines, cmds, hp, hf⟩ := hlist (fun _ => True) (fun _ _ => trivial)
  obtain ⟨ρ, -, c, ls, c', hl, as, bs, hls⟩ := hlines.at hat hlow
  obtain ⟨-, hplain, -⟩ | hother := hl.inv
  · obtain ⟨P, models, is, store, hinstrs, hsteps, hstore⟩ := plain_return hplain
    refine ⟨cmds, as, ls, bs, store, hp, ?_, fun ℓ hℓ => (hplain.1.mem hℓ).2, hstore, ?_⟩
    · rw [hf, ← hls, List.append_assoc]
    · intro w d _
      rw [hinstrs]
      exact returnsAtOnce hsteps hstore
  · cases hother

/-- A method with a `return` statement in front of a finally block. -/
def returnMethod : MethodDef where
  name := "m"
  ret := .int
  body := some (.ofKind (.tryCatch (.ofKind (.ret (some (.int 7)))) []
    (some (.expr (.ofCall (.direct ⟨⟨"T", none⟩, "f", []⟩ none []) .void)))))

/-- The commands start with the store of a literal and a return. -/
def storesAndReturns : List Ir.Cmd → Bool
  | .assign (.var _) (.lit _) :: .ret :: _ => true
  | _ => false

theorem exists_run_returnMethod : ∃ p shared' cmds,
    (lowerMethod {} ⟨⟨"T", none⟩, .classType, [], [], [], [], []⟩ returnMethod).run {} =
      (.ok p, shared') ∧ p.body = some cmds ∧ storesAndReturns cmds = true :=
  exists_commands (by decide +kernel)

theorem returnMethod_return_at_once :
    ∃ p shared', (lowerMethod {} ⟨⟨"T", none⟩, .classType, [], [], [], [], []⟩ returnMethod).run {} =
        (.ok p, shared') ∧
      ∃ cmds as ls bs store, p.body = some cmds ∧ flatten cmds = instrs (as ++ (ls ++ bs)) ∧
        (∀ ℓ ∈ ls, ℓ.owner = [.tryBody]) ∧ Stores {} (some (.int 7)) store ∧
        ∀ (w : World) (d : Data), d.memory.exception = none →
          ReturnsAtOnce w (flatten cmds) (instrs ls) (instrs bs) store d := by
  obtain ⟨p, shared', _, h, -⟩ := exists_run_returnMethod
  exact ⟨p, shared', h, lowerMethod_return_at_once (by decide) h rfl rfl rfl⟩

theorem reaches_return_of_storesAndReturns {cmds : List Ir.Cmd} (h : storesAndReturns cmds = true)
    (w : World) (d : Data) :
    ∃ c, Machine.Reaches w (flatten cmds) ⟨flatten cmds, d⟩ c ∧ c.isDone = true ∧
      c.data.calls = d.calls := by
  unfold storesAndReturns at h
  split at h
  · next x l more =>
    refine ⟨_, Machine.reaches_set, rfl, ?_⟩
    unfold Data.set
    split_ifs <;> rfl
  · cases h

/-- A `return` statement in a `try` part ends the procedure without the finally block. -/
theorem exists_return_skipping_finally :
    ¬ ∀ (env : Env) (owner : TypeDef) (m : MethodDef) (e : Expr) (f : MethodRef) (p : Ir.Procedure)
      (shared shared' : Shared), env.options.modelExceptions ≠ 0 →
      (lowerMethod env owner m).run shared = (.ok p, shared') →
      m.body = some (.ofKind (.tryCatch (.ofKind (.ret (some e))) []
        (some (.expr (.ofCall (.direct f none []) .void))))) →
      ∀ (w : World) (cmds : List Ir.Cmd) (d : Data) (c : Config), p.body = some cmds →
        d.memory.exception = none → Machine.Reaches w (flatten cmds) ⟨flatten cmds, d⟩ c →
        c.isDone = true → d.calls.length < c.data.calls.length := by
  intro hall
  obtain ⟨p, shared', cmds, h, hp, hcmds⟩ := exists_run_returnMethod
  let w : World := ⟨fun _ _ => false, fun _ => false, fun _ _ => rfl, fun _ _ m => (m, [])⟩
  obtain ⟨c, hc, hdone, hcalls⟩ := reaches_return_of_storesAndReturns hcmds w ⟨fun _ => .null, {}, []⟩
  have hlt := hall {} _ returnMethod _ _ p {} shared' (by decide) h rfl w cmds _ c hp rfl hc hdone
  rw [hcalls] at hlt
  exact lt_irrefl _ hlt

end Unwind.Lowering
