import Unwind.Proofs.JumpTargets
import Unwind.Proofs.Modes.Running
import Unwind.Proofs.Modes.Statements

/-!
# The two modes agree where nothing is raised

A method that is lowered with exceptions and without does the same in both modes, as far as the
source program can tell, when its jumps are even and nothing is raised: the same calls, the same
memory, the same values of its variables and of the result.

Each condition is needed (`modes_disagree_without`). So a jump out of a `try` part runs the finally
block of the statement only where exceptions are modeled.
-/

namespace Unwind.Modes

open Ir (Cmd)
open Lowering
open Machine (Config Data Instr Reaches World flatten isGenerated labels)
open Source (MethodDef Stmt TypeDef)

/-- What the source program can tell of data: the calls made, the memory, and the values of its
variables and of the result. -/
structure Same (w : World) (d d' : Data) : Prop where
  calls : d.calls = d'.calls
  memory : d.memory = d'.memory
  vars : ∀ x, isGenerated x = false ∨ x = resultVar → d.get w x = d'.get w x

theorem Agree.same {w : World} {ps : List (Nat × Nat)} {d d' : Data}
    (h : Agree w (Paired IsSource ps) d d') : Same w d d' := by
  refine ⟨h.calls, h.memory, fun x hx => ?_⟩
  rcases hx with hx | rfl
  · exact h.vars (.source hx)
  · exact h.vars .result

/-- Intermediate values that are not computed yet: all of them hold one value. -/
def Unset (d : Data) : Prop := ∀ i j, d.locals (Slot.temp i).name = d.locals (Slot.temp j).name

theorem Unset.agree {w : World} {d : Data} (h : Unset d) (ps : List (Nat × Nat)) :
    Agree w (Paired IsSource ps) d d := by
  refine ⟨fun {x y} hxy => ?_, rfl, rfl⟩
  cases hxy with
  | source | result => rfl
  | @temp i j _ =>
    rw [Machine.Data.get_own (v := .temp i) rfl, Machine.Data.get_own (v := .temp j) rfl]
    exact h i j

section

variable {body : Stmt} {W : Stage}

/-- The plan of a whole body is sound. -/
theorem plan_sound (hps : ∀ p ∈ W.pairs, ∀ q ∈ W.pairs, p.1 = q.1 ↔ p.2 = q.2)
    (hsaved : (W.saved.map Prod.fst).Nodup) : (plan body W).Sound := by
  refine ⟨sharp_paired (fun _ hx => hx) hps, fun {x y v} hxy hv => ?_, fun {node m n} hm hn => ?_⟩
  · have hown := isOwn_of_isAside hv
    cases hxy with
    | source hx =>
      rintro rfl
      rw [IsSource, (Machine.isOwn_name hown).2] at hx
      cases hx
    | result =>
      have hproper : Slot.result.Proper := trivial
      intro he
      rw [← Slot.name_inj hproper (Machine.isOwn_proper hown) he] at hv
      cases hv
    | @temp i j _ =>
      have hproper : (Slot.temp i).Proper := trivial
      intro he
      rw [← Slot.name_inj hproper (Machine.isOwn_proper hown) he] at hv
      cases hv
  · exact (Prod.mk.inj (List.inj_on_of_nodup_map hsaved hm hn rfl)).2

/-- The codes of a whole body in the two modes. -/
theorem lowerMethod_rest {env : Env} {owner : TypeDef} {m : MethodDef} {p p' : Ir.Procedure}
    {shared shared₁ shared₀ : Shared} {cmds cmds' : List Cmd}
    (h : Runs (lowerMethod (env.withMode 1) owner m) shared p shared₁)
    (h' : Runs (lowerMethod (env.withMode 0) owner m) shared p' shared₀)
    (hbody : m.body = some body) (hcmds : p.body = some cmds) (hcmds' : p'.body = some cmds')
    (hset : Setting body) (hn : Known IsSource body.names) (ho : body.operandsApart = true) :
    ∃ W, (plan body W).Sound ∧ Rest (plan body W) [] (flatten cmds) (flatten cmds') := by
  obtain ⟨hparams, hreturns, scopes, s, hsc, hrun, -, hp⟩ := runs_lowerMethod hbody h
  obtain ⟨hparams', hreturns', scopes', t, hsc', hrun', -, hp'⟩ := runs_lowerMethod hbody h'
  rw [← Except.ok.inj (hparams.symm.trans hparams'),
    ← Except.ok.inj (hreturns.symm.trans hreturns'), ← Except.ok.inj (hsc.symm.trans hsc')] at hrun'
  rw [hcmds] at hp
  rw [hcmds'] at hp'
  cases hp
  cases hp'
  obtain ⟨-, rfl⟩ := LabelScopes.collect_eq_ok.mp hsc
  let L : Layout := ⟨env.withMode 1, scopesOf body, fun _ => True⟩
  let start : State := ⟨startContext (scopesOf body) p.params p.returns, announce owner m shared⟩
  have hr : Ready L [] _ start := ready_startContext p.params p.returns (announce owner m shared)
  have hstart : Joined body [] ⟨[], [], fun _ => 0⟩ start start := by
    refine ⟨⟨?_, fun _ => rfl, rfl, nofun, nofun⟩, hr.view, hr.view, hr.escapes.symm⟩
    obtain ⟨_, _, -, he⟩ := startContext_eq (scopesOf body) p.params p.returns
    show List.Forall₂ _ (startContext (scopesOf body) p.params p.returns).operands
      (startContext (scopesOf body) p.params p.returns).operands
    rw [he]
    exact .nil
  have htwin : Twin body [] ⟨[], [], fun _ => 0⟩ body.tries
      (do breadcrumb (env.withMode 1); lowerStmt (env.withMode 1) body)
      (do breadcrumb (env.withMode 0); lowerStmt (env.withMode 0) body) fun _ _ _ => True :=
    breadcrumb_twin.andThen fun _ _ => lowerStmt_twin hset body (π := []) ⟨rfl, .nil⟩ nofun hn ho
  obtain ⟨W, cs, ds, hgrow, hj, hcs, hds, hcodes, -⟩ := htwin.run hstart hrun hrun'
  refine ⟨W, plan_sound hj.joint.oneToOne ?_, ?_⟩
  · rw [List.nodup_iff_count_le_one]
    intro node
    have hcount := hgrow.counts node
    have hone := List.nodup_iff_count_le_one.mp hset.tries node
    simp only [Stage.savedCount, List.map_nil, List.count_nil] at hcount
    omega
  · have hrest := hcodes W (.refl W) [] .nil [] [] .nil
    rw [hcs, hds, cmds_startContext]
    simpa using hrest

/-- No label stands in two places of the code of a method that models exceptions. -/
theorem lowerMethod_labels_nodup {env : Env} {owner : TypeDef} {m : MethodDef} {p : Ir.Procedure}
    {shared shared' : Shared} {cmds : List Cmd} (hm : env.options.modelsExceptions = true)
    (h : Runs (lowerMethod env owner m) shared p shared') (hbody : m.body = some body)
    (hcmds : p.body = some cmds) (hn : ∀ l ∈ body.labels, isGenerated l = false) :
    (labels (flatten cmds)).Nodup := by
  obtain ⟨scopes, hsc, hlist⟩ := lowerMethod_listed hm hbody h
  obtain ⟨lines, hlines, cmds', hp, hf⟩ := hlist (fun _ => True) fun _ _ => trivial
  rw [hcmds] at hp
  cases hp
  rw [hf]
  obtain ⟨hms, hls⟩ := hlines
  show (labelsOf _).Nodup
  rw [labelsOf_append, hms.1.labelsOf, List.nil_append]
  exact hls.nodup_labels (LabelScopes.collect_eq_ok.mp hsc).1.1 hn

end

/-! ## Runs in which nothing is raised -/

/-- The instruction neither writes `$Exception` nor assumes what never holds. -/
def isPeaceful : Instr → Bool
  | .assign (.var x) _ => x != Ir.exceptionVar
  | .call _ _ outs => !outs.contains Ir.exceptionVar
  | .assume (.lit (.bool false)) => false
  | _ => true

section

variable {w : World} {prog : List Instr} {d : Data}

/-- No call leaves an exception behind. -/
def World.Calm (w : World) : Prop :=
  ∀ calls call m, m.exception = none → (w.call calls call m).1.exception = none

/-- An instruction that does not write `$Exception` leaves none there. -/
theorem exception_instr (hw : World.Calm w) {i : Instr} {rest : List Instr} {c : Config}
    (hi : Ir.exceptionVar ∉ i.writes) (hd : d.memory.exception = none)
    (h : Machine.step w prog ⟨i :: rest, d⟩ = some c) : c.data.memory.exception = none := by
  cases i with
  | assert | assume =>
    simp only [Machine.step, Option.ite_none_right_eq_some, Option.some.injEq] at h
    rw [← h.2]
    exact hd
  | assign lhs rhs =>
    cases h
    cases lhs with
    | var x => exact (Data.exception_set (Ne.symm (List.ne_of_not_mem_cons hi)) _).trans hd
    | map => exact hd
  | call proc args outs =>
    cases h
    show (Machine.invoke w d proc _ outs).memory.exception = none
    unfold Machine.invoke
    split
    · exact (Data.exception_setAll hi _).trans hd
    · exact (Data.exception_setAll hi _).trans (hw _ _ _ hd)
  | note | branchUnless | jump | label =>
    cases h
    exact hd
  | goto l =>
    obtain ⟨ks, -, rfl⟩ := Option.map_eq_some_iff.mp h
    exact hd
  | ret => cases h

theorem exception_step (hw : World.Calm w) (hp : prog.all isPeaceful = true) {c c' : Config}
    (hc : c.rest <:+ prog) (hd : c.data.memory.exception = none)
    (h : Machine.step w prog c = some c') : c'.data.memory.exception = none := by
  obtain ⟨is, d⟩ := c
  cases is with
  | nil => cases h
  | cons i is =>
    have hi : isPeaceful i = true := List.all_eq_true.mp hp i (hc.subset List.mem_cons_self)
    refine exception_instr hw ?_ hd h
    cases i with
    | assign lhs rhs =>
      cases lhs with
      | var x => exact fun hmem => bne_iff_ne.mp hi (List.mem_singleton.mp hmem).symm
      | map => exact List.not_mem_nil
    | call proc args outs =>
      have houts : Ir.exceptionVar ∉ outs := by simpa [isPeaceful] using hi
      exact houts
    | _ => exact List.not_mem_nil

/-- Where no call raises, no exception is ever pending in peaceful code, and no throw is reached. -/
theorem calm_of_isPeaceful (hw : World.Calm w) (hp : prog.all isPeaceful = true)
    (hd : d.memory.exception = none) {c : Config} (h : Reaches w prog ⟨prog, d⟩ c) :
    c.data.memory.exception = none ∧ ∀ js, c.rest ≠ .assume (.bool false) :: js := by
  constructor
  · induction h with
    | refl => exact hd
    | tail hc hs ih =>
      exact exception_step hw hp (Machine.Reaches.suffix hc (List.suffix_refl _)) ih hs
  · intro js hjs
    have hsuf := Machine.Reaches.suffix h (List.suffix_refl _)
    rw [hjs] at hsuf
    cases List.all_eq_true.mp hp _ (hsuf.subset List.mem_cons_self)

end

/-! ## Agreement -/

/-- A method is lowered with exceptions and without, all other options being equal. No variable or
label of its body looks generated, its jumps are even, and catch clauses and thrown values neither
push nor pop. Take any callees, and any data in which no intermediate value is computed, such that
no exception is pending anywhere in the run without exceptions.

Wherever the run without exceptions comes, the run with exceptions comes to a place where the source
program can tell no difference, at the end if the first is at its end. The converse holds too, unless
the run without exceptions comes to a throw, which it cannot pass. -/
theorem lowerMethod_modes_agree {env : Env} {owner : TypeDef} {m : MethodDef} {body : Stmt}
    {p p' : Ir.Procedure} {shared shared₁ shared₀ : Shared} {cmds cmds' : List Cmd}
    (h : (lowerMethod (env.withMode 1) owner m).run shared = (.ok p, shared₁))
    (h' : (lowerMethod (env.withMode 0) owner m).run shared = (.ok p', shared₀))
    (hbody : m.body = some body) (hcmds : p.body = some cmds) (hcmds' : p'.body = some cmds')
    (hnames : ∀ x ∈ body.names ++ body.labels, isGenerated x = false)
    (hjumps : body.JumpsEvenly) (hops : body.operandsApart = true)
    (hsize : (flatten cmds).length < 2 ^ 63) (w : World) {d : Data} (hd : Unset d)
    (hcalm : ∀ c', Reaches w (flatten cmds') ⟨flatten cmds', d⟩ c' →
      c'.data.memory.exception = none) :
    (∀ c', Reaches w (flatten cmds') ⟨flatten cmds', d⟩ c' →
      ∃ c, Reaches w (flatten cmds) ⟨flatten cmds, d⟩ c ∧ Same w c.data c'.data ∧
        (c'.isDone = true → c.isDone = true)) ∧
    ∀ c, Reaches w (flatten cmds) ⟨flatten cmds, d⟩ c →
      ∃ c', Reaches w (flatten cmds') ⟨flatten cmds', d⟩ c' ∧
        (Same w c.data c'.data ∧ (c.isDone = true → c'.isDone = true) ∨
          ∃ js, c'.rest = .assume (.bool false) :: js) := by
  have hn : Known IsSource body.names := fun x hx => hnames x (List.mem_append_left _ hx)
  have hl : ∀ l ∈ body.labels, isGenerated l = false :=
    fun l hl => hnames l (List.mem_append_right _ hl)
  obtain ⟨scopes, hsc, -⟩ := lowerMethod_listed rfl hbody h
  obtain ⟨⟨hlabels, htries⟩, -⟩ := LabelScopes.collect_eq_ok.mp hsc
  obtain ⟨W, hsound, hrest⟩ :=
    lowerMethod_rest h h' hbody hcmds hcmds' ⟨hlabels, htries, hl, hjumps⟩ hn hops
  have hcourse : Course w (plan body W) (flatten cmds) (flatten cmds') ⟨flatten cmds, d⟩
      ⟨flatten cmds', d⟩ := by
    refine ⟨hsound, lowerMethod_labels_nodup rfl h hbody hcmds hl, hsize, hrest, ?_,
      fun hc => hcalm _ hc⟩
    exact ⟨[], List.suffix_refl _, hrest, hd.agree _, hcalm ⟨flatten cmds', d⟩ .refl, nofun⟩
  constructor
  · intro c' hc'
    obtain ⟨c, hc, hagree, hdone⟩ := hcourse.follows hc'
    exact ⟨c, hc, hagree.same, hdone⟩
  · intro c hc
    obtain ⟨c', hc', hor⟩ := hcourse.followed hc
    exact ⟨c', hc', hor.imp_left fun ⟨hagree, hdone⟩ => ⟨hagree.same, hdone⟩⟩

/-- A type that declares nothing. -/
def emptyType : TypeDef := ⟨⟨"T", none⟩, .classType, [], [], [], [], []⟩

/-- A call of a method without arguments. -/
def callOf (name : String) : Stmt :=
  .expr (.ofCall (.direct ⟨⟨"T", none⟩, name, []⟩ none []) .void)

/-- A method that jumps out of a `try` statement with a catch clause, to one with a finally
block. -/
def tidyBody : Stmt := .block
  [.withId (.ofKind (.tryCatch (.block [callOf "open", .goto "out"])
    [⟨{}, none, none, callOf "report"⟩] none)) 1,
   .labeled "out" (.withId (.ofKind (.tryCatch (callOf "use") [] (some (callOf "close")))) 2)]

/-- Callees that return nothing and raise nothing. -/
def calmWorld : World := ⟨fun _ _ => false, fun _ => false, fun _ _ => rfl, fun _ _ m => (m, [])⟩

/-- Data in which nothing has a value. -/
def blankData : Data := ⟨fun _ => .null, {}, []⟩

theorem tidyBody_modes_agree :
    ∃ p p' shared₁ shared₀ cmds cmds',
      (lowerMethod (Env.withMode {} 1) emptyType { name := "tidy", body := some tidyBody }).run {} =
        (.ok p, shared₁) ∧
      (lowerMethod (Env.withMode {} 0) emptyType { name := "tidy", body := some tidyBody }).run {} =
        (.ok p', shared₀) ∧
      p.body = some cmds ∧ p'.body = some cmds' ∧
      (∀ c', Reaches calmWorld (flatten cmds') ⟨flatten cmds', blankData⟩ c' →
        ∃ c, Reaches calmWorld (flatten cmds) ⟨flatten cmds, blankData⟩ c ∧
          Same calmWorld c.data c'.data ∧ (c'.isDone = true → c.isDone = true)) ∧
      ∀ c, Reaches calmWorld (flatten cmds) ⟨flatten cmds, blankData⟩ c →
        ∃ c', Reaches calmWorld (flatten cmds') ⟨flatten cmds', blankData⟩ c' ∧
          (Same calmWorld c.data c'.data ∧ (c.isDone = true → c'.isDone = true) ∨
            ∃ js, c'.rest = .assume (.bool false) :: js) := by
  have h₁ : (((lowerMethod (Env.withMode {} 1) emptyType
      { name := "tidy", body := some tidyBody }).run {}).1.toOption.bind (·.body)).any
        (fun cmds => decide ((flatten cmds).length < 100)) = true := by decide +kernel
  have h₀ : (((lowerMethod (Env.withMode {} 0) emptyType
      { name := "tidy", body := some tidyBody }).run {}).1.toOption.bind (·.body)).any
        (fun cmds => (flatten cmds).all isPeaceful) = true := by decide +kernel
  obtain ⟨p, shared₁, cmds, hrun, hp, hsize⟩ := exists_commands h₁
  obtain ⟨p', shared₀, cmds', hrun', hp', hpeace⟩ := exists_commands h₀
  refine ⟨p, p', shared₁, shared₀, cmds, cmds', hrun, hrun', hp, hp', ?_⟩
  have hlen := of_decide_eq_true hsize
  exact lowerMethod_modes_agree hrun hrun' rfl hp hp' (by decide +kernel) (by decide +kernel) rfl
    (by omega) calmWorld (fun _ _ => rfl)
    fun c' hc' => (calm_of_isPeaceful (fun _ _ _ hm => hm) hpeace rfl hc').1

/-! ## Conditions -/

theorem reaches_run (w : World) (prog : List Instr) (n : Nat) (c : Config) :
    Reaches w prog c (Machine.run w prog n c) := by
  induction n generalizing c with
  | zero => exact .refl
  | succ n ih =>
    rw [Machine.run]
    split
    · next hs => exact .head hs (ih _)
    · exact .refl

/-- The run stops in fewer than so many steps and passes the test wherever it comes. -/
def passesEverywhere (w : World) (prog : List Instr) (test : Config → Bool) : Nat → Config → Bool
  | 0, _ => false
  | n + 1, c => test c && ((Machine.step w prog c).map (passesEverywhere w prog test n)).getD true

theorem passes_of_reaches {w : World} {prog : List Instr} {test : Config → Bool} {n : Nat}
    {c c' : Config} (h : passesEverywhere w prog test n c = true) (hr : Reaches w prog c c') :
    test c' = true := by
  induction n generalizing c with
  | zero => cases h
  | succ n ih =>
    rw [passesEverywhere, Bool.and_eq_true] at h
    obtain ⟨hc, h⟩ := h
    rcases hr.cases_head with rfl | ⟨d, hs, hr⟩
    · exact hc
    · rw [hs] at h
      exact ih h hr

/-- Control is at a throw, in the code without exceptions. -/
def isAtThrow (c : Config) : Bool :=
  match c.rest with
  | .assume (.lit (.bool false)) :: _ => true
  | _ => false

/-- Both modes accept the body. Without exceptions nothing is raised in its run, and these calls are
never made; with exceptions they are. -/
def Disagree (body : Stmt) (calls : List Machine.Call) (d : Data) : Prop :=
  ∃ p p' shared₁ shared₀ cmds cmds',
    (lowerMethod (Env.withMode {} 1) emptyType { name := "m", body := some body }).run {} =
      (.ok p, shared₁) ∧
    (lowerMethod (Env.withMode {} 0) emptyType { name := "m", body := some body }).run {} =
      (.ok p', shared₀) ∧
    p.body = some cmds ∧ p'.body = some cmds' ∧
    (∃ c, Reaches calmWorld (flatten cmds) ⟨flatten cmds, d⟩ c ∧ c.data.calls = calls) ∧
    ∀ c', Reaches calmWorld (flatten cmds') ⟨flatten cmds', d⟩ c' →
      c'.data.memory.exception = none ∧ isAtThrow c' = false ∧ c'.data.calls ≠ calls

/-- A hundred steps of the runs show that the modes disagree. -/
def runsDisagree (body : Stmt) (calls : List Machine.Call) (d : Data) : Bool :=
  let lowered (mode : UInt8) (check : List Cmd → Bool) : Bool :=
    (((lowerMethod (Env.withMode {} mode) emptyType { name := "m", body := some body }).run
      {}).1.toOption.bind (·.body)).any check
  lowered 1 (fun cmds =>
    (Machine.run calmWorld (flatten cmds) 100 ⟨flatten cmds, d⟩).data.calls == calls) &&
  lowered 0 fun cmds => passesEverywhere calmWorld (flatten cmds)
    (fun c => c.data.memory.exception.isNone && (!isAtThrow c && c.data.calls != calls)) 100
    ⟨flatten cmds, d⟩

theorem disagree_of_runs {body : Stmt} {calls : List Machine.Call} {d : Data}
    (h : runsDisagree body calls d = true) : Disagree body calls d := by
  rw [runsDisagree, Bool.and_eq_true] at h
  obtain ⟨p, shared₁, cmds, hrun, hp, hcalls⟩ := exists_commands h.1
  obtain ⟨p', shared₀, cmds', hrun', hp', hpass⟩ := exists_commands h.2
  refine ⟨p, p', shared₁, shared₀, cmds, cmds', hrun, hrun', hp, hp', ?_, fun c' hc' => ?_⟩
  · exact ⟨_, reaches_run _ _ _ _, beq_iff_eq.mp hcalls⟩
  · simpa using passes_of_reaches hpass hc'

section

open Source (Expr)

/-- A call of a method with an integer argument. -/
def tell (name : String) (e : Expr) : Stmt :=
  .expr (.ofCall (.direct ⟨⟨"T", none⟩, name, [.int]⟩ none [e]) .void)

/-- A `try` statement with a catch clause. -/
def caught (body handler : Stmt) : Stmt := .ofKind (.tryCatch body [⟨{}, none, none, handler⟩] none)

/-- A `try` statement with a finally block. -/
def closed (body finalizer : Stmt) : Stmt := .ofKind (.tryCatch body [] (some finalizer))

def push (e : Expr) : Stmt := .ofKind (.push e)

def popped : Expr := .ofKind .pop .int

/-- A variable that says how a region is left, and a label that a finally block has. -/
def generatedNames : List (Stmt × List Machine.Call) :=
  [(.block [.expr (.assign (.var "$label") (.int 5)), closed .empty .empty,
      tell "f" (.var "$label" .int)], [⟨"T.f$int", [.int (-1)]⟩]),
    (.block [.goto "start", .labeled "$finally0" (.block [callOf "f", .ofKind (.ret none)]),
      .labeled "start" (closed .empty .empty)], [⟨"T.f", []⟩])]

/-- Jumps past a finally block, into a catch clause, and into a finally block, where an exception is
brought back that was never put aside. -/
def unevenJumps : List (Stmt × List Machine.Call) :=
  [(.block [closed (.goto "end") (callOf "f"), .labeled "end" .empty], [⟨"T.f", []⟩]),
    (caught (.goto "in") (.labeled "in" (callOf "f")), [⟨"T.f", []⟩]),
    (caught ((closed (.goto "in") (.labeled "in" .empty)).withId 1) (callOf "f"), [⟨"T.f", []⟩])]

/-- Operands that a catch clause or a throw takes away or leaves behind. -/
def sharedOperands : List (Stmt × List Machine.Call) :=
  [(.block [push (.int 1), push (.int 2), caught .empty (tell "f" popped), tell "f" popped],
      [⟨"T.f$int", [.int 1]⟩]),
    (.block [push (.int 1), caught .empty (push (.int 2)), tell "f" popped],
      [⟨"T.f$int", [.int 2]⟩]),
    (.block [push (.int 1), push (.int 2), .ifElse (.bool false) (.ofKind (.throw popped)) .empty,
      tell "f" popped], [⟨"T.f$int", [.int 1]⟩])]

/-- A jump over the call whose result is popped; the results are numbered differently. -/
def skippedCall : Stmt :=
  let give : Expr := .ofCall (.direct ⟨⟨"T", none⟩, "f", []⟩ none []) .int
  .block [caught .empty (.expr give), .goto "end", push give, .labeled "end" (tell "g" popped)]

/-- Data in which every variable holds one object. -/
def staleData : Data := ⟨fun _ => .ref (some ⟨0, "E"⟩), {}, []⟩

/-- Data in which the first two intermediate values differ. -/
def mixedData : Data := ⟨fun x => .int (if x = "$tmp0" then 1 else 2), {}, []⟩

/-- No condition can be left out, on names, on jumps, on operands and on the intermediate values at
the start: without it the modes can differ though nothing is raised. -/
theorem modes_disagree_without :
    Unset staleData ∧
    (∀ b ∈ generatedNames, b.1.JumpsEvenly ∧ b.1.operandsApart = true ∧
      Disagree b.1 b.2 staleData) ∧
    (∀ b ∈ unevenJumps, (∀ x ∈ b.1.names ++ b.1.labels, isGenerated x = false) ∧
      b.1.operandsApart = true ∧ Disagree b.1 b.2 staleData) ∧
    (∀ b ∈ sharedOperands, (∀ x ∈ b.1.names ++ b.1.labels, isGenerated x = false) ∧
      b.1.JumpsEvenly ∧ Disagree b.1 b.2 staleData) ∧
    (∀ x ∈ skippedCall.names ++ skippedCall.labels, isGenerated x = false) ∧
      skippedCall.JumpsEvenly ∧ skippedCall.operandsApart = true ∧
      Disagree skippedCall [⟨"T.g$int", [.int 2]⟩] mixedData := by
  have hnames : ∀ b ∈ generatedNames, b.1.JumpsEvenly ∧ b.1.operandsApart = true ∧
      runsDisagree b.1 b.2 staleData = true := by decide +kernel
  have hjumps : ∀ b ∈ unevenJumps, (∀ x ∈ b.1.names ++ b.1.labels, isGenerated x = false) ∧
      b.1.operandsApart = true ∧ runsDisagree b.1 b.2 staleData = true := by decide +kernel
  have hops : ∀ b ∈ sharedOperands, (∀ x ∈ b.1.names ++ b.1.labels, isGenerated x = false) ∧
      b.1.JumpsEvenly ∧ runsDisagree b.1 b.2 staleData = true := by decide +kernel
  refine ⟨fun _ _ => rfl, fun b hb => ?_, fun b hb => ?_, fun b hb => ?_, ?_⟩
  · exact (hnames b hb).imp_right (And.imp_right disagree_of_runs)
  · exact (hjumps b hb).imp_right (And.imp_right disagree_of_runs)
  · exact (hops b hb).imp_right (And.imp_right disagree_of_runs)
  · exact ⟨by decide +kernel, by decide +kernel, by decide +kernel,
      disagree_of_runs (by decide +kernel)⟩

end

end Unwind.Modes
