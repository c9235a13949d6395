import Unwind.Proofs.JumpTargets
import Unwind.Proofs.Simulation

/-!
# Unwinding is faithful

The code of a structured body does what the body does: it halts, makes the calls of the structured
run, and ends with its exception. The simulation is an induction over the body; each statement has
one lemma that puts the simulations of its parts together.

A region has three parts. The body and the catch clauses both end at the finally block, with what
is under way in `$Exception`; the finally block puts it aside and brings it back, unless it raises
itself. So what a part has to know of the regions around it is only where its exceptions go.
-/

namespace Unwind.Structured

open Source (CatchClause Expr MethodDef Path Stmt TypeDef Variable)
open Lowering
open Machine (Config Data Instr Object Reaches Value World eval flatten isGenerated isOwn labels)

/-! ## Parts -/

/-- In a catch clause, the region of the clause keeps what was caught. -/
def Caught (inCatch : Bool) (ρ : List Frame) (c : Counters) (caught : Option Object) (D : Data) :
    Prop :=
  inCatch = true → ∃ r e, catchOf ρ = some r ∧ r < c.regions ∧ caught = some e ∧
    D.locals (Slot.caught r).name = .ref (some e)

/-- The code between the frames `ρ` does what the structured run does. -/
def Refines (w : World) (prog : List Instr) (env : Env) (ρ : List Frame) (c : Counters)
    (inCatch : Bool) (code : List Instr) (run : Option Object → Data → Outcome × Data) : Prop :=
  ∀ ⦃D d : Data⦄ ⦃caught : Option Object⦄ ⦃rest : List Instr⦄, code ++ rest <:+ prog →
    Caught inCatch ρ c caught D → Matches D d none →
    Simulates w prog c ⟨code ++ rest, D⟩ (Left env ρ rest) (run caught d)

section Parts

variable {w : World} {prog rest : List Instr} {env : Env} {ρ : List Frame} {c c' : Counters}
  {inCatch : Bool} {caught : Option Object} {D D' d : Data} {π : Path}

theorem Caught.keep (h : Caught inCatch ρ c caught D) (hk : Keeps c D D') :
    Caught inCatch ρ c caught D' := by
  intro hin
  obtain ⟨r, e, hr, hlt, he, hD⟩ := h hin
  exact ⟨r, e, hr, hlt, he, (hk (.caught r) hlt).trans hD⟩

theorem Caught.mono (h : Caught inCatch ρ c caught D) (hg : Grows c c') :
    Caught inCatch ρ c' caught D := by
  intro hin
  obtain ⟨r, e, hr, hlt, he, hD⟩ := h hin
  exact ⟨r, e, hr, Nat.lt_of_lt_of_le hlt hg.regions, he, hD⟩

/-- A frame outside its catch clauses catches nothing. -/
theorem Caught.cons {f : Frame} (h : Caught inCatch ρ c caught D) (hf : f.phase ≠ .inCatch) :
    Caught inCatch (f :: ρ) c caught D := by
  intro hin
  obtain ⟨r, e, hr, h⟩ := h hin
  refine ⟨r, e, ?_, h⟩
  rw [← hr, catchOf, catchOf, List.find?_cons_of_neg (by simpa using hf)]

theorem suffix_right {as bs : List Instr} (h : as ++ bs <:+ prog) : bs <:+ prog :=
  (List.suffix_append as bs).trans h

/-- Marks in front of the code. -/
theorem Refines.quiet {is code : List Instr} {run : Option Object → Data → Outcome × Data}
    (hq : ∀ i ∈ is, Quiet i) (h : Refines w prog env ρ c inCatch code run) :
    Refines w prog env ρ c inCatch (is ++ code) run := by
  intro D d caught rest hs hc hm
  rw [List.append_assoc] at hs ⊢
  exact simulates_quiet hq (h (suffix_right hs) hc hm)

/-- One statement after another. -/
theorem refines_seq {as bs : List Instr} {run run' : Option Object → Data → Outcome × Data}
    (hg : Grows c c') (ha : Refines w prog env ρ c inCatch as run)
    (hb : Refines w prog env ρ c' inCatch bs run') :
    Refines w prog env ρ c inCatch (as ++ bs) fun caught d =>
      match run caught d with
      | (.normal, d₁) => run' caught d₁
      | (.raised e, d₁) => (.raised e, d₁) := by
  intro D d caught rest hs hc hm
  rw [List.append_assoc] at hs ⊢
  have h := ha hs hc hm
  dsimp only
  generalize run caught d = r at h ⊢
  obtain ⟨o, d₁⟩ := r
  cases o with
  | normal =>
    obtain ⟨is, D₁, rfl, hr, hm₁, hk⟩ := h
    exact ((hb (suffix_right hs) ((hc.keep hk).mono hg) hm₁).mono hg).head hr hk
  | raised e => exact h.raised

theorem refines_conditional {cond : Expr} {v : Ir.Expr} {is : List Instr} {as bs : List Line}
    {run run' : Option Object → Data → Outcome × Data} (he : isAtom cond = true)
    (hq : ∀ i ∈ is, Quiet i) (hv : truthOf cond (atomExpr env cond) = .ok v) (hg : Grows c c')
    (ha : Refines w prog env ρ c inCatch (instrs as) run)
    (hb : Refines w prog env ρ c' inCatch (instrs bs) run') :
    Refines w prog env ρ c inCatch (is ++ instrs (choice π ρ v as bs)) fun caught d =>
      if truth env w d cond then run caught d else run' caught d := by
  refine Refines.quiet hq ?_
  intro D d caught rest hs hc hm
  have htest := holds_truthOf (w := w) he hm hv
  rw [instrs_choice, List.cons_append, List.append_assoc, List.cons_append] at hs
  have hs' := (List.suffix_cons _ _).trans hs
  dsimp only
  cases ht : truth env w d cond with
  | true =>
    refine Simulates.head (reaches_choice_then (htest.trans ht)) (.refl _ _) ?_
    have h := ha hs' hc hm
    rw [if_pos rfl]
    generalize run caught d = r at h ⊢
    obtain ⟨o, d₁⟩ := r
    cases o with
    | normal =>
      obtain ⟨is, D₁, rfl, hr, hm₁, hk⟩ := h
      exact ⟨rest, D₁, rfl, hr.trans Machine.reaches_jump, hm₁, hk⟩
    | raised e => exact h.raised
  | false =>
    refine Simulates.head (reaches_choice_else (htest.trans ht)) (.refl _ _) ?_
    rw [if_neg Bool.false_ne_true]
    exact (hb ((List.suffix_cons _ _).trans (suffix_right hs')) (hc.mono hg) hm).mono hg

end Parts

/-! ## Regions -/

section Regions

variable {w : World} {prog rest : List Instr} {env : Env} {ρ : List Frame} {c c' : Counters}
  {inCatch : Bool} {caught : Option Object} {D D' d : Data} {π : Path} {r : Nat} {node : UInt32}

/-- The code from the end of the finally block on. -/
def endCode (env : Env) (π : Path) (ρ : List Frame) (r : Nat) (rest : List Instr) : List Instr :=
  .goto (Tag.behind r).name :: .label (Tag.behind r).name :: (instrs (checkLines env π ρ) ++ rest)

/-- Behind the region, what is under way goes on. -/
theorem simulates_behind {o : Outcome} {more : List Instr} (hnd : (labels prog).Nodup)
    (hs : .label (Tag.behind r).name :: (instrs (checkLines env π ρ) ++ rest) <:+ prog)
    (hm : Matches D d o.exception?) :
    Simulates w prog c ⟨.goto (Tag.behind r).name :: more, D⟩ (Left env ρ rest) (o, d) :=
  (simulates_check hm).head (Machine.reaches_goto hnd hs) (.refl _ _)

/-- Leaving a part of a region, for whatever reason, leads to its finally block. -/
theorem simulates_leave {o : Outcome} {v : Ir.Expr} {more code : List Instr}
    (hnd : (labels prog).Nodup) (hs : .label (Tag.finalizer r).name :: code <:+ prog)
    (hm : Matches D d o.exception?) :
    Simulates w prog c ⟨.set labelVar v :: .goto (Tag.finalizer r).name :: more, D⟩
      (fun _ is => is = code) (o, d) := by
  have hown : isOwn .label = true := rfl
  refine ⟨code, D.set w labelVar (eval w D v), rfl, ?_, hm.set_own hown _, .set_own hown id _⟩
  exact Machine.reaches_set.trans (Machine.reaches_goto hnd hs)

/-- A part that is left in either way leads to the finally block. -/
theorem Simulates.leave {start : Config} {res : Outcome × Data} {code : List Instr}
    (more : List Instr) (hnd : (labels prog).Nodup) (hs : .label (Tag.finalizer r).name :: code <:+ prog)
    (h : Simulates w prog c start (Left env (⟨r, node, .inCatch, π⟩ :: ρ)
      (.set labelVar (.int normal) :: .goto (Tag.finalizer r).name :: more)) res) :
    Simulates w prog c start (fun _ is => is = code) res := by
  obtain ⟨o, d₁⟩ := res
  cases o with
  | normal =>
    obtain ⟨is, D₁, rfl, hr, hm, hk⟩ := h
    exact (simulates_leave hnd hs (o := .normal) hm).head hr hk
  | raised e =>
    obtain ⟨is, D₁, ⟨more', rfl⟩, hr, hm, hk⟩ := h
    exact (simulates_leave hnd hs (o := .raised e) hm).head hr hk

/-- In front of a finally block, what is under way is put aside. -/
theorem reaches_putAside {n : Nat} {pending : Option Object} (hn : c.temps ≤ n)
    (hm : Matches D d pending) :
    ∃ D', Reaches w prog ⟨.set (Slot.savedExc n).name .exception ::
        .set (Slot.savedLabel (n + 1)).name (.ident labelVar) ::
        .set Ir.exceptionVar .null :: rest, D⟩ ⟨rest, D'⟩ ∧
      Matches D' d none ∧ D'.locals (Slot.savedExc n).name = .ref pending ∧ Keeps c D D' := by
  have hexc : isOwn (.savedExc n) = true := rfl
  have hlab : isOwn (.savedLabel (n + 1)) = true := rfl
  have hne : (Slot.savedExc n).name ≠ (Slot.savedLabel (n + 1)).name :=
    fun he => nomatch Slot.name_inj (Machine.isOwn_proper hexc) (Machine.isOwn_proper hlab) he
  have heval : eval w D .exception = .ref pending := by
    rw [Ir.Expr.exception, eval, Data.get_exception, hm.exception]
  refine ⟨_, Machine.reaches_set.trans (Machine.reaches_set.trans Machine.reaches_set), ?_, ?_, ?_⟩
  · exact ((hm.set_own hexc _).set_own hlab _).set_exception _
  · simp only [heval, Data.set_exception, Data.set_own hlab, Data.set_own hexc,
      Function.update_of_ne hne, Function.update_self]
  · refine Keeps.trans ?_ (.set_exception _)
    exact Keeps.trans (.set_own hexc (Nat.not_lt.mpr hn) _)
      (.set_own hlab (Nat.not_lt.mpr (Nat.le_succ_of_le hn)) _)

/-- Behind a finally block that completes, it is brought back. -/
theorem reaches_bringBack {n : Nat} {pending : Option Object} {v : Ir.Expr} (hm : Matches D d none)
    (hsaved : D.locals (Slot.savedExc n).name = .ref pending) :
    ∃ D', Reaches w prog ⟨.set Ir.exceptionVar (.ident (Slot.savedExc n).name) ::
        .set labelVar v :: rest, D⟩ ⟨rest, D'⟩ ∧ Matches D' d pending ∧ Keeps c D D' := by
  have hlab : isOwn .label = true := rfl
  have heval : eval w D (.ident (Slot.savedExc n).name) = .ref pending := by
    rw [eval, Data.get_own rfl, hsaved]
  refine ⟨_, Machine.reaches_set.trans Machine.reaches_set, ?_, ?_⟩
  · rw [heval]
    exact (hm.set_exception _).set_own hlab _
  · exact Keeps.trans (.set_exception _) (.set_own hlab id _)

/-- A finally block: it runs with nothing under way, and then brings back what it has put aside. -/
theorem simulates_finally {st : Stmt} {ls : List Line} {n : Nat} {o : Outcome}
    (hnd : (labels prog).Nodup) (hn : c.temps ≤ n)
    (hst : Refines w prog env (⟨r, node, .inFinally, π⟩ :: ρ) { c with temps := n + 2 } inCatch
      (instrs ls) fun caught d => exec env w caught st d)
    (hs : instrs (finallyLines π (⟨r, node, .inFinally, π⟩ :: ρ) n ls) ++ endCode env π ρ r rest
      <:+ prog)
    (hc : Caught inCatch ρ c caught D) (hm : Matches D d o.exception?) :
    Simulates w prog c
      ⟨instrs (finallyLines π (⟨r, node, .inFinally, π⟩ :: ρ) n ls) ++ endCode env π ρ r rest, D⟩
      (Left env ρ rest) (execFinally env w caught (some st) (o, d)) := by
  have hgrow : Grows c { c with temps := n + 2 } := .withTemps (by omega)
  simp only [finallyLines, instrs_append, instrs_own, List.append_assoc, List.cons_append,
    List.nil_append] at hs ⊢
  have hbody := (List.suffix_append [_, _, _] _).trans hs
  have hbehind := (List.suffix_append [_, _, _] _).trans (suffix_right hbody)
  obtain ⟨D₁, hr₁, hm₁, hsaved, hk₁⟩ := reaches_putAside hn hm
  refine Simulates.head hr₁ hk₁ ?_
  have hc₁ := ((hc.keep hk₁).mono hgrow).cons (f := ⟨r, node, .inFinally, π⟩) (fun h => by cases h)
  have h := hst hbody hc₁ hm₁
  dsimp only at h
  rw [execFinally]
  generalize exec env w caught st d = res at h ⊢
  obtain ⟨o₁, d₁⟩ := res
  cases o₁ with
  | normal =>
    obtain ⟨is, D₂, rfl, hr₂, hm₂, hk₂⟩ := h
    have hsaved₂ : D₂.locals (Slot.savedExc n).name = .ref o.exception? :=
      (hk₂ (.savedExc n) (by show n < n + 2; omega)).trans hsaved
    obtain ⟨D₃, hr₃, hm₃, hk₃⟩ := reaches_bringBack hm₂ hsaved₂
    refine Simulates.head (hr₂.trans hr₃) ((hk₂.mono hgrow.regions hgrow.temps).trans hk₃) ?_
    exact simulates_behind hnd hbehind hm₃
  | raised e =>
    obtain ⟨is, D₂, ⟨more, rfl⟩, hr₂, hm₂, hk₂⟩ := h
    exact (simulates_behind hnd hbehind (o := .raised e) hm₂).head hr₂ (hk₂.mono hgrow.regions hgrow.temps)

/-- The head of the catch part takes the exception over. -/
theorem reaches_take {e : Object} {more : List Instr} (hnd : (labels prog).Nodup)
    (hr : ¬ held c (.caught r))
    (hs : instrs (takeLines π ⟨r, node, .inCatch, π⟩ ρ) ++ rest <:+ prog)
    (hm : Matches D d (some e)) :
    ∃ D', Reaches w prog ⟨.goto (Tag.catches r).name :: more, D⟩ ⟨rest, D'⟩ ∧ Matches D' d none ∧
      D'.locals (Slot.caught r).name = .ref (some e) ∧ Keeps c D D' := by
  rw [takeLines, instrs_append, instrs_raise, instrs_own] at hs
  have hown : isOwn (.caught r) = true := rfl
  have heval : eval w D .exception = .ref (some e) := by
    rw [Ir.Expr.exception, eval, Data.get_exception, hm.exception]
  refine ⟨_, (Machine.reaches_goto hnd hs).trans (Machine.reaches_set.trans Machine.reaches_set),
    ?_, ?_, ?_⟩
  · exact (hm.set_own hown _).set_exception _
  · rw [heval, Data.set_exception, Data.set_own hown]
    exact Function.update_self _ _ _
  · exact Keeps.trans (.set_own hown hr _) (.set_exception _)

/-- The code of a region up to its finally block. -/
def guardedCode (env : Env) (π : Path) (ρ : List Frame) (r : Nat) (node : UInt32)
    (body arms : List Line) (rest : List Instr) : List Instr :=
  instrs body ++ (instrs (leaveLines π (⟨r, node, .inTry, π⟩ :: ρ) r) ++
    (instrs (takeLines π ⟨r, node, .inCatch, π⟩ ρ) ++ (instrs arms ++
      (instrs (raiseLines env π (⟨r, node, .inCatch, π⟩ :: ρ) (.ident (Slot.caught r).name)) ++
        rest))))

/-- The tests of catch clauses: a clause that takes the exception leads to the finally block, and
without one the code in front of which the tests stand is next. -/
def CatchesRefine (w : World) (prog : List Instr) (env : Env) (c : Counters) (r : Nat)
    (code before : List Instr) (clauses : List CatchClause) (last : List Instr) : Prop :=
  ∀ ⦃D d : Data⦄ ⦃e : Object⦄ ⦃rest : List Instr⦄, code ++ rest <:+ prog →
    D.locals (Slot.caught r).name = .ref (some e) → Matches D d none →
    match execCatch env w e clauses d with
    | some res => Simulates w prog c ⟨code ++ rest, D⟩ (fun _ is => is = last) res
    | none => Reaches w prog ⟨code ++ rest, D⟩ ⟨before ++ rest, D⟩

/-- The body and the catch clauses of a region: wherever they lead, it is to the finally block. -/
theorem simulates_guarded {body : Stmt} {clauses : List CatchClause} {bs as : List Line}
    {c₁ : Counters} {last : List Instr} (hnd : (labels prog).Nodup)
    (hg : Grows { c with regions := c.regions + 1 } c₁)
    (hbody : Refines w prog env (⟨c.regions, node, .inTry, π⟩ :: ρ)
      { c with regions := c.regions + 1 } inCatch (instrs bs) fun caught d =>
        exec env w caught body d)
    (hcatches : CatchesRefine w prog env c₁ c.regions (instrs as) [] clauses last)
    (hfin : .label (Tag.finalizer c.regions).name :: last <:+ prog)
    (hs : guardedCode env π ρ c.regions node bs as rest <:+ prog)
    (hc : Caught inCatch ρ c caught D) (hm : Matches D d none) :
    Simulates w prog c ⟨guardedCode env π ρ c.regions node bs as rest, D⟩ (fun _ is => is = last)
      (execGuarded env w caught body clauses d) := by
  have hgrow := Grows.withRegion c
  unfold guardedCode at hs ⊢
  have h := hbody hs ((hc.mono hgrow).cons nofun) hm
  dsimp only at h
  unfold execGuarded
  generalize exec env w caught body d = res at h ⊢
  obtain ⟨o, d₁⟩ := res
  cases o with
  | normal =>
    obtain ⟨is, D₁, rfl, hr₁, hm₁, hk₁⟩ := h
    refine Simulates.head hr₁ (hk₁.mono hgrow.regions hgrow.temps) ?_
    rw [leaveLines, instrs_own]
    exact simulates_leave hnd hfin (o := .normal) hm₁
  | raised e =>
    obtain ⟨is, D₁, ⟨more, rfl⟩, hr₁, hm₁, hk₁⟩ := h
    have htake := suffix_right (suffix_right hs)
    obtain ⟨D₂, hr₂, hm₂, hcaught, hk₂⟩ := reaches_take hnd (Nat.lt_irrefl _) htake hm₁
    refine Simulates.head (hr₁.trans hr₂) ((hk₁.mono hgrow.regions hgrow.temps).trans hk₂) ?_
    have harms := hcatches (suffix_right htake) hcaught hm₂
    dsimp only
    cases hex : execCatch env w e clauses d₁ with
    | some res =>
      rw [hex] at harms
      exact harms.mono (hgrow.trans hg)
    | none =>
      rw [hex] at harms
      refine Simulates.head harms (.refl _ _) ?_
      have heval : eval w D₂ (.ident (Slot.caught c.regions).name) = .ref (some e) := by
        rw [eval, Data.get_own rfl, hcaught]
      exact Simulates.leave [] hnd hfin (simulates_raise hm₂ heval).raised

end Regions

/-! ## The induction -/

section Induction

variable {w : World} {prog : List Instr} {L : Layout}

/-- The head of a conditional does nothing but to compute the condition. -/
theorem plain_condition {π : Path} {ρ : List Frame} {span : Span} {cond : Expr} {s t : Stmt}
    {v : Ir.Expr} {hs : List Line} (he : isAtom cond = true)
    (hp : Plain L π ρ (do emitMarks L.env span (.conditional cond s t); condition L.env cond) v hs) :
    (∀ i ∈ instrs hs, Quiet i) ∧ truthOf cond (atomExpr L.env cond) = .ok v := by
  obtain ⟨-, st, st', -, hrun, hem⟩ := hp
  obtain ⟨_, st₁, h₁, h₂⟩ := runs_bind.mp hrun
  obtain ⟨v', h₂, hv⟩ := runs_conditionOf.mp h₂
  obtain ⟨hv', rfl⟩ := (runs_atom he).mp h₂
  cases hv'
  obtain ⟨is, hq, e₁⟩ := Marks.emitMarks h₁
  rw [emits_unique hem e₁]
  exact ⟨hq, hv⟩

/-- The head of a `rethrow` does nothing. -/
theorem plain_rethrow {π : Path} {ρ : List Frame} {span : Span} {region : Nat} {hs : List Line}
    (hr : catchOf ρ = some region)
    (hp : Plain L π ρ (do
      emitMarks L.env span .rethrow
      let caught ← exceptionLocal region
      record L.env "<rethrown exception>" .ref (.ident caught)) () hs) :
    ∀ i ∈ instrs hs, Quiet i := by
  obtain ⟨-, st, st', hv, hrun, hem⟩ := hp
  simp only [runs_bind] at hrun
  obtain ⟨_, s₁, h₁, x, s₂, h₂, h₃⟩ := hrun
  obtain ⟨f, hf, -, rfl⟩ := catchOf_mem hr
  have m₁ : Marks st s₁ := .emitMarks h₁
  obtain ⟨is, -, e₁⟩ := m₁
  have hv₁ := e₁.view hv
  have m₂ : Marks s₁ s₂ := ⟨[], by simp, (runs_exceptionLocal hv₁ (hv₁.lt_regions hf) h₂).2⟩
  obtain ⟨js, hq, e⟩ := (Marks.emitMarks h₁).trans (m₂.trans (.record h₃))
  rw [emits_unique hem e]
  exact hq

mutual

/-- The code of a structured statement does what the statement does. -/
theorem stmt_refines (st : Stmt) {π : Path} {ρ : List Frame} {c c' : Counters} {ls : List Line}
    {inCatch : Bool} (hnd : (labels prog).Nodup) (hmod : L.env.options.modelsExceptions = true)
    (hl : Listing L (.stmt st) π ρ c ls c') (hst : isStructured inCatch st = true) :
    Grows c c' ∧ Refines w prog L.env ρ c inCatch (instrs ls) fun caught d =>
      exec L.env w caught st d := by
  obtain ⟨id, span, kind⟩ := st
  cases kind with
  | block ss =>
    obtain ⟨hk, -⟩ | hl := hl.inv
    · cases hk
    obtain ⟨hg, h⟩ := stmts_refine ss hnd hmod hl hst
    refine ⟨hg, fun D d caught rest => ?_⟩
    simp only [exec]
    exact @h D d caught rest
  | empty =>
    obtain ⟨-, hp, rfl⟩ | hother := hl.inv
    · refine ⟨.refl _, fun D d caught rest hs hc hm => ?_⟩
      have hq := plain_quiet hp fun h => by
        simp only [lowerStmt, runs_bind, runs_pure] at h
        obtain ⟨_, s₁, h₁, -, rfl⟩ := h
        exact .emitMarks h₁
      simp only [exec]
      exact ⟨rest, D, rfl, reaches_quiet hq, hm, .refl _ _⟩
    · cases hother
  | conditional cond thenBranch elseBranch =>
    simp only [isStructured, Bool.and_eq_true, Bool.not_eq_true'] at hst
    obtain ⟨⟨⟨hatom, -⟩, hthen⟩, helse⟩ := hst
    obtain ⟨hk, -⟩ | ⟨_, _, _, _, _, _, _, hhs, hms, has, hns, hbs, rfl⟩ := hl.inv
    · cases hk
    obtain ⟨hq, hv⟩ := plain_condition hatom hhs
    obtain ⟨hg, ha⟩ := stmt_refines thenBranch hnd hmod has hthen
    obtain ⟨hg', hb⟩ := stmt_refines elseBranch hnd hmod hbs helse
    have hqa := plain_quiet hms fun h => .breadcrumb h
    have hqb := plain_quiet hns fun h => .breadcrumb h
    refine ⟨hg.trans hg', ?_⟩
    have ha' := ha.quiet hqa
    have hb' := hb.quiet hqb
    rw [← instrs_append] at ha' hb'
    have h := refines_conditional (π := π) hatom hq hv hg ha' hb'
    rw [instrs_append]
    intro D d caught rest
    simp only [exec]
    exact @h D d caught rest
  | expression e =>
    obtain ⟨eid, espan, ty, ekind⟩ := e
    obtain ⟨-, hp, rfl⟩ | hother := hl.inv
    · refine ⟨.refl _, ?_⟩
      cases ekind with
      | call call =>
        obtain ⟨method, receiver, args, virt⟩ := call
        have hvoid : isVoidCall ⟨eid, espan, ty, .call ⟨method, receiver, args, virt⟩⟩ = true := hst
        obtain ⟨is, hq, his⟩ := plain_call hmod hvoid hp
        simp only [isVoidCall, Bool.and_eq_true] at hvoid
        obtain ⟨⟨-, hrec⟩, hargs⟩ := hvoid
        have hatoms : ∀ e ∈ receiver.toList ++ args, isAtom e = true := by
          intro e he
          rcases List.mem_append.mp he with he | he
          · rw [Option.mem_toList] at he
            subst he
            exact hrec
          · exact List.all_eq_true.mp hargs e he
        rw [his]
        refine Refines.quiet hq fun D d caught rest _ _ hm => ?_
        rw [exec]
        exact simulates_call hm (eval_atoms hatoms hm L.env)
      | _ => cases hst
    · cases hother
  | throw e =>
    obtain ⟨eid, espan, ty, ekind⟩ := e
    obtain ⟨hk, -⟩ | ⟨_, _, hp, rfl, rfl⟩ := hl.inv
    · cases hk
    refine ⟨.refl _, ?_⟩
    cases ekind with
    | new type ctor args =>
      obtain ⟨n, is, js, rfl, hq, hq', his⟩ := plain_throw hmod hst hp
      rw [instrs_append, his, List.append_assoc]
      refine Refines.quiet hq fun D d caught rest _ _ hm => ?_
      rw [exec, List.cons_append, List.append_assoc, List.cons_append, List.append_assoc,
        List.append_assoc]
      exact simulates_throw hst hq' hm
    | _ => cases hst
  | rethrow =>
    obtain ⟨hk, -⟩ | ⟨_, _, hr, hp, rfl, rfl⟩ := hl.inv
    · cases hk
    refine ⟨.refl _, ?_⟩
    rw [instrs_append]
    refine Refines.quiet (plain_rethrow hr hp) fun D d caught rest _ hc hm => ?_
    obtain ⟨r, e, hr', -, rfl, hD⟩ := hc hst
    rw [hr] at hr'
    cases hr'
    rw [exec]
    exact simulates_raise hm (by rw [eval, Data.get_own rfl, hD])
  | tryCatch body catches finalizer =>
    simp only [isStructured, Bool.and_eq_true] at hst
    obtain ⟨⟨hbody, hcatches⟩, hfinal⟩ := hst
    obtain ⟨hk, -⟩ | ⟨c₁, c₂, ms, bs, as, fs, hms, hfresh, hbs, has, hfs, rfl⟩ := hl.inv
    · cases hk
    obtain ⟨hg₁, hb⟩ := stmt_refines body hnd hmod hbs hbody
    obtain ⟨hg₂, -, ha⟩ := catches_refine catches hnd hmod has hcatches
    obtain ⟨hg₃, hf⟩ := finalizer_refines finalizer hnd hmod hfs hfinal
    have hg := (Grows.withRegion c).trans (hg₁.trans (hg₂.trans hg₃))
    -- no jump leaves the region, so that the end of its finally block leads behind it
    have hjumps : c'.escapes c.regions = 0 := by rw [hg.escapes, hfresh]
    refine ⟨hg, ?_⟩
    rw [instrs_append, hjumps]
    refine Refines.quiet (plain_quiet hms fun h => .emitMarks h) ?_
    intro D d caught rest hs hc hm
    have hcode : instrs (regionLines L.env π ρ c.regions id bs as fs 0) ++ rest =
        guardedCode L.env π ρ c.regions id bs as (.label (Tag.finalizer c.regions).name ::
          (instrs fs ++ endCode L.env π ρ c.regions rest)) := by
      simp [regionLines, guardedCode, endCode, resumeLines, resumeTests, Machine.flattenCmd]
    rw [hcode] at hs ⊢
    have hfin := suffix_right (suffix_right (suffix_right (suffix_right (suffix_right hs))))
    have h := simulates_guarded hnd hg₁ hb (ha hfin hg₁.regions) hfin hs hc hm
    simp only [exec_tryCatch]
    generalize execGuarded L.env w caught body catches d = res at h ⊢
    obtain ⟨o, d₂⟩ := res
    obtain ⟨is, D₂, rfl, hr₂, hm₂, hk₂⟩ := h
    have hgrow := (Grows.withRegion c).trans (hg₁.trans hg₂)
    have hend := (List.suffix_cons _ _).trans hfin
    exact ((hf hend ((hc.keep hk₂).mono hgrow) hm₂).mono hgrow).head hr₂ hk₂
  | _ => cases hst

theorem stmts_refine (ss : List Stmt) {hop : Nat → Source.Hop} {i : Nat} {π : Path}
    {ρ : List Frame} {c c' : Counters} {ls : List Line} {inCatch : Bool}
    (hnd : (labels prog).Nodup) (hmod : L.env.options.modelsExceptions = true)
    (hl : Listing L (.stmts hop i ss) π ρ c ls c') (hss : allStructured inCatch ss = true) :
    Grows c c' ∧ Refines w prog L.env ρ c inCatch (instrs ls) fun caught d =>
      execAll L.env w caught ss d := by
  cases ss with
  | nil =>
    obtain ⟨rfl, rfl⟩ := hl.inv
    exact ⟨.refl _, fun D d caught rest _ _ hm => ⟨rest, D, rfl, .refl, hm, .refl _ _⟩⟩
  | cons st ss =>
    rw [allStructured, Bool.and_eq_true] at hss
    obtain ⟨_, _, _, ha, hb, rfl⟩ := hl.inv
    obtain ⟨hg, h⟩ := stmt_refines st hnd hmod ha hss.1
    obtain ⟨hg', h'⟩ := stmts_refine ss hnd hmod hb hss.2
    have hseq := refines_seq hg h h'
    rw [instrs_append]
    refine ⟨hg.trans hg', fun D d caught rest => ?_⟩
    simp only [execAll]
    exact @hseq D d caught rest

theorem catches_refine (clauses : List CatchClause) {i r : Nat} {node : UInt32} {π π' : Path}
    {ρ : List Frame} {c c' : Counters} {before ls : List Line} (hnd : (labels prog).Nodup)
    (hmod : L.env.options.modelsExceptions = true)
    (hl : Listing L (.catches r before i clauses) π (⟨r, node, .inCatch, π'⟩ :: ρ) c ls c')
    (hcl : catchesStructured clauses = true) :
    Grows c c' ∧ instrs before <:+ instrs ls ∧
      ∀ {last : List Instr}, .label (Tag.finalizer r).name :: last <:+ prog → r < c.regions →
        CatchesRefine w prog L.env c r (instrs ls) (instrs before) clauses last := by
  cases clauses with
  | nil =>
    obtain ⟨rfl, rfl⟩ := hl.inv
    exact ⟨.refl _, List.suffix_refl _, fun _ _ D d e rest _ _ _ => .refl⟩
  | cons clause clauses =>
    obtain ⟨span, type, binding, body⟩ := clause
    simp only [catchesStructured, Bool.and_eq_true] at hcl
    obtain ⟨⟨hbind, hbody⟩, hrest⟩ := hcl
    obtain ⟨ms, bs, c₁, hms, hbs, hls⟩ := hl.inv
    obtain ⟨hg₁, hb⟩ := stmt_refines body hnd hmod hbs hbody
    obtain ⟨hg₂, hsuf, hc⟩ := catches_refine clauses hnd hmod hls hrest
    refine ⟨hg₁.trans hg₂, ?_, ?_⟩
    · refine List.IsSuffix.trans ?_ hsuf
      rw [instrs_choice]
      exact (List.suffix_cons _ _).trans ((List.suffix_append _ _).trans (List.suffix_cons _ _))
    · intro last hfin hr D d e rest hs he hm
      have hlater := hc hfin (Nat.lt_of_lt_of_le hr hg₁.regions) hs he hm
      rw [execCatch]
      cases hex : execCatch L.env w e clauses d with
      | some res =>
        rw [hex] at hlater
        exact hlater.mono hg₁
      | none =>
        rw [hex] at hlater
        have htest := holds_catchTest (w := w) type he
        cases ht : catches w e type with
        | false => exact hlater.trans (reaches_choice_else (htest.trans ht))
        | true =>
          have hthen := hlater.trans (reaches_choice_then (htest.trans ht))
          obtain ⟨is, hq, his⟩ := plain_bind hms
          rw [instrs_append, instrs_append, his, leaveLines, instrs_own, List.append_assoc,
            List.append_assoc, List.append_assoc] at hthen
          obtain ⟨D₁, hr₁, hm₁, hk₁⟩ := reaches_bind hbind hm he
          have hr₂ := hthen.trans ((reaches_quiet hq).trans hr₁)
          refine Simulates.head hr₂ hk₁ ?_
          have hcaught : Caught true (⟨r, node, .inCatch, π'⟩ :: ρ) c (some e) D₁ :=
            fun _ => ⟨r, e, rfl, hr, rfl, (hk₁ (.caught r) hr).trans he⟩
          exact Simulates.leave _ hnd hfin (hb (Machine.Reaches.suffix hr₂ hs) hcaught hm₁)

theorem finalizer_refines (st : Option Stmt) {r : Nat} {node : UInt32} {π : Path} {ρ : List Frame}
    {c c' : Counters} {ls : List Line} {inCatch : Bool} (hnd : (labels prog).Nodup)
    (hmod : L.env.options.modelsExceptions = true)
    (hl : Listing L (.finalizer st) π (⟨r, node, .inFinally, π⟩ :: ρ) c ls c')
    (hst : optionStructured inCatch st = true) :
    Grows c c' ∧ ∀ {D d : Data} {caught : Option Object} {o : Outcome} {rest : List Instr},
      instrs ls ++ endCode L.env π ρ r rest <:+ prog → Caught inCatch ρ c caught D →
      Matches D d o.exception? →
      Simulates w prog c ⟨instrs ls ++ endCode L.env π ρ r rest, D⟩ (Left L.env ρ rest)
        (execFinally L.env w caught st (o, d)) := by
  cases st with
  | none =>
    obtain ⟨rfl, rfl⟩ := hl.inv
    refine ⟨.refl _, fun hs _ hm => ?_⟩
    rw [execFinally]
    exact simulates_behind hnd ((List.suffix_cons _ _).trans hs) hm
  | some st =>
    obtain ⟨n, ks, hn, hls, rfl⟩ := hl.inv
    obtain ⟨hg, h⟩ := stmt_refines st hnd hmod hls hst
    have hgrow : Grows c { c with temps := n + 2 } := .withTemps (by omega)
    refine ⟨hgrow.trans hg, ?_⟩
    intro D d caught o rest hs hc hm
    exact simulates_finally hnd hn h hs hc hm

end

end Induction

/-! ## Methods -/

/-- Behind a whole body, the procedure is over. -/
theorem isDone_left {w : World} {prog : List Instr} {env : Env} {o : Outcome} {is : List Instr}
    {D : Data} (h : Left env [] [] o is) :
    ∃ c, Reaches w prog ⟨is, D⟩ c ∧ c.isDone = true ∧ c.data = D := by
  cases o with
  | normal =>
    obtain rfl : is = [] := h
    exact ⟨⟨[], D⟩, .refl, rfl, rfl⟩
  | raised e =>
    obtain ⟨more, rfl⟩ := h
    refine ⟨⟨.ret :: more, D⟩, ?_, rfl, rfl⟩
    rw [propagation, List.append_assoc]
    refine reaches_quiet fun i hi => ?_
    split at hi
    · rw [List.mem_singleton.mp hi]
      exact .note
    · cases hi

/-- A method with a structured body and distinct `try` ids is lowered. Wherever its code starts
without an exception, and whatever the callees do, it halts with the calls and the exception of the
structured run. -/
theorem lowerMethod_unwinds {env : Env} (owner : TypeDef) {m : MethodDef} {body : Stmt}
    (shared : Shared) (hm : env.options.modelExceptions ≠ 0) (hbody : m.body = some body)
    (hparams : ∀ p ∈ m.params, p.ty.isVoid = false) (hst : isStructured false body = true)
    (htries : body.tries.Nodup) :
    ∃ p shared' cmds, (lowerMethod env owner m).run shared = (.ok p, shared') ∧
      p.body = some cmds ∧
      ∀ (w : World) (d : Data), d.memory.exception = none →
        ∃ c, Reaches w (flatten cmds) ⟨flatten cmds, d⟩ c ∧ c.isDone = true ∧
          c.data.calls = (exec env w none body d).2.calls ∧
          c.data.memory.exception = (exec env w none body d).1.exception? := by
  have hmod : env.options.modelsExceptions = true := bne_iff_ne.mpr hm
  obtain ⟨p, shared', hrun⟩ := lowerMethod_succeeds owner shared hmod hbody hparams hst htries
  obtain ⟨scopes, hsc, hlist⟩ := lowerMethod_listed hmod hbody hrun
  obtain ⟨lines, hlines, cmds, hp, hf⟩ := hlist (fun _ => True) (fun _ _ => trivial)
  obtain ⟨-, rfl⟩ := LabelScopes.collect_eq_ok.mp hsc
  refine ⟨p, shared', cmds, hrun, hp, fun w d hd => ?_⟩
  obtain ⟨hlabels, hone⟩ := labels_of_isStructured body hst
  have hnd : (labels (flatten cmds)).Nodup := by
    rw [hf]
    exact hlines.nodup_labels hone (by rw [hlabels]; exact .nil) (Source.map_fst_scoped body none)
      (by simp [hlabels])
  obtain ⟨hms, hls⟩ := hlines
  obtain ⟨-, h⟩ := stmt_refines (w := w) body hnd hmod hls hst
  have hq := plain_quiet hms fun h => .breadcrumb h
  have hstart : Matches d d none := ⟨by rw [← hd], hd, rfl, fun _ _ => rfl⟩
  have hcode : flatten cmds = _ := hf.trans (instrs_append _ _)
  obtain ⟨is, D, hl, hr, hmatch, -⟩ := simulates_quiet hq
    (@h d d none [] (by rw [List.append_nil, hcode]; exact List.suffix_append _ _) nofun hstart)
  obtain ⟨c, hr', hdone, rfl⟩ : ∃ c, Reaches w (flatten cmds) ⟨is, D⟩ c ∧ _ := isDone_left hl
  rw [List.append_nil, ← hcode] at hr
  exact ⟨c, hr.trans hr', hdone, hmatch.calls, hmatch.exception⟩

/-- A `try` statement that throws, rethrows in its catch clause, and calls a method at last. -/
def cleanupBody : Stmt :=
  .withId (.ofKind (.tryCatch
    (.ofKind (.throw (.ofKind (.new ⟨"Failure", none⟩ none []) (.named ⟨"Failure", none⟩))))
    [⟨{}, some ⟨"Failure", none⟩, some ⟨"e", .named ⟨"Failure", none⟩⟩, .ofKind .rethrow⟩]
    (some (.ofKind (.expression (.ofKind (.call ⟨⟨⟨"T", none⟩, "close", []⟩, none, [], false⟩)
      .void)))))) 7

theorem cleanupBody_unwinds :
    isStructured false cleanupBody = true ∧
    ∃ p shared' cmds, (lowerMethod {} ⟨⟨"T", none⟩, .classType, [], [], [], [], []⟩
        { name := "cleanup", body := some cleanupBody }).run {} = (.ok p, shared') ∧
      p.body = some cmds ∧
      ∀ (w : World) (d : Data), d.memory.exception = none →
        ∃ c, Reaches w (flatten cmds) ⟨flatten cmds, d⟩ c ∧ c.isDone = true ∧
          c.data.calls = (exec {} w none cleanupBody d).2.calls ∧
          c.data.memory.exception = (exec {} w none cleanupBody d).1.exception? :=
  ⟨rfl, lowerMethod_unwinds _ {} (by decide) rfl (by simp) rfl (by decide)⟩

end Unwind.Structured
