import Mathlib.Logic.Relation
import Unwind.Proofs.Execution

/-!
# Running code without labels

Where no jump can land, a run follows the structure of the commands: it goes through them, returns
somewhere, or gets stuck. `runAll` computes how it ends, and the machine halts exactly where
`runAll` says that it does (`halts_iff`).

What a command may change can be read off it: the places it writes, and behind a call everything
that the callee can see (`alters`). An expression keeps its value as long as the places that it
reads are not altered.
-/

namespace Unwind.Machine

open Ir (Cmd Expr)

/-! ## Structured runs -/

/-- How commands end: control goes on behind them, or the procedure is over. -/
inductive Ending where
  | through (d : Data)
  | returned (d : Data)

/-- The data at the end. -/
def Ending.data : Ending → Data
  | through d | returned d => d

/-- Go on behind commands that control goes through. -/
def goOn (f : Data → Option Ending) : Option Ending → Option Ending
  | some (.through d) => f d
  | r => r

mutual

/-- Run a command; there is no ending when it gets stuck. -/
def runCmd (w : World) : Cmd → Data → Option Ending
  | .assert cond _, d | .assume cond _, d =>
    if (eval w d cond).holds then some (.through d) else none
  | .assign lhs rhs, d => some (.through (assign w d lhs (eval w d rhs)))
  | .call [] proc args outs, d => some (.through (invoke w d proc (evalAll w d args) outs))
  | .call (_ :: _) _ _ _, d | .label _, d => some (.through d)
  | .ifElse cond thenCmds elseCmds, d =>
    if (eval w d cond).holds then runAll w thenCmds d else runAll w elseCmds d
  | .goto _, _ => none
  | .ret, d => some (.returned d)

/-- Run commands one after the other. -/
def runAll (w : World) : List Cmd → Data → Option Ending
  | [], d => some (.through d)
  | c :: cs, d => goOn (runAll w cs) (runCmd w c d)

end

/-- Run as the body of a procedure, the commands halt with the data `d'`. -/
def Halts (w : World) (cs : List Cmd) (d d' : Data) : Prop :=
  ∃ c, Reaches w (flatten cs) ⟨flatten cs, d⟩ c ∧ c.isDone = true ∧ c.data = d'

section

variable {w : World} {cs : List Cmd} {d d' : Data}

/-! ## Where the machine is at the end -/

/-- The configuration in which a structured run ends, in front of the instructions `rest`. -/
def Arrives (w : World) (prog rest : List Instr) : Option Ending → Config → Prop
  | some (.through d), c => c = ⟨rest, d⟩
  | some (.returned d), c => c.data = d ∧ c.rest.head? = some .ret
  | none, c => step w prog c = none ∧ c.isDone = false

variable {prog rest rest' : List Instr} {r : Option Ending} {c : Config}

/-- What does not go through the commands ends wherever control would have gone on. -/
theorem Arrives.elsewhere (h : Arrives w prog rest r c) (hr : ∀ d, r ≠ some (.through d)) :
    Arrives w prog rest' r c := by
  rcases r with _ | d | d
  · exact h
  · exact absurd rfl (hr d)
  · exact h

/-- Control goes through the commands, and then on. -/
theorem reaches_goOn {f : Data → Option Ending} {c₀ : Config}
    (h : ∃ c, Reaches w prog c₀ c ∧ Arrives w prog rest r c)
    (hf : ∀ d, r = some (.through d) →
      ∃ c, Reaches w prog ⟨rest, d⟩ c ∧ Arrives w prog rest' (f d) c) :
    ∃ c, Reaches w prog c₀ c ∧ Arrives w prog rest' (goOn f r) c := by
  obtain ⟨c, hr, hc⟩ := h
  rcases r with _ | d | d
  · exact ⟨c, hr, hc⟩
  · obtain ⟨c', hr', hc'⟩ := hf d rfl
    subst hc
    exact ⟨c', hr.trans hr', hc'⟩
  · exact ⟨c, hr, hc⟩

mutual

/-- The machine gets where the structured run of a command ends. -/
theorem reaches_runCmd (hland : ∀ l, landing l prog = none) (rest : List Instr) (cmd : Cmd)
    (d : Data) :
    ∃ c, Reaches w prog ⟨flattenCmd cmd ++ rest, d⟩ c ∧
      Arrives w prog rest (runCmd w cmd d) c := by
  cases cmd with
  | assert cond | assume cond =>
    by_cases hc : (eval w d cond).holds = true
    · refine ⟨⟨rest, d⟩, .single (if_pos hc), ?_⟩
      rw [runCmd, if_pos hc]
      rfl
    · refine ⟨_, .refl, ?_⟩
      rw [runCmd, if_neg hc]
      exact ⟨if_neg hc, rfl⟩
  | assign lhs rhs => exact ⟨_, .single rfl, rfl⟩
  | call attrs proc args outs => cases attrs <;> exact ⟨_, .single rfl, rfl⟩
  | ifElse cond thenCmds elseCmds =>
    rw [runCmd, flattenCmd, List.cons_append, List.append_assoc]
    by_cases hc : (eval w d cond).holds = true
    · rw [if_pos hc]
      obtain ⟨c, hr, hend⟩ := reaches_runAll hland
        (.jump (flatten elseCmds).length :: flatten elseCmds ++ rest) thenCmds d
      replace hr := (reaches_branch_then (n := (flatten thenCmds).length + 1) hc).trans hr
      by_cases hthrough : ∃ d₁, runAll w thenCmds d = some (.through d₁)
      · obtain ⟨d₁, hd₁⟩ := hthrough
        rw [hd₁] at hend ⊢
        subst hend
        exact ⟨_, hr.trans reaches_jump, rfl⟩
      · exact ⟨c, hr, hend.elsewhere fun d₁ hd₁ => hthrough ⟨d₁, hd₁⟩⟩
    · rw [if_neg hc]
      obtain ⟨c, hr, hend⟩ := reaches_runAll hland rest elseCmds d
      exact ⟨c, (reaches_branch_else (by simpa using hc)).trans hr, hend⟩
  | goto l =>
    refine ⟨_, .refl, ?_, rfl⟩
    show (landing l prog).map _ = none
    rw [hland l]
    rfl
  | label l => exact ⟨_, .single rfl, rfl⟩
  | ret => exact ⟨_, .refl, rfl, rfl⟩

theorem reaches_runAll (hland : ∀ l, landing l prog = none) (rest : List Instr) (cs : List Cmd)
    (d : Data) :
    ∃ c, Reaches w prog ⟨flatten cs ++ rest, d⟩ c ∧ Arrives w prog rest (runAll w cs d) c := by
  cases cs with
  | nil => exact ⟨_, .refl, rfl⟩
  | cons cmd cs =>
    rw [runAll, flatten, List.append_assoc]
    exact reaches_goOn (reaches_runCmd hland _ cmd d) fun d₁ _ => reaches_runAll hland rest cs d₁

end

/-- A run comes to one end only. -/
theorem Reaches.end_unique {c₀ c c' : Config} (h : Reaches w prog c₀ c) (h' : Reaches w prog c₀ c')
    (hc : step w prog c = none) (hc' : step w prog c' = none) : c = c' := by
  have hfun : Relator.RightUnique fun c c' => step w prog c = some c' :=
    fun _ _ _ h₁ h₂ => Option.some.inj (h₁.symm.trans h₂)
  have hend : ∀ {a b : Config}, step w prog a = none → Reaches w prog a b → a = b := by
    intro a b ha hab
    rcases hab.cases_head with he | ⟨a', hs, -⟩
    · exact he
    · rw [ha] at hs
      cases hs
  rcases Relation.ReflTransGen.total_of_right_unique hfun h h' with hr | hr
  · exact hend hc hr
  · exact (hend hc' hr).symm

/-- Without labels no jump can land. -/
theorem landing_eq_none {is : List Instr} (h : labels is = []) (l : String) :
    landing l is = none := by
  induction is with
  | nil => rfl
  | cons i is ih =>
    rw [labels_cons, List.append_eq_nil_iff, Option.toList_eq_nil_iff] at h
    rw [landing, h.1, if_neg (by simp), ih h.2]

/-- Without labels, the machine halts where the structured run ends. -/
theorem halts_iff (hlabels : labels (flatten cs) = []) :
    Halts w cs d d' ↔ ∃ e, runAll w cs d = some e ∧ e.data = d' := by
  obtain ⟨c, hr, hc⟩ := reaches_runAll (w := w) (landing_eq_none hlabels) [] cs d
  rw [List.append_nil] at hr
  constructor
  · rintro ⟨c', hr', hdone, rfl⟩
    rcases he : runAll w cs d with _ | d₁ | d₁ <;> rw [he] at hc
    · -- a run that gets stuck does not halt as well
      rw [hr'.end_unique hr (step_of_isDone hdone) hc.1, hc.2] at hdone
      cases hdone
    · subst hc
      exact ⟨_, rfl, by rw [hr'.end_unique hr (step_of_isDone hdone) rfl]; rfl⟩
    · obtain ⟨is, d₂⟩ := c
      obtain ⟨rfl, hret⟩ := hc
      obtain ⟨more, rfl⟩ := List.head?_eq_some_iff.mp hret
      exact ⟨_, rfl, by rw [hr'.end_unique hr (step_of_isDone hdone) rfl]; rfl⟩
  · rintro ⟨e, he, rfl⟩
    rw [he] at hc
    cases e with
    | through d₁ =>
      subst hc
      exact ⟨_, hr, rfl, rfl⟩
    | returned d₁ =>
      obtain ⟨is, d₂⟩ := c
      obtain ⟨rfl, hret⟩ := hc
      obtain ⟨more, rfl⟩ := List.head?_eq_some_iff.mp hret
      exact ⟨_, hr, rfl, rfl⟩

/-- The calls of a run can be computed. -/
theorem exists_halts (hlabels : labels (flatten cs) = []) {calls : List Call}
    (h : (runAll w cs d).map (·.data.calls) = some calls) :
    ∃ d', Halts w cs d d' ∧ d'.calls = calls := by
  obtain ⟨e, he, hcalls⟩ := Option.map_eq_some_iff.mp h
  exact ⟨e.data, (halts_iff hlabels).mpr ⟨e, he, rfl⟩, hcalls⟩

theorem Halts.calls_eq (hd : Halts w cs d d') (hlabels : labels (flatten cs) = [])
    {calls : List Call} (h : (runAll w cs d).map (·.data.calls) = some calls) :
    d'.calls = calls := by
  obtain ⟨e, he, rfl⟩ := (halts_iff hlabels).mp hd
  rw [he] at h
  exact Option.some.inj h

end

/-! ## Places -/

/-- A place that an expression can read: a variable, or an instance field of all objects. -/
inductive Place where
  | var (name : String)
  | map (name : String)
deriving DecidableEq

/-- A callee can see the place. -/
def Place.isShared (w : World) : Place → Bool
  | var x => x == Ir.exceptionVar || w.isGlobal x
  | map _ => true

mutual

/-- The places that an expression reads. -/
def reads : Expr → List Place
  | .lit _ | .typeConst _ => []
  | .ident x => [.var x]
  | .unary _ a => reads a
  | .binary _ a b => reads a ++ reads b
  | .app _ args => readsAll args
  | .select map a => .map map :: reads a
  | .ifThenElse c a b => reads c ++ (reads a ++ reads b)

def readsAll : List Expr → List Place
  | [] => []
  | e :: es => reads e ++ readsAll es

end

mutual

/-- A command may change a place. -/
def alters (w : World) : Cmd → Place → Bool
  | .assign (.var x) _, p => p == .var x
  | .assign (.map map _) _, p => p == .map map
  | .call [] proc _ outs, p => outs.any (p == .var ·) || (proc != Ir.allocProc && p.isShared w)
  | .ifElse _ thenCmds elseCmds, p => altersAny w thenCmds p || altersAny w elseCmds p
  | .assert .., _ | .assume .., _ | .call (_ :: _) .., _ | .goto _, _ | .label _, _ | .ret, _ => false

def altersAny (w : World) : List Cmd → Place → Bool
  | [], _ => false
  | c :: cs, p => alters w c p || altersAny w cs p

end

/-- A place holds in `d'` what it holds in `d`. -/
def Kept (w : World) (d d' : Data) : Place → Prop
  | .var x => d'.get w x = d.get w x
  | .map map => d'.memory.fields map = d.memory.fields map

section

variable {w : World} {d d₁ d' : Data} {p : Place}

theorem Kept.refl : Kept w d d p := by cases p <;> rfl

theorem Kept.trans (h : Kept w d d₁ p) (h' : Kept w d₁ d' p) : Kept w d d' p := by
  cases p <;> exact Eq.trans h' h

mutual

/-- An expression has the same value where the places that it reads are kept. -/
theorem eval_kept (e : Expr) (h : ∀ p ∈ reads e, Kept w d d' p) : eval w d' e = eval w d e := by
  cases e with
  | lit | typeConst => rfl
  | ident x => exact h (.var x) (by simp [reads])
  | unary op a => rw [eval, eval, eval_kept a h]
  | binary op a b =>
    simp only [reads, List.mem_append] at h
    rw [eval, eval, eval_kept a fun p hp => h p (.inl hp), eval_kept b fun p hp => h p (.inr hp)]
  | app f args => rw [eval, eval, evalAll_kept args h]
  | select map a =>
    simp only [reads, List.mem_cons] at h
    have hmap : d'.memory.fields map = d.memory.fields map := h (.map map) (.inl rfl)
    rw [eval, eval, eval_kept a fun p hp => h p (.inr hp), hmap]
  | ifThenElse c a b =>
    simp only [reads, List.mem_append] at h
    rw [eval, eval, eval_kept c fun p hp => h p (.inl hp),
      eval_kept a fun p hp => h p (.inr (.inl hp)), eval_kept b fun p hp => h p (.inr (.inr hp))]

theorem evalAll_kept (es : List Expr) (h : ∀ p ∈ readsAll es, Kept w d d' p) :
    evalAll w d' es = evalAll w d es := by
  cases es with
  | nil => rfl
  | cons e es =>
    simp only [readsAll, List.mem_append] at h
    rw [evalAll, evalAll, eval_kept e fun p hp => h p (.inl hp),
      evalAll_kept es fun p hp => h p (.inr hp)]

end

/-! ## What commands keep -/

theorem kept_set {x : String} (v : Value) (h : p ≠ .var x) : Kept w d (d.set w x v) p := by
  cases p with
  | map m =>
    show (d.set w x v).memory.fields m = d.memory.fields m
    unfold Data.set
    split_ifs <;> rfl
  | var y =>
    have hyx : y ≠ x := fun he => h (congrArg Place.var he)
    show (d.set w x v).get w y = d.get w y
    unfold Data.set
    by_cases hx : x = Ir.exceptionVar
    · have hy : y ≠ Ir.exceptionVar := hx ▸ hyx
      simp only [Data.get, if_pos hx, if_neg hy]
    rw [if_neg hx]
    by_cases hg : w.isGlobal x = true
    · rw [if_pos hg]
      unfold Data.get
      simp only [Function.update_of_ne hyx]
    · rw [if_neg hg]
      unfold Data.get
      simp only [Function.update_of_ne hyx]

theorem kept_setAll {xs : List String} (vs : List Value) (h : ∀ x ∈ xs, p ≠ .var x) :
    Kept w d (d.setAll w xs vs) p := by
  unfold Data.setAll
  induction xs generalizing d vs with
  | nil => exact .refl
  | cons x xs ih =>
    cases vs with
    | nil => exact .refl
    | cons v vs =>
      exact (kept_set v (h x List.mem_cons_self)).trans
        (ih vs fun y hy => h y (List.mem_cons_of_mem x hy))

/-- A call keeps the variables of the caller that are no result, and the creation of an object keeps
everything but its result. -/
theorem kept_invoke {proc : String} (vs : List Value) {outs : List String}
    (houts : ∀ x ∈ outs, p ≠ .var x) (hp : proc = Ir.allocProc ∨ p.isShared w = false) :
    Kept w d (invoke w d proc vs outs) p := by
  have hmemory : ∀ (m : Memory) (calls : List Call), p.isShared w = false →
      Kept w d { d with memory := m, calls } p := by
    intro m calls hshared
    cases p with
    | map => cases hshared
    | var x =>
      simp only [Place.isShared, Bool.or_eq_false_iff, beq_eq_false_iff_ne] at hshared
      show Data.get w _ x = Data.get w _ x
      unfold Data.get
      rw [if_neg hshared.1, if_neg hshared.1, hshared.2, if_neg Bool.false_ne_true,
        if_neg Bool.false_ne_true]
  unfold invoke
  split_ifs with halloc
  · have hobject : Kept w d { d with memory := { d.memory with objects := d.memory.objects + 1 } } p := by
      cases p <;> rfl
    exact hobject.trans (kept_setAll _ houts)
  · exact (hmemory _ _ (hp.resolve_left halloc)).trans (kept_setAll _ houts)

mutual

/-- What a command does not alter is kept where it ends. -/
theorem kept_of_runCmd (c : Cmd) {d : Data} {e : Ending} (h : runCmd w c d = some e)
    (hp : alters w c p = false) : Kept w d e.data p := by
  cases c with
  | assert cond | assume cond =>
    simp only [runCmd, Option.ite_none_right_eq_some, Option.some.injEq] at h
    rw [← h.2]
    exact .refl
  | assign lhs rhs =>
    cases h
    cases lhs with
    | var x => exact kept_set _ (by simpa [alters] using hp)
    | map m i =>
      cases p with
      | var y => rfl
      | map m' =>
        have hne : m' ≠ m := by simpa [alters] using hp
        exact Function.update_of_ne hne _ _
  | call attrs proc args outs =>
    cases attrs with
    | nil =>
      cases h
      simp only [alters, Bool.or_eq_false_iff, List.any_eq_false, beq_iff_eq, Bool.and_eq_false_iff,
        bne_eq_false_iff_eq] at hp
      exact kept_invoke _ hp.1 hp.2
    | cons =>
      cases h
      exact .refl
  | ifElse cond thenCmds elseCmds =>
    rw [alters, Bool.or_eq_false_iff] at hp
    rw [runCmd] at h
    split_ifs at h
    · exact kept_of_runAll thenCmds h hp.1
    · exact kept_of_runAll elseCmds h hp.2
  | goto => cases h
  | label | ret =>
    cases h
    exact .refl

theorem kept_of_runAll (cs : List Cmd) {d : Data} {e : Ending} (h : runAll w cs d = some e)
    (hp : altersAny w cs p = false) : Kept w d e.data p := by
  cases cs with
  | nil =>
    cases h
    exact .refl
  | cons c cs =>
    rw [altersAny, Bool.or_eq_false_iff] at hp
    rw [runAll] at h
    rcases hc : runCmd w c d with _ | d₁ | d₁ <;> rw [hc] at h
    · cases h
    · exact (kept_of_runCmd c hc hp.1).trans (kept_of_runAll cs h hp.2)
    · cases h
      exact kept_of_runCmd c hc hp.1

end

end

end Unwind.Machine
