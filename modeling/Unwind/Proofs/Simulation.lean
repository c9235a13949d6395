import Unwind.Proofs.Accepts
import Unwind.Proofs.Lowering.Kept

/-!
# The code of structured bodies, run beside the source

`Simulates` relates a run of the machine to the outcome of a structured run. The machine holds the
same memory, calls and source variables (`Matches`); an exception under way is in `$Exception`.
What the regions and finally blocks around the code have put aside stays as it was (`Keeps`), so
that they find it again whatever the code between does.

This module has the relation and the code without statements in it.
-/

namespace Unwind.Structured

open Source (CatchClause Expr MethodRef Path Stmt TypeRef Variable)
open Lowering
open Machine (Config Data Instr Object Reaches Value World eval evalAll isGenerated isOwn)

/-! ## The relation -/

/-- The machine has the data `D` where the structured run has `d` and `pending` is under way. -/
structure Matches (D d : Data) (pending : Option Object) : Prop where
  memory : D.memory = { d.memory with exception := pending }
  settled : d.memory.exception = none
  calls : D.calls = d.calls
  locals : ∀ x, isGenerated x = false → D.locals x = d.locals x

/-- More has been given out, but no jump leaves a region. -/
structure Grows (c c' : Counters) : Prop where
  regions : c.regions ≤ c'.regions
  temps : c.temps ≤ c'.temps
  escapes : c'.escapes = c.escapes

theorem Grows.refl (c : Counters) : Grows c c := ⟨Nat.le_refl _, Nat.le_refl _, rfl⟩

theorem Grows.trans {c c₁ c₂ : Counters} (h : Grows c c₁) (h' : Grows c₁ c₂) : Grows c c₂ :=
  ⟨Nat.le_trans h.regions h'.regions, Nat.le_trans h.temps h'.temps, h'.escapes.trans h.escapes⟩

theorem Grows.withTemps {c : Counters} {n : Nat} (h : c.temps ≤ n) :
    Grows c { c with temps := n } := ⟨Nat.le_refl _, h, rfl⟩

theorem Grows.withRegion (c : Counters) : Grows c { c with regions := c.regions + 1 } :=
  ⟨Nat.le_succ _, Nat.le_refl _, rfl⟩

section Relation

variable {w : World} {D D' d : Data} {pending : Option Object} {c c' : Counters}

theorem Matches.memory_eq (h : Matches D d none) : D.memory = d.memory := by
  rw [h.memory, ← h.settled]

theorem Matches.exception (h : Matches D d pending) : D.memory.exception = pending := by
  rw [h.memory]

theorem Matches.get (h : Matches D d pending) {x : String} (hx : isGenerated x = false) :
    D.get w x = d.get w x := by
  simp only [Data.get, if_neg (ne_exceptionVar hx), h.memory, h.locals x hx]

/-- A variable of the lowering is no part of the structured data. -/
theorem Matches.set_own (h : Matches D d pending) {v : Slot} (hv : isOwn v = true) (y : Value) :
    Matches (D.set w v.name y) d pending := by
  rw [Data.set_own hv]
  refine ⟨h.memory, h.settled, h.calls, fun x hx => ?_⟩
  rw [← h.locals x hx]
  refine Function.update_of_ne (fun he => ?_) _ _
  rw [he, (Machine.isOwn_name hv).2] at hx
  cases hx

theorem Matches.set_exception (h : Matches D d pending) (y : Value) :
    Matches (D.set w Ir.exceptionVar y) d y.object? := by
  rw [Data.set_exception]
  exact ⟨by rw [h.memory], h.settled, h.calls, h.locals⟩

theorem Matches.set_source (h : Matches D d pending) {x : String} (hx : isGenerated x = false)
    (y : Value) : Matches (D.set w x y) (d.set w x y) pending := by
  simp only [Data.set, if_neg (ne_exceptionVar hx)]
  split
  · refine ⟨?_, h.settled, h.calls, h.locals⟩
    simp only [h.memory]
  · refine ⟨h.memory, h.settled, h.calls, fun z hz => ?_⟩
    simp only [Function.update_apply, h.locals z hz]

/-! ## Runs -/

/-- What is left to run behind a statement: the code behind it, or the propagation of the
exception. -/
def Left (env : Env) (ρ : List Frame) (rest : List Instr) : Outcome → List Instr → Prop
  | .normal, is => is = rest
  | .raised _, is => ∃ more, is = propagation env ρ ++ more

/-- The machine gets to where the outcome leads, with the data of the structured run. -/
def Simulates (w : World) (prog : List Instr) (c : Counters) (start : Config)
    (left : Outcome → List Instr → Prop) (r : Outcome × Data) : Prop :=
  ∃ is D', left r.1 is ∧ Reaches w prog start ⟨is, D'⟩ ∧ Matches D' r.2 r.1.exception? ∧
    Keeps c start.data D'

variable {prog : List Instr} {left : Outcome → List Instr → Prop} {r : Outcome × Data}

/-- Some steps before. -/
theorem Simulates.head {start start' : Config} (h : Reaches w prog start start')
    (hk : Keeps c start.data start'.data) (hs : Simulates w prog c start' left r) :
    Simulates w prog c start left r := by
  obtain ⟨is, D', hl, hr, hm, hk'⟩ := hs
  exact ⟨is, D', hl, h.trans hr, hm, hk.trans hk'⟩

theorem Simulates.mono {start : Config} (hg : Grows c c')
    (hs : Simulates w prog c' start left r) : Simulates w prog c start left r := by
  obtain ⟨is, D', hl, hr, hm, hk⟩ := hs
  exact ⟨is, D', hl, hr, hm, hk.mono hg.regions hg.temps⟩

/-- An exception leaves the code behind a statement as well. -/
theorem Simulates.raised {env : Env} {ρ : List Frame} {rest rest' : List Instr} {start : Config}
    {e : Object} (hs : Simulates w prog c start (Left env ρ rest) (.raised e, d)) :
    Simulates w prog c start (Left env ρ rest') (.raised e, d) := hs

end Relation

/-! ## Code that does nothing -/

section Leaves

variable {w : World} {prog rest : List Instr} {D d : Data} {c : Counters} {L : Layout} {π : Path}
  {ρ : List Frame}

theorem simulates_quiet {is : List Instr} {left : Outcome → List Instr → Prop}
    {r : Outcome × Data} (h : ∀ i ∈ is, Quiet i)
    (hs : Simulates w prog c ⟨rest, D⟩ left r) : Simulates w prog c ⟨is ++ rest, D⟩ left r :=
  hs.head (reaches_quiet h) (.refl _ _)

/-! ## Atoms -/

theorem eval_atom {e : Expr} {pending : Option Object} (he : isAtom e = true)
    (hm : Matches D d pending) (env : Env) :
    eval w D (atomExpr env e) = atomValue env w d e := by
  obtain ⟨id, span, ty, kind⟩ := e
  cases kind with
  | literal lit => cases lit <;> rfl
  | var name =>
    have hx : isGenerated name = false := by simpa [isAtom] using he
    exact hm.get hx
  | self => exact hm.get (by decide)
  | _ => cases he

theorem eval_atoms {es : List Expr} {pending : Option Object} (hes : ∀ e ∈ es, isAtom e = true)
    (hm : Matches D d pending) (env : Env) :
    evalAll w D (es.map (atomExpr env)) = es.map (atomValue env w d) := by
  induction es with
  | nil => rfl
  | cons e es ih =>
    rw [List.map_cons, List.map_cons, evalAll, eval_atom (hes e List.mem_cons_self) hm,
      ih fun e' he' => hes e' (List.mem_cons_of_mem _ he')]

theorem holds_truthOf {e : Expr} {v : Ir.Expr} {pending : Option Object} {env : Env}
    (he : isAtom e = true) (hm : Matches D d pending) (hv : truthOf e (atomExpr env e) = .ok v) :
    (eval w D v).holds = truth env w d e := by
  have hatom := eval_atom (w := w) he hm env
  unfold truthOf at hv
  unfold truth
  cases hty : e.ty.valueKind? with
  | none =>
    rw [hty] at hv
    cases hv
  | some kind =>
    rw [hty] at hv
    cases kind with
    | boolean =>
      cases hv
      rw [hatom]
    | integer | reference =>
      cases hv
      simp only [Ir.Expr.neq, eval, Machine.binary_neq, hatom, Value.holds_bool]
      rfl

/-! ## Conditionals -/

theorem reaches_choice_then {cond : Ir.Expr} {as bs : List Line}
    (h : (eval w D cond).holds = true) :
    Reaches w prog ⟨instrs (choice π ρ cond as bs) ++ rest, D⟩
      ⟨instrs as ++ (.jump (instrs bs).length :: (instrs bs ++ rest)), D⟩ := by
  rw [instrs_choice, List.cons_append, List.append_assoc, List.cons_append]
  exact Machine.reaches_branch_then h

theorem reaches_choice_else {cond : Ir.Expr} {as bs : List Line}
    (h : (eval w D cond).holds = false) :
    Reaches w prog ⟨instrs (choice π ρ cond as bs) ++ rest, D⟩ ⟨instrs bs ++ rest, D⟩ := by
  rw [instrs_choice, List.cons_append, List.append_assoc, List.cons_append]
  exact Machine.reaches_branch_else h

theorem holds_pending {pending : Option Object} (hm : Matches D d pending) :
    (eval w D (.neq .exception .null)).holds = pending.isSome := by
  simp only [Ir.Expr.neq, Ir.Expr.exception, Ir.Expr.null, eval, Machine.binary_neq,
    Machine.literal, Data.get_exception, hm.exception, Value.holds_bool, Value.null]
  cases pending <;> simp

/-- Behind a call or a region: an exception is sent on, otherwise the next instruction follows. -/
theorem simulates_check {o : Outcome} {env : Env} (hm : Matches D d o.exception?) :
    Simulates w prog c ⟨instrs (checkLines env π ρ) ++ rest, D⟩ (Left env ρ rest) (o, d) := by
  have hcond := holds_pending (w := w) hm
  cases o with
  | normal => exact ⟨rest, D, rfl, reaches_choice_else hcond, hm, .refl _ _⟩
  | raised e =>
    have h : Reaches w prog ⟨instrs (checkLines env π ρ) ++ rest, D⟩ _ := reaches_choice_then hcond
    rw [instrs_raise] at h
    exact ⟨_, D, ⟨_, rfl⟩, h, hm, .refl _ _⟩

/-! ## Calls -/

/-- The procedure of a method does not create objects. -/
theorem procedureName_ne_allocProc (method : MethodRef) : method.procedureName ≠ Ir.allocProc := by
  intro h
  have hdot : '.' ∈ method.procedureName.toList := by
    unfold MethodRef.procedureName
    split <;> simp [MethodRef.signature]
  rw [h] at hdot
  exact absurd hdot (by decide)

theorem memory_eq_of_exception {m : Machine.Memory} {pending : Option Object}
    (h : m.exception = pending) : m = { { m with exception := none } with exception := pending } := by
  subst h
  rfl

/-- The machine calls what the structured run calls. -/
theorem matches_invoke (w : World) {proc : String} (vals : List Value) (hproc : proc ≠ Ir.allocProc)
    (hm : Matches D d none) :
    Matches (Machine.invoke w D proc vals []) (perform w d proc vals).2
      (perform w d proc vals).1.exception? := by
  rw [Machine.invoke, if_neg hproc, hm.calls, hm.memory_eq]
  unfold perform
  dsimp only [Data.setAll, List.zip_nil_left, List.foldl_nil]
  split
  · next h => exact ⟨memory_eq_of_exception h, rfl, rfl, hm.locals⟩
  · next e h => exact ⟨memory_eq_of_exception h, rfl, rfl, hm.locals⟩

theorem invoke_locals (w : World) (D : Data) {proc : String} (vals : List Value) (hproc : proc ≠ Ir.allocProc) :
    (Machine.invoke w D proc vals []).locals = D.locals := by
  rw [Machine.invoke, if_neg hproc]
  rfl

/-- A call and the test behind it. -/
theorem simulates_call {env : Env} {method : MethodRef} {args : List Ir.Expr} {vals : List Value}
    (hm : Matches D d none) (hargs : evalAll w D args = vals) :
    Simulates w prog c
      ⟨.call method.procedureName args [] :: (instrs (checkLines env π ρ) ++ rest), D⟩
      (Left env ρ rest) (perform w d method.procedureName vals) := by
  have hproc := procedureName_ne_allocProc method
  subst hargs
  exact (simulates_check (matches_invoke w _ hproc hm)).head Machine.reaches_call
    (.of_locals_eq (invoke_locals w D _ hproc))

theorem emits_emitCall {method : MethodRef} {args : List Ir.Expr} {s s' : State} {u : Unit}
    (π : Path) (hmod : L.env.options.modelsExceptions = true) (hv : View L.scopes ρ s)
    (h : Runs (emitCall L.env method args []) s u s') :
    Emits s (.call method.procedureName args [] :: instrs (checkLines L.env π ρ)) s' := by
  simp only [emitCall, if_pos hmod, runs_bind] at h
  obtain ⟨_, s₁, h₁, h₂⟩ := h
  have e₁ := emits_emit h₁
  exact e₁.trans (emits_propagateIfAny (e₁.view hv) h₂)

/-- The code of a call statement. -/
theorem plain_call {id eid : UInt32} {span espan : Span} {ty : Source.Ty} {method : MethodRef}
    {receiver : Option Expr} {args : List Expr} {virt : Bool} {ls : List Line}
    (hmod : L.env.options.modelsExceptions = true)
    (he : isVoidCall ⟨eid, espan, ty, .call ⟨method, receiver, args, virt⟩⟩ = true)
    (hp : Plain L π ρ (lowerStmt L.env ⟨id, span,
      .expression ⟨eid, espan, ty, .call ⟨method, receiver, args, virt⟩⟩⟩) () ls) :
    ∃ is, (∀ i ∈ is, Quiet i) ∧
      instrs ls = is ++ (.call method.procedureName ((receiver.toList ++ args).map (atomExpr L.env))
        [] :: instrs (checkLines L.env π ρ)) := by
  simp only [isVoidCall, Bool.and_eq_true] at he
  obtain ⟨⟨⟨hty, -⟩, hrec⟩, hargs⟩ := he
  obtain ⟨-, s, s', hv, hrun, hem⟩ := hp
  simp only [lowerStmt, lowerExpr, finishCall, if_pos hty, runs_bind, runs_atomOption hrec,
    runs_atoms hargs, runs_pure] at hrun
  obtain ⟨_, s₁, h₁, _, s₂, ⟨_, _, ⟨rfl, rfl⟩, _, _, ⟨rfl, rfl⟩, _, s₃, h₂, -, rfl⟩, -, rfl⟩ := hrun
  obtain ⟨is, hq, e₁⟩ := Marks.emitMarks h₁
  refine ⟨is, hq, ?_⟩
  rw [emits_unique hem (e₁.trans (emits_emitCall π hmod (e₁.view hv) h₂)), List.map_append,
    Option.toList_map]

/-! ## Throwing -/

/-- An exception becomes the pending one and is sent on. -/
theorem simulates_raise {env : Env} {v : Ir.Expr} {pending : Option Object} {e : Object}
    (hm : Matches D d pending) (hv : eval w D v = .ref (some e)) :
    Simulates w prog c ⟨instrs (raiseLines env π ρ v) ++ rest, D⟩ (Left env ρ rest)
      (.raised e, d) := by
  rw [raiseLines, instrs_append, instrs_own, instrs_raise, List.append_assoc]
  refine ⟨_, _, ⟨rest, rfl⟩, Machine.reaches_set, ?_, .set_exception _⟩
  have h := hm.set_exception (w := w) (eval w D v)
  rw [hv] at h ⊢
  exact h

/-- The call of the constructor, where there is one. -/
def constructorCode (env : Env) (π : Path) (ρ : List Frame) (object : Ir.Expr)
    (ctor : Option MethodRef) (args : List Expr) : List Instr :=
  match ctor with
  | none => []
  | some method =>
    .call method.procedureName (object :: args.map (atomExpr env)) [] ::
      instrs (checkLines env π ρ)

/-- The code in front of a throw. -/
theorem plain_throw {eid : UInt32} {span espan : Span} {ty : Source.Ty} {type : TypeRef}
    {ctor : Option MethodRef} {args : List Expr} {v : Ir.Expr} {hs : List Line}
    (hmod : L.env.options.modelsExceptions = true) (hargs : args.all isAtom = true)
    (hp : Plain L π ρ (do
      emitMarks L.env span (.throw ⟨eid, espan, ty, .new type ctor args⟩)
      let v ← value L.env ⟨eid, espan, ty, .new type ctor args⟩
      record L.env "<thrown exception>" .ref v
      return v) v hs) :
    ∃ n is js, v = .ident (Slot.temp n).name ∧ (∀ i ∈ is, Quiet i) ∧ (∀ j ∈ js, Quiet j) ∧
      instrs hs = is ++ (.call Ir.allocProc [.typeNamed type.name] [(Slot.temp n).name] ::
        (constructorCode L.env π ρ v ctor args ++ js)) := by
  obtain ⟨-, s, s', hview, hrun, hem⟩ := hp
  simp only [value, runs_bind, runs_valueOf, lowerExpr, runs_atoms hargs, finishNew, alloc,
    runs_pure] at hrun
  obtain ⟨_, s₁, h₁, v', s₆, ⟨_, t₁, ⟨rfl, rfl⟩, v'', s₅, ⟨_, s₃, ⟨x, s₂, h₂, _, s₃', h₃, rfl, rfl⟩,
    h₄⟩, hv', rfl⟩, _, s₇, h₅, rfl, rfl⟩ := hrun
  obtain ⟨is, hq, e₁⟩ := Marks.emitMarks h₁
  obtain ⟨rfl, -, e₂⟩ := runs_freshLocal h₂
  have e₃ := (e₁.trans e₂).trans (emits_emit h₃)
  obtain ⟨js, hq', e₅⟩ := Marks.record h₅
  cases hv'
  have e₄ : Emits s₃ (constructorCode L.env π ρ v ctor args) s₆ ∧
      v = .ident (Slot.temp t₁.nextTemp).name := by
    cases ctor with
    | none =>
      obtain ⟨rfl, rfl⟩ := runs_pure.mp h₄
      exact ⟨.refl _, rfl⟩
    | some method =>
      simp only [runs_bind, runs_pure] at h₄
      obtain ⟨_, t, h₄, rfl, rfl⟩ := h₄
      exact ⟨emits_emitCall π hmod (e₃.view hview) h₄, rfl⟩
  refine ⟨t₁.nextTemp, is, js, e₄.2, hq, hq', ?_⟩
  rw [emits_unique hem ((e₃.trans e₄.1).trans e₅)]
  simp [Machine.flattenCmd, Ir.Cmd.invoke, Slot.name]

theorem matches_afterNew (hm : Matches D d none) : Matches (afterNew D) (afterNew d) none :=
  ⟨by simp only [afterNew, hm.memory], hm.settled, hm.calls, hm.locals⟩

/-- The creation of an object. -/
theorem invoke_alloc (hm : Matches D d none) (type : TypeRef) (n : Nat) :
    Machine.invoke w D Ir.allocProc (evalAll w D [.typeNamed type.name]) [(Slot.temp n).name] =
      (afterNew D).set w (Slot.temp n).name (.ref (some (newObject d type))) := by
  have hobjects : D.memory.objects = d.memory.objects := by rw [hm.memory]
  rw [Machine.invoke, if_pos rfl, newObject, ← hobjects]
  rfl

/-- A new object is thrown, unless its constructor raises. -/
theorem simulates_throw {env : Env} {type : TypeRef} {ctor : Option MethodRef} {args : List Expr}
    {n : Nat} {js : List Instr} (hargs : args.all isAtom = true) (hq : ∀ j ∈ js, Quiet j)
    (hm : Matches D d none) :
    Simulates w prog c ⟨.call Ir.allocProc [.typeNamed type.name] [(Slot.temp n).name] ::
      (constructorCode env π ρ (.ident (Slot.temp n).name) ctor args ++ (js ++
        (instrs (raiseLines env π ρ (.ident (Slot.temp n).name)) ++ rest))), D⟩ (Left env ρ rest)
      (throwNew env w d type ctor args) := by
  have hown : isOwn (.temp n) = true := rfl
  have hm₁ := (matches_afterNew hm).set_own (w := w) hown (.ref (some (newObject d type)))
  have ht : ((afterNew D).set w (Slot.temp n).name (.ref (some (newObject d type)))).locals
      (Slot.temp n).name = .ref (some (newObject d type)) := by
    rw [Data.set_own hown]
    exact Function.update_self _ _ _
  refine Simulates.head Machine.reaches_call ?_ ?_
  · rw [invoke_alloc hm]
    have hk : Keeps c D (afterNew D) := .of_locals_eq rfl
    exact hk.trans (.set_own hown id _)
  rw [invoke_alloc hm]
  generalize (afterNew D).set w (Slot.temp n).name (.ref (some (newObject d type))) = D₁ at hm₁ ht
  -- the constructor cannot write the variable of the new object
  have heval : ∀ D' : Data, D'.locals = D₁.locals →
      eval w D' (.ident (Slot.temp n).name) = .ref (some (newObject d type)) := by
    intro D' hD'
    rw [eval, Data.get_own hown, hD', ht]
  cases ctor with
  | none =>
    rw [constructorCode, List.nil_append]
    exact simulates_quiet hq (simulates_raise hm₁ (heval D₁ rfl))
  | some method =>
    have hproc := procedureName_ne_allocProc method
    have hvals : evalAll w D₁ (.ident (Slot.temp n).name :: args.map (atomExpr env)) =
        .ref (some (newObject d type)) :: args.map (atomValue env w d) := by
      rw [evalAll, heval D₁ rfl, eval_atoms (List.all_eq_true.mp hargs) hm₁]
      rfl
    have hlocals := invoke_locals w D₁
      (.ref (some (newObject d type)) :: args.map (atomValue env w d)) hproc
    have hm₂ := matches_invoke w
      (.ref (some (newObject d type)) :: args.map (atomValue env w d)) hproc hm₁
    rw [constructorCode, List.cons_append]
    refine Simulates.head Machine.reaches_call (.of_locals_eq (invoke_locals w D₁ _ hproc)) ?_
    rw [hvals]
    simp only [throwNew]
    rcases hperf : perform w (afterNew d) method.procedureName
      (.ref (some (newObject d type)) :: args.map (atomValue env w d)) with ⟨o, d'⟩
    rw [hperf] at hm₂
    cases o with
    | normal =>
      refine Simulates.head (reaches_choice_else (holds_pending hm₂)) (.refl _ _) ?_
      rw [instrs_nil, List.nil_append]
      exact simulates_quiet hq (simulates_raise hm₂ (heval _ hlocals))
    | raised e => exact (simulates_check (o := .raised e) hm₂).raised

/-! ## Catching -/

/-- The code that binds the variable of a catch clause. -/
theorem plain_bind {caught : String} {span : Span} {binding : Option Variable} {ms : List Line}
    (hp : Plain L π ρ (bindCaught L.env caught span binding) () ms) :
    ∃ is, (∀ i ∈ is, Quiet i) ∧
      instrs ms = is ++ binding.toList.map fun v => .set v.name (.ident caught) := by
  obtain ⟨-, s, s', -, hrun, hem⟩ := hp
  cases binding with
  | none =>
    obtain ⟨-, rfl⟩ := runs_pure.mp hrun
    exact ⟨[], by simp, emits_unique hem (.refl _)⟩
  | some v =>
    simp only [bindCaught, runs_bind, runs_lift] at hrun
    obtain ⟨ty, _, ⟨-, rfl⟩, _, s₁, h₁, _, s₂, h₂, h₃⟩ := hrun
    obtain ⟨is, hq, e₂⟩ := Marks.record h₂
    exact ⟨is, hq, emits_unique hem (((emits_declareLocal h₁).trans e₂).trans (emits_emit h₃))⟩

theorem reaches_bind {binding : Option Variable} {r : Nat} {e : Object}
    (hb : isBinding binding = true) (hm : Matches D d none)
    (he : D.locals (Slot.caught r).name = .ref (some e)) :
    ∃ D', Reaches w prog ⟨(binding.toList.map fun v => .set v.name
        (.ident (Slot.caught r).name)) ++ rest, D⟩ ⟨rest, D'⟩ ∧
      Matches D' (bind w d e binding) none ∧ Keeps c D D' := by
  cases binding with
  | none => exact ⟨D, .refl, hm, .refl _ _⟩
  | some v =>
    simp only [isBinding, Option.all_some, Bool.and_eq_true, Bool.not_eq_true'] at hb
    refine ⟨_, Machine.reaches_set, ?_, .set_source hb.1 _⟩
    have heval : eval w D (.ident (Slot.caught r).name) = .ref (some e) := by
      rw [eval, Data.get_own rfl, he]
    rw [heval]
    exact hm.set_source hb.1 _

/-- The test of a catch clause. -/
theorem holds_catchTest {r : Nat} {e : Object} (type : Option TypeRef)
    (he : D.locals (Slot.caught r).name = .ref (some e)) :
    (eval w D (catchTest (Slot.caught r).name type)).holds = catches w e type := by
  cases type with
  | none => rfl
  | some t =>
    simp only [catchTest, Ir.Expr.subtype, Ir.Expr.dynamicType, Ir.Expr.typeNamed, eval, evalAll,
      Data.get_own (v := .caught r) rfl, he, Machine.apply_subtype, Machine.apply_dynamicType,
      Machine.dynamicType, Value.holds_bool, catches]

end Leaves

end Unwind.Structured
