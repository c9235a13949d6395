import Unwind.Proofs.Evaluation.Code

/-!
# What the parts of the lowering do

One lemma for each part of the lowering of expressions, once the operands are lowered: calls, new
objects, operators and conditionals. The commands of an operand are run where the evaluation comes
to it, and the values that were computed before are still the same then.
-/

namespace Unwind.Evaluation

open Source
open Ir (Cmd)
open Lowering
open Machine (Agree Data Executes Lasts Value)

/-! ## Commands that are emitted -/

/-- Between the two states the commands were emitted, and intermediate values given out. -/
structure Emitted (t t' : State) (cs : List Cmd) : Prop where
  cmds : t'.cmds = t.cmds ++ cs
  temps : t.nextTemp ≤ t'.nextTemp

namespace Emitted

variable {t t₁ t' : State} {cs cs' : List Cmd} {u : Unit}

theorem refl (t : State) : Emitted t t [] := ⟨(List.append_nil _).symm, Nat.le_refl _⟩

theorem trans (h : Emitted t t₁ cs) (h' : Emitted t₁ t' cs') : Emitted t t' (cs ++ cs') :=
  ⟨by rw [h'.cmds, h.cmds, List.append_assoc], Nat.le_trans h.temps h'.temps⟩

theorem emitAll (h : Runs (Lowering.emitAll cs) t u t') : Emitted t t' cs := by
  rw [runs_emitAll] at h
  subst h
  exact ⟨rfl, Nat.le_refl _⟩

theorem emit {c : Cmd} (h : Runs (Lowering.emit c) t u t') : Emitted t t' [c] := emitAll h

end Emitted

section

variable {t t' : State} {u : Unit}

theorem runs_emit_temps {c : Cmd} (h : Runs (emit c) t u t') : t'.nextTemp = t.nextTemp := by
  rw [runs_emit] at h
  subst h
  rfl

theorem runs_emitAll_temps {cs : List Cmd} (h : Runs (emitAll cs) t u t') :
    t'.nextTemp = t.nextTemp := by
  rw [runs_emitAll] at h
  subst h
  rfl

/-- A new intermediate value. -/
theorem runs_temp {ty : Ir.Ty} {x : String} (h : Runs (freshLocal "tmp" ty) t x t') :
    x = (Slot.temp t.nextTemp).name ∧ t'.nextTemp = t.nextTemp + 1 ∧ Emitted t t' [] := by
  rw [freshLocal, withContext, runs_modifyGet] at h
  cases h
  exact ⟨rfl, rfl, (List.append_nil _).symm, Nat.le_succ _⟩

end

/-! ## Calls -/

section

variable {Γ : Signature} {W : World} {w : Machine.World} {env : Env} {t t' : State} {u : Unit}

/-- When the callee returns normally, the test behind the call is passed over. -/
theorem emitCall_executes {method : MethodRef} {args : List Ir.Expr} {outs : List String}
    (h : Runs (emitCall env method args outs) t u t') :
    ∃ cs, Emitted t t' cs ∧ ∀ {w : Machine.World} {d d' : Data},
      d' = Machine.invoke w d method.procedureName (Machine.evalAll w d args) outs →
        d'.memory.exception = none → Executes w cs d d' := by
  obtain ⟨_, t₁, h₁, h₂⟩ := runs_bind.mp h
  by_cases hm : env.options.modelsExceptions = true
  · rw [if_pos hm] at h₂
    obtain ⟨tests, t₂, h₂, h₃⟩ := runs_bind.mp h₂
    have e₂ : Emitted t₁ t₂ [] := by
      refine ⟨?_, (Modes.Keeps.propagate.commandsOf.kept h₂).nextTemp⟩
      obtain ⟨_, -, -, rfl⟩ := runs_commandsOf.mp h₂
      exact (List.append_nil _).symm
    refine ⟨_, (Emitted.emit h₁).trans (e₂.trans (.emit h₃)), fun {w d d'} hd hexc => ?_⟩
    have hcall : Executes w [.invoke method.procedureName args outs] d d' :=
      hd ▸ Machine.executes_invoke
    exact hcall.append (Machine.executes_else (Machine.holds_pending_none hexc) .nil)
  · rw [if_neg hm, runs_pure] at h₂
    obtain ⟨-, rfl⟩ := h₂
    exact ⟨_, .emit h₁, fun hd _ => hd ▸ Machine.executes_invoke⟩

variable {s : Store} {d : Data} {i : Invocation}

/-- The data behind a call, before its results are stored. -/
def returned (W : World) (i : Invocation) (s : Store) (d : Data) : Data :=
  { d with memory := (W.call s.calls i s.memory).1, calls := d.calls ++ [i.toCall] }

theorem mirrors_returned (hm : Mirrors s d) :
    Mirrors { s with memory := (W.call s.calls i s.memory).1, calls := s.calls ++ [i] }
      (returned W i s d) := by
  refine ⟨hm.locals, rfl, ?_⟩
  show d.calls ++ [i.toCall] = (s.calls ++ [i]).map Invocation.toCall
  rw [hm.calls, List.map_append]
  rfl

/-- The machine makes the call that the source makes. -/
theorem invoke_eq (hw : Implements w W Γ env) (hm : Mirrors s d) {args : List Ir.Expr}
    (hargs : Machine.evalAll w d args = i.receiver.toList ++ i.args) (outs : List String) :
    Machine.invoke w d i.method.procedureName (Machine.evalAll w d args) outs =
      Data.setAll w (returned W i s d) outs
        (w.call (s.calls.map Invocation.toCall) i.toCall s.memory).2 := by
  rw [Machine.invoke, if_neg (Structured.procedureName_ne_allocProc _), hargs, returned,
    ← hw.memory s.calls i s.memory, ← hm.memory, ← hm.calls]
  rfl

/-- A call whose operands are lowered. -/
theorem finishCall_does (hw : Implements w W Γ env) {method : MethodRef} {args : List Ir.Expr}
    {ty : Ty} {r : Option Ir.Expr} (h : Runs (finishCall env method args ty) t r t') :
    ∃ cs, Emitted t t' cs ∧ (∀ v ∈ r, Lasts w t'.nextTemp {} v) ∧
      ∀ i : Invocation, i.method = method →
        (ty.isVoid = false → ∃ rt, Γ.result method = some rt ∧ rt.isVoid = false) →
        Does Γ w t.nextTemp t'.nextTemp cs
          (fun d => Machine.evalAll w d args = i.receiver.toList ++ i.args) (perform W i ty)
          fun d o => r.map (Machine.eval w d) = o := by
  unfold finishCall at h
  by_cases hv : ty.isVoid = true
  · simp only [if_pos hv, runs_bind, runs_pure] at h
    obtain ⟨_, t₁, h₁, rfl, rfl⟩ := h
    obtain ⟨cs, he, hx⟩ := emitCall_executes h₁
    refine ⟨cs, he, fun _ hv => absurd hv (Option.not_mem_none _), ?_⟩
    rintro i rfl - s s' d o _ hm hargs hy
    obtain ⟨hexc, rfl, rfl⟩ := yields_perform.mp hy
    refine ⟨returned W i s d, hx (invoke_eq hw hm hargs []).symm hexc, mirrors_returned hm, .refl,
      ?_⟩
    rw [if_pos hv]
    rfl
  · simp only [if_neg hv, runs_bind, runs_lift, runs_pure] at h
    obtain ⟨_, t₀, ⟨-, ht₀⟩, x, t₁, h₁, _, t₂, h₂, rfl, rfl⟩ := h
    rw [ht₀] at h₁
    obtain ⟨rfl, hn₁, he₁⟩ := runs_temp h₁
    obtain ⟨cs, he₂, hx⟩ := emitCall_executes h₂
    have hlt : t.nextTemp < t'.nextTemp := by
      have := he₂.temps
      omega
    refine ⟨cs, he₁.trans he₂, ?_, ?_⟩
    · rintro _ ⟨⟩
      exact .temp hlt
    rintro i rfl hres s s' d o _ hm hargs hy
    obtain ⟨hexc, rfl, rfl⟩ := yields_perform.mp hy
    obtain ⟨rt, hrt, hvoid⟩ := hres (by simpa using hv)
    -- the first result of the machine is the result of the source
    have hhead := hw.result s.calls i s.memory hrt hvoid
    obtain ⟨vs, hvs⟩ := List.head?_eq_some_iff.mp hhead
    have hinv := invoke_eq hw hm hargs [(Slot.temp t.nextTemp).name]
    rw [hvs] at hinv
    refine ⟨(returned W i s d).set w (Slot.temp t.nextTemp).name (W.call s.calls i s.memory).2,
      hx hinv.symm ?_, (mirrors_returned hm).set_temp _ _, ?_, ?_⟩
    · rw [Data.set_own rfl]
      exact hexc
    · exact untouched_set_temp (d := returned W i s d) (Nat.le_refl _) hlt _
    · rw [if_neg hv]
      exact congrArg some (get_set_temp _ _)

end

/-! ## New objects -/

section

variable {Γ : Signature} {W : World} {w : Machine.World} {env : Env} {t t' : State}
  {type : TypeRef} {v : Ir.Expr}

variable (Γ w) in
theorem alloc_does (pre : Data → Prop) (h : Runs (alloc type) t v t') :
    ∃ cs, Emitted t t' cs ∧ Lasts w t'.nextTemp {} v ∧
      Does Γ w t.nextTemp t'.nextTemp cs pre (create type) fun d x => Machine.eval w d v = x := by
  simp only [alloc, runs_bind, runs_pure] at h
  obtain ⟨x, t₁, h₁, _, t₂, h₂, rfl, rfl⟩ := h
  obtain ⟨rfl, hn₁, he₁⟩ := runs_temp h₁
  have hn : t'.nextTemp = t.nextTemp + 1 := (runs_emit_temps h₂).trans hn₁
  refine ⟨_, he₁.trans (.emit h₂), .temp (by omega), ?_⟩
  rw [hn]
  exact does_create

/-- The value of a default; a struct gets a new object. -/
theorem defaultValue_does (hw : Implements w W Γ env) (pre : Data → Prop) {ty : Ty} {span : Span}
    (h : Runs (Lowering.defaultValue env ty span) t v t') :
    ∃ cs, Emitted t t' cs ∧ Lasts w t'.nextTemp {} v ∧
      Does Γ w t.nextTemp t'.nextTemp cs pre (defaultValue W ty)
        fun d x => Machine.eval w d v = x := by
  unfold Lowering.defaultValue at h
  unfold defaultValue
  cases ty with
  | void => exact absurd h not_runs_throw
  | bool | int =>
    obtain ⟨rfl, rfl⟩ := runs_pure.mp h
    exact ⟨[], .refl _, .lit, .pure fun _ _ => rfl⟩
  | named type =>
    simp only [hw.isStruct] at h ⊢
    split at h
    · next hs =>
      rw [if_pos hs]
      exact alloc_does Γ w pre h
    · next hs =>
      obtain ⟨rfl, rfl⟩ := runs_pure.mp h
      rw [if_neg hs]
      exact ⟨[], .refl _, .lit, .pure fun _ _ => rfl⟩

/-- A constructor is called like a method without result. -/
theorem runs_finishCall_void {method : MethodRef} {args : List Ir.Expr} {u : Unit}
    (h : Runs (emitCall env method args []) t u t') :
    Runs (finishCall env method args .void) t none t' :=
  runs_bind.mpr ⟨u, t', h, runs_pure.mpr ⟨rfl, rfl⟩⟩

/-- A new object whose constructor arguments are lowered. They are still the same when the object
has been created. -/
theorem finishNew_does (hw : Implements w W Γ env) {method : MethodRef} {args : List Ir.Expr}
    (hargs : ∀ {d d'}, Agree t.nextTemp {} d d' →
      Machine.evalAll w d' args = Machine.evalAll w d args)
    (h : Runs (finishNew env type (some method) args) t v t') :
    ∃ cs, Emitted t t' cs ∧ Lasts w t'.nextTemp {} v ∧ ∀ vs,
      Does Γ w t.nextTemp t'.nextTemp cs (fun d => Machine.evalAll w d args = vs)
        (do
          let object ← create type
          let _ ← perform W ⟨method, false, some object, vs⟩ .void
          return some object)
        fun d o => some (Machine.eval w d v) = o := by
  simp only [finishNew, runs_bind, runs_pure] at h
  obtain ⟨object, t₁, h₁, _, t₂, h₂, rfl, rfl⟩ := h
  obtain ⟨cs₁, he₁, hv₁, hdoes₁⟩ := alloc_does Γ w (fun _ => True) h₁
  obtain ⟨cs₂, he₂, -, hdoes₂⟩ := finishCall_does hw (runs_finishCall_void h₂)
  refine ⟨_, he₁.trans he₂, hv₁.mono he₂.temps, fun vs => ?_⟩
  have hcreate : Does Γ w t.nextTemp t₁.nextTemp cs₁ (fun d => Machine.evalAll w d args = vs)
      (create type) fun d x => Machine.eval w d v = x ∧ Machine.evalAll w d args = vs :=
    (hdoes₁.frame (A := {}) .create fun hag he => (hargs hag).trans he).imp
      (fun _ hd => ⟨trivial, hd⟩) fun _ _ hd => hd
  have hcreated : Sound Γ (create type) (Ty.named type).Has := .create rfl
  refine hcreate.bind hcreated (fun x _ => ?_) he₁.temps he₂.temps
  have hcall := hdoes₂ ⟨method, false, some x, vs⟩ rfl (by rintro ⟨⟩)
  have hkeep : ∀ {d d'}, Agree t₁.nextTemp { allFields := true } d d' →
      Machine.eval w d v = x → Machine.eval w d' v = x := fun hag hx => (hv₁ rfl hag).trans hx
  refine Does.map ((hcall.frame .perform hkeep).imp (fun d hd => ⟨?_, hd.1⟩) fun _ _ hd => hd) ?_
  · rw [Machine.evalAll, hd.1, hd.2]
    rfl
  · exact fun d _ hd => congrArg some hd.2

end

/-! ## Conditions and conversions -/

section

variable {w : Machine.World} {n : Nat} {area : Area} {d : Data} {v c : Ir.Expr} {x : Value}

theorem truthOf_lasts {e : Expr} (h : truthOf e v = .ok c) (hv : Lasts w n area v) :
    Lasts w n area c := by
  unfold truthOf at h
  split at h
  · cases h
    exact hv
  · cases h
    exact hv.binary .lit
  · cases h
    exact hv.binary .lit
  · cases h

/-- The condition holds in the machine when the value is true in the source. -/
theorem truthOf_holds {e : Expr} {s s' : Store} {b : Bool} (h : truthOf e v = .ok c)
    (hx : Machine.eval w d v = x) (hy : Yields (truth e.ty x) s b s') :
    s' = s ∧ (Machine.eval w d c).holds = b := by
  obtain ⟨hb, rfl⟩ := yields_truth.mp hy
  refine ⟨rfl, ?_⟩
  unfold truthOf at h
  cases hk : e.ty.valueKind? with
  | none =>
    rw [hk] at h
    cases h
  | some kind =>
    rw [hk] at h hb
    cases kind with
    | boolean =>
      cases h
      rw [hx, hb]
    | integer | reference =>
      cases h
      rw [hb, Ir.Expr.neq, Machine.eval, hx]
      exact Machine.Value.holds_bool _

theorem convert_lasts {s t : Ty} (hv : Lasts w n area v) :
    Lasts w n area (Lowering.convert s t v) := by
  unfold Lowering.convert
  split
  · exact hv.ifThenElse .lit .lit
  · exact hv.binary .lit
  · exact hv

theorem eval_convert {s t : Ty} (hx : Machine.eval w d v = x) :
    Machine.eval w d (Lowering.convert s t v) = convert s t x := by
  subst hx
  cases s with
  | bool =>
    cases t with
    | int =>
      rw [Lowering.convert, convert, Machine.eval]
      split <;> rfl
    | _ => rfl
  | int => cases t <;> rfl
  | _ => rfl

end

/-! ## Operators -/

section

variable {Γ : Signature} {W : World} {w : Machine.World} {env : Env} {t t' : State}
  {lhs rhs : Expr} {op : BinOp} {ty : Ty} {left right v : Ir.Expr} {cs : List Cmd} {n : Nat}

/-- The evaluation of an operator behind its left operand. -/
def evalRight (W : World) (op : BinOp) (x : Value) (rhs : Expr) : Evaluating (Option Value) := do
  if isDecided op x then return some x
  return some (Machine.binary (binOp op) x (← demand (← eval W rhs)))

/-- A left operand that decides the operator is the result, whatever the right one is. Otherwise
the right one is the result of a short-circuit operator. -/
theorem binary_shortCircuit {x y : Value} (hop : op.isOf lhs.ty rhs.ty ty = true)
    (hsc : op = .and ∨ op = .or) (hx : lhs.ty.Has x) (hy : rhs.ty.Has y) :
    Machine.binary (binOp op) x y = if isDecided op x then x else y := by
  have htruth : lhs.ty.suits .bool = true ∧ rhs.ty.suits .bool = true := by
    rcases hsc with rfl | rfl
    all_goals
      simp only [BinOp.isOf, Bool.and_eq_true] at hop
      exact hop.1
  obtain ⟨b, rfl⟩ := hx.suits htruth.1
  obtain ⟨c, rfl⟩ := hy.suits htruth.2
  rcases hsc with rfl | rfl
  · cases b <;> rfl
  · cases b <;> rfl

theorem isDecided_eq_false {x : Value} (hsc : ¬ (op = .and ∨ op = .or)) :
    isDecided op x = false := by
  cases op with
  | and => exact absurd (.inl rfl) hsc
  | or => exact absurd (.inr rfl) hsc
  | _ => rfl

/-- Both operands are there without commands: the operator is applied to them. -/
theorem silent_does {x : Value} (hop : op.isOf lhs.ty rhs.ty ty = true)
    (hs : Sound Γ (eval W rhs) rhs.ty.Gives) (hx : lhs.ty.Has x)
    (hright : Does Γ w n t.nextTemp [] (fun _ => True) (eval W rhs)
      fun d o => some (Machine.eval w d right) = o) :
    Does Γ w n t.nextTemp [] (fun d => Machine.eval w d left = x) (evalRight W op x rhs)
      fun d o => some (Machine.eval w d (.binary (binOp op) left right)) = o := by
  intro s s' d o hfit hm hleft hy
  -- the right operand has a value also where the source does not evaluate it
  obtain ⟨_, hhas, rfl⟩ := hright.silent hs hfit hm trivial
  have hval : Machine.eval w d (.binary (binOp op) left right) =
      Machine.binary (binOp op) x (Machine.eval w d right) := by rw [Machine.eval, hleft]
  unfold evalRight at hy
  cases hd : isDecided op x with
  | true =>
    rw [if_pos hd] at hy
    obtain ⟨rfl, rfl⟩ := yields_pure.mp hy
    have hsc : op = .and ∨ op = .or := by
      by_contra hsc
      rw [isDecided_eq_false hsc] at hd
      cases hd
    refine ⟨d, .nil, hm, .refl, congrArg some ?_⟩
    rw [hval, binary_shortCircuit hop hsc hx hhas, if_pos hd]
  | false =>
    rw [hd, if_neg Bool.false_ne_true] at hy
    simp only [yields_bind, yields_demand, yields_pure] at hy
    obtain ⟨_, s₁, h₁, y, _, ⟨rfl, rfl⟩, rfl, rfl⟩ := hy
    obtain ⟨d', he, hm', hu, hpost⟩ := hright hfit hm trivial h₁
    obtain rfl : d' = d := Machine.executes_nil_iff.mp he
    cases hpost
    exact ⟨d', .nil, hm', hu, congrArg some hval⟩

/-- **Pinning.** The left operand is kept in a variable while the right one is evaluated. -/
theorem pinned_does {x : Value} (hsc : ¬ (op = .and ∨ op = .or)) (hn : n ≤ t.nextTemp)
    (hright : Does Γ w n t.nextTemp cs (fun _ => True) (eval W rhs)
      fun d o => some (Machine.eval w d right) = o) :
    Does Γ w n (t.nextTemp + 1) (.set (Slot.temp t.nextTemp).name left :: cs)
      (fun d => Machine.eval w d left = x) (evalRight W op x rhs)
      fun d o =>
        some (Machine.eval w d
          (.binary (binOp op) (.ident (Slot.temp t.nextTemp).name) right)) = o := by
  intro s s' d o hfit hm hleft hy
  rw [evalRight, isDecided_eq_false hsc, if_neg Bool.false_ne_true] at hy
  simp only [yields_bind, yields_demand, yields_pure] at hy
  obtain ⟨_, s₁, h₁, y, _, ⟨rfl, rfl⟩, rfl, rfl⟩ := hy
  have hset : Executes w [.set (Slot.temp t.nextTemp).name left] d
      (d.set w (Slot.temp t.nextTemp).name x) := hleft ▸ Machine.executes_set
  obtain ⟨d', he, hm', hu, hpost⟩ := hright hfit (hm.set_temp (w := w) t.nextTemp x) trivial h₁
  refine ⟨d', hset.append he, hm', ?_, ?_⟩
  · intro k hk
    rw [hu k (by omega)]
    exact untouched_set_temp hn (Nat.lt_succ_self _) x k hk
  · -- the commands of the right operand do not reach the variable
    have htemp : Machine.eval w d' (.ident (Slot.temp t.nextTemp).name) = x := by
      show d'.get w _ = x
      rw [Data.get_own rfl, hu t.nextTemp (.inr (Nat.le_refl _))]
      exact Data.locals_set_own rfl x
    cases hpost
    refine congrArg some ?_
    rw [Machine.eval, htemp]

/-- **Short circuit.** The commands of the right operand run only when it is needed. -/
theorem guarded_does {x : Value} {guard : Ir.Expr} (hop : op.isOf lhs.ty rhs.ty ty = true)
    (hsc : op = .and ∨ op = .or) (hs : Sound Γ (eval W rhs) rhs.ty.Gives) (hn : n ≤ t.nextTemp)
    (hx : lhs.ty.Has x)
    (hguard : ∀ d, Machine.eval w d (.ident (Slot.temp t.nextTemp).name) = x →
      (Machine.eval w d guard).holds = !isDecided op x)
    (hright : Does Γ w n t.nextTemp cs (fun _ => True) (eval W rhs)
      fun d o => some (Machine.eval w d right) = o) :
    Does Γ w n (t.nextTemp + 1)
      [.set (Slot.temp t.nextTemp).name left,
        .ifThen guard (cs ++ [.set (Slot.temp t.nextTemp).name right])]
      (fun d => Machine.eval w d left = x) (evalRight W op x rhs)
      fun d o => some (Machine.eval w d (.ident (Slot.temp t.nextTemp).name)) = o := by
  intro s s' d o hfit hm hleft hy
  have hset : Executes w [.set (Slot.temp t.nextTemp).name left] d
      (d.set w (Slot.temp t.nextTemp).name x) := hleft ▸ Machine.executes_set
  have hm₁ := hm.set_temp (w := w) t.nextTemp x
  have hu₁ := untouched_set_temp (w := w) (d := d) hn (Nat.lt_succ_self _) x
  have hholds := hguard _ (get_set_temp (w := w) (d := d) t.nextTemp x)
  unfold evalRight at hy
  cases hd : isDecided op x with
  | true =>
    rw [if_pos hd] at hy
    obtain ⟨rfl, rfl⟩ := yields_pure.mp hy
    rw [hd] at hholds
    exact ⟨_, hset.append (Machine.executes_else hholds .nil), hm₁, hu₁,
      congrArg some (get_set_temp _ _)⟩
  | false =>
    rw [hd, if_neg Bool.false_ne_true] at hy
    simp only [yields_bind, yields_demand, yields_pure] at hy
    obtain ⟨_, s₁, h₁, y, _, ⟨rfl, rfl⟩, rfl, rfl⟩ := hy
    rw [hd] at hholds
    obtain ⟨d', he, hm', hu, hpost⟩ := hright hfit hm₁ trivial h₁
    cases hpost
    have hset' : Executes w [.set (Slot.temp t.nextTemp).name right] d' _ := Machine.executes_set
    refine ⟨_, hset.append (Machine.executes_then hholds (he.append hset')), hm'.set_temp _ _, ?_,
      congrArg some ?_⟩
    · intro k hk
      rw [untouched_set_temp hn (Nat.lt_succ_self _) _ k hk, hu k (by omega)]
      exact hu₁ k hk
    · have hy := (hs.of_yields hfit h₁).2
      rw [get_set_temp, binary_shortCircuit hop hsc hx hy, hd, if_neg Bool.false_ne_true]

/-- An operator whose operands are lowered, the right one with its commands aside. -/
theorem finishBinary_does (hop : op.isOf lhs.ty rhs.ty ty = true)
    (hs : Sound Γ (eval W rhs) rhs.ty.Gives) (hl : Lasts w n lhs.deps left)
    (hr : Lasts w t.nextTemp rhs.deps right) (hn : n ≤ t.nextTemp)
    (hright : Does Γ w n t.nextTemp cs (fun _ => True) (eval W rhs)
      fun d o => some (Machine.eval w d right) = o)
    (h : Runs (finishBinary op lhs left right cs) t v t') :
    ∃ cs', Emitted t t' cs' ∧ Lasts w t'.nextTemp (lhs.deps ∪ rhs.deps) v ∧
      ∀ x, lhs.ty.Has x → Does Γ w n t'.nextTemp cs' (fun d => Machine.eval w d left = x)
        (evalRight W op x rhs) fun d o => some (Machine.eval w d v) = o := by
  unfold finishBinary at h
  by_cases hcs : cs.isEmpty = true
  · rw [if_pos hcs] at h
    obtain ⟨rfl, rfl⟩ := runs_pure.mp h
    rw [List.isEmpty_iff] at hcs
    subst hcs
    refine ⟨[], .refl _, (hl.mono hn).left.binary hr.right, fun x hx => ?_⟩
    exact silent_does hop hs hx hright
  rw [if_neg hcs] at h
  by_cases hsc : op = .and ∨ op = .or
  · -- both short-circuit operators have the same commands around another guard
    obtain ⟨guard, hguard, h⟩ : ∃ guard, (∀ x d, lhs.ty.Has x →
        Machine.eval w d (.ident (Slot.temp t.nextTemp).name) = x →
          (Machine.eval w d guard).holds = !isDecided op x) ∧
        ∃ t₁ u t₂ u', Runs (freshLocal "tmp" .bool) t (Slot.temp t.nextTemp).name t₁ ∧
          Runs (emit (.set (Slot.temp t.nextTemp).name left)) t₁ u t₂ ∧
          Runs (emit (.ifThen guard
            (cs ++ [Ir.Cmd.set (Slot.temp t.nextTemp).name right]))) t₂ u' t' ∧
          v = .ident (Slot.temp t.nextTemp).name := by
      rcases hsc with rfl | rfl
      · simp only [runs_bind, runs_pure] at h
        obtain ⟨x, t₁, h₁, u, t₂, h₂, u', t₃, h₃, rfl, rfl⟩ := h
        obtain ⟨rfl, -, -⟩ := runs_temp h₁
        refine ⟨_, fun x d _ hd => ?_, t₁, u, t₂, u', h₁, h₂, h₃, rfl⟩
        rw [if_pos trivial, hd, isDecided, Bool.not_not]
      · simp only [runs_bind, runs_pure] at h
        obtain ⟨x, t₁, h₁, u, t₂, h₂, u', t₃, h₃, rfl, rfl⟩ := h
        obtain ⟨rfl, -, -⟩ := runs_temp h₁
        refine ⟨_, fun x d hx hd => ?_, t₁, u, t₂, u', h₁, h₂, h₃, rfl⟩
        simp only [BinOp.isOf, Bool.and_eq_true] at hop
        obtain ⟨b, rfl⟩ := hx.suits hop.1.1
        rw [if_neg (by decide), Ir.Expr.not, Machine.eval, hd]
        cases b <;> rfl
    obtain ⟨t₁, u, t₂, u', h₁, h₂, h₃, rfl⟩ := h
    obtain ⟨-, hn₁, he₁⟩ := runs_temp h₁
    have hn' : t'.nextTemp = t.nextTemp + 1 :=
      ((runs_emit_temps h₃).trans (runs_emit_temps h₂)).trans hn₁
    refine ⟨_, he₁.trans ((Emitted.emit h₂).trans (.emit h₃)), .temp (by omega), fun x hx => ?_⟩
    rw [hn']
    exact guarded_does hop hsc hs hn hx (fun d => hguard x d hx) hright
  · obtain ⟨ty, t₁, u, t₂, u', h₁, h₂, h₃, rfl⟩ : ∃ ty t₁ u t₂ u',
        Runs (freshLocal "tmp" ty) t (Slot.temp t.nextTemp).name t₁ ∧
        Runs (emit (.set (Slot.temp t.nextTemp).name left)) t₁ u t₂ ∧ Runs (emitAll cs) t₂ u' t' ∧
        v = .binary (binOp op) (.ident (Slot.temp t.nextTemp).name) right := by
      cases op with
      | and | or => simp at hsc
      | _ =>
        simp only [runs_bind, runs_lift, runs_pure] at h
        obtain ⟨ty, t₀, ⟨-, ht₀⟩, x, t₁, h₁, u, t₂, h₂, u', t₃, h₃, rfl, rfl⟩ := h
        rw [ht₀] at h₁
        obtain ⟨rfl, -, -⟩ := runs_temp h₁
        exact ⟨ty, t₁, u, t₂, u', h₁, h₂, h₃, rfl⟩
    obtain ⟨-, hn₁, he₁⟩ := runs_temp h₁
    have hn' : t'.nextTemp = t.nextTemp + 1 :=
      ((runs_emitAll_temps h₃).trans (runs_emit_temps h₂)).trans hn₁
    refine ⟨_, he₁.trans ((Emitted.emit h₂).trans (.emitAll h₃)), ?_, fun x hx => ?_⟩
    · exact .binary (.temp (by omega)) (hr.mono (by omega)).right
    · rw [hn']
      exact pinned_does hsc hn hright

end

/-! ## Conditionals -/

section

variable {Γ : Signature} {W : World} {w : Machine.World} {t t' : State} {ty : Ty} {span : Span}
  {thenExpr elseExpr : Expr} {cond v : Ir.Expr} {thenPart elsePart : Ir.Expr × List Cmd}
  {n m : Nat} {area : Area}

/-- One of two parts is evaluated. -/
def evalBranch (W : World) (b : Bool) (thenExpr elseExpr : Expr) : Evaluating (Option Value) :=
  if b then eval W thenExpr else eval W elseExpr

/-- The commands of a branch, and the assignment of its value behind them. -/
theorem branch_does {e : Expr} {cs : List Cmd} {r : Ir.Expr} {k : Nat} (hk : n ≤ k)
    (h : Does Γ w n k cs (fun _ => True) (eval W e) fun d o => some (Machine.eval w d r) = o) :
    Does Γ w n (k + 1) (cs ++ [.set (Slot.temp k).name r]) (fun _ => True) (eval W e)
      fun d o => some (Machine.eval w d (.ident (Slot.temp k).name)) = o := by
  intro s s' d o hfit hm hd hy
  obtain ⟨d', he, hm', hu, hpost⟩ := h hfit hm hd hy
  refine ⟨_, he.append Machine.executes_set, hm'.set_temp _ _, ?_, ?_⟩
  · intro j hj
    rw [untouched_set_temp hk (Nat.lt_succ_self _) _ j hj]
    exact hu j (by omega)
  · exact (congrArg some (get_set_temp _ _)).trans hpost

/-- A conditional whose parts are lowered, the branches with their commands aside. -/
theorem finishConditional_does (hc : Lasts w n area cond) (hn : n ≤ m) (hm : m ≤ t.nextTemp)
    (ha : Lasts w m thenExpr.deps thenPart.1) (hb : Lasts w t.nextTemp elseExpr.deps elsePart.1)
    (hthen : Does Γ w n m thenPart.2 (fun _ => True) (eval W thenExpr)
      fun d o => some (Machine.eval w d thenPart.1) = o)
    (helse : Does Γ w m t.nextTemp elsePart.2 (fun _ => True) (eval W elseExpr)
      fun d o => some (Machine.eval w d elsePart.1) = o)
    (h : Runs (finishConditional ty span cond thenPart elsePart) t v t') :
    ∃ cs, Emitted t t' cs ∧
      Lasts w t'.nextTemp (area ∪ (thenExpr.deps ∪ elseExpr.deps)) v ∧
      ∀ b, Does Γ w n t'.nextTemp cs (fun d => (Machine.eval w d cond).holds = b)
        (evalBranch W b thenExpr elseExpr) fun d o => some (Machine.eval w d v) = o := by
  obtain ⟨a, as⟩ := thenPart
  obtain ⟨b, bs⟩ := elsePart
  unfold finishConditional at h
  by_cases hcs : (as.isEmpty && bs.isEmpty) = true
  · rw [if_pos hcs] at h
    obtain ⟨rfl, rfl⟩ := runs_pure.mp h
    rw [Bool.and_eq_true, List.isEmpty_iff, List.isEmpty_iff] at hcs
    obtain ⟨rfl, rfl⟩ := hcs
    refine ⟨[], .refl _, ?_, ?_⟩
    · exact (hc.mono (by omega)).left.ifThenElse (ha.mono hm).left.right hb.right.right
    rintro (_ | _) s s' d o hfit hmir hcond hy
    · obtain ⟨d', he, hm', hu, hpost⟩ := helse hfit hmir trivial hy
      obtain rfl : d' = d := Machine.executes_nil_iff.mp he
      refine ⟨d', .nil, hm', .refl, Eq.trans (congrArg some ?_) hpost⟩
      rw [Machine.eval, hcond, if_neg Bool.false_ne_true]
    · obtain ⟨d', he, hm', hu, hpost⟩ := hthen hfit hmir trivial hy
      obtain rfl : d' = d := Machine.executes_nil_iff.mp he
      refine ⟨d', .nil, hm', .refl, Eq.trans (congrArg some ?_) hpost⟩
      rw [Machine.eval, hcond, if_pos rfl]
  · rw [if_neg hcs] at h
    simp only [runs_bind, runs_lift, runs_pure] at h
    obtain ⟨_, t₀, ⟨-, ht₀⟩, x, t₁, h₁, _, t₂, h₂, rfl, rfl⟩ := h
    rw [ht₀] at h₁
    obtain ⟨rfl, hn₁, he₁⟩ := runs_temp h₁
    have hn' : t'.nextTemp = t.nextTemp + 1 := (runs_emit_temps h₂).trans hn₁
    refine ⟨_, he₁.trans (.emit h₂), .temp (by omega), ?_⟩
    rw [hn']
    rintro (_ | _) s s' d o hfit hmir hcond hy
    · obtain ⟨d', he, hm', hu, hpost⟩ := branch_does hm helse hfit hmir trivial hy
      exact ⟨d', Machine.executes_else hcond he, hm', fun k hk => hu k (by omega), hpost⟩
    · have hthen' := branch_does (k := t.nextTemp) (by omega) (hthen.widen (Nat.le_refl n) hm)
      obtain ⟨d', he, hm', hu, hpost⟩ := hthen' hfit hmir trivial hy
      exact ⟨d', Machine.executes_then hcond he, hm', hu, hpost⟩

end

end Unwind.Evaluation
