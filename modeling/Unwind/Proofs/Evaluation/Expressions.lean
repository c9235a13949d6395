import Unwind.Proofs.Evaluation.Repeating
import Unwind.Proofs.Evaluation.Steps

/-!
# Lowered expressions evaluate like their source

The arguments of a call are lowered one after the other, and only the call itself looks at their
values; the right operand of a binary operator, in contrast, finds the left one in a variable. So
an argument keeps its value as long as no later one writes what it reads, which is what `steady`
asks of calls, new objects and assignments.

Under this condition the commands of a well-typed expression, and then its lowered value, do what
the evaluation of the expression does: the same value, the same calls with the same arguments, and
the same changes. Operators and conditionals need no condition.
-/

namespace Unwind.Source

/-! ## Operands that keep their values -/

/-- No operand reads what a later one writes. -/
def undisturbed : List Expr → Bool
  | [] => true
  | e :: es => e.deps.apart (writesAll es) && undisturbed es

mutual

/-- The operands of calls, new objects and assignments keep their values until they are used.
`compound` allows a compound assignment. -/
def Expr.steady : Expr → Bool → Bool
  | ⟨_, _, _, kind⟩, compound =>
    match kind with
    | .field object _ => steadyOption object
    | .unary _ operand | .getType operand | .conversion operand _ => operand.steady false
    | .binary _ ⟨_, _, _, .target target⟩ rhs =>
      compound && (target.isFixed && (rhs.steady false && target.deps.apart rhs.writes))
    | .binary _ lhs rhs => lhs.steady false && rhs.steady false
    | .conditional cond thenExpr elseExpr =>
      cond.steady false && (thenExpr.steady false && elseExpr.steady false)
    | .assign target value =>
      target.isFixed && (value.steady false && target.objectDeps.apart value.writes)
    | .target target => target.steady
    | .call ⟨_, receiver, args, _⟩ =>
      steadyOption receiver && (steadyAll args && undisturbed (receiver.toList ++ args))
    | .new _ _ args => steadyAll args && undisturbed args
    | .literal _ | .var _ | .self | .typeOf _ | .defaultValue _ | .pop => true

def Target.steady : Target → Bool
  | .var _ => true
  | .field object _ => steadyOption object

def steadyOption : Option Expr → Bool
  | none => true
  | some e => e.steady false

def steadyAll : List Expr → Bool
  | [] => true
  | e :: es => e.steady false && steadyAll es

end

/-- An operator whose left operand is no target. -/
theorem Expr.steady_binary {id : UInt32} {span : Span} {ty : Ty} {op : BinOp} {lhs rhs : Expr}
    {compound : Bool} (h : lhs.isTarget = false) :
    Expr.steady ⟨id, span, ty, .binary op lhs rhs⟩ compound =
      (lhs.steady false && rhs.steady false) := by
  rw [Expr.steady]
  rintro i sp t target rfl
  cases h

mutual

theorem Expr.steady_of_isStill (e : Expr) (h : e.isStill = true) : e.steady false = true := by
  obtain ⟨id, span, ty, kind⟩ := e
  cases kind with
  | literal | var | self | typeOf | defaultValue => rfl
  | field object f =>
    cases object with
    | none => rfl
    | some object => exact Expr.steady_of_isStill object h
  | unary op operand | getType operand | conversion operand newTy =>
    exact Expr.steady_of_isStill operand h
  | binary op lhs rhs =>
    have htar := Expr.isTarget_of_isStill h
    rw [Expr.isStill_binary htar, Bool.and_eq_true] at h
    rw [Expr.steady_binary htar, Expr.steady_of_isStill lhs h.1, Expr.steady_of_isStill rhs h.2]
    rfl
  | conditional cond thenExpr elseExpr =>
    simp only [Expr.isStill, Bool.and_eq_true] at h
    rw [Expr.steady, Expr.steady_of_isStill cond h.1, Expr.steady_of_isStill thenExpr h.2.1,
      Expr.steady_of_isStill elseExpr h.2.2]
    rfl
  | target target => exact Target.steady_of_isStill target h
  | assign | call | new | pop => cases h

theorem Target.steady_of_isStill (t : Target) (h : t.isStill = true) : t.steady = true := by
  cases t with
  | var => rfl
  | field object f =>
    cases object with
    | none => rfl
    | some object => exact Expr.steady_of_isStill object h

end

end Unwind.Source

namespace Unwind.Evaluation

open Source
open Ir (Cmd)
open Lowering
open Machine (Agree Data Executes Lasts Value)

/-! ## Lowered values -/

section

variable {Γ : Signature} {W : World} {w : Machine.World} {env : Env} {t t₁ t' : State}
  {cs cs' : List Cmd} {e : Expr} {r : Option Ir.Expr} {v : Ir.Expr}

/-- Between the two states the commands `cs` of the expression were emitted; its value is `r`. -/
structure Lowered (Γ : Signature) (W : World) (w : Machine.World) (t t' : State) (cs : List Cmd)
    (e : Expr) (r : Option Ir.Expr) : Prop where
  emitted : Emitted t t' cs
  lasts : ∀ v ∈ r, Lasts w t'.nextTemp e.deps v
  does : Does Γ w t.nextTemp t'.nextTemp cs (fun _ => True) (eval W e)
    fun d o => r.map (Machine.eval w d) = o

theorem lowered_pure (hl : Lasts w t.nextTemp e.deps v)
    (hd : Does Γ w t.nextTemp t.nextTemp [] (fun _ => True) (eval W e)
      fun d o => some (Machine.eval w d v) = o) : Lowered Γ W w t t [] e (some v) :=
  ⟨.refl t, fun _ hv => by cases hv; exact hl, hd⟩

theorem Lowered.last (h : Lowered Γ W w t t' cs e (some v)) : Lasts w t'.nextTemp e.deps v :=
  h.lasts v rfl

/-- The value of an expression that has one goes to what follows; what does not depend on places
that the expression writes still holds there. -/
theorem Lowered.bind {β : Type} {f : Value → Evaluating β} {post : Data → β → Prop}
    {F : Data → Prop} (h : Lowered Γ W w t t₁ cs e (some v))
    (hs : Sound Γ (eval W e) e.ty.Gives)
    (hF : ∀ {d d'}, Agree t.nextTemp e.writes d d' → F d → F d')
    (hf : ∀ x, e.ty.Has x → Does Γ w t₁.nextTemp t'.nextTemp cs'
      (fun d => Machine.eval w d v = x ∧ F d) (f x) post) (he : Emitted t₁ t' cs') :
    Does Γ w t.nextTemp t'.nextTemp (cs ++ cs') F (do f (← demand (← eval W e))) post := by
  have hframed := (h.does.frame (eval_within e) hF).imp (fun d hd => ⟨trivial, hd⟩) fun _ _ hd => hd
  refine hframed.bind hs (fun o ho => ?_) h.emitted.temps he.temps
  rintro s s' d b hfit hm ⟨hval, hd⟩ hy
  obtain ⟨x, _, hx, hy⟩ := yields_bind.mp hy
  obtain ⟨rfl, rfl⟩ := yields_demand.mp hx
  exact hf x ho hfit hm ⟨Option.some.inj hval, hd⟩ hy

/-- The value of an expression is changed into another one. -/
theorem Lowered.map {β : Type} {g : Value → β} {post : Data → β → Prop}
    (h : Lowered Γ W w t t' cs e (some v)) (hs : Sound Γ (eval W e) e.ty.Gives)
    (hg : ∀ d, post d (g (Machine.eval w d v))) :
    Does Γ w t.nextTemp t'.nextTemp cs (fun _ => True) (do return g (← demand (← eval W e)))
      post := by
  have hpure : ∀ x, e.ty.Has x → Does Γ w t'.nextTemp t'.nextTemp []
      (fun d => Machine.eval w d v = x ∧ True) (pure (g x)) post :=
    fun x _ => .pure fun d hd => hd.1 ▸ hg d
  have hbind := h.bind hs (fun _ _ => trivial) hpure (.refl t')
  rwa [List.append_nil] at hbind

/-- The expression was lowered between the two states with its commands aside. -/
structure Aside (Γ : Signature) (W : World) (w : Machine.World) (t t' : State) (e : Expr)
    (part : Ir.Expr × List Cmd) : Prop where
  emitted : Emitted t t' []
  lasts : Lasts w t'.nextTemp e.deps part.1
  does : Does Γ w t.nextTemp t'.nextTemp part.2 (fun _ => True) (eval W e)
    fun d o => some (Machine.eval w d part.1) = o

theorem Lowered.aside {part : Ir.Expr × List Cmd}
    (ih : ∀ {t t' : State} {r : Option Ir.Expr}, Runs (lowerExpr env e false) t r t' →
      ∃ cs, Lowered Γ W w t t' cs e r)
    (h : Runs (buffered (valueOf e (lowerExpr env e false))) t part t') :
    Aside Γ W w t t' e part := by
  obtain ⟨u, hu, hcmds, rfl⟩ := runs_buffered.mp h
  obtain ⟨cs, hl⟩ := ih (runs_valueOf.mp hu)
  have hcs : part.2 = cs := hcmds.trans hl.emitted.cmds
  subst hcs
  exact ⟨⟨(List.append_nil _).symm, hl.emitted.temps⟩, hl.last, hl.does⟩

end

/-! ## Places and operands -/

/-- Between the two states the place was read; its value is `v`. -/
structure Fetched (Γ : Signature) (W : World) (w : Machine.World) (t t' : State) (cs : List Cmd)
    (target : Target) (v : Ir.Expr) : Prop where
  emitted : Emitted t t' cs
  lasts : Lasts w t'.nextTemp target.deps v
  does : Does Γ w t.nextTemp t'.nextTemp cs (fun _ => True) (readTarget W target)
    fun d x => Machine.eval w d v = x

/-- Between the two states the value of `r` was written to the place. -/
structure Stored (Γ : Signature) (W : World) (w : Machine.World) (t t' : State) (cs : List Cmd)
    (target : Target) (r : Ir.Expr) : Prop where
  emitted : Emitted t t' cs
  does : ∀ x, Does Γ w t.nextTemp t'.nextTemp cs (fun d => Machine.eval w d r = x)
    (writeTarget W target x) fun _ _ => True

/-- Between the two states the operands were lowered from left to right; their values are `rs`. -/
structure Gathered (Γ : Signature) (W : World) (w : Machine.World) (t t' : State) (cs : List Cmd)
    (es : List Expr) (rs : List Ir.Expr) : Prop where
  emitted : Emitted t t' cs
  same : ∀ {d d'}, Agree t'.nextTemp {} d d' → Machine.evalAll w d' rs = Machine.evalAll w d rs
  does : Does Γ w t.nextTemp t'.nextTemp cs (fun _ => True) (evalAll W es)
    fun d xs => Machine.evalAll w d rs = xs

/-! ## One kind of expression at a time -/

section

variable {Γ : Signature} {W : World} {w : Machine.World} {env : Env} {t t₁ t₂ t₃ t' : State}
  {cs cs₁ cs₂ cs₃ cs₄ : List Cmd} {node : UInt32} {span : Span} {ty : Ty} {compound : Bool}
  {r : Option Ir.Expr} {v y : Ir.Expr} {rs : List Ir.Expr} {target : Target} {args : List Expr}

theorem lowered_literal {lit : Source.Lit} (hlit : env.literal = id)
    (h : Runs (lowerExpr env ⟨node, span, ty, .literal lit⟩ compound) t r t') :
    ∃ cs, Lowered Γ W w t t' cs ⟨node, span, ty, .literal lit⟩ r := by
  simp only [lowerExpr, runs_pure] at h
  obtain ⟨rfl, rfl⟩ := h
  refine ⟨[], lowered_pure ?_ ?_⟩
  · cases lit <;> exact .lit
  · rw [eval]
    refine .pure fun d _ => ?_
    cases lit with
    | int n => rw [Lowering.literal, hlit]; rfl
    | bool | null => rfl

theorem Lowered.field {object : Expr} {f : FieldRef} (hl : Lowered Γ W w t t' cs object (some v))
    (hs : Sound Γ (eval W object) object.ty.Gives) :
    Lowered Γ W w t t' (cs ++ []) ⟨node, span, ty, .field (some object) f⟩
      (some (.select f.mapName v)) := by
  refine ⟨hl.emitted.trans (.refl _), fun _ hv => ?_, ?_⟩
  · cases hv
    exact hl.last.select
  · simp only [eval, evalOption, bind_assoc, pure_bind]
    refine hl.bind hs (fun _ _ => trivial) (fun x _ => ?_) (.refl _)
    refine Does.map (does_readField.imp (fun d hd => hd.1) fun _ _ hd => hd) ?_
    exact fun d y hd => congrArg some hd

/-- An expression whose value is that of its operand, changed into another one. -/
theorem Lowered.apply {e whole : Expr} {g : Value → Value}
    (hl : Lowered Γ W w t t' cs e (some v)) (hs : Sound Γ (eval W e) e.ty.Gives)
    (heval : eval W whole = do return some (g (← demand (← eval W e))))
    (hlast : Lasts w t'.nextTemp whole.deps y)
    (hval : ∀ d, Machine.eval w d y = g (Machine.eval w d v)) :
    Lowered Γ W w t t' cs whole (some y) := by
  refine ⟨hl.emitted, fun _ hv => ?_, ?_⟩
  · cases hv
    exact hlast
  · rw [heval]
    exact hl.map hs fun d => congrArg some (hval d)

/-- An operator and its operands; the commands of the right one are aside. -/
theorem Lowered.binary {op : Source.BinOp} {lhs rhs : Expr} {left : Ir.Expr}
    {part : Ir.Expr × List Cmd} (htar : lhs.isTarget = false)
    (hop : op.isOf lhs.ty rhs.ty ty = true) (hsl : Sound Γ (eval W lhs) lhs.ty.Gives)
    (hsr : Sound Γ (eval W rhs) rhs.ty.Gives) (hl : Lowered Γ W w t t₁ cs₁ lhs (some left))
    (hr : Aside Γ W w t₁ t₂ rhs part) (h : Runs (finishBinary op lhs left part.1 part.2) t₂ v t') :
    ∃ cs, Lowered Γ W w t t' cs ⟨node, span, ty, .binary op lhs rhs⟩ (some v) := by
  obtain ⟨cs₂, he₂, hv₂, hdo₂⟩ :=
    finishBinary_does hop hsr hl.last hr.lasts hr.emitted.temps hr.does h
  have he := hr.emitted.trans he₂
  refine ⟨cs₁ ++ cs₂, hl.emitted.trans he, fun _ hv => ?_, ?_⟩
  · cases hv
    exact hv₂
  · rw [eval_binary W htar]
    refine hl.bind hsl (fun _ _ => trivial) (fun x hx => ?_) he
    exact (hdo₂ x hx).imp (fun d hd => hd.1) fun _ _ hd => hd

/-- A compound assignment reads its place, writes it and reads it again. -/
theorem Lowered.update {op : Source.BinOp} {i : UInt32} {sp : Span} {lty tt : Ty} {rhs : Expr}
    {cur : Ir.Expr} (hop : op.isOf lty rhs.ty ty = true)
    (hread : Sound Γ (readTarget W target) tt.Has)
    (hwrite : ∀ x, tt.Has x → Sound Γ (writeTarget W target x) fun _ => True)
    (hfrom : tt.suits lty = true) (hto : ty.suits lty = true ∧ lty.suits tt = true)
    (hs : Sound Γ (eval W rhs) rhs.ty.Gives) (hapart : target.deps.apart rhs.writes = true)
    (hcur : Fetched Γ W w t t₁ cs₁ target cur) (hl : Lowered Γ W w t₁ t₂ cs₂ rhs (some v))
    (hput : Stored Γ W w t₂ t₃ cs₃ target (.binary (binOp op) cur v))
    (hnew : Fetched Γ W w t₃ t' cs₄ target y) :
    Lowered Γ W w t t' (cs₁ ++ (cs₂ ++ (cs₃ ++ cs₄)))
      ⟨node, span, ty, .binary op ⟨i, sp, lty, .target target⟩ rhs⟩ (some y) := by
  have he := hput.emitted.trans hnew.emitted
  refine ⟨hcur.emitted.trans (hl.emitted.trans he), fun _ hv => ?_, ?_⟩
  · cases hv
    exact hnew.lasts.left
  · rw [eval]
    refine hcur.does.bind hread (fun c hc => ?_) hcur.emitted.temps (hl.emitted.trans he).temps
    -- the right operand writes nothing that the old value depends on
    refine hl.bind hs (fun hag hx => (hcur.lasts hapart hag).trans hx) (fun x hx => ?_) he
    have hstored := ((binary_has hop (hc.suits hfrom) hx).suits hto.1).suits hto.2
    refine Does.bind ((hput.does _).imp (fun d hd => ?_) fun _ _ hd => hd) (hwrite _ hstored)
      (fun _ _ => ?_) hput.emitted.temps hnew.emitted.temps
    · rw [Machine.eval, hd.1, hd.2]
    · exact hnew.does.map fun d z hd => congrArg some hd

theorem Lowered.conditional {cond thenExpr elseExpr : Expr} {c : Ir.Expr}
    {a b : Ir.Expr × List Cmd} (hc : truthOf cond v = .ok c)
    (hs : Sound Γ (eval W cond) cond.ty.Gives) (hl : Lowered Γ W w t t₁ cs₁ cond (some v))
    (ha : Aside Γ W w t₁ t₂ thenExpr a) (hb : Aside Γ W w t₂ t₃ elseExpr b)
    (h : Runs (finishConditional ty span c a b) t₃ y t') :
    ∃ cs, Lowered Γ W w t t' cs ⟨node, span, ty, .conditional cond thenExpr elseExpr⟩ (some y) := by
  obtain ⟨cs₂, he₂, hv₂, hdo₂⟩ := finishConditional_does (truthOf_lasts hc hl.last)
    ha.emitted.temps hb.emitted.temps ha.lasts hb.lasts ha.does hb.does h
  have he := ha.emitted.trans (hb.emitted.trans he₂)
  refine ⟨cs₁ ++ cs₂, hl.emitted.trans he, fun _ hv => ?_, ?_⟩
  · cases hv
    exact hv₂
  · rw [eval]
    refine hl.bind hs (fun _ _ => trivial) (fun x _ => ?_) he
    rintro s s' d o hfit hm ⟨hx, -⟩ hy
    obtain ⟨b, s₁, htruth, hbranch⟩ := yields_bind.mp hy
    obtain ⟨rfl, hholds⟩ := truthOf_holds hc hx htruth
    exact hdo₂ b hfit hm hholds hbranch

theorem Lowered.assign {value : Expr} {tt : Ty} (hto : value.ty.suits tt = true)
    (hwrite : ∀ x, tt.Has x → Sound Γ (writeTarget W target x) fun _ => True)
    (hs : Sound Γ (eval W value) value.ty.Gives) (hl : Lowered Γ W w t t₁ cs₁ value (some v))
    (hput : Stored Γ W w t₁ t₂ cs₂ target v) (hnew : Fetched Γ W w t₂ t' cs₃ target y) :
    Lowered Γ W w t t' (cs₁ ++ (cs₂ ++ cs₃)) ⟨node, span, ty, .assign target value⟩ (some y) := by
  have he := hput.emitted.trans hnew.emitted
  refine ⟨hl.emitted.trans he, fun _ hv => ?_, ?_⟩
  · cases hv
    exact hnew.lasts
  · rw [eval]
    refine hl.bind hs (fun _ _ => trivial) (fun x hx => ?_) he
    refine Does.bind ((hput.does x).imp (fun d hd => hd.1) fun _ _ hd => hd)
      (hwrite x (hx.suits hto)) (fun _ _ => ?_) hput.emitted.temps hnew.emitted.temps
    exact hnew.does.map fun d z hd => congrArg some hd

/-- A call without a receiver. -/
theorem Gathered.call {method : MethodRef} {isVirtual : Bool} (hw : Implements w W Γ env)
    (hres : ty.isVoid = false → ∃ rt, Γ.result method = some rt ∧ rt.isVoid = false)
    (hargs : Sound Γ (evalAll W args) fun _ => True) (hg : Gathered Γ W w t t₁ cs₁ args rs)
    (h : Runs (finishCall env method rs ty) t₁ r t') :
    ∃ cs, Lowered Γ W w t t' cs ⟨node, span, ty, .call ⟨method, none, args, isVirtual⟩⟩ r := by
  obtain ⟨cs₂, he₂, hv₂, hdo₂⟩ := finishCall_does hw h
  refine ⟨_, hg.emitted.trans he₂, fun v hv => hv₂ v hv, ?_⟩
  simp only [eval, evalOption, pure_bind]
  refine hg.does.bind hargs (fun vs _ => ?_) hg.emitted.temps he₂.temps
  exact hdo₂ ⟨method, isVirtual, none, vs⟩ rfl hres

theorem Lowered.callOn {receiver : Expr} {method : MethodRef} {isVirtual : Bool}
    (hw : Implements w W Γ env)
    (hres : ty.isVoid = false → ∃ rt, Γ.result method = some rt ∧ rt.isVoid = false)
    (hs : Sound Γ (eval W receiver) receiver.ty.Gives)
    (hapart : receiver.deps.apart (writesAll args) = true)
    (hargs : Sound Γ (evalAll W args) fun _ => True)
    (hl : Lowered Γ W w t t₁ cs₁ receiver (some v)) (hg : Gathered Γ W w t₁ t₂ cs₂ args rs)
    (h : Runs (finishCall env method (v :: rs) ty) t₂ r t') :
    ∃ cs, Lowered Γ W w t t' cs
      ⟨node, span, ty, .call ⟨method, some receiver, args, isVirtual⟩⟩ r := by
  obtain ⟨cs₃, he₃, hv₃, hdo₃⟩ := finishCall_does hw h
  have he := hg.emitted.trans he₃
  refine ⟨_, hl.emitted.trans he, fun v hv => hv₃ v hv, ?_⟩
  simp only [eval, evalOption, bind_assoc, pure_bind]
  refine hl.bind hs (fun _ _ => trivial) (fun x _ => ?_) he
  -- the arguments write nothing that the value of the receiver depends on
  have hkept := hg.does.keep (evalAll_within args) hl.last hapart x
  refine (hkept.imp (fun d hd => hd.1) fun _ _ hd => hd).bind hargs (fun vs _ => ?_)
    hg.emitted.temps he₃.temps
  refine (hdo₃ ⟨method, isVirtual, some x, vs⟩ rfl hres).imp (fun d hd => ?_) fun _ _ hd => hd
  exact congrArg₂ List.cons hd.2 hd.1

theorem Gathered.create {type : TypeRef} {ctor : Option MethodRef} (hw : Implements w W Γ env)
    (hargs : Sound Γ (evalAll W args) fun _ => True) (hg : Gathered Γ W w t t₁ cs₁ args rs)
    (h : Runs (finishNew env type ctor rs) t₁ v t') :
    ∃ cs, Lowered Γ W w t t' cs ⟨node, span, ty, .new type ctor args⟩ (some v) := by
  cases ctor with
  | none =>
    simp only [finishNew, runs_bind, runs_pure] at h
    obtain ⟨object, t₂, h₂, rfl, rfl⟩ := h
    obtain ⟨cs₂, he₂, hv₂, hdo₂⟩ := alloc_does Γ w (fun _ => True) h₂
    refine ⟨_, hg.emitted.trans he₂, fun _ hv => ?_, ?_⟩
    · cases hv
      exact hv₂
    · rw [eval]
      refine hg.does.bind hargs (fun vs _ => ?_) hg.emitted.temps he₂.temps
      exact (hdo₂.imp (fun _ _ => trivial) fun _ _ hd => hd).map fun d x hd => congrArg some hd
  | some method =>
    obtain ⟨cs₂, he₂, hv₂, hdo₂⟩ := finishNew_does hw hg.same h
    refine ⟨_, hg.emitted.trans he₂, fun _ hv => ?_, ?_⟩
    · cases hv
      exact hv₂
    · rw [eval]
      exact hg.does.bind hargs (fun vs _ => hdo₂ vs) hg.emitted.temps he₂.temps

/-- What comes before a list of operands. -/
theorem Lowered.cons {e : Expr} {es : List Expr} (hs : Sound Γ (eval W e) e.ty.Gives)
    (hapart : e.deps.apart (writesAll es) = true) (hl : Lowered Γ W w t t₁ cs₁ e (some v))
    (hg : Gathered Γ W w t₁ t' cs₂ es rs) :
    Gathered Γ W w t t' (cs₁ ++ cs₂) (e :: es) (v :: rs) := by
  refine ⟨hl.emitted.trans hg.emitted, fun {d d'} hag => ?_, ?_⟩
  · rw [Machine.evalAll, Machine.evalAll, hg.same hag,
      hl.last e.deps.apart_empty (hag.mono hg.emitted.temps)]
  · rw [evalAll]
    refine hl.bind hs (fun _ _ => trivial) (fun x _ => ?_) hg.emitted
    have hkept := hg.does.keep (evalAll_within es) hl.last hapart x
    refine Does.map (hkept.imp (fun d hd => hd.1) fun _ _ hd => hd) ?_
    exact fun d xs hd => congrArg₂ List.cons hd.2 hd.1

end

/-! ## All expressions -/

section

variable {Γ : Signature} {W : World} {w : Machine.World} {env : Env}

mutual

/-- The commands and the value of a well-typed expression whose operands keep their values. -/
theorem lowerExpr_lowered (hW : W.Respects Γ) (hw : Implements w W Γ env) (hlit : env.literal = id)
    (e : Expr) (compound : Bool) {t t' : State} {r : Option Ir.Expr} (ht : e.wellTyped Γ = true)
    (hst : e.steady compound = true) (h : Runs (lowerExpr env e compound) t r t') :
    ∃ cs, Lowered Γ W w t t' cs e r := by
  obtain ⟨id, span, ty, kind⟩ := e
  cases kind with
  | literal lit => exact lowered_literal hlit h
  | var name | self =>
    obtain ⟨vt, hx, -⟩ := (Option.any_eq_true _ _).mp ht
    simp only [lowerExpr, runs_pure] at h
    obtain ⟨rfl, rfl⟩ := h
    refine ⟨[], lowered_pure (.var (Γ.var_proper hx) (hw.isGlobal_var hx)) ?_⟩
    rw [eval]
    exact (does_readLocal hw hx).map fun d x hd => congrArg some hd
  | typeOf type =>
    simp only [lowerExpr, runs_pure] at h
    obtain ⟨rfl, rfl⟩ := h
    refine ⟨[], lowered_pure .typeConst ?_⟩
    rw [eval]
    exact .pure fun d _ => rfl
  | field object f =>
    simp only [Expr.wellTyped, Bool.and_eq_true] at ht
    obtain ⟨ft, hf, -⟩ := (Option.any_eq_true _ _).mp ht.2
    cases object with
    | none =>
      simp only [lowerExpr, runs_pure] at h
      obtain ⟨rfl, rfl⟩ := h
      refine ⟨[], lowered_pure (.static (Γ.static_proper hf) (hw.isGlobal_static hf)) ?_⟩
      simp only [eval, evalOption, pure_bind]
      exact (does_readStatic hw hf).map fun d x hd => congrArg some hd
    | some object =>
      simp only [optionTyped, Bool.and_eq_true, Bool.not_eq_true'] at ht
      simp only [lowerExpr, runs_bind, runs_pure, runs_valueOf] at h
      obtain ⟨v, t₁, h₁, rfl, rfl⟩ := h
      obtain ⟨cs, hl⟩ := lowerExpr_lowered hW hw hlit object false ht.1.1 hst h₁
      exact ⟨_, hl.field (eval_sound hW object ht.1.1)⟩
  | unary op operand =>
    simp only [Expr.wellTyped, Bool.and_eq_true] at ht
    simp only [lowerExpr, runs_bind, runs_pure, runs_valueOf] at h
    obtain ⟨v, t₁, h₁, rfl, rfl⟩ := h
    obtain ⟨cs, hl⟩ := lowerExpr_lowered hW hw hlit operand false ht.1 hst h₁
    exact ⟨cs, hl.apply (eval_sound hW operand ht.1) (by rw [eval]) hl.last.unary fun d => rfl⟩
  | getType object =>
    simp only [Expr.wellTyped, Bool.and_eq_true] at ht
    simp only [lowerExpr, runs_bind, runs_pure, runs_valueOf] at h
    obtain ⟨v, t₁, h₁, rfl, rfl⟩ := h
    obtain ⟨cs, hl⟩ := lowerExpr_lowered hW hw hlit object false ht.1 hst h₁
    exact ⟨cs, hl.apply (eval_sound hW object ht.1) (by rw [eval]) hl.last.dynamicType fun d => rfl⟩
  | conversion value newTy =>
    simp only [Expr.wellTyped, Bool.and_eq_true] at ht
    simp only [lowerExpr, runs_bind, runs_pure, runs_valueOf] at h
    obtain ⟨v, t₁, h₁, rfl, rfl⟩ := h
    obtain ⟨cs, hl⟩ := lowerExpr_lowered hW hw hlit value false ht.1 hst h₁
    exact ⟨cs, hl.apply (eval_sound hW value ht.1) (by rw [eval]) (convert_lasts hl.last)
      fun d => eval_convert rfl⟩
  | binary op lhs rhs =>
    simp only [Expr.wellTyped, Bool.and_eq_true] at ht
    obtain ⟨hlhs, hrhs, hop, hplace⟩ := ht
    by_cases htar : lhs.isTarget
    · obtain ⟨i, sp, lty, lhsKind⟩ := lhs
      cases lhsKind with
      | target target =>
        simp only [Expr.wellTyped, Bool.and_eq_true] at hlhs
        obtain ⟨tt, htt, hty⟩ := (Option.any_eq_true _ _).mp hlhs.2
        rw [Bool.and_eq_true] at hty
        simp only [Expr.steady, Bool.and_eq_true] at hst
        obtain ⟨rfl, hfixed, hstr, hapart⟩ := hst
        have hstill := (Bool.and_eq_true_iff.mp hfixed).1
        have hstt := Target.steady_of_isStill target hstill
        simp only [lowerExpr, if_true, runs_bind, runs_pure, runs_valueOf] at h
        obtain ⟨cur, t₁, h₁, v, t₂, h₂, _, t₃, h₃, y, t₄, h₄, rfl, rfl⟩ := h
        obtain ⟨cs₁, hcur⟩ := readTarget_lowered hW hw hlit target hlhs.1 htt hstt h₁
        obtain ⟨cs₂, hl⟩ := lowerExpr_lowered hW hw hlit rhs false hrhs hstr h₂
        have hres : Lasts w t₂.nextTemp (target.deps ∪ rhs.deps) (.binary (binOp op) cur v) :=
          (hcur.lasts.mono hl.emitted.temps).left.binary hl.last.right
        obtain ⟨cs₃, hput⟩ := writeTarget_lowered hW hw hlit target hlhs.1 htt hstt hres
          (Target.objectWrites_of_isStill target hstill ▸ Area.apart_empty _) h₃
        obtain ⟨cs₄, hnew⟩ := readTarget_lowered hW hw hlit target hlhs.1 htt hstt h₄
        exact ⟨_, Lowered.update hop (readTarget_sound hW target hlhs.1 htt)
          (fun _ => writeTarget_sound hW target hlhs.1 htt) hty.1
          ⟨by simpa [Expr.isTarget] using hplace, hty.2⟩ (eval_sound hW rhs hrhs) hapart hcur hl
          hput hnew⟩
      | _ => cases htar
    · rw [Bool.not_eq_true] at htar
      rw [Expr.steady_binary htar, Bool.and_eq_true] at hst
      simp only [lowerExpr_binary env htar, runs_bind, runs_pure, runs_valueOf] at h
      obtain ⟨left, t₁, h₁, part, t₂, h₂, v, t₃, h₃, rfl, rfl⟩ := h
      obtain ⟨cs₁, hl⟩ := lowerExpr_lowered hW hw hlit lhs false hlhs hst.1 h₁
      have hr := Lowered.aside (lowerExpr_lowered hW hw hlit rhs false hrhs hst.2) h₂
      exact hl.binary htar hop (eval_sound hW lhs hlhs) (eval_sound hW rhs hrhs) hr h₃
  | conditional cond thenExpr elseExpr =>
    simp only [Expr.wellTyped, Bool.and_eq_true] at ht
    obtain ⟨hcond, hthen, helse, -⟩ := ht
    simp only [Expr.steady, Bool.and_eq_true] at hst
    simp only [lowerExpr, runs_bind, runs_pure, runs_conditionOf] at h
    obtain ⟨c, t₁, ⟨cv, h₁, hc⟩, a, t₂, h₂, b, t₃, h₃, v, t₄, h₄, rfl, rfl⟩ := h
    obtain ⟨cs₁, hl⟩ := lowerExpr_lowered hW hw hlit cond false hcond hst.1 h₁
    have ha := Lowered.aside (lowerExpr_lowered hW hw hlit thenExpr false hthen hst.2.1) h₂
    have hb := Lowered.aside (lowerExpr_lowered hW hw hlit elseExpr false helse hst.2.2) h₃
    exact hl.conditional hc (eval_sound hW cond hcond) ha hb h₄
  | assign target value =>
    simp only [Expr.wellTyped, Bool.and_eq_true] at ht
    obtain ⟨htarget, hvalue, hty⟩ := ht
    obtain ⟨tt, htt, hty⟩ := (Option.any_eq_true _ _).mp hty
    rw [Bool.and_eq_true] at hty
    simp only [Expr.steady, Bool.and_eq_true] at hst
    simp only [lowerExpr, runs_bind, runs_pure, runs_valueOf] at h
    obtain ⟨v, t₁, h₁, _, t₂, h₂, x, t₃, h₃, rfl, rfl⟩ := h
    have hstill := (Bool.and_eq_true_iff.mp hst.1).1
    have hstt := Target.steady_of_isStill target hstill
    obtain ⟨cs₁, hl⟩ := lowerExpr_lowered hW hw hlit value false hvalue hst.2.1 h₁
    obtain ⟨cs₂, hput⟩ := writeTarget_lowered hW hw hlit target htarget htt hstt hl.last
      (Target.objectWrites_of_isStill target hstill ▸ Area.apart_empty _) h₂
    obtain ⟨cs₃, hnew⟩ := readTarget_lowered hW hw hlit target htarget htt hstt h₃
    exact ⟨_, hl.assign hty.1 (fun _ => writeTarget_sound hW target htarget htt)
      (eval_sound hW value hvalue) hput hnew⟩
  | target target =>
    simp only [Expr.wellTyped, Bool.and_eq_true] at ht
    obtain ⟨tt, htt, -⟩ := (Option.any_eq_true _ _).mp ht.2
    simp only [lowerExpr, runs_bind, runs_pure] at h
    obtain ⟨v, t₁, h₁, rfl, rfl⟩ := h
    obtain ⟨cs, hcur⟩ := readTarget_lowered hW hw hlit target ht.1 htt hst h₁
    refine ⟨cs, hcur.emitted, fun _ hv => ?_, ?_⟩
    · cases hv
      exact hcur.lasts
    · rw [eval]
      exact hcur.does.map fun d z hd => congrArg some hd
  | call call =>
    obtain ⟨method, receiver, args, isVirtual⟩ := call
    simp only [Expr.wellTyped, Bool.and_eq_true] at ht
    obtain ⟨hreceiver, hargs, hty⟩ := ht
    obtain ⟨rt, hrt, hty⟩ := (Option.any_eq_true _ _).mp hty
    simp only [Expr.steady, Bool.and_eq_true] at hst
    simp only [lowerExpr, runs_bind] at h
    obtain ⟨o, t₁, h₁, rs, t₂, h₂, h₃⟩ := h
    have hres : ty.isVoid = false → ∃ rt, Γ.result method = some rt ∧ rt.isVoid = false :=
      fun hv => ⟨rt, hrt, (Ty.suits_iff.mp (Ty.suits_of_valueKind? hv (beq_iff_eq.mp hty))).1⟩
    have hsound := evalAll_sound hW args hargs
    cases receiver with
    | none =>
      simp only [lowerOption, runs_pure] at h₁
      obtain ⟨rfl, rfl⟩ := h₁
      obtain ⟨cs₂, hg⟩ := lowerArgs_lowered hW hw hlit args hargs hst.2.1 hst.2.2 h₂
      exact hg.call hw hres hsound h₃
    | some receiver =>
      simp only [optionTyped, Bool.and_eq_true] at hreceiver
      simp only [lowerOption, runs_bind, runs_pure, runs_valueOf] at h₁
      obtain ⟨v, t₁, h₁, rfl, rfl⟩ := h₁
      simp only [Option.toList_some, List.singleton_append, undisturbed, Bool.and_eq_true] at hst
      obtain ⟨hstr, hsta, hapart, hund⟩ := hst
      obtain ⟨cs₁, hl⟩ := lowerExpr_lowered hW hw hlit receiver false hreceiver.1 hstr h₁
      obtain ⟨cs₂, hg⟩ := lowerArgs_lowered hW hw hlit args hargs hsta hund h₂
      exact hl.callOn hw hres (eval_sound hW receiver hreceiver.1) hapart hsound hg h₃
  | new type ctor args =>
    simp only [Expr.wellTyped, Bool.and_eq_true] at ht
    simp only [Expr.steady, Bool.and_eq_true] at hst
    simp only [lowerExpr, runs_bind, runs_pure] at h
    obtain ⟨rs, t₁, h₁, v, t₂, h₂, rfl, rfl⟩ := h
    obtain ⟨cs₁, hg⟩ := lowerArgs_lowered hW hw hlit args ht.1 hst.1 hst.2 h₁
    exact hg.create hw (evalAll_sound hW args ht.1) h₂
  | defaultValue valueTy =>
    simp only [lowerExpr, runs_bind, runs_pure] at h
    obtain ⟨v, t₁, h₁, rfl, rfl⟩ := h
    obtain ⟨cs, he, hv, hdo⟩ := defaultValue_does hw (fun _ => True) h₁
    refine ⟨cs, he, fun _ hv' => ?_, ?_⟩
    · cases hv'
      exact hv
    · rw [eval]
      exact hdo.map fun d z hd => congrArg some hd
  | pop => cases ht

/-- A place that is read. -/
theorem readTarget_lowered (hW : W.Respects Γ) (hw : Implements w W Γ env) (hlit : env.literal = id)
    (target : Target) {t t' : State} {v : Ir.Expr} {tt : Ty} (ht : target.wellTyped Γ = true)
    (htt : Γ.ofTarget target = some tt) (hst : target.steady = true)
    (h : Runs (Lowering.readTarget env target) t v t') :
    ∃ cs, Fetched Γ W w t t' cs target v := by
  cases target with
  | var name =>
    simp only [Lowering.readTarget, runs_pure] at h
    obtain ⟨rfl, rfl⟩ := h
    refine ⟨[], .refl _, .var (Γ.var_proper htt) (hw.isGlobal_var htt), ?_⟩
    rw [readTarget]
    exact does_readLocal hw htt
  | field object f =>
    cases object with
    | none =>
      simp only [Lowering.readTarget, runs_pure] at h
      obtain ⟨rfl, rfl⟩ := h
      refine ⟨[], .refl _, .static (Γ.static_proper htt) (hw.isGlobal_static htt), ?_⟩
      simp only [readTarget, evalOption, pure_bind]
      exact does_readStatic hw htt
    | some object =>
      simp only [Target.wellTyped, optionTyped, Bool.and_eq_true] at ht
      simp only [Lowering.readTarget, runs_bind, runs_pure, runs_valueOf] at h
      obtain ⟨o, t₁, h₁, rfl, rfl⟩ := h
      obtain ⟨cs, hl⟩ := lowerExpr_lowered hW hw hlit object false ht.1 hst h₁
      refine ⟨_, hl.emitted.trans (.refl _), hl.last.select, ?_⟩
      simp only [readTarget, evalOption, bind_assoc, pure_bind]
      refine hl.bind (eval_sound hW object ht.1) (fun _ _ => trivial) (fun x _ => ?_) (.refl _)
      exact does_readField.imp (fun d hd => hd.1) fun _ _ hd => hd

/-- A place that is written. The value to be stored is still the same when the object has been
evaluated. -/
theorem writeTarget_lowered (hW : W.Respects Γ) (hw : Implements w W Γ env)
    (hlit : env.literal = id) (target : Target) {t t' : State} {r : Ir.Expr} {u : Unit} {tt : Ty}
    {A : Area} (ht : target.wellTyped Γ = true) (htt : Γ.ofTarget target = some tt)
    (hst : target.steady = true) (hr : Lasts w t.nextTemp A r)
    (hap : A.apart target.objectWrites = true)
    (h : Runs (Lowering.writeTarget env target r) t u t') :
    ∃ cs, Stored Γ W w t t' cs target r := by
  cases target with
  | var name =>
    rw [Lowering.writeTarget] at h
    refine ⟨_, .emit h, fun x => ?_⟩
    rw [writeTarget]
    exact does_writeLocal hw htt
  | field object f =>
    cases object with
    | none =>
      rw [Lowering.writeTarget] at h
      refine ⟨_, .emit h, fun x => ?_⟩
      simp only [writeTarget, evalOption, pure_bind]
      exact does_writeStatic hw htt
    | some object =>
      simp only [Target.wellTyped, optionTyped, Bool.and_eq_true] at ht
      simp only [Lowering.writeTarget, runs_bind, runs_valueOf] at h
      obtain ⟨o, t₁, h₁, h₂⟩ := h
      obtain ⟨cs, hl⟩ := lowerExpr_lowered hW hw hlit object false ht.1 hst h₁
      refine ⟨_, hl.emitted.trans (.emit h₂), fun x => ?_⟩
      simp only [writeTarget, evalOption, bind_assoc, pure_bind]
      exact hl.bind (eval_sound hW object ht.1) (fun hag hx => (hr hap hag).trans hx)
        (fun y _ => does_writeField) (.emit h₂)

/-- Operands that are evaluated from left to right. -/
theorem lowerArgs_lowered (hW : W.Respects Γ) (hw : Implements w W Γ env) (hlit : env.literal = id)
    (es : List Expr) {t t' : State} {rs : List Ir.Expr} (ht : allTyped Γ es = true)
    (hst : steadyAll es = true) (hund : undisturbed es = true)
    (h : Runs (lowerArgs env es) t rs t') : ∃ cs, Gathered Γ W w t t' cs es rs := by
  cases es with
  | nil =>
    simp only [lowerArgs, runs_pure] at h
    obtain ⟨rfl, rfl⟩ := h
    refine ⟨[], .refl _, fun _ => rfl, ?_⟩
    rw [evalAll]
    exact .pure fun d _ => rfl
  | cons e es =>
    simp only [allTyped, Bool.and_eq_true] at ht
    rw [steadyAll, Bool.and_eq_true] at hst
    rw [undisturbed, Bool.and_eq_true] at hund
    simp only [lowerArgs, runs_bind, runs_pure, runs_valueOf] at h
    obtain ⟨v, t₁, h₁, vs, t₂, h₂, rfl, rfl⟩ := h
    obtain ⟨cs₁, hl⟩ := lowerExpr_lowered hW hw hlit e false ht.1.1 hst.1 h₁
    obtain ⟨cs₂, hg⟩ := lowerArgs_lowered hW hw hlit es ht.2 hst.2 hund.2 h₂
    exact ⟨_, hl.cons (eval_sound hW e ht.1.1) hund.1 hg⟩

end

end

end Unwind.Evaluation
