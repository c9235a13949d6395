import Unwind.Proofs.Evaluation.Soundness
import Unwind.Proofs.Modes.Operands
import Unwind.Proofs.Simulation

/-!
# Code that does what an evaluation does

`Does cs pre x post` is a triple: where `pre` holds of the machine's data, running the commands `cs`
mirrors the evaluation `x`, and `post` relates what is then in the machine to the result of `x`.
Triples are composed along `bind`, and a frame rule carries a value that was computed before over
the commands that follow.

A value of the lowering is an expression that is looked at later than the commands that computed
it. `Lasts` says on which variables and fields it still depends; it is the same value as long as
these are not written.
-/

namespace Unwind.Machine

open Ir (Cmd)

/-! ## Running commands -/

/-- Running the commands leads from `d` to `d'`, in every program and whatever follows. -/
def Executes (w : World) (cs : List Cmd) (d d' : Data) : Prop :=
  ∀ prog rest, Reaches w prog ⟨flatten cs ++ rest, d⟩ ⟨rest, d'⟩

section

variable {w : World} {cs cs' : List Cmd} {d d₁ d' : Data}

theorem Executes.nil : Executes w [] d d := fun _ _ => .refl

theorem Executes.append (h : Executes w cs d d₁) (h' : Executes w cs' d₁ d') :
    Executes w (cs ++ cs') d d' := by
  intro prog rest
  rw [flatten_append, List.append_assoc]
  exact (h prog _).trans (h' prog rest)

/-- The data that the commands leave are determined. -/
theorem Executes.unique {d'' : Data} (h : Executes w cs d d') (h' : Executes w cs d d'') :
    d'' = d' := by
  -- in the program of no instructions there is no step behind the commands
  have hend : ∀ {a b : Data}, Reaches w [] ⟨[], a⟩ ⟨[], b⟩ → b = a := by
    intro a b hab
    rcases hab.cases_head with he | ⟨c, hs, -⟩
    · cases he
      rfl
    · cases hs
  have hfun : Relator.RightUnique fun c c' => step w [] c = some c' :=
    fun _ _ _ h₁ h₂ => Option.some.inj (h₁.symm.trans h₂)
  rcases Relation.ReflTransGen.total_of_right_unique hfun (h [] []) (h' [] []) with hr | hr
  · exact hend hr
  · exact (hend hr).symm

/-- Without commands nothing happens. -/
theorem executes_nil_iff : Executes w [] d d' ↔ d' = d :=
  ⟨fun h => Executes.nil.unique h, fun h => h ▸ .nil⟩

theorem executes_set {x : String} {r : Ir.Expr} :
    Executes w [.set x r] d (d.set w x (eval w d r)) := fun _ _ => .single rfl

theorem executes_store {map : String} {i r : Ir.Expr} :
    Executes w [.assign (.map map i) r] d (assign w d (.map map i) (eval w d r)) :=
  fun _ _ => .single rfl

theorem executes_invoke {proc : String} {args : List Ir.Expr} {outs : List String} :
    Executes w [.invoke proc args outs] d (invoke w d proc (evalAll w d args) outs) :=
  fun _ _ => .single rfl

theorem executes_then {c : Ir.Expr} (hc : (eval w d c).holds = true) (h : Executes w cs d d') :
    Executes w [.ifElse c cs cs'] d d' := by
  intro prog rest
  rw [flatten_singleton, flattenCmd, List.cons_append, List.append_assoc]
  refine (reaches_branch_then hc).trans ((h prog _).trans ?_)
  exact reaches_jump

theorem executes_else {c : Ir.Expr} (hc : (eval w d c).holds = false) (h : Executes w cs' d d') :
    Executes w [.ifElse c cs cs'] d d' := by
  intro prog rest
  rw [flatten_singleton, flattenCmd, List.cons_append, List.append_assoc]
  exact (reaches_branch_else hc).trans (h prog rest)

end

/-! ## Data that agree -/

/-- The data agree but for intermediate values from number `n` on and the places of the area. -/
structure Agree (n : Nat) (area : Source.Area) (d d' : Data) : Prop where
  temps : ∀ k < n, d'.locals (Lowering.Slot.temp k).name = d.locals (Lowering.Slot.temp k).name
  vars : ∀ x, isGenerated x = false → x ∉ area.vars → d'.locals x = d.locals x
  globals : ∀ m, area.hasField m = false → d'.memory.globals m = d.memory.globals m
  fields : ∀ m, area.hasField m = false → d'.memory.fields m = d.memory.fields m

theorem Agree.mono {m n : Nat} {area : Source.Area} {d d' : Data} (h : Agree n area d d')
    (hmn : m ≤ n) : Agree m area d d' :=
  { h with temps := fun k hk => h.temps k (Nat.lt_of_lt_of_le hk hmn) }

/-- The expression depends on intermediate values below `n` and on places of the area only. -/
def Lasts (w : World) (n : Nat) (area : Source.Area) (r : Ir.Expr) : Prop :=
  ∀ ⦃other : Source.Area⦄ ⦃d d' : Data⦄, area.apart other = true → Agree n other d d' →
    eval w d' r = eval w d r

namespace Lasts

open Lowering (Slot)

variable {w : World} {m n : Nat} {area area' : Source.Area} {r a b c : Ir.Expr}

theorem mono (h : Lasts w m area r) (hmn : m ≤ n) : Lasts w n area r :=
  fun _ _ _ hap hag => h hap (hag.mono hmn)

theorem left (h : Lasts w n area r) : Lasts w n (area ∪ area') r :=
  fun _ _ _ hap hag => h (Source.Area.union_apart.mp hap).1 hag

theorem right (h : Lasts w n area' r) : Lasts w n (area ∪ area') r :=
  fun _ _ _ hap hag => h (Source.Area.union_apart.mp hap).2 hag

theorem lit {l : Ir.Lit} : Lasts w n area (.lit l) := fun _ _ _ _ _ => rfl

theorem typeConst {name : String} : Lasts w n area (.typeConst name) :=
  fun _ _ _ _ _ => rfl

theorem temp {k : Nat} (h : k < n) : Lasts w n area (.ident (Slot.temp k).name) := by
  intro other d d' _ hag
  show d'.get w _ = d.get w _
  rw [Data.get_own rfl, Data.get_own rfl]
  exact hag.temps k h

/-- A variable of the source is read where it is written. -/
theorem get_var {x : String} {d : Data} (hx : isGenerated x = false)
    (hg : w.isGlobal x = false) : d.get w x = d.locals x := by
  have hne : x ≠ Ir.exceptionVar := by
    rintro rfl
    cases hx
  rw [Data.get, if_neg hne, hg, if_neg Bool.false_ne_true]

theorem get_static {x : String} {d : Data} (hx : isGenerated x = false)
    (hg : w.isGlobal x = true) : d.get w x = d.memory.globals x := by
  have hne : x ≠ Ir.exceptionVar := by
    rintro rfl
    cases hx
  rw [Data.get, if_neg hne, hg, if_pos rfl]

theorem var {x : String} (hx : isGenerated x = false) (hg : w.isGlobal x = false) :
    Lasts w n { vars := [x] } (.ident x) := by
  intro other d d' hap hag
  show d'.get w x = d.get w x
  rw [get_var hx hg, get_var hx hg]
  exact hag.vars x hx ((Source.Area.apart_iff.mp hap).1 x List.mem_cons_self)

theorem static {x : String} (hx : isGenerated x = false) (hg : w.isGlobal x = true) :
    Lasts w n { fields := [x] } (.ident x) := by
  intro other d d' hap hag
  show d'.get w x = d.get w x
  rw [get_static hx hg, get_static hx hg]
  exact hag.globals x ((Source.Area.apart_iff.mp hap).2 x List.mem_cons_self)

theorem select {map : String} (h : Lasts w n area r) :
    Lasts w n (area ∪ { fields := [map] }) (.select map r) := by
  intro other d d' hap hag
  obtain ⟨hr, hmap⟩ := Source.Area.union_apart.mp hap
  have hf := (Source.Area.apart_iff.mp hmap).2 map List.mem_cons_self
  rw [eval, eval, h hr hag, hag.fields map hf]

theorem unary {op : Ir.UnOp} (h : Lasts w n area r) : Lasts w n area (.unary op r) := by
  intro other d d' hap hag
  rw [eval, eval, h hap hag]

theorem binary {op : Ir.BinOp} (ha : Lasts w n area a) (hb : Lasts w n area b) :
    Lasts w n area (.binary op a b) := by
  intro other d d' hap hag
  rw [eval, eval, ha hap hag, hb hap hag]

theorem ifThenElse (hc : Lasts w n area c) (ha : Lasts w n area a) (hb : Lasts w n area b) :
    Lasts w n area (.ifThenElse c a b) := by
  intro other d d' hap hag
  rw [eval, eval, hc hap hag, ha hap hag, hb hap hag]

theorem dynamicType (h : Lasts w n area r) : Lasts w n area (.dynamicType r) := by
  intro other d d' hap hag
  simp only [Ir.Expr.dynamicType, eval, evalAll, h hap hag]

end Lasts

end Unwind.Machine

namespace Unwind.Evaluation

open Source
open Ir (Cmd)
open Lowering (Env Slot)
open Machine (Agree Data Executes Lasts Value isGenerated)

/-! ## Stores in the machine -/

/-- The call as the machine records it. -/
def Invocation.toCall (i : Invocation) : Machine.Call :=
  ⟨i.method.procedureName, i.receiver.toList ++ i.args⟩

/-- The machine holds what the store holds, and has made the same calls. -/
structure Mirrors (s : Store) (d : Data) : Prop where
  locals : ∀ x, isGenerated x = false → d.locals x = s.locals x
  memory : d.memory = s.memory
  calls : d.calls = s.calls.map Invocation.toCall

/-- The callees of the machine do what those of the source do, and the variables that do not
belong to the procedure are the static fields. -/
structure Implements (w : Machine.World) (W : World) (Γ : Signature) (env : Env) : Prop where
  isStruct : ∀ t, W.isStruct t = env.types.isStruct t
  memory : ∀ is i m, (w.call (is.map Invocation.toCall) i.toCall m).1 = (W.call is i m).1
  result : ∀ is i m {t}, Γ.result i.method = some t → t.isVoid = false →
    (w.call (is.map Invocation.toCall) i.toCall m).2.head? = some (W.call is i m).2
  isGlobal_var : ∀ {x t}, Γ.var x = some t → w.isGlobal x = false
  isGlobal_static : ∀ {x t}, Γ.static x = some t → w.isGlobal x = true

/-- Of the intermediate values only those from `n` on and below `n'` differ. -/
def Untouched (n n' : Nat) (d d' : Data) : Prop :=
  ∀ k, k < n ∨ n' ≤ k → d'.locals (Slot.temp k).name = d.locals (Slot.temp k).name

section

variable {n n₁ n' : Nat} {area : Area} {s s' : Store} {d d₁ d' : Data}

theorem Untouched.refl : Untouched n n' d d := fun _ _ => rfl

theorem Untouched.trans (h : Untouched n n₁ d d₁) (h' : Untouched n₁ n' d₁ d') (hn : n ≤ n₁)
    (hn' : n₁ ≤ n') : Untouched n n' d d' := by
  intro k hk
  rw [h' k (by omega), h k (by omega)]

theorem Untouched.of_locals (h : ∀ k, d'.locals (Slot.temp k).name = d.locals (Slot.temp k).name) :
    Untouched n n' d d' := fun k _ => h k

/-- Mirrored stores that differ in an area only make for data that agree outside of it. -/
theorem Mirrors.agree (hs : Mirrors s d) (hs' : Mirrors s' d') (hw : Within area s s')
    (hu : Untouched n n' d d') : Agree n area d d' where
  temps k hk := hu k (.inl hk)
  vars x hx hxa := by rw [hs'.locals x hx, hs.locals x hx, hw.locals x hxa]
  globals m hm := by rw [hs'.memory, hs.memory, hw.globals m hm]
  fields m hm := by rw [hs'.memory, hs.memory, hw.fields m hm]

end

/-! ## Triples -/

section

variable {Γ : Signature} {w : Machine.World} {α β : Type} {n n₁ n' : Nat} {cs cs' : List Cmd}
  {pre pre' : Data → Prop} {x : Evaluating α} {f : α → Evaluating β} {mid post : Data → α → Prop}

/-- Where `pre` holds, the commands do what `x` does, with intermediate values from `n` on and
below `n'`; `post` holds of the data they leave and the result of `x`. -/
def Does (Γ : Signature) (w : Machine.World) (n n' : Nat) (cs : List Cmd) (pre : Data → Prop)
    (x : Evaluating α) (post : Data → α → Prop) : Prop :=
  ∀ ⦃s s' d a⦄, Conforms Γ s → Mirrors s d → pre d → Yields x s a s' →
    ∃ d', Executes w cs d d' ∧ Mirrors s' d' ∧ Untouched n n' d d' ∧ post d' a

/-- Nothing is done and nothing changes. -/
theorem Does.of_same (h : ∀ ⦃s s' d a⦄, Mirrors s d → pre d → Yields x s a s' → s' = s ∧ post d a) :
    Does Γ w n n' [] pre x post := by
  intro s s' d a _ hm hpre hx
  obtain ⟨rfl, hpost⟩ := h hm hpre hx
  exact ⟨d, .nil, hm, .refl, hpost⟩

theorem Does.pure {a : α} (h : ∀ d, pre d → post d a) :
    Does Γ w n n' [] pre (Pure.pure a) post := by
  refine Does.of_same fun s s' d b _ hpre hx => ?_
  obtain ⟨rfl, rfl⟩ := yields_pure.mp hx
  exact ⟨rfl, h _ hpre⟩

theorem Does.imp {post' : Data → α → Prop} (h : Does Γ w n n' cs pre x post)
    (hpre : ∀ d, pre' d → pre d) (hpost : ∀ d a, post d a → post' d a) :
    Does Γ w n n' cs pre' x post' := by
  intro s s' d a hs hm hd hx
  obtain ⟨d', he, hm', hu, hd'⟩ := h hs hm (hpre d hd) hx
  exact ⟨d', he, hm', hu, hpost d' a hd'⟩

/-- More intermediate values may be touched. -/
theorem Does.widen {m m' : Nat} (h : Does Γ w m m' cs pre x post) (hn : n ≤ m) (hn' : m' ≤ n') :
    Does Γ w n n' cs pre x post := by
  intro s s' d a hs hm hd hx
  obtain ⟨d', he, hm', hu, hd'⟩ := h hs hm hd hx
  exact ⟨d', he, hm', fun k hk => hu k (by omega), hd'⟩

/-- Without commands, the result is there already. -/
theorem Does.silent {P : α → Prop} {s : Store} {d : Data} (h : Does Γ w n n' [] pre x post)
    (hx : Sound Γ x P) (hs : Conforms Γ s) (hm : Mirrors s d) (hd : pre d) :
    ∃ a, P a ∧ post d a := by
  obtain ⟨a, s', hy, -, ha⟩ := hx s hs
  obtain ⟨d', he, -, -, hpost⟩ := h hs hm hd hy
  rw [Machine.executes_nil_iff.mp he] at hpost
  exact ⟨a, ha, hpost⟩

theorem Does.bind {P : α → Prop} {post : Data → β → Prop} (hx : Does Γ w n n₁ cs pre x mid)
    (hs : Sound Γ x P) (hf : ∀ a, P a → Does Γ w n₁ n' cs' (mid · a) (f a) post) (hn : n ≤ n₁)
    (hn' : n₁ ≤ n') : Does Γ w n n' (cs ++ cs') pre (x >>= f) post := by
  intro s s' d b hfit hm hpre hy
  obtain ⟨a, s₁, h₁, h₂⟩ := yields_bind.mp hy
  obtain ⟨d₁, he₁, hm₁, hu₁, hmid⟩ := hx hfit hm hpre h₁
  obtain ⟨hfit₁, ha⟩ := hs.of_yields hfit h₁
  obtain ⟨d₂, he₂, hm₂, hu₂, hpost⟩ := hf a ha hfit₁ hm₁ hmid h₂
  exact ⟨d₂, he₁.append he₂, hm₂, hu₁.trans hu₂ hn hn', hpost⟩

/-- What follows without commands. -/
theorem Does.map {g : α → β} {post' : Data → β → Prop} (hx : Does Γ w n n' cs pre x post)
    (h : ∀ d a, post d a → post' d (g a)) :
    Does Γ w n n' cs pre (do return g (← x)) post' := by
  intro s s' d b hfit hm hpre hy
  obtain ⟨a, s₁, h₁, h₂⟩ := yields_bind.mp hy
  obtain ⟨rfl, rfl⟩ := yields_pure.mp h₂
  obtain ⟨d', he, hm', hu, hd'⟩ := hx hfit hm hpre h₁
  exact ⟨d', he, hm', hu, h d' a hd'⟩

/-- **Frame rule.** What only depends on places that the evaluation does not write still holds. -/
theorem Does.frame {A : Area} {F : Data → Prop} (hx : Does Γ w n n' cs pre x post)
    (hw : ∀ {s a s'}, Yields x s a s' → Within A s s')
    (hF : ∀ {d d'}, Agree n A d d' → F d → F d') :
    Does Γ w n n' cs (fun d => pre d ∧ F d) x (fun d a => post d a ∧ F d) := by
  rintro s s' d a hfit hm ⟨hpre, hFd⟩ hy
  obtain ⟨d', he, hm', hu, hd'⟩ := hx hfit hm hpre hy
  exact ⟨d', he, hm', hu, hd', hF (hm.agree hm' (hw hy) hu) hFd⟩

/-- A value that was computed before is still the same when it depends on nothing that the
evaluation writes. -/
theorem Does.keep {A B : Area} {v : Ir.Expr} (hx : Does Γ w n n' cs (fun _ => True) x post)
    (hw : ∀ {s a s'}, Yields x s a s' → Within B s s') (hl : Lasts w n A v)
    (hap : A.apart B = true) (y : Value) :
    Does Γ w n n' cs (fun d => Machine.eval w d v = y) x
      fun d a => post d a ∧ Machine.eval w d v = y :=
  (hx.frame hw fun hag hy => (hl hap hag).trans hy).imp (fun _ hd => ⟨trivial, hd⟩) fun _ _ hd => hd

end

/-! ## Places -/

section

variable {Γ : Signature} {W : World} {w : Machine.World} {env : Env} {n n' : Nat}
  {pre : Data → Prop} {r i : Ir.Expr} {v : Value} {t : Ty}

theorem does_readLocal (hw : Implements w W Γ env) {x : String} (hx : Γ.var x = some t) :
    Does Γ w n n' [] pre (readLocal x) fun d v => Machine.eval w d (.ident x) = v := by
  refine Does.of_same fun s _ d _ hm _ hy => ?_
  obtain ⟨rfl, rfl⟩ := yields_readLocal.mp hy
  refine ⟨rfl, ?_⟩
  show d.get w x = _
  rw [Lasts.get_var (Γ.var_proper hx) (hw.isGlobal_var hx), hm.locals x (Γ.var_proper hx)]

theorem does_readStatic (hw : Implements w W Γ env) {f : FieldRef}
    (hf : Γ.static f.mapName = some t) :
    Does Γ w n n' [] pre (readField none f) fun d v => Machine.eval w d (.ident f.mapName) = v := by
  refine Does.of_same fun s _ d _ hm _ hy => ?_
  obtain ⟨rfl, rfl⟩ := yields_readField.mp hy
  refine ⟨rfl, ?_⟩
  show d.get w f.mapName = _
  rw [Lasts.get_static (Γ.static_proper hf) (hw.isGlobal_static hf), hm.memory]
  rfl

theorem does_readField {f : FieldRef} {o : Value} :
    Does Γ w n n' [] (fun d => Machine.eval w d i = o) (readField (some o) f) fun d v =>
      Machine.eval w d (.select f.mapName i) = v := by
  refine Does.of_same fun s _ d _ hm hpre hy => ?_
  obtain ⟨rfl, rfl⟩ := yields_readField.mp hy
  refine ⟨rfl, ?_⟩
  rw [Machine.eval, hpre, hm.memory]
  rfl

theorem does_writeLocal (hw : Implements w W Γ env) {x : String} (hx : Γ.var x = some t) :
    Does Γ w n n' [.set x r] (fun d => Machine.eval w d r = v) (writeLocal x v)
      fun _ _ => True := by
  intro s s' d _ _ hm hpre hy
  rw [yields_writeLocal] at hy
  subst hy
  have hgen : isGenerated x = false := Γ.var_proper hx
  have hne : x ≠ Ir.exceptionVar := by
    rintro rfl
    cases hgen
  have hset : d.set w x v = { d with locals := Function.update d.locals x v } := by
    rw [Data.set, if_neg hne, hw.isGlobal_var hx, if_neg Bool.false_ne_true]
  refine ⟨d.set w x v, hpre ▸ Machine.executes_set, ?_, ?_, trivial⟩
  · rw [hset]
    refine ⟨fun y hy => ?_, hm.memory, hm.calls⟩
    show Function.update d.locals x v y = Function.update s.locals x v y
    rw [Function.update_apply, Function.update_apply, hm.locals y hy]
  · refine .of_locals fun k => Data.locals_set ?_ v
    rintro rfl
    rw [Slot.isGenerated_name (v := .temp k) trivial] at hgen
    cases hgen

theorem does_writeStatic (hw : Implements w W Γ env) {f : FieldRef}
    (hf : Γ.static f.mapName = some t) :
    Does Γ w n n' [.set f.mapName r] (fun d => Machine.eval w d r = v) (writeField none f v)
      fun _ _ => True := by
  intro s s' d _ _ hm hpre hy
  rw [yields_writeField] at hy
  subst hy
  have hne : f.mapName ≠ Ir.exceptionVar := by
    intro he
    have hgen := Γ.static_proper hf
    rw [he] at hgen
    cases hgen
  refine ⟨d.set w f.mapName v, hpre ▸ Machine.executes_set, ?_, ?_, trivial⟩
  · rw [Data.set, if_neg hne, hw.isGlobal_static hf, if_pos rfl, hm.memory]
    exact ⟨hm.locals, rfl, hm.calls⟩
  · rw [Data.set, if_neg hne, hw.isGlobal_static hf, if_pos rfl]
    exact .refl

theorem does_writeField {f : FieldRef} {o : Value} :
    Does Γ w n n' [.assign (.map f.mapName i) r]
      (fun d => Machine.eval w d i = o ∧ Machine.eval w d r = v) (writeField (some o) f v)
      fun _ _ => True := by
  rintro s s' d _ _ hm ⟨hi, hr⟩ hy
  rw [yields_writeField] at hy
  subst hy
  refine ⟨_, Machine.executes_store, ?_, ?_, trivial⟩
  · rw [Machine.assign, hi, hr, hm.memory]
    exact ⟨hm.locals, rfl, hm.calls⟩
  · exact .refl

end

/-! ## Intermediate values -/

section

variable {Γ : Signature} {W : World} {w : Machine.World} {env : Env} {n n' : Nat}
  {pre : Data → Prop} {s : Store} {d : Data}

/-- An intermediate value is not part of the store. -/
theorem Mirrors.set_temp (hm : Mirrors s d) (k : Nat) (v : Value) :
    Mirrors s (d.set w (Slot.temp k).name v) := by
  rw [Data.set_own rfl]
  refine ⟨fun x hx => ?_, hm.memory, hm.calls⟩
  show Function.update d.locals _ v x = _
  rw [Function.update_of_ne, hm.locals x hx]
  rintro rfl
  rw [Slot.isGenerated_name (v := .temp k) trivial] at hx
  cases hx

theorem untouched_set_temp {k : Nat} (hn : n ≤ k) (hn' : k < n') (v : Value) :
    Untouched n n' d (d.set w (Slot.temp k).name v) := by
  intro j hj
  refine Data.locals_set (fun he => ?_) v
  have hjk : Slot.temp j = Slot.temp k := Slot.name_inj trivial trivial he
  cases hjk
  omega

theorem get_set_temp (k : Nat) (v : Value) :
    Machine.eval w (d.set w (Slot.temp k).name v) (.ident (Slot.temp k).name) = v := by
  show (d.set w (Slot.temp k).name v).get w _ = v
  rw [Data.get_own rfl]
  exact Data.locals_set_own rfl v

/-- The machine creates the object that the source creates. -/
theorem does_create {type : TypeRef} :
    Does Γ w n (n + 1) [.invoke Ir.allocProc [.typeNamed type.name] [(Slot.temp n).name]] pre
      (create type) fun d v => Machine.eval w d (.ident (Slot.temp n).name) = v := by
  intro s s' d v _ hm _ hy
  obtain ⟨rfl, rfl⟩ := yields_create.mp hy
  refine ⟨_, Machine.executes_invoke, ?_⟩
  have hinvoke : Machine.invoke w d Ir.allocProc (Machine.evalAll w d [.typeNamed type.name])
      [(Slot.temp n).name] =
      Data.set w { d with memory := { s.memory with objects := s.memory.objects + 1 } }
        (Slot.temp n).name (.ref (some ⟨s.memory.objects, "T$" ++ type.name⟩)) := by
    rw [Machine.invoke, if_pos rfl, ← hm.memory]
    rfl
  rw [hinvoke]
  have hm' : Mirrors { s with memory := { s.memory with objects := s.memory.objects + 1 } }
      { d with memory := { s.memory with objects := s.memory.objects + 1 } } :=
    ⟨hm.locals, rfl, hm.calls⟩
  refine ⟨hm'.set_temp _ _, ?_, get_set_temp _ _⟩
  exact untouched_set_temp (Nat.le_refl n) (Nat.lt_succ_self n) _

end

end Unwind.Evaluation
