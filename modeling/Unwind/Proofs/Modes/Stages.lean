import Unwind.Proofs.Lowering.Sound
import Unwind.Proofs.Lowering.Tags
import Unwind.Proofs.Modes.Rest

/-!
# Two lowerings of a body side by side

A body is lowered with exceptions and without. A `Stage` holds what the two lowerings have settled
so far; it only grows. Codes that were emitted on both sides are related in front of all code that
may follow, at every later stage (`Codes`).

`Twin` is the rule by which the two lowerings are followed: from states that are `Joined`, two steps
lead to states that are joined again, and what they emit is related. It composes along `bind`. Steps
that are known to go `Alongside` each other are twins.
-/

namespace Unwind.Modes

open Ir (Cmd)
open Lowering
open Machine (Instr flatten isGenerated labels)
open Source (CatchClause Expr Stmt)

/-! ## Stages -/

/-- The name is not one that is given out while a body is lowered. -/
def IsSource (x : String) : Prop := isGenerated x = false

/-- What the two lowerings of a body have settled: which intermediate values stand for each other,
in which variables the finally block of a `try` statement puts aside what it finds, and how many
jumps leave each region. -/
structure Stage where
  pairs : List (Nat × Nat)
  saved : List (UInt32 × Nat)
  escapes : Nat → Nat

namespace Stage

/-- What was settled stays. -/
structure Le (W W' : Stage) : Prop where
  pairs : W.pairs ⊆ W'.pairs
  saved : W.saved ⊆ W'.saved
  escapes : ∀ r, W.escapes r ≤ W'.escapes r

theorem Le.refl (W : Stage) : W.Le W :=
  ⟨List.Subset.refl _, List.Subset.refl _, fun _ => Nat.le_refl _⟩

theorem Le.trans {W W₁ W' : Stage} (h : W.Le W₁) (h' : W₁.Le W') : W.Le W' :=
  ⟨List.Subset.trans h.pairs h'.pairs, List.Subset.trans h.saved h'.saved,
    fun r => Nat.le_trans (h.escapes r) (h'.escapes r)⟩

/-- How often variables were settled for a `try` statement. -/
def savedCount (W : Stage) (node : UInt32) : Nat := (W.saved.map Prod.fst).count node

/-- The stage has grown, and variables were settled only for these `try` statements. -/
structure Grows (tries : List UInt32) (W W' : Stage) : Prop where
  le : W.Le W'
  counts : ∀ node, W'.savedCount node ≤ W.savedCount node + tries.count node

theorem Grows.refl (W : Stage) : Grows [] W W := ⟨.refl W, fun _ => Nat.le_refl _⟩

theorem Grows.trans {ts us : List UInt32} {W W₁ W' : Stage} (h : Grows ts W W₁)
    (h' : Grows us W₁ W') : Grows (ts ++ us) W W' := by
  refine ⟨h.le.trans h'.le, fun node => ?_⟩
  have := h.counts node
  have := h'.counts node
  rw [List.count_append]
  omega

/-- More jumps leave regions. -/
theorem Grows.withEscapes {W : Stage} {escapes : Nat → Nat} (h : ∀ r, W.escapes r ≤ escapes r) :
    Grows [] W { W with escapes } :=
  ⟨⟨List.Subset.refl _, List.Subset.refl _, h⟩, fun _ => Nat.le_refl _⟩

/-- A finally block takes its variables. -/
theorem Grows.save (W : Stage) (node : UInt32) (n : Nat) :
    Grows [node] W { W with saved := (node, n) :: W.saved } := by
  refine ⟨⟨List.Subset.refl _, List.subset_cons_self _ _, fun _ => Nat.le_refl _⟩, fun k => ?_⟩
  simp only [savedCount, List.map_cons, List.count_cons, List.count_nil]
  omega

end Stage

/-! ## What control is in -/

/-- The `try` statements whose finally blocks are among the frames. -/
def finalNodes (ρ : List Frame) : List UInt32 :=
  (ρ.filter (·.phase == .inFinally)).map Frame.node

/-- What is known of a body at a stage of its lowerings. -/
def plan (body : Stmt) (W : Stage) : Plan where
  pairs := Paired IsSource W.pairs
  home l nodes := ∃ σ ρ id span s, Stands body σ ρ ⟨id, span, .labeled l s⟩ ∧ nodes = finalNodes ρ
  saved node n := (node, n) ∈ W.saved
  dead l := ∃ τ id span b cs fin,
    body.at? τ = some ⟨id, span, .tryCatch b cs fin⟩ ∧ l ∈ Source.labelsInCatches cs

/-- What control is in between the frames, when at most so many jumps leave each region. -/
inductive Nests (body : Stmt) (escapes : Nat → Nat) : List Frame → List Nook → Prop where
  | nil : Nests body escapes [] []
  | bare {f : Frame} {ρ : List Frame} {ns : List Nook} {jumps : Nat} :
      f.phase = .inTry → escapes f.region ≤ jumps → Nests body escapes ρ ns →
      Nests body escapes (f :: ρ) (.bare f.region jumps :: ns)
  | guarded {f : Frame} {ρ : List Frame} {ns : List Nook} {id : UInt32} {span : Span} {b fin : Stmt}
      {cs : List CatchClause} :
      f.phase = .inTry → body.at? f.place = some ⟨id, span, .tryCatch b cs (some fin)⟩ →
      Nests body escapes ρ ns → Nests body escapes (f :: ρ) (.guarded :: ns)
  | final {f : Frame} {ρ : List Frame} {ns : List Nook} :
      f.phase = .inFinally → Nests body escapes ρ ns →
      Nests body escapes (f :: ρ) (.final f.node :: ns)

section

variable {body : Stmt} {ρ : List Frame} {ns : List Nook}

theorem Nests.mono {escapes escapes' : Nat → Nat} (h : Nests body escapes' ρ ns)
    (hle : ∀ r, escapes r ≤ escapes' r) : Nests body escapes ρ ns := by
  induction h with
  | nil => exact .nil
  | bare hf hj _ ih => exact .bare hf (Nat.le_trans (hle _) hj) ih
  | guarded hf hat _ ih => exact .guarded hf hat ih
  | final hf _ ih => exact .final hf ih

theorem Nests.finals_eq {escapes : Nat → Nat} (h : Nests body escapes ρ ns) :
    finals ns = finalNodes ρ := by
  induction h with
  | nil => rfl
  | bare hf _ _ ih | guarded hf _ _ ih =>
    rw [finalNodes, List.filter_cons_of_neg (by simp [hf])]
    exact ih
  | final hf _ ih =>
    rw [finalNodes, List.filter_cons_of_pos (by simp [hf]), List.map_cons, ← finalNodes, ← ih]
    rfl

end

/-! ## Codes in front of all that may follow -/

/-- The codes are related in front of related codes, at every later stage. -/
def Codes (body : Stmt) (W : Stage) (ρ : List Frame) (is js : List Instr) : Prop :=
  ∀ W', W.Le W' → ∀ ns, Nests body W.escapes ρ ns → ∀ ks ks',
    Rest (plan body W') ns ks ks' → Rest (plan body W') ns (is ++ ks) (js ++ ks')

section

variable {body : Stmt} {W W' : Stage} {ρ : List Frame} {is is' js js' : List Instr}

theorem Stage.Le.paired (h : W.Le W') (x y : String) (hxy : Paired IsSource W.pairs x y) :
    Paired IsSource W'.pairs x y := hxy.mono h.pairs

theorem Codes.nil : Codes body W ρ [] [] := fun _ _ _ _ _ _ hr => hr

theorem Codes.mono (h : Codes body W ρ is js) (hle : W.Le W') : Codes body W' ρ is js :=
  fun W'' hle' ns hns ks ks' hr =>
    h W'' (hle.trans hle') ns (hns.mono hle.escapes) ks ks' hr

theorem Codes.append (h : Codes body W ρ is js) (h' : Codes body W ρ is' js') :
    Codes body W ρ (is ++ is') (js ++ js') := by
  intro W'' hle ns hns ks ks' hr
  rw [List.append_assoc, List.append_assoc]
  exact h W'' hle ns hns _ _ (h' W'' hle ns hns ks ks' hr)

theorem Steps.codes (h : Steps (Paired IsSource W.pairs) true false is js) :
    Codes body W ρ is js :=
  fun _ hle _ _ _ _ hr => (h.mono hle.paired).rest hr

/-- A conditional on both sides. -/
theorem Codes.choice {e e' : Ir.Expr} (he : Values IsSource W.pairs e e')
    (h : Codes body W ρ is js) (h' : Codes body W ρ is' js') :
    Codes body W ρ (.branchUnless e (is.length + 1) :: (is ++ .jump is'.length :: is'))
      (.branchUnless e' (js.length + 1) :: (js ++ .jump js'.length :: js')) := by
  intro W'' hle ns hns ks ks' hr
  simp only [List.cons_append, List.append_assoc]
  exact .choice (he.mono hle.paired) (h W'' hle ns hns _ _) (h' W'' hle ns hns _ _ hr) hr

theorem Codes.ifElse {e e' : Ir.Expr} {cs cs' ds ds' : List Cmd}
    (he : Values IsSource W.pairs e e') (h : Codes body W ρ (flatten cs) (flatten ds))
    (h' : Codes body W ρ (flatten cs') (flatten ds')) :
    Codes body W ρ (Machine.flattenCmd (.ifElse e cs cs')) (Machine.flattenCmd (.ifElse e' ds ds')) := by
  rw [Machine.flattenCmd, Machine.flattenCmd]
  exact .choice he h h'

theorem Codes.assert {e e' : Ir.Expr} (he : Values IsSource W.pairs e e') :
    Codes body W ρ [.assert e] [.assert e'] :=
  fun _ hle _ _ _ _ hr => .assert (he.mono hle.paired) hr

theorem Codes.assume {e e' : Ir.Expr} (he : Values IsSource W.pairs e e') :
    Codes body W ρ [.assume e] [.assume e'] :=
  fun _ hle _ _ _ _ hr => .assume (he.mono hle.paired) hr

theorem Codes.ret : Codes body W ρ [.ret] [.ret] := fun _ _ _ _ _ _ hr => .ret hr

/-- A label stands at home. -/
theorem Codes.label {π : Source.Path} {id : UInt32} {span : Span} {l : String} {s : Stmt}
    (h : Stands body π ρ ⟨id, span, .labeled l s⟩) : Codes body W ρ [.label l] [.label l] := by
  intro W'' _ ns hns ks ks' hr
  exact .label ⟨π, ρ, id, span, s, h, hns.finals_eq⟩ hr

/-- An exception is raised. -/
theorem Codes.raise (h : labels is = []) : Codes body W ρ is [.assume (.bool false)] :=
  fun _ _ _ _ _ _ hr => .raise h hr

end

/-! ## States of the two lowerings -/

/-- The labels of a body with the `try` statements around them. -/
def scopesOf (body : Stmt) : LabelScopes := ⟨body.scoped none, body.tries⟩

/-- The states of the two lowerings at a stage: the first one between the frames, the second one
outside of all regions. -/
structure Joined (body : Stmt) (ρ : List Frame) (W : Stage) (s t : State) : Prop where
  joint : Joint IsSource W.pairs s t
  view : View (scopesOf body) ρ s
  flat : View (scopesOf body) [] t
  escapes : s.counters.escapes = W.escapes

section

variable {body : Stmt} {ρ : List Frame} {W W' : Stage} {s s' t t' : State}

theorem Joined.withCmds (h : Joined body ρ W s t) (cs ds : List Cmd) :
    Joined body ρ W { s with cmds := cs } { t with cmds := ds } :=
  ⟨h.joint.withCmds cs ds, h.view.withCmds cs, h.flat.withCmds ds, h.escapes⟩

/-- The first state with its counters. -/
theorem Joined.ready (h : Joined body ρ W s t) {L : Layout} (hL : L.scopes = scopesOf body) :
    Ready L ρ s.counters s := ⟨hL ▸ h.view, rfl, Nat.le_refl _, rfl⟩

end

/-- The step emits code, without a change of the stack and of the jumps out of regions. -/
structure Still {α : Type} (act : Lower α) : Prop where
  emits : ∀ {scopes : LabelScopes} {ρ : List Frame} {s s' : State} {a : α}, View scopes ρ s →
    Runs act s a s' → ∃ is, Emits s is s'

theorem Still.of_marks {α : Type} {act : Lower α}
    (h : ∀ {s s' : State} {a : α}, Runs act s a s' → Marks s s') : Still act := by
  refine ⟨fun _ hrun => ?_⟩
  obtain ⟨is, -, he⟩ := h hrun
  exact ⟨is, he⟩

theorem Still.of_emits {α : Type} {act : Lower α}
    (h : ∀ {s s' : State} {a : α}, Runs act s a s' → ∃ is, Emits s is s') : Still act :=
  ⟨fun _ hrun => h hrun⟩

/-- What is lowered to code without statements in it. -/
theorem Still.of_coded {α : Type} {act : Lower α} (env : Env)
    (h : ∀ {L : Layout} {ρ : List Frame} {s s' : State} {a : α}, L.env = env →
      (∀ xs, L.Allows xs) → View L.scopes ρ s → Runs act s a s' → Coded L [] ρ s s') :
    Still act := by
  refine ⟨fun {scopes ρ s s' a} hv hrun => ?_⟩
  obtain ⟨ls, he, -⟩ := h (L := ⟨env, scopes, fun _ => True⟩) rfl (fun _ _ _ => trivial) hv hrun
  exact ⟨_, he⟩

/-! ## Twins -/

/-- From joined states, the two steps lead to joined states at a later stage, emit codes that are
related there, and have results in the relation `R`. -/
structure Twin {α β : Type} (body : Stmt) (ρ : List Frame) (W : Stage) (tries : List UInt32)
    (x : Lower α) (y : Lower β) (R : Stage → α → β → Prop) : Prop where
  run : ∀ {s s' t t' : State} {a : α} {b : β}, Joined body ρ W s t → Runs x s a s' →
    Runs y t b t' → ∃ W' cs ds, W.Grows tries W' ∧ Joined body ρ W' s' t' ∧
      s'.cmds = s.cmds ++ cs ∧ t'.cmds = t.cmds ++ ds ∧
      Codes body W' ρ (flatten cs) (flatten ds) ∧ R W' a b

section

variable {α α' β β' : Type} {body : Stmt} {ρ : List Frame} {W : Stage} {ts us : List UInt32}
  {R : Stage → α → β → Prop} {R' : Stage → α' → β' → Prop}

namespace Twin

theorem bind {x : Lower α} {y : Lower β} {f : α → Lower α'} {g : β → Lower β'}
    (h : Twin body ρ W ts x y R)
    (hf : ∀ {W' a b}, W.Le W' → R W' a b → Twin body ρ W' us (f a) (g b) R') :
    Twin body ρ W (ts ++ us) (x >>= f) (y >>= g) R' := by
  refine ⟨fun {s s' t t' a' b'} hj hx hy => ?_⟩
  obtain ⟨a, s₁, hx, hfa⟩ := runs_bind.mp hx
  obtain ⟨b, t₁, hy, hgb⟩ := runs_bind.mp hy
  obtain ⟨W₁, cs, ds, hgrow, hj₁, hcs, hds, hc, hr⟩ := h.run hj hx hy
  obtain ⟨W₂, cs', ds', hgrow', hj₂, hcs', hds', hc', hr'⟩ := (hf hgrow.le hr).run hj₁ hfa hgb
  refine ⟨W₂, cs ++ cs', ds ++ ds', hgrow.trans hgrow', hj₂, ?_, ?_, ?_, hr'⟩
  · rw [hcs', hcs, List.append_assoc]
  · rw [hds', hds, List.append_assoc]
  · rw [Machine.flatten_append, Machine.flatten_append]
    exact (hc.mono hgrow'.le).append hc'

/-- A step in front that settles nothing for `try` statements. -/
theorem andThen {x : Lower α} {y : Lower β} {f : α → Lower α'} {g : β → Lower β'}
    (h : Twin body ρ W [] x y R)
    (hf : ∀ {W' a b}, W.Le W' → R W' a b → Twin body ρ W' us (f a) (g b) R') :
    Twin body ρ W us (x >>= f) (y >>= g) R' := h.bind hf

theorem more {x : Lower α} {y : Lower β} (h : Twin body ρ W ts x y R)
    (hts : ∀ node, ts.count node ≤ us.count node) : Twin body ρ W us x y R := by
  refine ⟨fun hj hx hy => ?_⟩
  obtain ⟨W', cs, ds, ⟨hle, hcounts⟩, hrest⟩ := h.run hj hx hy
  exact ⟨W', cs, ds, ⟨hle, fun node =>
    Nat.le_trans (hcounts node) (Nat.add_le_add_left (hts node) _)⟩, hrest⟩

theorem pure {a : α} {b : β} (h : R W a b) :
    Twin body ρ W [] (Pure.pure a) (Pure.pure b) R := by
  refine ⟨fun hj hx hy => ?_⟩
  obtain ⟨rfl, rfl⟩ := runs_pure.mp hx
  obtain ⟨rfl, rfl⟩ := runs_pure.mp hy
  exact ⟨W, [], [], .refl W, hj, (List.append_nil _).symm, (List.append_nil _).symm, .nil, h⟩

/-- A step that fails. -/
theorem throw {e : Fault} {y : Lower β} : Twin body ρ W ts (throw e : Lower α) y R :=
  ⟨fun _ hx => absurd hx not_runs_throw⟩

theorem emitAll {cs ds : List Cmd} (h : Codes body W ρ (flatten cs) (flatten ds)) :
    Twin body ρ W [] (Lowering.emitAll cs) (Lowering.emitAll ds) fun _ _ _ => True := by
  refine ⟨fun hj hx hy => ?_⟩
  rw [runs_emitAll] at hx hy
  subst hx hy
  exact ⟨W, cs, ds, .refl W, hj.withCmds _ _, rfl, rfl, h, trivial⟩

theorem emit {c d : Cmd} (h : Codes body W ρ (Machine.flattenCmd c) (Machine.flattenCmd d)) :
    Twin body ρ W [] (Lowering.emit c) (Lowering.emit d) fun _ _ _ => True := by
  refine emitAll ?_
  rw [Machine.flatten_singleton, Machine.flatten_singleton]
  exact h

/-- What is emitted aside is related. -/
theorem commandsOf {x y : Lower Unit} {Q : Stage → Unit → Unit → Prop}
    (h : Twin body ρ W ts x y Q) :
    Twin body ρ W ts (Lowering.commandsOf x) (Lowering.commandsOf y)
      fun W' cs ds => Codes body W' ρ (flatten cs) (flatten ds) := by
  refine ⟨fun hj hx hy => ?_⟩
  obtain ⟨s₁, hx₁, rfl, rfl⟩ := runs_commandsOf.mp hx
  obtain ⟨t₁, hy₁, rfl, rfl⟩ := runs_commandsOf.mp hy
  obtain ⟨W', cs, ds, hgrow, hj₁, hcs, hds, hc, -⟩ := h.run (hj.withCmds [] []) hx₁ hy₁
  refine ⟨W', [], [], hgrow, hj₁.withCmds _ _, (List.append_nil _).symm, (List.append_nil _).symm,
    .nil, ?_⟩
  rw [hcs, hds]
  exact hc

/-- Steps that go alongside each other. -/
theorem of_alongside {x : Lower α} {y : Lower β} {Q : List (Nat × Nat) → α → β → Prop}
    (h : Alongside IsSource ((1 : UInt8) != 0) ((0 : UInt8) != 0) W.pairs x y Q) (hx : Still x)
    (hy : Still y) :
    Twin body ρ W [] x y fun W' => Q W'.pairs := by
  refine ⟨fun hj hrun hrun' => ?_⟩
  obtain ⟨qs, cs, ds, hsub, hj', hcs, hds, hm, hr⟩ := h.run hj.joint hrun hrun'
  obtain ⟨is, he⟩ := hx.emits hj.view hrun
  obtain ⟨is', he'⟩ := hy.emits hj.flat hrun'
  refine ⟨{ W with pairs := qs }, cs, ds, ⟨⟨hsub, List.Subset.refl _, fun _ => Nat.le_refl _⟩,
    fun _ => Nat.le_refl _⟩, ⟨hj', he.view hj.view, he'.view hj.flat, ?_⟩, hcs, hds,
    hm.steps.codes, hr⟩
  rw [he.escapes]
  exact hj.escapes

/-- The place of the result is the same on both sides. -/
theorem context :
    Twin body ρ W [] Lowering.context Lowering.context fun _ cx cx' =>
      cx.returnVar = cx'.returnVar ∧ ∀ x, cx.returnVar = some x → x = resultVar := by
  refine ⟨fun hj hx hy => ?_⟩
  obtain ⟨rfl, rfl⟩ := runs_context.mp hx
  obtain ⟨rfl, rfl⟩ := runs_context.mp hy
  exact ⟨W, [], [], .refl W, hj, (List.append_nil _).symm, (List.append_nil _).symm, .nil,
    hj.joint.returnVar, hj.view.returnVar⟩

end Twin

end

/-! ## Steps that both modes take -/

section

variable {names : String → Prop} {models models' : Bool} {ps : List (Nat × Nat)} {env : Env}
  {mode mode' : UInt8}

/-- Steps that give out something other than variables and code. -/
theorem Alongside.kept {α β : Type} {x : Lower α} {y : Lower β} (hx : Keeps x) (hy : Keeps y)
    (hcx : ∀ {s s' a}, Runs x s a s' → s'.cmds = s.cmds)
    (hcy : ∀ {t t' b}, Runs y t b t' → t'.cmds = t.cmds) :
    Alongside names models models' ps x y fun _ _ _ => True :=
  .of_joint fun hj h h' => ⟨hj.kept (hx.kept h) (hy.kept h'), hcx h, hcy h', trivial⟩

theorem cmds_withRegistry {α : Type} {f : Registry → α × Registry} {s s' : State} {a : α}
    (h : Runs (withRegistry f) s a s') : s'.cmds = s.cmds := by
  rw [withRegistry, runs_modifyGet] at h
  cases h
  rfl

theorem cmds_declareLocal {name : String} {ty : Ir.Ty} {s s' : State} {u : Unit}
    (h : Runs (declareLocal name ty) s u s') : s'.cmds = s.cmds := by
  rw [declareLocal, changeContext, runs_modify] at h
  subst h
  unfold Context.declareLocal
  split <;> rfl

theorem declareLocal_alongside {name : String} {ty : Ir.Ty} :
    Alongside names models models' ps (declareLocal name ty) (declareLocal name ty)
      fun _ _ _ => True :=
  .kept .declareLocal .declareLocal cmds_declareLocal cmds_declareLocal

/-- The copy of a struct has one name. -/
theorem structCopy_alongside (type : Source.TypeRef) :
    Alongside names models models' ps (withRegistry (·.structCopy type))
      (withRegistry (·.structCopy type)) fun _ x y => x = y := by
  have hkeeps : Keeps (withRegistry (·.structCopy type)) :=
    .withRegistry fun r type' => r.structCopy_structCopy type type'
  refine .of_joint fun hj hx hy => ⟨hj.kept (hkeeps.kept hx) (hkeeps.kept hy),
    cmds_withRegistry hx, cmds_withRegistry hy, ?_⟩
  have hcopy := hj.copies type
  rw [withRegistry, runs_modifyGet] at hx hy
  cases hx
  cases hy
  exact hcopy

/-- A mark that carries what the registry gives out. -/
theorem mark_alongside {α : Type} {f : Registry → α × Registry} {cmd : α → Cmd} {i : Instr}
    (hf : ∀ r type, ((f r).2.structCopy type).1 = (r.structCopy type).1)
    (hc : ∀ a, Machine.flattenCmd (cmd a) = [i]) (hi : Quiet i) :
    Alongside names models models' ps (do emit (cmd (← withRegistry f)))
      (do emit (cmd (← withRegistry f))) fun _ _ _ => True := by
  have hkeeps : Keeps (withRegistry f) := .withRegistry hf
  exact (Alongside.kept hkeeps hkeeps cmds_withRegistry cmds_withRegistry).bind fun _ _ =>
    .emit (.quiet (hc _) hi (hc _))

theorem breadcrumb_alongside :
    Alongside names models models' ps (breadcrumb (env.withMode mode))
      (breadcrumb (env.withMode mode')) fun _ _ _ => True :=
  .ite (mark_alongside (fun _ _ => rfl) (fun _ => rfl) .assume) (.pure trivial)

theorem record_alongside {label : String} {ty : Ir.Ty} {v v' : Ir.Expr} :
    Alongside names models models' ps (record (env.withMode mode) label ty v)
      (record (env.withMode mode') label ty v') fun _ _ _ => True := by
  refine .ite ?_ (.pure trivial)
  have hkeeps : Keeps (withRegistry (·.recorder ty)) := .withRegistry fun _ _ => rfl
  exact (Alongside.kept hkeeps hkeeps cmds_withRegistry cmds_withRegistry).bind fun _ _ =>
    .emit (.quiet (i := .note) rfl .note rfl)

theorem emitMarks_alongside {span : Span} {kind : Source.StmtKind} :
    Alongside names models models' ps (emitMarks (env.withMode mode) span kind)
      (emitMarks (env.withMode mode') span kind) fun _ _ _ => True := by
  have hcapture : ∀ {qs}, Alongside names models models' qs
      (if (env.withMode mode).options.captureState then
        withRegistry (·.nextCaptureState) >>= fun n =>
          emit (.marker ⟨"captureState", [.str ("s" ++ toString n.toNat)]⟩)
        else pure ())
      (if (env.withMode mode').options.captureState then
        withRegistry (·.nextCaptureState) >>= fun n =>
          emit (.marker ⟨"captureState", [.str ("s" ++ toString n.toNat)]⟩)
        else pure ()) fun _ _ _ => True :=
    .ite (mark_alongside (fun _ _ => rfl) (fun _ => rfl) .assume) (.pure trivial)
  refine .ite (.ite ?_ hcapture) (.pure trivial)
  exact (Alongside.emit (.quiet (i := .assert (.bool true)) rfl .assert rfl)).bind
    fun _ _ => hcapture

end

/-! ## Twins of expressions and marks -/

section

variable {body : Stmt} {ρ : List Frame} {W : Stage} {env : Env} {u : Unit}

theorem emitMarks_twin {span : Span} {kind : Source.StmtKind} :
    Twin body ρ W [] (emitMarks (env.withMode 1) span kind) (emitMarks (env.withMode 0) span kind)
      fun _ _ _ => True :=
  .of_alongside emitMarks_alongside (.of_marks .emitMarks) (.of_marks .emitMarks)

theorem breadcrumb_twin :
    Twin body ρ W [] (breadcrumb (env.withMode 1)) (breadcrumb (env.withMode 0))
      fun _ _ _ => True :=
  .of_alongside breadcrumb_alongside (.of_marks .breadcrumb) (.of_marks .breadcrumb)

theorem record_twin {label : String} {ty : Ir.Ty} {v v' : Ir.Expr} :
    Twin body ρ W [] (record (env.withMode 1) label ty v) (record (env.withMode 0) label ty v')
      fun _ _ _ => True :=
  .of_alongside record_alongside (.of_marks .record) (.of_marks .record)

theorem lowerExpr_twin {e : Expr} {compound : Bool} (hn : Known IsSource e.names) :
    Twin body ρ W [] (lowerExpr (env.withMode 1) e compound) (lowerExpr (env.withMode 0) e compound)
      fun W' => Option.Rel (Values IsSource W'.pairs) := by
  have hstill : ∀ env, Still (lowerExpr env e compound) := fun env => .of_coded env
    fun hL hw hv h => lowerExpr_coded e compound (hw _) hv (hL ▸ h)
  exact .of_alongside (lowerExpr_alongside e compound hn) (hstill _) (hstill _)

theorem value_twin {e : Expr} (hn : Known IsSource e.names) :
    Twin body ρ W [] (value (env.withMode 1) e) (value (env.withMode 0) e)
      fun W' => Values IsSource W'.pairs := by
  have hstill : ∀ env, Still (value env e) := fun env => .of_coded env
    fun hL hw hv h => value_coded (hw _) hv (hL ▸ h)
  exact .of_alongside (value_alongside hn) (hstill _) (hstill _)

theorem condition_twin {e : Expr} (hn : Known IsSource e.names) :
    Twin body ρ W [] (condition (env.withMode 1) e) (condition (env.withMode 0) e)
      fun W' => Values IsSource W'.pairs := by
  have hstill : ∀ env, Still (condition env e) := fun env => .of_coded env
    fun hL hw hv h => condition_coded (hw _) hv (hL ▸ h)
  exact .of_alongside (condition_alongside hn) (hstill _) (hstill _)

theorem irTy_twin {ty : Source.Ty} {span : Span} :
    Twin body ρ W [] (liftM (irTy ty span) : Lower Ir.Ty) (liftM (irTy ty span) : Lower Ir.Ty)
      fun _ a b => a = b := by
  have hstill : Still (liftM (irTy ty span) : Lower Ir.Ty) := .of_emits fun h => by
    rw [(runs_lift.mp h).2]
    exact ⟨[], .refl _⟩
  exact .of_alongside (Alongside.lift.weaken fun _ h => h.1) hstill hstill

theorem declareLocal_twin {name : String} {ty : Ir.Ty} :
    Twin body ρ W [] (declareLocal name ty) (declareLocal name ty) fun _ _ _ => True :=
  .of_alongside declareLocal_alongside (.of_emits fun h => ⟨[], emits_declareLocal h⟩)
    (.of_emits fun h => ⟨[], emits_declareLocal h⟩)

theorem structCopy_twin (type : Source.TypeRef) :
    Twin body ρ W [] (withRegistry (·.structCopy type)) (withRegistry (·.structCopy type))
      fun _ x y => x = y :=
  .of_alongside (structCopy_alongside type) (.of_emits fun h => ⟨[], emits_withRegistry h⟩)
    (.of_emits fun h => ⟨[], emits_withRegistry h⟩)

theorem pushOperand_twin {v v' : Ir.Expr} (h : Values IsSource W.pairs v v') :
    Twin body ρ W [] (pushOperand v) (pushOperand v') fun _ _ _ => True :=
  .of_alongside (.pushOperand h) (.of_emits fun h => ⟨[], emits_pushOperand h⟩)
    (.of_emits fun h => ⟨[], emits_pushOperand h⟩)

/-- An assignment on both sides. -/
theorem set_twin {x y : String} {e e' : Ir.Expr} (hx : Paired IsSource W.pairs x y)
    (he : Values IsSource W.pairs e e') :
    Twin body ρ W [] (emit (.set x e)) (emit (.set y e')) fun _ _ _ => True :=
  .emit (Steps.codes (.set hx he .nil))

/-! ## Twins of statements without parts -/

theorem emitAssertion_twin {v v' : Ir.Expr} (h : Values IsSource W.pairs v v') :
    Twin body ρ W [] (emitAssertion (env.withMode 1) v) (emitAssertion (env.withMode 0) v')
      fun _ _ _ => True := by
  refine .emit ?_
  show Codes body W ρ (Machine.flattenCmd (if env.options.getMeHere then _ else _))
    (Machine.flattenCmd (if env.options.getMeHere then _ else _))
  split
  · exact .assume h
  · exact .assert h

theorem lowerReturn_twin {span : Span} {result : Option Expr}
    (hn : Known IsSource (Source.namesOption result)) :
    Twin body ρ W [] (lowerReturn (env.withMode 1) span result)
      (lowerReturn (env.withMode 0) span result) fun _ _ _ => True := by
  cases result with
  | none => exact .emit .ret
  | some e =>
    unfold lowerReturn
    refine (value_twin hn).andThen fun _ hv => ?_
    refine Twin.context.andThen fun {W' cx cx'} hle hcx => ?_
    rw [← hcx.1]
    cases hslot : cx.returnVar with
    | none => exact .throw
    | some slot =>
      refine .andThen irTy_twin fun {W₁ ty ty'} hle₁ hty => ?_
      subst hty
      refine .andThen record_twin fun hle₂ _ => ?_
      have hle' := (hle.trans hle₁).trans hle₂
      obtain rfl : slot = (Slot.result).name := hcx.2 slot hslot
      exact (set_twin .result (hv.mono hle'.paired)).andThen fun _ _ => .emit .ret

theorem lowerLocalDecl_twin {decl : Source.Variable} {init : Option Expr}
    (hd : IsSource decl.name) (hn : Known IsSource (Source.namesOption init)) :
    Twin body ρ W [] (lowerLocalDecl (env.withMode 1) decl init)
      (lowerLocalDecl (env.withMode 0) decl init) fun _ _ _ => True := by
  unfold lowerLocalDecl
  refine .andThen irTy_twin fun {W₁ ty ty'} _ hty => ?_
  subst hty
  refine .andThen declareLocal_twin fun _ _ => ?_
  have htypes : (env.withMode 1).types.isStruct decl.ty = (env.withMode 0).types.isStruct decl.ty :=
    rfl
  rw [htypes]
  split
  · split
    · next e type he ht =>
      have hne : Known IsSource e.names := by
        rw [Option.filter_eq_some_iff] at he
        rw [he.1] at hn
        exact hn
      refine (structCopy_twin type).andThen fun {W₂ p p'} _ hp => ?_
      subst hp
      refine (value_twin hne).andThen fun _ hv => .emit (Steps.codes ?_)
      exact .call (.cons hv .nil) (.cons (.source hd) .nil) .none .none .nil
    · have hne : Known IsSource (Expr.ofKind (.defaultValue decl.ty) decl.ty).names := by
        simp [Known, Expr.ofKind, Expr.names]
      exact (value_twin hne).andThen fun _ hv => set_twin (.source hd) hv
  · cases init with
    | none => exact .pure trivial
    | some e =>
      refine (value_twin hn).andThen fun _ hv => record_twin.andThen fun hle _ => ?_
      exact set_twin (.source hd) (hv.mono hle.paired)

end

end Unwind.Modes
