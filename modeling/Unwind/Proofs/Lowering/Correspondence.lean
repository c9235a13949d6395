import Unwind.Proofs.Lowering.Steps

/-!
# Two lowerings of one body

A lowering reads little of its environment: whether exceptions are modeled, which types are structs,
what literals stand for, and what marks and checks look like. `Correspondence` collects what two
environments have to share, as a relation between steps: it is closed under what lowerings are made
of, and it holds between the steps that put marks and checks into the code. Then it holds between
the two lowerings of every expression (`Correspondence.lowerExpr`) and of every statement
(`Correspondence.lowerStmt`), by one induction over the source.

The commands of one lowering are those of the other one with their leaves replaced (`Cmd.edit`). An
operator is lowered differently when its right operand needs commands, so the relation comes in two
grades: a `tight` one, under which no command disappears altogether, and a loose one.
-/

namespace Unwind.Ir.Cmd

mutual

/-- The command with every command in it that is no `ifElse` replaced. -/
def editOne (leaf : Cmd → List Cmd) : Cmd → List Cmd
  | ifElse cond thenCmds elseCmds => [ifElse cond (edit leaf thenCmds) (edit leaf elseCmds)]
  | c => leaf c

/-- The commands with every command that is no `ifElse` replaced, at any depth. -/
def edit (leaf : Cmd → List Cmd) : List Cmd → List Cmd
  | [] => []
  | c :: cs => editOne leaf c ++ edit leaf cs

end

/-- A command that is no check, carries no notes and has no parts. -/
def isPlain : Cmd → Bool
  | assert .. | ifElse .. => false
  | assume _ attrs | call attrs .. => attrs.isEmpty
  | assign .. | goto _ | label _ | ret => true

section

variable {leaf : Cmd → List Cmd}

@[simp]
theorem edit_nil : edit leaf [] = [] := rfl

@[simp]
theorem edit_append (cs ds : List Cmd) : edit leaf (cs ++ ds) = edit leaf cs ++ edit leaf ds := by
  induction cs with
  | nil => rfl
  | cons c cs ih => rw [List.cons_append, edit, edit, ih, List.append_assoc]

@[simp]
theorem edit_ifElse (cond : Expr) (cs ds : List Cmd) :
    edit leaf [ifElse cond cs ds] = [ifElse cond (edit leaf cs) (edit leaf ds)] := rfl

theorem edit_plain (hleaf : ∀ c, c.isPlain → leaf c = [c]) {c : Cmd} (hc : c.isPlain) :
    edit leaf [c] = [c] := by
  have hone : editOne leaf c = leaf c := by
    cases c with
    | ifElse => cases hc
    | _ => rfl
  rw [edit, hone, hleaf c hc, edit, List.append_nil]

end

mutual

theorem editOne_same (c : Cmd) : editOne (fun c => [c]) c = [c] := by
  cases c with
  | ifElse cond thenCmds elseCmds => rw [editOne, edit_same, edit_same]
  | _ => rfl

/-- Replacing every leaf by itself changes nothing. -/
theorem edit_same (cs : List Cmd) : edit (fun c => [c]) cs = cs := by
  cases cs with
  | nil => rfl
  | cons c cs => rw [edit, editOne_same, edit_same, List.singleton_append]

end

end Unwind.Ir.Cmd

namespace Unwind.Lowering

open Ir (Cmd)
open Source (BinOp CatchClause Expr MethodRef Stmt SwitchCase Target Ty TypeRef Variable)

/-! ## The relation -/

/-- An operation of the context that neither reads nor writes the commands. -/
def Oblivious {α : Type} (f : Context → α × Context) : Prop :=
  ∀ (cx : Context) (cs : List Cmd),
    f { cx with cmds := cs } = ((f cx).1, { (f cx).2 with cmds := cs })

/-- The commands `ds` are the commands `cs`, edited; under `tight` they are not all gone. -/
def Edited (leaf : Cmd → List Cmd) (tight : Bool) (cs ds : List Cmd) : Prop :=
  ds = Cmd.edit leaf cs ∧ (tight = true → ds = [] → cs = [])

namespace Edited

variable {leaf : Cmd → List Cmd} {tight : Bool}

theorem nil : Edited leaf tight [] [] := ⟨rfl, fun _ _ => rfl⟩

theorem append {cs cs' ds ds' : List Cmd} (h : Edited leaf tight cs cs')
    (h' : Edited leaf tight ds ds') : Edited leaf tight (cs ++ ds) (cs' ++ ds') := by
  refine ⟨by rw [Cmd.edit_append, h.1, h'.1], fun ht he => ?_⟩
  obtain ⟨hc, hd⟩ := List.append_eq_nil_iff.mp he
  rw [h.2 ht hc, h'.2 ht hd, List.append_nil]

theorem loosen {cs ds : List Cmd} (h : Edited leaf tight cs ds) : Edited leaf false cs ds :=
  ⟨h.1, nofun⟩

theorem isEmpty_eq {cs ds : List Cmd} (h : Edited leaf true cs ds) :
    ds.isEmpty = cs.isEmpty := by
  rw [Bool.eq_iff_iff, List.isEmpty_iff, List.isEmpty_iff]
  refine ⟨h.2 rfl, ?_⟩
  rintro rfl
  exact h.1

end Edited

/-- A relation between the steps of two lowerings that is closed under what lowerings are made of,
and holds between the steps that depend on more of the environment than `models`, `literal` and
`isStruct` say. -/
structure Correspondence (env env' : Env) where
  /-- What becomes of a command without parts. -/
  leaf : Cmd → List Cmd
  /-- Two steps correspond, and so do their results. -/
  rel : {α β : Type} → (tight : Bool) → (α → β → Prop) → Lower α → Lower β → Prop
  leaf_plain : ∀ c, c.isPlain → leaf c = [c]
  models : env'.options.modelsExceptions = env.options.modelsExceptions
  literal : env'.literal = env.literal
  isStruct : ∀ ty, env'.types.isStruct ty = env.types.isStruct ty
  pure : ∀ {α β : Type} {tight : Bool} {R : α → β → Prop} {a : α} {b : β}, R a b →
    rel tight R (pure a) (pure b)
  bind : ∀ {α β α' β' : Type} {tight : Bool} {R : α → β → Prop} {R' : α' → β' → Prop}
    {x : Lower α} {y : Lower β} {f : α → Lower α'} {g : β → Lower β'}, rel tight R x y →
    (∀ a b, R a b → rel tight R' (f a) (g b)) → rel tight R' (x >>= f) (y >>= g)
  throw : ∀ {α β : Type} {tight : Bool} {R : α → β → Prop} {e : Fault},
    rel tight R (throw e) (throw e)
  loosen : ∀ {α β : Type} {R : α → β → Prop} {x : Lower α} {y : Lower β}, rel true R x y →
    rel false R x y
  context : ∀ {tight : Bool},
    rel tight (fun cx cx' => ∃ cs, cx' = { cx with cmds := cs }) context context
  withContext : ∀ {α : Type} {tight : Bool} {f : Context → α × Context}, Oblivious f →
    rel tight Eq (withContext f) (withContext f)
  report : ∀ {tight : Bool} {level : Log.Level} {message : String},
    rel tight Eq (report level message) (report level message)
  emitAll : ∀ {tight : Bool} {cs ds : List Cmd}, Edited leaf tight cs ds →
    rel tight Eq (emitAll cs) (emitAll ds)
  buffered : ∀ {α β : Type} {tight : Bool} {R : α → β → Prop} {x : Lower α} {y : Lower β},
    rel tight R x y → ∀ {outer : Bool},
      rel outer (fun a b => R a.1 b.1 ∧ Edited leaf tight a.2 b.2) (buffered x) (buffered y)
  structCopy : ∀ {type : TypeRef},
    rel false Eq (withRegistry (·.structCopy type)) (withRegistry (·.structCopy type))
  breadcrumb : rel false Eq (breadcrumb env) (breadcrumb env')
  record : ∀ {label : String} {ty : Ir.Ty} {v : Ir.Expr},
    rel false Eq (record env label ty v) (record env' label ty v)
  emitMarks : ∀ {span : Span} {kind : Source.StmtKind},
    rel false Eq (emitMarks env span kind) (emitMarks env' span kind)
  emitAssertion : ∀ {v : Ir.Expr}, rel false Eq (emitAssertion env v) (emitAssertion env' v)

namespace Correspondence

variable {env env' : Env} (C : Correspondence env env') {tight : Bool}

/-! ## Derived steps -/

theorem andThen {α β α' β' : Type} {R : α' → β' → Prop} {S : α → β → Prop} {x : Lower α}
    {y : Lower β} {f : α → Lower α'} {g : β → Lower β'} (h : C.rel tight S x y)
    (h' : ∀ a b, C.rel tight R (f a) (g b)) : C.rel tight R (x >>= f) (y >>= g) :=
  C.bind h fun a b _ => h' a b

/-- After steps with equal results. -/
theorem bindEq {α α' β' : Type} {R : α' → β' → Prop} {x y : Lower α} {f : α → Lower α'}
    {g : α → Lower β'} (h : C.rel tight Eq x y) (h' : ∀ a, C.rel tight R (f a) (g a)) :
    C.rel tight R (x >>= f) (y >>= g) :=
  C.bind h fun a _ e => e ▸ h' a

theorem lift {α : Type} (x : Except Fault α) : C.rel tight Eq (liftM x : Lower α) (liftM x) := by
  cases x with
  | ok a => exact C.pure rfl
  | error e => exact C.throw

theorem ite {α β : Type} {R : α → β → Prop} {c : Prop} [Decidable c] {x x' : Lower α}
    {y y' : Lower β} (h : C.rel tight R x y) (h' : C.rel tight R x' y') :
    C.rel tight R (if c then x else x') (if c then y else y') := by
  by_cases hc : c
  · rw [if_pos hc, if_pos hc]
    exact h
  · rw [if_neg hc, if_neg hc]
    exact h'

/-- A choice that depends on whether exceptions are modeled. -/
theorem iteModels {α β : Type} {R : α → β → Prop} {x x' : Lower α} {y y' : Lower β}
    (h : C.rel tight R x y) (h' : C.rel tight R x' y') :
    C.rel tight R (if env.options.modelsExceptions then x else x')
      (if env'.options.modelsExceptions then y else y') := by
  rw [C.models]
  exact C.ite h h'

theorem emit {c d : Cmd} (h : Edited C.leaf tight [c] [d]) :
    C.rel tight Eq (Lowering.emit c) (Lowering.emit d) := C.emitAll h

theorem edited_plain {c : Cmd} (hc : c.isPlain) : Edited C.leaf tight [c] [c] :=
  ⟨(Cmd.edit_plain C.leaf_plain hc).symm, fun _ h => nomatch h⟩

/-- A test stays whatever becomes of its branches. -/
theorem edited_ifElse (cond : Ir.Expr) {cs cs' ds ds' : List Cmd}
    (h : cs' = Cmd.edit C.leaf cs) (h' : ds' = Cmd.edit C.leaf ds) :
    Edited C.leaf tight [.ifElse cond cs ds] [.ifElse cond cs' ds'] := by
  refine ⟨?_, fun _ h => nomatch h⟩
  rw [Cmd.edit_ifElse, h, h']

theorem emitPlain {c : Cmd} (hc : c.isPlain) :
    C.rel tight Eq (Lowering.emit c) (Lowering.emit c) := C.emit (C.edited_plain hc)

theorem commandsOf {x y : Lower Unit} (h : C.rel tight Eq x y) {outer : Bool} :
    C.rel outer (Edited C.leaf tight) (Lowering.commandsOf x) (Lowering.commandsOf y) :=
  C.bind (C.buffered h) fun _ _ hab => C.pure hab.2

/-! ## Operations of the context -/

theorem changeContext {f : Context → Context}
    (h : ∀ (cx : Context) (cs : List Cmd), f { cx with cmds := cs } = { f cx with cmds := cs }) :
    C.rel tight Eq (Lowering.changeContext f) (Lowering.changeContext f) :=
  C.withContext (f := fun cx => ((), f cx)) fun cx cs => congrArg (Prod.mk ()) (h cx cs)

theorem declareLocal {name : String} {ty : Ir.Ty} :
    C.rel tight Eq (Lowering.declareLocal name ty) (Lowering.declareLocal name ty) := by
  refine C.changeContext fun cx cs => ?_
  unfold Context.declareLocal
  split
  · rfl
  · rfl

theorem freshLocal {stem : String} {ty : Ir.Ty} :
    C.rel tight Eq (Lowering.freshLocal stem ty) (Lowering.freshLocal stem ty) :=
  C.withContext fun _ _ => rfl

theorem useLabelVar : C.rel tight Eq Lowering.useLabelVar Lowering.useLabelVar :=
  C.andThen (C.changeContext fun _ _ => rfl) fun _ _ => C.pure rfl

theorem enterRegion {node : UInt32} {types : List (Option TypeRef)} :
    C.rel tight Eq (Lowering.enterRegion node types) (Lowering.enterRegion node types) :=
  C.withContext fun _ _ => rfl

theorem oblivious_allot {id : Nat} {slot : Region → Option String}
    {fill : Region → String → Region} {name : String} :
    Oblivious fun cx => cx.allot id slot fill name := by
  intro cx cs
  dsimp only [Context.allot]
  cases cx.regions[id]? with
  | none => rfl
  | some r =>
    dsimp only
    cases slot r <;> rfl

theorem catchLabel {id : Nat} :
    C.rel tight Eq (Lowering.catchLabel id) (Lowering.catchLabel id) :=
  C.withContext oblivious_allot

theorem finallyLabel {id : Nat} :
    C.rel tight Eq (Lowering.finallyLabel id) (Lowering.finallyLabel id) :=
  C.withContext oblivious_allot

theorem continuationLabel {id : Nat} :
    C.rel tight Eq (Lowering.continuationLabel id) (Lowering.continuationLabel id) :=
  C.withContext oblivious_allot

theorem exceptionLocal {id : Nat} :
    C.rel tight Eq (Lowering.exceptionLocal id) (Lowering.exceptionLocal id) := by
  refine C.withContext fun cx cs => ?_
  dsimp only [Context.exceptionLocal]
  cases cx.regions[id]? with
  | none => rfl
  | some r =>
    dsimp only
    cases r.exceptionLocal <;> rfl

theorem addEscapingEdge {id : Nat} :
    C.rel tight Eq (Lowering.addEscapingEdge id) (Lowering.addEscapingEdge id) := by
  refine C.withContext fun cx cs => ?_
  dsimp only [Context.addEscapingEdge, Context.escapingEdges]
  cases cx.regions[id]? <;> rfl

theorem pushPhase {id : Nat} {phase : Phase} :
    C.rel tight Eq (Lowering.pushPhase id phase) (Lowering.pushPhase id phase) :=
  C.andThen C.report fun _ _ => C.changeContext fun _ _ => rfl

theorem popPhase {id : Nat} {phase : Phase} :
    C.rel tight Eq (Lowering.popPhase id phase) (Lowering.popPhase id phase) := by
  refine C.bind C.context fun cx _ hcx => ?_
  obtain ⟨cs, rfl⟩ := hcx
  exact C.andThen (C.changeContext fun _ _ => rfl) fun _ _ => C.ite C.throw (C.pure rfl)

theorem pushOperand {v : Ir.Expr} :
    C.rel tight Eq (Lowering.pushOperand v) (Lowering.pushOperand v) :=
  C.changeContext fun _ _ => rfl

theorem popOperand : C.rel tight Eq Lowering.popOperand Lowering.popOperand := by
  refine C.bind C.context fun cx _ hcx => ?_
  obtain ⟨cs, rfl⟩ := hcx
  dsimp only
  cases cx.operands with
  | nil => exact C.throw
  | cons v rest => exact C.andThen (C.changeContext fun _ _ => rfl) fun _ _ => C.pure rfl

/-! ## Leaving regions -/

theorem leaveNormally {region : Nat} :
    C.rel tight Eq (Lowering.leaveNormally region) (Lowering.leaveNormally region) := by
  refine C.bindEq C.useLabelVar fun label => ?_
  refine C.andThen (C.emitPlain rfl) fun _ _ => ?_
  exact C.bindEq C.finallyLabel fun l => C.emitPlain rfl

theorem propagate : C.rel false Eq (Lowering.propagate env) (Lowering.propagate env') := by
  refine C.bind C.context fun cx _ hcx => ?_
  obtain ⟨cs, rfl⟩ := hcx
  dsimp only
  cases cx.stack.head? with
  | none => exact C.andThen C.record fun _ _ => C.emitPlain rfl
  | some entry =>
    obtain ⟨region, phase⟩ := entry
    cases phase with
    | inTry => exact C.bindEq C.catchLabel fun _ => C.emitPlain rfl
    | inCatch =>
      refine C.bindEq C.useLabelVar fun label => ?_
      refine C.andThen (C.emitPlain rfl) fun _ _ => ?_
      exact C.bindEq C.finallyLabel fun _ => C.emitPlain rfl
    | inFinally => exact C.bindEq C.continuationLabel fun _ => C.emitPlain rfl

/-- The test whether an exception is pending is never edited away. -/
theorem propagateIfAny :
    C.rel tight Eq (Lowering.propagateIfAny env) (Lowering.propagateIfAny env') :=
  C.bind (C.commandsOf C.propagate) fun _ _ h => C.emit (C.edited_ifElse _ h.1 rfl)

/-! ## Expressions -/

theorem valueOf {e : Expr} {x y : Lower (Option Ir.Expr)} (h : C.rel tight Eq x y) :
    C.rel tight Eq (Lowering.valueOf e x) (Lowering.valueOf e y) := by
  refine C.bindEq h fun r => ?_
  cases r with
  | some v => exact C.pure rfl
  | none => exact C.throw

theorem conditionOf {e : Expr} {x y : Lower (Option Ir.Expr)} (h : C.rel tight Eq x y) :
    C.rel tight Eq (Lowering.conditionOf e x) (Lowering.conditionOf e y) :=
  C.bindEq (C.valueOf h) fun _ => C.lift _

theorem alloc {type : TypeRef} : C.rel tight Eq (Lowering.alloc type) (Lowering.alloc type) :=
  C.bindEq C.freshLocal fun _ => C.andThen (C.emitPlain rfl) fun _ _ => C.pure rfl

theorem emitCall {method : MethodRef} {args : List Ir.Expr} {outs : List String} :
    C.rel tight Eq (Lowering.emitCall env method args outs)
      (Lowering.emitCall env' method args outs) :=
  C.andThen (C.emitPlain rfl) fun _ _ => C.iteModels C.propagateIfAny (C.pure rfl)

theorem finishCall {method : MethodRef} {args : List Ir.Expr} {ty : Ty} :
    C.rel tight Eq (Lowering.finishCall env method args ty)
      (Lowering.finishCall env' method args ty) := by
  refine C.ite (C.andThen C.emitCall fun _ _ => C.pure rfl) ?_
  exact C.bindEq (C.lift _) fun _ => C.bindEq C.freshLocal fun _ =>
    C.andThen C.emitCall fun _ _ => C.pure rfl

theorem finishNew {type : TypeRef} {ctor : Option MethodRef} {args : List Ir.Expr} :
    C.rel tight Eq (Lowering.finishNew env type ctor args)
      (Lowering.finishNew env' type ctor args) := by
  refine C.bindEq C.alloc fun object => ?_
  cases ctor with
  | some method => exact C.andThen C.emitCall fun _ _ => C.pure rfl
  | none => exact C.pure rfl

/-- Whether the right operand needs commands is the same on both sides. -/
theorem finishBinary {op : BinOp} {lhs : Expr} {left right : Ir.Expr} {cs ds : List Cmd}
    (h : Edited C.leaf true cs ds) :
    C.rel true Eq (Lowering.finishBinary op lhs left right cs)
      (Lowering.finishBinary op lhs left right ds) := by
  unfold Lowering.finishBinary
  rw [h.isEmpty_eq]
  refine C.ite (C.pure rfl) ?_
  have hbool : ∀ guard : String → Ir.Expr, C.rel true Eq
      (do let tmp ← Lowering.freshLocal "tmp" .bool
          Lowering.emit (.set tmp left)
          Lowering.emit (.ifThen (guard tmp) (cs ++ [Ir.Cmd.set tmp right]))
          return Ir.Expr.ident tmp)
      (do let tmp ← Lowering.freshLocal "tmp" .bool
          Lowering.emit (.set tmp left)
          Lowering.emit (.ifThen (guard tmp) (ds ++ [Ir.Cmd.set tmp right]))
          return Ir.Expr.ident tmp) := by
    intro guard
    refine C.bindEq C.freshLocal fun tmp => C.andThen (C.emitPlain rfl) fun _ _ => ?_
    refine C.andThen (C.emit ?_) fun _ _ => C.pure rfl
    exact C.edited_ifElse _ (h.append (C.edited_plain rfl)).1 rfl
  cases op with
  | and => exact hbool fun tmp => .ident tmp
  | or => exact hbool fun tmp => .not (.ident tmp)
  | _ =>
    refine C.bindEq (C.lift _) fun _ => C.bindEq C.freshLocal fun tmp => ?_
    exact C.andThen (C.emitPlain rfl) fun _ _ => C.andThen (C.emitAll h) fun _ _ => C.pure rfl

theorem finishConditional {ty : Ty} {span : Span} {cond v w : Ir.Expr} {cs cs' ds ds' : List Cmd}
    (h : Edited C.leaf true cs cs') (h' : Edited C.leaf true ds ds') :
    C.rel true Eq (Lowering.finishConditional ty span cond (v, cs) (w, ds))
      (Lowering.finishConditional ty span cond (v, cs') (w, ds')) := by
  unfold Lowering.finishConditional
  dsimp only
  rw [h.isEmpty_eq, h'.isEmpty_eq]
  refine C.ite (C.pure rfl) (C.bindEq (C.lift _) fun _ => C.bindEq C.freshLocal fun tmp => ?_)
  refine C.andThen (C.emit ?_) fun _ _ => C.pure rfl
  exact C.edited_ifElse _ (h.append (C.edited_plain rfl)).1
    (h'.append (C.edited_plain rfl)).1

theorem defaultValue {ty : Ty} {span : Span} :
    C.rel tight Eq (Lowering.defaultValue env ty span) (Lowering.defaultValue env' ty span) := by
  unfold Lowering.defaultValue
  cases ty with
  | void => exact C.throw
  | bool | int => exact C.pure rfl
  | named t =>
    dsimp only
    rw [C.isStruct]
    exact C.ite C.alloc (C.pure rfl)

mutual

/-- The two lowerings of an expression correspond, and no command of one is missing in the other. -/
theorem lowerExpr (e : Expr) (compound : Bool) :
    C.rel true Eq (Lowering.lowerExpr env e compound) (Lowering.lowerExpr env' e compound) := by
  obtain ⟨id, span, ty, kind⟩ := e
  cases kind with
  | literal lit =>
    rw [Lowering.lowerExpr, Lowering.lowerExpr, Lowering.literal.eq_def, Lowering.literal.eq_def,
      C.literal]
    exact C.pure rfl
  | var | self | typeOf =>
    rw [Lowering.lowerExpr, Lowering.lowerExpr]
    exact C.pure rfl
  | field object field =>
    cases object with
    | none =>
      rw [Lowering.lowerExpr, Lowering.lowerExpr]
      exact C.pure rfl
    | some object =>
      rw [Lowering.lowerExpr, Lowering.lowerExpr]
      exact C.bindEq (C.valueOf (lowerExpr object false)) fun _ => C.pure rfl
  | unary op operand | getType operand | conversion operand newTy =>
    rw [Lowering.lowerExpr, Lowering.lowerExpr]
    exact C.bindEq (C.valueOf (lowerExpr operand false)) fun _ => C.pure rfl
  | binary op lhs rhs =>
    by_cases htar : lhs.isTarget
    · obtain ⟨i, sp, t, lhsKind⟩ := lhs
      cases lhsKind with
      | target target =>
        rw [Lowering.lowerExpr, Lowering.lowerExpr]
        have hrest : C.rel true Eq
            (do let current ← Lowering.readTarget env target
                let rhs ← Lowering.valueOf rhs (Lowering.lowerExpr env rhs false)
                Lowering.writeTarget env target (.binary (binOp op) current rhs)
                return some (← Lowering.readTarget env target))
            (do let current ← Lowering.readTarget env' target
                let rhs ← Lowering.valueOf rhs (Lowering.lowerExpr env' rhs false)
                Lowering.writeTarget env' target (.binary (binOp op) current rhs)
                return some (← Lowering.readTarget env' target)) := by
          refine C.bindEq (readTarget target) fun _ => ?_
          refine C.bindEq (C.valueOf (lowerExpr rhs false)) fun _ => ?_
          exact C.andThen (writeTarget target _) fun _ _ =>
            C.bindEq (readTarget target) fun _ => C.pure rfl
        exact C.ite hrest (C.andThen (S := Eq) C.throw fun _ _ => hrest)
      | _ => cases htar
    · rw [Bool.not_eq_true] at htar
      rw [lowerExpr_binary env htar, lowerExpr_binary env' htar]
      refine C.bindEq (C.valueOf (lowerExpr lhs false)) fun left => ?_
      refine C.bind (C.buffered (C.valueOf (lowerExpr rhs false))) ?_
      rintro ⟨right, cs⟩ ⟨_, ds⟩ ⟨rfl, hcs⟩
      exact C.bindEq (C.finishBinary hcs) fun _ => C.pure rfl
  | conditional cond thenExpr elseExpr =>
    rw [Lowering.lowerExpr, Lowering.lowerExpr]
    refine C.bindEq (C.conditionOf (lowerExpr cond false)) fun _ => ?_
    refine C.bind (C.buffered (C.valueOf (lowerExpr thenExpr false))) ?_
    rintro ⟨v, cs⟩ ⟨_, cs'⟩ ⟨rfl, hcs⟩
    refine C.bind (C.buffered (C.valueOf (lowerExpr elseExpr false))) ?_
    rintro ⟨w, ds⟩ ⟨_, ds'⟩ ⟨rfl, hds⟩
    exact C.bindEq (C.finishConditional hcs hds) fun _ => C.pure rfl
  | assign target value =>
    rw [Lowering.lowerExpr, Lowering.lowerExpr]
    refine C.bindEq (C.valueOf (lowerExpr value false)) fun _ => ?_
    exact C.andThen (writeTarget target _) fun _ _ =>
      C.bindEq (readTarget target) fun _ => C.pure rfl
  | target target =>
    rw [Lowering.lowerExpr, Lowering.lowerExpr]
    exact C.bindEq (readTarget target) fun _ => C.pure rfl
  | call call =>
    obtain ⟨method, receiver, args, isVirtual⟩ := call
    rw [Lowering.lowerExpr, Lowering.lowerExpr]
    exact C.bindEq (lowerOption receiver) fun _ => C.bindEq (lowerArgs args) fun _ =>
      C.finishCall
  | new type ctor args =>
    rw [Lowering.lowerExpr, Lowering.lowerExpr]
    exact C.bindEq (lowerArgs args) fun _ => C.bindEq C.finishNew fun _ => C.pure rfl
  | defaultValue valueTy =>
    rw [Lowering.lowerExpr, Lowering.lowerExpr]
    exact C.bindEq C.defaultValue fun _ => C.pure rfl
  | pop =>
    rw [Lowering.lowerExpr, Lowering.lowerExpr]
    exact C.bindEq C.popOperand fun _ => C.pure rfl

theorem readTarget (t : Target) :
    C.rel true Eq (Lowering.readTarget env t) (Lowering.readTarget env' t) := by
  cases t with
  | var name =>
    rw [Lowering.readTarget, Lowering.readTarget]
    exact C.pure rfl
  | field object field =>
    cases object with
    | none =>
      rw [Lowering.readTarget, Lowering.readTarget]
      exact C.pure rfl
    | some object =>
      rw [Lowering.readTarget, Lowering.readTarget]
      exact C.bindEq (C.valueOf (lowerExpr object false)) fun _ => C.pure rfl

theorem writeTarget (t : Target) (v : Ir.Expr) :
    C.rel true Eq (Lowering.writeTarget env t v) (Lowering.writeTarget env' t v) := by
  cases t with
  | var name =>
    rw [Lowering.writeTarget, Lowering.writeTarget]
    exact C.emitPlain rfl
  | field object field =>
    cases object with
    | none =>
      rw [Lowering.writeTarget, Lowering.writeTarget]
      exact C.emitPlain rfl
    | some object =>
      rw [Lowering.writeTarget, Lowering.writeTarget]
      exact C.bindEq (C.valueOf (lowerExpr object false)) fun _ => C.emitPlain rfl

theorem lowerOption (e : Option Expr) :
    C.rel true Eq (Lowering.lowerOption env e) (Lowering.lowerOption env' e) := by
  cases e with
  | none =>
    rw [Lowering.lowerOption, Lowering.lowerOption]
    exact C.pure rfl
  | some e =>
    rw [Lowering.lowerOption, Lowering.lowerOption]
    exact C.bindEq (C.valueOf (lowerExpr e false)) fun _ => C.pure rfl

theorem lowerArgs (es : List Expr) :
    C.rel true Eq (Lowering.lowerArgs env es) (Lowering.lowerArgs env' es) := by
  cases es with
  | nil =>
    rw [Lowering.lowerArgs, Lowering.lowerArgs]
    exact C.pure rfl
  | cons e es =>
    rw [Lowering.lowerArgs, Lowering.lowerArgs]
    exact C.bindEq (C.valueOf (lowerExpr e false)) fun _ =>
      C.bindEq (lowerArgs es) fun _ => C.pure rfl

end

theorem value (e : Expr) : C.rel false Eq (Lowering.value env e) (Lowering.value env' e) :=
  C.valueOf (C.loosen (C.lowerExpr e false))

theorem condition (e : Expr) :
    C.rel false Eq (Lowering.condition env e) (Lowering.condition env' e) :=
  C.conditionOf (C.loosen (C.lowerExpr e false))

/-! ## Statements -/

theorem lowerReturn {span : Span} {e : Option Expr} :
    C.rel false Eq (Lowering.lowerReturn env span e) (Lowering.lowerReturn env' span e) := by
  cases e with
  | none => exact C.emitPlain rfl
  | some e =>
    refine C.bindEq (C.value e) fun v => C.bind C.context fun cx _ hcx => ?_
    obtain ⟨cs, rfl⟩ := hcx
    dsimp only
    cases cx.returnVar with
    | none => exact C.andThen (S := Eq) C.throw fun _ _ => C.emitPlain rfl
    | some slot =>
      exact C.bindEq (C.lift _) fun _ => C.andThen C.record fun _ _ =>
        C.andThen (C.emitPlain rfl) fun _ _ => C.emitPlain rfl

theorem lowerLocalDecl {decl : Variable} {init : Option Expr} :
    C.rel false Eq (Lowering.lowerLocalDecl env decl init)
      (Lowering.lowerLocalDecl env' decl init) := by
  unfold Lowering.lowerLocalDecl
  rw [C.isStruct]
  refine C.bindEq (C.lift _) fun ty => C.andThen C.declareLocal fun _ _ => C.ite ?_ ?_
  · split
    · exact C.bindEq C.structCopy fun _ => C.bindEq (C.value _) fun _ => C.emitPlain rfl
    · exact C.bindEq (C.value _) fun _ => C.emitPlain rfl
  · cases init with
    | none => exact C.pure rfl
    | some e =>
      exact C.bindEq (C.value e) fun _ => C.andThen C.record fun _ _ => C.emitPlain rfl

theorem lowerThrow {e : Expr} :
    C.rel false Eq (Lowering.lowerThrow env e) (Lowering.lowerThrow env' e) := by
  refine C.iteModels ?_ (C.emitPlain rfl)
  exact C.bindEq (C.value e) fun _ => C.andThen C.record fun _ _ =>
    C.andThen (C.emitPlain rfl) fun _ _ => C.propagate

theorem lowerRethrow {span : Span} :
    C.rel false Eq (Lowering.lowerRethrow env span) (Lowering.lowerRethrow env' span) := by
  refine C.iteModels (C.bind C.context fun cx _ hcx => ?_) (C.emitPlain rfl)
  obtain ⟨cs, rfl⟩ := hcx
  have hcatch : ({ cx with cmds := cs } : Context).innermostCatch? = cx.innermostCatch? := rfl
  rw [hcatch]
  cases cx.innermostCatch? with
  | none => exact C.throw
  | some region =>
    exact C.bindEq C.exceptionLocal fun _ => C.andThen C.record fun _ _ =>
      C.andThen (C.emitPlain rfl) fun _ _ => C.propagate

theorem escape {target : String} {span : Span} (entries : List Entry) :
    C.rel tight Eq (Lowering.escape target span entries)
      (Lowering.escape target span entries) := by
  induction entries with
  | nil =>
    rw [Lowering.escape]
    exact C.pure rfl
  | cons entry entries ih =>
    obtain ⟨region, phase⟩ := entry
    cases phase with
    | inFinally =>
      rw [Lowering.escape]
      exact C.throw
    | _ =>
      rw [Lowering.escape]
      · refine C.bindEq C.addEscapingEdge fun _ => C.bindEq C.useLabelVar fun _ => ?_
        refine C.andThen (C.emitPlain rfl) fun _ _ => C.bindEq C.finallyLabel fun _ => ?_
        exact C.andThen (C.emitPlain rfl) fun _ _ => C.andThen (C.emitPlain rfl) fun _ _ => ih
      · nofun

theorem lowerGoto {target : String} {span : Span} :
    C.rel false Eq (Lowering.lowerGoto env target span) (Lowering.lowerGoto env' target span) := by
  refine C.bind C.context fun cx _ hcx => ?_
  obtain ⟨cs, rfl⟩ := hcx
  have hdepth : sharedDepth env' { cx with cmds := cs } target = sharedDepth env cx target := by
    simp only [sharedDepth, C.models]
    rfl
  rw [hdepth]
  exact C.bindEq (C.lift _) fun _ => C.andThen (C.escape _) fun _ _ => C.emitPlain rfl

theorem bindCaught {caught : String} {span : Span} {binding : Option Variable} :
    C.rel false Eq (Lowering.bindCaught env caught span binding)
      (Lowering.bindCaught env' caught span binding) := by
  cases binding with
  | none => exact C.pure rfl
  | some v =>
    exact C.bindEq (C.lift _) fun _ => C.andThen C.declareLocal fun _ _ =>
      C.andThen C.record fun _ _ => C.emitPlain rfl

theorem takeException {region : Nat} :
    C.rel tight Eq (Lowering.takeException region) (Lowering.takeException region) :=
  C.bindEq C.catchLabel fun _ => C.andThen (C.emitPlain rfl) fun _ _ =>
    C.bindEq C.exceptionLocal fun _ => C.andThen (C.emitPlain rfl) fun _ _ =>
      C.andThen (C.emitPlain rfl) fun _ _ => C.pure rfl

/-- The clauses of a region with their commands edited. -/
def EditedArms (arms arms' : List (Ir.Expr × List Cmd)) : Prop :=
  arms' = arms.map fun arm => (arm.1, Cmd.edit C.leaf arm.2)

theorem edited_catchTests {arms arms' : List (Ir.Expr × List Cmd)} (h : C.EditedArms arms arms') :
    Edited C.leaf false (catchTests arms).toList (catchTests arms').toList := by
  refine ⟨?_, nofun⟩
  subst h
  -- the tests nested so far on both sides
  have hfold : ∀ inner inner' : Option Cmd, inner'.toList = Cmd.edit C.leaf inner.toList →
      (List.foldl (fun inner (arm : Ir.Expr × List Cmd) =>
          some (Cmd.ifElse arm.1 arm.2 inner.toList)) inner'
          (arms.map fun arm => (arm.1, Cmd.edit C.leaf arm.2))).toList =
        Cmd.edit C.leaf (List.foldl (fun inner (arm : Ir.Expr × List Cmd) =>
          some (Cmd.ifElse arm.1 arm.2 inner.toList)) inner arms).toList := by
    induction arms with
    | nil => exact fun _ _ h => h
    | cons arm arms ih =>
      intro inner inner' hi
      rw [List.map_cons, List.foldl_cons, List.foldl_cons]
      refine ih _ _ ?_
      rw [Option.toList_some, Option.toList_some, Cmd.edit_ifElse, hi]
  exact hfold none none rfl

theorem finishCatches {caught : String} {arms arms' : List (Ir.Expr × List Cmd)}
    (h : C.EditedArms arms arms') :
    C.rel false Eq (Lowering.finishCatches env caught arms)
      (Lowering.finishCatches env' caught arms') :=
  C.andThen (C.emitAll (C.edited_catchTests h)) fun _ _ =>
    C.andThen (C.emitPlain rfl) fun _ _ => C.propagate

theorem saveForFinally :
    C.rel tight Eq Lowering.saveForFinally Lowering.saveForFinally :=
  C.bindEq C.useLabelVar fun _ => C.bindEq C.freshLocal fun _ => C.bindEq C.freshLocal fun _ =>
    C.andThen (C.emitPlain rfl) fun _ _ => C.andThen (C.emitPlain rfl) fun _ _ =>
      C.andThen (C.emitPlain rfl) fun _ _ => C.pure rfl

theorem restoreAfterFinally {x y : String} :
    C.rel tight Eq (Lowering.restoreAfterFinally x y) (Lowering.restoreAfterFinally x y) :=
  C.andThen (C.emitPlain rfl) fun _ _ => C.emitPlain rfl

theorem edited_resumeTests {label : String} (edges : List EscapingEdge) :
    Edited C.leaf tight (resumeTests label edges) (resumeTests label edges) := by
  induction edges with
  | nil => exact C.edited_plain rfl
  | cons edge edges ih =>
    exact C.edited_ifElse _ (Cmd.edit_plain C.leaf_plain rfl).symm ih.1

theorem finishRegion {region : Nat} :
    C.rel false Eq (Lowering.finishRegion env region) (Lowering.finishRegion env' region) := by
  have hdispatch : C.rel false Eq (dispatchContinuation region) (dispatchContinuation region) := by
    refine C.bindEq C.continuationLabel fun label => C.bind C.context fun cx _ hcx => ?_
    obtain ⟨cs, rfl⟩ := hcx
    exact C.ite (C.emitAll (C.edited_resumeTests _))
      (C.andThen C.useLabelVar fun _ _ => C.emitAll (C.edited_resumeTests _))
  exact C.andThen hdispatch fun _ _ => C.bindEq C.continuationLabel fun _ =>
    C.andThen (C.emitPlain rfl) fun _ _ => C.propagateIfAny

/-- Chains of tests that correspond. -/
def EditedChain : Option Cmd → Option Cmd → Prop :=
  Option.Rel fun c d => Edited C.leaf false [c] [d]

theorem edited_caseTest {v w : Ir.Expr} {cs cs' ds ds' : List Cmd} {chain chain' : Option Cmd}
    (hc : Edited C.leaf false cs cs') (hd : Edited C.leaf false ds ds')
    (h : C.EditedChain chain chain') :
    Edited C.leaf false [caseTest v w cs chain ds] [caseTest v w cs' chain' ds'] := by
  cases h with
  | some h => exact C.edited_ifElse _ hc.1 h.1
  | none => exact C.edited_ifElse _ hc.1 hd.1

mutual

/-- The two lowerings of a statement correspond. -/
theorem lowerStmt (s : Stmt) :
    C.rel false Eq (Lowering.lowerStmt env s) (Lowering.lowerStmt env' s) := by
  obtain ⟨id, span, kind⟩ := s
  have hmarked : ∀ {x y : Lower Unit}, C.rel false Eq x y →
      C.rel false Eq (do Lowering.emitMarks env span kind; x)
        (do Lowering.emitMarks env' span kind; y) := fun h => C.andThen C.emitMarks fun _ _ => h
  cases kind with
  | block stmts =>
    rw [Lowering.lowerStmt, Lowering.lowerStmt]
    exact hmarked (lowerStmts stmts)
  | empty =>
    rw [Lowering.lowerStmt, Lowering.lowerStmt]
    exact hmarked (C.pure rfl)
  | assert cond =>
    rw [Lowering.lowerStmt, Lowering.lowerStmt]
    exact hmarked (C.bindEq (C.condition cond) fun _ => C.emitAssertion)
  | assume cond =>
    rw [Lowering.lowerStmt, Lowering.lowerStmt]
    exact hmarked (C.bindEq (C.condition cond) fun _ => C.emitPlain rfl)
  | conditional cond thenBranch elseBranch =>
    rw [Lowering.lowerStmt, Lowering.lowerStmt]
    refine hmarked (C.bindEq (C.condition cond) fun v => ?_)
    refine C.bind (C.commandsOf (C.andThen C.breadcrumb fun _ _ => lowerStmt thenBranch))
      fun cs cs' hcs => ?_
    refine C.bind (C.commandsOf (C.andThen C.breadcrumb fun _ _ => lowerStmt elseBranch))
      fun ds ds' hds => ?_
    exact C.emit (C.edited_ifElse v hcs.1 hds.1)
  | expression e =>
    rw [Lowering.lowerStmt, Lowering.lowerStmt]
    exact hmarked (C.andThen (C.loosen (C.lowerExpr e _)) fun _ _ => C.pure rfl)
  | breakLoop | continueLoop | whileLoop | doUntil | forLoop | forEach =>
    simp only [Lowering.lowerStmt]
    exact hmarked C.throw
  | switch scrutinee cases =>
    rw [Lowering.lowerStmt, Lowering.lowerStmt]
    refine hmarked (C.bindEq (C.value scrutinee) fun v => ?_)
    refine C.bind (lowerDefault cases) fun ds ds' hds => ?_
    refine C.bind (lowerCases cases hds) fun chain chain' hchain => ?_
    cases hchain with
    | some h => exact C.emit h
    | none => exact C.emitAll hds
  | localDecl decl init =>
    rw [Lowering.lowerStmt, Lowering.lowerStmt]
    exact hmarked C.lowerLocalDecl
  | ret value =>
    rw [Lowering.lowerStmt, Lowering.lowerStmt]
    exact hmarked C.lowerReturn
  | goto label =>
    rw [Lowering.lowerStmt, Lowering.lowerStmt]
    exact hmarked C.lowerGoto
  | labeled label body =>
    rw [Lowering.lowerStmt, Lowering.lowerStmt]
    exact hmarked (C.andThen (C.emitPlain rfl) fun _ _ => lowerStmt body)
  | tryCatch body catches finalizer =>
    rw [Lowering.lowerStmt, Lowering.lowerStmt]
    refine hmarked (C.iteModels ?_ ?_)
    · refine C.bindEq C.enterRegion fun region => C.andThen C.pushPhase fun _ _ => ?_
      refine C.andThen (lowerStmt body) fun _ _ => C.andThen C.leaveNormally fun _ _ => ?_
      refine C.andThen C.popPhase fun _ _ => C.bindEq C.takeException fun caught => ?_
      refine C.andThen C.pushPhase fun _ _ => C.bind (lowerCatches catches) fun _ _ harms => ?_
      refine C.andThen (C.finishCatches harms) fun _ _ => C.andThen C.popPhase fun _ _ => ?_
      refine C.bindEq C.finallyLabel fun _ => C.andThen (C.emitPlain rfl) fun _ _ => ?_
      exact C.andThen (lowerFinally finalizer) fun _ _ => C.finishRegion
    · exact C.andThen (lowerStmt body) fun _ _ => lowerOptional finalizer
  | throw e =>
    rw [Lowering.lowerStmt, Lowering.lowerStmt]
    exact hmarked C.lowerThrow
  | rethrow =>
    rw [Lowering.lowerStmt, Lowering.lowerStmt]
    exact hmarked C.lowerRethrow
  | push e =>
    rw [Lowering.lowerStmt, Lowering.lowerStmt]
    exact hmarked (C.bindEq (C.value e) fun _ => C.pushOperand)

theorem lowerStmts (ss : List Stmt) :
    C.rel false Eq (Lowering.lowerStmts env ss) (Lowering.lowerStmts env' ss) := by
  cases ss with
  | nil =>
    rw [Lowering.lowerStmts, Lowering.lowerStmts]
    exact C.pure rfl
  | cons s ss =>
    rw [Lowering.lowerStmts, Lowering.lowerStmts]
    exact C.andThen (lowerStmt s) fun _ _ => lowerStmts ss

theorem lowerOptional (s : Option Stmt) :
    C.rel false Eq (Lowering.lowerOptional env s) (Lowering.lowerOptional env' s) := by
  cases s with
  | none =>
    rw [Lowering.lowerOptional, Lowering.lowerOptional]
    exact C.pure rfl
  | some s =>
    rw [Lowering.lowerOptional, Lowering.lowerOptional]
    exact lowerStmt s

theorem lowerFinally {region : Nat} (s : Option Stmt) :
    C.rel false Eq (Lowering.lowerFinally env region s) (Lowering.lowerFinally env' region s) := by
  cases s with
  | none =>
    rw [Lowering.lowerFinally, Lowering.lowerFinally]
    exact C.pure rfl
  | some s =>
    rw [Lowering.lowerFinally, Lowering.lowerFinally]
    exact C.andThen C.pushPhase fun _ _ => C.bindEq C.saveForFinally fun _ =>
      C.andThen (lowerStmt s) fun _ _ => C.andThen C.restoreAfterFinally fun _ _ => C.popPhase

theorem lowerCatches {region : Nat} {caught : String} (clauses : List CatchClause) :
    C.rel false C.EditedArms (Lowering.lowerCatches env region caught clauses)
      (Lowering.lowerCatches env' region caught clauses) := by
  cases clauses with
  | nil =>
    rw [Lowering.lowerCatches, Lowering.lowerCatches]
    exact C.pure rfl
  | cons clause clauses =>
    obtain ⟨span, type, binding, body⟩ := clause
    rw [Lowering.lowerCatches, Lowering.lowerCatches]
    refine C.bind (C.commandsOf (C.andThen C.bindCaught fun _ _ =>
      C.andThen (lowerStmt body) fun _ _ => C.leaveNormally)) fun cs cs' hcs => ?_
    refine C.bind (lowerCatches clauses) fun arms arms' harms => C.pure ?_
    rw [EditedArms, List.map_cons, hcs.1, harms]

theorem lowerDefault (cases : List SwitchCase) :
    C.rel false (Edited C.leaf false) (Lowering.lowerDefault env cases)
      (Lowering.lowerDefault env' cases) := by
  cases cases with
  | nil =>
    rw [Lowering.lowerDefault, Lowering.lowerDefault]
    exact C.pure .nil
  | cons case cases =>
    obtain ⟨span, value, body⟩ := case
    rw [Lowering.lowerDefault, Lowering.lowerDefault]
    exact C.ite (lowerDefault cases) (C.commandsOf (lowerStmts body))

theorem lowerCases {v : Ir.Expr} {ds ds' : List Cmd} (cases : List SwitchCase)
    (hds : Edited C.leaf false ds ds') :
    C.rel false C.EditedChain (Lowering.lowerCases env v ds cases)
      (Lowering.lowerCases env' v ds' cases) := by
  cases cases with
  | nil =>
    rw [Lowering.lowerCases, Lowering.lowerCases]
    exact C.pure .none
  | cons case cases =>
    obtain ⟨span, value, body⟩ := case
    rw [Lowering.lowerCases, Lowering.lowerCases]
    refine C.bind (lowerCases cases hds) fun chain chain' hchain => ?_
    cases value with
    | none => exact C.pure hchain
    | some e =>
      refine C.bindEq (C.value e) fun w => ?_
      refine C.bind (C.commandsOf (lowerStmts body)) fun cs cs' hcs => C.pure ?_
      exact .some (C.edited_caseTest hcs hds hchain)

end

end Correspondence

end Unwind.Lowering
