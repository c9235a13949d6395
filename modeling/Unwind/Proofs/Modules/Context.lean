import Unwind.Proofs.Modules.Erasure
import Unwind.Proofs.Modules.Steps

/-!
# The state of a lowering without modules

Two parts of the state of a lowering hold references to types: the regions know the types of their
catch clauses, and the registry finds the procedure that copies a struct by the type of the struct.
Neither shows in what the operations of the lowering do: every one of them does the same on a state
without modules (`Forgets`).
-/

namespace Unwind

open Source (TypeRef)

/-- The registry without modules in its keys. -/
def Registry.unqualified (r : Registry) : Registry :=
  { r with structCopies := ⟨r.structCopies.entries.map fun e => (e.1.unqualified, e.2)⟩ }

namespace Registry

/-- A struct is found by its name. -/
theorem structCopy_unqualified (r : Registry) (type : TypeRef) :
    r.unqualified.structCopy type.unqualified =
      ((r.structCopy type).1, (r.structCopy type).2.unqualified) := by
  -- keys are compared by names, so that the same entry is found or missed
  have hget : r.unqualified.structCopies.get? type.unqualified = r.structCopies.get? type := by
    simp only [unqualified, Memo.get?, List.find?_map, Option.map_map, Function.comp_def]
    rfl
  simp only [structCopy, Memo.getOrInsertWith, hget]
  cases r.structCopies.get? type with
  | some proc => rfl
  | none =>
    simp only [unqualified, List.map_append]
    rfl

theorem helpers_unqualified (r : Registry) : r.unqualified.helpers = r.helpers := by
  simp only [helpers, unqualified, Memo.valuesSorted, List.map_map, Function.comp_def]

end Registry

namespace Lowering

open Ir (Cmd)

/-! ## Contexts -/

/-- The region without the modules of its catch types. -/
def Region.unqualified (r : Region) : Region :=
  { r with catchTypes := r.catchTypes.map (Option.map TypeRef.unqualified) }

/-- The context without the modules of its catch types. -/
def Context.unqualified (cx : Context) : Context :=
  { cx with regions := cx.regions.map Region.unqualified }

namespace Context

variable (cx : Context)

theorem getElem?_unqualified (id : Nat) :
    cx.unqualified.regions[id]? = cx.regions[id]?.map Region.unqualified := List.getElem?_map

theorem setRegion_unqualified (id : Nat) (r : Region) :
    cx.unqualified.setRegion id r.unqualified = (cx.setRegion id r).unqualified := by
  simp only [setRegion, unqualified, List.map_set]

theorem enterRegion_unqualified (node : UInt32) (types : List (Option TypeRef)) :
    cx.unqualified.enterRegion node (types.map (Option.map TypeRef.unqualified)) =
      ((cx.enterRegion node types).1, (cx.enterRegion node types).2.unqualified) := by
  simp only [enterRegion, unqualified, List.length_map, List.map_append]
  rfl

theorem allot_unqualified (id : Nat) {slot : Region → Option String}
    {fill : Region → String → Region} (name : String)
    (hslot : ∀ r : Region, slot r.unqualified = slot r)
    (hfill : ∀ (r : Region) l, fill r.unqualified l = (fill r l).unqualified) :
    cx.unqualified.allot id slot fill name =
      ((cx.allot id slot fill name).1, (cx.allot id slot fill name).2.unqualified) := by
  simp only [allot, getElem?_unqualified]
  cases cx.regions[id]? with
  | none => rfl
  | some r =>
    simp only [Option.map_some, hslot, hfill]
    cases slot r with
    | some taken => rfl
    | none => exact congrArg (Prod.mk name) (setRegion_unqualified cx id (fill r name))

theorem exceptionLocal_unqualified (id : Nat) :
    cx.unqualified.exceptionLocal id =
      ((cx.exceptionLocal id).1, (cx.exceptionLocal id).2.unqualified) := by
  simp only [exceptionLocal, getElem?_unqualified]
  cases cx.regions[id]? with
  | none => rfl
  | some r =>
    simp only [Option.map_some, Region.unqualified]
    cases r.exceptionLocal with
    | some taken => rfl
    | none =>
      simp only [setRegion, unqualified, List.map_set]
      rfl

theorem escapingEdges_unqualified (id : Nat) :
    cx.unqualified.escapingEdges id = cx.escapingEdges id := by
  simp only [escapingEdges, getElem?_unqualified]
  cases cx.regions[id]? <;> rfl

theorem addEscapingEdge_unqualified (id : Nat) :
    cx.unqualified.addEscapingEdge id =
      ((cx.addEscapingEdge id).1, (cx.addEscapingEdge id).2.unqualified) := by
  simp only [addEscapingEdge, escapingEdges_unqualified, getElem?_unqualified]
  cases cx.regions[id]? with
  | none => rfl
  | some r =>
    simp only [Option.map_some, setRegion, unqualified, List.map_set]
    rfl

theorem position?_unqualified (node : UInt32) :
    cx.unqualified.position? node = cx.position? node := by
  unfold position?
  congr 1
  funext e
  rw [getElem?_unqualified]
  cases cx.regions[e.region]? <;> rfl

end Context

/-! ## Steps -/

/-- What all bodies share, without modules. -/
def Shared.unqualified (s : Shared) : Shared := { s with registry := s.registry.unqualified }

/-- The state of a body without modules. -/
def State.unqualified (s : State) : State := ⟨s.toContext.unqualified, s.toShared.unqualified⟩

/-- On a state without modules, the step `y` does what `x` does on the state itself. -/
def Forgets {α : Type} (x y : Lower α) : Prop := Erases State.unqualified id x y

namespace Forgets

variable {α β : Type} {x y : Lower α}

theorem pure {a : α} : Forgets (Pure.pure a) (Pure.pure a) := Erases.pure rfl

theorem throw {e : Fault} :
    Forgets (MonadExcept.throw e : Lower α) (MonadExcept.throw e) := Erases.throw

theorem bind {k k' : α → Lower β} (h : Forgets x y) (hk : ∀ a, Forgets (k a) (k' a)) :
    Forgets (x >>= k) (y >>= k') :=
  Erases.bind h hk

theorem lift (a : Except Fault α) : Forgets (liftM a : Lower α) (liftM a) := Erases.liftSame a

theorem ite {c : Prop} [Decidable c] {x' y' : Lower α} (h : Forgets x y) (h' : Forgets x' y') :
    Forgets (if c then x else x') (if c then y else y') := by
  split
  · exact h
  · exact h'

/-- What a step does with the context may depend on everything but modules. -/
theorem context {k k' : Context → Lower α}
    (h : ∀ cx : Context, Forgets (k cx) (k' cx.unqualified)) :
    Forgets (Lowering.context >>= k) (Lowering.context >>= k') :=
  fun s => h s.toContext s

theorem withContext {f f' : Context → α × Context}
    (h : ∀ cx : Context, f' cx.unqualified = ((f cx).1, (f cx).2.unqualified)) :
    Forgets (Lowering.withContext f) (Lowering.withContext f') :=
  Erases.modifyGet fun s => congrArg
    (fun p : α × Context => (p.1, ({ s.unqualified with toContext := p.2 } : State)))
    (h s.toContext)

theorem changeContext {f : Context → Context}
    (h : ∀ cx : Context, f cx.unqualified = (f cx).unqualified) :
    Forgets (Lowering.changeContext f) (Lowering.changeContext f) :=
  Erases.modifyGet fun s => congrArg
    (fun cx : Context => ((), ({ s.unqualified with toContext := cx } : State))) (h s.toContext)

theorem withRegistry {f f' : Registry → α × Registry}
    (h : ∀ r : Registry, f' r.unqualified = ((f r).1, (f r).2.unqualified)) :
    Forgets (Lowering.withRegistry f) (Lowering.withRegistry f') :=
  Erases.modifyGet fun s => congrArg
    (fun p : α × Registry => (p.1, ({ s.unqualified with registry := p.2 } : State)))
    (h s.registry)

theorem buffered (h : Forgets x y) : Forgets (Lowering.buffered x) (Lowering.buffered y) := by
  intro s
  have hs := h { s with cmds := [] }
  rcases hx : x.run { s with cmds := [] } with ⟨r, t⟩
  rw [hx] at hs
  rw [run_buffered hx, run_buffered hs]
  cases r <;> rfl

theorem commandsOf {x y : Lower Unit} (h : Forgets x y) :
    Forgets (Lowering.commandsOf x) (Lowering.commandsOf y) :=
  .bind (.buffered h) fun _ => .pure

theorem report {level : Log.Level} {message : String} :
    Forgets (Lowering.report level message) (Lowering.report level message) :=
  Erases.update fun _ => rfl

theorem emitAll {cs : List Cmd} : Forgets (Lowering.emitAll cs) (Lowering.emitAll cs) :=
  Erases.update fun _ => rfl

theorem emit {c : Cmd} : Forgets (Lowering.emit c) (Lowering.emit c) := emitAll

/-! ## Operations of the context -/

theorem declareLocal {name : String} {ty : Ir.Ty} :
    Forgets (Lowering.declareLocal name ty) (Lowering.declareLocal name ty) := by
  refine .changeContext fun cx => ?_
  have hparams : cx.unqualified.params = cx.params := rfl
  simp only [Context.declareLocal, hparams]
  split
  · rfl
  · rfl

theorem freshLocal {stem : String} {ty : Ir.Ty} :
    Forgets (Lowering.freshLocal stem ty) (Lowering.freshLocal stem ty) :=
  .withContext fun _ => rfl

theorem useLabelVar : Forgets Lowering.useLabelVar Lowering.useLabelVar :=
  .bind (.changeContext fun _ => rfl) fun _ => .pure

theorem enterRegion {node : UInt32} {types : List (Option TypeRef)} :
    Forgets (Lowering.enterRegion node types)
      (Lowering.enterRegion node (types.map (Option.map TypeRef.unqualified))) :=
  .withContext fun cx => cx.enterRegion_unqualified node types

theorem catchLabel {id : Nat} : Forgets (Lowering.catchLabel id) (Lowering.catchLabel id) :=
  .withContext fun cx => cx.allot_unqualified id _ (fun _ => rfl) fun _ _ => rfl

theorem finallyLabel {id : Nat} : Forgets (Lowering.finallyLabel id) (Lowering.finallyLabel id) :=
  .withContext fun cx => cx.allot_unqualified id _ (fun _ => rfl) fun _ _ => rfl

theorem continuationLabel {id : Nat} :
    Forgets (Lowering.continuationLabel id) (Lowering.continuationLabel id) :=
  .withContext fun cx => cx.allot_unqualified id _ (fun _ => rfl) fun _ _ => rfl

theorem exceptionLocal {id : Nat} :
    Forgets (Lowering.exceptionLocal id) (Lowering.exceptionLocal id) :=
  .withContext fun cx => cx.exceptionLocal_unqualified id

theorem addEscapingEdge {id : Nat} :
    Forgets (Lowering.addEscapingEdge id) (Lowering.addEscapingEdge id) :=
  .withContext fun cx => cx.addEscapingEdge_unqualified id

theorem pushPhase {id : Nat} {phase : Phase} :
    Forgets (Lowering.pushPhase id phase) (Lowering.pushPhase id phase) :=
  .bind .report fun _ => .changeContext fun _ => rfl

theorem popPhase {id : Nat} {phase : Phase} :
    Forgets (Lowering.popPhase id phase) (Lowering.popPhase id phase) :=
  .context fun _ => .bind (.changeContext fun _ => rfl) fun _ => .ite .throw .pure

theorem pushOperand {v : Ir.Expr} : Forgets (Lowering.pushOperand v) (Lowering.pushOperand v) :=
  .changeContext fun _ => rfl

theorem popOperand : Forgets Lowering.popOperand Lowering.popOperand := by
  refine .context fun cx => ?_
  have hoperands : cx.unqualified.operands = cx.operands := rfl
  rw [hoperands]
  cases cx.operands with
  | nil => exact .throw
  | cons v rest => exact .bind (.changeContext fun _ => rfl) fun _ => .pure

theorem structCopy {type : TypeRef} :
    Forgets (Lowering.withRegistry (·.structCopy type))
      (Lowering.withRegistry (·.structCopy type.unqualified)) :=
  .withRegistry fun r => r.structCopy_unqualified type

end Forgets

end Lowering

end Unwind
