import Mathlib
import Unwind.Proofs.Marks.Numbers
import Unwind.Proofs.Variables.Declares

/-!
# Steps without bookkeeping

Unwinding needs variables of its own: the exception, the label variable, and what regions put aside
(`IsBookkeeping`). `Frugally` says of a step that it leaves them alone, and that its labels and
jumps are those of the source program. Steps compose along `bind` (`Frugally.bind`).

Of the names in a body only those of variables matter. A field is named after its type with a dot
behind it, which no variable for bookkeeping has (`not_isBookkeeping_mapName`).
-/

namespace Unwind

open Machine (isGenerated)

namespace Ir

/-- The label that a command puts in its place or jumps to. -/
def Cmd.target? : Cmd → Option String
  | goto l | label l => some l
  | _ => none

/-- The labels in commands, and the labels that they jump to, at any depth. -/
def Cmd.allTargets (cs : List Cmd) : List String := (Cmd.allNested cs).filterMap Cmd.target?

/-- The labels in a procedure, and the labels that it jumps to. -/
def Procedure.targets (p : Procedure) : List String := p.commands.filterMap Cmd.target?

theorem Cmd.allTargets_append (cs cs' : List Cmd) :
    Cmd.allTargets (cs ++ cs') = Cmd.allTargets cs ++ Cmd.allTargets cs' := by
  rw [allTargets, allNested_append, List.filterMap_append, allTargets, allTargets]

theorem Cmd.allTargets_ifElse (cond : Expr) (cs cs' : List Cmd) :
    Cmd.allTargets [.ifElse cond cs cs'] = Cmd.allTargets cs ++ Cmd.allTargets cs' := by
  rw [allTargets, allNested, allNested, List.append_nil, withNested, List.filterMap_cons,
    List.filterMap_append, allTargets, allTargets]
  rfl

end Ir

/-! ## Variables of the source program -/

namespace Source

mutual

/-- The variables that an expression reads or writes. -/
def Expr.locals : Expr → List String
  | ⟨_, _, _, kind⟩ =>
    match kind with
    | .var name => [name]
    | .field object _ => localsInOption object
    | .unary _ e | .getType e | .conversion e _ => e.locals
    | .binary _ lhs rhs => lhs.locals ++ rhs.locals
    | .conditional cond thenExpr elseExpr => cond.locals ++ (thenExpr.locals ++ elseExpr.locals)
    | .assign target value => target.locals ++ value.locals
    | .target target => target.locals
    | .call ⟨_, receiver, args, _⟩ => localsInOption receiver ++ localsInAll args
    | .new _ _ args => localsInAll args
    | .literal _ | .self | .typeOf _ | .defaultValue _ | .pop => []

def Target.locals : Target → List String
  | .var name => [name]
  | .field object _ => localsInOption object

def localsInOption : Option Expr → List String
  | none => []
  | some e => e.locals

def localsInAll : List Expr → List String
  | [] => []
  | e :: es => e.locals ++ localsInAll es

end

/-- The variables that a statement declares or uses, the statements inside it apart. -/
def StmtKind.locals (kind : StmtKind) : List String :=
  kind.declares.map (·.name) ++ kind.exprs.flatMap Expr.locals

end Source

namespace Lowering

open Source (FieldRef)
open Ir (Cmd VarDecl)

/-! ## Variables for bookkeeping -/

/-- The variable is needed for unwinding only. -/
def Slot.isBookkeeping : Slot → Bool
  | exception | label | caught _ | savedExc _ | savedLabel _ => true
  | source _ | result | temp _ => false

/-- The name is that of a variable for bookkeeping. -/
def IsBookkeeping (x : String) : Prop := ∃ slot : Slot, slot.isBookkeeping = true ∧ x = slot.name

theorem not_isBookkeeping {slot : Slot} (hproper : slot.Proper) (h : slot.isBookkeeping = false) :
    ¬ IsBookkeeping slot.name := by
  rintro ⟨slot', h', hname⟩
  have hproper' : slot'.Proper := by
    cases slot' with
    | source => cases h'
    | _ => trivial
  rw [Slot.name_inj hproper hproper' hname, h'] at h
  cases h

theorem not_isBookkeeping_plain {x : String} (h : isGenerated x = false) : ¬ IsBookkeeping x :=
  @not_isBookkeeping (.source x) h rfl

theorem Slot.isSource_of_isBookkeeping {slot : Slot} (h : slot.isBookkeeping = true) :
    slot.isSource = false := by
  cases slot with
  | source => cases h
  | _ => rfl

theorem not_isBookkeeping_mapName (f : FieldRef) : ¬ IsBookkeeping f.mapName := by
  rintro ⟨slot, hslot, hname⟩
  refine Slot.dot_notMem_name (Slot.isSource_of_isBookkeeping hslot) ?_
  rw [← hname, FieldRef.mapName, String.toList_append, String.toList_append]
  exact List.mem_append_left _ (List.mem_append_right _ List.mem_cons_self)

/-- None of the variables is for bookkeeping. -/
def Needless (xs : List String) : Prop := ∀ x ∈ xs, ¬ IsBookkeeping x

section

variable {x : String} {xs ys : List String}

theorem needless_nil : Needless [] := nofun

theorem needless_append : Needless (xs ++ ys) ↔ Needless xs ∧ Needless ys :=
  List.forall_mem_append

theorem needless_cons : Needless (x :: xs) ↔ ¬ IsBookkeeping x ∧ Needless xs :=
  List.forall_mem_cons

theorem needless_singleton : Needless [x] ↔ ¬ IsBookkeeping x := List.forall_mem_singleton

theorem needless_plain (h : ∀ y ∈ ys, isGenerated y = false) : Needless ys := fun y hy =>
  not_isBookkeeping_plain (h y hy)

end

/-! ## Frugal code -/

/-- Code without bookkeeping, with labels and jumps of the source program only. -/
structure Frugal (ls : List String) (cs : List Cmd) : Prop where
  vars : Needless (Cmd.allVars cs)
  targets : Cmd.allTargets cs ⊆ ls

namespace Frugal

variable {ls : List String} {cs ds : List Cmd} {c : Cmd} {l : String}

theorem nil : Frugal ls [] := ⟨needless_nil, List.nil_subset _⟩

theorem append_iff : Frugal ls (cs ++ ds) ↔ Frugal ls cs ∧ Frugal ls ds := by
  constructor
  · rintro ⟨hv, ht⟩
    rw [Cmd.allVars_append, needless_append] at hv
    rw [Cmd.allTargets_append, List.append_subset] at ht
    exact ⟨⟨hv.1, ht.1⟩, hv.2, ht.2⟩
  · rintro ⟨h, h'⟩
    refine ⟨?_, ?_⟩
    · rw [Cmd.allVars_append]
      exact needless_append.2 ⟨h.vars, h'.vars⟩
    · rw [Cmd.allTargets_append]
      exact List.append_subset.mpr ⟨h.targets, h'.targets⟩

/-- A command without parts that is neither a label nor a jump. -/
theorem idle (hc : c.withNested = [c]) (ht : c.target? = none) (h : Needless c.vars) :
    Frugal ls [c] := by
  refine ⟨?_, ?_⟩
  · rwa [Cmd.allVars, Cmd.allVars, List.append_nil]
  · rw [Cmd.allTargets, Cmd.allNested, Cmd.allNested, List.append_nil, hc, List.filterMap_cons, ht]
    exact List.nil_subset _

theorem set {x : String} {v : Ir.Expr} (hx : ¬ IsBookkeeping x) (hv : Needless v.vars) :
    Frugal ls [.set x v] := idle rfl rfl (needless_append.2 ⟨needless_singleton.2 hx, hv⟩)

theorem assume {v : Ir.Expr} (hv : Needless v.vars) : Frugal ls [.suppose v] :=
  idle rfl rfl (needless_append.2 ⟨hv, needless_nil⟩)

theorem invoke {proc : String} {args : List Ir.Expr} {outs : List String}
    (hargs : Needless (Ir.Expr.allVars args)) (houts : Needless outs) :
    Frugal ls [.invoke proc args outs] :=
  idle rfl rfl (needless_append.2 ⟨needless_nil, needless_append.2 ⟨hargs, houts⟩⟩)

theorem label (h : l ∈ ls) : Frugal ls [.label l] :=
  ⟨needless_nil, List.cons_subset.mpr ⟨h, List.nil_subset _⟩⟩

theorem goto (h : l ∈ ls) : Frugal ls [.goto l] :=
  ⟨needless_nil, List.cons_subset.mpr ⟨h, List.nil_subset _⟩⟩

theorem ifElse {cond : Ir.Expr} (hcond : Needless cond.vars) (h : Frugal ls cs)
    (h' : Frugal ls ds) : Frugal ls [.ifElse cond cs ds] := by
  refine ⟨?_, ?_⟩
  · rw [Cmd.allVars, Cmd.allVars, List.append_nil, Cmd.vars]
    exact needless_append.2 ⟨hcond, needless_append.2 ⟨h.vars, h'.vars⟩⟩
  · rw [Cmd.allTargets_ifElse]
    exact List.append_subset.mpr ⟨h.targets, h'.targets⟩

end Frugal

/-! ## Steps -/

/-- What holds of the state of a body while it is lowered: it is in no region, and nothing in it is
for bookkeeping. -/
structure State.Frugal (ls : List String) (s : State) : Prop where
  stack : s.stack = []
  cmds : Lowering.Frugal ls s.cmds
  operands : Needless (Ir.Expr.allVars s.operands)
  locals : Needless (s.locals.map (·.name))
  returnVar : Needless s.returnVar.toList
  scopes : s.scopes.labels.map Prod.fst ⊆ ls

/-- The step does no bookkeeping, and its result is as `ps` says. -/
structure Frugally {α : Type} (ls : List String) (act : Lower α) (ps : α → Prop) : Prop where
  run : ∀ {s s' : State} {a : α}, s.Frugal ls → Runs act s a s' → s'.Frugal ls ∧ ps a

namespace Frugally

variable {α β : Type} {ls : List String} {x y act : Lower α} {f : α → Lower β} {ps : α → Prop}
  {us : β → Prop}

theorem bind (hx : Frugally ls x ps) (hf : ∀ a, ps a → Frugally ls (f a) us) :
    Frugally ls (x >>= f) us := by
  refine ⟨fun hs hrun => ?_⟩
  obtain ⟨a, s₁, h₁, h₂⟩ := runs_bind.mp hrun
  obtain ⟨hs₁, ha⟩ := hx.run hs h₁
  exact (hf a ha).run hs₁ h₂

theorem pure {a : α} (h : ps a) : Frugally ls (Pure.pure a : Lower α) ps := by
  refine ⟨fun hs hrun => ?_⟩
  obtain ⟨rfl, rfl⟩ := runs_pure.mp hrun
  exact ⟨hs, h⟩

theorem throw {e : Fault} : Frugally ls (throw e : Lower α) ps :=
  ⟨fun _ hrun => absurd hrun not_runs_throw⟩

theorem lift {r : Except Fault α} (h : ∀ a, r = .ok a → ps a) :
    Frugally ls (liftM r : Lower α) ps := by
  cases r with
  | ok a => exact .pure (h a rfl)
  | error e => exact .throw

theorem ite {c : Prop} [Decidable c] (hx : c → Frugally ls x ps) (hy : ¬ c → Frugally ls y ps) :
    Frugally ls (if c then x else y) ps := by
  split
  · next h => exact hx h
  · next h => exact hy h

/-- What is done with the context may depend on it. -/
theorem look {f : Context → Lower α}
    (hf : ∀ s : State, s.Frugal ls → Frugally ls (f s.toContext) ps) :
    Frugally ls (context >>= f) ps := by
  refine ⟨fun hs hrun => ?_⟩
  obtain ⟨cx, s₁, h₁, h₂⟩ := runs_bind.mp hrun
  obtain ⟨rfl, rfl⟩ := runs_context.mp h₁
  exact (hf _ hs).run hs h₂

end Frugally

section

variable {α : Type} {ls : List String}

theorem frugally_emitAll {cs : List Cmd} (h : Frugal ls cs) :
    Frugally ls (emitAll cs) fun _ => True := by
  refine ⟨fun hs hrun => ?_⟩
  rw [runs_emitAll] at hrun
  subst hrun
  exact ⟨{ hs with cmds := Frugal.append_iff.mpr ⟨hs.cmds, h⟩ }, trivial⟩

theorem frugally_emit {c : Cmd} (h : Frugal ls [c]) : Frugally ls (emit c) fun _ => True :=
  frugally_emitAll h

/-- What a step emits aside is frugal, too. -/
theorem Frugally.buffered {act : Lower α} {ps : α → Prop} (h : Frugally ls act ps) :
    Frugally ls (buffered act) fun r => ps r.1 ∧ Frugal ls r.2 := by
  refine ⟨fun {s _ _} hs hrun => ?_⟩
  obtain ⟨s₁, h₁, hcmds, rfl⟩ := runs_buffered.mp hrun
  have hs₀ : State.Frugal ls { s with cmds := [] } := { hs with cmds := .nil }
  obtain ⟨hs₁, ha⟩ := h.run hs₀ h₁
  exact ⟨{ hs₁ with cmds := hs.cmds }, ha, hcmds ▸ hs₁.cmds⟩

theorem Frugally.commandsOf {act : Lower Unit} {ps : Unit → Prop} (h : Frugally ls act ps) :
    Frugally ls (commandsOf act) fun cs => Frugal ls cs :=
  h.buffered.bind fun _ hr => .pure hr.2

theorem frugally_withRegistry {f : Registry → α × Registry} :
    Frugally ls (withRegistry f) fun _ => True := by
  refine ⟨fun hs hrun => ?_⟩
  cases hrun
  exact ⟨{ hs with }, trivial⟩

theorem frugally_pushOperand {v : Ir.Expr} (h : Needless v.vars) :
    Frugally ls (pushOperand v) fun _ => True := by
  refine ⟨fun hs hrun => ?_⟩
  cases hrun
  exact ⟨{ hs with operands := needless_append.mpr ⟨h, hs.operands⟩ }, trivial⟩

theorem frugally_popOperand : Frugally ls popOperand fun v => Needless v.vars := by
  refine ⟨fun {s s' v} hs hrun => ?_⟩
  rw [popOperand, runs_bind] at hrun
  obtain ⟨cx, s₁, h₁, h₂⟩ := hrun
  obtain ⟨rfl, rfl⟩ := runs_context.mp h₁
  split at h₂
  · next w rest hops =>
    have hboth := hs.operands
    rw [hops, Ir.Expr.allVars] at hboth
    obtain ⟨hw, hrest⟩ := needless_append.mp hboth
    cases h₂
    exact ⟨{ hs with operands := hrest }, hw⟩
  · exact absurd h₂ not_runs_throw

theorem frugally_declareLocal {name : String} {ty : Ir.Ty} (hname : isGenerated name = false) :
    Frugally ls (declareLocal name ty) fun _ => True := by
  refine ⟨fun {s _ _} hs hrun => ?_⟩
  rw [declareLocal, changeContext, runs_modify] at hrun
  subst hrun
  unfold Context.declareLocal
  split
  · exact ⟨hs, trivial⟩
  · refine ⟨{ hs with locals := fun x hx => ?_ }, trivial⟩
    obtain ⟨v, hv, rfl⟩ := List.mem_map.mp hx
    rcases mem_declareNew hv with hv | rfl
    · exact hs.locals _ (List.mem_map_of_mem hv)
    · exact not_isBookkeeping_plain hname

/-- New variables are for intermediate values. -/
theorem frugally_temp {ty : Ir.Ty} :
    Frugally ls (freshLocal "tmp" ty) fun x => ¬ IsBookkeeping x := by
  refine ⟨fun {s s' x} hs hrun => ?_⟩
  rw [freshLocal, withContext, runs_modifyGet] at hrun
  have hnew : ¬ IsBookkeeping (Slot.temp s.nextTemp).name := not_isBookkeeping trivial rfl
  cases hrun
  refine ⟨{ hs with locals := fun x hx => ?_ }, hnew⟩
  obtain ⟨v, hv, rfl⟩ := List.mem_map.mp hx
  rcases mem_redeclare hv with hv | rfl
  · exact hs.locals _ (List.mem_map_of_mem hv)
  · exact hnew

end

end Lowering

end Unwind
