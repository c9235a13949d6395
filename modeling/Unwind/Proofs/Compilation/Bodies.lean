import Unwind.Compilation
import Unwind.Proofs.Dispatch
import Unwind.Proofs.Hierarchy.Changes

/-!
# Programs without their bodies

The type table, the subtype index and the overrides are built from the declarations of a program and
never look into a body. `Program.bare` takes all bodies away; what is left decides whether a type is
a struct and what becomes of every virtual call (`agree_bare`).
-/

namespace Unwind

open Source

/-! ## Taking bodies away -/

namespace Source

/-- The method without its body. -/
def MethodDef.bare (m : MethodDef) : MethodDef := { m with body := none }

namespace TypeDef

mutual

/-- The definition without the bodies of its methods, nested types included. -/
def bare : TypeDef → TypeDef
  | ⟨name, kind, baseClasses, interfaces, fields, methods, nested⟩ =>
    ⟨name, kind, baseClasses, interfaces, fields, methods.map MethodDef.bare, bareAll nested⟩

def bareAll : List TypeDef → List TypeDef
  | [] => []
  | d :: ds => d.bare :: bareAll ds

end

theorem bareAll_eq_map (ds : List TypeDef) : bareAll ds = ds.map bare := by
  induction ds with
  | nil => rfl
  | cons d ds ih => rw [bareAll, ih, List.map_cons]

@[simp] theorem name_bare (d : TypeDef) : d.bare.name = d.name := by cases d; rfl

@[simp] theorem supertypes_bare (d : TypeDef) : d.bare.supertypes = d.supertypes := by cases d; rfl

@[simp] theorem isInterface_bare (d : TypeDef) : d.bare.isInterface = d.isInterface := by
  cases d; rfl

@[simp] theorem isStruct_bare (d : TypeDef) : d.bare.isStruct = d.isStruct := by cases d; rfl

@[simp] theorem methods_bare (d : TypeDef) : d.bare.methods = d.methods.map MethodDef.bare := by
  cases d; rfl

@[simp] theorem nested_bare (d : TypeDef) : d.bare.nested = d.nested.map bare := by
  cases d
  exact bareAll_eq_map _

end TypeDef

/-- The program without the bodies of its methods. -/
def Program.bare (p : Program) : Program := { p with types := TypeDef.bareAll p.types }

theorem Program.allTypes_bare (p : Program) : p.bare.allTypes = p.allTypes.map TypeDef.bare := by
  rw [allTypes, bare, TypeDef.bareAll_eq_map, TypeDef.allNested_map TypeDef.nested_bare]
  rfl

end Source

/-! ## The type table -/

namespace TypeTable

/-- The table without bodies. -/
def bare (t : TypeTable) : TypeTable := ⟨t.defs.map TypeDef.bare⟩

theorem get?_bare (t : TypeTable) (ref : TypeRef) :
    t.bare.get? ref = (t.get? ref).map TypeDef.bare :=
  get?_map (fun d => by rw [TypeDef.name_bare]) t ref

theorem ofProgram_bare (p : Program) : ofProgram p.bare = (ofProgram p).bare := by
  rw [ofProgram, Program.allTypes_bare]
  exact ofDefs_map (fun d => by rw [TypeDef.name_bare]) p.allTypes

theorem isStruct_bare (t : TypeTable) (ty : Ty) : t.bare.isStruct ty = t.isStruct ty := by
  cases ty with
  | named type =>
    simp only [isStruct, Ty.typeRef?, Option.bind_some, get?_bare]
    cases t.get? type with
    | none => rfl
    | some d => exact TypeDef.isStruct_bare d
  | _ => rfl

end TypeTable

/-! ## Hierarchies -/

theorem SubtypeIndex.build_bare (p : Program) (table : TypeTable) :
    build p.bare table.bare = build p table := by
  have hname (t : TypeRef) : (id t).name = t.name := rfl
  have hsupertypes (d : TypeDef) : d.bare.supertypes = d.supertypes.map id := by
    rw [TypeDef.supertypes_bare, List.map_id]
  have htypes : p.bare.types = p.types.map TypeDef.bare := TypeDef.bareAll_eq_map p.types
  have hentries := build_map hname TypeDef.name_bare hsupertypes TypeDef.nested_bare htypes table
  rw [show Entry.mapBase id = id from rfl, List.map_id] at hentries
  exact congrArg SubtypeIndex.mk hentries

namespace Hierarchy

/-- The hierarchy without bodies. -/
def bare (h : Hierarchy) : Hierarchy := { h with table := h.table.bare }

theorem ofProgram_bare (p : Program) : ofProgram p.bare = (ofProgram p).bare := by
  simp only [ofProgram, bare, TypeTable.ofProgram_bare, SubtypeIndex.build_bare]

/-- To take bodies away is a change. -/
def Change.bare : Change where
  ref := id
  method := id
  defn := TypeDef.bare
  member := MethodDef.bare
  name_ref _ := rfl
  type_method _ := rfl
  text_method _ := rfl
  beq_method _ _ := rfl
  name_defn := TypeDef.name_bare
  isInterface_defn := TypeDef.isInterface_bare
  methods_defn := TypeDef.methods_bare
  reference_member _ _ := rfl
  hasSignature_member _ _ := rfl
  isVirtual_member _ := rfl
  isNewSlot_member _ := rfl
  isStatic_member _ := rfl
  explicitOverrides_member _ _ := rfl

variable (h : Hierarchy)

theorem change_bare : h.change .bare = h.bare := by
  have hentry : SubtypeIndex.Entry.map id = id :=
    funext fun e => by rw [SubtypeIndex.Entry.map, List.map_id, id, id]
  have hindex : h.index.map id = h.index := by rw [SubtypeIndex.map, hentry, List.map_id]
  exact congrArg (Hierarchy.mk h.table.bare) hindex

theorem resolve_bare (m : MethodRef) : h.bare.resolve m = h.resolve m := by
  have hresolve := h.resolve_change .bare m
  rw [change_bare, show Change.bare.override = id from rfl, List.map_id_fun] at hresolve
  exact hresolve.trans (by cases h.resolve m <;> rfl)

/-! ## Dispatch -/

/-- The declaration that a call refers to, without its body. -/
theorem declaration_bare (m : MethodRef) :
    ((h.bare.table.get? m.type).bind fun d => (d.methodsMatching m).head?) =
      ((h.table.get? m.type).bind fun d => (d.methodsMatching m).head?).map MethodDef.bare := by
  rw [← change_bare]
  exact h.declaration_change .bare m

/-- Without bodies every virtual call is dispatched as before. -/
theorem agree_bare : Dispatch.Agree h h.bare where
  isExempt call := by
    have haccessor : Dispatch.isEventAccessor h.bare call.method =
        Dispatch.isEventAccessor h call.method := by
      unfold Dispatch.isEventAccessor
      rw [declaration_bare]
      cases (h.table.get? call.method.type).bind fun d => (d.methodsMatching call.method).head? with
      | none => rfl
      | some x => rfl
    unfold Dispatch.isExempt
    rw [haccessor]
    rfl
  resolve := resolve_bare h
  resultType m fallback := by
    unfold Dispatch.resultType
    rw [declaration_bare]
    cases (h.table.get? m.type).bind fun d => (d.methodsMatching m).head? with
    | none => rfl
    | some x => rfl

end Hierarchy

/-! ## Programs that differ in bodies -/

/-- Programs with the same declarations dispatch alike. -/
theorem agree_of_bare_eq {p p' : Program} (h : p'.bare = p.bare) :
    Dispatch.Agree (Hierarchy.ofProgram p) (Hierarchy.ofProgram p') := by
  have hp := Hierarchy.agree_bare (Hierarchy.ofProgram p)
  have hp' := Hierarchy.agree_bare (Hierarchy.ofProgram p')
  rw [← Hierarchy.ofProgram_bare] at hp hp'
  rw [h] at hp'
  exact ⟨fun call => (hp'.isExempt call).symm.trans (hp.isExempt call),
    fun m => (hp'.resolve m).symm.trans (hp.resolve m),
    fun m ty => (hp'.resultType m ty).symm.trans (hp.resultType m ty)⟩

theorem isStruct_of_bare_eq {p p' : Program} (h : p'.bare = p.bare) (ty : Ty) :
    (TypeTable.ofProgram p').isStruct ty = (TypeTable.ofProgram p).isStruct ty := by
  rw [← TypeTable.isStruct_bare, ← TypeTable.ofProgram_bare, h, TypeTable.ofProgram_bare,
    TypeTable.isStruct_bare]

end Unwind
