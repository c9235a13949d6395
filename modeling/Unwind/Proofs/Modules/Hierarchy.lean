import Unwind.Proofs.Modules.Erasure

/-!
# Hierarchies of programs without modules

The walk that builds the subtype index tells definitions apart by their qualified names, so that the
names of definitions keep their modules up to there. From then on only names are looked at: the
outline of a hierarchy, in which nothing has a module any more, resolves every method as the
hierarchy does (`Hierarchy.resolve_outline`). Programs that differ in the modules of references only
have the same outline (`Hierarchy.outline_ofProgram`).
-/

namespace Unwind

open Source

/-! ## Tables and indexes -/

theorem TypeTable.ofProgram_unqualified (p : Program) :
    ofProgram p.unqualified = (ofProgram p).map TypeDef.unqualified := by
  rw [ofProgram, Program.allTypes_unqualified]
  exact ofDefs_map (fun d => congrArg TypeRef.name d.name_unqualified) p.allTypes

theorem SubtypeIndex.build_unqualified (p : Program) (table : TypeTable) :
    (build p.unqualified (table.map TypeDef.unqualified)).entries =
      (build p table).entries.map (Entry.mapBase TypeRef.unqualified) :=
  build_map TypeRef.name_unqualified TypeDef.name_unqualified TypeDef.supertypes_unqualified
    TypeDef.nested_unqualified (unqualifiedTypes_eq_map p.types) table

/-! ## Outlines -/

namespace Source

/-- The signature of a method without modules. -/
def MethodDef.outline (m : MethodDef) : MethodDef := { m.unqualified with body := none }

/-- What a definition is asked for once the index is built, without any module. -/
def TypeDef.outline (d : TypeDef) : TypeDef :=
  { name := d.name.unqualified, kind := d.kind, methods := d.methods.map MethodDef.outline }

theorem Variable.unqualified_unqualified (v : Variable) :
    v.unqualified.unqualified = v.unqualified :=
  congrArg (Variable.mk v.name) v.ty.bare_bare

theorem MethodRef.unqualified_unqualified (m : MethodRef) :
    m.unqualified.unqualified = m.unqualified := by
  simp [unqualified, TypeRef.unqualified, Function.comp_def]

theorem MethodDef.outline_unqualified (m : MethodDef) : m.unqualified.outline = m.outline := by
  simp only [outline, unqualified, List.map_map, Function.comp_def,
    Variable.unqualified_unqualified, MethodRef.unqualified_unqualified, Ty.bare_bare]

theorem TypeDef.outline_unqualified (d : TypeDef) : d.unqualified.outline = d.outline := by
  simp only [outline, name_unqualified, kind_unqualified, methods_unqualified, List.map_map,
    Function.comp_def, MethodDef.outline_unqualified]

end Source

/-- The override without modules. -/
def Override.unqualified (o : Override) : Override := ⟨o.type.unqualified, o.method.unqualified⟩

namespace Hierarchy

/-- To leave everything out but outlines is a change. -/
def Change.outline : Change where
  ref := TypeRef.unqualified
  method := MethodRef.unqualified
  defn := TypeDef.outline
  member := MethodDef.outline
  name_ref := TypeRef.name_unqualified
  type_method _ := rfl
  text_method := MethodRef.text_unqualified
  beq_method := MethodRef.beq_unqualified
  name_defn _ := rfl
  isInterface_defn _ := rfl
  methods_defn _ := rfl
  reference_member := MethodDef.reference_unqualified
  hasSignature_member := MethodDef.hasSignature_unqualified
  isVirtual_member _ := rfl
  isNewSlot_member _ := rfl
  isStatic_member _ := rfl
  explicitOverrides_member x m := by
    simp only [MethodDef.outline, MethodDef.unqualified, List.any_map, Function.comp_def,
      MethodRef.beq_unqualified]

/-- The hierarchy without any module. -/
def outline (h : Hierarchy) : Hierarchy := h.change .outline

theorem resolve_outline (h : Hierarchy) (m : MethodRef) :
    h.outline.resolve m.unqualified = (h.resolve m).map (List.map Override.unqualified) :=
  h.resolve_change .outline m

theorem isStruct_outline (h : Hierarchy) (ty : Ty) :
    h.outline.table.isStruct ty = h.table.isStruct ty := by
  cases ty with
  | named type =>
    have hget : h.outline.table.get? type = (h.table.get? type).map TypeDef.outline :=
      Change.outline.get?_defn h.table type
    simp only [TypeTable.isStruct, Ty.typeRef?, Option.bind_some, hget]
    cases h.table.get? type <;> rfl
  | _ => rfl

/-- A program has the outline that it has without the modules of its references. -/
theorem outline_ofProgram_unqualified (p : Program) :
    (ofProgram p.unqualified).outline = (ofProgram p).outline := by
  have htable : (TypeTable.ofProgram p.unqualified).map TypeDef.outline =
      (TypeTable.ofProgram p).map TypeDef.outline := by
    rw [TypeTable.ofProgram_unqualified]
    simp only [TypeTable.map, List.map_map, Function.comp_def, TypeDef.outline_unqualified]
  have hindex : (SubtypeIndex.build p.unqualified (TypeTable.ofProgram p.unqualified)).map
        TypeRef.unqualified =
      (SubtypeIndex.build p (TypeTable.ofProgram p)).map TypeRef.unqualified := by
    rw [TypeTable.ofProgram_unqualified, SubtypeIndex.map, SubtypeIndex.map,
      SubtypeIndex.build_unqualified, List.map_map]
    rfl
  -- the entries of the index differ in the spelling of their bases only, which `map` levels
  rw [outline, outline, change, change]
  exact congr (congrArg Hierarchy.mk htable) hindex

/-- Programs that are equal without the modules of their references have the same outline. -/
theorem outline_ofProgram {p q : Program} (h : p.unqualified = q.unqualified) :
    (ofProgram p).outline = (ofProgram q).outline := by
  rw [← outline_ofProgram_unqualified, h, outline_ofProgram_unqualified]

end Hierarchy

end Unwind
