import Unwind.Proofs.Compilation.Scheduling
import Unwind.Proofs.ProcedureNames

/-!
# Which names are declared twice

A compiled program declares a constant for every type of the table, a variable for every field and a
procedure for every method of every **definition**. A type that is declared in two modules is one
type of the table, but its definitions are compiled one by one, so that a member they share is
declared twice (`exists_declared_twice`); and a dot in the name of a type or of a member can make
members of different types look alike. Nothing else makes names clash: `compile_nodup_iff` says
exactly when the declared names are pairwise different.
-/

namespace Unwind.Compilation

open Ir (Procedure)
open Machine (isGenerated)
open Source (FieldRef MethodRef ReadsLike Ty)

/-! ## Members that can be told apart -/

/-- The methods that a program declares. -/
def methodRefs (p : Source.Program) : List MethodRef :=
  (membersOf p).map fun m => m.method.reference m.owner.name

/-- The fields that a program declares. -/
def fieldRefs (p : Source.Program) : List FieldRef :=
  p.allTypes.flatMap fun d => d.fields.map fun f => ⟨d.name, f.name⟩

/-- No type declares a method twice, all its definitions taken together, and no method is written
like one of another type. -/
structure MethodsApart (p : Source.Program) : Prop where
  once : (methodRefs p).Pairwise fun a b => ¬ a == b
  unlike : ∀ a ∈ methodRefs p, ∀ b ∈ methodRefs p, a.params == b.params →
    ¬ ReadsLike a.type.name a.name b.type.name b.name

/-- The same for fields. -/
structure FieldsApart (p : Source.Program) : Prop where
  once : (fieldRefs p).Pairwise fun a b => ¬ a == b
  unlike : ∀ a ∈ fieldRefs p, ∀ b ∈ fieldRefs p,
    ¬ ReadsLike a.type.name a.name b.type.name b.name

/-- Names are pairwise different when no two are the same and none looks like another one. -/
theorem nodup_map_iff {α : Type} {l : List α} {f : α → String} {same like : α → α → Prop}
    (h : ∀ a ∈ l, ∀ b ∈ l, f a = f b ↔ same a b ∨ like a b ∨ like b a)
    (hself : ∀ a ∈ l, ¬ like a a) :
    (l.map f).Nodup ↔
      l.Pairwise (fun a b => ¬ same a b) ∧ ∀ a ∈ l, ∀ b ∈ l, ¬ like a b := by
  constructor
  · intro hnodup
    refine ⟨?_, fun a ha b hb hlike => ?_⟩
    · refine (List.pairwise_map.mp hnodup).imp_of_mem fun ha hb hne hsame => ?_
      exact hne ((h _ ha _ hb).mpr (.inl hsame))
    · obtain rfl := List.inj_on_of_nodup_map hnodup ha hb ((h a ha b hb).mpr (.inr (.inl hlike)))
      exact hself a ha hlike
  · rintro ⟨hsame, hlike⟩
    refine List.pairwise_map.mpr (hsame.imp_of_mem fun ha hb hne heq => ?_)
    rcases (h _ ha _ hb).mp heq with hs | hl | hl
    · exact hne hs
    · exact hlike _ ha _ hb hl
    · exact hlike _ hb _ ha hl

theorem fields_nodup_iff (p : Source.Program) :
    ((fieldRefs p).map FieldRef.mapName).Nodup ↔ FieldsApart p := by
  have h : ∀ a ∈ fieldRefs p, ∀ b ∈ fieldRefs p, a.mapName = b.mapName ↔ a == b ∨
      ReadsLike a.type.name a.name b.type.name b.name ∨
      ReadsLike b.type.name b.name a.type.name a.name := by
    intro a _ b _
    have hbeq : a == b ↔ a.type.name = b.type.name ∧ a.name = b.name := by
      rw [show (a == b) = (a.type.name == b.type.name && a.name == b.name) from rfl]
      simp
    rw [hbeq]
    exact Source.dotted_eq_iff
  rw [nodup_map_iff h fun a _ => Source.not_readsLike_self _ _]
  exact ⟨fun h => ⟨h.1, h.2⟩, fun h => ⟨h.once, h.unlike⟩⟩

theorem methods_nodup_iff {p : Source.Program} (hp : ∀ a ∈ methodRefs p, a.IsPlain) :
    ((methodRefs p).map MethodRef.procedureName).Nodup ↔ MethodsApart p := by
  have h : ∀ a ∈ methodRefs p, ∀ b ∈ methodRefs p, a.procedureName = b.procedureName ↔ a == b ∨
      (a.params == b.params ∧ ReadsLike a.type.name a.name b.type.name b.name) ∨
      (b.params == a.params ∧ ReadsLike b.type.name b.name a.type.name a.name) := by
    intro a ha b hb
    have hbeq : a == b ↔ (a.type.name = b.type.name ∧ a.name = b.name) ∧ a.params == b.params := by
      rw [show (a == b) = (a.type.name == b.type.name && a.name == b.name && a.params == b.params)
        from rfl]
      simp
    have hcomm : b.params == a.params ↔ a.params == b.params := by
      rw [Ty.list_beq_iff, Ty.list_beq_iff, eq_comm]
    rw [MethodRef.procedureName_eq_iff (hp a ha) (hp b hb), ← Ty.list_beq_iff, hbeq, hcomm,
      MethodRef.signature, MethodRef.signature, Source.dotted_eq_iff]
    tauto
  rw [nodup_map_iff h fun a _ hl => Source.not_readsLike_self _ _ hl.2]
  exact ⟨fun h => ⟨h.1, fun a ha b hb hp hl => h.2 a ha b hb ⟨hp, hl⟩⟩,
    fun h => ⟨h.once, fun a ha b hb hl => h.unlike a ha b hb hl.1 hl.2⟩⟩

/-! ## Types and fields -/

/-- The table has every name once. -/
theorem nodup_names_ofDefs (ds : List Source.TypeDef) : (TypeTable.ofDefs ds).names.Nodup := by
  have hinsert : ∀ (t : TypeTable) (d : Source.TypeDef), t.names.Nodup →
      (t.insertNew d).names.Nodup := by
    intro t d ht
    unfold TypeTable.insertNew
    split
    · exact ht
    · next hnew =>
      rw [TypeTable.names, List.map_append, List.map_singleton]
      refine ht.append (List.nodup_singleton _) ?_
      rw [List.disjoint_singleton]
      intro hmem
      obtain ⟨d', hd', hname⟩ := List.mem_map.mp hmem
      exact hnew (List.find?_isSome.mpr ⟨d', hd', Source.TypeRef.beq_iff.mpr hname⟩)
  have hfold : ∀ (ds : List Source.TypeDef) (t : TypeTable), t.names.Nodup →
      (ds.foldl TypeTable.insertNew t).names.Nodup := by
    intro ds
    induction ds with
    | nil => exact fun _ ht => ht
    | cons d ds ih => exact fun t ht => ih _ (hinsert t d ht)
  exact hfold ds {} List.nodup_nil

/-- What is read off the items is read off the results. -/
theorem map_eq_of_mapM {α β γ ε : Type} (j : α → γ) (k : β → γ) {f : α → Except ε β}
    (hf : ∀ x y, f x = .ok y → k y = j x) {xs : List α} {ys : List β}
    (h : xs.mapM f = .ok ys) : ys.map k = xs.map j := by
  induction xs generalizing ys with
  | nil =>
    cases h
    rfl
  | cons x xs ih =>
    rw [List.mapM_cons] at h
    cases hx : f x with
    | error e =>
      rw [hx] at h
      cases h
    | ok y =>
      cases hxs : xs.mapM f with
      | error e =>
        rw [hx, hxs] at h
        cases h
      | ok zs =>
        rw [hx, hxs] at h
        cases h
        rw [List.map_cons, List.map_cons, hf x y hx, ih hxs]

theorem names_of_fieldDecls {p : Source.Program} {fields : List (Source.FieldDef × Ir.VarDecl)}
    (h : fieldDecls p = .ok fields) :
    fields.map (·.2.name) = (fieldRefs p).map FieldRef.mapName := by
  have hnames := map_eq_of_mapM (fun x => FieldRef.mapName ⟨x.1.name, x.2.name⟩) (·.2.name) ?_ h
  · rw [hnames, fieldRefs, List.map_flatMap, List.map_flatMap]
    simp only [List.map_map]
    rfl
  · rintro ⟨d, f⟩ y hy
    cases hty : Lowering.irTy f.ty {} with
    | error e =>
      simp only [fieldDecl, hty] at hy
      cases hy
    | ok ty =>
      simp only [fieldDecl, hty] at hy
      cases hy
      rfl

/-- `$Exception` and the fields, static or not. -/
theorem variables_nodup_iff {p : Source.Program} {table : TypeTable} {procedures : List Procedure}
    {program : Ir.Program} (h : assemble p table procedures = .ok program) :
    ((program.globals ++ program.fieldMaps).map (·.name)).Nodup ↔ FieldsApart p := by
  obtain ⟨fields, hfields, rfl⟩ := assemble_eq_ok h
  have hperm : (((fields.filter (·.1.isStatic)).map (·.2) ++
      (fields.filter (!·.1.isStatic)).map (·.2)).map (·.name)).Perm
        ((fieldRefs p).map FieldRef.mapName) := by
    rw [← names_of_fieldDecls hfields, ← List.map_append, List.map_map]
    exact (List.filter_append_perm _ fields).map _
  have hexception : Ir.exceptionVar ∉ (fieldRefs p).map FieldRef.mapName := by
    intro hmem
    obtain ⟨f, -, hf⟩ := List.mem_map.mp hmem
    have hdot : '.' ∈ Ir.exceptionVar.toList := by
      rw [← hf]
      simp [FieldRef.mapName]
    exact absurd hdot (by decide)
  rw [List.cons_append, List.map_cons, List.nodup_cons, hperm.mem_iff, hperm.nodup_iff,
    fields_nodup_iff]
  exact and_iff_right hexception

/-! ## Procedures -/

/-- Apart from the methods, nothing is declared twice. -/
theorem procedures_nodup_iff {p : Source.Program} (hp : ∀ a ∈ methodRefs p, a.IsPlain)
    {procedures : List Procedure} {r : Registry} (hr : r.Sound)
    (hnames : (procedures.map (·.name)).Sublist ((methodRefs p).map MethodRef.procedureName)) :
    ((procedures ++ allocDecl :: r.helpers).map (·.name)).Nodup ↔
      (procedures.map (·.name)).Nodup := by
  rw [List.map_append, List.map_cons, List.nodup_append]
  have hhelpers := List.nodup_cons.mpr ⟨hr.alloc_notMem_helpers, hr.nodup_helpers⟩
  refine ⟨And.left, fun h => ⟨h, hhelpers, ?_⟩⟩
  intro x hx y hy
  obtain ⟨a, ha, rfl⟩ := List.mem_map.mp (hnames.subset hx)
  have hplain := (hp a ha).isGenerated_procedureName
  rintro rfl
  rcases List.mem_cons.mp hy with hy | hy
  · rw [hy] at hplain
    exact absurd hplain (by decide)
  · obtain ⟨q, hq, hname⟩ := List.mem_map.mp hy
    rcases hr.mem_helpers hq with ⟨type, rfl⟩ | ⟨ty, rfl⟩
    · exact (hp a ha).procedureName_ne_structCopy type hname.symm
    · rw [← hname] at hplain
      cases ty <;> exact absurd hplain (by decide)

/-! ## Whole programs -/

/-- The names of the methods are made from the references to them. -/
theorem map_procedureName (p : Source.Program) :
    (membersOf p).map Member.procedureName = (methodRefs p).map MethodRef.procedureName := by
  rw [methodRefs, List.map_map]
  rfl

/-- When the names that a compiled program declares are pairwise different: those of its types
always, those of its variables when the fields can be told apart, and, where names have no marks in
them, those of its procedures when the methods can be told apart; if no method is left out, then
only then. -/
theorem compile_nodup_iff {options : Options} {policy : FailurePolicy} {p : Source.Program}
    {literal : Int64 → Int64} {c : Compilation}
    (h : (compile options policy p literal).1 = .ok c) :
    c.program.typeConstants.Nodup ∧
      (((c.program.globals ++ c.program.fieldMaps).map (·.name)).Nodup ↔ FieldsApart p) ∧
      ((∀ a ∈ methodRefs p, a.IsPlain) →
        (MethodsApart p → (c.program.procedures.map (·.name)).Nodup) ∧
        (c.skipped = [] → (c.program.procedures.map (·.name)).Nodup → MethodsApart p)) := by
  obtain ⟨procedures, r, hr, hprogram, hsub, hall⟩ := compile_declares h
  rw [map_procedureName] at hsub hall
  refine ⟨?_, variables_nodup_iff hprogram, fun hp => ?_⟩
  · obtain ⟨fields, -, heq⟩ := assemble_eq_ok hprogram
    have hconstants : c.program.typeConstants =
        (Hierarchy.ofProgram p).table.names.map ("T$" ++ ·) := by
      rw [heq, TypeTable.names, List.map_map]
      rfl
    rw [hconstants]
    exact (nodup_names_ofDefs p.allTypes).map fun _ _ => (String.append_right_inj _).mp
  · rw [procedures_of_assemble hprogram, procedures_nodup_iff hp hr hsub, ← methods_nodup_iff hp]
    refine ⟨fun hnodup => hnodup.sublist hsub, fun hempty hnodup => ?_⟩
    rwa [← hall hempty]

/-- A program whose methods and fields can be compiled is compiled, and nothing is left out. -/
theorem exists_compile_eq_ok {options : Options} (hb : options.instrumentBranches = false)
    (hc : options.captureState = false) (policy : FailurePolicy) {p : Source.Program}
    {literal : Int64 → Int64}
    (hmembers : ∀ m ∈ membersOf p,
      (outcomeOf (envOf options p literal) (Hierarchy.ofProgram p) m).isOk = true)
    (hfields : (fieldDecls p).isOk = true) :
    ∃ c, (compile options policy p literal).1 = .ok c ∧ c.skipped = [] := by
  obtain ⟨talk, ht, -⟩ := exists_talksOf hb hc p literal 1
  obtain ⟨results, r, hs, h⟩ := compile_eq policy ht
  have hfaults : faults ((membersOf p).zip results) = [] := by
    rw [zip_results ht hs, faults, List.filterMap_map, List.filterMap_eq_nil_iff]
    intro m hm
    have hok := hmembers m hm
    cases hq : outcomeOf (envOf options p literal) (Hierarchy.ofProgram p) m with
    | error e =>
      rw [hq] at hok
      cases hok
    | ok q => simp [hq]
  rw [h]
  exact exists_concluded_eq_ok policy _ hfaults hfields

/-- Overloads, an explicit implementation, and a nested type with a method of the same name. -/
def runner : Source.Program :=
  let inner : Source.TypeDef :=
    { name := ⟨"Runner.Inner", none⟩, kind := .structType, fields := [{ name := "n", ty := .int }],
      methods := [{ name := "Run" }] }
  { types := [
      { name := ⟨"Runner", none⟩, kind := .classType, fields := [{ name := "n", ty := .int }],
        methods := [
          { name := "Run" },
          { name := "Run", params := [⟨"n", .int⟩] },
          { name := "Run", params := [⟨"n", .int⟩, ⟨"i", .named ⟨"Runner.Inner", none⟩⟩] },
          { name := "IRun.Run" }],
        nested := [inner] }] }

theorem runner_nodup : ∃ c, (compile {} .abort runner).1 = .ok c ∧
    c.program.typeConstants.Nodup ∧
    ((c.program.globals ++ c.program.fieldMaps).map (·.name)).Nodup ∧
    (c.program.procedures.map (·.name)).Nodup := by
  obtain ⟨c, hc, -⟩ : ∃ c, (compile {} .abort runner).1 = .ok c ∧ c.skipped = [] :=
    exists_compile_eq_ok rfl rfl .abort (by decide +kernel) (by decide +kernel)
  have hplain : ∀ a ∈ methodRefs runner, a.IsPlain := by decide +kernel
  obtain ⟨htypes, hvariables, hprocedures⟩ := compile_nodup_iff hc
  refine ⟨c, hc, htypes, hvariables.mpr ?_, (hprocedures hplain).1 ?_⟩
  · rw [← fields_nodup_iff]
    decide +kernel
  · rw [← methods_nodup_iff hplain]
    decide +kernel

/-- A type that is declared twice, as a stub and for real. -/
def stubbed : Source.Program :=
  let declared (module : String) : Source.TypeDef :=
    { name := ⟨"T", some module⟩, kind := .classType, fields := [{ name := "f", ty := .int }],
      methods := [{ name := "m" }] }
  { types := [declared "stub", declared "real"] }

/-- No definition of the program declares a member twice, but the compiled program does. -/
theorem exists_declared_twice : ∃ p c,
    (∀ d ∈ p.allTypes, (d.methods.Pairwise fun m m' => ¬ m.hasSignature (m'.reference d.name)) ∧
      (d.fields.map (·.name)).Nodup) ∧
    (compile {} .abort p).1 = .ok c ∧
    ¬ ((c.program.globals ++ c.program.fieldMaps).map (·.name)).Nodup ∧
    ¬ (c.program.procedures.map (·.name)).Nodup := by
  obtain ⟨c, hc, hempty⟩ : ∃ c, (compile {} .abort stubbed).1 = .ok c ∧ c.skipped = [] :=
    exists_compile_eq_ok rfl rfl .abort (by decide) (by decide)
  obtain ⟨procedures, r, -, hprogram, -, hall⟩ := compile_declares hc
  refine ⟨stubbed, c, by decide, hc, ?_, ?_⟩
  · rw [variables_nodup_iff hprogram, ← fields_nodup_iff]
    decide
  · rw [procedures_of_assemble hprogram, List.map_append, hall hempty]
    exact fun hnodup => absurd hnodup.of_append_left (by decide)

end Unwind.Compilation
