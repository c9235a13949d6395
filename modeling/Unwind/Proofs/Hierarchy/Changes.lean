import Mathlib.Data.List.Basic
import Unwind.Hierarchy.Overrides

/-!
# Changes that a hierarchy does not see

The table, the index and the overrides of a program are found by names. Definitions may be changed
in everything else, and references in how they spell a name.

* When definitions keep their names and their supertypes and nested definitions are changed one by
  one, the table and the index of the changed program are those of the program, changed
  (`TypeTable.ofDefs_map`, `SubtypeIndex.build_map`).
* When a change also keeps what the walks ask definitions for (`Hierarchy.Change`), a changed
  hierarchy resolves a changed method to the overrides of the method, changed
  (`Hierarchy.resolve_change`).
-/

namespace Unwind

open Source

/-! ## Nested definitions -/

namespace Source.TypeDef

theorem withNested_eq (d : TypeDef) : d.withNested = d :: allNested d.nested := by cases d; rfl

mutual

theorem withNested_map {defn : TypeDef → TypeDef}
    (hnested : ∀ d, (defn d).nested = d.nested.map defn) (d : TypeDef) :
    (defn d).withNested = d.withNested.map defn := by
  obtain ⟨name, kind, baseClasses, interfaces, fields, methods, nested⟩ := d
  rw [withNested_eq, hnested, withNested, List.map_cons, ← allNested_map hnested nested]

theorem allNested_map {defn : TypeDef → TypeDef}
    (hnested : ∀ d, (defn d).nested = d.nested.map defn) (ds : List TypeDef) :
    allNested (ds.map defn) = (allNested ds).map defn := by
  cases ds with
  | nil => rfl
  | cons d ds =>
    rw [List.map_cons, allNested, allNested, List.map_append, withNested_map hnested d,
      allNested_map hnested ds]

end

end Source.TypeDef

/-! ## The type table -/

namespace TypeTable

/-- The table with every definition changed. -/
def map (defn : TypeDef → TypeDef) (t : TypeTable) : TypeTable := ⟨t.defs.map defn⟩

/-- A table is asked for a name. -/
theorem get?_congr {t : TypeTable} {a b : TypeRef} (h : a.name = b.name) : t.get? a = t.get? b := by
  show t.defs.find? (·.name.name == a.name) = t.defs.find? (·.name.name == b.name)
  rw [h]

variable {defn : TypeDef → TypeDef} (hname : ∀ d, (defn d).name.name = d.name.name)
include hname

theorem get?_map (t : TypeTable) (ref : TypeRef) :
    (t.map defn).get? ref = (t.get? ref).map defn := by
  show (t.defs.map defn).find? (·.name.name == ref.name) =
    (t.defs.find? (·.name.name == ref.name)).map defn
  simp only [List.find?_map, Function.comp_def, hname]

theorem names_map (t : TypeTable) : (t.map defn).names = t.names := by
  simp only [names, map, List.map_map, Function.comp_def, hname]

theorem insertNew_map (t : TypeTable) (d : TypeDef) :
    (t.map defn).insertNew (defn d) = (t.insertNew d).map defn := by
  simp only [insertNew, get?_map hname, Option.isSome_map, get?_congr (hname d)]
  split
  · rfl
  · simp [map]

theorem ofDefs_map (ds : List TypeDef) : ofDefs (ds.map defn) = (ofDefs ds).map defn := by
  -- the table grows along the fold, so that the induction is over any table
  have hfold : ∀ t : TypeTable, (ds.map defn).foldl insertNew (t.map defn) =
      (ds.foldl insertNew t).map defn := by
    induction ds with
    | nil => exact fun _ => rfl
    | cons d ds ih =>
      intro t
      rw [List.map_cons, List.foldl_cons, List.foldl_cons, insertNew_map hname, ih]
  exact hfold {}

end TypeTable

/-! ## The subtype index -/

namespace SubtypeIndex

/-- The entry of a base that is spelled another way. -/
def Entry.mapBase (ref : TypeRef → TypeRef) (e : Entry) : Entry := { e with base := ref e.base }

/-- The task with its base and its definition changed. -/
def Task.map (ref : TypeRef → TypeRef) (defn : TypeDef → TypeDef) : Task → Task
  | visit d => visit (defn d)
  | edge base d => edge (ref base) (defn d)

variable {ref : TypeRef → TypeRef} {defn : TypeDef → TypeDef} (hname : ∀ t, (ref t).name = t.name)

include hname in
theorem addEdge_mapBase (base sub : TypeRef) (es : List Entry) :
    addEdge (ref base) sub (es.map (Entry.mapBase ref)) =
      (addEdge base sub es).map (Entry.mapBase ref) := by
  have hbeq : ∀ a b : TypeRef, (ref a == ref b) = (a == b) := by
    intro a b
    show ((ref a).name == (ref b).name) = (a.name == b.name)
    rw [hname, hname]
  induction es with
  | nil => rfl
  | cons e es ih =>
    simp only [List.map_cons, addEdge, Entry.mapBase, hbeq]
    split
    · rfl
    · rw [List.map_cons, ← ih]
      rfl

section

variable (hdefn : ∀ d, (defn d).name = d.name)
  (hsuper : ∀ d, (defn d).supertypes = d.supertypes.map ref)
  (hnested : ∀ d, (defn d).nested = d.nested.map defn)
include hname hdefn hsuper hnested

omit hname hdefn in
theorem tasksOf_map (d : TypeDef) : tasksOf (defn d) = (tasksOf d).map (Task.map ref defn) := by
  simp [tasksOf, hsuper, hnested, Task.map, Function.comp_def]

/-- The walk over a changed program takes the same steps. -/
theorem walk_map (table : TypeTable) (unvisited : List String) (entries : List Entry)
    (tasks : List Task) :
    walk (table.map defn) unvisited (entries.map (Entry.mapBase ref))
        (tasks.map (Task.map ref defn)) =
      (walk table unvisited entries tasks).map (Entry.mapBase ref) := by
  have hget : ∀ base, (table.map defn).get? (ref base) = (table.get? base).map defn := by
    intro base
    rw [TypeTable.get?_map fun d => congrArg TypeRef.name (hdefn d),
      TypeTable.get?_congr (hname base)]
  fun_induction walk table unvisited entries tasks with
  | case1 => rw [List.map_nil, walk]
  | case2 unvisited entries base d rest entries' baseDef hbase ih =>
    rw [List.map_cons, Task.map, walk, hget, hbase, hdefn, addEdge_mapBase hname]
    exact ih
  | case3 unvisited entries base d rest entries' hbase ih =>
    rw [List.map_cons, Task.map, walk, hget, hbase, hdefn, addEdge_mapBase hname]
    exact ih
  | case4 unvisited entries d rest hd ih =>
    rw [List.map_cons, Task.map, walk, hdefn, dif_pos hd, tasksOf_map hsuper hnested,
      ← List.map_append]
    exact ih
  | case5 unvisited entries d rest hd ih =>
    rw [List.map_cons, Task.map, walk, hdefn, dif_neg hd]
    exact ih

theorem build_map {p p' : Program} (hp : p'.types = p.types.map defn) (table : TypeTable) :
    (build p' (table.map defn)).entries = (build p table).entries.map (Entry.mapBase ref) := by
  -- what is left to visit is counted by qualified names, which `defn` keeps
  have hnames : p'.allTypes.map (·.name.qualified) = p.allTypes.map (·.name.qualified) := by
    rw [Program.allTypes, hp, TypeDef.allNested_map hnested, List.map_map]
    exact List.map_congr_left fun d _ => congrArg TypeRef.qualified (hdefn d)
  have htasks : p'.types.map Task.visit = (p.types.map Task.visit).map (Task.map ref defn) := by
    rw [hp, List.map_map, List.map_map]
    rfl
  rw [build, build, hnames, htasks]
  exact walk_map hname hdefn hsuper hnested table _ [] _

end

/-- The entry with all its references spelled another way. -/
def Entry.map (ref : TypeRef → TypeRef) (e : Entry) : Entry := ⟨ref e.base, e.subtypes.map ref⟩

/-- The index with all its references spelled another way. -/
def map (ref : TypeRef → TypeRef) (x : SubtypeIndex) : SubtypeIndex :=
  ⟨x.entries.map (Entry.map ref)⟩

include hname

theorem entry?_map (x : SubtypeIndex) (t : TypeRef) :
    entry? (x.map ref) (ref t) = (x.entry? t).map (Entry.map ref) := by
  show (x.entries.map (Entry.map ref)).find? (·.base.name == (ref t).name) =
    (x.entries.find? (·.base.name == t.name)).map (Entry.map ref)
  simp only [List.find?_map, Function.comp_def, Entry.map, hname]

theorem subtypes_map (x : SubtypeIndex) (t : TypeRef) :
    (x.map ref).subtypes (ref t) = (x.subtypes t).map ref := by
  rw [subtypes, subtypes, entry?_map hname]
  cases x.entry? t <;> rfl

theorem contains_map (x : SubtypeIndex) (t : TypeRef) :
    (x.map ref).contains (ref t) = x.contains t := by
  rw [contains, contains, entry?_map hname, Option.isSome_map]

theorem subtypeNames_map (x : SubtypeIndex) : (x.map ref).subtypeNames = x.subtypeNames := by
  simp only [subtypeNames, map, Entry.map, List.flatMap_map, List.map_map, Function.comp_def,
    hname]

omit hname in
theorem size_map (x : SubtypeIndex) : (x.map ref).size = x.size := List.length_map _

end SubtypeIndex

/-! ## Overrides -/

namespace Hierarchy

/-- A change of references, methods and definitions that keeps names, and keeps what definitions say
about their methods. -/
structure Change where
  ref : TypeRef → TypeRef
  method : MethodRef → MethodRef
  defn : TypeDef → TypeDef
  member : MethodDef → MethodDef
  name_ref : ∀ t, (ref t).name = t.name
  type_method : ∀ m, (method m).type = ref m.type
  text_method : ∀ m, (method m).text = m.text
  beq_method : ∀ a b, (method a == method b) = (a == b)
  name_defn : ∀ d, (defn d).name = ref d.name
  isInterface_defn : ∀ d, (defn d).isInterface = d.isInterface
  methods_defn : ∀ d, (defn d).methods = d.methods.map member
  reference_member : ∀ x t, (member x).reference (ref t) = method (x.reference t)
  hasSignature_member : ∀ x m, (member x).hasSignature (method m) = x.hasSignature m
  isVirtual_member : ∀ x, (member x).isVirtual = x.isVirtual
  isNewSlot_member : ∀ x, (member x).isNewSlot = x.isNewSlot
  isStatic_member : ∀ x, (member x).isStatic = x.isStatic
  explicitOverrides_member : ∀ x m,
    (member x).explicitOverrides.any (· == method m) = x.explicitOverrides.any (· == m)

/-- The hierarchy with all references and definitions changed. -/
def change (h : Hierarchy) (c : Change) : Hierarchy := ⟨h.table.map c.defn, h.index.map c.ref⟩

namespace Change

/-- The override with its type and its method changed. -/
def override (c : Change) (o : Override) : Override := ⟨c.ref o.type, c.method o.method⟩

variable (c : Change)

theorem get?_defn (t : TypeTable) (ref : TypeRef) :
    (t.map c.defn).get? (c.ref ref) = (t.get? ref).map c.defn := by
  rw [TypeTable.get?_map fun d => by rw [c.name_defn, c.name_ref],
    TypeTable.get?_congr (c.name_ref ref)]

theorem beq_ref (a b : TypeRef) : (c.ref a == c.ref b) = (a == b) := by
  show ((c.ref a).name == (c.ref b).name) = (a.name == b.name)
  rw [c.name_ref, c.name_ref]

theorem methodsMatching_defn (d : TypeDef) (m : MethodRef) :
    (c.defn d).methodsMatching (c.method m) = (d.methodsMatching m).map c.member := by
  simp only [TypeDef.methodsMatching, c.methods_defn, List.filter_map, Function.comp_def,
    c.hasSignature_member]

theorem overrideIn?_defn (d : TypeDef) (m : MethodRef) :
    overrideIn? (c.defn d) (c.method m) = (overrideIn? d m).map c.method := by
  simp only [overrideIn?, c.methodsMatching_defn, List.filter_map, List.getLast?_map,
    Option.map_map, Function.comp_def, c.isVirtual_member, c.isNewSlot_member, c.isStatic_member,
    c.name_defn, c.reference_member]

theorem implementationIn?_defn (d : TypeDef) (m : MethodRef) :
    implementationIn? (c.defn d) (c.method m) = (implementationIn? d m).map c.method := by
  simp only [implementationIn?, c.methodsMatching_defn, c.methods_defn, List.filter_map,
    List.getLast?_map, ← Option.map_or, Option.map_map, Function.comp_def,
    c.explicitOverrides_member, c.name_defn, c.reference_member]

end Change

variable (h : Hierarchy) (c : Change)

/-- The declaration that a method refers to. -/
theorem declaration_change (m : MethodRef) :
    ((h.change c).table.get? (c.method m).type).bind
        (fun d => (d.methodsMatching (c.method m)).head?) =
      ((h.table.get? m.type).bind fun d => (d.methodsMatching m).head?).map c.member := by
  rw [c.type_method, change, c.get?_defn]
  cases h.table.get? m.type with
  | none => rfl
  | some d =>
    simp only [Option.map_some, Option.bind_some, c.methodsMatching_defn, List.head?_map]

theorem declaredOnInterface_change (m : MethodRef) :
    (h.change c).declaredOnInterface (c.method m) = h.declaredOnInterface m := by
  rw [declaredOnInterface, declaredOnInterface, c.type_method, change, c.get?_defn]
  cases h.table.get? m.type with
  | none => rfl
  | some d => exact c.isInterface_defn d

theorem runBy_change (t : TypeRef) (m : MethodRef) :
    (h.change c).runBy (c.ref t) (c.method m) = c.method (h.runBy t m) := by
  rw [runBy, runBy, change, c.get?_defn]
  cases h.table.get? t with
  | none => rfl
  | some d =>
    simp only [Option.map_some, Option.bind_some, c.overrideIn?_defn, Option.getD_map]

theorem subtypeDefs_change (t : TypeRef) :
    (h.change c).subtypeDefs (c.ref t) = (h.subtypeDefs t).map c.defn := by
  rw [subtypeDefs, subtypeDefs, change, SubtypeIndex.subtypes_map c.name_ref,
    List.filterMap_map, List.map_filterMap]
  exact List.filterMap_congr fun t' _ => c.get?_defn h.table t'

theorem implementationsBelow_change (m : MethodRef) (unseen : List String) (found : List Override)
    (pending : List TypeDef) :
    (h.change c).implementationsBelow (c.method m) unseen (found.map c.override)
        (pending.map c.defn) =
      (h.implementationsBelow m unseen found pending).map c.override := by
  have hname : ∀ d, (c.defn d).name.name = d.name.name := fun d => by rw [c.name_defn, c.name_ref]
  fun_induction implementationsBelow h m unseen found pending with
  | case1 => rw [List.map_nil, implementationsBelow]
  | case2 unseen found d rest hd unseen' hi ih =>
    rw [List.map_cons, implementationsBelow, dif_pos (by rwa [hname]), c.isInterface_defn,
      if_pos hi, hname, c.name_defn, subtypeDefs_change, ← List.map_append]
    exact ih
  | case3 unseen found d rest hd unseen' hi here ih =>
    have hhere : ((implementationIn? (c.defn d) (c.method m)).toList.map fun r =>
        (⟨(c.defn d).name, r⟩ : Override)) = here.map c.override := by
      rw [c.implementationIn?_defn, c.name_defn, Option.toList_map, List.map_map, List.map_map]
      rfl
    rw [List.map_append] at ih
    rw [List.map_cons, implementationsBelow, dif_pos (by rwa [hname]), c.isInterface_defn,
      if_neg hi, hname, hhere]
    exact ih
  | case4 unseen found d rest hd ih =>
    rw [List.map_cons, implementationsBelow, dif_neg (by rwa [hname])]
    exact ih

theorem implementations_change (t : TypeRef) (m : MethodRef) :
    (h.change c).implementations (c.ref t) (c.method m) =
      (h.implementations t m).map c.override := by
  have hnames : (h.change c).table.names = h.table.names :=
    TypeTable.names_map (fun d => by rw [c.name_defn, c.name_ref]) h.table
  have hpending : ((h.change c).table.get? (c.ref t)).toList =
      (h.table.get? t).toList.map c.defn := by
    rw [change, c.get?_defn, Option.toList_map]
  rw [implementations, hnames, hpending]
  exact implementationsBelow_change h c m _ [] _

theorem seeds_change (t : TypeRef) (m : MethodRef) :
    (h.change c).seeds (c.ref t) (c.method m) = (h.seeds t m).map c.override := by
  rw [seeds, seeds, declaredOnInterface_change, implementations_change]
  split <;> rfl

theorem below_change (o : Override) :
    (h.change c).below (c.override o) = (h.below o).map c.override := by
  rw [below, below, Change.override, change, SubtypeIndex.subtypes_map c.name_ref, List.map_map,
    List.map_map]
  rfl

theorem next_change (t : TypeRef) (m : MethodRef) :
    (h.change c).next (c.ref t) (c.method m) = (h.next t m).map c.override := by
  rw [next, next, declaredOnInterface_change]
  split
  · rw [implementations_change, List.flatMap_map, List.map_flatMap]
    exact List.flatMap_congr fun o _ => below_change h c o
  · exact below_change h c ⟨t, m⟩

theorem foldl_addNew_change (found seeded : List Override) :
    (seeded.map c.override).foldl addNew (found.map c.override) =
      (seeded.foldl addNew found).map c.override := by
  have hadd : ∀ (found : List Override) (o : Override),
      addNew (found.map c.override) (c.override o) = (addNew found o).map c.override := by
    intro found o
    simp only [addNew, List.any_map, Function.comp_def, Change.override, c.beq_ref]
    split <;> simp [Change.override]
  induction seeded generalizing found with
  | nil => rfl
  | cons o seeded ih => rw [List.map_cons, List.foldl_cons, List.foldl_cons, hadd, ih]

theorem typeNames_change (os : List Override) : typeNames (os.map c.override) = typeNames os := by
  simp only [typeNames, List.map_map, Function.comp_def, Change.override, c.name_ref]

theorem overridesBelow_change (unseen : List String) (found pending : List Override) :
    (h.change c).overridesBelow unseen (found.map c.override) (pending.map c.override) =
      (h.overridesBelow unseen found pending).map c.override := by
  fun_induction overridesBelow h unseen found pending with
  | case1 => rw [List.map_nil, overridesBelow]
  | case2 unseen found t inherited rest ht m seeded ih =>
    -- what is added is decided by names, and so is what is struck off
    rw [← foldl_addNew_change, List.map_append, List.map_append] at ih
    rw [List.map_cons, Change.override, overridesBelow, dif_pos (by rwa [c.name_ref])]
    dsimp only
    rw [runBy_change, seeds_change, next_change, typeNames_change, c.name_ref]
    exact ih
  | case3 unseen found t inherited rest ht ih =>
    rw [List.map_cons, Change.override, overridesBelow, dif_neg (by rwa [c.name_ref])]
    exact ih

theorem overrides_change (m : MethodRef) :
    (h.change c).overrides (c.method m) = (h.overrides m).map c.override := by
  have hunseen : (h.change c).index.subtypeNames = h.index.subtypeNames :=
    SubtypeIndex.subtypeNames_map c.name_ref h.index
  have hseeds := foldl_addNew_change c [] (h.seeds m.type m)
  rw [List.map_nil] at hseeds
  simp only [overrides, hunseen, c.type_method, seeds_change, next_change, typeNames_change,
    hseeds, overridesBelow_change, List.all_map, Function.comp_def]
  simp only [Change.override, c.beq_method]
  split <;> rfl

/-- A changed method is resolved to the changed overrides of the method. -/
theorem resolve_change (m : MethodRef) :
    (h.change c).resolve (c.method m) = (h.resolve m).map (List.map c.override) := by
  rw [resolve, resolve, overrides_change, c.type_method, c.text_method, c.name_ref]
  rw [show (h.change c).table = h.table.map c.defn from rfl, c.get?_defn, Option.isSome_map]
  split <;> rfl

end Hierarchy

end Unwind
