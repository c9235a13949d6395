import Mathlib.Data.List.Nodup
import Mathlib.Data.List.Perm.Basic
import Unwind.Proofs.Hierarchy.DeclarationOrder

/-!
# The subtype index holds just the direct edges

The walk that builds the index keeps the names it has not met, which is what bounds it. `Walks` is
the walk without that bound: it knows which definitions it has entered, and nothing tells beforehand
that it ends. It ends all the same, on every program, and with the entries of the index
(`walks_build_iff`).

What the index says is then told by the set of definitions alone: a type has an entry when some
definition lists it, below it are the types whose definitions do, and no name comes twice
(`build_direct_subtypes`). The order of the types in the program is the order of the entries, and
of nothing else.
-/

namespace Unwind.SubtypeIndex

open Source

/-! ## The walk without a bound -/

/-- The walk over the tasks leads from the entries `es` to `es'`, when the definitions `entered` have
been entered before. A definition is entered once, its edges before the types nested in it. -/
inductive Walks (table : TypeTable) :
    List String → List Entry → List Task → List Entry → Prop
  | done {entered : List String} {es : List Entry} : Walks table entered es [] es
  | edge {entered : List String} {es es' : List Entry} {base : TypeRef} {d baseDef : TypeDef}
      {rest : List Task} : table.get? base = some baseDef →
      Walks table entered (addEdge base d.name es) (.visit baseDef :: rest) es' →
      Walks table entered es (.edge base d :: rest) es'
  | undefined {entered : List String} {es es' : List Entry} {base : TypeRef} {d : TypeDef}
      {rest : List Task} : table.get? base = none →
      Walks table entered (addEdge base d.name es) rest es' →
      Walks table entered es (.edge base d :: rest) es'
  | enter {entered : List String} {es es' : List Entry} {d : TypeDef} {rest : List Task} :
      d.name.qualified ∉ entered →
      Walks table (d.name.qualified :: entered) es (tasksOf d ++ rest) es' →
      Walks table entered es (.visit d :: rest) es'
  | again {entered : List String} {es es' : List Entry} {d : TypeDef} {rest : List Task} :
      d.name.qualified ∈ entered → Walks table entered es rest es' →
      Walks table entered es (.visit d :: rest) es'

theorem Walks.unique {table : TypeTable} {entered : List String} {es es₁ es₂ : List Entry}
    {tasks : List Task} (h₁ : Walks table entered es tasks es₁)
    (h₂ : Walks table entered es tasks es₂) : es₁ = es₂ := by
  induction h₁ with
  | done =>
    cases h₂
    rfl
  | edge hget _ ih =>
    cases h₂ with
    | edge hget' h₂ =>
      cases hget.symm.trans hget'
      exact ih h₂
    | undefined hget' _ => cases hget.symm.trans hget'
  | undefined hget _ ih =>
    cases h₂ with
    | edge hget' _ => cases hget.symm.trans hget'
    | undefined _ h₂ => exact ih h₂
  | enter hnew _ ih =>
    cases h₂ with
    | enter _ h₂ => exact ih h₂
    | again hold _ => exact absurd hold hnew
  | again hold _ ih =>
    cases h₂ with
    | enter hnew _ => exact absurd hold hnew
    | again _ h₂ => exact ih h₂

/-- Of the definitions of the program, those not met are the ones not entered. -/
def Unentered (p : Program) (unvisited entered : List String) : Prop :=
  ∀ d ∈ p.allTypes, d.name.qualified ∈ unvisited ↔ d.name.qualified ∉ entered

theorem Unentered.enter {p : Program} {unvisited entered : List String}
    (h : Unentered p unvisited entered) (q : String) :
    Unentered p (strike unvisited q) (q :: entered) := by
  intro d hd
  rw [mem_strike, h d hd, List.mem_cons, not_or, and_comm]

/-- The bounded walk is the walk, as long as it starts with all names of the program. -/
theorem walks_walk {p : Program} {table : TypeTable}
    (htable : ∀ {ref d}, table.get? ref = some d → d ∈ p.allTypes)
    {unvisited entered : List String} {es : List Entry} {tasks : List Task}
    (htasks : ∀ task ∈ tasks, task.about ∈ p.allTypes) (hu : Unentered p unvisited entered) :
    Walks table entered es tasks (walk table unvisited es tasks) := by
  revert entered
  fun_induction walk table unvisited es tasks with
  | case1 => exact fun _ => .done
  | case2 unvisited es base d rest es' baseDef hget ih =>
    intro entered hu
    obtain ⟨hd, hrest⟩ := List.forall_mem_cons.mp htasks
    exact .edge hget (ih (List.forall_mem_cons.mpr ⟨htable hget, hrest⟩) hu)
  | case3 unvisited es base d rest es' hget ih =>
    intro entered hu
    exact .undefined hget (ih (List.forall_mem_cons.mp htasks).2 hu)
  | case4 unvisited es d rest hmem ih =>
    intro entered hu
    obtain ⟨hd, hrest⟩ := List.forall_mem_cons.mp htasks
    refine .enter ((hu d hd).mp hmem) (ih (List.forall_mem_append.mpr ⟨?_, hrest⟩) (hu.enter _))
    intro task ht
    rcases Walking.mem_tasksOf.mp ht with ⟨b, -, rfl⟩ | ⟨n, hn, rfl⟩
    · exact hd
    · exact TypeDef.nested_mem_allNested _ hd hn
  | case5 unvisited es d rest hmem ih =>
    intro entered hu
    obtain ⟨hd, hrest⟩ := List.forall_mem_cons.mp htasks
    exact .again (not_not.mp (mt (hu d hd).mpr hmem)) (ih hrest hu)

/-- On every program the walk ends, and its result is the index. -/
theorem walks_build_iff {p : Program} {es : List Entry} :
    Walks (TypeTable.ofProgram p) [] [] (p.types.map .visit) es ↔
      es = (build p (TypeTable.ofProgram p)).entries := by
  have hwalk : Walks (TypeTable.ofProgram p) [] [] (p.types.map .visit)
      (build p (TypeTable.ofProgram p)).entries := by
    refine walks_walk TypeTable.mem_of_get?_ofProgram (fun task ht => ?_) fun d hd => ?_
    · obtain ⟨d, hd, rfl⟩ := List.mem_map.mp ht
      exact TypeDef.mem_allNested_of_mem hd
    · simpa using ⟨d, hd, rfl⟩
  constructor
  · exact fun h => h.unique hwalk
  · rintro rfl
    exact hwalk

/-! ## Entries -/

/-- Every supertype has one entry, with at least one subtype in it and none twice. -/
structure Neat (es : List Entry) : Prop where
  once : (es.map (·.base.name)).Nodup
  subtypes : ∀ e ∈ es, e.subtypes ≠ [] ∧ (e.subtypes.map (·.name)).Nodup

theorem names_addEdge (base sub : TypeRef) (es : List Entry) :
    (addEdge base sub es).map (·.base.name) =
      if base.name ∈ es.map (·.base.name) then es.map (·.base.name)
      else es.map (·.base.name) ++ [base.name] := by
  induction es with
  | nil => simp [addEdge]
  | cons e es ih =>
    unfold addEdge
    by_cases he : e.base.name = base.name
    · rw [if_pos (TypeRef.beq_iff.mpr he)]
      simp [he]
    · rw [if_neg (mt TypeRef.beq_iff.mp he), List.map_cons, ih, List.map_cons]
      by_cases hmem : base.name ∈ es.map (·.base.name)
      · rw [if_pos hmem, if_pos (List.mem_cons_of_mem _ hmem)]
      · rw [if_neg hmem, if_neg (List.not_mem_cons_of_ne_of_not_mem (Ne.symm he) hmem),
          List.cons_append]

theorem nodup_insertNew {ts : List TypeRef} (h : (ts.map (·.name)).Nodup) (t : TypeRef) :
    insertNew ts t ≠ [] ∧ ((insertNew ts t).map (·.name)).Nodup := by
  unfold insertNew
  split
  · next hany =>
    refine ⟨?_, h⟩
    rintro rfl
    cases hany
  · next hany =>
    refine ⟨by simp, ?_⟩
    rw [List.map_append, List.nodup_append]
    refine ⟨h, List.nodup_singleton _, fun x hx y hy hxy => hany ?_⟩
    obtain ⟨u, hu, rfl⟩ := List.mem_map.mp hx
    rw [List.mem_singleton.mp hy] at hxy
    exact List.any_eq_true.mpr ⟨u, hu, TypeRef.beq_iff.mpr hxy⟩

theorem Neat.addEdge {es : List Entry} (h : Neat es) (base sub : TypeRef) :
    Neat (addEdge base sub es) where
  once := by
    rw [names_addEdge]
    split
    · exact h.once
    · next hnew =>
      refine List.nodup_append.mpr ⟨h.once, List.nodup_singleton _, fun x hx y hy hxy => hnew ?_⟩
      rwa [← List.mem_singleton.mp hy, ← hxy]
  subtypes := by
    have hall := h.subtypes
    clear h
    induction es with
    | nil => simp [SubtypeIndex.addEdge]
    | cons e es ih =>
      obtain ⟨he, hrest⟩ := List.forall_mem_cons.mp hall
      unfold SubtypeIndex.addEdge
      split
      · exact List.forall_mem_cons.mpr ⟨nodup_insertNew he.2 sub, hrest⟩
      · exact List.forall_mem_cons.mpr ⟨he, ih hrest⟩

theorem Neat.walk {table : TypeTable} {unvisited : List String} {es : List Entry}
    {tasks : List Task} (h : Neat es) : Neat (walk table unvisited es tasks) := by
  fun_induction SubtypeIndex.walk table unvisited es tasks with
  | case1 => exact h
  | case2 unvisited es base d rest es' baseDef hget ih => exact ih (h.addEdge _ _)
  | case3 unvisited es base d rest es' hget ih => exact ih (h.addEdge _ _)
  | case4 unvisited es d rest hu ih => exact ih h
  | case5 unvisited es d rest hu ih => exact ih h

theorem neat_build (p : Program) (table : TypeTable) : Neat (build p table).entries :=
  Neat.walk ⟨List.nodup_nil, List.forall_mem_nil _⟩

/-! ## Looking types up -/

section

variable {x y : SubtypeIndex}

theorem entry?_of_mem (hx : Neat x.entries) {e : Entry} (he : e ∈ x.entries) {t : TypeRef}
    (ht : e.base.name = t.name) : x.entry? t = some e := by
  have hsome : (x.entry? t).isSome := List.find?_isSome.mpr ⟨e, he, TypeRef.beq_iff.mpr ht⟩
  obtain ⟨e', he'⟩ := Option.isSome_iff_exists.mp hsome
  have hbase := List.find?_some (p := fun e : Entry => e.base == t) he'
  rw [he', List.inj_on_of_nodup_map hx.once (List.mem_of_find?_eq_some he') he
    ((TypeRef.beq_iff.mp hbase).trans ht.symm)]

theorem subtypes_of_entry? {t : TypeRef} {e : Entry} (h : x.entry? t = some e) :
    x.subtypes t = e.subtypes := by
  rw [subtypes, h]

theorem nodup_subtypes (hx : Neat x.entries) (t : TypeRef) :
    ((x.subtypes t).map (·.name)).Nodup := by
  unfold subtypes
  split
  · next e he => exact (hx.subtypes e (List.mem_of_find?_eq_some he)).2
  · exact List.nodup_nil

/-- A type has an entry when there is a type below it. -/
theorem contains_iff (hx : Neat x.entries) (t : TypeRef) :
    x.contains t = true ↔ ∃ n, n ∈ (x.subtypes t).map (·.name) := by
  unfold contains subtypes
  cases he : x.entry? t with
  | none => simp
  | some e =>
    obtain ⟨s, hs⟩ := List.exists_mem_of_ne_nil _ (hx.subtypes e (List.mem_of_find?_eq_some he)).1
    exact iff_of_true rfl ⟨s.name, List.mem_map_of_mem hs⟩

theorem contains_iff_mem (t : TypeRef) :
    x.contains t = true ↔ t.name ∈ x.entries.map (·.base.name) := by
  rw [contains, entry?, List.find?_isSome, List.mem_map]
  simp only [TypeRef.beq_iff]

/-- Indexes that have the same types below every type are the same, up to the order. -/
theorem sameAs_of_subtypes (hx : Neat x.entries) (hy : Neat y.entries)
    (h : ∀ t n, n ∈ (x.subtypes t).map (·.name) ↔ n ∈ (y.subtypes t).map (·.name)) :
    x.sameAs y = true := by
  have hcontains : ∀ t, x.contains t = true ↔ y.contains t = true := by
    intro t
    rw [contains_iff hx, contains_iff hy]
    simp only [h]
  -- each index names a supertype once, so that their sizes can be compared by the names
  have hsize : x.size = y.size := by
    have hkeys : (x.entries.map (·.base.name)).Perm (y.entries.map (·.base.name)) := by
      refine (List.perm_ext_iff_of_nodup hx.once hy.once).mpr fun n => ?_
      have hn := hcontains { name := n }
      rwa [contains_iff_mem, contains_iff_mem] at hn
    simpa [size] using hkeys.length_eq
  rw [sameAs, hsize, beq_self_eq_true, Bool.true_and, List.all_eq_true]
  intro e he
  have hxe := entry?_of_mem hx he rfl
  obtain ⟨e', hye⟩ : ∃ e', y.entry? e.base = some e' :=
    Option.isSome_iff_exists.mp ((hcontains e.base).mp (by rw [contains, hxe]; rfl))
  have hnames : (e.subtypes.map (·.name)).Perm (e'.subtypes.map (·.name)) := by
    rw [← subtypes_of_entry? hxe, ← subtypes_of_entry? hye]
    exact (List.perm_ext_iff_of_nodup (nodup_subtypes hx _) (nodup_subtypes hy _)).mpr (h e.base)
  rw [hye]
  dsimp only
  rw [Bool.and_eq_true, beq_iff_eq, List.all_eq_true]
  refine ⟨by simpa using hnames.length_eq, fun t ht => List.any_eq_true.mpr ?_⟩
  obtain ⟨u, hu, hname⟩ := List.mem_map.mp (hnames.mem_iff.mp (List.mem_map_of_mem ht))
  exact ⟨u, hu, TypeRef.beq_iff.mpr hname⟩

end

/-! ## The index of a program -/

theorem lists_perm {p p' : Program} (h : p.types.Perm p'.types) (x t : String) :
    Lists p x t ↔ Lists p' x t := by
  simp only [Lists, (Program.allTypes_perm h).mem_iff]

/-- When qualified names tell the definitions apart, the walk over the program ends with the index;
the index has below a type just the types that list it, has entries for just the types that are
listed, and names nothing twice; and the order of the top-level types does not count. -/
theorem build_direct_subtypes {p : Program} (hq : (p.allTypes.map (·.name.qualified)).Nodup) :
    let index := build p (TypeTable.ofProgram p)
    (∀ es, Walks (TypeTable.ofProgram p) [] [] (p.types.map .visit) es ↔ es = index.entries) ∧
      (∀ t s : TypeRef, s.name ∈ (index.subtypes t).map (·.name) ↔ Lists p s.name t.name) ∧
      (∀ t : TypeRef, index.contains t = true ↔ ∃ s, Lists p s t.name) ∧
      (∀ t : TypeRef, ((index.subtypes t).map (·.name)).Nodup) ∧
      (index.entries.map (·.base.name)).Nodup ∧
      ∀ p' : Program, p.types.Perm p'.types →
        index.sameAs (build p' (TypeTable.ofProgram p')) = true := by
  have hneat : ∀ p : Program, Neat (build p (TypeTable.ofProgram p)).entries :=
    fun p => neat_build p _
  refine ⟨fun es => walks_build_iff, fun t s => mem_subtypes_build hq, fun t => ?_,
    nodup_subtypes (hneat p), (hneat p).once, fun p' hp => ?_⟩
  · simp only [contains_iff (hneat p), mem_subtypes_build hq]
  · have hq' : (p'.allTypes.map (·.name.qualified)).Nodup :=
      ((Program.allTypes_perm hp).map _).nodup_iff.mp hq
    refine sameAs_of_subtypes (hneat p) (hneat p') fun t n => ?_
    rw [mem_subtypes_build hq, mem_subtypes_build hq', lists_perm hp]

/-- Two classes that list each other, a nested type, a base that nothing defines, and a class that is
declared in two modules. -/
def tangle : Program where
  types := [
    ⟨⟨"Egg", none⟩, .classType, [⟨"Hen", none⟩], [⟨"Edible", none⟩], [], [],
      [⟨⟨"Yolk", none⟩, .classType, [⟨"Egg", none⟩], [], [], [], []⟩]⟩,
    ⟨⟨"Hen", some "stub"⟩, .classType, [⟨"Egg", none⟩], [], [], [], []⟩,
    ⟨⟨"Hen", some "real"⟩, .classType, [⟨"Egg", none⟩, ⟨"Bird", none⟩], [], [], [], []⟩]

/-- Both declarations of the hen are walked, and neither is listed twice. -/
theorem tangle_direct_subtypes :
    (tangle.allTypes.map (·.name.qualified)).Nodup ∧
      (build tangle (TypeTable.ofProgram tangle)).entries.map
          (fun e => (e.base.name, e.subtypes.map (·.name))) =
        [("Hen", ["Egg"]), ("Egg", ["Hen", "Yolk"]), ("Edible", ["Egg"]), ("Bird", ["Hen"])] ∧
      (∃ s, Lists tangle s "Bird") ∧
      (build tangle (TypeTable.ofProgram tangle)).sameAs
        (build { types := tangle.types.reverse }
          (TypeTable.ofProgram { types := tangle.types.reverse })) = true := by
  have hq : (tangle.allTypes.map (·.name.qualified)).Nodup := by decide
  have hindex : build tangle (TypeTable.ofProgram tangle) =
      ⟨[⟨⟨"Hen", none⟩, [⟨"Egg", none⟩]⟩, ⟨⟨"Egg", none⟩, [⟨"Hen", some "stub"⟩, ⟨"Yolk", none⟩]⟩,
        ⟨⟨"Edible", none⟩, [⟨"Egg", none⟩]⟩, ⟨⟨"Bird", none⟩, [⟨"Hen", some "real"⟩]⟩]⟩ := by
    cbv
  have hentries : (build tangle (TypeTable.ofProgram tangle)).entries.map
      (fun e => (e.base.name, e.subtypes.map (·.name))) =
      [("Hen", ["Egg"]), ("Egg", ["Hen", "Yolk"]), ("Edible", ["Egg"]), ("Bird", ["Hen"])] := by
    rw [hindex]
    rfl
  have hcontains : (build tangle (TypeTable.ofProgram tangle)).contains ⟨"Bird", none⟩ = true := by
    rw [hindex]
    decide
  obtain ⟨-, -, hlisted, -, -, horder⟩ := build_direct_subtypes hq
  exact ⟨hq, hentries, (hlisted _).mp hcontains, horder _ (List.reverse_perm _).symm⟩

end Unwind.SubtypeIndex
