import Mathlib.Data.List.Nodup
import Unwind.Hierarchy.Overrides

/-!
# The subtype index is complete

The index lists a type below another exactly when a definition of the program says so
(`mem_subtypes_build`). The walk that builds it visits every definition, as long as qualified names
tell the definitions apart: whatever is nested in a visited definition, and every edge of one, is
entered already or still to do.

A type is known by its name, so that the statements speak of names.
-/

namespace Unwind.Source

theorem TypeRef.beq_iff {a b : TypeRef} : (a == b) = true ↔ a.name = b.name :=
  beq_iff_eq (a := a.name)

theorem MethodRef.type_name_of_beq {a b : MethodRef} (h : (a == b) = true) :
    a.type.name = b.type.name := by
  change (a.type == b.type && a.name == b.name && a.params == b.params) = true at h
  rw [Bool.and_eq_true, Bool.and_eq_true, TypeRef.beq_iff] at h
  exact h.1.1

/-! ## The definitions of a program -/

namespace TypeDef

theorem mem_withNested {d x : TypeDef} : x ∈ withNested d ↔ x = d ∨ x ∈ allNested d.nested := by
  obtain ⟨name, kind, baseClasses, interfaces, fields, methods, nested⟩ := d
  rw [withNested]
  exact List.mem_cons

theorem mem_allNested {ds : List TypeDef} {x : TypeDef} :
    x ∈ allNested ds ↔ ∃ d ∈ ds, x ∈ withNested d := by
  induction ds with
  | nil => simp [allNested]
  | cons d ds ih => simp [allNested, ih]

mutual

/-- What holds of a definition, and of everything nested in one for which it holds, holds of all
definitions inside. -/
theorem withNested_induction {P : TypeDef → Prop} (d : TypeDef)
    (hnested : ∀ x ∈ withNested d, P x → ∀ n ∈ x.nested, P n) (hd : P d) :
    ∀ x ∈ withNested d, P x := by
  obtain ⟨name, kind, baseClasses, interfaces, fields, methods, nested⟩ := d
  intro x hx
  rcases mem_withNested.1 hx with rfl | hx
  · exact hd
  · refine allNested_induction nested (fun y hy => hnested y (mem_withNested.2 (.inr hy))) ?_ x hx
    exact hnested _ (mem_withNested.2 (.inl rfl)) hd

theorem allNested_induction {P : TypeDef → Prop} (ds : List TypeDef)
    (hnested : ∀ x ∈ allNested ds, P x → ∀ n ∈ x.nested, P n) (hds : ∀ d ∈ ds, P d) :
    ∀ x ∈ allNested ds, P x := by
  cases ds with
  | nil =>
    intro x hx
    cases hx
  | cons d ds =>
    intro x hx
    rw [allNested, List.mem_append] at hx
    rcases hx with hx | hx
    · refine withNested_induction d (fun y hy => hnested y ?_) (hds d List.mem_cons_self) x hx
      exact List.mem_append_left _ hy
    · refine allNested_induction ds (fun y hy => hnested y ?_)
        (fun y hy => hds y (List.mem_cons_of_mem _ hy)) x hx
      exact List.mem_append_right _ hy

end

theorem mem_allNested_of_mem {ds : List TypeDef} {d : TypeDef} (h : d ∈ ds) : d ∈ allNested ds :=
  mem_allNested.2 ⟨d, h, mem_withNested.2 (.inl rfl)⟩

mutual

theorem nested_mem_withNested {d n : TypeDef} (e : TypeDef) (hd : d ∈ withNested e)
    (hn : n ∈ d.nested) : n ∈ withNested e := by
  obtain ⟨name, kind, baseClasses, interfaces, fields, methods, nested⟩ := e
  refine mem_withNested.2 (.inr ?_)
  rcases mem_withNested.1 hd with rfl | hd
  · exact mem_allNested_of_mem hn
  · exact nested_mem_allNested nested hd hn

/-- The definitions of a program are closed under nesting. -/
theorem nested_mem_allNested {d n : TypeDef} (ds : List TypeDef) (hd : d ∈ allNested ds)
    (hn : n ∈ d.nested) : n ∈ allNested ds := by
  cases ds with
  | nil => cases hd
  | cons e ds =>
    rw [allNested, List.mem_append] at hd ⊢
    rcases hd with hd | hd
    · exact .inl (nested_mem_withNested e hd hn)
    · exact .inr (nested_mem_allNested ds hd hn)

end

end TypeDef

/-- The names tell the definitions of a program apart. -/
theorem eq_of_name_eq {ds : List TypeDef} {f : TypeDef → String} (h : (ds.map f).Nodup)
    {d d' : TypeDef} (hd : d ∈ ds) (hd' : d' ∈ ds) (he : f d = f d') : d = d' :=
  List.inj_on_of_nodup_map h hd hd' he

end Unwind.Source

namespace Unwind

open Source

/-! ## The type table -/

namespace TypeTable

theorem get?_eq_some {t : TypeTable} {ref : TypeRef} {d : TypeDef} (h : t.get? ref = some d) :
    d ∈ t.defs ∧ d.name.name = ref.name := by
  have hd := List.find?_some h
  exact ⟨List.mem_of_find?_eq_some h, TypeRef.beq_iff.mp hd⟩

/-- With different names, every definition is in the table. -/
theorem defs_ofDefs {ds : List TypeDef} (h : (ds.map (·.name.name)).Nodup) :
    (ofDefs ds).defs = ds := by
  have hfold : ∀ (ds : List TypeDef) (t : TypeTable),
      ((t.defs ++ ds).map (·.name.name)).Nodup → (ds.foldl insertNew t).defs = t.defs ++ ds := by
    intro ds
    induction ds with
    | nil => simp
    | cons d ds ih =>
      intro t hnd
      have hnew : t.get? d.name = none := by
        rw [get?, List.find?_eq_none]
        intro x hx hxd
        rw [TypeRef.beq_iff] at hxd
        rw [List.map_append, List.nodup_append] at hnd
        exact hnd.2.2 _ (List.mem_map_of_mem hx) _ (List.mem_map_of_mem List.mem_cons_self) hxd
      rw [List.foldl_cons, insertNew, hnew, if_neg (by simp), ih _ (by simpa using hnd)]
      simp
  simpa [ofDefs] using hfold ds {} (by simpa using h)

/-- Whatever the table holds was given to it. -/
theorem mem_of_mem_ofDefs {ds : List TypeDef} {d : TypeDef} (h : d ∈ (ofDefs ds).defs) :
    d ∈ ds := by
  have hfold : ∀ (ds : List TypeDef) (t : TypeTable), ∀ d ∈ (ds.foldl insertNew t).defs,
      d ∈ t.defs ∨ d ∈ ds := by
    intro ds
    induction ds with
    | nil => exact fun t d hd => .inl hd
    | cons d' ds ih =>
      intro t d hd
      rcases ih _ d hd with hd | hd
      · unfold insertNew at hd
        split at hd
        · exact .inl hd
        · rcases List.mem_append.mp hd with hd | hd
          · exact .inl hd
          · exact .inr (List.mem_singleton.mp hd ▸ List.mem_cons_self)
      · exact .inr (List.mem_cons_of_mem _ hd)
  rcases hfold ds {} d h with h | h
  · cases h
  · exact h

/-- A definition that is found belongs to the program, whatever the names. -/
theorem mem_of_get?_ofProgram {p : Program} {ref : TypeRef} {d : TypeDef}
    (h : (ofProgram p).get? ref = some d) : d ∈ p.allTypes :=
  mem_of_mem_ofDefs (get?_eq_some h).1

/-- Every definition is found under its name. -/
theorem get?_ofProgram {p : Program} (h : (p.allTypes.map (·.name.name)).Nodup) {d : TypeDef}
    (hd : d ∈ p.allTypes) {ref : TypeRef} (href : ref.name = d.name.name) :
    (ofProgram p).get? ref = some d := by
  have hsome : ((ofProgram p).get? ref).isSome := by
    rw [get?, ofProgram, defs_ofDefs h, List.find?_isSome]
    exact ⟨d, hd, TypeRef.beq_iff.mpr href.symm⟩
  obtain ⟨d', hd'⟩ := Option.isSome_iff_exists.mp hsome
  obtain ⟨hmem, hname⟩ := get?_eq_some hd'
  rw [ofProgram, defs_ofDefs h] at hmem
  rw [hd', eq_of_name_eq h hmem hd (hname.trans href)]

end TypeTable

/-! ## The index -/

namespace SubtypeIndex

/-- The names below a type in a list of entries. -/
def namesBelow (es : List Entry) (t : TypeRef) : List String :=
  (subtypes ⟨es⟩ t).map (·.name)

theorem mem_insertNew {ts : List TypeRef} {t : TypeRef} {x : String} :
    x ∈ (insertNew ts t).map (·.name) ↔ x ∈ ts.map (·.name) ∨ x = t.name := by
  unfold insertNew
  split
  · next h =>
    obtain ⟨u, hu, he⟩ := List.any_eq_true.mp h
    rw [TypeRef.beq_iff] at he
    refine ⟨.inl, fun h => h.elim id ?_⟩
    rintro rfl
    rw [← he]
    exact List.mem_map_of_mem hu
  · simp

theorem namesBelow_cons (e : Entry) (es : List Entry) (t : TypeRef) :
    namesBelow (e :: es) t =
      if e.base.name = t.name then e.subtypes.map (·.name) else namesBelow es t := by
  unfold namesBelow subtypes entry?
  rw [List.find?_cons]
  by_cases h : e.base.name = t.name
  · rw [if_pos h, TypeRef.beq_iff.mpr h]
  · rw [if_neg h, Bool.eq_false_iff.mpr (mt TypeRef.beq_iff.mp h)]

/-- The index is asked for a name, whatever the reference. -/
theorem namesBelow_congr {es : List Entry} {t t' : TypeRef} (h : t.name = t'.name) :
    namesBelow es t = namesBelow es t' := by
  induction es with
  | nil => rfl
  | cons e es ih => rw [namesBelow_cons, namesBelow_cons, h, ih]

/-- What lies below a type after an edge is entered. -/
theorem mem_namesBelow_addEdge {base sub t : TypeRef} {es : List Entry} {x : String} :
    x ∈ namesBelow (addEdge base sub es) t ↔
      x ∈ namesBelow es t ∨ (base.name = t.name ∧ x = sub.name) := by
  induction es with
  | nil =>
    rw [addEdge, namesBelow_cons]
    by_cases hb : base.name = t.name
    · simp [hb, namesBelow, subtypes, entry?]
    · simp [hb]
  | cons e es ih =>
    unfold addEdge
    by_cases he : e.base.name = base.name
    · rw [if_pos (TypeRef.beq_iff.mpr he), namesBelow_cons, namesBelow_cons]
      by_cases ht : e.base.name = t.name
      · rw [if_pos ht, if_pos ht, mem_insertNew]
        simp [← he, ht]
      · rw [if_neg ht, if_neg ht]
        simp [← he, ht]
    · rw [if_neg (mt TypeRef.beq_iff.mp he), namesBelow_cons, namesBelow_cons]
      by_cases ht : e.base.name = t.name
      · rw [if_pos ht, if_pos ht]
        simp [← ht, Ne.symm he]
      · rw [if_neg ht, if_neg ht]
        exact ih

/-! ## The walk -/

/-- The definition a task is about. -/
def Task.about : Task → TypeDef
  | visit d | edge _ d => d

/-- A definition lists a supertype of this name. -/
def Lists (p : Program) (x t : String) : Prop :=
  ∃ d ∈ p.allTypes, d.name.name = x ∧ ∃ b ∈ d.supertypes, b.name = t

/-- What holds at every point of the walk. -/
structure Walking (p : Program) (unvisited : List String) (es : List Entry) (tasks : List Task) :
    Prop where
  known : ∀ task ∈ tasks, task.about ∈ p.allTypes
  listed : ∀ b d, .edge b d ∈ tasks → b ∈ d.supertypes
  sound : ∀ t x, x ∈ namesBelow es t → Lists p x t.name
  /-- The types of the program are visited or to be visited. -/
  top : ∀ d ∈ p.types, d.name.qualified ∈ unvisited → .visit d ∈ tasks
  /-- So are those nested in one that is visited. -/
  nested : ∀ d ∈ p.allTypes, d.name.qualified ∉ unvisited → ∀ n ∈ d.nested,
    n.name.qualified ∈ unvisited → .visit n ∈ tasks
  /-- The edges of a visited definition are entered or to be entered. -/
  edges : ∀ d ∈ p.allTypes, d.name.qualified ∉ unvisited → ∀ b ∈ d.supertypes,
    d.name.name ∈ namesBelow es b ∨ .edge b d ∈ tasks

namespace Walking

variable {p : Program} {unvisited : List String} {es : List Entry} {rest : List Task}

/-- Enter an edge, and visit its supertype next where the program defines it. -/
theorem edge {b : TypeRef} {d : TypeDef} (more : List Task)
    (h : Walking p unvisited es (.edge b d :: rest))
    (hmore : ∀ task ∈ more, ∃ d' ∈ p.allTypes, task = .visit d') :
    Walking p unvisited (addEdge b d.name es) (more ++ rest) where
  known := by
    intro task ht
    rcases List.mem_append.mp ht with ht | ht
    · obtain ⟨d', hd', rfl⟩ := hmore task ht
      exact hd'
    · exact h.known task (List.mem_cons_of_mem _ ht)
  listed := by
    intro b' d' hb
    rcases List.mem_append.mp hb with hb | hb
    · obtain ⟨_, _, he⟩ := hmore _ hb
      cases he
    · exact h.listed b' d' (List.mem_cons_of_mem _ hb)
  sound := by
    intro t x hx
    rcases mem_namesBelow_addEdge.1 hx with hx | ⟨hb, rfl⟩
    · exact h.sound t x hx
    · exact ⟨d, h.known _ List.mem_cons_self, rfl, b, h.listed b d List.mem_cons_self, hb⟩
  top := by
    intro d' hd' hu
    rcases List.mem_cons.mp (h.top d' hd' hu) with he | ht
    · cases he
    · exact List.mem_append_right _ ht
  nested := by
    intro d' hd' hu n hn hnu
    rcases List.mem_cons.mp (h.nested d' hd' hu n hn hnu) with he | ht
    · cases he
    · exact List.mem_append_right _ ht
  edges := by
    intro d' hd' hu b' hb'
    rcases h.edges d' hd' hu b' hb' with hx | ht
    · exact .inl (mem_namesBelow_addEdge.2 (.inl hx))
    · rcases List.mem_cons.mp ht with he | ht
      · cases he
        exact .inl (mem_namesBelow_addEdge.mpr (.inr ⟨rfl, rfl⟩))
      · exact .inr (List.mem_append_right _ ht)

/-- Pass over a definition that is visited. -/
theorem skip {d : TypeDef} (h : Walking p unvisited es (.visit d :: rest))
    (hd : d.name.qualified ∉ unvisited) : Walking p unvisited es rest where
  known task ht := h.known task (List.mem_cons_of_mem _ ht)
  listed b d' hb := h.listed b d' (List.mem_cons_of_mem _ hb)
  sound := h.sound
  top := by
    intro d' hd' hu
    rcases List.mem_cons.mp (h.top d' hd' hu) with he | ht
    · cases he
      exact absurd hu hd
    · exact ht
  nested := by
    intro d' hd' hu n hn hnu
    rcases List.mem_cons.mp (h.nested d' hd' hu n hn hnu) with he | ht
    · cases he
      exact absurd hnu hd
    · exact ht
  edges := by
    intro d' hd' hu b' hb'
    rcases h.edges d' hd' hu b' hb' with hx | ht
    · exact .inl hx
    · rcases List.mem_cons.mp ht with he | ht
      · cases he
      · exact .inr ht

theorem mem_tasksOf {d : TypeDef} {task : Task} :
    task ∈ tasksOf d ↔ (∃ b ∈ d.supertypes, task = .edge b d) ∨ ∃ n ∈ d.nested, task = .visit n := by
  simp [tasksOf, eq_comm]

/-- Visit a definition. -/
theorem visit {d : TypeDef} (hq : (p.allTypes.map (·.name.qualified)).Nodup)
    (h : Walking p unvisited es (.visit d :: rest)) :
    Walking p (strike unvisited d.name.qualified) es (tasksOf d ++ rest) := by
  have hd : d ∈ p.allTypes := h.known _ List.mem_cons_self
  -- a definition that is not struck off now was visited before, or is `d`
  have hold : ∀ {d'}, d' ∈ p.allTypes → d'.name.qualified ∉ strike unvisited d.name.qualified →
      d' = d ∨ d'.name.qualified ∉ unvisited := by
    intro d' hd' hu
    by_cases he : d'.name.qualified = d.name.qualified
    · exact .inl (eq_of_name_eq hq hd' hd he)
    · exact .inr fun hm => hu (mem_strike.mpr ⟨hm, he⟩)
  refine ⟨?_, ?_, h.sound, ?_, ?_, ?_⟩
  · intro task ht
    rcases List.mem_append.mp ht with ht | ht
    · rcases mem_tasksOf.1 ht with ⟨b, -, rfl⟩ | ⟨n, hn, rfl⟩
      · exact hd
      · exact TypeDef.nested_mem_allNested _ hd hn
    · exact h.known task (List.mem_cons_of_mem _ ht)
  · intro b d' hb
    rcases List.mem_append.mp hb with hb | hb
    · rcases mem_tasksOf.1 hb with ⟨b', hb', he⟩ | ⟨n, -, he⟩
      · cases he
        exact hb'
      · cases he
    · exact h.listed b d' (List.mem_cons_of_mem _ hb)
  · intro d' hd' hu
    obtain ⟨hm, hne⟩ := mem_strike.mp hu
    rcases List.mem_cons.mp (h.top d' hd' hm) with he | ht
    · cases he
      exact absurd rfl hne
    · exact List.mem_append_right _ ht
  · intro d' hd' hu n hn hnu
    obtain ⟨hm, hne⟩ := mem_strike.mp hnu
    rcases hold hd' hu with rfl | hu'
    · exact List.mem_append_left _ (mem_tasksOf.2 (.inr ⟨n, hn, rfl⟩))
    · rcases List.mem_cons.mp (h.nested d' hd' hu' n hn hm) with he | ht
      · cases he
        exact absurd rfl hne
      · exact List.mem_append_right _ ht
  · intro d' hd' hu b hb
    rcases hold hd' hu with rfl | hu'
    · exact .inr (List.mem_append_left _ (mem_tasksOf.2 (.inl ⟨b, hb, rfl⟩)))
    · rcases h.edges d' hd' hu' b hb with hx | ht
      · exact .inl hx
      · rcases List.mem_cons.mp ht with he | ht
        · cases he
        · exact .inr (List.mem_append_right _ ht)

end Walking

/-- The invariant holds at the end of the walk. -/
theorem walking_walk {p : Program} {table : TypeTable}
    (hq : (p.allTypes.map (·.name.qualified)).Nodup)
    (htable : ∀ {ref d}, table.get? ref = some d → d ∈ p.allTypes) {unvisited : List String}
    {es : List Entry} {tasks : List Task} (h : Walking p unvisited es tasks) :
    ∃ unvisited', Walking p unvisited' (walk table unvisited es tasks) [] := by
  fun_induction walk table unvisited es tasks with
  | case1 unvisited es => exact ⟨unvisited, h⟩
  | case2 unvisited es base d rest es' baseDef hget ih =>
    refine ih (h.edge [.visit baseDef] ?_)
    intro task ht
    exact ⟨baseDef, htable hget, List.mem_singleton.mp ht⟩
  | case3 unvisited es base d rest es' hget ih => exact ih (h.edge [] (by simp))
  | case4 unvisited es d rest hu ih => exact ih (h.visit hq)
  | case5 unvisited es d rest hu ih => exact ih (h.skip hu)

/-- A type is listed below another exactly when a definition says so. -/
theorem mem_subtypes_build {p : Program} (hq : (p.allTypes.map (·.name.qualified)).Nodup)
    {t : TypeRef} {x : String} :
    x ∈ ((build p (TypeTable.ofProgram p)).subtypes t).map (·.name) ↔ Lists p x t.name := by
  have hstart : Walking p (p.allTypes.map (·.name.qualified)) [] (p.types.map .visit) := by
    refine ⟨?_, ?_, ?_, ?_, ?_, ?_⟩
    · intro task ht
      obtain ⟨d, hd, rfl⟩ := List.mem_map.mp ht
      exact TypeDef.mem_allNested_of_mem hd
    · intro b d hb
      obtain ⟨_, _, he⟩ := List.mem_map.mp hb
      cases he
    · intro t x hx
      cases hx
    · exact fun d hd _ => List.mem_map_of_mem hd
    · exact fun d hd hu => absurd (List.mem_map_of_mem hd) hu
    · exact fun d hd hu => absurd (List.mem_map_of_mem hd) hu
  obtain ⟨unvisited, hend⟩ := walking_walk hq TypeTable.mem_of_get?_ofProgram hstart
  have hall : ∀ d ∈ p.allTypes, d.name.qualified ∉ unvisited := by
    refine TypeDef.allNested_induction p.types ?_ ?_
    · exact fun d hd hu n hn hnu => nomatch hend.nested d hd hu n hn hnu
    · exact fun d hd hu => nomatch hend.top d hd hu
  refine ⟨hend.sound t x, ?_⟩
  rintro ⟨d, hd, rfl, b, hb, hbt⟩
  rcases hend.edges d hd (hall d hd) b hb with hx | ht
  · rwa [namesBelow_congr hbt] at hx
  · cases ht

end SubtypeIndex

end Unwind
