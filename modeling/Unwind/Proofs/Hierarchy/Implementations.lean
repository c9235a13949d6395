import Unwind.Proofs.Hierarchy.Overrides

/-!
# Which classes an interface method is dispatched to

For a method of an interface, resolution first collects the classes that list the interface, or an
interface below it, and declare an implementation **themselves**; from these it walks down as it
does below a class. So a class has an entry exactly when it is, or derives from, a class that both
lists the interface and declares the implementation (`mem_overrides_iff`). An implementation that a
listing class only inherits does not count, nor does one declared below a listing class that has
none.

There are two walks. `Collecting` is the invariant of the first one, through the interfaces;
`Inheriting` is the invariant of the second one, through the classes.
-/

namespace Unwind

open Source
open Relation (ReflTransGen TransGen)

namespace Source.Program

/-- Names are unique, and interfaces derive from interfaces only. -/
structure InterfacesApart (p : Program) : Prop where
  names : (p.allTypes.map (·.name.name)).Nodup
  qualified : (p.allTypes.map (·.name.qualified)).Nodup
  interfaceBase : ∀ d b, p.Derives d b → d.isInterface = true → b.isInterface = true

/-- The definition declares a method of the name and the parameter types of `m`, or one that
implements `m` explicitly. -/
def Declares (d : TypeDef) (m : MethodRef) : Prop :=
  ∃ x ∈ d.methods, x.hasSignature m = true ∨ x.explicitOverrides.any (· == m) = true

/-- An interface that is `top` or derives from it. -/
structure SubInterface (p : Program) (top d : TypeDef) : Prop where
  mem : d ∈ p.allTypes
  isInterface : d.isInterface = true
  derives : ReflTransGen p.Derives d top

/-- A class that lists `top` or an interface below it. -/
structure Lister (p : Program) (top d : TypeDef) : Prop where
  isClass : d.isInterface = false
  lists : ∃ i, SubInterface p top i ∧ p.Derives d i

/-- A class that lists the interface and declares the implementation of its method. -/
structure Implements (p : Program) (top : TypeDef) (m : MethodRef) (d : TypeDef) : Prop
    extends Lister p top d where
  declares : Declares d m

theorem Lister.mem {p : Program} {top d : TypeDef} (h : Lister p top d) : d ∈ p.allTypes := by
  obtain ⟨i, -, hd⟩ := h.lists
  exact hd.1

end Source.Program

namespace Hierarchy

open Source.Program

variable {p : Program} {top : TypeDef} {m : MethodRef}

/-! ## Tables and index -/

/-- The definitions right below a type are those that list it. -/
theorem mem_subtypeDefs (hp : p.InterfacesApart) {b : TypeDef} (hb : b ∈ p.allTypes) {d : TypeDef} :
    d ∈ (ofProgram p).subtypeDefs b.name ↔ p.Derives d b := by
  have hindex : ∀ x, x ∈ ((ofProgram p).index.subtypes b.name).map (·.name) ↔
      SubtypeIndex.Lists p x b.name.name :=
    fun x => SubtypeIndex.mem_subtypes_build hp.qualified
  constructor
  · intro h
    obtain ⟨t, ht, hget⟩ := List.mem_filterMap.mp h
    obtain ⟨d', hd', hx, s, hs, hsb⟩ := (hindex t.name).mp (List.mem_map_of_mem ht)
    have hget' := TypeTable.get?_ofProgram hp.names hd' hx.symm
    obtain rfl : d = d' := Option.some.inj (hget.symm.trans hget')
    exact ⟨hd', hb, s, hs, hsb⟩
  · rintro ⟨hd, -, s, hs, hsb⟩
    obtain ⟨t, ht, htd⟩ := List.mem_map.mp ((hindex d.name.name).mpr ⟨d, hd, rfl, s, hs, hsb⟩)
    exact List.mem_filterMap.mpr ⟨t, ht, TypeTable.get?_ofProgram hp.names hd htd⟩

/-- The types right below a class, as the walk goes on to them. -/
theorem mem_below_iff (hp : p.InterfacesApart) {b : TypeDef} (hb : b ∈ p.allTypes) {o : Override}
    (ho : o.type.name = b.name.name) {x : String} :
    (∃ o' ∈ (ofProgram p).below o, o'.type.name = x) ↔ ∃ d, p.Derives d b ∧ d.name.name = x := by
  have hmem : (∃ o' ∈ (ofProgram p).below o, o'.type.name = x) ↔
      x ∈ ((ofProgram p).index.subtypes o.type).map (·.name) := by
    simp [below]
  rw [hmem, ofProgram, SubtypeIndex.mem_subtypes_build hp.qualified]
  constructor
  · rintro ⟨d, hd, hx, s, hs, hst⟩
    exact ⟨d, ⟨hd, hb, s, hs, hst.trans ho⟩, hx⟩
  · rintro ⟨d, ⟨hd, -, s, hs, hst⟩, hx⟩
    exact ⟨d, hd, hx, s, hs, hst.trans ho.symm⟩

/-- The walk hands on the method of the type it comes from. -/
theorem method_of_mem_below {h : Hierarchy} {o o' : Override} (ho : o' ∈ h.below o) :
    o'.method = o.method := by
  obtain ⟨t, -, rfl⟩ := List.mem_map.mp ho
  rfl

/-- Every type with a supertype is in the index. -/
theorem mem_subtypeNames (hp : p.InterfacesApart) {d b : TypeDef} (h : p.Derives d b) :
    d.name.name ∈ (ofProgram p).index.subtypeNames := by
  obtain ⟨hd, -, s, hs, -⟩ := h
  have hx : d.name.name ∈ ((ofProgram p).index.subtypes s).map (·.name) :=
    (SubtypeIndex.mem_subtypes_build hp.qualified).mpr ⟨d, hd, rfl, s, hs, rfl⟩
  obtain ⟨u, hu, hux⟩ := List.mem_map.mp hx
  unfold SubtypeIndex.subtypes at hu
  split at hu
  · next e he =>
    refine List.mem_flatMap.mpr ⟨e, List.mem_of_find?_eq_some he, ?_⟩
    exact hux ▸ List.mem_map_of_mem hu
  · cases hu

theorem declaredOnInterface_eq (hp : p.InterfacesApart) {d : TypeDef} (hd : d ∈ p.allTypes)
    {r : MethodRef} (hr : r.type.name = d.name.name) :
    (ofProgram p).declaredOnInterface r = d.isInterface := by
  have hget : (ofProgram p).table.get? r.type = some d := TypeTable.get?_ofProgram hp.names hd hr
  rw [declaredOnInterface, hget]

theorem implementationIn?_isSome {d : TypeDef} :
    (implementationIn? d m).isSome = true ↔ Declares d m := by
  have hlast : ∀ xs : List MethodDef, xs.getLast?.isSome = true ↔ ∃ x, x ∈ xs := by
    intro xs
    rw [List.getLast?_isSome, ne_eq, List.eq_nil_iff_forall_not_mem, not_forall_not]
  rw [implementationIn?, Option.isSome_map, Option.isSome_or, Bool.or_eq_true, hlast, hlast]
  simp only [TypeDef.methodsMatching, List.mem_filter]
  constructor
  · rintro (⟨x, hx, hx'⟩ | ⟨x, hx, hx'⟩)
    · exact ⟨x, hx, .inr hx'⟩
    · exact ⟨x, hx, .inl hx'⟩
  · rintro ⟨x, hx, h | h⟩
    · exact .inr ⟨x, hx, h⟩
    · exact .inl ⟨x, hx, h⟩

theorem implementationIn?_type {d : TypeDef} {r : MethodRef} (h : implementationIn? d m = some r) :
    r.type = d.name := by
  obtain ⟨x, -, rfl⟩ := Option.map_eq_some_iff.mp h
  rfl

/-! ## The walk through the interfaces -/

/-- A definition that the walk through the interfaces comes to. -/
def Visited (p : Program) (top d : TypeDef) : Prop := SubInterface p top d ∨ Lister p top d

/-- What holds at every point of the walk through the interfaces. -/
structure Collecting (p : Program) (top : TypeDef) (m : MethodRef) (unseen : List String)
    (found : List Override) (pending : List TypeDef) : Prop where
  sound : ∀ o ∈ found, ∃ d, Implements p top m d ∧ o.type = d.name ∧ o.method.type = d.name
  waiting : ∀ d ∈ pending, Visited p top d
  entered : ∀ d, Implements p top m d → d.name.name ∉ unseen → ∃ o ∈ found, o.type = d.name
  start : top.name.name ∈ unseen → top ∈ pending
  /-- What is right below an interface that was passed is not forgotten. -/
  below : ∀ i d, SubInterface p top i → i.name.name ∉ unseen → p.Derives d i →
    d.name.name ∈ unseen → d ∈ pending

namespace Collecting

variable {unseen : List String} {found : List Override} {d : TypeDef} {rest : List TypeDef}

/-- A definition below a visited interface is visited. -/
theorem visited_of_derives {i : TypeDef} (hi : SubInterface p top i) (hd : p.Derives d i) :
    Visited p top d := by
  cases hk : d.isInterface with
  | true => exact .inl ⟨hd.1, hk, .head hd hi.derives⟩
  | false => exact .inr ⟨hk, i, hi, hd⟩

/-- A definition is struck off with its name. -/
theorem notMem_strike (hp : p.InterfacesApart) {d' : TypeDef} (hd : d ∈ p.allTypes)
    (hd' : d' ∈ p.allTypes) (h : d'.name.name ∉ strike unseen d.name.name) :
    d' = d ∨ d'.name.name ∉ unseen := by
  by_cases he : d'.name.name = d.name.name
  · exact .inl (eq_of_name_eq hp.names hd' hd he)
  · exact .inr fun hm => h (mem_strike.mpr ⟨hm, he⟩)

/-- A pending definition other than the one in front stays pending. -/
theorem mem_rest {d' : TypeDef} (h : d' ∈ d :: rest) (hu : d'.name.name ≠ d.name.name) :
    d' ∈ rest := by
  rcases List.mem_cons.mp h with rfl | h
  · exact absurd rfl hu
  · exact h

theorem passInterface (hp : p.InterfacesApart) (h : Collecting p top m unseen found (d :: rest))
    (hi : d.isInterface = true) :
    Collecting p top m (strike unseen d.name.name) found
      ((ofProgram p).subtypeDefs d.name ++ rest) := by
  have hvisited := h.waiting d List.mem_cons_self
  have hd : SubInterface p top d := by
    rcases hvisited with hd | hd
    · exact hd
    · rw [hd.isClass] at hi
      cases hi
  refine ⟨h.sound, ?_, ?_, ?_, ?_⟩
  · intro d' hd'
    rcases List.mem_append.mp hd' with hd' | hd'
    · exact visited_of_derives hd ((mem_subtypeDefs hp hd.mem).mp hd')
    · exact h.waiting d' (List.mem_cons_of_mem _ hd')
  · intro d' hd' hu
    rcases notMem_strike hp hd.mem hd'.mem hu with rfl | hu
    · rw [hd'.isClass] at hi
      cases hi
    · exact h.entered d' hd' hu
  · intro hu
    obtain ⟨hu, hne⟩ := mem_strike.mp hu
    exact List.mem_append_right _ (mem_rest (h.start hu) hne)
  · intro i d' hi' hiu hder hu
    obtain ⟨hu, hne⟩ := mem_strike.mp hu
    rcases notMem_strike hp hd.mem hi'.mem hiu with rfl | hiu
    · exact List.mem_append_left _ ((mem_subtypeDefs hp hi'.mem).mpr hder)
    · exact List.mem_append_right _ (mem_rest (h.below i d' hi' hiu hder hu) hne)

theorem enterClass (hp : p.InterfacesApart) (h : Collecting p top m unseen found (d :: rest))
    (hc : d.isInterface = false) :
    Collecting p top m (strike unseen d.name.name)
      (found ++ (implementationIn? d m).toList.map fun r => ⟨d.name, r⟩) rest := by
  have hd : Lister p top d := by
    rcases h.waiting d List.mem_cons_self with hd | hd
    · rw [hd.isInterface] at hc
      cases hc
    · exact hd
  refine ⟨?_, fun d' hd' => h.waiting d' (List.mem_cons_of_mem _ hd'), ?_, ?_, ?_⟩
  · intro o ho
    rcases List.mem_append.mp ho with ho | ho
    · exact h.sound o ho
    · obtain ⟨r, hr, rfl⟩ := List.mem_map.mp ho
      have hr := Option.mem_toList.mp hr
      have hdecl : Declares d m := implementationIn?_isSome.mp (Option.isSome_of_mem hr)
      exact ⟨d, ⟨hd, hdecl⟩, rfl, implementationIn?_type hr⟩
  · intro d' hd' hu
    rcases notMem_strike hp hd.mem hd'.mem hu with rfl | hu
    · obtain ⟨r, hr⟩ := Option.isSome_iff_exists.mp (implementationIn?_isSome.mpr hd'.declares)
      refine ⟨⟨d'.name, r⟩, List.mem_append_right _ ?_, rfl⟩
      exact List.mem_map.mpr ⟨r, Option.mem_toList.mpr hr, rfl⟩
    · obtain ⟨o, ho, hod⟩ := h.entered d' hd' hu
      exact ⟨o, List.mem_append_left _ ho, hod⟩
  · intro hu
    obtain ⟨hu, hne⟩ := mem_strike.mp hu
    exact mem_rest (h.start hu) hne
  · intro i d' hi hiu hder hu
    obtain ⟨hu, hne⟩ := mem_strike.mp hu
    rcases notMem_strike hp hd.mem hi.mem hiu with rfl | hiu
    · rw [hi.isInterface] at hc
      cases hc
    · exact mem_rest (h.below i d' hi hiu hder hu) hne

theorem skip (h : Collecting p top m unseen found (d :: rest)) (hd : d.name.name ∉ unseen) :
    Collecting p top m unseen found rest := by
  have hne : ∀ {d' : TypeDef}, d'.name.name ∈ unseen → d'.name.name ≠ d.name.name :=
    fun hu he => hd (he ▸ hu)
  exact ⟨h.sound, fun d' hd' => h.waiting d' (List.mem_cons_of_mem _ hd'), h.entered,
    fun hu => mem_rest (h.start hu) (hne hu),
    fun i d' hi hiu hder hu => mem_rest (h.below i d' hi hiu hder hu) (hne hu)⟩

/-- When nothing is pending, every interface below `top` has been passed. -/
theorem passed (h : Collecting p top m unseen found []) {i : TypeDef} (hi : SubInterface p top i)
    (hp : p.InterfacesApart) : i.name.name ∉ unseen := by
  obtain ⟨hmem, hint, hder⟩ := hi
  induction hder using ReflTransGen.head_induction_on with
  | refl => exact fun hu => nomatch h.start hu
  | head hd hb ih =>
    have hb' := hp.interfaceBase _ _ hd hint
    intro hu
    exact nomatch h.below _ _ ⟨hd.2.1, hb', hb⟩ (ih hd.2.1 hb') hd hu

/-- When nothing is pending, every class that implements the method is entered. -/
theorem complete (h : Collecting p top m unseen found []) (hp : p.InterfacesApart)
    (hd : Implements p top m d) : ∃ o ∈ found, o.type = d.name := by
  obtain ⟨i, hi, hder⟩ := hd.lists
  refine h.entered d hd fun hu => ?_
  exact nomatch h.below i d hi (h.passed hi hp) hder hu

end Collecting

/-- The invariant holds at the end of the walk. -/
theorem collecting_implementationsBelow (hp : p.InterfacesApart) {unseen : List String}
    {found : List Override} {pending : List TypeDef} (h : Collecting p top m unseen found pending) :
    ∃ unseen', Collecting p top m unseen'
      ((ofProgram p).implementationsBelow m unseen found pending) [] := by
  fun_induction (ofProgram p).implementationsBelow m unseen found pending with
  | case1 unseen found => exact ⟨unseen, h⟩
  | case2 unseen found d rest hu unseen' hi ih => exact ih (h.passInterface hp hi)
  | case3 unseen found d rest hu unseen' hi here ih =>
    exact ih (h.enterClass hp (Bool.eq_false_iff.mpr hi))
  | case4 unseen found d rest hu ih => exact ih (h.skip hu)

/-- The implementations of a method of an interface are those that the listing classes declare. -/
theorem mem_implementations (hp : p.InterfacesApart) (htop : top ∈ p.allTypes)
    (hi : top.isInterface = true) (hm : m.type.name = top.name.name) :
    (∀ o ∈ (ofProgram p).implementations m.type m,
      ∃ d, Implements p top m d ∧ o.type = d.name ∧ o.method.type = d.name) ∧
    ∀ d, Implements p top m d → ∃ o ∈ (ofProgram p).implementations m.type m, o.type = d.name := by
  have hget : (ofProgram p).table.get? m.type = some top :=
    TypeTable.get?_ofProgram hp.names htop hm
  have hnames : ∀ d ∈ p.allTypes, d.name.name ∈ (ofProgram p).table.names := by
    intro d hd
    have hdefs : (ofProgram p).table.defs = p.allTypes := TypeTable.defs_ofDefs hp.names
    rw [TypeTable.names, hdefs]
    exact List.mem_map_of_mem hd
  have hstart : Collecting p top m (ofProgram p).table.names [] [top] := by
    refine ⟨nofun, ?_, ?_, fun _ => List.mem_cons_self, ?_⟩
    · intro d hd
      rw [List.mem_singleton.mp hd]
      exact .inl ⟨htop, hi, .refl⟩
    · exact fun d hd hu => absurd (hnames d hd.mem) hu
    · exact fun i d hi' hu _ _ => absurd (hnames i hi'.mem) hu
  obtain ⟨unseen, hend⟩ := collecting_implementationsBelow hp hstart
  rw [implementations, hget]
  exact ⟨hend.sound, fun d hd => hend.complete hp hd⟩

/-! ## The walk through the classes -/

/-- A class that is, or derives from, a class that implements the method. -/
def Heir (p : Program) (top : TypeDef) (m : MethodRef) (d : TypeDef) : Prop :=
  ∃ x, Implements p top m x ∧ ReflTransGen p.Derives d x

theorem Heir.mem {d : TypeDef} (h : Heir p top m d) : d ∈ p.allTypes := by
  obtain ⟨x, hx, hd⟩ := h
  rcases ReflTransGen.cases_head hd with rfl | ⟨b, hb, -⟩
  · exact hx.mem
  · exact hb.1

theorem Heir.isClass (hp : p.InterfacesApart) {d : TypeDef} (h : Heir p top m d) :
    d.isInterface = false := by
  obtain ⟨x, hx, hd⟩ := h
  induction hd using ReflTransGen.head_induction_on with
  | refl => exact hx.isClass
  | head hd _ ih =>
    rw [Bool.eq_false_iff]
    intro hi
    rw [hp.interfaceBase _ _ hd hi] at ih
    cases ih

theorem Heir.of_derives {d b : TypeDef} (h : p.Derives d b) (hb : Heir p top m b) :
    Heir p top m d := by
  obtain ⟨x, hx, hb⟩ := hb
  exact ⟨x, hx, .head h hb⟩

/-- An heir has a supertype. -/
theorem Heir.derives {d : TypeDef} (h : Heir p top m d) : ∃ b, p.Derives d b := by
  obtain ⟨x, hx, hd⟩ := h
  rcases ReflTransGen.cases_head hd with rfl | ⟨b, hb, -⟩
  · obtain ⟨i, -, hi⟩ := hx.lists
    exact ⟨i, hi⟩
  · exact ⟨b, hb⟩

/-- The type is an heir and comes with a method of a class. -/
def Fits (p : Program) (top : TypeDef) (m : MethodRef) (o : Override) : Prop :=
  (∃ d, Heir p top m d ∧ d.name.name = o.type.name) ∧
    (ofProgram p).declaredOnInterface o.method = false

/-- The method that an heir runs belongs to a class. -/
theorem Fits.runBy (hp : p.InterfacesApart) {t : TypeRef} {inh : MethodRef}
    (h : Fits p top m ⟨t, inh⟩) : Fits p top m ⟨t, (ofProgram p).runBy t inh⟩ := by
  obtain ⟨⟨d, hd, hdt⟩, hinh⟩ := h
  refine ⟨⟨d, hd, hdt⟩, ?_⟩
  have hget : (ofProgram p).table.get? t = some d :=
    TypeTable.get?_ofProgram hp.names hd.mem hdt.symm
  simp only [Hierarchy.runBy, hget, Option.bind_some]
  cases ho : overrideIn? d inh with
  | none => exact hinh
  | some r =>
    have hr := (Source.Program.overrideIn?_eq_some ho).1
    rw [Option.getD_some, declaredOnInterface_eq hp hd.mem (congrArg TypeRef.name hr)]
    exact hd.isClass hp

/-- What holds at every point of the walk through the classes. -/
structure Inheriting (p : Program) (top : TypeDef) (m : MethodRef) (unseen : List String)
    (found pending : List Override) : Prop where
  sound : ∀ o ∈ found, Fits p top m o
  waiting : ∀ o ∈ pending, Fits p top m o
  entered : ∀ d, Heir p top m d → d.name.name ∉ unseen → ∃ o ∈ found, o.type.name = d.name.name
  /-- The classes that implement the method are there from the start. -/
  seeded : ∀ d, Implements p top m d → d.name.name ∉ unseen
  /-- What is right below a class that is entered is not forgotten. -/
  below : ∀ d b, Heir p top m b → p.Derives d b → b.name.name ∉ unseen → d.name.name ∈ unseen →
    ∃ o ∈ pending, o.type.name = d.name.name

namespace Inheriting

variable {unseen : List String} {found rest : List Override} {t : TypeRef} {inh : MethodRef}

theorem enter (hp : p.InterfacesApart) (h : Inheriting p top m unseen found (⟨t, inh⟩ :: rest)) :
    Inheriting p top m (strike unseen t.name) (found ++ [⟨t, (ofProgram p).runBy t inh⟩])
      ((ofProgram p).below ⟨t, (ofProgram p).runBy t inh⟩ ++ rest) := by
  have hfits := (h.waiting _ List.mem_cons_self).runBy hp
  obtain ⟨⟨d, hd, hdt⟩, hrun⟩ := hfits
  have hbelow : ∀ x, (∃ o' ∈ (ofProgram p).below ⟨t, (ofProgram p).runBy t inh⟩, o'.type.name = x) ↔
      ∃ d', p.Derives d' d ∧ d'.name.name = x := fun x => mem_below_iff hp hd.mem hdt.symm
  refine ⟨?_, ?_, ?_, ?_, ?_⟩
  · intro o ho
    rcases List.mem_append.mp ho with ho | ho
    · exact h.sound o ho
    · rw [List.mem_singleton.mp ho]
      exact ⟨⟨d, hd, hdt⟩, hrun⟩
  · intro o ho
    rcases List.mem_append.mp ho with ho | ho
    · obtain ⟨d', hder, hx⟩ := (hbelow _).mp ⟨o, ho, rfl⟩
      refine ⟨⟨d', .of_derives hder hd, hx⟩, ?_⟩
      rw [method_of_mem_below ho]
      exact hrun
    · exact h.waiting o (List.mem_cons_of_mem _ ho)
  · intro d' hd' hu
    by_cases hx : d'.name.name = t.name
    · exact ⟨_, List.mem_append_right _ (List.mem_singleton_self _), hx.symm⟩
    · obtain ⟨o, ho, hod⟩ := h.entered d' hd' fun hm => hu (mem_strike.mpr ⟨hm, hx⟩)
      exact ⟨o, List.mem_append_left _ ho, hod⟩
  · intro d' hd' hu
    exact h.seeded d' hd' (mem_strike.mp hu).1
  · intro d' b hb hder hbu hu
    obtain ⟨hu, hx⟩ := mem_strike.mp hu
    by_cases hbt : b.name.name = t.name
    · obtain rfl := eq_of_name_eq hp.names hb.mem hd.mem (hbt.trans hdt.symm)
      obtain ⟨o, ho, hod⟩ := (hbelow _).mpr ⟨d', hder, rfl⟩
      exact ⟨o, List.mem_append_left _ ho, hod⟩
    · obtain ⟨o, ho, hod⟩ :=
        h.below d' b hb hder (fun hm => hbu (mem_strike.mpr ⟨hm, hbt⟩)) hu
      rcases List.mem_cons.mp ho with rfl | ho
      · exact absurd hod.symm hx
      · exact ⟨o, List.mem_append_right _ ho, hod⟩

theorem skip (h : Inheriting p top m unseen found (⟨t, inh⟩ :: rest)) (ht : t.name ∉ unseen) :
    Inheriting p top m unseen found rest := by
  refine ⟨h.sound, fun o ho => h.waiting o (List.mem_cons_of_mem _ ho), h.entered, h.seeded, ?_⟩
  intro d b hb hder hbu hu
  obtain ⟨o, ho, hod⟩ := h.below d b hb hder hbu hu
  rcases List.mem_cons.mp ho with rfl | ho
  · exact absurd (hod ▸ hu) ht
  · exact ⟨o, ho, hod⟩

/-- When nothing is pending, every heir is entered. -/
theorem complete (h : Inheriting p top m unseen found []) {d : TypeDef} (hd : Heir p top m d) :
    ∃ o ∈ found, o.type.name = d.name.name := by
  refine h.entered d hd ?_
  obtain ⟨x, hx, hder⟩ := hd
  induction hder using ReflTransGen.head_induction_on with
  | refl => exact h.seeded x hx
  | head hd hb ih =>
    intro hu
    obtain ⟨o, ho, -⟩ := h.below _ _ ⟨x, hx, hb⟩ hd ih hu
    cases ho

end Inheriting

/-- The invariant holds at the end of the walk. Below a class no method of an interface is met, so
that no further implementations are looked for. -/
theorem inheriting_overridesBelow (hp : p.InterfacesApart) {unseen : List String}
    {found pending : List Override} (h : Inheriting p top m unseen found pending) :
    ∃ unseen', Inheriting p top m unseen' ((ofProgram p).overridesBelow unseen found pending) [] := by
  fun_induction (ofProgram p).overridesBelow unseen found pending with
  | case1 unseen found => exact ⟨unseen, h⟩
  | case2 unseen found t inh rest hu m' seeded ih =>
    have hdecl : (ofProgram p).declaredOnInterface m' = false :=
      ((h.waiting _ List.mem_cons_self).runBy hp).2
    have hseeded : seeded = [] := by
      simp only [seeded, seeds, hdecl]
      rfl
    have hnext : (ofProgram p).next t m' = (ofProgram p).below ⟨t, m'⟩ := by
      simp only [next, hdecl]
      rfl
    rw [hseeded, hnext] at ih ⊢
    exact ih (h.enter hp)
  | case3 unseen found t inh rest hu ih => exact ih (h.skip hu)

/-! ## Resolution -/

theorem mem_of_addNew {found : List Override} {o x : Override} (h : x ∈ addNew found o) :
    x ∈ found ∨ x = o := by
  unfold addNew at h
  split at h
  · exact .inl h
  · exact (List.mem_append.mp h).imp_right List.mem_singleton.mp

theorem subset_addNew (found : List Override) (o : Override) : found ⊆ addNew found o := by
  unfold addNew
  split
  · exact List.Subset.refl _
  · exact List.subset_append_left _ _

theorem exists_mem_addNew (found : List Override) (o : Override) :
    ∃ x ∈ addNew found o, x.type.name = o.type.name := by
  unfold addNew
  split
  · next h =>
    obtain ⟨x, hx, hxo⟩ := List.any_eq_true.mp h
    exact ⟨x, hx, TypeRef.beq_iff.mp hxo⟩
  · exact ⟨o, List.mem_append_right _ (List.mem_singleton_self _), rfl⟩

theorem mem_of_foldl_addNew {os found : List Override} {x : Override}
    (h : x ∈ os.foldl addNew found) : x ∈ found ∨ x ∈ os := by
  induction os generalizing found with
  | nil => exact .inl h
  | cons o os ih =>
    rcases ih h with h | h
    · rcases mem_of_addNew h with h | rfl
      · exact .inl h
      · exact .inr List.mem_cons_self
    · exact .inr (List.mem_cons_of_mem _ h)

theorem exists_mem_foldl_addNew {os found : List Override} {o : Override}
    (h : (∃ x ∈ found, x.type.name = o.type.name) ∨ o ∈ os) :
    ∃ x ∈ os.foldl addNew found, x.type.name = o.type.name := by
  induction os generalizing found with
  | nil => exact h.elim id nofun
  | cons o' os ih =>
    refine ih ?_
    rcases h with ⟨x, hx, hxo⟩ | h
    · exact .inl ⟨x, subset_addNew _ _ hx, hxo⟩
    · rcases List.mem_cons.mp h with rfl | h
      · exact .inl (exists_mem_addNew _ _)
      · exact .inr h

theorem mem_strikeAll {unseen names : List String} {x : String} :
    x ∈ strikeAll unseen names ↔ x ∈ unseen ∧ x ∉ names := by
  induction names generalizing unseen with
  | nil => simp [strikeAll]
  | cons name names ih =>
    rw [strikeAll, List.foldl_cons, ← strikeAll, ih, mem_strike, List.mem_cons, not_or, and_assoc]

/-- The walk through the classes starts right below those that implement the method. -/
theorem inheriting_start (hp : p.InterfacesApart) (htop : top ∈ p.allTypes)
    (hi : top.isInterface = true) (hm : m.type.name = top.name.name) :
    Inheriting p top m
      (strikeAll (ofProgram p).index.subtypeNames
        (typeNames ((ofProgram p).implementations m.type m)))
      (((ofProgram p).implementations m.type m).foldl addNew [])
      (((ofProgram p).implementations m.type m).flatMap (ofProgram p).below) := by
  obtain ⟨hsound, hcomplete⟩ := mem_implementations hp htop hi hm
  have hfits : ∀ o ∈ (ofProgram p).implementations m.type m, Fits p top m o := by
    intro o ho
    obtain ⟨d, hd, ht, hr⟩ := hsound o ho
    refine ⟨⟨d, ⟨d, hd, .refl⟩, congrArg TypeRef.name ht.symm⟩, ?_⟩
    rw [declaredOnInterface_eq hp hd.mem (congrArg TypeRef.name hr)]
    exact hd.isClass
  -- of the heirs, only those that implement the method are entered
  have hseed : ∀ d, Heir p top m d → d.name.name ∉ strikeAll (ofProgram p).index.subtypeNames
      (typeNames ((ofProgram p).implementations m.type m)) →
      ∃ o ∈ (ofProgram p).implementations m.type m, o.type.name = d.name.name := by
    intro d hd hu
    obtain ⟨b, hb⟩ := hd.derives
    rw [mem_strikeAll, not_and, not_not] at hu
    obtain ⟨o, ho, hod⟩ := List.mem_map.mp (hu (mem_subtypeNames hp hb))
    exact ⟨o, ho, hod⟩
  refine ⟨?_, ?_, ?_, ?_, ?_⟩
  · intro o ho
    rcases mem_of_foldl_addNew ho with ho | ho
    · cases ho
    · exact hfits o ho
  · intro o' ho'
    obtain ⟨o, ho, ho'⟩ := List.mem_flatMap.mp ho'
    obtain ⟨⟨b, hb, hbo⟩, hmo⟩ := hfits o ho
    obtain ⟨d, hder, hx⟩ := (mem_below_iff hp hb.mem hbo.symm).mp ⟨o', ho', rfl⟩
    refine ⟨⟨d, .of_derives hder hb, hx⟩, ?_⟩
    rw [method_of_mem_below ho']
    exact hmo
  · intro d hd hu
    obtain ⟨o, ho, hod⟩ := hseed d hd hu
    obtain ⟨x, hx, hxo⟩ := exists_mem_foldl_addNew (.inr ho)
    exact ⟨x, hx, hxo.trans hod⟩
  · intro d hd hu
    obtain ⟨o, ho, hod⟩ := hcomplete d hd
    exact (mem_strikeAll.1 hu).2 (List.mem_map.mpr ⟨o, ho, congrArg TypeRef.name hod⟩)
  · intro d b hb hder hbu hu
    obtain ⟨o, ho, hob⟩ := hseed b hb hbu
    obtain ⟨o', ho', hx⟩ := (mem_below_iff hp hb.mem hob).mpr ⟨d, hder, rfl⟩
    exact ⟨o', List.mem_flatMap.mpr ⟨o, ho, ho'⟩, hx⟩

/-- The answer for a method of an interface is the end of the walk through the classes. -/
theorem inheriting_overrides (hp : p.InterfacesApart) (htop : top ∈ p.allTypes)
    (hi : top.isInterface = true) (hm : m.type.name = top.name.name) :
    ∃ unseen, Inheriting p top m unseen ((ofProgram p).overrides m) [] := by
  have hdecl : (ofProgram p).declaredOnInterface m = true :=
    (declaredOnInterface_eq hp htop hm).trans hi
  obtain ⟨unseen, hend⟩ := inheriting_overridesBelow hp (inheriting_start hp htop hi hm)
  refine ⟨unseen, ?_⟩
  rw [overrides]
  simp only [seeds, next, hdecl, if_true]
  generalize (ofProgram p).overridesBelow _ _ _ = found at hend
  split
  · next hall =>
    -- no entry runs the method of the interface, so nothing is dropped
    have hnil : found = [] := by
      refine List.eq_nil_iff_forall_not_mem.mpr fun o ho => ?_
      have hom := List.all_eq_true.mp hall o ho
      have hclass := (hend.sound o ho).2
      rw [declaredOnInterface_eq hp htop ((MethodRef.type_name_of_beq hom).trans hm), hi] at hclass
      cases hclass
    rwa [hnil] at hend
  · exact hend

/-- A class has an entry exactly when it is, or derives from, a class that lists the interface and
declares the implementation itself. -/
theorem mem_overrides_iff (hp : p.InterfacesApart) (htop : top ∈ p.allTypes)
    (hi : top.isInterface = true) (hm : m.type.name = top.name.name) {d : TypeDef}
    (hd : d ∈ p.allTypes) :
    (∃ o ∈ (ofProgram p).overrides m, o.type.name = d.name.name) ↔ Heir p top m d := by
  obtain ⟨unseen, hend⟩ := inheriting_overrides hp htop hi hm
  constructor
  · rintro ⟨o, ho, hod⟩
    obtain ⟨⟨d', hd', hx⟩, -⟩ := hend.sound o ho
    rwa [eq_of_name_eq hp.names hd hd'.mem (hod.symm.trans hx.symm)]
  · exact hend.complete

theorem resolve_eq_overrides (hp : p.InterfacesApart) (htop : top ∈ p.allTypes)
    (hm : m.type.name = top.name.name) :
    (ofProgram p).resolve m = .ok ((ofProgram p).overrides m) := by
  have hget : (ofProgram p).table.get? m.type = some top :=
    TypeTable.get?_ofProgram hp.names htop hm
  rw [resolve, hget, Option.isSome_some, if_pos rfl]

/-- A method of an interface resolves; the classes with an entry are those that are, or derive
from, a class that lists the interface and declares the implementation itself; and what such a
class runs is a method of a class, never the one of the interface. -/
theorem resolve_covers_heirs (hp : p.InterfacesApart) (htop : top ∈ p.allTypes)
    (hi : top.isInterface = true) (hm : m.type.name = top.name.name) :
    ∃ found, (ofProgram p).resolve m = .ok found ∧ ∀ d ∈ p.allTypes,
      ((∃ o ∈ found, o.type.name = d.name.name) ↔ Heir p top m d) ∧
      (Heir p top m d → (ofProgram p).declaredOnInterface (methodFor found m d.name) = false) := by
  refine ⟨_, resolve_eq_overrides hp htop hm, fun d hd => ⟨mem_overrides_iff hp htop hi hm hd, ?_⟩⟩
  intro hheir
  obtain ⟨unseen, hend⟩ := inheriting_overrides hp htop hi hm
  obtain ⟨o, ho, -, hvalue⟩ := exists_methodFor_eq (hend.complete hheir) m
  rw [hvalue]
  exact (hend.sound o ho).2

/-! ## An implementation that is declared and one that is inherited -/

/-- An interface with one method. -/
def painter : TypeDef :=
  ⟨⟨"Painter", none⟩, .interfaceType, [], [], [], [{ name := "paint", isVirtual := true }], []⟩

/-- A class that implements the interface. -/
def brush : TypeDef :=
  ⟨⟨"Brush", none⟩, .classType, [], [⟨"Painter", none⟩], [],
    [{ name := "paint", isVirtual := true }], []⟩

/-- A class below the implementing one. -/
def fineBrush : TypeDef := ⟨⟨"FineBrush", none⟩, .classType, [⟨"Brush", none⟩], [], [], [], []⟩

/-- A class with the method that does not list the interface. -/
def sprayer : TypeDef :=
  ⟨⟨"Sprayer", none⟩, .classType, [], [], [], [{ name := "paint", isVirtual := true }], []⟩

/-- A class that lists the interface and inherits the method. -/
def sprayCan : TypeDef :=
  ⟨⟨"SprayCan", none⟩, .classType, [⟨"Sprayer", none⟩], [⟨"Painter", none⟩], [], [], []⟩

def painters : Program := { types := [painter, brush, fineBrush, sprayer, sprayCan] }

def paint : MethodRef := ⟨⟨"Painter", none⟩, "paint", []⟩

theorem mem_painters {d : TypeDef} (h : d ∈ painters.allTypes) :
    d = painter ∨ d = brush ∨ d = fineBrush ∨ d = sprayer ∨ d = sprayCan := by
  have h' : d ∈ [painter, brush, fineBrush, sprayer, sprayCan] := h
  simpa only [List.mem_cons, List.not_mem_nil, or_false] using h'

theorem painters_derives {d b : TypeDef} (h : painters.Derives d b) :
    (d = brush ∧ b = painter) ∨ (d = fineBrush ∧ b = brush) ∨ (d = sprayCan ∧ b = sprayer) ∨
      (d = sprayCan ∧ b = painter) := by
  obtain ⟨hd, hb, hlists⟩ := h
  rcases mem_painters hd with rfl | rfl | rfl | rfl | rfl <;>
    rcases mem_painters hb with rfl | rfl | rfl | rfl | rfl <;>
    simp [painter, brush, fineBrush, sprayer, sprayCan, TypeDef.supertypes] at hlists ⊢

theorem painters_singleInheritance : painters.SingleInheritance where
  names := by decide
  qualified := by decide
  acyclic := acyclic_of_rank (fun d => if d.name.name = "Painter" then 0 else
    if d.name.name = "Brush" ∨ d.name.name = "Sprayer" then 1 else 2) (by
      intro d b h
      rcases painters_derives h with ⟨rfl, rfl⟩ | ⟨rfl, rfl⟩ | ⟨rfl, rfl⟩ | ⟨rfl, rfl⟩ <;> decide)
  oneBase := by
    intro d hd _
    rcases mem_painters hd with rfl | rfl | rfl | rfl | rfl <;> decide
  classBase := by
    rintro d b ⟨hd, hb, t, ht, hn⟩ _
    rcases mem_painters hd with rfl | rfl | rfl | rfl | rfl <;>
      rcases mem_painters hb with rfl | rfl | rfl | rfl | rfl <;>
      simp_all [painter, brush, fineBrush, sprayer, sprayCan, TypeDef.isInterface]
  onlyInterfaces := by
    rintro d hd b hb ⟨t, ht, hn⟩
    rcases mem_painters hd with rfl | rfl | rfl | rfl | rfl <;>
      rcases mem_painters hb with rfl | rfl | rfl | rfl | rfl <;>
      simp_all [painter, brush, fineBrush, sprayer, sprayCan, TypeDef.isInterface]
  interfaceBase := by
    intro d b h hd
    rcases painters_derives h with ⟨rfl, rfl⟩ | ⟨rfl, rfl⟩ | ⟨rfl, rfl⟩ | ⟨rfl, rfl⟩ <;>
      first | rfl | cases hd

theorem painters_interfacesApart : painters.InterfacesApart :=
  ⟨painters_singleInheritance.names, painters_singleInheritance.qualified,
    painters_singleInheritance.interfaceBase⟩

/-- The class below the implementing one has an entry. -/
theorem painters_cover_fineBrush :
    ∃ found, (ofProgram painters).resolve paint = .ok found ∧
      ∃ o ∈ found, o.type.name = "FineBrush" := by
  have htop : painter ∈ painters.allTypes := List.mem_cons_self
  have hbrush : brush ∈ painters.allTypes := List.mem_cons_of_mem _ List.mem_cons_self
  have hfine : fineBrush ∈ painters.allTypes :=
    List.mem_cons_of_mem _ (List.mem_cons_of_mem _ List.mem_cons_self)
  have hlists : painters.Derives brush painter := ⟨hbrush, htop, _, List.mem_cons_self, rfl⟩
  have hbelow : painters.Derives fineBrush brush := ⟨hfine, hbrush, _, List.mem_cons_self, rfl⟩
  have himpl : painters.Implements painter paint brush :=
    ⟨⟨rfl, painter, ⟨htop, rfl, .refl⟩, hlists⟩, _, List.mem_cons_self, .inl rfl⟩
  obtain ⟨found, hr, hcovers⟩ := resolve_covers_heirs (m := paint) painters_interfacesApart htop rfl rfl
  exact ⟨found, hr, (hcovers fineBrush hfine).1.mpr ⟨brush, himpl, .single hbelow⟩⟩

/-- Only one class of the program implements the method. -/
theorem painters_implements {d : TypeDef} (h : painters.Implements painter paint d) : d = brush := by
  obtain ⟨i, hi, hd⟩ := h.lists
  have hint := hi.isInterface
  obtain ⟨x, hx, -⟩ := h.declares
  rcases painters_derives hd with ⟨rfl, -⟩ | ⟨-, rfl⟩ | ⟨-, rfl⟩ | ⟨rfl, -⟩
  · rfl
  · cases hint
  · cases hint
  · cases hx

/-- A class that lists the interface and inherits the method is not reached. -/
theorem sprayCan_not_heir : ¬ Heir painters painter paint sprayCan := by
  rintro ⟨x, hx, hd⟩
  obtain rfl := painters_implements hx
  -- only two classes are at or below the implementing one
  have hbelow : ∀ d, ReflTransGen painters.Derives d brush → d = brush ∨ d = fineBrush := by
    intro d hd
    induction hd using ReflTransGen.head_induction_on with
    | refl => exact .inl rfl
    | head hd _ ih =>
      rcases painters_derives hd with ⟨rfl, -⟩ | ⟨rfl, -⟩ | ⟨-, rfl⟩ | ⟨-, rfl⟩
      · exact .inl rfl
      · exact .inr rfl
      · simp [sprayer, brush, fineBrush] at ih
      · simp [painter, brush, fineBrush] at ih
  have hcan := hbelow sprayCan hd
  simp [sprayCan, brush, fineBrush] at hcan

/-- Not every class below an interface that has the method, itself or from a base class, has an
entry. -/
theorem not_forall_subtype_covered :
    ¬ ∀ (p : Program) (top : TypeDef) (m : MethodRef) (d : TypeDef), p.SingleInheritance →
      top ∈ p.allTypes → top.isInterface = true → m.type.name = top.name.name →
      top.methodsMatching m ≠ [] → d ∈ p.allTypes → d.isInterface = false →
      TransGen p.Derives d top →
      (∃ b, ReflTransGen p.Extends d b ∧ ∃ x ∈ b.methods,
        (x.isVirtual = true ∧ x.isStatic = false ∧ x.hasSignature m = true) ∨
          x.explicitOverrides.any (· == m) = true) →
      ∃ found, (ofProgram p).resolve m = .ok found ∧ ∃ o ∈ found, o.type.name = d.name.name := by
  intro h
  have htop : painter ∈ painters.allTypes := List.mem_cons_self
  have hsprayer : sprayer ∈ painters.allTypes := by
    exact List.mem_cons_of_mem _ (List.mem_cons_of_mem _ (List.mem_cons_of_mem _ List.mem_cons_self))
  have hcan : sprayCan ∈ painters.allTypes :=
    List.mem_cons_of_mem _ (List.mem_cons_of_mem _ (List.mem_cons_of_mem _
      (List.mem_cons_of_mem _ List.mem_cons_self)))
  have hlists : painters.Derives sprayCan painter :=
    ⟨hcan, htop, _, List.mem_cons_of_mem _ List.mem_cons_self, rfl⟩
  have hbase : painters.Extends sprayCan sprayer := ⟨hcan, hsprayer, _, List.mem_cons_self, rfl⟩
  obtain ⟨found, hr, hentry⟩ := h painters painter paint sprayCan painters_singleInheritance htop rfl
    rfl (by decide) hcan rfl (.single hlists)
    ⟨sprayer, .single hbase, _, List.mem_cons_self, .inl ⟨rfl, rfl, rfl⟩⟩
  rw [resolve_eq_overrides painters_interfacesApart htop rfl, Except.ok.injEq] at hr
  subst hr
  exact sprayCan_not_heir ((mem_overrides_iff painters_interfacesApart htop rfl rfl hcan).mp hentry)

end Hierarchy

end Unwind
