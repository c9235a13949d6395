import Unwind.Proofs.Hierarchy.Reachability

/-!
# The method that a class runs

Where a class has one superclass at most, the entries of a resolution can be told from the
definitions alone. `Starts` says where the walk begins: at the class of the method, or at the classes
that implement the method of an interface. From there a class runs its own override of what its
superclass runs, or else the same as that one (`Assigns`). This gives a class one method
(`Assigns.unique`), and the walk enters a class exactly with that method (`mem_foundBelow_iff`).

`Assigning` is the invariant of the walk, for both of its beginnings.
-/

namespace Unwind

open Source
open Relation (ReflTransGen TransGen)

namespace Source.Program

/-- Names are unique, interfaces derive from interfaces only, and a type has one class among its
supertypes at most. -/
structure SingleSuperclass (p : Program) : Prop extends InterfacesApart p where
  acyclic : ∀ d, ¬ TransGen p.Derives d d
  oneClass : ∀ d b b', p.Derives d b → p.Derives d b' → b.isInterface = false →
    b'.isInterface = false → b = b'

theorem SingleInheritance.singleSuperclass {p : Program} (hp : p.SingleInheritance) :
    p.SingleSuperclass where
  names := hp.names
  qualified := hp.qualified
  interfaceBase := hp.interfaceBase
  acyclic := hp.acyclic
  oneClass d b b' h h' hb hb' := by
    obtain ⟨he, hd⟩ := hp.extends_of_derives h hb
    exact hp.extends_unique hd he (hp.extends_of_derives h' hb').1

/-- Single inheritance, as it is checked definition by definition. -/
theorem SingleInheritance.of_rank {p : Program} (rank : TypeDef → Nat)
    (hnames : (p.allTypes.map (·.name.name)).Nodup)
    (hqualified : (p.allTypes.map (·.name.qualified)).Nodup)
    (hrank : ∀ d ∈ p.allTypes, ∀ b ∈ p.allTypes,
      (∃ t ∈ d.supertypes, t.name = b.name.name) → rank b < rank d)
    (hone : ∀ d ∈ p.allTypes, d.isInterface = false → d.baseClasses.length ≤ 1)
    (hbases : ∀ d ∈ p.allTypes, ∀ b ∈ p.allTypes,
      (∃ t ∈ d.baseClasses, t.name = b.name.name) → d.isInterface = false → b.isInterface = false)
    (hlisted : ∀ d ∈ p.allTypes, ∀ b ∈ p.allTypes,
      (∃ t ∈ d.interfaces, t.name = b.name.name) → b.isInterface = true)
    (hinterfaces : ∀ d ∈ p.allTypes, ∀ b ∈ p.allTypes,
      (∃ t ∈ d.supertypes, t.name = b.name.name) → d.isInterface = true → b.isInterface = true) :
    p.SingleInheritance where
  names := hnames
  qualified := hqualified
  acyclic := Hierarchy.acyclic_of_rank rank fun d b h => hrank d h.1 b h.2.1 h.2.2
  oneBase := hone
  classBase d b h := hbases d h.1 b h.2.1 h.2.2
  onlyInterfaces := hlisted
  interfaceBase d b h := hinterfaces d h.1 b h.2.1 h.2.2

/-- What derives from a class is a class. -/
theorem InterfacesApart.isClass {p : Program} (hp : p.InterfacesApart) {d b : TypeDef}
    (h : p.Derives d b) (hb : b.isInterface = false) : d.isInterface = false := by
  rw [Bool.eq_false_iff]
  intro hd
  rw [hp.interfaceBase d b h hd] at hb
  cases hb

end Source.Program

/-! ## References in the index -/

namespace SubtypeIndex

/-- Every subtype in the entries is the name of a definition of the program. -/
def Named (p : Program) (es : List Entry) : Prop :=
  ∀ e ∈ es, ∀ t ∈ e.subtypes, ∃ d ∈ p.allTypes, t = d.name

theorem Named.addEdge {p : Program} {es : List Entry} (hes : Named p es) {base : TypeRef}
    {d : TypeDef} (hd : d ∈ p.allTypes) : Named p (addEdge base d.name es) := by
  have hinsert : ∀ ts : List TypeRef, ∀ t ∈ insertNew ts d.name, t ∈ ts ∨ t = d.name := by
    intro ts t ht
    unfold insertNew at ht
    split at ht
    · exact .inl ht
    · exact (List.mem_append.mp ht).imp_right List.mem_singleton.mp
  induction es with
  | nil =>
    intro e he t ht
    obtain rfl := List.mem_singleton.mp he
    exact ⟨d, hd, List.mem_singleton.mp ht⟩
  | cons e es ih =>
    obtain ⟨he, hrest⟩ := List.forall_mem_cons.mp hes
    unfold SubtypeIndex.addEdge
    split
    · refine List.forall_mem_cons.mpr ⟨fun t ht => ?_, hrest⟩
      rcases hinsert _ t ht with ht | rfl
      · exact he t ht
      · exact ⟨d, hd, rfl⟩
    · exact List.forall_mem_cons.mpr ⟨he, ih hrest⟩

theorem Named.walk {p : Program} {table : TypeTable}
    (htable : ∀ {ref d}, table.get? ref = some d → d ∈ p.allTypes) {unvisited : List String}
    {es : List Entry} {tasks : List Task} (hes : Named p es)
    (htasks : ∀ task ∈ tasks, task.about ∈ p.allTypes) :
    Named p (walk table unvisited es tasks) := by
  fun_induction SubtypeIndex.walk table unvisited es tasks with
  | case1 => exact hes
  | case2 unvisited es base d rest es' baseDef hget ih =>
    obtain ⟨hd, hrest⟩ := List.forall_mem_cons.mp htasks
    exact ih (hes.addEdge hd) (List.forall_mem_cons.mpr ⟨htable hget, hrest⟩)
  | case3 unvisited es base d rest es' hget ih =>
    obtain ⟨hd, hrest⟩ := List.forall_mem_cons.mp htasks
    exact ih (hes.addEdge hd) hrest
  | case4 unvisited es d rest hu ih =>
    obtain ⟨hd, hrest⟩ := List.forall_mem_cons.mp htasks
    refine ih hes (List.forall_mem_append.mpr ⟨fun task ht => ?_, hrest⟩)
    rcases Walking.mem_tasksOf.mp ht with ⟨b, -, rfl⟩ | ⟨n, hn, rfl⟩
    · exact hd
    · exact TypeDef.nested_mem_allNested _ hd hn
  | case5 unvisited es d rest hu ih => exact ih hes (List.forall_mem_cons.mp htasks).2

theorem named_build (p : Program) : Named p (build p (TypeTable.ofProgram p)).entries := by
  refine Named.walk TypeTable.mem_of_get?_ofProgram (List.forall_mem_nil _) fun task ht => ?_
  obtain ⟨d, hd, rfl⟩ := List.mem_map.mp ht
  exact TypeDef.mem_allNested_of_mem hd

end SubtypeIndex

namespace Hierarchy

open Source.Program

variable {p : Program} {top : TypeDef} {m : MethodRef}

/-- The walk goes on to the definitions right below, under their own names. -/
theorem derives_of_below (hp : p.InterfacesApart) {b : TypeDef} (hb : b ∈ p.allTypes)
    {o o' : Override} (ho : o.type.name = b.name.name) (ho' : o' ∈ (ofProgram p).below o) :
    ∃ d, o'.type = d.name ∧ p.Derives d b := by
  obtain ⟨d, hd, hname⟩ := (mem_below_iff hp hb ho).mp ⟨o', ho', rfl⟩
  obtain ⟨t, ht, rfl⟩ := List.mem_map.mp ho'
  obtain ⟨d', hd', rfl⟩ : ∃ d' ∈ p.allTypes, t = d'.name := by
    unfold SubtypeIndex.subtypes at ht
    split at ht
    · next e he =>
      exact SubtypeIndex.named_build p e (List.mem_of_find?_eq_some he) t ht
    · cases ht
  obtain rfl := eq_of_name_eq hp.names hd.1 hd' hname
  exact ⟨d, rfl, hd⟩

/-! ## The method that a class runs -/

/-- Where the walk for `m` starts, and with which method: at `top` itself, or, when `top` is an
interface, at the classes that list it and implement `m`. -/
inductive Starts (p : Program) (top : TypeDef) (m : MethodRef) : TypeDef → MethodRef → Prop
  | self : top.isInterface = false → Starts p top m top m
  | implementor {d : TypeDef} {r : MethodRef} : top.isInterface = true → Lister p top d →
      implementationIn? d m = some r → Starts p top m d r

/-- A class runs its own override of what its superclass runs, or else the same as that one. -/
inductive Assigns (p : Program) (top : TypeDef) (m : MethodRef) : TypeDef → MethodRef → Prop
  | start {d : TypeDef} {r : MethodRef} : Starts p top m d r → Assigns p top m d r
  | inherit {d b : TypeDef} {r : MethodRef} : (∀ r', ¬ Starts p top m d r') → p.Derives d b →
      Assigns p top m b r → Assigns p top m d ((overrideIn? d r).getD r)

section

variable {d b : TypeDef} {r r' : MethodRef}

theorem Starts.unique (h : Starts p top m d r) (h' : Starts p top m d r') : r = r' := by
  cases h with
  | self hclass =>
    cases h' with
    | self => rfl
    | implementor hi => exact absurd (hi.symm.trans hclass) (by decide)
  | implementor hi _ hr =>
    cases h' with
    | self hclass => exact absurd (hi.symm.trans hclass) (by decide)
    | implementor _ _ hr' => exact Option.some.inj (hr.symm.trans hr')

theorem Starts.isClass (h : Starts p top m d r) : d.isInterface = false := by
  cases h with
  | self hclass => exact hclass
  | implementor _ hd => exact hd.isClass

theorem Starts.reach (h : Starts p top m d r) : ReflTransGen p.Derives d top := by
  cases h with
  | self => exact .refl
  | implementor _ hd =>
    obtain ⟨i, hi, hlists⟩ := hd.lists
    exact .head hlists hi.derives

theorem Assigns.isClass (hp : p.InterfacesApart) (h : Assigns p top m d r) :
    d.isInterface = false := by
  induction h with
  | start hs => exact hs.isClass
  | inherit _ hd _ ih => exact hp.isClass hd ih

theorem Assigns.reach (h : Assigns p top m d r) : ReflTransGen p.Derives d top := by
  induction h with
  | start hs => exact hs.reach
  | inherit _ hd _ ih => exact .head hd ih

theorem Assigns.mem (htop : top ∈ p.allTypes) (h : Assigns p top m d r) : d ∈ p.allTypes := by
  rcases ReflTransGen.cases_head h.reach with rfl | ⟨b, hd, -⟩
  · exact htop
  · exact hd.1

/-- A type of the walk other than `top` is in the index, below something. -/
theorem Assigns.mem_subtypeNames (hp : p.InterfacesApart) (h : Assigns p top m d r)
    (hne : d ≠ top) : d.name.name ∈ (ofProgram p).index.subtypeNames := by
  rcases ReflTransGen.cases_head h.reach with rfl | ⟨b, hd, -⟩
  · exact absurd rfl hne
  · exact Hierarchy.mem_subtypeNames hp hd

/-- What is below a class of the walk is not `top`. -/
theorem Assigns.ne_top (hp : p.SingleSuperclass) (hd : p.Derives d b) (h : Assigns p top m b r) :
    d ≠ top := by
  rintro rfl
  exact hp.acyclic d (.head' hd h.reach)

/-- A class has one superclass at most, so that it runs one method. -/
theorem Assigns.unique (hp : p.SingleSuperclass) (h : Assigns p top m d r)
    (h' : Assigns p top m d r') : r = r' := by
  induction h generalizing r' with
  | start hs =>
    cases h' with
    | start hs' => exact hs.unique hs'
    | inherit hno => exact absurd hs (hno _)
  | inherit hno hd hb ih =>
    cases h' with
    | start hs' => exact absurd hs' (hno _)
    | inherit _ hd' hb' =>
      obtain rfl := hp.oneClass _ _ _ hd hd' (hb.isClass hp.toInterfacesApart)
        (hb'.isClass hp.toInterfacesApart)
      rw [ih hb']

/-- The methods of the walk belong to classes, so that it never turns to an interface again. -/
theorem Assigns.declaredOnInterface (hp : p.InterfacesApart) (htop : top ∈ p.allTypes)
    (hm : m.type.name = top.name.name) (h : Assigns p top m d r) :
    (ofProgram p).declaredOnInterface r = false := by
  induction h with
  | start hs =>
    cases hs with
    | self hclass => exact (declaredOnInterface_eq hp htop hm).trans hclass
    | implementor _ hd hr =>
      have howner := congrArg TypeRef.name (implementationIn?_type hr)
      exact (declaredOnInterface_eq hp hd.mem howner).trans hd.isClass
  | @inherit d b r hno hd hb ih =>
    cases ho : overrideIn? d r with
    | none => exact ih
    | some r' =>
      have howner := congrArg TypeRef.name (overrideIn?_eq_some ho).1
      exact (declaredOnInterface_eq hp hd.1 howner).trans (hp.isClass hd (hb.isClass hp))

end

/-! ## The walk -/

/-- What holds at every point of the walk. -/
structure Assigning (p : Program) (top : TypeDef) (m : MethodRef) (unseen : List String)
    (found pending : List Override) : Prop where
  sound : ∀ o ∈ found, ∃ d, o.type = d.name ∧ d ≠ top ∧ Assigns p top m d o.method
  waiting : ∀ o ∈ pending, ∃ d b, o.type = d.name ∧ p.Derives d b ∧ Assigns p top m b o.method
  /-- What the walk starts from is not entered again. -/
  started : ∀ d r, Starts p top m d r → d ≠ top → d.name.name ∉ unseen
  entered : ∀ d r, Assigns p top m d r → d ≠ top → d.name.name ∉ unseen →
    d.name.name ∈ typeNames found
  /-- What is right below `top` or below a class that is entered is not forgotten. -/
  below : ∀ d b r, Assigns p top m b r → p.Derives d b → (b ≠ top → b.name.name ∉ unseen) →
    d.name.name ∈ unseen → d.name.name ∈ typeNames pending

namespace Assigning

variable {unseen : List String} {found rest : List Override} {t : TypeRef} {inh : MethodRef}

/-- A pending type that is not entered yet runs what `Assigns` says. -/
theorem runBy (hp : p.SingleSuperclass) (h : Assigning p top m unseen found (⟨t, inh⟩ :: rest))
    (ht : t.name ∈ unseen) :
    ∃ d, t = d.name ∧ d ≠ top ∧ Assigns p top m d ((ofProgram p).runBy t inh) := by
  obtain ⟨d, b, rfl, hd, hb⟩ := h.waiting _ List.mem_cons_self
  have hne := hb.ne_top hp hd
  have hget : (ofProgram p).table.get? d.name = some d :=
    TypeTable.get?_ofProgram hp.names hd.1 rfl
  refine ⟨d, rfl, hne, ?_⟩
  rw [Hierarchy.runBy, hget]
  exact .inherit (fun r hs => h.started d r hs hne ht) hd hb

theorem enter (hp : p.SingleSuperclass) (htop : top ∈ p.allTypes)
    (h : Assigning p top m unseen found (⟨t, inh⟩ :: rest)) (ht : t.name ∈ unseen) :
    Assigning p top m (strike unseen t.name) (found ++ [⟨t, (ofProgram p).runBy t inh⟩])
      ((ofProgram p).below ⟨t, (ofProgram p).runBy t inh⟩ ++ rest) := by
  obtain ⟨d, rfl, hne, hruns⟩ := h.runBy hp ht
  have hd := hruns.mem htop
  refine ⟨?_, ?_, fun d' r hs hne' hu => h.started d' r hs hne' (mem_strike.mp hu).1, ?_, ?_⟩
  · refine List.forall_mem_append.mpr ⟨h.sound, List.forall_mem_singleton.mpr ?_⟩
    exact ⟨d, rfl, hne, hruns⟩
  · refine List.forall_mem_append.mpr ⟨fun o ho => ?_, (List.forall_mem_cons.mp h.waiting).2⟩
    obtain ⟨d', hd', hder⟩ := derives_of_below hp.toInterfacesApart hd rfl ho
    rw [method_of_mem_below ho]
    exact ⟨d', d, hd', hder, hruns⟩
  · intro d' r hd' hne' hu
    rw [typeNames, List.map_append, List.mem_append]
    by_cases hx : d'.name.name = d.name.name
    · exact .inr (List.mem_singleton.mpr hx)
    · exact .inl (h.entered d' r hd' hne' fun hmem => hu (mem_strike.mpr ⟨hmem, hx⟩))
  · intro d' b r hb hder hbu hu
    obtain ⟨hu, hx⟩ := mem_strike.mp hu
    rw [typeNames, List.map_append, List.mem_append]
    by_cases hbd : b.name.name = d.name.name
    · obtain rfl := eq_of_name_eq hp.names (hb.mem htop) hd hbd
      obtain ⟨o, ho, hod⟩ := (mem_below_iff (o := ⟨b.name, (ofProgram p).runBy b.name inh⟩)
        hp.toInterfacesApart hd rfl).mpr ⟨d', hder, rfl⟩
      exact .inl (List.mem_map.mpr ⟨o, ho, hod⟩)
    · have hold := h.below d' b r hb hder
        (fun hne' hmem => hbu hne' (mem_strike.mpr ⟨hmem, hbd⟩)) hu
      rcases List.mem_cons.mp hold with hold | hold
      · exact absurd hold hx
      · exact .inr hold

theorem skip (h : Assigning p top m unseen found (⟨t, inh⟩ :: rest)) (ht : t.name ∉ unseen) :
    Assigning p top m unseen found rest := by
  refine ⟨h.sound, (List.forall_mem_cons.mp h.waiting).2, h.started, h.entered, ?_⟩
  intro d b r hb hder hbu hu
  rcases List.mem_cons.mp (h.below d b r hb hder hbu hu) with hd | hd
  · rw [hd] at hu
    exact absurd hu ht
  · exact hd

/-- When nothing is pending, every class that is assigned a method is entered. -/
theorem complete (h : Assigning p top m unseen found []) {d : TypeDef} {r : MethodRef}
    (hd : Assigns p top m d r) (hne : d ≠ top) : d.name.name ∈ typeNames found := by
  refine h.entered d r hd hne ?_
  induction hd with
  | start hs => exact h.started _ _ hs hne
  | inherit hno hder hb ih =>
    intro hu
    exact List.not_mem_nil (h.below _ _ _ hb hder ih hu)

end Assigning

/-- The invariant holds at the end of the walk. -/
theorem assigning_overridesBelow (hp : p.SingleSuperclass) (htop : top ∈ p.allTypes)
    (hm : m.type.name = top.name.name) {unseen : List String} {found pending : List Override}
    (h : Assigning p top m unseen found pending) :
    ∃ unseen', Assigning p top m unseen' ((ofProgram p).overridesBelow unseen found pending) [] := by
  fun_induction (ofProgram p).overridesBelow unseen found pending with
  | case1 unseen found => exact ⟨unseen, h⟩
  | case2 unseen found t inh rest ht r seeded ih =>
    obtain ⟨d, -, -, hruns⟩ := h.runBy hp ht
    have hdecl : (ofProgram p).declaredOnInterface r = false :=
      hruns.declaredOnInterface hp.toInterfacesApart htop hm
    have hseeded : seeded = [] := by simp [seeded, seeds, hdecl]
    have hnext : (ofProgram p).next t r = (ofProgram p).below ⟨t, r⟩ := by simp [next, hdecl]
    rw [hseeded, hnext] at ih ⊢
    exact ih (h.enter hp htop ht)
  | case3 unseen found t inh rest ht ih => exact ih (h.skip ht)

/-! ## The start of the walk -/

/-- Below a class the walk starts with nothing found. -/
theorem assigning_start_class (hp : p.SingleSuperclass) (htop : top ∈ p.allTypes)
    (hclass : top.isInterface = false) (hm : m.type.name = top.name.name) :
    Assigning p top m (ofProgram p).index.subtypeNames [] ((ofProgram p).below ⟨m.type, m⟩) := by
  refine ⟨List.forall_mem_nil _, fun o ho => ?_, fun d r hs hne => ?_, ?_, ?_⟩
  · obtain ⟨d, hd, hder⟩ := derives_of_below hp.toInterfacesApart htop hm ho
    rw [method_of_mem_below ho]
    exact ⟨d, top, hd, hder, .start (.self hclass)⟩
  · cases hs with
    | self => exact absurd rfl hne
    | implementor hi => exact absurd (hi.symm.trans hclass) (by decide)
  · exact fun d r hd hne hu => absurd (hd.mem_subtypeNames hp.toInterfacesApart hne) hu
  · intro d b r hb hder hbu _
    by_cases hbt : b = top
    · subst hbt
      obtain ⟨o, ho, hod⟩ :=
        (mem_below_iff (o := ⟨m.type, m⟩) hp.toInterfacesApart htop hm).mpr ⟨d, hder, rfl⟩
      exact List.mem_map.mpr ⟨o, ho, hod⟩
    · exact absurd (hb.mem_subtypeNames hp.toInterfacesApart hbt) (hbu hbt)

/-- Every implementation found below an interface is one that the walk starts from. -/
theorem starts_of_implementations (hp : p.InterfacesApart) (htop : top ∈ p.allTypes)
    (hi : top.isInterface = true) (hm : m.type.name = top.name.name) {o : Override}
    (ho : o ∈ (ofProgram p).implementations m.type m) :
    ∃ d, o.type = d.name ∧ Starts p top m d o.method := by
  obtain ⟨d, hget, -, htype, hr, -⟩ := implementor_implementations ho
  obtain ⟨hsound, -⟩ := mem_implementations hp htop hi hm
  obtain ⟨d', hd', htype', -⟩ := hsound o ho
  have hget' : (ofProgram p).table.get? d.name = some d' :=
    TypeTable.get?_ofProgram hp.names hd'.mem (congrArg TypeRef.name (htype.symm.trans htype'))
  obtain rfl : d = d' := Option.some.inj (hget.symm.trans hget')
  exact ⟨d, htype, .implementor hi hd'.toLister hr⟩

/-- Below an interface the walk starts with the implementations. -/
theorem assigning_start_interface (hp : p.SingleSuperclass) (htop : top ∈ p.allTypes)
    (hi : top.isInterface = true) (hm : m.type.name = top.name.name) :
    Assigning p top m
      (strikeAll (ofProgram p).index.subtypeNames
        (typeNames ((ofProgram p).implementations m.type m)))
      (((ofProgram p).implementations m.type m).foldl addNew [])
      (((ofProgram p).implementations m.type m).flatMap (ofProgram p).below) := by
  have hclass : ∀ {d r}, Assigns p top m d r → d ≠ top := by
    rintro d r hd rfl
    exact absurd (hi.symm.trans (hd.isClass hp.toInterfacesApart)) (by decide)
  -- a class that is struck off is among the implementations
  have hseeded : ∀ {d r}, Assigns p top m d r → d.name.name ∉ strikeAll
      (ofProgram p).index.subtypeNames (typeNames ((ofProgram p).implementations m.type m)) →
      d.name.name ∈ typeNames ((ofProgram p).implementations m.type m) := by
    intro d r hd hu
    rw [mem_strikeAll, not_and, not_not] at hu
    exact hu (hd.mem_subtypeNames hp.toInterfacesApart (hclass hd))
  refine ⟨fun o ho => ?_, fun o ho => ?_, fun d r hs _ hu => ?_, fun d r hd _ hu => ?_,
    fun d b r hb hder hbu _ => ?_⟩
  · rcases mem_of_foldl_addNew ho with ho | ho
    · cases ho
    · obtain ⟨d, hd, hs⟩ := starts_of_implementations hp.toInterfacesApart htop hi hm ho
      exact ⟨d, hd, hclass (.start hs), .start hs⟩
  · obtain ⟨o', ho', ho⟩ := List.mem_flatMap.mp ho
    obtain ⟨b, hb, hs⟩ := starts_of_implementations hp.toInterfacesApart htop hi hm ho'
    have hassigns := Assigns.start hs
    obtain ⟨d, hd, hder⟩ := derives_of_below hp.toInterfacesApart (hassigns.mem htop)
      (congrArg TypeRef.name hb) ho
    rw [method_of_mem_below ho]
    exact ⟨d, b, hd, hder, hassigns⟩
  · cases hs with
    | self hc => exact absurd (hi.symm.trans hc) (by decide)
    | implementor _ hlists hr =>
      have hdeclares := implementationIn?_isSome.mp (Option.isSome_of_eq_some hr)
      obtain ⟨-, hcomplete⟩ := mem_implementations hp.toInterfacesApart htop hi hm
      obtain ⟨o, ho, htype⟩ := hcomplete d ⟨hlists, hdeclares⟩
      exact (mem_strikeAll.mp hu).2 (List.mem_map.mpr ⟨o, ho, congrArg TypeRef.name htype⟩)
  · exact mem_typeNames_foldl_addNew_iff.mpr (.inr (hseeded hd hu))
  · obtain ⟨o, ho, hob⟩ := List.mem_map.mp (hseeded hb (hbu (hclass hb)))
    obtain ⟨o', ho', hod⟩ :=
      (mem_below_iff hp.toInterfacesApart (hb.mem htop) hob).mpr ⟨d, hder, rfl⟩
    exact List.mem_map.mpr ⟨o', List.mem_flatMap.mpr ⟨o, ho, ho'⟩, hod⟩

/-! ## Entries -/

/-- What the walk for `m` finds, whether or not some type runs another method. -/
def foundBelow (h : Hierarchy) (m : MethodRef) : List Override :=
  h.overridesBelow (strikeAll h.index.subtypeNames (typeNames (h.seeds m.type m)))
    ((h.seeds m.type m).foldl addNew []) (h.next m.type m)

theorem overrides_eq (h : Hierarchy) (m : MethodRef) :
    h.overrides m = if (h.foundBelow m).all (·.method == m) then [] else h.foundBelow m := rfl

theorem assigning_foundBelow (hp : p.SingleSuperclass) (htop : top ∈ p.allTypes)
    (hm : m.type.name = top.name.name) :
    ∃ unseen, Assigning p top m unseen ((ofProgram p).foundBelow m) [] := by
  have hdecl := declaredOnInterface_eq hp.toInterfacesApart htop hm
  cases hi : top.isInterface with
  | true =>
    rw [hi] at hdecl
    have hstart := assigning_start_interface hp htop hi hm
    simp only [foundBelow, seeds, next, hdecl, if_true]
    exact assigning_overridesBelow hp htop hm hstart
  | false =>
    rw [hi] at hdecl
    have hstart := assigning_start_class hp htop hi hm
    simp only [foundBelow, seeds, next, hdecl, Bool.false_eq_true, if_false]
    exact assigning_overridesBelow hp htop hm hstart

/-- The entries of the walk are the types below with the methods assigned to them. -/
theorem mem_foundBelow_iff (hp : p.SingleSuperclass) (htop : top ∈ p.allTypes)
    (hm : m.type.name = top.name.name) {o : Override} :
    o ∈ (ofProgram p).foundBelow m ↔
      ∃ d, o.type = d.name ∧ d ≠ top ∧ Assigns p top m d o.method := by
  obtain ⟨unseen, hend⟩ := assigning_foundBelow hp htop hm
  refine ⟨hend.sound o, ?_⟩
  rintro ⟨d, hd, hne, hassigns⟩
  obtain ⟨⟨t, r⟩, ho', hname⟩ := List.mem_map.mp (hend.complete hassigns hne)
  obtain ⟨d', rfl, -, hassigns'⟩ := hend.sound _ ho'
  obtain rfl := eq_of_name_eq hp.names (hassigns'.mem htop) (hassigns.mem htop) hname
  obtain rfl : r = o.method := hassigns'.unique hp hassigns
  rwa [← hd] at ho'

end Hierarchy

end Unwind
