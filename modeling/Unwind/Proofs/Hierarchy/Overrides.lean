import Mathlib.Logic.Relation
import Unwind.Proofs.Hierarchy.SubtypeIndex

/-!
# Resolution is upward lookup

A call finds its method by a walk **down** the hierarchy that hands every type what its supertype
runs. Where classes have one base class at most, this is the same as the search **up** from each
class: the first class on the way that overrides the method (`LooksUp`). What is not an interface
counts as a class.

The walk enters a class together with what it runs. At every point, what it has entered is right,
and a class right below an entered one is entered or pending; this is `Descending`.
-/

namespace Unwind.Source

/-! ## Signatures -/

/-- A type without its module: what equality looks at. -/
def Ty.bare : Ty → Ty
  | named t => named ⟨t.name, none⟩
  | ty => ty

theorem Ty.beq_iff {a b : Ty} : (a == b) = true ↔ a.bare = b.bare := by
  cases a <;> cases b <;> simp [Ty.bare, BEq.beq]

theorem Ty.list_beq_iff {as bs : List Ty} :
    (as == bs) = true ↔ as.map Ty.bare = bs.map Ty.bare := by
  induction as generalizing bs with
  | nil => cases bs <;> simp
  | cons a as ih =>
    cases bs with
    | nil => simp
    | cons b bs =>
      rw [List.cons_beq_cons, Bool.and_eq_true, Ty.beq_iff, ih, List.map_cons, List.map_cons,
        List.cons.injEq]

/-- Two references with the same name and the same parameter types. -/
structure MethodRef.Alike (a b : MethodRef) : Prop where
  name : a.name = b.name
  params : a.params.map Ty.bare = b.params.map Ty.bare

theorem MethodDef.hasSignature_iff {x : MethodDef} {m : MethodRef} (owner : TypeRef) :
    x.hasSignature m = true ↔ (x.reference owner).Alike m := by
  rw [MethodDef.hasSignature, Bool.and_eq_true, beq_iff_eq, Ty.list_beq_iff]
  exact ⟨fun ⟨h, h'⟩ => ⟨h, h'⟩, fun ⟨h, h'⟩ => ⟨h, h'⟩⟩

theorem MethodRef.Alike.trans {a b c : MethodRef} (h : a.Alike b) (h' : b.Alike c) : a.Alike c :=
  ⟨h.name.trans h'.name, h.params.trans h'.params⟩

theorem MethodRef.Alike.symm {a b : MethodRef} (h : a.Alike b) : b.Alike a :=
  ⟨h.name.symm, h.params.symm⟩

theorem MethodRef.Alike.refl (a : MethodRef) : a.Alike a := ⟨rfl, rfl⟩

theorem methodsMatching_congr {a b : MethodRef} (h : a.Alike b) (d : TypeDef) :
    d.methodsMatching a = d.methodsMatching b := by
  refine List.filter_congr fun x _ => Bool.eq_iff_iff.mpr ?_
  rw [MethodDef.hasSignature_iff d.name, MethodDef.hasSignature_iff d.name]
  exact ⟨fun h' => h'.trans h, fun h' => h'.trans h.symm⟩

end Unwind.Source

namespace Unwind

open Source
open Relation (TransGen)

/-! ## Hierarchies -/

namespace Source.Program

/-- The definition `d` lists `b` as a base class. -/
def Extends (p : Program) (d b : TypeDef) : Prop :=
  d ∈ p.allTypes ∧ b ∈ p.allTypes ∧ ∃ t ∈ d.baseClasses, t.name = b.name.name

/-- The definition `d` lists `b` as a base class or as an interface. -/
def Derives (p : Program) (d b : TypeDef) : Prop :=
  d ∈ p.allTypes ∧ b ∈ p.allTypes ∧ ∃ t ∈ d.supertypes, t.name = b.name.name

/-- Names are unique, and classes form a forest apart from the interfaces. -/
structure SingleInheritance (p : Program) : Prop where
  names : (p.allTypes.map (·.name.name)).Nodup
  qualified : (p.allTypes.map (·.name.qualified)).Nodup
  acyclic : ∀ d, ¬ TransGen p.Derives d d
  oneBase : ∀ d ∈ p.allTypes, d.isInterface = false → d.baseClasses.length ≤ 1
  /-- No interface is among the base classes of a class. -/
  classBase : ∀ d b, p.Extends d b → d.isInterface = false → b.isInterface = false
  /-- Only interfaces are listed as interfaces. -/
  onlyInterfaces : ∀ d ∈ p.allTypes, ∀ b ∈ p.allTypes, (∃ t ∈ d.interfaces, t.name = b.name.name) →
    b.isInterface = true
  /-- No interface derives from a class. -/
  interfaceBase : ∀ d b, p.Derives d b → d.isInterface = true → b.isInterface = true

/-- The first override of `m` on the way up from a class, strictly below `top`; the method itself
when there is none. -/
inductive LooksUp (p : Program) (top : TypeDef) (m : MethodRef) : TypeDef → MethodRef → Prop where
  | own {d : TypeDef} {r : MethodRef} : Hierarchy.overrideIn? d m = some r → LooksUp p top m d r
  | inherited {d b : TypeDef} {r : MethodRef} : Hierarchy.overrideIn? d m = none →
      p.Extends d b → b ≠ top → LooksUp p top m b r → LooksUp p top m d r
  | none {d : TypeDef} : Hierarchy.overrideIn? d m = none → p.Extends d top → LooksUp p top m d m

variable {p : Program}

theorem Extends.derives {d b : TypeDef} (h : p.Extends d b) : p.Derives d b := by
  obtain ⟨hd, hb, t, ht, hn⟩ := h
  exact ⟨hd, hb, t, List.mem_append_left _ ht, hn⟩

/-- Where a class is listed as a supertype, it is listed as a base class, by a class. -/
theorem SingleInheritance.extends_of_derives (hp : p.SingleInheritance) {d b : TypeDef}
    (h : p.Derives d b) (hb : b.isInterface = false) : p.Extends d b ∧ d.isInterface = false := by
  constructor
  · obtain ⟨hd, hbm, t, ht, hn⟩ := h
    rcases List.mem_append.mp ht with ht | ht
    · exact ⟨hd, hbm, t, ht, hn⟩
    · rw [hp.onlyInterfaces d hd b hbm ⟨t, ht, hn⟩] at hb
      cases hb
  · cases hd : d.isInterface with
    | false => rfl
    | true =>
      rw [hp.interfaceBase d b h hd] at hb
      cases hb

/-- A class has one base class at most. -/
theorem SingleInheritance.extends_unique (hp : p.SingleInheritance) {d b b' : TypeDef}
    (hd : d.isInterface = false) (h : p.Extends d b) (h' : p.Extends d b') : b = b' := by
  obtain ⟨hdm, hb, t, ht, hn⟩ := h
  obtain ⟨-, hb', t', ht', hn'⟩ := h'
  have hone := hp.oneBase d hdm hd
  have htt : t = t' := by
    match d.baseClasses, hone, ht, ht' with
    | [u], _, ht, ht' => rw [List.mem_singleton.mp ht, List.mem_singleton.mp ht']
  subst htt
  exact eq_of_name_eq hp.names hb hb' (hn.symm.trans hn')

/-- A class strictly below `top` is another one. -/
theorem SingleInheritance.ne_top (hp : p.SingleInheritance) {d top : TypeDef}
    (h : TransGen p.Extends d top) : d ≠ top := by
  rintro rfl
  exact hp.acyclic d (TransGen.mono (fun _ _ h => Extends.derives h) _ _ h)

/-- Looking up finds one method only. -/
theorem LooksUp.unique (hp : p.SingleInheritance) {top d : TypeDef} {m r r' : MethodRef}
    (hd : d.isInterface = false) (h : LooksUp p top m d r) (h' : LooksUp p top m d r') : r = r' := by
  induction h with
  | own ho =>
    cases h' with
    | own ho' => exact Option.some.inj (ho.symm.trans ho')
    | inherited hn | none hn =>
      rw [hn] at ho
      cases ho
  | inherited hn he hne _ ih =>
    cases h' with
    | own ho =>
      rw [hn] at ho
      cases ho
    | inherited _ he' _ hr' =>
      obtain rfl := hp.extends_unique hd he he'
      exact ih (hp.classBase _ _ he hd) hr'
    | none _ he' => exact absurd (hp.extends_unique hd he he') hne
  | none hn he =>
    cases h' with
    | own ho =>
      rw [hn] at ho
      cases ho
    | inherited _ he' hne => exact absurd (hp.extends_unique hd he' he) hne
    | none => rfl

/-! ## What looking up finds -/

theorem overrideIn?_eq_some {d : TypeDef} {m r : MethodRef}
    (h : Hierarchy.overrideIn? d m = some r) : r.type = d.name ∧ r.Alike m := by
  obtain ⟨x, hx, rfl⟩ := Option.map_eq_some_iff.mp h
  have hmem := List.mem_of_getLast? hx
  rw [List.mem_filter, TypeDef.methodsMatching, List.mem_filter] at hmem
  exact ⟨rfl, (MethodDef.hasSignature_iff d.name).mp hmem.1.2⟩

theorem overrideIn?_congr {a b : MethodRef} (h : a.Alike b) (d : TypeDef) :
    Hierarchy.overrideIn? d a = Hierarchy.overrideIn? d b := by
  rw [Hierarchy.overrideIn?, Hierarchy.overrideIn?, methodsMatching_congr h]

/-- What is found has the signature of the method looked for. -/
theorem LooksUp.alike {top d : TypeDef} {m r : MethodRef} (h : LooksUp p top m d r) : r.Alike m := by
  induction h with
  | own ho => exact (overrideIn?_eq_some ho).2
  | inherited _ _ _ _ ih => exact ih
  | none => exact .refl m

/-- What is found is the method itself or belongs to a class strictly below `top`. -/
theorem LooksUp.type_below (hp : p.SingleInheritance) {top d : TypeDef} {m r : MethodRef}
    (h : LooksUp p top m d r) (hd : d.isInterface = false) (hbelow : TransGen p.Extends d top) :
    r = m ∨ ∃ b, b.isInterface = false ∧ TransGen p.Extends b top ∧ r.type = b.name := by
  induction h with
  | own ho => exact .inr ⟨_, hd, hbelow, (overrideIn?_eq_some ho).1⟩
  | inherited _ he hne _ ih =>
    refine ih (hp.classBase _ _ he hd) ?_
    -- the way up goes through the one base class
    rcases (TransGen.head'_iff).mp hbelow with ⟨b', he', hb'⟩
    obtain rfl := hp.extends_unique hd he he'
    rcases Relation.reflTransGen_iff_eq_or_transGen.mp hb' with rfl | hb'
    · exact absurd rfl hne
    · exact hb'
  | none => exact .inl rfl

theorem mem_of_transGen {d top : TypeDef} (h : TransGen p.Extends d top) : d ∈ p.allTypes := by
  obtain ⟨b, he, -⟩ := TransGen.head'_iff.mp h
  exact he.1

end Source.Program

/-! ## The walk -/

namespace Hierarchy

open Source.Program (Extends LooksUp SingleInheritance)

variable {p : Program} {top : TypeDef} {m : MethodRef}

/-- A class strictly below `top`. -/
structure Below (p : Program) (top d : TypeDef) : Prop where
  isClass : d.isInterface = false
  below : TransGen p.Extends d top

/-- What holds at every point of the walk down from `top`. -/
structure Descending (p : Program) (top : TypeDef) (m : MethodRef) (unseen : List String)
    (found pending : List Override) : Prop where
  /-- What is entered is right. -/
  right : ∀ o ∈ found, ∃ d, Below p top d ∧ d.name.name = o.type.name ∧ LooksUp p top m d o.method
  /-- What is pending comes with what its base class runs. -/
  waiting : ∀ o ∈ pending, ∃ d, Below p top d ∧ d.name.name = o.type.name ∧
    ((p.Extends d top ∧ o.method = m) ∨
      ∃ b, p.Extends d b ∧ Below p top b ∧ LooksUp p top m b o.method)
  entered : ∀ d, Below p top d → d.name.name ∉ unseen → ∃ o ∈ found, o.type.name = d.name.name
  /-- A class right below `top`, or below one that is entered, is not forgotten. -/
  pendingTop : ∀ d, Below p top d → p.Extends d top → d.name.name ∈ unseen →
    ∃ o ∈ pending, o.type.name = d.name.name
  pendingBelow : ∀ d b, Below p top b → p.Extends d b → b.name.name ∉ unseen →
    d.name.name ∈ unseen → ∃ o ∈ pending, o.type.name = d.name.name

/-- Below a class, the index lists the classes that extend it. -/
theorem mem_below (hp : p.SingleInheritance) {b : TypeDef} (hb : b ∈ p.allTypes)
    (hclass : b.isInterface = false) {t : TypeRef} (ht : t.name = b.name.name) {x : String} :
    (∃ o ∈ (ofProgram p).below ⟨t, m⟩, o.type.name = x) ↔
      ∃ d, p.Extends d b ∧ d.isInterface = false ∧ d.name.name = x := by
  have hmem : (∃ o ∈ (ofProgram p).below ⟨t, m⟩, o.type.name = x) ↔
      x ∈ ((ofProgram p).index.subtypes t).map (·.name) := by
    simp [Hierarchy.below]
  rw [hmem, ofProgram, SubtypeIndex.mem_subtypes_build hp.qualified]
  constructor
  · rintro ⟨d, hd, hx, s, hs, hst⟩
    obtain ⟨he, hdc⟩ := hp.extends_of_derives ⟨hd, hb, s, hs, hst.trans ht⟩ hclass
    exact ⟨d, he, hdc, hx⟩
  · rintro ⟨d, ⟨hd, -, s, hs, hst⟩, -, hx⟩
    exact ⟨d, hd, hx, s, List.mem_append_left _ hs, hst.trans ht.symm⟩

theorem get?_table (hp : p.SingleInheritance) {d : TypeDef} (hd : d ∈ p.allTypes) {ref : TypeRef}
    (href : ref.name = d.name.name) : (ofProgram p).table.get? ref = some d :=
  TypeTable.get?_ofProgram hp.names hd href

/-- A method of a class is not declared on an interface. -/
theorem declaredOnInterface_eq_false (hp : p.SingleInheritance) {d : TypeDef} (hd : d ∈ p.allTypes)
    (hclass : d.isInterface = false) {r : MethodRef} (hr : r.type.name = d.name.name) :
    (ofProgram p).declaredOnInterface r = false := by
  rw [declaredOnInterface, get?_table hp hd hr]
  exact hclass

theorem Below.mem {d : TypeDef} (h : Below p top d) : d ∈ p.allTypes :=
  Source.Program.mem_of_transGen h.below

theorem Below.of_extends {d b : TypeDef} (he : p.Extends d b) (hd : d.isInterface = false)
    (hb : Below p top b) : Below p top d := ⟨hd, .head he hb.below⟩

/-- Looking up from a class strictly below `top` never ends on an interface. -/
theorem declaredOnInterface_looksUp (hp : p.SingleInheritance) (htop : top ∈ p.allTypes)
    (hclass : top.isInterface = false) (hm : m.type.name = top.name.name) {d : TypeDef}
    {r : MethodRef} (hd : Below p top d) (h : LooksUp p top m d r) :
    (ofProgram p).declaredOnInterface r = false := by
  rcases h.type_below hp hd.isClass hd.below with rfl | ⟨b, hb, hbelow, hr⟩
  · exact declaredOnInterface_eq_false hp htop hclass hm
  · exact declaredOnInterface_eq_false hp (Source.Program.mem_of_transGen hbelow) hb
      (congrArg TypeRef.name hr)

/-- A class runs what looking up from it finds, when its base class does. -/
theorem looksUp_runBy (hp : p.SingleInheritance) {t : TypeRef} {inh : MethodRef} {d : TypeDef}
    (hd : Below p top d) (ht : d.name.name = t.name)
    (h : (p.Extends d top ∧ inh = m) ∨
      ∃ b, p.Extends d b ∧ Below p top b ∧ LooksUp p top m b inh) :
    LooksUp p top m d ((ofProgram p).runBy t inh) := by
  have halike : inh.Alike m := by
    rcases h with ⟨-, rfl⟩ | ⟨b, -, -, hb⟩
    · exact .refl _
    · exact hb.alike
  rw [runBy, get?_table hp hd.mem ht.symm, Option.bind_some,
    Source.Program.overrideIn?_congr halike]
  cases ho : overrideIn? d m with
  | some r => exact .own ho
  | none =>
    rcases h with ⟨he, rfl⟩ | ⟨b, he, hb, hl⟩
    · exact .none ho he
    · exact .inherited ho he (hp.ne_top hb.below) hl

namespace Descending

variable {unseen : List String} {found rest : List Override} {t : TypeRef} {inh : MethodRef}

/-- Enter a pending type. -/
theorem enter (hp : p.SingleInheritance)
    (h : Descending p top m unseen found (⟨t, inh⟩ :: rest)) :
    Descending p top m (strike unseen t.name) (found ++ [⟨t, (ofProgram p).runBy t inh⟩])
      ((ofProgram p).below ⟨t, (ofProgram p).runBy t inh⟩ ++ rest) := by
  obtain ⟨d, hd, hdt, hinh⟩ := h.waiting _ List.mem_cons_self
  have hrun := looksUp_runBy hp hd hdt hinh
  -- a pending type that is not the one entered stays pending
  have hstay : ∀ {x : String}, x ≠ t.name → (∃ o ∈ (⟨t, inh⟩ : Override) :: rest, o.type.name = x) →
      ∃ o ∈ (ofProgram p).below ⟨t, (ofProgram p).runBy t inh⟩ ++ rest, o.type.name = x := by
    rintro x hx ⟨o, ho, rfl⟩
    rcases List.mem_cons.mp ho with rfl | ho
    · exact absurd rfl hx
    · exact ⟨o, List.mem_append_right _ ho, rfl⟩
  refine ⟨?_, ?_, ?_, ?_, ?_⟩
  · intro o ho
    rcases List.mem_append.mp ho with ho | ho
    · exact h.right o ho
    · rw [List.mem_singleton.mp ho]
      exact ⟨d, hd, hdt, hrun⟩
  · intro o ho
    rcases List.mem_append.mp ho with ho | ho
    · obtain ⟨d', he, hd', hx⟩ := (mem_below hp hd.mem hd.isClass hdt.symm).mp ⟨o, ho, rfl⟩
      refine ⟨d', .of_extends he hd' hd, hx, .inr ⟨d, he, hd, ?_⟩⟩
      obtain ⟨u, -, rfl⟩ := List.mem_map.mp ho
      exact hrun
    · exact h.waiting o (List.mem_cons_of_mem _ ho)
  · intro d' hd' hu
    by_cases hx : d'.name.name = t.name
    · exact ⟨_, List.mem_append_right _ (List.mem_singleton_self _), hx.symm⟩
    · obtain ⟨o, ho, hod⟩ := h.entered d' hd' fun hm => hu (mem_strike.mpr ⟨hm, hx⟩)
      exact ⟨o, List.mem_append_left _ ho, hod⟩
  · intro d' hd' he hu
    obtain ⟨hu, hx⟩ := mem_strike.mp hu
    exact hstay hx (h.pendingTop d' hd' he hu)
  · intro d' b hb he hbu hu
    obtain ⟨hu, hx⟩ := mem_strike.mp hu
    by_cases hbt : b.name.name = t.name
    · obtain rfl := eq_of_name_eq hp.names hb.mem hd.mem (hbt.trans hdt.symm)
      have hd' := (hp.extends_of_derives he.derives hd.isClass).2
      obtain ⟨o, ho, hox⟩ := (mem_below (m := (ofProgram p).runBy t inh) hp hd.mem hd.isClass
        hdt.symm).mpr ⟨d', he, hd', rfl⟩
      exact ⟨o, List.mem_append_left _ ho, hox⟩
    · exact hstay hx (h.pendingBelow d' b hb he (fun hm => hbu (mem_strike.mpr ⟨hm, hbt⟩)) hu)

/-- Pass over a type that is entered. -/
theorem skip (h : Descending p top m unseen found (⟨t, inh⟩ :: rest)) (ht : t.name ∉ unseen) :
    Descending p top m unseen found rest := by
  have hstay : ∀ {x : String}, x ∈ unseen →
      (∃ o ∈ (⟨t, inh⟩ : Override) :: rest, o.type.name = x) → ∃ o ∈ rest, o.type.name = x := by
    rintro x hx ⟨o, ho, rfl⟩
    rcases List.mem_cons.mp ho with rfl | ho
    · exact absurd hx ht
    · exact ⟨o, ho, rfl⟩
  exact ⟨h.right, fun o ho => h.waiting o (List.mem_cons_of_mem _ ho), h.entered,
    fun d hd he hu => hstay hu (h.pendingTop d hd he hu),
    fun d b hb he hbu hu => hstay hu (h.pendingBelow d b hb he hbu hu)⟩

/-- When nothing is pending, every class below `top` is entered. -/
theorem complete (hp : p.SingleInheritance) (h : Descending p top m unseen found []) {d : TypeDef}
    (hd : Below p top d) : ∃ o ∈ found, o.type.name = d.name.name := by
  refine h.entered d hd fun hu => ?_
  obtain ⟨hclass, hbelow⟩ := hd
  induction hbelow using TransGen.head_induction_on with
  | single he =>
    obtain ⟨o, ho, -⟩ := h.pendingTop _ ⟨hclass, .single he⟩ he hu
    cases ho
  | head he hb ih =>
    have hbc := hp.classBase _ _ he hclass
    obtain ⟨o, ho, -⟩ := h.pendingBelow _ _ ⟨hbc, hb⟩ he (fun hm => ih hm hbc) hu
    cases ho

end Descending

/-- The invariant holds at the end of the walk. -/
theorem descending_overridesBelow (hp : p.SingleInheritance) (htop : top ∈ p.allTypes)
    (hclass : top.isInterface = false) (hm : m.type.name = top.name.name) {unseen : List String}
    {found pending : List Override} (h : Descending p top m unseen found pending) :
    ∃ unseen', Descending p top m unseen' ((ofProgram p).overridesBelow unseen found pending) [] := by
  fun_induction (ofProgram p).overridesBelow unseen found pending with
  | case1 unseen found => exact ⟨unseen, h⟩
  | case2 unseen found t inh rest hu m' seeded ih =>
    obtain ⟨d, hd, hdt, hinh⟩ := h.waiting _ List.mem_cons_self
    have hdecl : (ofProgram p).declaredOnInterface m' = false :=
      declaredOnInterface_looksUp hp htop hclass hm hd (looksUp_runBy hp hd hdt hinh)
    have hseeded : seeded = [] := by
      simp only [seeded, seeds, hdecl]
      rfl
    have hnext : (ofProgram p).next t m' = (ofProgram p).below ⟨t, m'⟩ := by
      simp only [next, hdecl]
      rfl
    rw [hseeded, hnext] at ih ⊢
    exact ih (h.enter hp)
  | case3 unseen found t inh rest hu ih => exact ih (h.skip hu)

/-! ## Resolution -/

/-- The method that a type runs: its own entry, and without one the method itself. -/
def methodFor (found : List Override) (m : MethodRef) (t : TypeRef) : MethodRef :=
  ((found.find? (·.type == t)).map (·.method)).getD m

/-- A type with an entry runs the method of an entry of its name. -/
theorem exists_methodFor_eq {found : List Override} {t : TypeRef}
    (h : ∃ o ∈ found, o.type.name = t.name) (m : MethodRef) :
    ∃ o ∈ found, o.type.name = t.name ∧ methodFor found m t = o.method := by
  obtain ⟨o, ho, ht⟩ := h
  have hsome : (found.find? (·.type == t)).isSome :=
    List.find?_isSome.mpr ⟨o, ho, TypeRef.beq_iff.mpr ht⟩
  obtain ⟨o', ho'⟩ := Option.isSome_iff_exists.mp hsome
  have hname := List.find?_some ho'
  refine ⟨o', List.mem_of_find?_eq_some ho', TypeRef.beq_iff.mp hname, ?_⟩
  rw [methodFor, ho']
  rfl

/-- The walk starts right below the class of the method. -/
theorem descending_start (hp : p.SingleInheritance) (htop : top ∈ p.allTypes)
    (hclass : top.isInterface = false) (hm : m.type.name = top.name.name) :
    Descending p top m (ofProgram p).index.subtypeNames [] ((ofProgram p).below ⟨m.type, m⟩) := by
  -- every class below another is in the index
  have hunseen : ∀ d b, p.Extends d b → d.name.name ∈ (ofProgram p).index.subtypeNames := by
    rintro d b ⟨hd, -, s, hs, -⟩
    have hx : d.name.name ∈ ((ofProgram p).index.subtypes s).map (·.name) :=
      (SubtypeIndex.mem_subtypes_build hp.qualified).mpr
        ⟨d, hd, rfl, s, List.mem_append_left _ hs, rfl⟩
    obtain ⟨u, hu, hux⟩ := List.mem_map.mp hx
    unfold SubtypeIndex.subtypes at hu
    split at hu
    · next e he =>
      refine List.mem_flatMap.mpr ⟨e, List.mem_of_find?_eq_some he, ?_⟩
      exact hux ▸ List.mem_map_of_mem hu
    · cases hu
  refine ⟨by simp, ?_, ?_, ?_, ?_⟩
  · intro o ho
    obtain ⟨d, he, hd, hx⟩ := (mem_below hp htop hclass hm).mp ⟨o, ho, rfl⟩
    refine ⟨d, ⟨hd, .single he⟩, hx, .inl ⟨he, ?_⟩⟩
    obtain ⟨u, -, rfl⟩ := List.mem_map.mp ho
    rfl
  · intro d hd hu
    obtain ⟨b, he, -⟩ := TransGen.head'_iff.mp hd.below
    exact absurd (hunseen d b he) hu
  · intro d hd he _
    exact (mem_below hp htop hclass hm).mpr ⟨d, he, hd.isClass, rfl⟩
  · intro d b hb he hbu _
    obtain ⟨b', he', -⟩ := TransGen.head'_iff.mp hb.below
    exact absurd (hunseen b b' he') hbu

/-- A method found below that equals the method looked for is that method. -/
theorem eq_of_looksUp_of_beq (hp : p.SingleInheritance) (htop : top ∈ p.allTypes)
    (hm : m.type.name = top.name.name) {d : TypeDef} {r : MethodRef} (hd : Below p top d)
    (h : LooksUp p top m d r) (hr : (r == m) = true) : r = m := by
  rcases h.type_below hp hd.isClass hd.below with rfl | ⟨b, -, hbelow, hb⟩
  · rfl
  · have htype := MethodRef.type_name_of_beq hr
    rw [hb, hm] at htype
    have hbt := eq_of_name_eq hp.names (Source.Program.mem_of_transGen hbelow) htop htype
    exact absurd hbt (hp.ne_top hbelow)

/-- At the end of the walk the entry of each class below holds what looking up from it finds. -/
theorem Descending.exists_entry (hp : p.SingleInheritance) {unseen : List String}
    {found : List Override} (h : Descending p top m unseen found []) {d : TypeDef}
    (hd : Below p top d) :
    ∃ o ∈ found, methodFor found m d.name = o.method ∧ LooksUp p top m d o.method := by
  obtain ⟨o, ho, hname, hvalue⟩ := exists_methodFor_eq (h.complete hp hd) m
  obtain ⟨d', hd', hx, hl⟩ := h.right o ho
  obtain rfl := eq_of_name_eq hp.names hd'.mem hd.mem (hx.trans hname)
  exact ⟨o, ho, hvalue, hl⟩

/-- Nothing is lost when the entries are dropped because each of them is the method itself. -/
theorem Descending.looksUp_methodFor (hp : p.SingleInheritance) (htop : top ∈ p.allTypes)
    (hm : m.type.name = top.name.name) {unseen : List String} {found : List Override}
    (h : Descending p top m unseen found []) {d : TypeDef} (hd : Below p top d) :
    LooksUp p top m d
      (methodFor (if found.all (·.method == m) then [] else found) m d.name) := by
  obtain ⟨o, ho, hvalue, hl⟩ := h.exists_entry hp hd
  split
  · next hall =>
    have hr := List.all_eq_true.mp hall o ho
    rw [eq_of_looksUp_of_beq hp htop hm hd hl hr] at hl
    exact hl
  · rw [hvalue]
    exact hl

/-- For a method on a class of a program with single inheritance, the method that a class strictly
below runs is the one that looking up from that class finds. In particular, where the answer is
empty, every class below runs the method itself. -/
theorem resolve_looksUp (hp : p.SingleInheritance) (htop : top ∈ p.allTypes)
    (hclass : top.isInterface = false) (hm : m.type.name = top.name.name) :
    ∃ found, (ofProgram p).resolve m = .ok found ∧
      (∀ d, d.isInterface = false → TransGen p.Extends d top →
        ∀ r, LooksUp p top m d r ↔ methodFor found m d.name = r) ∧
      (found = [] → ∀ d, d.isInterface = false → TransGen p.Extends d top →
        LooksUp p top m d m) := by
  have hdecl := declaredOnInterface_eq_false hp htop hclass hm
  obtain ⟨unseen, hend⟩ := descending_overridesBelow hp htop hclass hm
    (descending_start hp htop hclass hm)
  generalize hfound : (ofProgram p).overridesBelow (ofProgram p).index.subtypeNames []
    ((ofProgram p).below ⟨m.type, m⟩) = found at hend
  have hresolve : (ofProgram p).resolve m =
      .ok (if found.all (·.method == m) then [] else found) := by
    rw [resolve, get?_table hp htop hm, Option.isSome_some, if_pos rfl, overrides]
    simp only [seeds, next, hdecl, Bool.false_eq_true, if_false]
    rw [← hfound]
    rfl
  have hlooks : ∀ d, d.isInterface = false → TransGen p.Extends d top →
      LooksUp p top m d
        (methodFor (if found.all (·.method == m) then [] else found) m d.name) :=
    fun d hd hbelow => hend.looksUp_methodFor hp htop hm ⟨hd, hbelow⟩
  refine ⟨_, hresolve, fun d hd hbelow r => ⟨fun h => ?_, ?_⟩, fun hempty d hd hbelow => ?_⟩
  · exact LooksUp.unique hp hd (hlooks d hd hbelow) h
  · rintro rfl
    exact hlooks d hd hbelow
  · have h := hlooks d hd hbelow
    rw [hempty] at h
    exact h

/-- A hierarchy in which every type has a greater rank than its supertypes. -/
theorem acyclic_of_rank (rank : TypeDef → Nat)
    (h : ∀ d b, p.Derives d b → rank b < rank d) (d : TypeDef) : ¬ TransGen p.Derives d d := by
  have hlt : ∀ {b}, TransGen p.Derives d b → rank b < rank d := by
    intro b hb
    induction hb with
    | single hb => exact h _ _ hb
    | tail _ hb ih => exact Nat.lt_trans (h _ _ hb) ih
  exact fun hd => Nat.lt_irrefl _ (hlt hd)

/-- A class with a virtual method. -/
def shape : TypeDef :=
  ⟨⟨"Shape", none⟩, .classType, [], [], [], [{ name := "draw", isVirtual := true }], []⟩

/-- A class that overrides the method. -/
def round : TypeDef :=
  ⟨⟨"Round", none⟩, .classType, [⟨"Shape", none⟩], [], [], [{ name := "draw", isVirtual := true }],
    []⟩

/-- A class that inherits the override. -/
def disk : TypeDef := ⟨⟨"Disk", none⟩, .classType, [⟨"Round", none⟩], [], [], [], []⟩

def shapes : Program := { types := [shape, round, disk] }

theorem shapes_derives {d b : TypeDef} (h : shapes.Derives d b) :
    (d = round ∧ b = shape) ∨ (d = disk ∧ b = round) := by
  obtain ⟨hd, hb, t, ht, hn⟩ := h
  have hd' : d ∈ [shape, round, disk] := hd
  have hb' : b ∈ [shape, round, disk] := hb
  simp only [List.mem_cons, List.not_mem_nil, or_false] at hd' hb'
  rcases hd' with rfl | rfl | rfl <;> rcases hb' with rfl | rfl | rfl <;>
    simp_all [shape, round, disk, TypeDef.supertypes]

theorem shapes_singleInheritance : shapes.SingleInheritance where
  names := by decide
  qualified := by decide
  acyclic := acyclic_of_rank (fun d => if d.name.name = "Shape" then 0 else
    if d.name.name = "Round" then 1 else 2) (by
      intro d b h
      rcases shapes_derives h with ⟨rfl, rfl⟩ | ⟨rfl, rfl⟩ <;> decide)
  oneBase := by
    intro d hd _
    have hd' : d ∈ [shape, round, disk] := hd
    simp only [List.mem_cons, List.not_mem_nil, or_false] at hd'
    rcases hd' with rfl | rfl | rfl <;> decide
  classBase := by
    intro d b h _
    rcases shapes_derives h.derives with ⟨rfl, rfl⟩ | ⟨rfl, rfl⟩ <;> rfl
  onlyInterfaces := by
    intro d hd b hb h
    obtain ⟨t, ht, -⟩ := h
    have hd' : d ∈ [shape, round, disk] := hd
    simp only [List.mem_cons, List.not_mem_nil, or_false] at hd'
    rcases hd' with rfl | rfl | rfl <;> cases ht
  interfaceBase := by
    intro d b h hd
    rcases shapes_derives h with ⟨rfl, rfl⟩ | ⟨rfl, rfl⟩ <;> cases hd

/-- In the program above, the lowest class runs the override of its base class. -/
theorem shapes_resolve_looksUp :
    ∃ found, (ofProgram shapes).resolve ⟨⟨"Shape", none⟩, "draw", []⟩ = .ok found ∧
      methodFor found ⟨⟨"Shape", none⟩, "draw", []⟩ disk.name = ⟨⟨"Round", none⟩, "draw", []⟩ := by
  have htop : shape ∈ shapes.allTypes := List.mem_cons_self
  have hround : round ∈ shapes.allTypes := List.mem_cons_of_mem _ List.mem_cons_self
  have hdisk : disk ∈ shapes.allTypes :=
    List.mem_cons_of_mem _ (List.mem_cons_of_mem _ List.mem_cons_self)
  have he : shapes.Extends disk round := ⟨hdisk, hround, _, List.mem_cons_self, rfl⟩
  have he' : shapes.Extends round shape := ⟨hround, htop, _, List.mem_cons_self, rfl⟩
  obtain ⟨found, hr, hl, -⟩ := resolve_looksUp (m := ⟨⟨"Shape", none⟩, "draw", []⟩)
    shapes_singleInheritance htop rfl rfl
  refine ⟨found, hr, (hl disk rfl (.head he (.single he')) _).mp ?_⟩
  exact .inherited rfl he (shapes_singleInheritance.ne_top (.single he')) (.own rfl)

end Hierarchy

end Unwind
