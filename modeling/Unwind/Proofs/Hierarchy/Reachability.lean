import Mathlib
import Unwind.Proofs.Hierarchy.Changes
import Unwind.Proofs.Hierarchy.Keys

/-!
# Answers on any hierarchy

Nothing is assumed of a hierarchy here: types may derive from one another in circles, be declared
twice, or list supertypes that nobody defines, and interfaces may derive from classes.

The walks need no other guard than the answer itself. A walk that passes over the types it has
entered already, and keeps no list of those it has not, comes to an end (`Collects`, `Descends`),
and its result is the answer (`descends_overridesBelow`).

Whatever is found is grounded in the subtype index (`Grounded`): a type in the answer is reached
from the declaring type of the method, and what it runs is the method itself or is declared by a
type on the way. One step of the walk keeps this (`Grounded.runBy`, `Grounded.of_below`,
`grounded_implementations`), so a whole answer has it (`resolve_grounded`).
-/

namespace Unwind.Hierarchy

open Source
open Relation (ReflTransGen TransGen)

variable {h : Hierarchy}

/-! ## Edges of the index -/

/-- The second name is listed right below the first one in the subtype index. -/
def Edge (h : Hierarchy) (a b : String) : Prop :=
  ∃ base sub : TypeRef, sub ∈ h.index.subtypes base ∧ base.name = a ∧ sub.name = b

theorem edge_of_below {o o' : Override} (ho : o' ∈ h.below o) : h.Edge o.type.name o'.type.name := by
  obtain ⟨t, ht, rfl⟩ := List.mem_map.mp ho
  exact ⟨o.type, t, ht, rfl, rfl⟩

/-- A definition found below a type is the one the table has for its own name. -/
theorem edge_of_subtypeDefs {t : TypeRef} {d : TypeDef} (hd : d ∈ h.subtypeDefs t) :
    h.Edge t.name d.name.name ∧ h.table.get? d.name = some d := by
  obtain ⟨s, hs, hget⟩ := List.mem_filterMap.mp hd
  have hname := (TypeTable.get?_eq_some hget).2
  exact ⟨⟨t, s, hs, rfl, hname.symm⟩, (TypeTable.get?_congr hname).trans hget⟩

theorem mem_subtypeNames_of_below {o o' : Override} (ho : o' ∈ h.below o) :
    o'.type.name ∈ h.index.subtypeNames := by
  obtain ⟨t, ht, rfl⟩ := List.mem_map.mp ho
  unfold SubtypeIndex.subtypes at ht
  split at ht
  · next e he =>
    exact List.mem_flatMap.mpr ⟨e, List.mem_of_find?_eq_some he, List.mem_map_of_mem ht⟩
  · cases ht

/-- The walk goes on to types of the index only. -/
theorem mem_subtypeNames_of_next {t : TypeRef} {m : MethodRef} {o : Override}
    (ho : o ∈ h.next t m) : o.type.name ∈ h.index.subtypeNames := by
  unfold next at ho
  split at ho
  · obtain ⟨o', -, ho⟩ := List.mem_flatMap.mp ho
    exact mem_subtypeNames_of_below ho
  · exact mem_subtypeNames_of_below ho

/-! ## The walks without their lists of unseen names -/

/-- The search for implementations of `m`, where a type is passed over once it has been looked
at. -/
inductive Collects (h : Hierarchy) (m : MethodRef) :
    List String → List Override → List TypeDef → List Override → Prop
  | done (seen : List String) (found : List Override) : Collects h m seen found [] found
  | pass {seen : List String} {found os : List Override} {d : TypeDef} {rest : List TypeDef} :
      d.name.name ∈ seen → Collects h m seen found rest os → Collects h m seen found (d :: rest) os
  | inner {seen : List String} {found os : List Override} {d : TypeDef} {rest : List TypeDef} :
      d.name.name ∉ seen → d.isInterface = true →
      Collects h m (d.name.name :: seen) found (h.subtypeDefs d.name ++ rest) os →
      Collects h m seen found (d :: rest) os
  | leaf {seen : List String} {found os : List Override} {d : TypeDef} {rest : List TypeDef} :
      d.name.name ∉ seen → d.isInterface = false →
      Collects h m (d.name.name :: seen)
        (found ++ (implementationIn? d m).toList.map fun r => ⟨d.name, r⟩) rest os →
      Collects h m seen found (d :: rest) os

/-- The walk through the types below, where a type is passed over once it has an answer. -/
inductive Descends (h : Hierarchy) : List Override → List Override → List Override → Prop
  | done (found : List Override) : Descends h found [] found
  | pass {found os rest : List Override} {t : TypeRef} {inherited : MethodRef} :
      t.name ∈ typeNames found → Descends h found rest os →
      Descends h found (⟨t, inherited⟩ :: rest) os
  | enter {found os rest : List Override} {t : TypeRef} {inherited : MethodRef} :
      t.name ∉ typeNames found →
      Descends h
        ((h.seeds t (h.runBy t inherited)).foldl addNew (found ++ [⟨t, h.runBy t inherited⟩]))
        (h.next t (h.runBy t inherited) ++ rest) os →
      Descends h found (⟨t, inherited⟩ :: rest) os

/-- The search has one outcome. -/
theorem Collects.unique {m : MethodRef} {seen : List String} {found os os' : List Override}
    {pending : List TypeDef} (hos : h.Collects m seen found pending os)
    (hos' : h.Collects m seen found pending os') : os = os' := by
  induction hos with
  | done => cases hos'; rfl
  | pass hd _ ih =>
    cases hos' with
    | pass _ hos' => exact ih hos'
    | inner hd' | leaf hd' => exact absurd hd hd'
  | inner hd hi _ ih =>
    cases hos' with
    | pass hd' => exact absurd hd' hd
    | inner _ _ hos' => exact ih hos'
    | leaf _ hi' => exact absurd (hi.symm.trans hi') (by decide)
  | leaf hd hi _ ih =>
    cases hos' with
    | pass hd' => exact absurd hd' hd
    | inner _ hi' => exact absurd (hi'.symm.trans hi) (by decide)
    | leaf _ _ hos' => exact ih hos'

/-- The walk has one outcome. -/
theorem Descends.unique {found pending os os' : List Override} (hos : h.Descends found pending os)
    (hos' : h.Descends found pending os') : os = os' := by
  induction hos with
  | done => cases hos'; rfl
  | pass ht _ ih =>
    cases hos' with
    | pass _ hos' => exact ih hos'
    | enter ht' => exact absurd ht ht'
  | enter ht _ ih =>
    cases hos' with
    | pass ht' => exact absurd ht' ht
    | enter _ hos' => exact ih hos'

/-- The list of unseen names says the same as the list of seen ones, among the names in `all`. -/
def Complements (all seen unseen : List String) : Prop := ∀ x, x ∈ unseen ↔ x ∈ all ∧ x ∉ seen

theorem Complements.mem_iff {all seen unseen : List String} (hc : Complements all seen unseen)
    {x : String} (hx : x ∈ all) : x ∈ unseen ↔ x ∉ seen := by
  simp [hc x, hx]

theorem Complements.strike {all seen unseen : List String} (hc : Complements all seen unseen)
    (x : String) : Complements all (x :: seen) (strike unseen x) := by
  intro y
  rw [mem_strike, hc y, List.mem_cons, not_or]
  tauto

theorem collects_implementationsBelow {m : MethodRef} {unseen : List String}
    {found : List Override} {pending : List TypeDef}
    (hpending : ∀ d ∈ pending, h.table.get? d.name = some d) :
    ∀ seen, Complements h.table.names seen unseen →
      h.Collects m seen found pending (h.implementationsBelow m unseen found pending) := by
  fun_induction implementationsBelow h m unseen found pending with
  | case1 => exact fun _ _ => .done _ _
  | case2 unseen found d rest hd unseen' hi ih =>
    intro seen hc
    have hname : d.name.name ∈ h.table.names := ((hc _).mp hd).1
    have hrest := (List.forall_mem_cons.mp hpending).2
    have hinner : ∀ d' ∈ h.subtypeDefs d.name ++ rest, h.table.get? d'.name = some d' :=
      List.forall_mem_append.mpr ⟨fun d' hd' => (edge_of_subtypeDefs hd').2, hrest⟩
    exact .inner ((hc.mem_iff hname).mp hd) hi (ih hinner _ (hc.strike _))
  | case3 unseen found d rest hd unseen' hi here ih =>
    intro seen hc
    have hname : d.name.name ∈ h.table.names := ((hc _).mp hd).1
    have hrest := (List.forall_mem_cons.mp hpending).2
    exact .leaf ((hc.mem_iff hname).mp hd) (Bool.eq_false_iff.mpr hi) (ih hrest _ (hc.strike _))
  | case4 unseen found d rest hd ih =>
    intro seen hc
    obtain ⟨hget, hrest⟩ := List.forall_mem_cons.mp hpending
    have hname : d.name.name ∈ h.table.names :=
      List.mem_map_of_mem (TypeTable.get?_eq_some hget).1
    have hseen : d.name.name ∈ seen := by
      by_contra hnot
      exact hd ((hc.mem_iff hname).mpr hnot)
    exact .pass hseen (ih hrest seen hc)

/-- The implementations are what the search finds that passes over what it has looked at. -/
theorem collects_implementations (t : TypeRef) (m : MethodRef) :
    h.Collects m [] [] (h.table.get? t).toList (h.implementations t m) := by
  refine collects_implementationsBelow (fun d hd => ?_) [] fun x => by simp
  have hget := Option.mem_toList.mp hd
  exact (TypeTable.get?_congr (TypeTable.get?_eq_some hget).2).trans hget

theorem mem_typeNames_foldl_addNew_iff {os found : List Override} {x : String} :
    x ∈ typeNames (os.foldl addNew found) ↔ x ∈ typeNames found ∨ x ∈ typeNames os := by
  refine ⟨mem_typeNames_foldl_addNew, fun hx => ?_⟩
  have hany : ∃ o : Override, o.type.name = x ∧
      ((∃ y ∈ found, y.type.name = o.type.name) ∨ o ∈ os) := by
    rcases hx with hx | hx
    · obtain ⟨o, ho, rfl⟩ := List.mem_map.mp hx
      exact ⟨o, rfl, .inl ⟨o, ho, rfl⟩⟩
    · obtain ⟨o, ho, rfl⟩ := List.mem_map.mp hx
      exact ⟨o, rfl, .inr ho⟩
  obtain ⟨o, rfl, ho⟩ := hany
  obtain ⟨y, hy, hyo⟩ := exists_mem_foldl_addNew ho
  exact List.mem_map.mpr ⟨y, hy, hyo⟩

/-- Adding implementations to the answer and striking their types off keeps the lists in step. -/
theorem Complements.addAll {all unseen : List String} {found : List Override}
    (hc : Complements all (typeNames found) unseen) (os : List Override) :
    Complements all (typeNames (os.foldl addNew found)) (strikeAll unseen (typeNames os)) := by
  intro x
  rw [mem_strikeAll, hc x, mem_typeNames_foldl_addNew_iff, not_or, and_assoc]

theorem Complements.enter {all unseen : List String} {found : List Override}
    (hc : Complements all (typeNames found) unseen) (o : Override) :
    Complements all (typeNames (found ++ [o])) (Unwind.strike unseen o.type.name) := by
  intro x
  have hnames : typeNames (found ++ [o]) = typeNames found ++ [o.type.name] := List.map_append
  rw [hnames, mem_strike, hc x, List.mem_append, List.mem_singleton]
  tauto

theorem descends_overridesBelow {unseen : List String} {found pending : List Override}
    (hc : Complements h.index.subtypeNames (typeNames found) unseen)
    (hpending : ∀ o ∈ pending, o.type.name ∈ h.index.subtypeNames) :
    h.Descends found pending (h.overridesBelow unseen found pending) := by
  fun_induction overridesBelow h unseen found pending with
  | case1 => exact .done _
  | case2 unseen found t inherited rest ht m seeded ih =>
    obtain ⟨hname, hrest⟩ := List.forall_mem_cons.mp hpending
    refine .enter ((hc.mem_iff hname).mp ht) (ih ((hc.enter ⟨t, m⟩).addAll _) ?_)
    exact List.forall_mem_append.mpr ⟨fun o ho => mem_subtypeNames_of_next ho, hrest⟩
  | case3 unseen found t inherited rest ht ih =>
    obtain ⟨hname, hrest⟩ := List.forall_mem_cons.mp hpending
    have hfound : t.name ∈ typeNames found := by
      by_contra hnot
      exact ht ((hc.mem_iff hname).mpr hnot)
    exact .pass hfound (ih hc hrest)

/-- The walk from the declaring type of `m` comes to an end with the types `found`, and `os` is the
answer that is given for them. -/
def Answers (h : Hierarchy) (m : MethodRef) (os : List Override) : Prop :=
  ∃ found, h.Descends ((h.seeds m.type m).foldl addNew []) (h.next m.type m) found ∧
    os = if found.all (·.method == m) then [] else found

theorem answers_overrides (m : MethodRef) : h.Answers m (h.overrides m) := by
  have hstart : Complements h.index.subtypeNames (typeNames []) h.index.subtypeNames := by
    intro x
    simp [typeNames]
  exact ⟨_, descends_overridesBelow (hstart.addAll _) fun o ho => mem_subtypeNames_of_next ho, rfl⟩

theorem Answers.unique {m : MethodRef} {os os' : List Override} (hos : h.Answers m os)
    (hos' : h.Answers m os') : os = os' := by
  obtain ⟨found, hfound, rfl⟩ := hos
  obtain ⟨found', hfound', rfl⟩ := hos'
  rw [hfound.unique hfound']

/-! ## Grounded answers -/

/-- A type of the table declares the method `r`. -/
def DeclaredBy (h : Hierarchy) (d : TypeDef) (r : MethodRef) : Prop :=
  d ∈ h.table.defs ∧ ∃ x ∈ d.methods, r = x.reference d.name

/-- The type is reached from the declaring type of `m`, and it runs `m` or what a type on the way
declares. -/
structure Grounded (h : Hierarchy) (m : MethodRef) (o : Override) : Prop where
  reached : TransGen h.Edge m.type.name o.type.name
  declared : o.method = m ∨ ∃ d, h.DeclaredBy d o.method ∧
    TransGen h.Edge m.type.name d.name.name ∧ ReflTransGen h.Edge d.name.name o.type.name

theorem overrideIn?_reference {d : TypeDef} {m r : MethodRef} (hr : overrideIn? d m = some r) :
    ∃ x ∈ d.methods, r = x.reference d.name := by
  obtain ⟨x, hx, rfl⟩ := Option.map_eq_some_iff.mp hr
  exact ⟨x, (List.mem_filter.mp (List.mem_filter.mp (List.mem_of_getLast? hx)).1).1, rfl⟩

theorem implementationIn?_reference {d : TypeDef} {m r : MethodRef}
    (hr : implementationIn? d m = some r) : ∃ x ∈ d.methods, r = x.reference d.name := by
  obtain ⟨x, hx, rfl⟩ := Option.map_eq_some_iff.mp hr
  refine ⟨x, ?_, rfl⟩
  rcases Option.or_eq_some_iff.mp hx with hx | ⟨-, hx⟩
  · exact (List.mem_filter.mp (List.mem_of_getLast? hx)).1
  · exact (List.mem_filter.mp (List.mem_of_getLast? hx)).1

variable {m : MethodRef}

/-- What a type runs is grounded when what it inherits is. -/
theorem Grounded.runBy {t : TypeRef} {inherited : MethodRef} (ho : h.Grounded m ⟨t, inherited⟩) :
    h.Grounded m ⟨t, h.runBy t inherited⟩ := by
  unfold Hierarchy.runBy
  cases hr : (h.table.get? t).bind (overrideIn? · inherited) with
  | none => exact ho
  | some r =>
    obtain ⟨d, hd, hr⟩ := Option.bind_eq_some_iff.mp hr
    obtain ⟨hmem, hname⟩ := TypeTable.get?_eq_some hd
    refine ⟨ho.reached, .inr ⟨d, ⟨hmem, overrideIn?_reference hr⟩, ?_, ?_⟩⟩
    · exact hname ▸ ho.reached
    · exact hname ▸ .refl

/-- What is handed down an edge stays grounded. -/
theorem Grounded.of_below {o o' : Override} (ho : h.Grounded m o) (ho' : o' ∈ h.below o) :
    h.Grounded m o' := by
  have hedge := edge_of_below ho'
  refine ⟨ho.reached.tail hedge, ?_⟩
  rw [method_of_mem_below ho']
  rcases ho.declared with hm | ⟨d, hd, hreached, hbelow⟩
  · exact .inl hm
  · exact .inr ⟨d, hd, hreached, hbelow.tail hedge⟩

/-- A class with an implementation of `r` of its own, as the search through the interfaces finds it
below the type named `t`. -/
def Implementor (h : Hierarchy) (t : String) (r : MethodRef) (o : Override) : Prop :=
  ∃ d, h.table.get? d.name = some d ∧ d.isInterface = false ∧ o.type = d.name ∧
    implementationIn? d r = some o.method ∧ ReflTransGen h.Edge t d.name.name

theorem implementor_implementationsBelow {t : String} {r : MethodRef} {unseen : List String}
    {found : List Override} {pending : List TypeDef} (hfound : ∀ o ∈ found, h.Implementor t r o)
    (hpending : ∀ d ∈ pending,
      h.table.get? d.name = some d ∧ ReflTransGen h.Edge t d.name.name) :
    ∀ o ∈ h.implementationsBelow r unseen found pending, h.Implementor t r o := by
  fun_induction implementationsBelow h r unseen found pending with
  | case1 => exact hfound
  | case2 unseen found d rest hd unseen' hi ih =>
    obtain ⟨hhead, hrest⟩ := List.forall_mem_cons.mp hpending
    refine ih hfound (List.forall_mem_append.mpr ⟨fun d' hd' => ?_, hrest⟩)
    obtain ⟨hedge, hget⟩ := edge_of_subtypeDefs hd'
    exact ⟨hget, hhead.2.tail hedge⟩
  | case3 unseen found d rest hd unseen' hi here ih =>
    obtain ⟨hhead, hrest⟩ := List.forall_mem_cons.mp hpending
    refine ih (List.forall_mem_append.mpr ⟨hfound, fun o ho => ?_⟩) hrest
    obtain ⟨r', hr', rfl⟩ := List.mem_map.mp ho
    exact ⟨d, hhead.1, Bool.eq_false_iff.mpr hi, rfl, Option.mem_toList.mp hr', hhead.2⟩
  | case4 unseen found d rest hd ih => exact ih hfound (List.forall_mem_cons.mp hpending).2

theorem implementor_implementations {t : TypeRef} {r : MethodRef} {o : Override}
    (ho : o ∈ h.implementations t r) : h.Implementor t.name r o := by
  refine implementor_implementationsBelow (List.forall_mem_nil _) (fun d hd => ?_) o ho
  have hget := Option.mem_toList.mp hd
  have hname := (TypeTable.get?_eq_some hget).2
  exact ⟨(TypeTable.get?_congr hname).trans hget, hname ▸ .refl⟩

theorem Implementor.grounded {t : String} {r : MethodRef} {o : Override} (ho : h.Implementor t r o)
    (hreached : TransGen h.Edge m.type.name o.type.name) : h.Grounded m o := by
  obtain ⟨d, hget, -, htype, himpl, -⟩ := ho
  have hdecl := implementationIn?_reference himpl
  refine ⟨hreached, .inr ⟨d, ⟨(TypeTable.get?_eq_some hget).1, hdecl⟩, ?_, ?_⟩⟩
  · exact htype ▸ hreached
  · rw [htype]

/-- The implementations found below a type that is reached are grounded. -/
theorem grounded_implementations {t : TypeRef} {r : MethodRef}
    (ht : TransGen h.Edge m.type.name t.name) : ∀ o ∈ h.implementations t r, h.Grounded m o := by
  intro o ho
  have himpl := implementor_implementations ho
  refine himpl.grounded ?_
  obtain ⟨d, -, -, htype, -, hreach⟩ := himpl
  rw [htype]
  exact ht.trans_left hreach

/-- An interface is not among the implementations of its own method, so that all of these are
strictly below. -/
theorem grounded_implementations_self (hm : h.declaredOnInterface m = true) :
    ∀ o ∈ h.implementations m.type m, h.Grounded m o := by
  intro o ho
  have himpl := implementor_implementations ho
  refine himpl.grounded ?_
  obtain ⟨d, hget, hclass, htype, -, hreach⟩ := himpl
  rw [htype]
  rcases Relation.reflTransGen_iff_eq_or_transGen.mp hreach with heq | hreach
  · unfold declaredOnInterface at hm
    rw [← TypeTable.get?_congr heq, hget] at hm
    exact absurd (hm.symm.trans hclass) (by decide)
  · exact hreach

theorem grounded_seeds {t : TypeRef} {r : MethodRef} (ht : TransGen h.Edge m.type.name t.name) :
    ∀ o ∈ h.seeds t r, h.Grounded m o := by
  unfold seeds
  split
  · exact grounded_implementations ht
  · exact List.forall_mem_nil _

theorem Grounded.next {t : TypeRef} {r : MethodRef} (ho : h.Grounded m ⟨t, r⟩) :
    ∀ o ∈ h.next t r, h.Grounded m o := by
  intro o hmem
  unfold Hierarchy.next at hmem
  split at hmem
  · obtain ⟨o', ho', hmem⟩ := List.mem_flatMap.mp hmem
    exact (grounded_implementations ho.reached o' ho').of_below hmem
  · exact ho.of_below hmem

theorem grounded_foldl_addNew {found os : List Override} (hfound : ∀ o ∈ found, h.Grounded m o)
    (hos : ∀ o ∈ os, h.Grounded m o) : ∀ o ∈ os.foldl addNew found, h.Grounded m o :=
  fun o ho => (mem_of_foldl_addNew ho).elim (hfound o) (hos o)

theorem grounded_overridesBelow {unseen : List String} {found pending : List Override}
    (hfound : ∀ o ∈ found, h.Grounded m o) (hpending : ∀ o ∈ pending, h.Grounded m o) :
    ∀ o ∈ h.overridesBelow unseen found pending, h.Grounded m o := by
  fun_induction overridesBelow h unseen found pending with
  | case1 => exact hfound
  | case2 unseen found t inherited rest ht r seeded ih =>
    obtain ⟨hhead, hrest⟩ := List.forall_mem_cons.mp hpending
    have hruns : h.Grounded m ⟨t, r⟩ := hhead.runBy
    refine ih (grounded_foldl_addNew ?_ (grounded_seeds hruns.reached)) ?_
    · exact List.forall_mem_append.mpr ⟨hfound, List.forall_mem_singleton.mpr hruns⟩
    · exact List.forall_mem_append.mpr ⟨hruns.next, hrest⟩
  | case3 unseen found t inherited rest ht ih =>
    exact ih hfound (List.forall_mem_cons.mp hpending).2

/-- The seeds of the walk: they are there for an interface method only. -/
theorem grounded_start_seeds (m : MethodRef) : ∀ o ∈ h.seeds m.type m, h.Grounded m o := by
  unfold seeds
  split
  · next hm => exact grounded_implementations_self hm
  · exact List.forall_mem_nil _

theorem grounded_start_next (m : MethodRef) : ∀ o ∈ h.next m.type m, h.Grounded m o := by
  intro o ho
  unfold next at ho
  split at ho
  · next hm =>
    obtain ⟨o', ho', ho⟩ := List.mem_flatMap.mp ho
    exact (grounded_implementations_self hm o' ho').of_below ho
  · exact ⟨.single (edge_of_below ho), .inl (method_of_mem_below ho)⟩

theorem grounded_overrides (m : MethodRef) : ∀ o ∈ h.overrides m, h.Grounded m o := by
  unfold overrides
  dsimp only
  split
  · exact List.forall_mem_nil _
  · exact grounded_overridesBelow (grounded_foldl_addNew (List.forall_mem_nil _) (grounded_start_seeds m))
      (grounded_start_next m)

/-! ## Resolution -/

/-- An answer without an entry for another method is given as no answer at all. -/
theorem overrides_eq_nil_or (m : MethodRef) :
    h.overrides m = [] ∨ ∃ o ∈ h.overrides m, (o.method == m) = false := by
  unfold overrides
  dsimp only
  split
  · exact .inl rfl
  · next hall =>
    rw [List.all_eq_true, not_forall] at hall
    obtain ⟨o, hall⟩ := hall
    rw [Classical.not_imp] at hall
    exact .inr ⟨o, hall.1, Bool.eq_false_iff.mpr hall.2⟩

theorem resolve_eq_error_iff {f : Fault} :
    h.resolve m = .error f ↔
      h.table.get? m.type = none ∧ f = .unknownDeclaringType m.type.name m.text := by
  unfold resolve
  cases hget : h.table.get? m.type with
  | none => simp [eq_comm]
  | some d => simp

theorem resolve_eq_ok_iff {os : List Override} :
    h.resolve m = .ok os ↔ (h.table.get? m.type).isSome = true ∧ os = h.overrides m := by
  unfold resolve
  cases hget : h.table.get? m.type with
  | none => simp
  | some d => simp [eq_comm]

/-- Resolution in any program. It is refused exactly for a declaring type without a definition.
Otherwise the walk and the searches it makes for implementations end, whatever the hierarchy is
like, and the answer has every type once, is grounded in the subtype index, and is empty unless
some type runs another method. -/
theorem resolve_grounded (p : Program) (m : MethodRef) :
    (∀ f, (ofProgram p).resolve m = .error f ↔
      (ofProgram p).table.get? m.type = none ∧ f = .unknownDeclaringType m.type.name m.text) ∧
    (∀ t r, (ofProgram p).Collects r [] [] ((ofProgram p).table.get? t).toList
      ((ofProgram p).implementations t r)) ∧
    ((ofProgram p).table.get? m.type ≠ none → ∃ os, (ofProgram p).resolve m = .ok os ∧
      (ofProgram p).Answers m os ∧ (typeNames os).Nodup ∧
      (∀ o ∈ os, (ofProgram p).Grounded m o) ∧
      (os = [] ∨ ∃ o ∈ os, (o.method == m) = false)) := by
  refine ⟨fun f => resolve_eq_error_iff, collects_implementations, fun hm => ?_⟩
  have hok : (ofProgram p).resolve m = .ok ((ofProgram p).overrides m) :=
    resolve_eq_ok_iff.2 ⟨Option.isSome_iff_ne_none.mpr hm, rfl⟩
  exact ⟨_, hok, answers_overrides m, nodup_typeNames_overrides _ m, grounded_overrides m,
    overrides_eq_nil_or m⟩

/-- Two classes that derive from each other, an interface that derives from one of them, and a
class that implements the interface. -/
def circle : Program where
  types :=
    [⟨⟨"Head", none⟩, .classType, [⟨"Tail", none⟩], [], [], [{ name := "move", isVirtual := true }],
      []⟩,
    ⟨⟨"Tail", none⟩, .classType, [⟨"Head", none⟩], [], [], [{ name := "move", isVirtual := true }],
      []⟩,
    ⟨⟨"Rider", none⟩, .interfaceType, [⟨"Tail", none⟩], [], [],
      [{ name := "move", isVirtual := true }], []⟩,
    ⟨⟨"Jockey", none⟩, .classType, [], [⟨"Rider", none⟩], [], [{ name := "move" }], []⟩]

/-- The method of the first class. -/
def headMove : MethodRef := ⟨⟨"Head", none⟩, "move", []⟩

/-- The walk goes around once: the first class is found below itself, and the implementation behind
the interface below both. -/
theorem circle_grounded :
    (ofProgram circle).table.get? headMove.type ≠ none ∧
    ∃ os, (ofProgram circle).resolve headMove = .ok os ∧
      typeNames os = ["Tail", "Head", "Rider", "Jockey"] ∧ (ofProgram circle).Answers headMove os ∧
      ∀ o ∈ os, (ofProgram circle).Grounded headMove o := by
  have hdefined : (ofProgram circle).table.get? headMove.type ≠ none :=
    Option.isSome_iff_ne_none.mp (by decide)
  have hnames : ((ofProgram circle).resolve headMove).map typeNames =
      .ok ["Tail", "Head", "Rider", "Jockey"] := by cbv
  obtain ⟨-, -, hanswer⟩ := resolve_grounded circle headMove
  obtain ⟨os, hok, hos, -, hgrounded, -⟩ := hanswer hdefined
  rw [hok] at hnames
  exact ⟨hdefined, os, hok, Except.ok.inj hnames, hos, hgrounded⟩

end Unwind.Hierarchy
