import Mathlib
import Unwind.Proofs.Hierarchy.Assignments

/-!
# Methods that start a new slot

A method that starts a new slot hides the inherited one of the same signature instead of overriding
it. Resolution takes this into account at the class that declares it, and nowhere else: the walk
hands the inherited method on, and an override further down is an override of it all the same. So
below a class that hides the method, a class runs what is declared above the hiding class exactly
when no override is declared on the way (`resolve_below_new_slot`), and an override in the new slot
is taken for one in the old slot (`exists_override_below_new_slot`).
-/

namespace Unwind

open Source
open Relation (ReflTransGen TransGen)

/-! ## Chains of base classes -/

namespace Source.Program

variable {p : Program} {d b : TypeDef}

theorem InterfacesApart.isClass_of_chain (hp : p.InterfacesApart) (h : ReflTransGen p.Extends d b)
    (hb : b.isInterface = false) : d.isInterface = false := by
  induction h using ReflTransGen.head_induction_on with
  | refl => exact hb
  | head he _ ih => exact hp.isClass he.derives ih

theorem SingleSuperclass.not_below_self (hp : p.SingleSuperclass) : ¬ TransGen p.Extends d d :=
  fun h => hp.acyclic d (TransGen.mono (fun _ _ he => he.derives) _ _ h)

/-- What is above a class on its chain, the class itself apart, is at or above its base class. -/
theorem SingleSuperclass.chain_head (hp : p.SingleSuperclass) {c top : TypeDef}
    (hclass : top.isInterface = false) (he : p.Extends d b) (hb : ReflTransGen p.Extends b top)
    (hdc : TransGen p.Extends d c) (hc : ReflTransGen p.Extends c top) :
    ReflTransGen p.Extends b c := by
  obtain ⟨b', he', hbc⟩ := TransGen.head'_iff.mp hdc
  have hbclass := hp.isClass_of_chain hb hclass
  have hbclass' := hp.isClass_of_chain (hbc.trans hc) hclass
  obtain rfl := hp.oneClass _ _ _ he.derives he'.derives hbclass hbclass'
  exact hbc

end Source.Program

namespace Hierarchy

open Source.Program

variable {p : Program} {top : TypeDef} {m : MethodRef}

/-- No override is declared at or above `r` and at or below `d`, or one of them is the first on the
way up from `r`. -/
theorem forall_none_or_nearest (hp : p.SingleSuperclass) {r d : TypeDef}
    (hd : d.isInterface = false) (hrd : ReflTransGen p.Extends r d) :
    (∀ c, ReflTransGen p.Extends r c → ReflTransGen p.Extends c d → overrideIn? c m = none) ∨
    ∃ c x, ReflTransGen p.Extends r c ∧ ReflTransGen p.Extends c d ∧ overrideIn? c m = some x ∧
      ∀ c', ReflTransGen p.Extends r c' → TransGen p.Extends c' c → overrideIn? c' m = none := by
  induction hrd using ReflTransGen.head_induction_on with
  | refl =>
    cases ho : overrideIn? d m with
    | none =>
      refine .inl fun c hdc hcd => ?_
      rcases Relation.reflTransGen_iff_eq_or_transGen.mp hdc with rfl | hdc
      · exact ho
      · exact absurd (hdc.trans_left hcd) hp.not_below_self
    | some x =>
      exact .inr ⟨d, x, .refl, .refl, ho, fun c' hdc' hc' =>
        absurd (hc'.trans_left hdc') hp.not_below_self⟩
  | @head r b he hb ih =>
    -- the classes on the way up are `r` and those on the way up from its base class
    have hsplit : ∀ {c}, ReflTransGen p.Extends r c → ReflTransGen p.Extends c d →
        c = r ∨ ReflTransGen p.Extends b c := by
      intro c hrc hcd
      rcases Relation.reflTransGen_iff_eq_or_transGen.mp hrc with heq | hrc
      · exact .inl heq
      · exact .inr (hp.chain_head hd he hb hrc hcd)
    cases ho : overrideIn? r m with
    | some x =>
      exact .inr ⟨r, x, .refl, .head he hb, ho, fun c' hrc' hc' =>
        absurd (hc'.trans_left hrc') hp.not_below_self⟩
    | none =>
      rcases ih with ih | ⟨c, x, hbc, hcd, hx, hfirst⟩
      · refine .inl fun c hrc hcd => ?_
        rcases hsplit hrc hcd with rfl | hbc
        · exact ho
        · exact ih c hbc hcd
      · refine .inr ⟨c, x, .head he hbc, hcd, hx, fun c' hrc' hc' => ?_⟩
        rcases hsplit hrc' (hc'.to_reflTransGen.trans hcd) with rfl | hbc'
        · exact ho
        · exact hfirst c' hbc' hc'

/-! ## The method that a class at the end of a chain runs -/

section

variable {d b c : TypeDef} {r x : MethodRef}

theorem Assigns.step (hp : p.SingleSuperclass) (hclass : top.isInterface = false)
    (he : p.Extends d b) (h : Assigns p top m b r) :
    Assigns p top m d ((overrideIn? d r).getD r) := by
  have hne := h.ne_top hp he.derives
  refine .inherit (fun r' hs => ?_) he.derives h
  cases hs with
  | self => exact hne rfl
  | implementor hi => exact absurd (hi.symm.trans hclass) (by decide)

/-- A class at or below `top` runs a method of the signature of `m` that a class at or above it, and
at or below `top`, declares. -/
theorem exists_assigns (hp : p.SingleSuperclass) (hclass : top.isInterface = false)
    (hm : m.type.name = top.name.name) (hd : ReflTransGen p.Extends d top) :
    ∃ r, Assigns p top m d r ∧ r.Alike m ∧
      ∃ b, ReflTransGen p.Extends d b ∧ r.type.name = b.name.name := by
  induction hd using ReflTransGen.head_induction_on with
  | refl => exact ⟨m, .start (.self hclass), .refl m, top, .refl, hm⟩
  | @head d b he _ ih =>
    obtain ⟨r, hr, halike, b', hb', howner⟩ := ih
    have hstep := hr.step hp hclass he
    cases ho : overrideIn? d r with
    | none =>
      rw [ho] at hstep
      exact ⟨r, hstep, halike, b', .head he hb', howner⟩
    | some r' =>
      rw [ho] at hstep
      obtain ⟨htype, halike'⟩ := overrideIn?_eq_some ho
      exact ⟨r', hstep, halike'.trans halike, d, .refl, congrArg TypeRef.name htype⟩

/-- A class strictly below `top` runs the override that it declares. -/
theorem assigns_own (hp : p.SingleSuperclass) (hclass : top.isInterface = false)
    (hm : m.type.name = top.name.name) (hc : TransGen p.Extends c top)
    (hx : overrideIn? c m = some x) : Assigns p top m c x := by
  obtain ⟨b, he, hb⟩ := TransGen.head'_iff.mp hc
  obtain ⟨r, hr, halike, -⟩ := exists_assigns hp hclass hm hb
  have hstep := hr.step hp hclass he
  rwa [Source.Program.overrideIn?_congr halike, hx] at hstep

/-- What a class runs is handed down to a class below when none on the way declares an override. -/
theorem Assigns.hand_down (hp : p.SingleSuperclass) (hclass : top.isInterface = false)
    (hc : Assigns p top m c x) (halike : x.Alike m) (hd : ReflTransGen p.Extends d c)
    (hnone : ∀ c', ReflTransGen p.Extends d c' → TransGen p.Extends c' c →
      overrideIn? c' m = none) : Assigns p top m d x := by
  induction hd using ReflTransGen.head_induction_on with
  | refl => exact hc
  | head he hb ih =>
    have hbase := ih fun c' hc' hbelow => hnone c' (.head he hc') hbelow
    have hstep := hbase.step hp hclass he
    rwa [Source.Program.overrideIn?_congr halike, hnone _ .refl (.head' he hb)] at hstep

/-- Methods that start a new slot are no overrides. -/
theorem overrideIn?_of_isNewSlot (h : ∀ y ∈ d.methodsMatching m, y.isNewSlot = true) :
    overrideIn? d m = none := by
  have hnil : ((d.methodsMatching m).filter fun y => y.isVirtual && !y.isNewSlot && !y.isStatic) =
      [] := by
    rw [List.filter_eq_nil_iff]
    intro y hy
    simp [h y hy]
  rw [overrideIn?, hnil]
  rfl

theorem Assigns.eq_or_owner (hclass : top.isInterface = false) (h : Assigns p top m d r) :
    r = m ∨ ∃ b ∈ p.allTypes, b ≠ top ∧ r.type = b.name := by
  induction h with
  | start hs =>
    cases hs with
    | self => exact .inl rfl
    | implementor hi => exact absurd (hi.symm.trans hclass) (by decide)
  | @inherit d b r hno hd _ ih =>
    cases ho : overrideIn? d r with
    | none => exact ih
    | some r' =>
      refine .inr ⟨d, hd.1, ?_, (overrideIn?_eq_some ho).1⟩
      rintro rfl
      exact hno m (.self hclass)

/-- The method assigned to a class strictly below `top` is what the answer says it runs. -/
theorem methodFor_overrides (hp : p.SingleSuperclass) (htop : top ∈ p.allTypes)
    (hclass : top.isInterface = false) (hm : m.type.name = top.name.name)
    (h : Assigns p top m d r) (hne : d ≠ top) :
    methodFor ((ofProgram p).overrides m) m d.name = r := by
  have hentry : ⟨d.name, r⟩ ∈ (ofProgram p).foundBelow m :=
    (mem_foundBelow_iff hp htop hm).mpr ⟨d, rfl, hne, h⟩
  rw [overrides_eq]
  split
  · next hall =>
    have hrm : (r == m) = true := List.all_eq_true.mp hall _ hentry
    rcases h.eq_or_owner hclass with rfl | ⟨b, hb, hbt, htype⟩
    · rfl
    · have hname := MethodRef.type_name_of_beq hrm
      rw [htype, hm] at hname
      exact absurd (eq_of_name_eq hp.names hb htop hname) hbt
  · obtain ⟨o, ho, hname, hvalue⟩ := exists_methodFor_eq ⟨_, hentry, rfl⟩ m
    obtain ⟨d', htype, -, hassigns⟩ := (mem_foundBelow_iff hp htop hm).mp ho
    rw [htype] at hname
    obtain rfl := eq_of_name_eq hp.names (hassigns.mem htop) (h.mem htop) hname
    rw [hvalue]
    exact hassigns.unique hp h

end

/-! ## Resolution -/

section

variable (hp : p.SingleSuperclass) (htop : top ∈ p.allTypes) (hclass : top.isInterface = false)
  (hm : m.type.name = top.name.name) {d r : TypeDef} (hd : TransGen p.Extends d top)
  (hrd : ReflTransGen p.Extends r d)
include hp htop hclass hm hd hrd

theorem methodFor_of_assigns {x : MethodRef} (h : Assigns p top m r x) :
    methodFor ((ofProgram p).overrides m) m r.name = x := by
  refine methodFor_overrides hp htop hclass hm h ?_
  rintro rfl
  exact hp.not_below_self (hd.trans_right hrd)

/-- The first override on the way up is run. -/
theorem methodFor_nearest {c : TypeDef} {x : MethodRef} (hrc : ReflTransGen p.Extends r c)
    (hcd : ReflTransGen p.Extends c d) (hx : overrideIn? c m = some x)
    (hfirst : ∀ c', ReflTransGen p.Extends r c' → TransGen p.Extends c' c →
      overrideIn? c' m = none) :
    methodFor ((ofProgram p).overrides m) m r.name = x := by
  have hc := assigns_own hp hclass hm (hd.trans_right hcd) hx
  exact methodFor_of_assigns hp htop hclass hm hd hrd
    (hc.hand_down hp hclass (overrideIn?_eq_some hx).2 hrc hfirst)

/-- Without an override on the way up to `d`, what is run is what the base class of `d` runs. -/
theorem methodFor_above (hnone : ∀ c, ReflTransGen p.Extends r c → ReflTransGen p.Extends c d →
      overrideIn? c m = none) :
    ∃ b, TransGen p.Extends d b ∧
      (methodFor ((ofProgram p).overrides m) m r.name).type.name = b.name.name := by
  obtain ⟨b, he, hb⟩ := TransGen.head'_iff.mp hd
  obtain ⟨x, hx, halike, b', hb', howner⟩ := exists_assigns hp hclass hm hb
  have hdx := hx.step hp hclass he
  rw [Source.Program.overrideIn?_congr halike, hnone d hrd .refl] at hdx
  have hr := hdx.hand_down hp hclass halike hrd fun c' hrc' hc' =>
    hnone c' hrc' hc'.to_reflTransGen
  rw [methodFor_of_assigns hp htop hclass hm hd hrd hr]
  exact ⟨b', .head' he hb', howner⟩

/-- The method that `r` runs is declared strictly above `d`, and no class from `r` up to `d`
declares an override, or it is the first override on the way up. -/
theorem methodFor_above_or_nearest :
    (∀ c, ReflTransGen p.Extends r c → ReflTransGen p.Extends c d → overrideIn? c m = none) ∧
        (∃ b ∈ p.allTypes, TransGen p.Extends d b ∧
          (methodFor ((ofProgram p).overrides m) m r.name).type.name = b.name.name) ∨
      ∃ c ∈ p.allTypes, ReflTransGen p.Extends r c ∧ ReflTransGen p.Extends c d ∧
        overrideIn? c m = some (methodFor ((ofProgram p).overrides m) m r.name) ∧
        (methodFor ((ofProgram p).overrides m) m r.name).type.name = c.name.name := by
  have hdclass := hp.isClass_of_chain hd.to_reflTransGen hclass
  rcases forall_none_or_nearest hp hdclass hrd with hnone | ⟨c, x, hrc, hcd, hx, hfirst⟩
  · obtain ⟨b, hb, howner⟩ := methodFor_above hp htop hclass hm hd hrd hnone
    obtain ⟨c, -, he⟩ := TransGen.tail'_iff.mp hb
    exact .inl ⟨hnone, b, he.2.1, hb, howner⟩
  · rw [methodFor_nearest hp htop hclass hm hd hrd hrc hcd hx hfirst]
    exact .inr ⟨c, mem_of_transGen (hd.trans_right hcd), hrc, hcd, hx,
      congrArg TypeRef.name (overrideIn?_eq_some hx).1⟩

end

/-- Below a class `d` that is strictly below the class of `m`, whether or not `d` hides `m` by a
method that starts a new slot: a class `r` runs a method declared strictly above `d` exactly when no
class from `r` up to `d` declares an override, and otherwise it runs the first override on the way
up. The class `d` itself has no part in this when all that it declares of the signature are methods
that start a new slot. -/
theorem resolve_below_new_slot (hp : p.SingleSuperclass) (htop : top ∈ p.allTypes)
    (hclass : top.isInterface = false) (hm : m.type.name = top.name.name) {d r : TypeDef}
    (hd : TransGen p.Extends d top) (hrd : ReflTransGen p.Extends r d) :
    ∃ os, (ofProgram p).resolve m = .ok os ∧
      ((∃ b, TransGen p.Extends d b ∧ (methodFor os m r.name).type.name = b.name.name) ↔
        ∀ c, ReflTransGen p.Extends r c → ReflTransGen p.Extends c d → overrideIn? c m = none) ∧
      (∀ c x, ReflTransGen p.Extends r c → ReflTransGen p.Extends c d →
        overrideIn? c m = some x →
        (∀ c', ReflTransGen p.Extends r c' → TransGen p.Extends c' c → overrideIn? c' m = none) →
        methodFor os m r.name = x) ∧
      ((∀ y ∈ d.methodsMatching m, y.isNewSlot = true) →
        (methodFor os m r.name).type.name ≠ d.name.name) := by
  have hmem := mem_of_transGen hd
  refine ⟨_, resolve_eq_overrides hp.toInterfacesApart htop hm, ⟨?_, ?_⟩, ?_, ?_⟩
  · rintro ⟨b, hb, howner⟩
    rcases methodFor_above_or_nearest hp htop hclass hm hd hrd with
      ⟨hnone, -⟩ | ⟨c, hc, -, hcd, -, hvalue⟩
    · exact hnone
    · -- the first override is declared at or below `d`, hence not at `b`
      obtain ⟨b', -, he⟩ := TransGen.tail'_iff.mp hb
      obtain rfl := eq_of_name_eq hp.names hc he.2.1 (hvalue.symm.trans howner)
      exact absurd (hb.trans_right hcd) hp.not_below_self
  · exact methodFor_above hp htop hclass hm hd hrd
  · exact fun c x hrc hcd => methodFor_nearest hp htop hclass hm hd hrd hrc hcd
  · intro hhides howner
    rcases methodFor_above_or_nearest hp htop hclass hm hd hrd with
      ⟨-, b, hbmem, hb, hvalue⟩ | ⟨c, hc, -, -, hx, hvalue⟩
    · obtain rfl := eq_of_name_eq hp.names hbmem hmem (hvalue.symm.trans howner)
      exact hp.not_below_self hb
    · obtain rfl := eq_of_name_eq hp.names hc hmem (hvalue.symm.trans howner)
      rw [overrideIn?_of_isNewSlot hhides] at hx
      cases hx

/-! ## An override below a class that hides the method -/

/-- A class that hides the method of the shapes. -/
def plate : TypeDef :=
  ⟨⟨"Plate", none⟩, .classType, [⟨"Shape", none⟩], [], [],
    [{ name := "draw", isVirtual := true, isNewSlot := true }], []⟩

/-- A class that overrides the method in the new slot. -/
def dish : TypeDef :=
  ⟨⟨"Dish", none⟩, .classType, [⟨"Plate", none⟩], [], [], [{ name := "draw", isVirtual := true }], []⟩

def crockery : Program := { types := [shape, plate, dish] }

def shapeDraw : MethodRef := ⟨⟨"Shape", none⟩, "draw", []⟩

theorem crockery_singleInheritance : crockery.SingleInheritance :=
  .of_rank (fun d => ["Shape", "Plate"].idxOf d.name.name) (by decide) (by decide) (by decide)
    (by decide) (by decide) (by decide) (by decide)

theorem plate_extends_shape : crockery.Extends plate shape := by
  refine ⟨?_, List.mem_cons_self, _, List.mem_cons_self, rfl⟩
  exact List.mem_cons_of_mem _ List.mem_cons_self

theorem dish_extends_plate : crockery.Extends dish plate := by
  refine ⟨?_, List.mem_cons_of_mem _ List.mem_cons_self, _, List.mem_cons_self, rfl⟩
  exact List.mem_cons_of_mem _ (List.mem_cons_of_mem _ List.mem_cons_self)

/-- The hiding class runs the method it hides, and the class below runs its own. -/
theorem crockery_below_new_slot :
    crockery.SingleSuperclass ∧ shape ∈ crockery.allTypes ∧ shape.isInterface = false ∧
    shapeDraw.type.name = shape.name.name ∧ TransGen crockery.Extends plate shape ∧
    ReflTransGen crockery.Extends dish plate ∧
    ∃ os, (ofProgram crockery).resolve shapeDraw = .ok os ∧
      methodFor os shapeDraw dish.name = ⟨⟨"Dish", none⟩, "draw", []⟩ ∧
      ¬ ∃ b, TransGen crockery.Extends plate b ∧
        (methodFor os shapeDraw dish.name).type.name = b.name.name := by
  have hp := SingleInheritance.singleSuperclass crockery_singleInheritance
  have hplate := TransGen.single plate_extends_shape
  have hdish := ReflTransGen.single dish_extends_plate
  obtain ⟨os, hos, hiff, hfirst, -⟩ := resolve_below_new_slot (m := shapeDraw) hp
    List.mem_cons_self rfl rfl hplate hdish
  have hown : overrideIn? dish shapeDraw = some ⟨⟨"Dish", none⟩, "draw", []⟩ := by decide
  refine ⟨hp, List.mem_cons_self, rfl, rfl, hplate, hdish, os, hos, ?_, fun habove => ?_⟩
  · exact hfirst dish _ .refl hdish hown fun c hc hbelow =>
      absurd (hbelow.trans_left hc) hp.not_below_self
  · rw [hiff.mp habove dish .refl hdish] at hown
    cases hown

/-- A class that overrides the method in the new slot is taken to override the hidden method. -/
theorem exists_override_below_new_slot :
    ¬ ∀ (p : Program) (top d r : TypeDef) (m : MethodRef), p.SingleInheritance →
      top ∈ p.allTypes → top.isInterface = false → m.type.name = top.name.name →
      (∃ x ∈ top.methodsMatching m, x.isVirtual = true) → TransGen p.Extends d top →
      ReflTransGen p.Extends r d → (∃ x ∈ d.methodsMatching m, x.isNewSlot = true) →
      ∃ os, (ofProgram p).resolve m = .ok os ∧
        ∃ b, TransGen p.Extends d b ∧ (methodFor os m r.name).type.name = b.name.name := by
  intro hall
  have hp := crockery_singleInheritance
  have hplate := TransGen.single plate_extends_shape
  obtain ⟨os, hos, b, hb, howner⟩ := hall crockery shape plate dish shapeDraw hp List.mem_cons_self
    rfl rfl (by decide) hplate (.single dish_extends_plate) (by decide)
  have hvalue : ((ofProgram crockery).resolve shapeDraw).map (methodFor · shapeDraw dish.name) =
      .ok ⟨⟨"Dish", none⟩, "draw", []⟩ := by cbv
  rw [hos] at hvalue
  have hmethod : methodFor os shapeDraw dish.name = ⟨⟨"Dish", none⟩, "draw", []⟩ :=
    Except.ok.inj hvalue
  rw [hmethod] at howner
  -- the owner of the value is below the hiding class, not above it
  obtain ⟨c, -, he⟩ := TransGen.tail'_iff.mp hb
  obtain rfl := eq_of_name_eq hp.names he.2.1 dish_extends_plate.1 howner.symm
  exact hp.singleSuperclass.not_below_self (hb.head dish_extends_plate)

end Hierarchy

end Unwind
