import Unwind.Proofs.Hierarchy.Implementations

/-!
# The types of an answer

Resolution gives at most one method to a type (`nodup_typeNames_overrides`), in every hierarchy: a
type that has been entered is struck off the names that the walk may still enter, and so are the
types whose implementation is known from the start.
-/

namespace Unwind.Hierarchy

open Source

/-- The types found so far are different, and none of them is entered again. -/
structure Apart (unseen : List String) (found : List Override) : Prop where
  nodup : (typeNames found).Nodup
  unseen : ∀ x ∈ typeNames found, x ∉ unseen

theorem nodup_addNew {found : List Override} (h : (typeNames found).Nodup) (o : Override) :
    (typeNames (addNew found o)).Nodup := by
  unfold addNew
  split
  · exact h
  · next hnew =>
    rw [typeNames, List.map_append]
    refine List.nodup_append.mpr ⟨h, List.nodup_singleton _, fun x hx y hy => ?_⟩
    obtain ⟨o', ho', rfl⟩ := List.mem_map.mp hx
    cases List.mem_singleton.mp hy
    exact fun heq => hnew (List.any_eq_true.mpr ⟨o', ho', TypeRef.beq_iff.mpr heq⟩)

theorem nodup_foldl_addNew {found : List Override} (h : (typeNames found).Nodup)
    (os : List Override) : (typeNames (os.foldl addNew found)).Nodup := by
  induction os generalizing found with
  | nil => exact h
  | cons o os ih => exact ih (nodup_addNew h o)

theorem mem_typeNames_foldl_addNew {os found : List Override} {x : String}
    (hx : x ∈ typeNames (os.foldl addNew found)) : x ∈ typeNames found ∨ x ∈ typeNames os := by
  obtain ⟨o, ho, rfl⟩ := List.mem_map.mp hx
  exact (mem_of_foldl_addNew ho).imp (List.mem_map_of_mem ·) (List.mem_map_of_mem ·)

/-- Adding implementations and striking their types off keeps the two apart. -/
theorem Apart.addAll {unseen : List String} {found : List Override} (h : Apart unseen found)
    (os : List Override) : Apart (strikeAll unseen (typeNames os)) (os.foldl addNew found) := by
  refine ⟨nodup_foldl_addNew h.nodup os, fun x hx hmem => ?_⟩
  obtain ⟨hunseen, hos⟩ := mem_strikeAll.mp hmem
  exact (mem_typeNames_foldl_addNew hx).elim (fun hfound => h.unseen x hfound hunseen) hos

/-- Entering a type that has not been seen keeps the two apart. -/
theorem Apart.enter {unseen : List String} {found : List Override} (h : Apart unseen found)
    {t : TypeRef} (ht : t.name ∈ unseen) (m : MethodRef) :
    Apart (strike unseen t.name) (found ++ [⟨t, m⟩]) := by
  have hnew : t.name ∉ typeNames found := fun hmem => h.unseen _ hmem ht
  have hnames : typeNames (found ++ [⟨t, m⟩]) = typeNames found ++ [t.name] := List.map_append
  refine ⟨?_, fun x hx hmem => ?_⟩
  · rw [hnames]
    exact List.nodup_append.mpr ⟨h.nodup, List.nodup_singleton _, fun x hx y hy heq =>
      hnew (List.mem_singleton.mp hy ▸ heq ▸ hx)⟩
  · obtain ⟨hunseen, hne⟩ := mem_strike.mp hmem
    rw [hnames] at hx
    rcases List.mem_append.mp hx with hx | hx
    · exact h.unseen x hx hunseen
    · exact hne (List.mem_singleton.mp hx)

theorem nodup_overridesBelow {h : Hierarchy} {unseen : List String} {found pending : List Override}
    (hapart : Apart unseen found) :
    (typeNames (h.overridesBelow unseen found pending)).Nodup := by
  fun_induction overridesBelow h unseen found pending with
  | case1 => exact hapart.nodup
  | case2 unseen found t inherited rest ht m seeded ih => exact ih ((hapart.enter ht m).addAll _)
  | case3 unseen found t inherited rest ht ih => exact ih hapart

/-- Every type has at most one method in an answer. -/
theorem nodup_typeNames_overrides (h : Hierarchy) (m : MethodRef) :
    (typeNames (h.overrides m)).Nodup := by
  have hstart : Apart h.index.subtypeNames [] := ⟨List.nodup_nil, nofun⟩
  unfold overrides
  dsimp only
  split
  · exact List.nodup_nil
  · exact nodup_overridesBelow (hstart.addAll _)

theorem nodup_typeNames_resolve {h : Hierarchy} {m : MethodRef} {os : List Override}
    (hm : h.resolve m = .ok os) : (typeNames os).Nodup := by
  unfold resolve at hm
  split at hm
  · cases hm
    exact nodup_typeNames_overrides h m
  · cases hm

end Unwind.Hierarchy
