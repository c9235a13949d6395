import Mathlib.Data.List.Nodup
import Unwind.Proofs.Hierarchy.SubtypeIndex
import Unwind.Registry

/-!
# What a registry remembers

A helper is declared from its key alone, so that the answer to a request does not depend on who
asked before. `Registry.Sound` says that every entry of a registry is the declaration of its key and
that no declaration stands in it twice. A sound registry stays sound, its answers are known
beforehand (`Memo.MadeBy.getOrInsertWith`), and its helpers depend on the set of its declarations
only, not on the order in which they were asked for (`Registry.Sound.helpers_eq`).
-/

namespace Unwind

open Ir (Procedure)
open Source (TypeRef)

/-- Sorting forgets the order of a list when it decides between any two of its members. -/
theorem mergeSort_eq_of_perm {α : Type} {le : α → α → Bool} {xs ys : List α}
    (trans : ∀ a b c, le a b = true → le b c = true → le a c = true)
    (total : ∀ a b, (le a b || le b a) = true)
    (antisymm : ∀ a ∈ xs, ∀ b ∈ xs, le a b = true → le b a = true → a = b) (h : xs.Perm ys) :
    xs.mergeSort le = ys.mergeSort le := by
  have hperm : (xs.mergeSort le).Perm (ys.mergeSort le) :=
    (List.mergeSort_perm xs le).trans (h.trans (List.mergeSort_perm ys le).symm)
  refine List.Perm.eq_of_pairwise ?_ (List.pairwise_mergeSort trans total xs)
    (List.pairwise_mergeSort trans total ys) hperm
  intro a b ha hb
  exact antisymm a ((List.mergeSort_perm xs le).mem_iff.mp ha) b
    (h.mem_iff.mpr ((List.mergeSort_perm ys le).mem_iff.mp hb))

/-! ## Tables -/

namespace Memo

variable {κ α : Type}

/-- The values made so far. -/
def values (m : Memo κ α) : List α := m.entries.map (·.2)

/-- Every value is made by `make` from its key, and none is made twice. -/
structure MadeBy (make : κ → α) (m : Memo κ α) : Prop where
  made : ∀ e ∈ m.entries, e.2 = make e.1
  nodup : m.values.Nodup

variable {make : κ → α} {m : Memo κ α}

theorem MadeBy.empty : MadeBy make ({} : Memo κ α) := ⟨nofun, List.nodup_nil⟩

theorem MadeBy.mem_values (h : MadeBy make m) {v : α} (hv : v ∈ m.values) : ∃ k, v = make k := by
  obtain ⟨e, he, rfl⟩ := List.mem_map.mp hv
  exact ⟨e.1, h.made e he⟩

/-- Asking for a value gives the value of the key, and afterwards the table has it. -/
theorem MadeBy.getOrInsertWith [BEq κ] (h : MadeBy make m)
    (hkey : ∀ a b, (a == b) = true ↔ make a = make b) (key : κ) :
    (m.getOrInsertWith key make).1 = make key ∧
      MadeBy make (m.getOrInsertWith key make).2 ∧
      ∀ v, v ∈ (m.getOrInsertWith key make).2.values ↔ v = make key ∨ v ∈ m.values := by
  unfold Memo.getOrInsertWith Memo.get?
  cases hf : m.entries.find? (·.1 == key) with
  | some e =>
    have he : e ∈ m.entries := List.mem_of_find?_eq_some hf
    have hk := List.find?_some hf
    have hv : e.2 = make key := (h.made e he).trans ((hkey _ _).mp hk)
    refine ⟨hv, h, fun v => ?_⟩
    constructor
    · exact .inr
    · rintro (rfl | hv')
      · exact hv ▸ List.mem_map_of_mem he
      · exact hv'
  | none =>
    have hnew : make key ∉ m.values := by
      intro hmem
      obtain ⟨e, he, hek⟩ := List.mem_map.mp hmem
      have := List.find?_eq_none.mp hf e he
      exact this ((hkey _ _).mpr ((h.made e he).symm.trans hek))
    refine ⟨rfl, ⟨?_, ?_⟩, fun v => ?_⟩
    · intro e he
      rcases List.mem_append.mp he with he | he
      · exact h.made e he
      · rw [List.mem_singleton.mp he]
    · show (List.map _ (m.entries ++ [(key, make key)])).Nodup
      rw [List.map_append]
      exact h.nodup.append (List.nodup_singleton _) (by simpa using hnew)
    · simp [Memo.values, or_comm]

/-- Sorted values depend on their set only. -/
theorem MadeBy.valuesSorted_eq {m' : Memo κ α} {le : α → α → Bool} (h : MadeBy make m)
    (h' : MadeBy make m') (trans : ∀ a b c, le a b = true → le b c = true → le a c = true)
    (total : ∀ a b, (le a b || le b a) = true)
    (antisymm : ∀ a b, le (make a) (make b) = true → le (make b) (make a) = true →
      make a = make b)
    (hmem : ∀ v, v ∈ m.values ↔ v ∈ m'.values) : m.valuesSorted le = m'.valuesSorted le := by
  have hperm := (List.perm_ext_iff_of_nodup h.nodup h'.nodup).mpr hmem
  refine mergeSort_eq_of_perm trans total ?_ hperm
  intro v hv w hw
  obtain ⟨a, rfl⟩ := h.mem_values hv
  obtain ⟨b, rfl⟩ := h.mem_values hw
  exact antisymm a b

end Memo

/-! ## Registries -/

namespace Registry

theorem byName_trans (p q r : Procedure) (h : byName p q = true) (h' : byName q r = true) :
    byName p r = true := by
  simp only [byName, decide_eq_true_eq] at *
  exact String.le_trans h h'

theorem byName_total (p q : Procedure) : (byName p q || byName q p) = true := by
  simp only [byName, Bool.or_eq_true, decide_eq_true_eq]
  exact String.le_total _ _

theorem name_eq_of_byName {p q : Procedure} (h : byName p q = true) (h' : byName q p = true) :
    p.name = q.name := by
  simp only [byName, decide_eq_true_eq] at *
  exact String.le_antisymm h h'

/-- The name of a copy tells which struct it copies. -/
theorem structCopyDecl_eq_iff {a b : TypeRef} :
    structCopyDecl a = structCopyDecl b ↔ a.name = b.name := by
  constructor
  · intro h
    exact (String.append_left_inj _).mp (congrArg Procedure.name h)
  · intro h
    simp only [structCopyDecl, h]

theorem toList_structCopyDecl_name (type : TypeRef) :
    (structCopyDecl type).name.toList = type.name.toList ++ ".#copy_ctor".toList :=
  String.toList_append

theorem beq_iff_structCopyDecl (a b : TypeRef) :
    (a == b) = true ↔ structCopyDecl a = structCopyDecl b :=
  TypeRef.beq_iff.trans structCopyDecl_eq_iff.symm

/-- The name of a recorder tells what it records. -/
theorem recorderDecl_name_inj {a b : Ir.Ty} (h : (recorderDecl a).name = (recorderDecl b).name) :
    a = b := by
  have htext : a.text = b.text := (String.append_right_inj _).mp h
  cases a <;> cases b <;> first | rfl | (revert htext; decide)

theorem beq_iff_recorderDecl (a b : Ir.Ty) : (a == b) = true ↔ recorderDecl a = recorderDecl b := by
  rw [beq_iff_eq]
  exact ⟨congrArg _, fun h => recorderDecl_name_inj (congrArg Procedure.name h)⟩

/-- Every entry is the declaration of its key, and no declaration stands there twice. -/
structure Sound (r : Registry) : Prop where
  structCopies : r.structCopies.MadeBy structCopyDecl
  recorders : r.recorders.MadeBy recorderDecl

theorem Sound.empty : Sound {} := ⟨.empty, .empty⟩

/-- The same declarations, in whatever order they were asked for. -/
theorem Sound.helpers_eq {r r' : Registry} (h : r.Sound) (h' : r'.Sound)
    (hcopies : ∀ p, p ∈ r.structCopies.values ↔ p ∈ r'.structCopies.values)
    (hrecorders : ∀ p, p ∈ r.recorders.values ↔ p ∈ r'.recorders.values) :
    r.helpers = r'.helpers := by
  unfold helpers
  rw [h.structCopies.valuesSorted_eq h'.structCopies byName_trans byName_total ?_ hcopies,
    h.recorders.valuesSorted_eq h'.recorders byName_trans byName_total ?_ hrecorders]
  · intro a b hab hba
    exact congrArg _ (recorderDecl_name_inj (name_eq_of_byName hab hba))
  · intro a b hab hba
    exact structCopyDecl_eq_iff.2 ((String.append_left_inj _).mp (name_eq_of_byName hab hba))

/-- Every helper copies a struct or records a value. -/
theorem Sound.mem_helpers {r : Registry} (h : r.Sound) {q : Procedure} (hq : q ∈ r.helpers) :
    (∃ type, q = structCopyDecl type) ∨ ∃ ty, q = recorderDecl ty := by
  rcases List.mem_append.mp hq with hq | hq
  · exact .inl (h.structCopies.mem_values (List.mem_mergeSort.mp hq))
  · exact .inr (h.recorders.mem_values (List.mem_mergeSort.mp hq))

/-- No recorder is called like a copy. -/
theorem structCopyDecl_name_ne (type : TypeRef) (ty : Ir.Ty) :
    (structCopyDecl type).name ≠ (recorderDecl ty).name := by
  intro h
  have hmark : '#' ∈ (recorderDecl ty).name.toList := by
    rw [← h, toList_structCopyDecl_name]
    exact List.mem_append_right _ (by decide)
  revert hmark
  cases ty <;> decide

/-- No two helpers have the same name. -/
theorem Sound.nodup_helpers {r : Registry} (h : r.Sound) :
    (r.helpers.map (·.name)).Nodup := by
  rw [helpers, List.map_append, List.nodup_append]
  refine ⟨?_, ?_, ?_⟩
  · refine ((List.mergeSort_perm _ _).map _).nodup_iff.mpr (h.structCopies.nodup.map_on ?_)
    intro p hp q hq hname
    obtain ⟨a, rfl⟩ := h.structCopies.mem_values hp
    obtain ⟨b, rfl⟩ := h.structCopies.mem_values hq
    exact structCopyDecl_eq_iff.2 ((String.append_left_inj _).mp hname)
  · refine ((List.mergeSort_perm _ _).map _).nodup_iff.mpr (h.recorders.nodup.map_on ?_)
    intro p hp q hq hname
    obtain ⟨a, rfl⟩ := h.recorders.mem_values hp
    obtain ⟨b, rfl⟩ := h.recorders.mem_values hq
    exact congrArg _ (recorderDecl_name_inj hname)
  · intro x hx y hy
    obtain ⟨p, hp, rfl⟩ := List.mem_map.mp hx
    obtain ⟨q, hq, rfl⟩ := List.mem_map.mp hy
    obtain ⟨a, rfl⟩ := h.structCopies.mem_values (List.mem_mergeSort.mp hp)
    obtain ⟨b, rfl⟩ := h.recorders.mem_values (List.mem_mergeSort.mp hq)
    exact structCopyDecl_name_ne a b

/-- No helper is called `$Alloc`. -/
theorem Sound.alloc_notMem_helpers {r : Registry} (h : r.Sound) :
    Ir.allocProc ∉ r.helpers.map (·.name) := by
  intro hmem
  obtain ⟨q, hq, hname⟩ := List.mem_map.mp hmem
  have hdot : '.' ∈ Ir.allocProc.toList := by
    rw [← hname]
    rcases h.mem_helpers hq with ⟨type, rfl⟩ | ⟨ty, rfl⟩
    · rw [toList_structCopyDecl_name]
      exact List.mem_append_right _ (by decide)
    · cases ty <;> decide
  exact absurd hdot (by decide)

end Registry

end Unwind
