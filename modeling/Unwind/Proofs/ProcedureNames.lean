import Unwind.Proofs.Hierarchy.Overrides
import Unwind.Proofs.Machine
import Unwind.Proofs.Registry

/-!
# When two names are the same

Names of procedures and of fields are put together with `.` and `$`. `dotted_eq_iff` says when two
dotted names are the same: they have the same parts, or a part with a dot of its own is cut at
another dot. Where no part has a `$`, what follows the first `$` tells the parameter types
(`MethodRef.procedureName_eq_iff`); where none has a `#`, no method is called like a helper
(`MethodRef.procedureName_ne_structCopy`).
-/

namespace Unwind.Source

open Machine (isGenerated)

/-! ## Dotted names -/

/-- The member `x` of `t` is written like the member `y` of `u`, because the name of `u` goes on
where that of `t` ends. -/
def ReadsLike (t x u y : String) : Prop := ∃ s, u = t ++ "." ++ s ∧ x = s ++ "." ++ y

theorem not_readsLike_self (t x : String) : ¬ ReadsLike t x t x := by
  rintro ⟨s, ht, -⟩
  have hlength := congrArg String.length ht
  have hdot : ".".length = 1 := rfl
  rw [String.length_append, String.length_append, hdot] at hlength
  omega

theorem toList_dotted (t x : String) : (t ++ "." ++ x).toList = t.toList ++ '.' :: x.toList := by
  simp

theorem dotted_eq_of_readsLike {t x u y : String} (h : ReadsLike t x u y) :
    t ++ "." ++ x = u ++ "." ++ y := by
  obtain ⟨s, rfl, rfl⟩ := h
  simp only [String.append_assoc]

/-- A name that is cut at two dots has a part between them. -/
theorem readsLike_of_toList {t x u y : String} {cs : List Char} (hu : u.toList = t.toList ++ cs)
    (hx : '.' :: x.toList = cs ++ '.' :: y.toList) : t = u ∧ x = y ∨ ReadsLike t x u y := by
  cases cs with
  | nil =>
    refine .inl ⟨?_, ?_⟩
    · rw [← String.toList_inj, hu, List.append_nil]
    · exact String.toList_inj.mp (List.cons.inj hx).2
  | cons c cs =>
    rw [List.cons_append, List.cons.injEq] at hx
    obtain ⟨rfl, hx⟩ := hx
    refine .inr ⟨String.ofList cs, ?_, ?_⟩
    · rw [← String.toList_inj, toList_dotted, hu, String.toList_ofList]
    · rw [← String.toList_inj, toList_dotted, hx, String.toList_ofList]

theorem dotted_eq_iff {t x u y : String} :
    t ++ "." ++ x = u ++ "." ++ y ↔ t = u ∧ x = y ∨ ReadsLike t x u y ∨ ReadsLike u y t x := by
  constructor
  · intro h
    rw [← String.toList_inj, toList_dotted, toList_dotted, List.append_eq_append_iff] at h
    rcases h with ⟨cs, hu, hx⟩ | ⟨cs, ht, hy⟩
    · rcases readsLike_of_toList hu hx with heq | hreads
      · exact .inl heq
      · exact .inr (.inl hreads)
    · rcases readsLike_of_toList ht hy with ⟨htu, hyx⟩ | hreads
      · exact .inl ⟨htu.symm, hyx.symm⟩
      · exact .inr (.inr hreads)
  · rintro (⟨rfl, rfl⟩ | h | h)
    · rfl
    · exact dotted_eq_of_readsLike h
    · exact (dotted_eq_of_readsLike h).symm

/-! ## Parameter types -/

/-- The name of the type has no mark in it and is not that of a built-in type. -/
def Ty.IsPlain : Ty → Prop
  | named t => '$' ∉ t.name.toList ∧ '#' ∉ t.name.toList ∧ t.name ∉ ["void", "bool", "int"]
  | _ => True

instance : DecidablePred Ty.IsPlain
  | .named t => inferInstanceAs
    (Decidable ('$' ∉ t.name.toList ∧ '#' ∉ t.name.toList ∧ t.name ∉ ["void", "bool", "int"]))
  | .void | .bool | .int => inferInstanceAs (Decidable True)

theorem Ty.IsPlain.not_mem_text {ty : Ty} (h : ty.IsPlain) :
    '$' ∉ ty.text.toList ∧ '#' ∉ ty.text.toList := by
  cases ty with
  | named t => exact ⟨h.1, h.2.1⟩
  | _ => decide

theorem Ty.text_eq_iff {a b : Ty} (ha : a.IsPlain) (hb : b.IsPlain) :
    a.text = b.text ↔ a.bare = b.bare := by
  cases a with
  | named t =>
    have ht : t.name ∉ ["void", "bool", "int"] := ha.2.2
    cases b <;> simp_all [text, Ty.bare]
  | _ =>
    cases b with
    | named t =>
      have ht : t.name ∉ ["void", "bool", "int"] := hb.2.2
      simp_all [text, Ty.bare, eq_comm]
    | _ => decide

theorem Ty.texts_eq_iff {as bs : List Ty} (ha : ∀ a ∈ as, a.IsPlain) (hb : ∀ b ∈ bs, b.IsPlain) :
    as.map Ty.text = bs.map Ty.text ↔ as.map Ty.bare = bs.map Ty.bare := by
  induction as generalizing bs with
  | nil => simp [eq_comm]
  | cons a as ih =>
    cases bs with
    | nil => simp
    | cons b bs =>
      rw [List.forall_mem_cons] at ha hb
      simp only [List.map_cons, List.cons.injEq, Ty.text_eq_iff ha.1 hb.1, ih ha.2 hb.2]

/-- Texts joined by a mark can be told apart when the mark is in none of them. -/
theorem intercalate_inj {xs ys : List String} (hx : ∀ x ∈ xs, '$' ∉ x.toList)
    (hy : ∀ y ∈ ys, '$' ∉ y.toList) (hxs : xs ≠ []) (hys : ys ≠ [])
    (h : "$".intercalate xs = "$".intercalate ys) : xs = ys := by
  have hsplit : ∀ {zs : List String}, (∀ z ∈ zs, '$' ∉ z.toList) → zs ≠ [] →
      ("$".intercalate zs).toList.splitOn '$' = zs.map String.toList := by
    intro zs hz hne
    rw [String.toList_intercalate]
    exact List.splitOn_intercalate '$' (List.forall_mem_map.mpr hz) (by simpa using hne)
  have hmap : xs.map String.toList = ys.map String.toList := by
    rw [← hsplit hx hxs, ← hsplit hy hys, h]
  exact List.map_injective_iff.mpr (fun _ _ => String.toList_inj.mp) hmap

theorem not_mem_intercalate {c : Char} (hc : c ≠ '$') {xs : List String}
    (h : ∀ x ∈ xs, c ∉ x.toList) : c ∉ ("$".intercalate xs).toList := by
  induction xs with
  | nil => simp
  | cons x xs ih => cases xs <;> simp_all

/-! ## Procedure names -/

namespace MethodRef

/-- The parts of the name have no marks in them. -/
structure IsPlain (m : MethodRef) : Prop where
  type : '$' ∉ m.type.name.toList
  name : '$' ∉ m.name.toList ∧ '#' ∉ m.name.toList
  params : ∀ ty ∈ m.params, ty.IsPlain

instance : DecidablePred IsPlain := fun m =>
  decidable_of_iff ('$' ∉ m.type.name.toList ∧ ('$' ∉ m.name.toList ∧ '#' ∉ m.name.toList) ∧
    ∀ ty ∈ m.params, ty.IsPlain)
    ⟨fun h => ⟨h.1, h.2.1, h.2.2⟩, fun h => ⟨h.type, h.name, h.params⟩⟩

/-- A procedure name is the signature and the parameter types, joined by `$`. -/
theorem procedureName_eq (m : MethodRef) :
    m.procedureName = "$".intercalate (m.signature :: m.params.map Ty.text) := by
  unfold procedureName
  cases m.params with
  | nil => simp
  | cons ty params => simp

variable {a b : MethodRef}

theorem IsPlain.not_mem_parts (h : a.IsPlain) :
    ∀ x ∈ a.signature :: a.params.map Ty.text, '$' ∉ x.toList := by
  rw [List.forall_mem_cons, List.forall_mem_map]
  refine ⟨?_, fun ty hty => (h.params ty hty).not_mem_text.1⟩
  rw [signature, toList_dotted]
  simp [h.type, h.name.1]

/-- A plain procedure name tells the signature and the parameter types. -/
theorem procedureName_eq_iff (ha : a.IsPlain) (hb : b.IsPlain) :
    a.procedureName = b.procedureName ↔
      a.signature = b.signature ∧ a.params.map Ty.bare = b.params.map Ty.bare := by
  rw [← Ty.texts_eq_iff ha.params hb.params, ← List.cons.injEq, procedureName_eq,
    procedureName_eq]
  refine ⟨fun h => ?_, congrArg _⟩
  exact intercalate_inj ha.not_mem_parts hb.not_mem_parts (List.cons_ne_nil _ _)
    (List.cons_ne_nil _ _) h

/-- Behind the first part of a plain procedure name there is no `#`. -/
theorem IsPlain.exists_rest (h : a.IsPlain) :
    ∃ rest, a.procedureName = a.type.name ++ "." ++ rest ∧ '#' ∉ rest.toList := by
  refine ⟨"$".intercalate (a.name :: a.params.map Ty.text), ?_, not_mem_intercalate (by decide) ?_⟩
  · rw [procedureName_eq, signature]
    cases a.params <;> simp [String.append_assoc]
  · rw [List.forall_mem_cons, List.forall_mem_map]
    exact ⟨h.name.2, fun ty hty => (h.params ty hty).not_mem_text.2⟩

/-- A method is not called like a copy of a struct. -/
theorem IsPlain.procedureName_ne_structCopy (h : a.IsPlain) (type : TypeRef) :
    a.procedureName ≠ (Registry.structCopyDecl type).name := by
  obtain ⟨rest, hrest, hmark⟩ := h.exists_rest
  have hcopy : (Registry.structCopyDecl type).name = type.name ++ "." ++ "#copy_ctor" := by
    rw [String.append_assoc]
    rfl
  rw [hrest, hcopy, ne_eq, dotted_eq_iff]
  rintro (⟨-, rfl⟩ | ⟨s, -, rfl⟩ | ⟨s, -, hs⟩)
  · exact hmark (by decide)
  · exact hmark (by simp)
  · have hdot : '.' ∈ "#copy_ctor".toList := by
      rw [hs]
      simp
    exact absurd hdot (by decide)

/-- A method is not called like something generated. -/
theorem IsPlain.isGenerated_procedureName (h : a.IsPlain) :
    isGenerated a.procedureName = false := by
  obtain ⟨rest, hrest, -⟩ := h.exists_rest
  have htype := h.type
  rw [isGenerated, hrest, toList_dotted]
  cases hcs : a.type.name.toList with
  | nil => rfl
  | cons c cs =>
    rw [hcs, List.mem_cons, not_or] at htype
    simpa using htype.1 ∘ Eq.symm

end MethodRef

end Unwind.Source
