import Mathlib.Data.List.Nodup
import Unwind.Json.Decode

/-!
# What decoders read

`Reads decode j a` says that a decoder reads `a` off the value `j`, provided that it may look down
to the bottom of it. There is one lemma for each shape that values are written in: scalars, lists,
values that may be `null`, records that name their fields, and variants. A format is read back when
all its shapes are.
-/

namespace Unwind.Json

/-- The decoder reads `a` off the value, as soon as it may look deep enough. -/
def Reads {α : Type} (decode : Decoder α) (j : Json) (a : α) : Prop :=
  ∀ n, j.depth ≤ n → decode n j = some a

section

variable {α : Type} {decode : Decoder α} {j : Json} {a : α} {n : Nat}

/-! ## Scalars -/

@[simp] theorem str?_str (s : String) : (str s).str? = some s := rfl

@[simp] theorem bool?_bool (b : Bool) : (bool b).bool? = some b := rfl

theorem intBetween?_int {lo hi n : Int} (h : lo ≤ n) (h' : n < hi) :
    (int n).intBetween? lo hi = some n := by
  simp only [intBetween?, h, h', decide_true, Bool.and_self, if_true]

@[simp] theorem int64?_ofInt64 (n : Int64) : (ofInt64 n).int64? = some n := by
  have hlo := Int64.minValue_le_toInt n
  have hhi := Int64.toInt_le n
  rw [int64?, ofInt64, intBetween?_int (by simpa using hlo) (by omega)]
  exact congrArg some (Int64.ofInt_toInt n)

@[simp] theorem uint32?_ofUInt32 (n : UInt32) : (ofUInt32 n).uint32? = some n := by
  have hn := n.toNat_lt
  rw [uint32?, ofUInt32, intBetween?_int (by omega) (by exact_mod_cast hn)]
  simp

@[simp] theorem uint64?_ofUInt64 (n : UInt64) : (ofUInt64 n).uint64? = some n := by
  have hn := n.toNat_lt
  rw [uint64?, ofUInt64, intBetween?_int (by omega) (by exact_mod_cast hn)]
  simp

/-! ## Depth -/

/-- To read an object one has to be able to look a step further than its members go. -/
theorem exists_of_depth_obj {members : List (String × Json)} (h : (obj members).depth ≤ n) :
    ∃ m, n = m + 1 ∧ ∀ x ∈ members, x.2.depth ≤ m := by
  cases n with
  | zero => simp [depth] at h
  | succ m =>
    refine ⟨m, rfl, ?_⟩
    rw [depth, Nat.add_le_add_iff_right] at h
    induction members with
    | nil => nofun
    | cons x members ih =>
      obtain ⟨k, j⟩ := x
      rw [depthMembers, Nat.max_le] at h
      exact List.forall_mem_cons.mpr ⟨h.1, ih h.2⟩

theorem exists_of_depth_arr {items : List Json} (h : (arr items).depth ≤ n) :
    ∃ m, n = m + 1 ∧ ∀ x ∈ items, x.depth ≤ m := by
  cases n with
  | zero => simp [depth] at h
  | succ m =>
    refine ⟨m, rfl, ?_⟩
    rw [depth, Nat.add_le_add_iff_right] at h
    induction items with
    | nil => nofun
    | cons x items ih =>
      rw [depthAll, Nat.max_le] at h
      exact List.forall_mem_cons.mpr ⟨h.1, ih h.2⟩

/-- The content of a variant lies one step below it. -/
theorem exists_of_depth_tagged {tag : String} (h : (tagged tag j).depth ≤ n) :
    ∃ m, n = m + 1 ∧ j.depth ≤ m := by
  obtain ⟨m, hm, h⟩ := exists_of_depth_obj h
  exact ⟨m, hm, h _ List.mem_cons_self⟩

/-- The fields of a variant whose content is a record lie two steps below it. -/
theorem exists_of_depth_fields {tag : String} {members : List (String × Json)}
    (h : (tagged tag (obj members)).depth ≤ n) :
    ∃ m, n = m + 2 ∧ ∀ x ∈ members, x.2.depth ≤ m := by
  obtain ⟨_, rfl, hc⟩ := exists_of_depth_tagged h
  obtain ⟨m, rfl, hm⟩ := exists_of_depth_obj hc
  exact ⟨m, rfl, hm⟩

/-- The parts of a variant whose content is an array lie two steps below it. -/
theorem exists_of_depth_parts {tag : String} {items : List Json}
    (h : (tagged tag (arr items)).depth ≤ n) :
    ∃ m, n = m + 2 ∧ ∀ x ∈ items, x.depth ≤ m := by
  obtain ⟨_, rfl, hc⟩ := exists_of_depth_tagged h
  obtain ⟨m, rfl, hm⟩ := exists_of_depth_arr hc
  exact ⟨m, rfl, hm⟩

/-! ## Lists -/

/-- An array is read when its items are. -/
theorem reads_items {decode : Decoder α} (decodeAll : Decoder (List α)) {items : List Json}
    {xs : List α} (hall : ∀ n, decodeAll (n + 1) (arr items) = items.mapM (decode n))
    (h : ∀ n, (∀ j ∈ items, j.depth ≤ n) → items.mapM (decode n) = some xs) :
    Reads decodeAll (arr items) xs := by
  intro n hn
  obtain ⟨n, rfl, hitems⟩ := exists_of_depth_arr hn
  rw [hall, h n hitems]

theorem reads_map {decode : Decoder α} {toJson : α → Json} {xs : List α}
    (h : ∀ x ∈ xs, Reads decode (toJson x) x) :
    Reads (list? decode) (arr (xs.map toJson)) xs := by
  refine reads_items _ (fun _ => rfl) fun n hn => ?_
  induction xs with
  | nil => rfl
  | cons x xs ih =>
    simp only [List.map_cons, List.forall_mem_cons] at h hn
    rw [List.map_cons, List.mapM_cons, h.1 n hn.1, ih h.2 hn.2]
    rfl

/-! ## Records -/

theorem lookup_of_mem {members : List (String × Json)} (h : (members.map (·.1)).Nodup)
    {m : String × Json} (hm : m ∈ members) : members.lookup m.1 = some m.2 := by
  induction members with
  | nil => cases hm
  | cons x members ih =>
    rw [List.map_cons, List.nodup_cons] at h
    rw [List.lookup_cons]
    rcases List.mem_cons.mp hm with rfl | hm
    · rw [beq_self_eq_true]
    · have hne : m.1 ≠ x.1 := fun he => h.1 (he ▸ List.mem_map_of_mem hm)
      rw [beq_eq_false_iff_ne.mpr hne]
      exact ih h.2 hm

/-- A record that names all its fields fills all its slots. -/
theorem slots?_obj {names : List String} {members : List (String × Json)}
    (hnames : members.map (·.1) = names) (hnodup : names.Nodup) :
    slots? names (obj members) = some (members.map fun m => .given m.2) := by
  subst hnames
  have hsingle : ∀ name ∈ members.map (·.1),
      (members.filter (·.1 == name)).length ≤ 1 := by
    intro name _
    rw [← List.countP_eq_length_filter]
    have := List.nodup_iff_count_le_one.mp hnodup name
    rwa [List.count, List.countP_map] at this
  have hlookup : (members.map (·.1)).map (slotNamed members) =
      members.map fun m => .given m.2 := by
    rw [List.map_map]
    refine List.map_congr_left fun m hm => ?_
    show slotNamed members m.1 = _
    rw [slotNamed, lookup_of_mem hnodup hm]
  rw [slots?, if_pos (by simpa using hsingle), hlookup]

/-! ## Fields -/

section

variable {decode : Json → Option α} {default : α}

theorem required_of (h : decode j = some a) : (Slot.given j).required decode = some a := h

theorem orDefault_of (h : decode j = some a) :
    (Slot.given j).orDefault default decode = some a := h

/-- What is not `null` is read as what it is. -/
theorem nullable?_of (hj : j ≠ .null) (h : decode j = some a) :
    nullable? decode j = some (some a) := by
  unfold nullable?
  split
  · exact absurd rfl hj
  · rw [h, Option.map_some]

theorem nullable_of {o : Option α} (h : nullable? decode j = some o) :
    (Slot.given j).nullable decode = some o := h

theorem optional_of {o : Option α} (h : nullable? decode j = some o) :
    (Slot.given j).optional decode = some o := h

end

end

end Unwind.Json
