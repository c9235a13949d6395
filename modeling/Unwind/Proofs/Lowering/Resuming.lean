import Mathlib.Algebra.Group.Nat.Defs
import Unwind.Proofs.Execution
import Unwind.Proofs.Lowering.Steps

/-!
# The end of a region

Behind the finally block of a region there is one test for every jump that leaves the region. The
label variable holds the number of the jump that is under way, or one of two values that no jump
has. So a jump goes on where it has left the region, and a region that completes is left at its end.
-/

namespace Unwind.Lowering

open Machine (Along Config Data Instr Value World eval flatten labels step)

/-- The tests at the end of a region: a jump that is under way goes on, otherwise control goes
behind the region. -/
def resuming (region jumps : Nat) : List Instr :=
  flatten (resumeTests (Tag.behind region).name ((List.range jumps).map (edge region)))

section

variable {w : World} {prog : List Instr} {Q : Config → Prop} {d : Data}

theorem locals_setLabel (x : Value) : (d.set w labelVar x).locals labelVar = x :=
  Data.locals_set_own (v := .label) rfl x

/-- The tests lead to the jump that the label variable asks for. -/
theorem along_resumeTests (behind : String) (es : List EscapingEdge) (ks : List Instr) {v : Int64}
    (hv : d.locals labelVar = .int v)
    (hq : ∀ is, is ≠ [] → is <:+ flatten (resumeTests behind es) → Q ⟨is ++ ks, d⟩) :
    ∃ l more, Along w prog Q ⟨flatten (resumeTests behind es) ++ ks, d⟩ ⟨.goto l :: more, d⟩ ∧
      Q ⟨.goto l :: more, d⟩ ∧
      ((∃ e ∈ es, e.id = v ∧ l = e.resume) ∨ (∀ e ∈ es, e.id ≠ v) ∧ l = behind) := by
  induction es generalizing ks with
  | nil =>
    exact ⟨behind, ks, .refl, hq [.goto behind] nofun (List.suffix_refl _), .inr ⟨by simp, rfl⟩⟩
  | cons e es ih =>
    have hcond : (eval w d (.eq (.ident labelVar) (.int e.id))).holds = decide (e.id = v) := by
      have hget : d.get w labelVar = .int v := by
        rw [← hv]
        exact Machine.Data.get_own (v := .label) rfl
      show (Value.bool (Data.get w d labelVar == .int e.id)).holds = _
      rw [hget, Machine.Value.holds_bool, Bool.eq_iff_iff, beq_iff_eq, decide_eq_true_eq,
        Value.int.injEq]
      exact eq_comm
    simp only [resumeTests, Machine.flatten_singleton, Machine.flattenCmd] at hq ⊢
    have hfirst := hq _ (List.cons_ne_nil _ _) (List.suffix_refl _)
    by_cases he : e.id = v
    · refine ⟨e.resume, .jump (flatten (resumeTests behind es)).length ::
        (flatten (resumeTests behind es) ++ ks), .head ?_ hfirst .refl,
        hq _ (List.cons_ne_nil _ _) (List.suffix_cons _ _), .inl ⟨e, List.mem_cons_self, he, rfl⟩⟩
      rw [decide_eq_true he] at hcond
      simp [step, hcond]
    · obtain ⟨l, more, hal, hgoto, hor⟩ := ih ks fun is hne hs => hq is hne (hs.trans
        (((List.suffix_cons _ _).trans (List.suffix_cons _ _)).trans (List.suffix_cons _ _)))
      refine ⟨l, more, .head ?_ hfirst hal, hgoto, ?_⟩
      · rw [decide_eq_false he] at hcond
        simp [step, hcond]
      · rcases hor with ⟨e', hmem, hid⟩ | ⟨hall, hl⟩
        · exact .inl ⟨e', List.mem_cons_of_mem _ hmem, hid⟩
        · exact .inr ⟨List.forall_mem_cons.mpr ⟨he, hall⟩, hl⟩

end

/-! ## Numbers of jumps -/

theorem le_length_resuming (region jumps : Nat) : jumps ≤ (resuming region jumps).length := by
  have hlen : ∀ (behind : String) (es : List EscapingEdge),
      es.length ≤ (flatten (resumeTests behind es)).length := by
    intro behind es
    induction es with
    | nil => exact Nat.zero_le _
    | cons e es ih =>
      rw [resumeTests, Machine.flatten_singleton, Machine.flattenCmd]
      simp only [List.length_cons, List.length_append]
      omega
  have h := hlen (Tag.behind region).name ((List.range jumps).map (edge region))
  rwa [List.length_map, List.length_range] at h

/-- A procedure has fewer jumps than instructions. -/
theorem jumps_lt {region jumps : Nat} {ks prog : List Instr} (hsize : prog.length < 2 ^ 63)
    (h : resuming region jumps ++ ks <:+ prog) : jumps < 2 ^ 63 := by
  have hle := h.length_le
  have := le_length_resuming region jumps
  rw [List.length_append] at hle
  omega

theorem ofNat_inj_of_lt {a b : Nat} (ha : a < 2 ^ 63) (hb : b < 2 ^ 63)
    (h : Int64.ofNat a = Int64.ofNat b) : a = b := by
  have hi := congrArg Int64.toInt h
  rw [Int64.toInt_ofNat_of_lt ha, Int64.toInt_ofNat_of_lt hb] at hi
  omega

theorem ofNat_ne_normal {a : Nat} (ha : a < 2 ^ 63) : Int64.ofNat a ≠ normal := by
  intro h
  have hi := congrArg Int64.toInt h
  have hn : normal.toInt = -1 := by decide
  rw [Int64.toInt_ofNat_of_lt ha, hn] at hi
  omega

/-! ## Leaving a region -/

section

variable {w : World} {prog : List Instr} {Q : Config → Prop} {d : Data} {region jumps : Nat}
  {is ks : List Instr}

/-- A region that completes is left at its end. -/
theorem along_resuming_normal (hnd : (labels prog).Nodup) (hsize : jumps < 2 ^ 63)
    (hs : .label (Tag.behind region).name :: is <:+ prog) (hv : d.locals labelVar = .int normal)
    (hq : ∀ is, is ≠ [] → is <:+ resuming region jumps → Q ⟨is ++ ks, d⟩)
    (hq' : Q ⟨.label (Tag.behind region).name :: is, d⟩) :
    Along w prog Q ⟨resuming region jumps ++ ks, d⟩ ⟨is, d⟩ := by
  obtain ⟨l, more, hal, hgoto, hor⟩ := along_resumeTests (Tag.behind region).name
    ((List.range jumps).map (edge region)) ks hv hq
  have hl : l = (Tag.behind region).name := by
    rcases hor with ⟨e, he, hid, -⟩ | ⟨-, hl⟩
    · obtain ⟨k, hk, rfl⟩ := List.mem_map.mp he
      exact absurd hid (ofNat_ne_normal (Nat.lt_trans (List.mem_range.mp hk) hsize))
    · exact hl
  subst hl
  exact hal.trans (Machine.along_goto hnd hs hgoto hq')

/-- A jump goes on where it has left the region. -/
theorem along_resuming_jump {k : Nat} (hnd : (labels prog).Nodup) (hsize : jumps < 2 ^ 63)
    (hs : .label (Tag.resume region k).name :: is <:+ prog) (hk : k < jumps)
    (hv : d.locals labelVar = .int (Int64.ofNat k))
    (hq : ∀ is, is ≠ [] → is <:+ resuming region jumps → Q ⟨is ++ ks, d⟩)
    (hq' : Q ⟨.label (Tag.resume region k).name :: is, d⟩) :
    Along w prog Q ⟨resuming region jumps ++ ks, d⟩ ⟨is, d⟩ := by
  obtain ⟨l, more, hal, hgoto, hor⟩ := along_resumeTests (Tag.behind region).name
    ((List.range jumps).map (edge region)) ks hv hq
  have hl : l = (Tag.resume region k).name := by
    rcases hor with ⟨e, he, hid, hl⟩ | ⟨hne, -⟩
    · obtain ⟨j, hj, rfl⟩ := List.mem_map.mp he
      have hjk : j = k := ofNat_inj_of_lt (Nat.lt_trans (List.mem_range.mp hj) hsize)
        (Nat.lt_trans hk hsize) hid
      rw [hl, hjk]
      rfl
    · exact absurd rfl (hne _ (List.mem_map_of_mem (List.mem_range.mpr hk)))
  subst hl
  exact hal.trans (Machine.along_goto hnd hs hgoto hq')

end

end Unwind.Lowering
