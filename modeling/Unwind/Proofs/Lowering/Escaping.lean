import Unwind.Proofs.Lowering.Confined
import Unwind.Proofs.Lowering.Resuming

/-!
# The code around finally blocks

A jump that leaves a region stores its number in the label variable and goes to the finally block
(`along_enter`). The block puts the pending exception and the number aside (`along_save`) and brings
them back at its end (`along_restore`); the tests behind it lead to where the jump goes on
(`along_resume`). When the block raises, control goes to the handler around the region
(`along_propagate`).

All this code belongs to the jump or to the `try` statement of the region. `Passing` says that
control is in code of such statements, and not at some label of the source program.
-/

namespace Unwind.Lowering

open Source (Path Stmt)
open Machine (Along Config Data Instr Value World eval flatten isGenerated isOwn labels step)

variable {L : Layout} {body : Stmt} {π : Path} {ρ : List Frame} {lines ks more : List Line}
  {owners : List Path} {label : String} {w : World} {d : Data}

/-- Control is at a line of one of the statements, and not at the label. -/
def Passing (lines : List Line) (owners : List Path) (label : String) (c : Config) : Prop :=
  ∃ ℓ ls, Before lines (ℓ :: ls) c ∧ ℓ.owner ∈ owners ∧ ℓ.instr ≠ .label label

theorem passing_own {is js : List Instr} (hπ : π ∈ owners) (hs : own π ρ is ++ ks <:+ lines)
    (hjs : js <:+ is) (hne : js ≠ []) (hl : ∀ i ∈ is, i ≠ .label label) :
    Passing lines owners label ⟨js ++ instrs ks, d⟩ := by
  obtain ⟨i, js, rfl⟩ := List.exists_cons_of_ne_nil hne
  obtain ⟨as, rfl⟩ := hjs
  refine ⟨⟨i, π, ρ, false⟩, own π ρ js ++ ks, ⟨?_, ?_⟩, hπ, hl i (by simp)⟩
  · rw [own_append, List.append_assoc] at hs
    exact (List.suffix_append _ _).trans hs
  · simp [instrs, own, Function.comp_def]

/-- A label of the lowering is no label of the source program. -/
theorem label_ne_of_not_isSource {t : Tag} (ht : t.isSource = false)
    (hl : isGenerated label = false) : Instr.label t.name ≠ .label label := by
  intro h
  rw [← Instr.label.inj h, Tag.isGenerated_of_not_isSource ht] at hl
  cases hl

theorem own_label_suffix {l : String} (hs : own π ρ [.label l] ++ ks <:+ lines) :
    .label l :: instrs ks <:+ instrs lines := by
  have h := hs.map Line.instr
  simpa [own, instrs] using h

/-- Marks in front of a statement are passed over. -/
theorem along_marks {ms : List Line} (hπ : π ∈ owners) (hms : ∀ ℓ ∈ ms, ℓ.owner = π)
    (hq : ∀ i ∈ instrs ms, Quiet i) (hs : ms ++ ks <:+ lines) :
    Along w (instrs lines) (Passing lines owners label) ⟨instrs (ms ++ ks), d⟩
      ⟨instrs ks, d⟩ := by
  induction ms with
  | nil => exact .refl
  | cons ℓ ms ih =>
    have htail : ms ++ ks <:+ lines := (List.suffix_cons _ _).trans hs
    have hℓ : Quiet ℓ.instr := hq _ (List.mem_map_of_mem List.mem_cons_self)
    have hstep : step w (instrs lines) ⟨instrs (ℓ :: ms ++ ks), d⟩ =
        some ⟨instrs (ms ++ ks), d⟩ := by
      show step w (instrs lines) ⟨ℓ.instr :: instrs (ms ++ ks), d⟩ = _
      cases hi : ℓ.instr with
      | assert | assume | note =>
        rw [hi] at hℓ
        cases hℓ
        rfl
      | _ =>
        rw [hi] at hℓ
        cases hℓ
    refine .head hstep ⟨ℓ, ms ++ ks, ⟨hs, rfl⟩, ?_, ?_⟩ (ih (fun k hk =>
      hms k (List.mem_cons_of_mem _ hk)) (fun i hi => hq i (List.mem_cons_of_mem _ hi)) htail)
    · rw [hms ℓ List.mem_cons_self]
      exact hπ
    · intro hi
      rw [hi] at hℓ
      cases hℓ

/-- The jump to the finally block of a region. -/
theorem along_enter {r : Nat} {v : Int64} {τ : Path} {ρ' : List Frame}
    (hnd : (labelsOf lines).Nodup) (hn : isGenerated label = false) (hπ : π ∈ owners)
    (hτ : τ ∈ owners)
    (hs : own π ρ [.set labelVar (.int v), .goto (Tag.finalizer r).name] ++ more <:+ lines)
    (hfin : own τ ρ' [.label (Tag.finalizer r).name] ++ ks <:+ lines) :
    Along w (instrs lines) (Passing lines owners label)
      ⟨.set labelVar (.int v) :: .goto (Tag.finalizer r).name :: instrs more, d⟩
      ⟨instrs ks, d.set w labelVar (.int v)⟩ := by
  have hpass : ∀ {js : List Instr} {d : Data}, js ≠ [] →
      js <:+ [.set labelVar (.int v), .goto (Tag.finalizer r).name] →
      Passing lines owners label ⟨js ++ instrs more, d⟩ :=
    fun hne hjs => passing_own hπ hs hjs hne (by simp [Instr.set])
  refine Machine.along_set (v := .int v) rfl (hpass (List.cons_ne_nil _ _) (List.suffix_refl _)) ?_
  refine Machine.along_goto hnd (own_label_suffix hfin)
    (hpass (List.cons_ne_nil _ _) (List.suffix_cons _ _)) ?_
  exact passing_own hτ hfin (List.suffix_refl _) (List.cons_ne_nil _ _)
    (by simpa using label_ne_of_not_isSource rfl hn)

/-- What is brought back at the end of a finally block. -/
def restoring (n : Nat) : List Instr :=
  [.set Ir.exceptionVar (.ident (Slot.savedExc n).name),
    .set labelVar (.ident (Slot.savedLabel (n + 1)).name)]

theorem finallyLines_append (n : Nat) (fs : List Line) :
    finallyLines π ρ n fs ++ ks =
      own π ρ [.set (Slot.savedExc n).name .exception,
        .set (Slot.savedLabel (n + 1)).name (.ident labelVar), .set Ir.exceptionVar .null] ++
        (fs ++ (own π ρ (restoring n) ++ ks)) := by
  simp [finallyLines, restoring]

variable (label w d) in
/-- The beginning of a finally block puts the exception and the label value aside. -/
theorem along_save {n : Nat} {fs : List Line} (hπ : π ∈ owners)
    (hs : finallyLines π ρ n fs ++ ks <:+ lines) :
    ∃ d', Along w (instrs lines) (Passing lines owners label)
        ⟨instrs (finallyLines π ρ n fs ++ ks), d⟩
        ⟨instrs (fs ++ (own π ρ (restoring n) ++ ks)), d'⟩ ∧
      d'.memory.exception = none ∧
      d'.locals (Slot.savedExc n).name = .ref d.memory.exception ∧
      d'.locals (Slot.savedLabel (n + 1)).name = d.locals labelVar := by
  rw [finallyLines_append] at hs ⊢
  have hne : (Slot.savedExc n).name ≠ (Slot.savedLabel (n + 1)).name := by
    intro he
    have h : Slot.savedExc n = .savedLabel (n + 1) := Slot.name_inj trivial trivial he
    cases h
  have hne' : labelVar ≠ (Slot.savedExc n).name := by
    intro he
    have h : Slot.label = .savedExc n := Slot.name_inj trivial trivial he
    cases h
  let d₁ := d.set w (Slot.savedExc n).name (.ref d.memory.exception)
  let d₂ := d₁.set w (Slot.savedLabel (n + 1)).name (d.locals labelVar)
  have hlabel : eval w d₁ (.ident labelVar) = d.locals labelVar := by
    show d₁.get w (Slot.label).name = _
    rw [Data.get_own rfl]
    exact Data.locals_set hne' _
  have hpass : ∀ {js : List Instr} {d : Data}, js ≠ [] → js <:+ _ →
      Passing lines owners label ⟨js ++ instrs _, d⟩ :=
    fun hne hjs => passing_own hπ hs hjs hne (by simp [Instr.set])
  refine ⟨d₂.set w Ir.exceptionVar .null, ?_, rfl, ?_, ?_⟩
  · refine Machine.along_set Data.get_exception ?_ (Machine.along_set hlabel ?_
      (Machine.along_set rfl ?_ .refl))
    · exact hpass (List.cons_ne_nil _ _) (List.suffix_refl _)
    · exact hpass (List.cons_ne_nil _ _) (List.suffix_cons _ _)
    · exact hpass (List.cons_ne_nil _ _)
        ((List.suffix_cons _ _).trans (List.suffix_cons _ _))
  · show d₂.locals _ = _
    rw [Data.locals_set hne]
    exact Data.locals_set_own rfl _
  · exact Data.locals_set_own (v := .savedLabel (n + 1)) rfl _

/-- The end of a finally block brings them back. -/
theorem along_restore {n : Nat} {o : Option Machine.Object} {x : Value} (hπ : π ∈ owners)
    (hs : own π ρ (restoring n) ++ ks <:+ lines)
    (hexc : d.locals (Slot.savedExc n).name = .ref o)
    (hlab : d.locals (Slot.savedLabel (n + 1)).name = x) :
    ∃ d', Along w (instrs lines) (Passing lines owners label)
        ⟨instrs (own π ρ (restoring n) ++ ks), d⟩ ⟨instrs ks, d'⟩ ∧
      d'.memory.exception = o ∧ d'.locals labelVar = x := by
  let d₁ := d.set w Ir.exceptionVar (.ref o)
  have hexc' : eval w d (.ident (Slot.savedExc n).name) = .ref o := by
    show d.get w (Slot.savedExc n).name = _
    rw [Data.get_own rfl, hexc]
  have hlab' : eval w d₁ (.ident (Slot.savedLabel (n + 1)).name) = x := by
    show d₁.get w (Slot.savedLabel (n + 1)).name = _
    rw [Data.get_own rfl]
    exact hlab
  have hpass : ∀ {js : List Instr} {d : Data}, js ≠ [] → js <:+ restoring n →
      Passing lines owners label ⟨js ++ instrs ks, d⟩ :=
    fun hne hjs => passing_own hπ hs hjs hne (by simp [restoring, Instr.set])
  refine ⟨d₁.set w labelVar x, ?_, ?_, Data.locals_set_own (v := .label) rfl x⟩
  · refine Machine.along_set hexc' ?_ (Machine.along_set hlab' ?_ .refl)
    · exact hpass (List.cons_ne_nil _ _) (List.suffix_refl _)
    · exact hpass (List.cons_ne_nil _ _) (List.suffix_cons _ _)
  · have hne : labelVar ≠ Ir.exceptionVar := (Machine.isOwn_name (v := .label) rfl).1
    rw [Data.exception_set hne]
    rfl

/-- The tests at the end of the region lead to where the jump goes on. -/
theorem along_resume {r jumps k : Nat} {τ : Path} {ρ' : List Frame}
    (hnd : (labelsOf lines).Nodup) (hn : isGenerated label = false) (hπ : π ∈ owners)
    (hτ : τ ∈ owners) (hsize : (instrs lines).length < 2 ^ 63) (hk : k < jumps)
    (hs : resumeLines π ρ r jumps ++ ks <:+ lines)
    (hlabel : own τ ρ' [.label (Tag.resume r k).name] ++ more <:+ lines)
    (hv : d.locals labelVar = .int (Int64.ofNat k)) :
    Along w (instrs lines) (Passing lines owners label)
      ⟨instrs (resumeLines π ρ r jumps ++ ks), d⟩ ⟨instrs more, d⟩ := by
  have hnone : ∀ i ∈ resuming r jumps, i ≠ Instr.label label := by
    rintro i hi rfl
    have hmem : label ∈ labels (resuming r jumps) :=
      List.mem_filterMap.mpr ⟨_, hi, rfl⟩
    rw [resuming, labels_resumeTests] at hmem
    cases hmem
  have hresuming : resuming r jumps ++ instrs ks <:+ instrs lines := by
    have h := hs.map Line.instr
    rwa [List.map_append, resumeLines, ← instrs, instrs_own] at h
  rw [instrs_append, resumeLines, instrs_own]
  refine along_resuming_jump hnd (jumps_lt hsize hresuming) (own_label_suffix hlabel) hk hv
    (fun is hne his => ?_) ?_
  · exact passing_own hπ hs his hne hnone
  · exact passing_own hτ hlabel (List.suffix_refl _) (List.cons_ne_nil _ _)
      (by simpa using label_ne_of_not_isSource rfl hn)

/-- Where a finally block has raised, the exception goes to the handler around the region. -/
theorem along_propagate {r : Nat} {is : List Instr} {env : Env} (hnd : (labelsOf lines).Nodup)
    (hn : isGenerated label = false) (hπ : π ∈ owners)
    (hs : own π ρ [.label (Tag.behind r).name] ++ (checkLines env π ρ ++ ks) <:+ lines)
    (his : .label (Tag.behind r).name :: is <:+ instrs lines)
    (hd : d.memory.exception ≠ none) :
    ∃ ms, raise π ρ (propagation env ρ) ++ ms <:+ lines ∧
      Along w (instrs lines) (Passing lines owners label)
        ⟨.label (Tag.behind r).name :: is, d⟩
        ⟨instrs (raise π ρ (propagation env ρ) ++ ms), d⟩ := by
  have hcheck : checkLines env π ρ ++ ks <:+ lines := (List.suffix_append _ _).trans hs
  obtain rfl : is = instrs (checkLines env π ρ ++ ks) := by
    have h := Machine.landing_of_suffix hnd his
    rw [Machine.landing_of_suffix hnd (own_label_suffix hs)] at h
    simpa using h.symm
  refine ⟨own π ρ [.jump 0] ++ ks, ?_, ?_⟩
  · rw [checkLines, choice_eq] at hcheck
    simpa [own] using (List.suffix_cons _ _).trans hcheck
  · have hlabel : Passing lines owners label
        ⟨[Instr.label (Tag.behind r).name] ++ instrs (checkLines env π ρ ++ ks), d⟩ :=
      passing_own hπ hs (List.suffix_refl _) (List.cons_ne_nil _ _)
        (by simpa using label_ne_of_not_isSource rfl hn)
    have hbranch : Passing lines owners label ⟨instrs (checkLines env π ρ ++ ks), d⟩ := by
      refine ⟨_, _, ⟨hcheck, rfl⟩, hπ, fun h => ?_⟩
      cases h
    refine .head rfl hlabel (.head ?_ hbranch .refl)
    rw [checkLines, choice_eq]
    simp [step, instrs, own, Machine.holds_pending hd]

end Unwind.Lowering
