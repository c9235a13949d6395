import Unwind.Proofs.Execution
import Unwind.Proofs.Lowering.Laid

/-!
# What running code leaves alone

Regions keep what they have caught in variables, and finally blocks what they have put aside.
`held` are the variables that were in use before some code; running the code keeps them
(`Laid.sparesAll` with `step_keeps`), so that a region finds again what it has stored, whatever the
code between does.
-/

namespace Unwind.Lowering

open Source (Path Stmt)
open Machine (Config Data Instr Reaches Value World eval flatten isGenerated isOwn step)

/-! ## Variables in use -/

/-- The variables that the regions and the finally blocks before use. -/
def held (c : Counters) : Slot → Prop
  | .caught r => r < c.regions
  | .savedExc n | .savedLabel n => n < c.temps
  | _ => False

/-- These variables have the same values in `D'` as in `D`. -/
def Keeps (c : Counters) (D D' : Data) : Prop :=
  ∀ v, held c v → D'.locals v.name = D.locals v.name

section

variable {w : World} {D D' : Data} {c c' : Counters}

theorem held_mono (hr : c.regions ≤ c'.regions) (ht : c.temps ≤ c'.temps) {v : Slot}
    (hv : held c v) : held c' v := by
  cases v <;> simp only [held] at hv ⊢ <;> omega

theorem isOwn_of_held {v : Slot} (h : held c v) : isOwn v = true := by
  cases v with
  | caught | savedExc | savedLabel => rfl
  | _ => cases h

theorem Keeps.refl (c : Counters) (D : Data) : Keeps c D D := fun _ _ => rfl

theorem Keeps.trans {D₁ : Data} (h : Keeps c D D₁) (h' : Keeps c D₁ D') : Keeps c D D' :=
  fun v hv => (h' v hv).trans (h v hv)

theorem Keeps.mono (h : Keeps c' D D') (hr : c.regions ≤ c'.regions) (ht : c.temps ≤ c'.temps) :
    Keeps c D D' :=
  fun v hv => h v (held_mono hr ht hv)

/-- The same variables of the procedure. -/
theorem Keeps.of_locals_eq (h : D'.locals = D.locals) : Keeps c D D' := fun v _ => by rw [h]

/-- The name is that of no variable in use. -/
def Spares (c : Counters) (x : String) : Prop := ∀ v, held c v → v.name ≠ x

theorem Spares.mono {x : String} (h : Spares c' x) (hr : c.regions ≤ c'.regions)
    (ht : c.temps ≤ c'.temps) : Spares c x :=
  fun v hv => h v (held_mono hr ht hv)

theorem Spares.own {v : Slot} (hv : isOwn v = true) (hn : ¬ held c v) : Spares c v.name := by
  intro v' hv' he
  have := Slot.name_inj (Machine.isOwn_proper (isOwn_of_held hv')) (Machine.isOwn_proper hv) he
  exact hn (this ▸ hv')

theorem Spares.source {x : String} (hx : isGenerated x = false) : Spares c x := by
  intro v hv he
  rw [← he, (Machine.isOwn_name (isOwn_of_held hv)).2] at hx
  cases hx

theorem Spares.exception : Spares c Ir.exceptionVar :=
  fun _ hv => (Machine.isOwn_name (isOwn_of_held hv)).1

/-- Writing another variable keeps them. -/
theorem Keeps.set {x : String} (hx : Spares c x) (y : Value) : Keeps c D (D.set w x y) :=
  fun v hv => Data.locals_set (hx v hv) y

theorem Keeps.set_own {v : Slot} (hv : isOwn v = true) (hn : ¬ held c v) (y : Value) :
    Keeps c D (D.set w v.name y) := .set (.own hv hn) y

theorem Keeps.set_exception (y : Value) : Keeps c D (D.set w Ir.exceptionVar y) :=
  .set .exception y

theorem ne_exceptionVar {x : String} (hx : isGenerated x = false) : x ≠ Ir.exceptionVar := by
  rintro rfl
  exact absurd hx (by decide)

theorem Keeps.set_source {x : String} (hx : isGenerated x = false) (y : Value) :
    Keeps c D (D.set w x y) := .set (.source hx) y

/-! ## Single steps -/

/-- A step keeps the variables that its instruction does not write. -/
theorem step_keeps {prog rest : List Instr} {i : Instr} {c₁ : Config}
    (h : step w prog ⟨i :: rest, D⟩ = some c₁) (hx : ∀ x ∈ i.writes, Spares c x) :
    Keeps c D c₁.data := fun v hv =>
  Machine.step_locals h fun hmem => hx _ hmem v hv rfl

theorem reaches_quiet {prog rest is : List Instr} (h : ∀ i ∈ is, Quiet i) :
    Reaches w prog ⟨is ++ rest, D⟩ ⟨rest, D⟩ := by
  induction is with
  | nil => exact .refl
  | cons i is ih =>
    refine Machine.reaches_step ?_ (ih fun j hj => h j (List.mem_cons_of_mem _ hj))
    cases h i List.mem_cons_self <;> rfl

end

/-! ## Code -/

/-- The code writes no variable in use. -/
def SparesAll (c : Counters) (ls : List Line) : Prop :=
  ∀ ℓ ∈ ls, ∀ x ∈ ℓ.instr.writes, Spares c x

section

variable {L : Layout} {π : Path} {ρ : List Frame} {c c' : Counters} {as bs ls : List Line}

theorem sparesAll_nil : SparesAll c [] := List.forall_mem_nil _

theorem SparesAll.mono (h : SparesAll c' ls) (hr : c.regions ≤ c'.regions)
    (ht : c.temps ≤ c'.temps) : SparesAll c ls :=
  fun ℓ hℓ x hx => (h ℓ hℓ x hx).mono hr ht

theorem SparesAll.append (ha : SparesAll c as) (hb : SparesAll c bs) : SparesAll c (as ++ bs) := by
  intro ℓ hℓ
  rcases List.mem_append.mp hℓ with hℓ | hℓ
  · exact ha ℓ hℓ
  · exact hb ℓ hℓ

theorem SparesAll.own {is : List Instr} (h : ∀ i ∈ is, ∀ x ∈ i.writes, Spares c x) :
    SparesAll c (own π ρ is) := by
  intro ℓ hℓ
  obtain ⟨i, hi, rfl⟩ := List.mem_map.mp hℓ
  exact h i hi

theorem SparesAll.raise {is : List Instr} (h : ∀ i ∈ is, ∀ x ∈ i.writes, Spares c x) :
    SparesAll c (raise π ρ is) := by
  intro ℓ hℓ
  obtain ⟨i, hi, rfl⟩ := List.mem_map.mp hℓ
  exact h i hi

theorem SparesAll.choice {v : Ir.Expr} (ha : SparesAll c as) (hb : SparesAll c bs) :
    SparesAll c (choice π ρ v as bs) :=
  .append (.own (by simp [Instr.writes])) (ha.append (.append (.own (by simp [Instr.writes])) hb))

theorem spares_label : Spares c labelVar := .own (v := .label) rfl id

theorem sparesAll_propagation (env : Env) : SparesAll c (raise π ρ (propagation env ρ)) := by
  refine .raise ?_
  cases ρ with
  | nil =>
    rw [propagation]
    split <;> simp [Instr.writes]
  | cons f ρ =>
    obtain ⟨region, node, phase, place⟩ := f
    cases phase with
    | inTry | inFinally => simp [propagation, Instr.writes]
    | inCatch => simp [propagation, Instr.writes, Instr.set, spares_label]

theorem sparesAll_checkLines (env : Env) : SparesAll c (checkLines env π ρ) :=
  .choice (sparesAll_propagation env) sparesAll_nil

theorem sparesAll_raiseLines (env : Env) (v : Ir.Expr) : SparesAll c (raiseLines env π ρ v) :=
  .append (.own (by simp [Instr.writes, Instr.set, Spares.exception])) (sparesAll_propagation env)

theorem sparesAll_leaveLines (r : Nat) : SparesAll c (leaveLines π ρ r) :=
  .own (by simp [Instr.writes, Instr.set, spares_label])

theorem Writable.spares (hw : ∀ x, L.writes x → isGenerated x = false) {x : String}
    (h : Writable L x) : Spares c x := by
  cases h with
  | source h => exact .source (hw _ h)
  | result => exact .own rfl id
  | temp => exact .own rfl id

theorem Leaf.sparesAll (hw : ∀ x, L.writes x → isGenerated x = false) (h : Leaf L π ρ ls) :
    SparesAll c ls := by
  induction h with
  | nil => exact sparesAll_nil
  | cons hi _ ih =>
    refine .append (.own ?_) ih
    intro j hj
    rw [List.mem_singleton.mp hj]
    cases hi with
    | set hx => simpa [Instr.writes] using hx.spares hw
    | call hx => exact fun x hxo => (hx x hxo).spares hw
    | _ => simp [Instr.writes]
  | check _ ih => exact .append (sparesAll_checkLines _) ih
  | branch _ _ _ iha ihb ih => exact .append (.choice iha ihb) ih

theorem sparesAll_escapeLines (kept left : List Frame) (c₁ : Counters) :
    SparesAll c (escapeLines π kept left c₁) := by
  induction left generalizing c₁ with
  | nil => exact sparesAll_nil
  | cons f left ih =>
    rw [escapeLines]
    refine .append (.own ?_) (.append (.own ?_) (ih _))
    · simp [Instr.writes, Instr.set, spares_label]
    · simp [Instr.writes]

theorem writes_resumeTests {l : String} {es : List EscapingEdge} {i : Instr}
    (h : i ∈ flatten (resumeTests l es)) : i.writes = [] := by
  induction es with
  | nil =>
    obtain rfl : i = .goto l := by simpa [resumeTests, Machine.flattenCmd] using h
    rfl
  | cons e es ih =>
    simp only [resumeTests, Machine.flatten_singleton, Machine.flattenCmd, List.mem_cons,
      List.mem_append, List.not_mem_nil, or_false] at h
    rcases h with rfl | rfl | rfl | h
    · rfl
    · rfl
    · rfl
    · exact ih h

theorem sparesAll_resumeLines (r jumps : Nat) : SparesAll c (resumeLines π ρ r jumps) := by
  refine .own fun i hi => ?_
  rw [writes_resumeTests hi]
  exact List.forall_mem_nil _

theorem Guard.sparesAll {t t' : Nat} {fin : Option Stmt} {fs gs : List Line}
    (h : Guard π ρ t fin t' fs gs) (ht : c.temps ≤ t) (hf : SparesAll c fs) : SparesAll c gs := by
  cases h with
  | none => exact sparesAll_nil
  | @some _ n _ hn =>
    have hexc : Spares c (Slot.savedExc n).name := .own rfl (by simp only [held]; omega)
    have hlab : Spares c (Slot.savedLabel (n + 1)).name := .own rfl (by simp only [held]; omega)
    refine .append (.own ?_) (.append hf (.own ?_))
    · simp [Instr.writes, Instr.set, hexc, hlab, Spares.exception]
    · simp [Instr.writes, Instr.set, spares_label, Spares.exception]

/-- Code writes none of the variables that were in use before it. -/
theorem Laid.sparesAll {body : Stmt} {ts : List Tag}
    (hw : ∀ x, L.writes x → isGenerated x = false) (h : Laid L body ρ c ls ts c') :
    SparesAll c ls := by
  induction h with
  | nil => exact sparesAll_nil
  | leaf _ hl => exact hl.sparesAll hw
  | seq ha _ iha ihb => exact iha.append (ihb.mono ha.regions_le ha.temps_le)
  | choice _ ha _ iha ihb => exact .choice iha (ihb.mono ha.regions_le ha.temps_le)
  | choiceBack _ hb _ ihb iha => exact .choice (iha.mono hb.regions_le hb.temps_le) ihb
  | mark => exact .own (by simp [Instr.writes])
  | jump _ _ hms =>
    refine .append (hms.sparesAll hw) (.append (sparesAll_escapeLines _ _ _) (.own ?_))
    simp [Instr.writes]
  | leave => exact sparesAll_leaveLines _
  | raise => exact sparesAll_raiseLines _ _
  | @region id _ _ _ _ π ρ c c₁ c₂ c₃ t bs as fs gs ts us vs _ _ _ hb ha hf hg _ ihb iha ihf =>
    have hr₁ := hb.regions_le
    have ht₁ := hb.temps_le
    have hr₂ := ha.regions_le
    have ht₂ := ha.temps_le
    have ht := hg.le
    simp only at hr₁ ht₁
    have hcaught : Spares c (Slot.caught c.regions).name := .own rfl (Nat.lt_irrefl _)
    have hfs : SparesAll c fs := ihf.mono (by simp only; omega) (by simp only; omega)
    have hhead : SparesAll c (takeLines π ⟨c.regions, id, .inCatch, π⟩ ρ) := by
      refine .append (.raise ?_) (.own ?_)
      · simp [Instr.writes, Instr.set, hcaught]
      · simp [Instr.writes, Instr.set, Spares.exception]
    have hmark : ∀ l, SparesAll c (Lowering.own π ρ [.label l]) :=
      fun l => .own (by simp [Instr.writes])
    refine .append (ihb.mono (Nat.le_succ _) (Nat.le_refl _)) ?_
    refine .append (sparesAll_leaveLines _) (hhead.append ?_)
    refine .append (iha.mono (by omega) (by omega)) (.append (sparesAll_raiseLines _ _) ?_)
    refine .append (hmark _) (.append (hg.sparesAll (by omega) hfs) ?_)
    exact .append (sparesAll_resumeLines _ _) (.append (hmark _) (sparesAll_checkLines _))

end

end Unwind.Lowering
