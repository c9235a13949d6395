import Unwind.Proofs.Lowering.Laid

/-!
# Labels of lowered code

* `Laid.count_labels`: the labels that stand in the code are the ones that `Laid` lists.
* `Laid.count_tags`: the code holds a generated label exactly when it was given out meanwhile, and
  then once.
* `Laid.target`: every jump leads to a label inside the code, or out of it by one of the ways that
  the frames around it provide, or it is the jump of a `goto` statement.
-/

namespace Unwind.Lowering

open Source (Path Stmt)
open Machine (Instr flatten labels)

variable {L : Layout} {body : Stmt} {π : Path} {ρ : List Frame}

/-! ## Lines -/

theorem mem_own {ℓ : Line} {is : List Instr} :
    ℓ ∈ own π ρ is ↔ ∃ i ∈ is, ℓ = ⟨i, π, ρ, false⟩ := by
  simp only [own, List.mem_map, eq_comm]

theorem mem_raise {ℓ : Line} {is : List Instr} :
    ℓ ∈ raise π ρ is ↔ ∃ i ∈ is, ℓ = ⟨i, π, ρ, true⟩ := by
  simp only [raise, List.mem_map, eq_comm]

theorem mem_choice {ℓ : Line} {v : Ir.Expr} {as bs : List Line} :
    ℓ ∈ choice π ρ v as bs ↔ ℓ = ⟨.branchUnless v (as.length + 1), π, ρ, false⟩ ∨ ℓ ∈ as ∨
      ℓ = ⟨.jump bs.length, π, ρ, false⟩ ∨ ℓ ∈ bs := by
  simp [choice, mem_own]

theorem mem_regionLines {env : Env} {r jumps : Nat} {node : UInt32} {bs as gs : List Line}
    {ℓ : Line} :
    ℓ ∈ regionLines env π ρ r node bs as gs jumps ↔
      ℓ ∈ bs ∨ ℓ ∈ leaveLines π (⟨r, node, .inTry, π⟩ :: ρ) r ∨
        ℓ ∈ takeLines π ⟨r, node, .inCatch, π⟩ ρ ∨ ℓ ∈ as ∨
        ℓ ∈ raiseLines env π (⟨r, node, .inCatch, π⟩ :: ρ) (.ident (Slot.caught r).name) ∨
        ℓ ∈ own π ρ [.label (Tag.finalizer r).name] ∨ ℓ ∈ gs ∨
        ℓ ∈ resumeLines π ρ r jumps ∨ ℓ ∈ own π ρ [.label (Tag.behind r).name] ∨
        ℓ ∈ checkLines env π ρ := by
  simp only [regionLines, List.mem_append]

/-- The labels that stand in code, in order. -/
def labelsOf (ls : List Line) : List String := labels (instrs ls)

@[simp]
theorem labelsOf_nil : labelsOf [] = [] := rfl

@[simp]
theorem labelsOf_append (as bs : List Line) : labelsOf (as ++ bs) = labelsOf as ++ labelsOf bs := by
  rw [labelsOf, instrs_append, Machine.labels_append]
  rfl

@[simp]
theorem labelsOf_own (is : List Instr) : labelsOf (own π ρ is) = labels is := by
  rw [labelsOf, instrs_own]

@[simp]
theorem labelsOf_raise (is : List Instr) : labelsOf (raise π ρ is) = labels is := by
  rw [labelsOf, instrs_raise]

@[simp]
theorem labelsOf_choice (v : Ir.Expr) (as bs : List Line) :
    labelsOf (choice π ρ v as bs) = labelsOf as ++ labelsOf bs := by
  simp [choice, Instr.label?]

@[simp]
theorem labels_propagation (env : Env) (ρ : List Frame) : labels (propagation env ρ) = [] := by
  cases ρ with
  | nil =>
    rw [propagation]
    split <;> rfl
  | cons f ρ =>
    obtain ⟨region, node, phase, place⟩ := f
    cases phase <;> rfl

@[simp]
theorem labelsOf_checkLines (env : Env) : labelsOf (checkLines env π ρ) = [] := by
  simp [checkLines]

@[simp]
theorem labelsOf_raiseLines (env : Env) (v : Ir.Expr) : labelsOf (raiseLines env π ρ v) = [] := by
  simp [raiseLines, Instr.set, Instr.label?]

@[simp]
theorem labelsOf_leaveLines (region : Nat) : labelsOf (leaveLines π ρ region) = [] := by
  simp [leaveLines, Instr.set, Instr.label?]

theorem labels_resumeTests (l : String) (es : List EscapingEdge) :
    labels (flatten (resumeTests l es)) = [] := by
  induction es with
  | nil => rfl
  | cons e es ih =>
    rw [resumeTests, Machine.flatten_singleton, Machine.flattenCmd]
    simpa [Instr.label?, Machine.flattenCmd] using ih

@[simp]
theorem labelsOf_resumeLines (region jumps : Nat) :
    labelsOf (resumeLines π ρ region jumps) = [] := by
  rw [resumeLines, labelsOf_own, labels_resumeTests]

theorem Leaf.labelsOf {ls : List Line} (h : Leaf L π ρ ls) : labelsOf ls = [] := by
  induction h with
  | nil => rfl
  | cons hi _ ih =>
    rw [labelsOf_append, ih, labelsOf_own, List.append_nil]
    cases hi <;> rfl
  | check _ ih => rw [labelsOf_append, labelsOf_checkLines, ih, List.nil_append]
  | branch _ _ _ iha ihb ih => rw [labelsOf_append, labelsOf_choice, iha, ihb, ih]; rfl

theorem labelsOf_escapeLines (kept left : List Frame) (c : Counters) :
    labelsOf (escapeLines π kept left c) = (resumes left c).map Tag.name := by
  induction left generalizing c with
  | nil => rfl
  | cons f left ih =>
    rw [escapeLines, labelsOf_append, labelsOf_append, labelsOf_own, labelsOf_own, ih, resumes,
      List.map_cons]
    rfl

theorem Guard.labelsOf {t t' : Nat} {fin : Option Stmt} {fs gs : List Line}
    (h : Guard π ρ t fin t' fs gs) : labelsOf gs = labelsOf fs := by
  cases h with
  | none => rfl
  | some =>
    simp [finallyLines, Instr.set, Instr.label?]

/-- The labels in the code are the ones that are listed, each as often. -/
theorem Laid.count_labels {c c' : Counters} {ls : List Line} {ts : List Tag}
    (h : Laid L body ρ c ls ts c') (l : String) :
    (labelsOf ls).count l = (ts.map Tag.name).count l := by
  induction h with
  | nil => rfl
  | leaf _ h => rw [h.labelsOf]; rfl
  | seq _ _ iha ihb | choice _ _ _ iha ihb =>
    simp only [labelsOf_append, labelsOf_choice, List.map_append, List.count_append, iha, ihb]
  | choiceBack _ _ _ ihb iha =>
    rw [labelsOf_choice, List.map_append, List.count_append, List.count_append, iha, ihb,
      Nat.add_comm]
  | mark => rw [labelsOf_own]; rfl
  | jump _ _ hms =>
    rw [labelsOf_append, labelsOf_append, hms.labelsOf, labelsOf_escapeLines, labelsOf_own]
    simp [Instr.label?]
  | leave => rw [labelsOf_leaveLines]; rfl
  | raise => rw [labelsOf_raiseLines]; rfl
  | region _ _ _ _ _ _ hg _ ihb iha ihf =>
    simp only [regionLines, takeLines, labelsOf_append, labelsOf_own, labelsOf_raise,
      labelsOf_leaveLines, labelsOf_raiseLines, labelsOf_resumeLines, labelsOf_checkLines,
      hg.labelsOf, List.map_append, List.map_cons, List.map_nil, List.count_append, ihb, iha, ihf]
    simp only [Machine.labels_cons, Instr.label?, Instr.set, Option.toList, Machine.labels_nil,
      List.count_cons, List.count_nil, List.append_nil]
    omega

/-! ## Labels that were given out -/

/-- The generated labels that were given out so far. -/
def Counters.has (c : Counters) : Tag → Bool
  | .source _ => false
  | .catches region | .finalizer region | .behind region => decide (region < c.regions)
  | .resume region k => decide (k < c.escapes region)

@[simp]
theorem Counters.has_temps (c : Counters) (n : Nat) : { c with temps := n }.has = c.has := by
  funext t
  cases t <;> rfl

theorem Counters.has_enter (c : Counters) (t : Tag) :
    ({ c with regions := c.regions + 1 }.has t).toNat =
      [Tag.catches c.regions, .finalizer c.regions, .behind c.regions].count t +
        (c.has t).toNat := by
  cases t with
  | source | resume => simp [has]
  | catches r | finalizer r | behind r =>
    simp only [has, List.count_cons, List.count_nil, beq_iff_eq, Tag.catches.injEq,
      Tag.finalizer.injEq, Tag.behind.injEq, reduceCtorEq, if_false, Nat.add_zero, Nat.zero_add]
    rcases Nat.lt_trichotomy r c.regions with hlt | rfl | hgt
    · simp [hlt, Nat.lt_succ_of_lt hlt, (Nat.ne_of_lt hlt).symm]
    · simp
    · have h₁ : ¬ r < c.regions + 1 := by omega
      have h₂ : ¬ r < c.regions := by omega
      simp [h₁, h₂, Nat.ne_of_lt hgt]

theorem Counters.has_escape (c : Counters) (r : Nat) (t : Tag) :
    ((c.escape r).has t).toNat = [Tag.resume r (c.escapes r)].count t + (c.has t).toNat := by
  cases t with
  | source | catches | finalizer | behind =>
    rw [List.count_cons_of_ne (by simp), List.count_nil, Nat.zero_add]
    rfl
  | resume r' k =>
    simp only [has, escape, Function.update_apply, List.count_cons, List.count_nil, beq_iff_eq,
      Tag.resume.injEq, Nat.zero_add]
    by_cases hr : r' = r
    · subst hr
      rcases Nat.lt_trichotomy k (c.escapes r') with hlt | rfl | hgt
      · simp [hlt, Nat.lt_succ_of_lt hlt, (Nat.ne_of_lt hlt).symm]
      · simp
      · have h₁ : ¬ k < c.escapes r' + 1 := by omega
        have h₂ : ¬ k < c.escapes r' := by omega
        simp [h₁, h₂, Nat.ne_of_lt hgt]
    · rw [if_neg hr, if_neg (fun h => hr h.1.symm), Nat.zero_add]

theorem count_resumes (left : List Frame) (c : Counters) (t : Tag) :
    (resumes left c).count t + (c.has t).toNat = ((c.escapeAll left).has t).toNat := by
  induction left generalizing c with
  | nil => simp [resumes, Counters.escapeAll]
  | cons f left ih =>
    rw [Counters.escapeAll, ← ih, Counters.has_escape, resumes, List.count_cons, List.count_cons,
      List.count_nil]
    omega

/-- A generated label stands in the code when it was given out between its ends, and then once. -/
theorem Laid.count_tags {c c' : Counters} {ls : List Line} {ts : List Tag}
    (h : Laid L body ρ c ls ts c') {t : Tag} (ht : t.isSource = false) :
    ts.count t + (c.has t).toNat = (c'.has t).toNat := by
  induction h with
  | nil | leaf | leave | raise => rw [List.count_nil, Nat.zero_add]
  | seq _ _ iha ihb | choice _ _ _ iha ihb | choiceBack _ _ _ iha ihb =>
    rw [List.count_append]
    omega
  | mark =>
    rw [List.count_cons_of_ne, List.count_nil, Nat.zero_add]
    rintro rfl
    cases ht
  | jump => exact count_resumes _ _ t
  | region _ _ _ _ _ _ _ _ ihb iha ihf =>
    rw [Counters.has_enter] at ihb
    rw [Counters.has_temps] at ihf
    rw [List.count_append, List.count_append, List.count_append]
    omega

/-! ## Targets of jumps -/

/-- What is known at the line is enough for a place between the frames `ρ`, where an exception is
pending or need not be. -/
def Line.Leads (ℓ : Line) (ρ : List Frame) (raising : Bool) : Prop :=
  (∀ f ∈ ρ, f.phase = .inCatch → f ∈ ℓ.frames) ∧ (raising = true → ℓ.raising = true)

/-- A jump to the finally block of a region around the code, which it leaves. -/
inductive Exit (ℓ : Line) : List Frame → String → Prop where
  | here {f : Frame} {ρ : List Frame} :
      f.phase ≠ .inFinally → ℓ.Leads ρ false → Exit ℓ (f :: ρ) (Tag.finalizer f.region).name
  | outer {f : Frame} {ρ : List Frame} {l : String} :
      f.phase ≠ .inFinally → Exit ℓ ρ l → Exit ℓ (f :: ρ) l

/-- A jump out of the code, to a place that the frames around it provide. -/
inductive Outlet (ℓ : Line) : List Frame → String → Prop where
  | catches {f : Frame} {ρ : List Frame} :
      f.phase = .inTry → ℓ.Leads ρ true → Outlet ℓ (f :: ρ) (Tag.catches f.region).name
  | behind {f : Frame} {ρ : List Frame} :
      f.phase = .inFinally → ℓ.raising = true → ℓ.Leads ρ false →
      Outlet ℓ (f :: ρ) (Tag.behind f.region).name
  | exit {ρ : List Frame} {l : String} : Exit ℓ ρ l → Outlet ℓ ρ l

/-- The label stands in the code, at a place for which enough is known at the line. -/
def Lands (ls : List Line) (ℓ : Line) (l : String) : Prop :=
  ∃ k ∈ ls, k.instr = .label l ∧ ℓ.Leads k.frames k.raising

/-- The line is the jump of a `goto` statement that stands between the frames `ρ` and maybe
more. -/
def Jumps (L : Layout) (body : Stmt) (ρ : List Frame) (ℓ : Line) (l : String) : Prop :=
  gotoAt? body ℓ.owner = some l ∧ ∃ ρ' left, ρ <:+ ρ' ∧ Framed body ℓ.owner ρ' ∧
    Splits L.scopes l ρ' left ℓ.frames

theorem Lands.mono {as bs : List Line} {ℓ : Line} {l : String} (h : Lands as ℓ l)
    (hsub : ∀ k ∈ as, k ∈ bs) : Lands bs ℓ l := by
  obtain ⟨k, hk, hl, hle⟩ := h
  exact ⟨k, hsub k hk, hl, hle⟩

theorem Jumps.mono {ρ' : List Frame} {ℓ : Line} {l : String} (h : Jumps L body ρ' ℓ l)
    (hs : ρ <:+ ρ') : Jumps L body ρ ℓ l := by
  obtain ⟨hg, ρ'', left, hs', h⟩ := h
  exact ⟨hg, ρ'', left, hs.trans hs', h⟩

/-- A line leads to every place further out. -/
theorem Line.leads_of_suffix {i : Instr} {fs : List Frame} {raising needed : Bool}
    (h : ∀ f ∈ ρ, f ∈ fs) (hr : needed = true → raising = true) :
    (Line.mk i π fs raising).Leads ρ needed :=
  ⟨fun f hf _ => h f hf, hr⟩

/-- Propagation leads to the handler. -/
theorem outlet_propagation {env : Env} {ℓ : Line} {l : String}
    (hℓ : ℓ ∈ raise π ρ (propagation env ρ)) (hg : ℓ.instr = .goto l) : Outlet ℓ ρ l := by
  obtain ⟨i, hi, rfl⟩ := mem_raise.mp hℓ
  simp only at hg
  subst hg
  cases ρ with
  | nil =>
    rw [propagation] at hi
    split at hi <;> simp at hi
  | cons f ρ =>
    have hsub : ∀ g ∈ ρ, g ∈ f :: ρ := fun g hg => List.mem_cons_of_mem _ hg
    obtain ⟨region, node, phase, place⟩ := f
    cases phase with
    | inTry =>
      obtain rfl : l = _ := by simpa [propagation] using hi
      exact .catches rfl (Line.leads_of_suffix hsub fun _ => rfl)
    | inCatch =>
      obtain rfl : l = _ := by simpa [propagation, Instr.set] using hi
      exact .exit (.here (by simp) (Line.leads_of_suffix hsub (by simp)))
    | inFinally =>
      obtain rfl : l = _ := by simpa [propagation] using hi
      exact .behind rfl rfl (Line.leads_of_suffix hsub (by simp))

theorem outlet_checkLines {env : Env} {ℓ : Line} {l : String} (hℓ : ℓ ∈ checkLines env π ρ)
    (hg : ℓ.instr = .goto l) : Outlet ℓ ρ l := by
  rw [checkLines, mem_choice] at hℓ
  rcases hℓ with rfl | hℓ | rfl | hℓ
  · cases hg
  · exact outlet_propagation hℓ hg
  · cases hg
  · cases hℓ

theorem outlet_raiseLines {env : Env} {v : Ir.Expr} {ℓ : Line} {l : String}
    (hℓ : ℓ ∈ raiseLines env π ρ v) (hg : ℓ.instr = .goto l) : Outlet ℓ ρ l := by
  rcases List.mem_append.mp hℓ with hℓ | hℓ
  · obtain ⟨i, hi, rfl⟩ := mem_own.mp hℓ
    rw [List.mem_singleton.mp hi] at hg
    cases hg
  · exact outlet_propagation hℓ hg

theorem outlet_leaveLines {f : Frame} (hf : f.phase ≠ .inFinally) {ℓ : Line} {l : String}
    (hℓ : ℓ ∈ leaveLines π (f :: ρ) f.region) (hg : ℓ.instr = .goto l) : Outlet ℓ (f :: ρ) l := by
  obtain ⟨i, hi, rfl⟩ := mem_own.mp hℓ
  rcases List.mem_cons.mp hi with rfl | hi
  · cases hg
  · rw [List.mem_singleton.mp hi] at hg
    cases hg
    exact .exit (.here hf
      (Line.leads_of_suffix (fun g hm => List.mem_cons_of_mem _ hm) (by simp)))

theorem Leaf.target {ls : List Line} (h : Leaf L π ρ ls) {ℓ : Line} (hℓ : ℓ ∈ ls) {l : String}
    (hg : ℓ.instr = .goto l) : Outlet ℓ ρ l := by
  induction h with
  | nil => cases hℓ
  | cons hi _ ih =>
    rcases List.mem_append.mp hℓ with hℓ | hℓ
    · obtain ⟨j, hj, rfl⟩ := mem_own.mp hℓ
      rw [List.mem_singleton.mp hj] at hg
      simp only at hg
      subst hg
      cases hi
    · exact ih hℓ
  | check _ ih =>
    rcases List.mem_append.mp hℓ with hℓ | hℓ
    · exact outlet_checkLines hℓ hg
    · exact ih hℓ
  | branch _ _ _ iha ihb ih =>
    rw [List.mem_append, mem_choice] at hℓ
    rcases hℓ with (rfl | hℓ | rfl | hℓ) | hℓ
    · cases hg
    · exact iha hℓ
    · cases hg
    · exact ihb hℓ
    · exact ih hℓ

/-- The jumps of an escape lead to the finally blocks of the regions left. -/
theorem exit_escapeLines {kept left : List Frame} (hleft : ∀ f ∈ left, f.phase ≠ .inFinally)
    {c : Counters} {ℓ : Line} (hℓ : ℓ ∈ escapeLines π kept left c) {l : String}
    (hg : ℓ.instr = .goto l) : Exit ℓ (left ++ kept) l := by
  induction left generalizing c with
  | nil => cases hℓ
  | cons f left ih =>
    have hf := hleft f List.mem_cons_self
    simp only [escapeLines, List.mem_append, mem_own, List.mem_cons, List.not_mem_nil,
      or_false] at hℓ
    rcases hℓ with ⟨i, rfl | rfl, rfl⟩ | ⟨i, rfl, rfl⟩ | hℓ
    · cases hg
    · cases hg
      exact .here hf (Line.leads_of_suffix (fun g hm => List.mem_cons_of_mem _ hm) (by simp))
    · cases hg
    · exact .outer hf (ih (fun g hm => hleft g (List.mem_cons_of_mem _ hm)) hℓ)

/-- The finally block of a statement, with what is around it. -/
theorem Guard.mem {t t' : Nat} {fin : Option Stmt} {fs gs : List Line}
    (h : Guard π ρ t fin t' fs gs) {ℓ : Line} : ℓ ∈ gs → ℓ ∈ fs ∨ ∃ x e, ℓ = ⟨.set x e, π, ρ, false⟩ := by
  cases h with
  | none => exact fun h => .inl h
  | some =>
    intro hℓ
    simp only [finallyLines, List.mem_append, mem_own, List.mem_cons, List.not_mem_nil,
      or_false] at hℓ
    rcases hℓ with ⟨i, rfl | rfl | rfl, rfl⟩ | hℓ | ⟨i, rfl | rfl, rfl⟩
    · exact .inr ⟨_, _, rfl⟩
    · exact .inr ⟨_, _, rfl⟩
    · exact .inr ⟨_, _, rfl⟩
    · exact .inl hℓ
    · exact .inr ⟨_, _, rfl⟩
    · exact .inr ⟨_, _, rfl⟩

theorem Guard.mem_of_mem {t t' : Nat} {fin : Option Stmt} {fs gs : List Line}
    (h : Guard π ρ t fin t' fs gs) {ℓ : Line} (hℓ : ℓ ∈ fs) : ℓ ∈ gs := by
  cases h with
  | none => exact hℓ
  | some => simp [finallyLines, hℓ]

/-- The jumps behind a finally block. -/
theorem goto_resumeTests {l k : String} {es : List EscapingEdge}
    (h : .goto l ∈ flatten (resumeTests k es)) : l = k ∨ ∃ e ∈ es, l = e.resume := by
  induction es with
  | nil =>
    obtain rfl : l = k := by simpa [resumeTests, Machine.flattenCmd] using h
    exact .inl rfl
  | cons e es ih =>
    have h' : .goto l ∈ flatten [.goto e.resume] ∨ .goto l ∈ flatten (resumeTests k es) := by
      simpa [resumeTests, Machine.flattenCmd] using h
    rcases h' with h' | h'
    · obtain rfl : l = e.resume := by simpa [Machine.flattenCmd] using h'
      exact .inr ⟨e, List.mem_cons_self, rfl⟩
    · rcases ih h' with rfl | ⟨e', he', rfl⟩
      · exact .inl rfl
      · exact .inr ⟨e', List.mem_cons_of_mem _ he', rfl⟩

/-- A jump that leaves a region goes on between the frames around the region. -/
theorem resume_mem_escapeLines {kept left : List Frame} {c : Counters}
    (ho : (left ++ kept).Pairwise fun f g => g.region < f.region) {f : Frame} {ρ' : List Frame}
    (hs : f :: ρ' <:+ left ++ kept) {k : Nat} (hk : c.escapes f.region ≤ k)
    (hk' : k < (c.escapeAll left).escapes f.region) :
    ∃ ℓ ∈ escapeLines π kept left c,
      ℓ.instr = .label (Tag.resume f.region k).name ∧ ℓ.frames = ρ' ∧ ℓ.raising = false := by
  induction left generalizing c with
  | nil => exact absurd hk' (Nat.not_lt.mpr hk)
  | cons g left ih =>
    rw [List.cons_append, List.pairwise_cons] at ho
    rw [escapeLines]
    rcases List.suffix_cons_iff.mp hs with heq | hs'
    · obtain ⟨rfl, rfl⟩ := List.cons.inj heq
      have hrest : ((c.escape f.region).escapeAll left).escapes f.region = c.escapes f.region + 1 := by
        rw [Counters.escapeAll_escapes_of_notMem, Counters.escapes_escape_self]
        exact fun h hh => Nat.ne_of_lt (ho.1 h (List.mem_append_left _ hh))
      rw [Counters.escapeAll, hrest] at hk'
      obtain rfl : k = c.escapes f.region := by omega
      refine ⟨⟨_, π, left ++ kept, false⟩, ?_, rfl, rfl, rfl⟩
      simp [own]
    · have hlt : f.region < g.region := ho.1 f (hs'.subset List.mem_cons_self)
      have hne : f.region ≠ g.region := Nat.ne_of_lt hlt
      rw [← Counters.escapes_escape_of_ne hne] at hk
      obtain ⟨ℓ, hℓ, h⟩ := ih ho.2 hs' hk hk'
      exact ⟨ℓ, List.mem_append_right _ (List.mem_append_right _ hℓ), h⟩

theorem Laid.resume_mem {c c' : Counters} {ls : List Line} {ts : List Tag}
    (h : Laid L body ρ c ls ts c') (ho : Ordered ρ c) {f : Frame} {ρ' : List Frame}
    (hs : f :: ρ' <:+ ρ) {k : Nat} (hk : c.escapes f.region ≤ k)
    (hk' : k < c'.escapes f.region) :
    ∃ ℓ ∈ ls, ℓ.instr = .label (Tag.resume f.region k).name ∧ ℓ.frames = ρ' ∧
      ℓ.raising = false := by
  induction h with
  | nil | leaf | mark | leave | raise => exact absurd hk' (Nat.not_lt.mpr hk)
  | @seq _ _ c₁ _ _ _ _ _ ha _ iha ihb =>
    rcases Nat.lt_or_ge k (c₁.escapes f.region) with h₁ | h₁
    · obtain ⟨ℓ, hℓ, h⟩ := iha ho hs hk h₁
      exact ⟨ℓ, List.mem_append_left _ hℓ, h⟩
    · obtain ⟨ℓ, hℓ, h⟩ := ihb (ho.mono ha.regions_le) hs h₁ hk'
      exact ⟨ℓ, List.mem_append_right _ hℓ, h⟩
  | @choice _ _ _ c₁ _ _ _ _ _ _ _ ha _ iha ihb =>
    rcases Nat.lt_or_ge k (c₁.escapes f.region) with h₁ | h₁
    · obtain ⟨ℓ, hℓ, h⟩ := iha ho hs hk h₁
      exact ⟨ℓ, mem_choice.mpr (.inr (.inl hℓ)), h⟩
    · obtain ⟨ℓ, hℓ, h⟩ := ihb (ho.mono ha.regions_le) hs h₁ hk'
      exact ⟨ℓ, mem_choice.mpr (.inr (.inr (.inr hℓ))), h⟩
  | @choiceBack _ _ _ c₁ _ _ _ _ _ _ _ hb _ ihb iha =>
    rcases Nat.lt_or_ge k (c₁.escapes f.region) with h₁ | h₁
    · obtain ⟨ℓ, hℓ, h⟩ := ihb ho hs hk h₁
      exact ⟨ℓ, mem_choice.mpr (.inr (.inr (.inr hℓ))), h⟩
    · obtain ⟨ℓ, hℓ, h⟩ := iha (ho.mono hb.regions_le) hs h₁ hk'
      exact ⟨ℓ, mem_choice.mpr (.inr (.inl hℓ)), h⟩
  | jump _ _ _ _ hsp =>
    rw [hsp.eq] at ho hs
    obtain ⟨ℓ, hℓ, h⟩ := resume_mem_escapeLines ho.pairwise hs hk hk'
    exact ⟨ℓ, List.mem_append_right _ (List.mem_append_left _ hℓ), h⟩
  | @region _ _ _ _ _ _ _ _ c₁ c₂ _ _ _ _ _ _ _ _ _ _ _ _ hb ha _ hg _ ihb iha ihf =>
    obtain ⟨hob, hoa, hof⟩ := ho.region hb ha
    rcases Nat.lt_or_ge k (c₁.escapes f.region) with h₁ | h₁
    · obtain ⟨ℓ, hℓ, h⟩ := ihb hob (hs.trans (List.suffix_cons _ _)) hk h₁
      exact ⟨ℓ, mem_regionLines.mpr (.inl hℓ), h⟩
    rcases Nat.lt_or_ge k (c₂.escapes f.region) with h₂ | h₂
    · obtain ⟨ℓ, hℓ, h⟩ := iha hoa (hs.trans (List.suffix_cons _ _)) h₁ h₂
      exact ⟨ℓ, mem_regionLines.mpr (by simp only [hℓ, true_or, or_true]), h⟩
    · obtain ⟨ℓ, hℓ, h⟩ := ihf (hof _) (hs.trans (List.suffix_cons _ _)) h₂ hk'
      exact ⟨ℓ, mem_regionLines.mpr (by simp only [hg.mem_of_mem hℓ, true_or, or_true]), h⟩

section

variable {id : UInt32} {fin : Option Stmt} {c c₁ c₂ c₃ : Counters} {t : Nat} {bs as fs gs : List Line}
  {ts us vs : List Tag} {ℓ : Line} {l : String}

/-- Every jump out of a region has its label inside the region. -/
theorem resume_mem_region (hfresh : c.escapes c.regions = 0) (ho : Ordered ρ c)
    (hb : Laid L body (⟨c.regions, id, .inTry, π⟩ :: ρ) { c with regions := c.regions + 1 } bs ts
      c₁)
    (ha : Laid L body (⟨c.regions, id, .inCatch, π⟩ :: ρ) c₁ as us c₂)
    (hf : Laid L body (⟨c.regions, id, .inFinally, π⟩ :: ρ) { c₂ with temps := t } fs vs c₃)
    (hg : Guard π (⟨c.regions, id, .inFinally, π⟩ :: ρ) c₂.temps fin t fs gs) {k : Nat}
    (hk : k < c₃.escapes c.regions) (env : Env) (n : Nat) :
    ∃ ℓ ∈ regionLines env π ρ c.regions id bs as gs n,
      ℓ.instr = .label (Tag.resume c.regions k).name ∧ ℓ.frames = ρ ∧ ℓ.raising = false := by
  obtain ⟨hob, hoa, hof⟩ := ho.region hb ha
  rcases Nat.lt_or_ge k (c₁.escapes c.regions) with h₁ | h₁
  · have hk₀ : c.escapes c.regions ≤ k := by omega
    obtain ⟨ℓ, hℓ, h⟩ := hb.resume_mem hob (List.suffix_refl _) hk₀ h₁
    exact ⟨ℓ, mem_regionLines.mpr (.inl hℓ), h⟩
  rcases Nat.lt_or_ge k (c₂.escapes c.regions) with h₂ | h₂
  · obtain ⟨ℓ, hℓ, h⟩ := ha.resume_mem hoa (List.suffix_refl _) h₁ h₂
    exact ⟨ℓ, mem_regionLines.mpr (by simp only [hℓ, true_or, or_true]), h⟩
  · obtain ⟨ℓ, hℓ, h⟩ := hf.resume_mem (hof _) (List.suffix_refl _) h₂ hk
    exact ⟨ℓ, mem_regionLines.mpr (by simp only [hg.mem_of_mem hℓ, true_or, or_true]), h⟩

/-- A jump out of a part of a region leads to a label of the region, or out of the region. -/
theorem outlet_region {f : Frame} {env : Env} {n : Nat} (h : Outlet ℓ (f :: ρ) l) :
    Lands (regionLines env π ρ f.region id bs as gs n) ℓ l ∨ Outlet ℓ ρ l := by
  cases h with
  | catches _ hl =>
    refine .inl ⟨⟨.label _, π, ρ, true⟩, mem_regionLines.mpr (.inr (.inr (.inl ?_))), rfl, hl⟩
    simp [takeLines, mem_raise]
  | behind _ _ hl =>
    refine .inl ⟨⟨.label _, π, ρ, false⟩, mem_regionLines.mpr ?_, rfl, hl⟩
    simp [mem_own]
  | exit h =>
    cases h with
    | here _ hl =>
      refine .inl ⟨⟨.label _, π, ρ, false⟩, mem_regionLines.mpr ?_, rfl, hl⟩
      simp [mem_own]
    | outer _ h => exact .inr (.exit h)

/-- So does a jump in a part of a region that does not lead to a label of the part, unless it is
that of a `goto` statement. -/
theorem target_part {f : Frame} {ks : List Line} {env : Env} {n : Nat}
    (hsub : ∀ k ∈ ks, k ∈ regionLines env π ρ f.region id bs as gs n)
    (h : Lands ks ℓ l ∨ Outlet ℓ (f :: ρ) l ∨ Jumps L body (f :: ρ) ℓ l) :
    Lands (regionLines env π ρ f.region id bs as gs n) ℓ l ∨ Outlet ℓ ρ l ∨ Jumps L body ρ ℓ l := by
  rcases h with h | h | h
  · exact .inl (h.mono hsub)
  · exact (outlet_region h).imp_right .inl
  · exact .inr (.inr (h.mono (List.suffix_cons _ _)))

/-- Behind the finally block the jump under way is resumed inside the region, or none is and
control goes behind the region. -/
theorem lands_of_mem_resumeLines (hfresh : c.escapes c.regions = 0) (ho : Ordered ρ c)
    (hb : Laid L body (⟨c.regions, id, .inTry, π⟩ :: ρ) { c with regions := c.regions + 1 } bs ts
      c₁)
    (ha : Laid L body (⟨c.regions, id, .inCatch, π⟩ :: ρ) c₁ as us c₂)
    (hf : Laid L body (⟨c.regions, id, .inFinally, π⟩ :: ρ) { c₂ with temps := t } fs vs c₃)
    (hg : Guard π (⟨c.regions, id, .inFinally, π⟩ :: ρ) c₂.temps fin t fs gs) {env : Env} {n : Nat}
    (hℓ : ℓ ∈ resumeLines π ρ c.regions (c₃.escapes c.regions)) (hl : ℓ.instr = .goto l) :
    Lands (regionLines env π ρ c.regions id bs as gs n) ℓ l := by
  obtain ⟨i, hi, rfl⟩ := mem_own.mp hℓ
  simp only at hl
  subst hl
  rcases goto_resumeTests hi with rfl | ⟨e, he, rfl⟩
  · refine ⟨⟨.label _, π, ρ, false⟩, mem_regionLines.mpr ?_, rfl,
      Line.leads_of_suffix (fun _ h => h) (by simp)⟩
    simp [mem_own]
  · obtain ⟨k, hk, rfl⟩ := List.mem_map.mp he
    obtain ⟨m, hm, hinstr, hframes, hraising⟩ :=
      resume_mem_region hfresh ho hb ha hf hg (List.mem_range.mp hk) env n
    refine ⟨m, hm, hinstr, ?_⟩
    rw [hframes, hraising]
    exact Line.leads_of_suffix (fun _ h => h) (by simp)

end

/-- Every jump leads to a label in the code, or out of it as the frames allow, or it is the jump of
a `goto` statement. -/
theorem Laid.target {c c' : Counters} {ls : List Line} {ts : List Tag}
    (h : Laid L body ρ c ls ts c') (ho : Ordered ρ c) {ℓ : Line} (hℓ : ℓ ∈ ls) {l : String}
    (hg : ℓ.instr = .goto l) : Lands ls ℓ l ∨ Outlet ℓ ρ l ∨ Jumps L body ρ ℓ l := by
  induction h with
  | nil => cases hℓ
  | leaf _ hl => exact .inr (.inl (hl.target hℓ hg))
  | seq ha _ iha ihb =>
    rcases List.mem_append.mp hℓ with hℓ | hℓ
    · exact (iha ho hℓ).imp_left (·.mono fun k hk => List.mem_append_left _ hk)
    · exact (ihb (ho.mono ha.regions_le) hℓ).imp_left (·.mono fun k hk => List.mem_append_right _ hk)
  | choice _ ha _ iha ihb =>
    rcases mem_choice.mp hℓ with rfl | hℓ | rfl | hℓ
    · cases hg
    · exact (iha ho hℓ).imp_left (·.mono fun k hk => mem_choice.mpr (.inr (.inl hk)))
    · cases hg
    · exact (ihb (ho.mono ha.regions_le) hℓ).imp_left
        (·.mono fun k hk => mem_choice.mpr (.inr (.inr (.inr hk))))
  | choiceBack _ hb _ ihb iha =>
    rcases mem_choice.mp hℓ with rfl | hℓ | rfl | hℓ
    · cases hg
    · exact (iha (ho.mono hb.regions_le) hℓ).imp_left
        (·.mono fun k hk => mem_choice.mpr (.inr (.inl hk)))
    · cases hg
    · exact (ihb ho hℓ).imp_left (·.mono fun k hk => mem_choice.mpr (.inr (.inr (.inr hk))))
  | mark =>
    obtain ⟨i, hi, rfl⟩ := mem_own.mp hℓ
    rw [List.mem_singleton.mp hi] at hg
    cases hg
  | jump hat hfr hms _ hs =>
    rcases List.mem_append.mp hℓ with hℓ | hℓ
    · exact .inr (.inl (hms.target hℓ hg))
    rcases List.mem_append.mp hℓ with hℓ | hℓ
    · rw [hs.eq]
      exact .inr (.inl (.exit (exit_escapeLines hs.leaving hℓ hg)))
    · obtain ⟨i, hi, rfl⟩ := mem_own.mp hℓ
      rw [List.mem_singleton.mp hi] at hg
      cases hg
      exact .inr (.inr ⟨hat, _, _, List.suffix_refl _, hfr, hs⟩)
  | leave _ hf => exact .inr (.inl (outlet_leaveLines hf hℓ hg))
  | raise => exact .inr (.inl (outlet_raiseLines hℓ hg))
  | region _ _ hfresh hb ha hf hgd _ ihb iha ihf =>
    obtain ⟨hob, hoa, hof⟩ := ho.region hb ha
    rcases mem_regionLines.mp hℓ with hℓ | hℓ | hℓ | hℓ | hℓ | hℓ | hℓ | hℓ | hℓ | hℓ
    · exact target_part (fun k hk => mem_regionLines.mpr (.inl hk)) (ihb hob hℓ)
    · refine target_part (List.forall_mem_nil _) (.inr (.inl (outlet_leaveLines ?_ hℓ hg)))
      simp
    · simp only [takeLines, List.mem_append, mem_raise, mem_own, List.mem_cons, List.not_mem_nil,
        or_false] at hℓ
      rcases hℓ with ⟨i, rfl | rfl, rfl⟩ | ⟨i, rfl, rfl⟩ <;> cases hg
    · exact target_part (fun k hk => mem_regionLines.mpr (by simp only [hk, true_or, or_true]))
        (iha hoa hℓ)
    · exact target_part (List.forall_mem_nil _) (.inr (.inl (outlet_raiseLines hℓ hg)))
    · obtain ⟨i, hi, rfl⟩ := mem_own.mp hℓ
      rw [List.mem_singleton.mp hi] at hg
      cases hg
    · rcases hgd.mem hℓ with hℓ | ⟨x, e, rfl⟩
      · exact target_part (fun k hk => mem_regionLines.mpr
          (by simp only [hgd.mem_of_mem hk, true_or, or_true])) (ihf (hof _) hℓ)
      · cases hg
    · exact .inl (lands_of_mem_resumeLines hfresh ho hb ha hf hgd hℓ hg)
    · obtain ⟨i, hi, rfl⟩ := mem_own.mp hℓ
      rw [List.mem_singleton.mp hi] at hg
      cases hg
    · exact .inr (.inl (outlet_checkLines hℓ hg))

end Unwind.Lowering
