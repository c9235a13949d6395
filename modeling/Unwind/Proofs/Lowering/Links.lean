import Unwind.Proofs.Execution
import Unwind.Proofs.Lowering.Labels

/-!
# Lines and the lines that follow them

At a line of lowered code it is known of two things that they are there: where an exception is
raised, one is pending, and in a catch part, one was caught. `Laid.chained` says that every line is
followed by lines at which no more is known, unless the line itself provides for it: the head of the
catch part stores the pending exception, the test behind a call finds one, and raising sets one.

It also says that what a line skips is part of the code, so that control leaves code at its end or
by a jump to a label.
-/

namespace Unwind.Lowering

open Source (Path Stmt)
open Machine (Instr flatten)

variable {L : Layout} {body : Stmt} {π : Path} {ρ : List Frame} {c c' : Counters}
  {as bs ls ks post : List Line} {ℓ : Line}

/-- The first line lies in no catch part but those of `ρ`. -/
def Around (ρ : List Frame) (ls : List Line) : Prop :=
  ∀ ℓ ∈ ls.head?, ∀ f ∈ ℓ.frames, f.phase = .inCatch → f ∈ ρ

/-- At the first line no more is known than between the frames `ρ`. -/
def Opens (ρ : List Frame) (ls : List Line) : Prop :=
  Around ρ ls ∧ ∀ ℓ ∈ ls.head?, ℓ.raising = false

/-- An instruction that leaves `$Exception` alone. -/
def isCalm : Instr → Bool
  | .assign (.var x) _ => x != Ir.exceptionVar
  | .label _ | .note => true
  | _ => false

/-- What is known at the first of some lines, the line `ℓ` before them provides for. -/
inductive Link (body : Stmt) (ℓ : Line) (ls : List Line) : Prop where
  | plain : Opens ℓ.frames ls → Link body ℓ ls
  /-- The exception stays pending. -/
  | calm : ℓ.raising = true → isCalm ℓ.instr = true → Around ℓ.frames ls → Link body ℓ ls
  /-- The pending exception is stored. -/
  | take {f : Frame} : ℓ.raising = true →
      ℓ.instr = .set (Slot.caught f.region).name .exception → Opens (f :: ℓ.frames) ls →
      Link body ℓ ls
  /-- A pending exception is found. -/
  | test {n : Nat} : ℓ.instr = .branchUnless (.neq .exception .null) n → Around ℓ.frames ls →
      Link body ℓ ls
  /-- An exception is raised. -/
  | raised {v : Ir.Expr} : ℓ.instr = .set Ir.exceptionVar v → Raisable body ℓ.owner ℓ.frames v →
      Around ℓ.frames ls → Link body ℓ ls

/-- The line `ℓ` is linked to the lines that control can go to from it, without a jump to a
label. -/
structure Linked (body : Stmt) (ℓ : Line) (rest : List Line) : Prop where
  next : ℓ.instr.goesOn = true → Link body ℓ rest
  skip : ∀ n, ℓ.instr.skip? = some n → Opens ℓ.frames (rest.drop n)

/-- All lines are linked, in front of `post`, and none skips a part of it. -/
def Chained (body : Stmt) (post : List Line) : List Line → Prop
  | [] => True
  | ℓ :: ls => (Linked body ℓ (ls ++ post) ∧ ∀ n, ℓ.instr.skip? = some n → n ≤ ls.length) ∧
      Chained body post ls

theorem Around.mono {ρ' : List Frame} (h : Around ρ ls)
    (hs : ∀ f ∈ ρ, f.phase = .inCatch → f ∈ ρ') : Around ρ' ls :=
  fun ℓ hℓ f hf hp => hs f (h ℓ hℓ f hf hp) hp

theorem Opens.mono {ρ' : List Frame} (h : Opens ρ ls)
    (hs : ∀ f ∈ ρ, f.phase = .inCatch → f ∈ ρ') : Opens ρ' ls := ⟨h.1.mono hs, h.2⟩

/-- A part of a region that is no catch part. -/
theorem Opens.part {f : Frame} (h : Opens (f :: ρ) ls) (hf : f.phase ≠ .inCatch) : Opens ρ ls := by
  refine h.mono fun g hg hp => ?_
  rcases List.mem_cons.mp hg with rfl | hg
  · exact absurd hp hf
  · exact hg

theorem opens_nil : Opens ρ [] := ⟨fun _ h => (by cases h), fun _ h => (by cases h)⟩

theorem around_cons (hf : ∀ f ∈ ℓ.frames, f.phase = .inCatch → f ∈ ρ) : Around ρ (ℓ :: ls) := by
  rintro _ ⟨⟩
  exact hf

/-- A line that lies between the frames. -/
theorem opens_cons (hf : ∀ f ∈ ℓ.frames, f.phase = .inCatch → f ∈ ρ) (hr : ℓ.raising = false) :
    Opens ρ (ℓ :: ls) := by
  refine ⟨around_cons hf, ?_⟩
  rintro _ ⟨⟩
  exact hr

theorem opens_own {is : List Instr} (h : Opens ρ post) : Opens ρ (own π ρ is ++ post) := by
  cases is with
  | nil => exact h
  | cons i is => exact opens_cons (fun _ hf _ => hf) rfl

theorem choice_eq {v : Ir.Expr} : choice π ρ v as bs =
    ⟨.branchUnless v (as.length + 1), π, ρ, false⟩ ::
      (as ++ ⟨.jump bs.length, π, ρ, false⟩ :: bs) := rfl

theorem opens_choice {v : Ir.Expr} : Opens ρ (choice π ρ v as bs ++ post) :=
  opens_cons (fun _ hf _ => hf) rfl

theorem Chained.append (ha : Chained body (bs ++ post) as) (hb : Chained body post bs) :
    Chained body post (as ++ bs) := by
  induction as with
  | nil => exact hb
  | cons ℓ as ih =>
    obtain ⟨⟨hl, hn⟩, has⟩ := ha
    rw [← List.append_assoc] at hl
    refine ⟨⟨hl, fun n h => ?_⟩, ih has⟩
    rw [List.append_eq, List.length_append]
    exact Nat.le_add_right_of_le (hn n h)

/-- Every line is linked to the lines behind it. -/
theorem Chained.linked (h : Chained body post ls) (hs : ℓ :: ks <:+ ls) :
    Linked body ℓ (ks ++ post) ∧ ∀ n, ℓ.instr.skip? = some n → n ≤ ks.length := by
  obtain ⟨pre, rfl⟩ := hs
  induction pre with
  | nil => exact h.1
  | cons k pre ih => exact ih h.2

/-- A line from which control goes nowhere, or to a label. -/
theorem linked_stop {rest : List Line} (h : ℓ.instr.goesOn = false) (h' : ℓ.instr.skip? = none) :
    Linked body ℓ rest ∧ ∀ n, ℓ.instr.skip? = some n → n ≤ ks.length := by
  refine ⟨⟨fun hg => ?_, fun n hn => ?_⟩, fun n hn => ?_⟩
  · rw [h] at hg
    cases hg
  · rw [h'] at hn
    cases hn
  · rw [h'] at hn
    cases hn

/-- A line that goes on with the next one only. -/
theorem linked_next {rest : List Line} (h : ℓ.instr.skip? = none) (hl : Link body ℓ rest) :
    Linked body ℓ rest ∧ ∀ n, ℓ.instr.skip? = some n → n ≤ ks.length := by
  refine ⟨⟨fun _ => hl, fun n hn => ?_⟩, fun n hn => ?_⟩
  · rw [h] at hn
    cases hn
  · rw [h] at hn
    cases hn

/-- Straight code between the frames `ρ`. -/
theorem chained_own {is : List Instr} (hi : ∀ i ∈ is, i.skip? = none) (h : Opens ρ post) :
    Chained body post (own π ρ is) := by
  induction is with
  | nil => trivial
  | cons i is ih =>
    exact ⟨linked_next (hi i List.mem_cons_self) (.plain (opens_own h)),
      ih fun j hj => hi j (List.mem_cons_of_mem _ hj)⟩

/-- A conditional. -/
theorem chained_choice {cond : Ir.Expr}
    (hthen : ∀ rest, Link body ⟨.branchUnless cond (as.length + 1), π, ρ, false⟩
      (as ++ ⟨.jump bs.length, π, ρ, false⟩ :: rest))
    (ha : Chained body (⟨.jump bs.length, π, ρ, false⟩ :: bs ++ post) as)
    (hb : Chained body post bs) (hopens : Opens ρ (bs ++ post)) (h : Opens ρ post) :
    Chained body post (choice π ρ cond as bs) := by
  have hskip : ∀ (ℓ : Line) (rest : List Line), (as ++ ℓ :: rest).drop (as.length + 1) = rest := by
    intro ℓ rest
    rw [List.drop_append, List.drop_eq_nil_of_le (Nat.le_succ _)]
    simp
  have hjump : Linked body ⟨.jump bs.length, π, ρ, false⟩ (bs ++ post) ∧
      ∀ n, (Instr.jump bs.length).skip? = some n → n ≤ bs.length := by
    refine ⟨⟨nofun, ?_⟩, ?_⟩
    · rintro _ ⟨⟩
      rwa [List.drop_left]
    · rintro _ ⟨⟩
      exact Nat.le_refl _
  rw [choice_eq]
  refine ⟨⟨⟨fun _ => ?_, ?_⟩, ?_⟩, ha.append ⟨hjump, hb⟩⟩
  · rw [List.append_assoc]
    exact hthen _
  · rintro _ ⟨⟩
    rw [List.append_assoc]
    exact (hskip _ (bs ++ post)).symm ▸ hopens
  · rintro _ ⟨⟩
    rw [List.length_append, List.length_cons]
    omega

/-! ## The code of a body is chained -/

/-- Propagation leaves its place. -/
theorem chained_propagation {env : Env} : Chained body post (raise π ρ (propagation env ρ)) := by
  have hret : Chained body post (raise π ρ [.ret]) := ⟨linked_stop rfl rfl, trivial⟩
  have hgoto : ∀ l, Chained body post (raise π ρ [.goto l]) :=
    fun _ => ⟨linked_stop rfl rfl, trivial⟩
  cases ρ with
  | nil =>
    rw [propagation]
    split
    · exact ⟨linked_next rfl (.calm rfl rfl (around_cons fun _ hf _ => hf)), hret⟩
    · exact hret
  | cons f ρ =>
    obtain ⟨region, node, phase, place⟩ := f
    cases phase with
    | inTry | inFinally => exact hgoto _
    | inCatch =>
      have hcalm : isCalm (.set labelVar (.int propagating)) = true := by decide
      exact ⟨linked_next rfl (.calm rfl hcalm (around_cons fun _ hf _ => hf)), hgoto _⟩

theorem propagation_ne_nil (env : Env) (ρ : List Frame) : propagation env ρ ≠ [] := by
  cases ρ with
  | nil =>
    rw [propagation]
    simp
  | cons f ρ =>
    obtain ⟨region, node, phase, place⟩ := f
    cases phase <;> exact List.cons_ne_nil _ _

theorem around_propagation {env : Env} :
    Around ρ (raise π ρ (propagation env ρ) ++ post) := by
  obtain ⟨i, is, h⟩ := List.exists_cons_of_ne_nil (propagation_ne_nil env ρ)
  rw [h]
  exact around_cons fun _ hf _ => hf

theorem chained_checkLines {env : Env} (h : Opens ρ post) :
    Chained body post (checkLines env π ρ) :=
  chained_choice (fun _ => .test rfl around_propagation) chained_propagation trivial h h

theorem chained_raiseLines {env : Env} {v : Ir.Expr} (hv : Raisable body π ρ v) :
    Chained body post (raiseLines env π ρ v) :=
  ⟨linked_next rfl (.raised rfl hv around_propagation), chained_propagation⟩

theorem chained_leaveLines {r : Nat} : Chained body post (leaveLines π ρ r) :=
  ⟨linked_next rfl (.plain (opens_cons (fun _ hf _ => hf) rfl)), linked_stop rfl rfl, trivial⟩

theorem skip?_of_harmless {i : Instr} (h : Harmless L i) : i.skip? = none := by
  cases h <;> rfl

theorem Leaf.opens (h : Leaf L π ρ ls) (hpost : Opens ρ post) : Opens ρ (ls ++ post) := by
  cases h with
  | nil => exact hpost
  | cons => exact opens_cons (fun _ hf _ => hf) rfl
  | check =>
    rw [List.append_assoc]
    exact opens_choice
  | branch =>
    rw [List.append_assoc]
    exact opens_choice

theorem Leaf.chained (h : Leaf L π ρ ls) (hpost : Opens ρ post) : Chained body post ls := by
  induction h generalizing post with
  | nil => trivial
  | cons hi h ih =>
    refine .append (chained_own ?_ (h.opens hpost)) (ih hpost)
    simp [skip?_of_harmless hi]
  | check h ih => exact .append (chained_checkLines (h.opens hpost)) (ih hpost)
  | branch ha hb h iha ihb ih =>
    have hopens := h.opens hpost
    refine .append (chained_choice (fun _ => .plain (ha.opens ?_)) (iha ?_) (ihb hopens)
      (hb.opens hopens) hopens) (ih hpost)
    · exact opens_cons (fun _ hf _ => hf) rfl
    · exact opens_cons (fun _ hf _ => hf) rfl

theorem chained_escapeLines (post : List Line) {kept left : List Frame} {c : Counters}
    {l : String} :
    Chained body post (escapeLines π kept left c ++ own π kept [.goto l]) ∧
      Opens (left ++ kept) (escapeLines π kept left c ++ own π kept [.goto l] ++ post) := by
  induction left generalizing c with
  | nil => exact ⟨⟨linked_stop rfl rfl, trivial⟩, opens_cons (fun _ hf _ => hf) rfl⟩
  | cons f left ih =>
    refine ⟨?_, opens_cons (fun _ hf _ => hf) rfl⟩
    exact ⟨linked_next rfl (.plain (opens_cons (fun _ hf _ => hf) rfl)), linked_stop rfl rfl,
      linked_next rfl (.plain ih.2), ih.1⟩

/-- The tests at the end of a region. -/
theorem chained_resumeTests {l : String} {es : List EscapingEdge} (h : Opens ρ post) :
    Chained body post (own π ρ (flatten (resumeTests l es))) := by
  induction es with
  | nil => exact ⟨linked_stop rfl rfl, trivial⟩
  | cons e es ih =>
    have heq : own π ρ (flatten (resumeTests l (e :: es))) =
        choice π ρ (.eq (.ident labelVar) (.int e.id)) (own π ρ [.goto e.resume])
          (own π ρ (flatten (resumeTests l es))) := by
      simp [resumeTests, Machine.flattenCmd, choice, own]
    rw [heq]
    exact chained_choice (fun _ => .plain (opens_cons (fun _ hf _ => hf) rfl))
      ⟨linked_stop rfl rfl, trivial⟩ ih (opens_own h) h

theorem chained_takeLines {f : Frame} (h : Opens (f :: ρ) post) :
    Chained body post (takeLines π f ρ) := by
  have hset : Opens (f :: ρ) (⟨.set Ir.exceptionVar .null, π, f :: ρ, false⟩ :: post) :=
    opens_cons (fun _ hf _ => hf) rfl
  exact ⟨linked_next rfl (.calm rfl rfl (around_cons fun _ hf _ => hf)),
    linked_next rfl (.take rfl rfl hset), linked_next rfl (.plain h), trivial⟩

theorem Guard.chained {t t' : Nat} {fin : Option Stmt} {fs gs : List Line}
    (h : Guard π ρ t fin t' fs gs) (hf : ∀ post, Opens ρ post → Chained body post fs)
    (ho : ∀ post, Opens ρ post → Opens ρ (fs ++ post)) (hpost : Opens ρ post) :
    Chained body post gs ∧ Opens ρ (gs ++ post) := by
  cases h with
  | none => exact ⟨trivial, hpost⟩
  | @some _ n _ hn =>
    have htail : ∀ is : List Instr, Opens ρ (own π ρ is ++ post) := fun _ => opens_own hpost
    refine ⟨.append (chained_own (by simp [Instr.skip?, Instr.set]) ?_)
      (.append (hf _ (htail _)) (chained_own (by simp [Instr.skip?, Instr.set]) hpost)),
      opens_cons (fun _ hf _ => hf) rfl⟩
    rw [List.append_assoc]
    exact ho _ (htail _)

/-- All lines of lowered code are linked, and it starts like the code behind it. -/
theorem Laid.chained {ts : List Tag} (h : Laid L body ρ c ls ts c') (hpost : Opens ρ post) :
    Chained body post ls ∧ Opens ρ (ls ++ post) := by
  induction h generalizing post with
  | nil => exact ⟨trivial, hpost⟩
  | leaf _ hl => exact ⟨hl.chained hpost, hl.opens hpost⟩
  | seq _ _ iha ihb =>
    obtain ⟨hb, hopens⟩ := ihb hpost
    obtain ⟨ha, hopens'⟩ := iha hopens
    rw [List.append_assoc]
    exact ⟨ha.append hb, hopens'⟩
  | choice _ _ _ iha ihb | choiceBack _ _ _ ihb iha =>
    obtain ⟨hb, hopens⟩ := ihb hpost
    have ha := fun ks h => @iha ks h
    refine ⟨chained_choice (fun _ => .plain (ha _ ?_).2) (ha _ ?_).1 hb hopens hpost, opens_choice⟩
    · exact opens_cons (fun _ hf _ => hf) rfl
    · exact opens_cons (fun _ hf _ => hf) rfl
  | mark => exact ⟨chained_own (by simp [Instr.skip?]) hpost, opens_own hpost⟩
  | jump _ _ hms _ hs =>
    obtain ⟨hc, ho⟩ := chained_escapeLines post
    rw [← hs.eq] at ho
    rw [List.append_assoc]
    exact ⟨.append (hms.chained ho) hc, hms.opens ho⟩
  | leave => exact ⟨chained_leaveLines, opens_cons (fun _ hf _ => hf) rfl⟩
  | raise _ hv => exact ⟨chained_raiseLines hv, opens_cons (fun _ hf _ => hf) rfl⟩
  | @region id _ _ _ _ π ρ c _ _ c₃ _ bs as fs gs _ _ _ _ _ _ _ _ _ hg _ ihb iha ihf =>
    have hend : ∀ ks, Opens ρ (resumeLines π ρ c.regions (c₃.escapes c.regions) ++
        (own π ρ [.label (Tag.behind c.regions).name] ++ ks) ++ post) := by
      intro ks
      rw [List.append_assoc]
      exact opens_own (opens_cons (fun _ hf _ => hf) rfl)
    obtain ⟨hgs, hgopens⟩ := hg.chained (fun _ h => (ihf h).1) (fun _ h => (ihf h).2)
      ((hend (checkLines L.env π ρ)).mono fun _ hf _ => List.mem_cons_of_mem _ hf)
    rw [← List.append_assoc] at hgopens
    obtain ⟨has, haopens⟩ := @iha (raiseLines L.env π (⟨c.regions, id, .inCatch, π⟩ :: ρ)
        (.ident (Slot.caught c.regions).name) ++ (own π ρ [.label (Tag.finalizer c.regions).name] ++
          (gs ++ (resumeLines π ρ c.regions (c₃.escapes c.regions) ++
            (own π ρ [.label (Tag.behind c.regions).name] ++ checkLines L.env π ρ)))) ++ post)
      (opens_cons (fun _ hf _ => hf) rfl)
    rw [← List.append_assoc] at haopens
    constructor
    · refine .append (ihb (opens_cons (fun _ hf _ => hf) rfl)).1 (.append chained_leaveLines ?_)
      refine .append (chained_takeLines haopens) (.append has ?_)
      refine .append (chained_raiseLines (.caught rfl)) (.append (chained_own ?_ ?_) ?_)
      · simp [Instr.skip?]
      · exact hgopens.part (by simp)
      refine .append hgs (.append (chained_resumeTests (opens_cons (fun _ hf _ => hf) rfl)) ?_)
      exact .append (chained_own (by simp [Instr.skip?]) opens_choice) (chained_checkLines hpost)
    · rw [regionLines, List.append_assoc]
      exact (ihb (opens_cons (fun _ hf _ => hf) rfl)).2.part (by simp)

end Unwind.Lowering
