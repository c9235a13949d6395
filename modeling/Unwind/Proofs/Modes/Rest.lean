import Unwind.Proofs.Lowering.Labels
import Unwind.Proofs.Lowering.Resuming
import Unwind.Proofs.Modes.Expressions

/-!
# What is left of the code in two modes

`Rest` relates what is left of a procedure that models exceptions to what is left of the same
procedure without them. Both have the same instructions, up to paired variables, and the first one
has three pieces of code more at the regions that control is in:

* the end of a `try` part, from which control goes to the finally block past the catch clauses;
* the end of a finally block, from which it goes behind the region;
* the way of a jump out of regions, through the end of each.

A `Nook` says what control is in. A jump from one place to another is known to keep the codes
related when no finally block is entered and none is skipped; the `Plan` holds what this depends on,
for the whole procedure.
-/

namespace Unwind.Modes

open Ir (Cmd)
open Lowering
open Machine (Instr flatten isGenerated labels landing)

/-! ## Regions that control is in -/

/-- A part of a region that control is in. -/
inductive Nook where
  /-- The `try` part of a region without finally block; `jumps` jumps leave the region. -/
  | bare (region jumps : Nat)
  /-- The `try` part of a region with a finally block. -/
  | guarded
  /-- The finally block of a `try` statement. -/
  | final (node : UInt32)

def Nook.final? : Nook → Option UInt32
  | final node => some node
  | _ => none

/-- The `try` statements whose finally blocks control is in. -/
def finals (ns : List Nook) : List UInt32 := ns.filterMap Nook.final?

/-- What is known of a procedure as a whole. -/
structure Plan where
  /-- Which variable of the one code stands for which of the other. -/
  pairs : Pairing
  /-- The finally blocks that a label stands in. -/
  home : String → List UInt32 → Prop
  /-- The number of the variables in which a finally block puts aside what it finds. -/
  saved : UInt32 → Nat → Prop
  /-- The labels in catch clauses. -/
  dead : String → Prop

/-- Code of catch clauses and of raising, which is not run. -/
def Shade (p : Plan) (is : List Instr) : Prop :=
  ∀ l ∈ labels is, isGenerated l = true ∨ p.dead l

/-- The way of a jump out of regions without finally block. -/
inductive Escape (ns : List Nook) : List Instr → Prop where
  | nil : Escape ns []
  | cons {region jumps k : Nat} {is : List Instr} :
      .bare region jumps ∈ ns → k < jumps → Escape ns is →
      Escape ns (.set labelVar (.int (Int64.ofNat k)) :: .goto (Tag.finalizer region).name ::
        .label (Tag.resume region k).name :: is)

/-! ## The relation -/

/-- What is left of the code in the two modes. -/
inductive Rest (p : Plan) : List Nook → List Instr → List Instr → Prop where
  | nil : Rest p [] [] []
  | set {ns : List Nook} {x y : String} {e e' : Ir.Expr} {is js : List Instr} :
      p.pairs x y → Alike p.pairs e e' → Rest p ns is js →
      Rest p ns (.set x e :: is) (.set y e' :: js)
  | store {ns : List Nook} {map : String} {i i' e e' : Ir.Expr} {is js : List Instr} :
      Alike p.pairs i i' → Alike p.pairs e e' → Rest p ns is js →
      Rest p ns (.assign (.map map i) e :: is) (.assign (.map map i') e' :: js)
  | call {ns : List Nook} {proc : String} {args args' : List Ir.Expr} {outs outs' : List String}
      {test is js : List Instr} :
      AllAlike p.pairs args args' → List.Forall₂ p.pairs outs outs' → Test true test →
      Rest p ns is js →
      Rest p ns (.call proc args outs :: (test ++ is)) (.call proc args' outs' :: js)
  | quiet {ns : List Nook} {i : Instr} {is js : List Instr} :
      Quiet i → Rest p ns is js → Rest p ns (i :: is) (i :: js)
  | assert {ns : List Nook} {e e' : Ir.Expr} {is js : List Instr} :
      Alike p.pairs e e' → Rest p ns is js → Rest p ns (.assert e :: is) (.assert e' :: js)
  | assume {ns : List Nook} {e e' : Ir.Expr} {is js : List Instr} :
      Alike p.pairs e e' → Rest p ns is js → Rest p ns (.assume e :: is) (.assume e' :: js)
  | branch {ns : List Nook} {e e' : Ir.Expr} {m n : Nat} {is js : List Instr} :
      Alike p.pairs e e' → Rest p ns is js → Rest p ns (is.drop m) (js.drop n) →
      Rest p ns (.branchUnless e m :: is) (.branchUnless e' n :: js)
  | jump {ns : List Nook} {m n : Nat} {is js : List Instr} :
      Rest p ns is js → Rest p ns (is.drop m) (js.drop n) →
      Rest p ns (.jump m :: is) (.jump n :: js)
  | label {ns : List Nook} {l : String} {is js : List Instr} :
      p.home l (finals ns) → Rest p ns is js → Rest p ns (.label l :: is) (.label l :: js)
  | ret {ns : List Nook} {is js : List Instr} :
      Rest p ns is js → Rest p ns (.ret :: is) (.ret :: js)
  /-- A jump enters no finally block. -/
  | goto {ns : List Nook} {l : String} {es is js : List Instr} :
      Escape ns es → isGenerated l = false → ¬ p.dead l →
      (∀ nodes, p.home l nodes → nodes ⊆ finals ns) → Rest p ns is js →
      Rest p ns (es ++ .goto l :: is) (.goto l :: js)
  /-- An exception is raised, which cannot be where there are none. -/
  | raise {ns : List Nook} {rs is js : List Instr} :
      labels rs = [] → Rest p ns is js → Rest p ns (rs ++ is) (.assume (.bool false) :: js)
  /-- The beginning of a `try` part. -/
  | enter {ns : List Nook} {n : Nook} {is js : List Instr} :
      n.final? = none → Rest p (n :: ns) is js → Rest p ns is js
  /-- The end of a `try` part without finally block. -/
  | leave {ns : List Nook} {region jumps : Nat} {rs test is js : List Instr} :
      Shade p rs → Test true test → Rest p ns is js →
      Rest p (.bare region jumps :: ns)
        (.set labelVar (.int normal) :: .goto (Tag.finalizer region).name ::
          (rs ++ .label (Tag.finalizer region).name :: (resuming region jumps ++
            .label (Tag.behind region).name :: (test ++ is)))) js
  /-- The end of a `try` part and the beginning of the finally block. -/
  | save {ns : List Nook} {region n : Nat} {node : UInt32} {rs is js : List Instr} :
      Shade p rs → p.saved node n → Rest p (.final node :: ns) is js →
      Rest p (.guarded :: ns)
        (.set labelVar (.int normal) :: .goto (Tag.finalizer region).name ::
          (rs ++ .label (Tag.finalizer region).name ::
            .set (Slot.savedExc n).name .exception ::
            .set (Slot.savedLabel (n + 1)).name (.ident labelVar) ::
            .set Ir.exceptionVar .null :: is)) js
  /-- The end of a finally block. -/
  | restore {ns : List Nook} {region jumps n : Nat} {node : UInt32} {test is js : List Instr} :
      p.saved node n → Test true test → Rest p ns is js →
      Rest p (.final node :: ns)
        (.set Ir.exceptionVar (.ident (Slot.savedExc n).name) ::
          .set labelVar (.ident (Slot.savedLabel (n + 1)).name) ::
          (resuming region jumps ++ .label (Tag.behind region).name :: (test ++ is))) js

section

variable {p : Plan} {ns : List Nook} {is js : List Instr}

/-! ## Building the relation -/

/-- A conditional on both sides. -/
theorem Rest.choice {e e' : Ir.Expr} {as as' bs bs' : List Instr} (he : Alike p.pairs e e')
    (ha : ∀ {ks ks'}, Rest p ns ks ks' → Rest p ns (as ++ ks) (as' ++ ks'))
    (hb : Rest p ns (bs ++ is) (bs' ++ js)) (h : Rest p ns is js) :
    Rest p ns (.branchUnless e (as.length + 1) :: (as ++ .jump bs.length :: (bs ++ is)))
      (.branchUnless e' (as'.length + 1) :: (as' ++ .jump bs'.length :: (bs' ++ js))) := by
  have hj : Rest p ns (.jump bs.length :: (bs ++ is)) (.jump bs'.length :: (bs' ++ js)) := by
    refine .jump hb ?_
    rw [List.drop_left, List.drop_left]
    exact h
  refine .branch he (ha hj) ?_
  have hskip : ∀ (xs ys : List Instr) (i : Instr),
      (xs ++ i :: ys).drop (xs.length + 1) = ys := by
    intro xs ys i
    rw [List.append_cons, ← List.length_singleton (a := i), ← List.length_append, List.drop_left]
  rw [hskip, hskip]
  exact hb

/-- The code of expressions. -/
theorem Steps.rest {as bs : List Instr} (h : Steps p.pairs true false as bs) :
    Rest p ns is js → Rest p ns (as ++ is) (bs ++ js) := by
  induction h generalizing is js with
  | nil => exact id
  | set hx he _ ih => exact fun hr => .set hx he (ih hr)
  | store hi he _ ih => exact fun hr => .store hi he (ih hr)
  | call ha ho ht ht' _ ih =>
    intro hr
    cases ht' with
    | none =>
      rw [List.cons_append, List.append_assoc]
      exact .call ha ho ht (ih hr)
    | some hf => cases hf
  | quiet hi _ ih => exact fun hr => .quiet hi (ih hr)
  | branch hc _ _ _ iha ihb ih =>
    intro hr
    simp only [List.cons_append, List.append_assoc]
    exact .choice hc iha (ihb (ih hr)) (ih hr)

/-! ## Labels -/

theorem landing_append_of_notMem {l : String} {as bs : List Instr} (h : l ∉ labels as) :
    landing l (as ++ bs) = landing l bs := by
  induction as with
  | nil => rfl
  | cons i as ih =>
    rw [Machine.labels_cons, List.mem_append, not_or, Option.mem_toList] at h
    rw [List.cons_append, landing, if_neg h.1, ih h.2]

theorem labels_resuming (region jumps : Nat) : labels (resuming region jumps) = [] :=
  labels_resumeTests _ _

theorem labels_test {models : Bool} {test : List Instr} (h : Test models test) :
    labels test = [] := by
  cases h with
  | none => rfl
  | some _ hl => simp [hl, Instr.label?]

theorem labels_escape {es : List Instr} (h : Escape ns es) {l : String} (hl : l ∈ labels es) :
    isGenerated l = true := by
  induction h with
  | nil => cases hl
  | @cons region jumps k is _ _ _ ih =>
    simp only [Machine.labels_cons, Instr.label?, Instr.set, Option.toList, List.nil_append,
      List.singleton_append, List.mem_cons] at hl
    rcases hl with rfl | hl
    · exact Tag.isGenerated_name (t := .resume region k) trivial
    · exact ih hl

/-- A jump lands in codes that are related: at the label, or nowhere on both sides. -/
theorem Rest.landing {l : String} (hl : isGenerated l = false) (hdead : ¬ p.dead l)
    (h : Rest p ns is js) :
    (Machine.landing l is = none ∧ Machine.landing l js = none) ∨
      ∃ ms is' js', Machine.landing l is = some (.label l :: is') ∧
        Machine.landing l js = some (.label l :: js') ∧
        Rest p ms (.label l :: is') (.label l :: js') ∧ p.home l (finals ms) := by
  have hshade : ∀ {rs : List Instr}, Shade p rs → l ∉ labels rs := by
    intro rs hs hmem
    rcases hs l hmem with hg | hd
    · rw [hl] at hg
      cases hg
    · exact hdead hd
  have hgen : ∀ {t : Tag} (ks : List Instr), t.isSource = false →
      Machine.landing l (.label t.name :: ks) = Machine.landing l ks := by
    intro t ks hs
    have ht : t.Proper := by
      cases t with
      | source => cases hs
      | _ => trivial
    refine if_neg fun he => ?_
    rw [Instr.label?, Option.some.injEq] at he
    rw [← he, Tag.isGenerated_name ht, hs] at hl
    cases hl
  induction h with
  | nil => exact .inl ⟨rfl, rfl⟩
  | set _ _ _ ih | store _ _ _ ih | assert _ _ ih | assume _ _ ih | ret _ ih
  | branch _ _ _ ih _ | jump _ _ ih _ | enter _ _ ih => exact ih
  | call _ _ ht _ ih =>
    rw [Machine.landing, if_neg (by simp [Instr.label?]), Machine.landing,
      if_neg (by simp [Instr.label?]), landing_append_of_notMem (by simp [labels_test ht])]
    exact ih
  | quiet hi _ ih => cases hi <;> exact ih
  | @label ns k is js hh hr ih =>
    by_cases he : k = l
    · subst he
      refine .inr ⟨ns, is, js, ?_, ?_, .label hh hr, hh⟩
      · simp [Machine.landing, Instr.label?]
      · simp [Machine.landing, Instr.label?]
    · have hne : ¬ Instr.label? (.label k) = some l := fun h => he (Option.some.inj h)
      rw [Machine.landing, if_neg hne, Machine.landing, if_neg hne]
      exact ih
  | goto he _ _ _ _ ih =>
    have hmem : l ∉ labels _ := fun hmem => by
      have hg := labels_escape he hmem
      rw [hl] at hg
      cases hg
    rw [landing_append_of_notMem hmem]
    exact ih
  | raise hrs _ ih =>
    rw [landing_append_of_notMem (by simp [hrs])]
    exact ih
  | leave hs ht _ ih =>
    rw [Machine.landing, if_neg (by simp [Instr.label?, Instr.set]), Machine.landing,
      if_neg (by simp [Instr.label?]), landing_append_of_notMem (hshade hs), hgen _ rfl,
      landing_append_of_notMem (by simp [labels_resuming]), hgen _ rfl,
      landing_append_of_notMem (by simp [labels_test ht])]
    exact ih
  | save hs _ _ ih =>
    rw [Machine.landing, if_neg (by simp [Instr.label?, Instr.set]), Machine.landing,
      if_neg (by simp [Instr.label?]), landing_append_of_notMem (hshade hs), hgen _ rfl]
    exact ih
  | restore _ ht _ ih =>
    rw [Machine.landing, if_neg (by simp [Instr.label?, Instr.set]), Machine.landing,
      if_neg (by simp [Instr.label?, Instr.set]), landing_append_of_notMem (by simp [labels_resuming]),
      hgen _ rfl, landing_append_of_notMem (by simp [labels_test ht])]
    exact ih

/-- The end of a region that control is in is still to come. -/
theorem Rest.end_of_bare {region jumps : Nat} (h : Rest p ns is js)
    (hn : .bare region jumps ∈ ns) :
    ∃ ks, .label (Tag.finalizer region).name :: (resuming region jumps ++ ks) <:+ is := by
  have hlater : ∀ (cs : List Instr) {as bs : List Instr}, as <:+ bs → as <:+ cs ++ bs :=
    fun _ _ _ h => h.trans (List.suffix_append _ _)
  induction h with
  | nil => cases hn
  | set _ _ _ ih | store _ _ _ ih | assert _ _ ih | assume _ _ ih | ret _ ih | quiet _ _ ih
  | label _ _ ih | branch _ _ _ ih _ | jump _ _ ih _ =>
    obtain ⟨ks, hks⟩ := ih hn
    exact ⟨ks, hks.trans (List.suffix_cons _ _)⟩
  | call _ _ _ _ ih =>
    obtain ⟨ks, hks⟩ := ih hn
    exact ⟨ks, (hlater _ hks).trans (List.suffix_cons _ _)⟩
  | goto _ _ _ _ _ ih =>
    obtain ⟨ks, hks⟩ := ih hn
    exact ⟨ks, hlater _ (hks.trans (List.suffix_cons _ _))⟩
  | raise _ _ ih =>
    obtain ⟨ks, hks⟩ := ih hn
    exact ⟨ks, hlater _ hks⟩
  | enter _ _ ih => exact ih (List.mem_cons_of_mem _ hn)
  | @leave ns r k rs test is js _ _ _ ih =>
    rcases List.mem_cons.mp hn with heq | hn
    · cases heq
      exact ⟨_, (hlater _ (List.suffix_refl _)).trans
        ((List.suffix_cons _ _).trans (List.suffix_cons _ _))⟩
    · obtain ⟨ks, hks⟩ := ih hn
      refine ⟨ks, (hlater rs ?_).trans
        ((List.suffix_cons _ _).trans (List.suffix_cons _ _))⟩
      exact (hlater _ ((hlater _ hks).trans (List.suffix_cons _ _))).trans (List.suffix_cons _ _)
  | @save ns r n node rs is js _ _ _ ih =>
    have hn' : .bare region jumps ∈ .final node :: ns := by
      rcases List.mem_cons.mp hn with heq | hn
      · cases heq
      · exact List.mem_cons_of_mem _ hn
    obtain ⟨ks, hks⟩ := ih hn'
    refine ⟨ks, (hlater rs ?_).trans ((List.suffix_cons _ _).trans (List.suffix_cons _ _))⟩
    exact (((hks.trans (List.suffix_cons _ _)).trans (List.suffix_cons _ _)).trans
      (List.suffix_cons _ _)).trans (List.suffix_cons _ _)
  | restore _ _ _ ih =>
    rcases List.mem_cons.mp hn with heq | hn
    · cases heq
    · obtain ⟨ks, hks⟩ := ih hn
      exact ⟨ks, (hlater _ ((hlater _ hks).trans (List.suffix_cons _ _))).trans
        ((List.suffix_cons _ _).trans (List.suffix_cons _ _))⟩

end

end Unwind.Modes
