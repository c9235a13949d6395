import Unwind.Proofs.Pinned.Inlining

/-!
# Inlining cells keeps what the code does

The two codes run side by side. Their data are the same but for the cells, and every cell that is
held has the value of its expression (`Holds`). Where the second code sets a cell, this becomes true
of the cell; where both run related commands, it stays true of the cells that the commands do not
disturb.
-/

namespace Unwind.Pinned

open Ir (Cmd Expr)
open Machine (Data Ending Halts Kept Place Value World alters altersAny eval evalAll eval_kept
  kept_of_runCmd reads readsAll runAll runCmd)

variable {C : Cells} {w : World} {A : Held} {σ τ : Nat → Expr} {d d₁ p p₁ : Data}

/-! ## Variables -/

namespace Cells

theorem not_isGlobal {x : String} (hx : C.isCell x = true) : w.isGlobal x = false :=
  w.not_isGlobal_of_isGenerated x (C.generated x hx)

theorem ne_exceptionVar {x : String} (hx : C.isCell x = true) : x ≠ Ir.exceptionVar := by
  rintro rfl
  rw [C.ne_exception] at hx
  cases hx

/-- Cells belong to the procedure. -/
theorem get_cell {x : String} (hx : C.isCell x = true) : d.get w x = d.locals x := by
  rw [Data.get, if_neg (ne_exceptionVar hx), not_isGlobal hx, if_neg Bool.false_ne_true]

theorem set_cell {x : String} (hx : C.isCell x = true) (v : Value) :
    d.set w x v = { d with locals := Function.update d.locals x v } := by
  rw [Data.set, if_neg (ne_exceptionVar hx), not_isGlobal hx, if_neg Bool.false_ne_true]

/-- A callee cannot see cells. -/
theorem isShared_cell {x : String} (hx : C.isCell x = true) :
    (Place.var x).isShared w = false := by
  simp [Place.isShared, ne_exceptionVar hx, not_isGlobal hx]

end Cells

/-! ## Data that differ in cells -/

/-- The data are the same but for the cells. -/
structure Same (C : Cells) (d p : Data) : Prop where
  memory : p.memory = d.memory
  calls : p.calls = d.calls
  locals : ∀ x, C.isCell x = false → p.locals x = d.locals x

namespace Same

theorem refl (C : Cells) (d : Data) : Same C d d := ⟨rfl, rfl, fun _ _ => rfl⟩

/-- Places that are no cells are the same. -/
theorem kept (h : Same C d p) {q : Place} (hq : C.spares q = true) : Kept w d p q := by
  cases q with
  | map m => exact congrArg (·.fields m) h.memory
  | var x =>
    have hx : C.isCell x = false := by simpa [Cells.spares] using hq
    show p.get w x = d.get w x
    unfold Data.get
    rw [h.memory, h.locals x hx]

theorem set (h : Same C d p) (x : String) (v : Value) : Same C (d.set w x v) (p.set w x v) := by
  unfold Data.set
  split_ifs with hexc hglob
  · exact ⟨by rw [h.memory], h.calls, h.locals⟩
  · exact ⟨by rw [h.memory], h.calls, h.locals⟩
  · refine ⟨h.memory, h.calls, fun y hy => ?_⟩
    simp only [Function.update_apply, h.locals y hy]

theorem setAll (h : Same C d p) (xs : List String) (vs : List Value) :
    Same C (d.setAll w xs vs) (p.setAll w xs vs) := by
  unfold Data.setAll
  induction xs generalizing d p vs with
  | nil => exact h
  | cons x xs ih =>
    cases vs with
    | nil => exact h
    | cons v vs => exact ih (h.set x v) vs

theorem invoke (h : Same C d p) (proc : String) (vs : List Value) (outs : List String) :
    Same C (Machine.invoke w d proc vs outs) (Machine.invoke w p proc vs outs) := by
  -- both callees see the same memory and the same calls before
  have hmemory : ∀ m calls, Same C { d with memory := m, calls } { p with memory := m, calls } :=
    fun _ _ => ⟨rfl, rfl, h.locals⟩
  unfold Machine.invoke
  rw [h.memory, h.calls]
  split_ifs
  · exact (hmemory _ _).setAll outs _
  · exact (hmemory _ _).setAll outs _

/-- A cell is set on one side only. -/
theorem set_cell (h : Same C d p) (k : Nat) (v : Value) : Same C d (p.set w (C.cell k) v) := by
  rw [Cells.set_cell (C.isCell_cell k)]
  refine ⟨h.memory, h.calls, fun x hx => ?_⟩
  have hne : x ≠ C.cell k := by
    rintro rfl
    rw [C.isCell_cell] at hx
    cases hx
  exact (Function.update_of_ne hne _ _).trans (h.locals x hx)

end Same

/-- The data are the same but for the cells, and cells that are held have the values of their
expressions, as far as these do not mention cells. -/
structure Holds (C : Cells) (w : World) (A : Held) (σ : Nat → Expr) (d p : Data) : Prop
    extends Same C d p where
  cells : ∀ {k ps}, A (C.cell k) = some ps → (reads (σ k)).all C.spares = true →
    p.locals (C.cell k) = eval w d (σ k) ∧ reads (σ k) ⊆ ps

/-! ## Expressions -/

section

variable {r r' : Expr}

/-- An expression and the one that reads cells have the same value. -/
theorem Inlined.eval_eq (h : Inlined C σ r r') (hd : Holds C w A σ d p)
    (hr : (reads r).all C.spares = true) (hk : A.knows C (reads r') = true) :
    eval w p r' = eval w d r := by
  induction h with
  | same e => exact eval_kept e fun q hq => hd.toSame.kept (List.all_eq_true.mp hr q hq)
  | cell k =>
    obtain ⟨ps, hps, -⟩ := Held.exists_of_knows_cell hk
    exact (Cells.get_cell (C.isCell_cell k)).trans (hd.cells hps hr).1
  | unary _ ih => rw [eval, eval, ih hr hk]
  | binary _ _ iha ihb =>
    simp only [reads, Held.knows_append, List.all_append, Bool.and_eq_true] at hr hk
    rw [eval, eval, iha hr.1 hk.1, ihb hr.2 hk.2]
  | dynamicType _ ih =>
    simp only [Expr.dynamicType, reads, readsAll, List.append_nil] at hr hk
    simp only [Expr.dynamicType, eval, evalAll, ih hr hk]
  | select _ ih =>
    simp only [reads, Held.knows_map, List.all_cons, Bool.and_eq_true] at hr hk
    rw [eval, eval, ih hr.2 hk, hd.memory]
  | ifThenElse _ _ _ ihc iha ihb =>
    simp only [reads, Held.knows_append, List.all_append, Bool.and_eq_true] at hr hk
    rw [eval, eval, ihc hr.1 hk.1, iha hr.2.1 hk.2.1, ihb hr.2.2 hk.2.2]

theorem evalAll_eq {rs rs' : List Expr} (h : List.Forall₂ (Inlined C σ) rs rs')
    (hd : Holds C w A σ d p) (hr : (readsAll rs).all C.spares = true)
    (hk : A.knows C (readsAll rs') = true) : evalAll w p rs' = evalAll w d rs := by
  induction h with
  | nil => rfl
  | cons hab _ ih =>
    simp only [readsAll, Held.knows_append, List.all_append, Bool.and_eq_true] at hr hk
    rw [evalAll, evalAll, hab.eval_eq hd hr.1 hk.1, ih hr.2 hk.2]

/-- What an expression reads is among what the one with cells depends on. -/
theorem Inlined.mem_support (h : Inlined C σ r r') (hd : Holds C w A σ d p)
    (hr : (reads r).all C.spares = true) (hk : A.knows C (reads r') = true) {q : Place}
    (hq : q ∈ reads r) : q ∈ A.support C (reads r') := by
  induction h with
  | same e =>
    have hspares := List.all_eq_true.mp hr q hq
    refine List.mem_flatMap.mpr ⟨q, hq, ?_⟩
    cases q with
    | map => simp
    | var x => simp [show C.isCell x = false by simpa [Cells.spares] using hspares]
  | cell k =>
    obtain ⟨ps, hps, hsupport⟩ := Held.exists_of_knows_cell hk
    rw [reads, hsupport]
    exact (hd.cells hps hr).2 hq
  | unary _ ih => exact ih hr hk hq
  | binary _ _ iha ihb =>
    simp only [reads, Held.knows_append, Held.support_append, List.all_append, Bool.and_eq_true,
      List.mem_append] at hr hk hq ⊢
    exact hq.imp (iha hr.1 hk.1) (ihb hr.2 hk.2)
  | dynamicType _ ih =>
    simp only [Expr.dynamicType, reads, readsAll, List.append_nil] at hr hk hq ⊢
    exact ih hr hk hq
  | select _ ih =>
    simp only [reads, Held.knows_map, Held.support_map, List.all_cons, Bool.and_eq_true,
      List.mem_cons] at hr hk hq ⊢
    exact hq.imp_right (ih hr.2 hk)
  | ifThenElse _ _ _ ihc iha ihb =>
    simp only [reads, Held.knows_append, Held.support_append, List.all_append, Bool.and_eq_true,
      List.mem_append] at hr hk hq ⊢
    exact hq.imp (ihc hr.1 hk.1) (Or.imp (iha hr.2.1 hk.2.1) (ihb hr.2.2 hk.2.2))

end

/-! ## Commands -/

/-- The endings are of the same kind, with data that are the same but for the cells. -/
inductive SameEnd (C : Cells) : Option Ending → Option Ending → Prop where
  | stuck : SameEnd C none none
  | through {d p : Data} : Same C d p → SameEnd C (some (.through d)) (some (.through p))
  | returned {d p : Data} : Same C d p → SameEnd C (some (.returned d)) (some (.returned p))

theorem SameEnd.right {e : Ending} {r : Option Ending} (h : SameEnd C (some e) r) :
    ∃ e', r = some e' ∧ Same C e.data e'.data := by
  cases h with
  | through hs | returned hs => exact ⟨_, rfl, hs⟩

theorem SameEnd.left {e' : Ending} {r : Option Ending} (h : SameEnd C r (some e')) :
    ∃ e, r = some e ∧ Same C e.data e'.data := by
  cases h with
  | through hs | returned hs => exact ⟨_, rfl, hs⟩

/-- A command that writes no cell keeps the values of those whose expressions it does not
disturb. -/
theorem Holds.kill (h : Holds C w A σ d p) {c : Cmd} (hs : Same C d₁ p₁)
    (hrun : runCmd w c p = some (.through p₁)) (hc : ∀ k, alters w c (.var (C.cell k)) = false) :
    Holds C w (A.kill w c) σ d₁ p₁ := by
  refine ⟨hs, fun {k ps} hps hfree => ?_⟩
  obtain ⟨hps, hall⟩ := Option.filter_eq_some_iff.mp hps
  obtain ⟨hval, hsub⟩ := h.cells hps hfree
  refine ⟨?_, hsub⟩
  have hcell : p₁.locals (C.cell k) = p.locals (C.cell k) := by
    have hkept : p₁.get w (C.cell k) = p.get w (C.cell k) := kept_of_runCmd c hrun (hc k)
    rwa [Cells.get_cell (C.isCell_cell k), Cells.get_cell (C.isCell_cell k)] at hkept
  have hkept : eval w p₁ (σ k) = eval w p (σ k) := by
    refine eval_kept _ fun q hq => kept_of_runCmd c hrun ?_
    simpa using List.all_eq_true.mp hall q (hsub hq)
  -- the expression mentions no cell, so that its value is the same on both sides
  have hsame : eval w p (σ k) = eval w d (σ k) :=
    eval_kept _ fun q hq => h.toSame.kept (List.all_eq_true.mp hfree q hq)
  have hsame₁ : eval w p₁ (σ k) = eval w d₁ (σ k) :=
    eval_kept _ fun q hq => hs.kept (List.all_eq_true.mp hfree q hq)
  rw [hcell, hval, ← hsame₁, hkept, hsame]

/-- Setting a cell to the value of its new expression. -/
theorem Holds.pin (h : Holds C w A σ d p) {k : Nat} {v v' : Expr} (hv : Inlined C σ v v')
    (hk : A.knows C (reads v') = true) :
    Holds C w (Function.update A (C.cell k) (some (A.support C (reads v')))) (Function.update σ k v)
      d (p.set w (C.cell k) (eval w p v')) := by
  refine ⟨h.toSame.set_cell k _, fun {j ps} hps hfree => ?_⟩
  rw [Cells.set_cell (C.isCell_cell k)]
  by_cases hj : j = k
  · subst hj
    rw [Function.update_self, Option.some.injEq] at hps
    rw [Function.update_self] at hfree ⊢
    subst hps
    refine ⟨?_, fun q hq => hv.mem_support h hfree hk hq⟩
    exact (Function.update_self _ _ _).trans (hv.eval_eq h hfree hk)
  · have hcell : C.cell j ≠ C.cell k := fun he => hj (C.cell_inj he)
    rw [Function.update_of_ne hcell] at hps
    rw [Function.update_of_ne hj] at hfree ⊢
    obtain ⟨hval, hsub⟩ := h.cells hps hfree
    exact ⟨(Function.update_of_ne hcell _ _).trans hval, hsub⟩

section

variable {cs ps : List Cmd}

/-- Code that mentions no cell is related to code that writes none. -/
theorem Code.not_altersAny (h : Code C σ cs ps) (hcs : C.avoidsAll cs = true) (k : Nat) :
    altersAny w ps (.var (C.cell k)) = false := by
  have hcell := C.isCell_cell k
  induction h with
  | nil => rfl
  | assert _ _ ih | assume _ _ ih | store _ _ _ ih | goto _ ih | ret _ ih =>
    simp only [Cells.avoidsAll, Bool.and_eq_true] at hcs
    simp [altersAny, alters, ih hcs.2]
  | @set x r r' cs ps _ _ ih =>
    simp only [Cmd.set, Cells.avoidsAll, Cells.avoids, Bool.and_eq_true, Bool.not_eq_true'] at hcs
    have hne : C.cell k ≠ x := by
      rintro rfl
      rw [hcell] at hcs
      cases hcs.1.1
    simp [altersAny, alters, Cmd.set, hne, ih hcs.2]
  | @call attrs proc args args' outs cs ps _ _ ih =>
    simp only [Cells.avoidsAll, Cells.avoids, Bool.and_eq_true, List.all_eq_true,
      Bool.not_eq_true'] at hcs
    cases attrs with
    | cons => simp [altersAny, alters, ih hcs.2]
    | nil =>
      have houts : ∀ x ∈ outs, C.cell k ≠ x := by
        rintro x hx rfl
        rw [hcs.1.2 _ hx] at hcell
        cases hcell
      simpa [altersAny, alters, Cells.isShared_cell hcell, ih hcs.2] using houts
  | branch _ _ _ _ iha ihb ih =>
    simp only [Cells.avoidsAll, Cells.avoids, Bool.and_eq_true] at hcs
    simp [altersAny, alters, iha hcs.1.1.2, ihb hcs.1.2, ih hcs.2]

theorem Cells.avoidsAll_append (C : Cells) (cs ps : List Cmd) :
    C.avoidsAll (cs ++ ps) = (C.avoidsAll cs && C.avoidsAll ps) := by
  induction cs with
  | nil => rfl
  | cons c cs ih => rw [List.cons_append, avoidsAll, avoidsAll, ih, Bool.and_assoc]

variable {cs' ps' : List Cmd}

/-- Behind related commands that end alike, the cells are held that these do not disturb. -/
theorem Code.sameEnd_cons {c c' : Cmd} (h : Code C σ (c :: cs) (c' :: ps))
    (hcs : C.avoidsAll (c :: cs) = true) (hund : undisturbed C w A (c' :: ps ++ ps') = true)
    (hd : Holds C w A σ d p)
    (hcmd : C.avoids c = true → undisturbedCmd C w A c' = true →
      SameEnd C (runCmd w c d) (runCmd w c' p))
    (hrest : ∀ {A d p}, C.avoidsAll cs = true → undisturbed C w A (ps ++ ps') = true →
      Holds C w A σ d p → SameEnd C (runAll w (cs ++ cs') d) (runAll w (ps ++ ps') p)) :
    SameEnd C (runAll w (c :: cs ++ cs') d) (runAll w (c' :: ps ++ ps') p) := by
  have hcell : ∀ k, alters w c' (.var (C.cell k)) = false := fun k =>
    (Bool.or_eq_false_iff.mp (h.not_altersAny hcs k)).1
  simp only [Cells.avoidsAll, Bool.and_eq_true] at hcs
  simp only [List.cons_append, undisturbed, Bool.and_eq_true] at hund
  have hafter : A.after C w c' = A.kill w c' := by
    cases h with
    | set =>
      simp only [Cmd.set, Cells.avoids, Bool.and_eq_true, Bool.not_eq_true'] at hcs
      simp [Held.after, Cmd.set, hcs.1.1]
    | _ => rfl
  rw [List.cons_append, List.cons_append, runAll, runAll]
  have hend := hcmd hcs.1 hund.1
  rcases hc : runCmd w c d with _ | d₁ | d₁ <;> rcases hc' : runCmd w c' p with _ | p₁ | p₁ <;>
    rw [hc, hc'] at hend <;> cases hend
  · exact .stuck
  · rename_i hs
    exact hrest hcs.2 hund.2 (hafter ▸ hd.kill hs hc' hcell)
  · rename_i hs
    exact .returned hs

/-- Related code ends alike, when what follows does. -/
theorem Code.sameEnd (h : Code C σ cs ps) (hcs : C.avoidsAll cs = true)
    (hund : undisturbed C w A (ps ++ ps') = true) (hd : Holds C w A σ d p)
    (hrest : ∀ {A d p}, undisturbed C w A ps' = true → Holds C w A σ d p →
      SameEnd C (runAll w cs' d) (runAll w ps' p)) :
    SameEnd C (runAll w (cs ++ cs') d) (runAll w (ps ++ ps') p) := by
  induction h generalizing A d p cs' ps' with
  | nil => exact hrest hund hd
  | @assert c c' attrs cs ps hc h ih | @assume c c' attrs cs ps hc h ih =>
    refine Code.sameEnd_cons (by first | exact .assert hc h | exact .assume hc h) hcs hund hd
      (fun hfree hk => ?_) fun hcs hund hd => ih hcs hund hd hrest
    rw [runCmd, runCmd, hc.eval_eq hd hfree hk]
    split_ifs
    · exact .through hd.toSame
    · exact .stuck
  | @set x r r' cs ps hr h ih =>
    refine Code.sameEnd_cons (.set hr h) hcs hund hd (fun hfree hk => ?_) fun hcs hund hd =>
      ih hcs hund hd hrest
    simp only [Cmd.set, Cells.avoids, Bool.and_eq_true] at hfree
    have hval := hr.eval_eq hd hfree.2 hk
    simp only [Cmd.set, runCmd, hval]
    exact .through (hd.toSame.set x _)
  | @store map i i' r r' cs ps hi hr h ih =>
    refine Code.sameEnd_cons (.store hi hr h) hcs hund hd (fun hfree hk => ?_) fun hcs hund hd =>
      ih hcs hund hd hrest
    simp only [Cells.avoids, Bool.and_eq_true] at hfree
    simp only [undisturbedCmd, cmdReads, Held.knows_append, Bool.and_eq_true] at hk
    have hindex := hi.eval_eq hd hfree.1 hk.1
    have hval := hr.eval_eq hd hfree.2 hk.2
    simp only [runCmd, Machine.assign, hindex, hval, hd.memory]
    exact .through ⟨rfl, hd.calls, hd.locals⟩
  | @call attrs proc args args' outs cs ps ha h ih =>
    refine Code.sameEnd_cons (.call ha h) hcs hund hd (fun hfree hk => ?_) fun hcs hund hd =>
      ih hcs hund hd hrest
    simp only [Cells.avoids, Bool.and_eq_true] at hfree
    cases attrs with
    | cons => exact .through hd.toSame
    | nil =>
      rw [runCmd, runCmd, evalAll_eq ha hd hfree.1 hk]
      exact .through (hd.toSame.invoke _ _ _)
  | @branch c c' as as' bs bs' cs ps hc ha hb h iha ihb ih =>
    refine Code.sameEnd_cons (.branch hc ha hb h) hcs hund hd (fun hfree hk => ?_)
      fun hcs hund hd => ih hcs hund hd hrest
    simp only [Cells.avoids, undisturbedCmd, Bool.and_eq_true] at hfree hk
    have hnil : ∀ {A d p}, undisturbed C w A [] = true → Holds C w A σ d p →
        SameEnd C (runAll w [] d) (runAll w [] p) := fun _ hd => .through hd.toSame
    rw [runCmd, runCmd, hc.eval_eq hd hfree.1.1 hk.1.1]
    split_ifs
    · simpa using iha hfree.1.2 (by rw [List.append_nil]; exact hk.1.2) hd hnil
    · simpa using ihb hfree.2 (by rw [List.append_nil]; exact hk.2) hd hnil
  | goto h ih =>
    exact Code.sameEnd_cons (.goto h) hcs hund hd (fun _ _ => .stuck) fun hcs hund hd =>
      ih hcs hund hd hrest
  | ret h ih =>
    exact Code.sameEnd_cons (.ret h) hcs hund hd (fun _ _ => .returned hd.toSame)
      fun hcs hund hd => ih hcs hund hd hrest

/-- Code that sets and reads cells ends like the code with the expressions in their place. -/
theorem Body.sameEnd (h : Body C σ cs ps τ) (hcs : C.avoidsAll cs = true)
    (hund : undisturbed C w A ps = true) (hd : Holds C w A σ d p) :
    SameEnd C (runAll w cs d) (runAll w ps p) := by
  induction h generalizing A d p with
  | nil => exact .through hd.toSame
  | code hc _ ih =>
    rw [Cells.avoidsAll_append, Bool.and_eq_true] at hcs
    exact hc.sameEnd hcs.1 hund hd fun hund hd => ih hcs.2 hund hd
  | @pin σ τ k v v' cs ps hv _ ih =>
    simp only [Cmd.set, undisturbed, undisturbedCmd, cmdReads, Held.after, C.isCell_cell, if_true,
      Bool.and_eq_true] at hund
    exact ih hcs hund.2 (hd.pin hv hund.1)

end

/-- No cell is held. -/
def Held.none : Held := fun _ => Option.none

/-- Run as bodies of a procedure on the same data, the codes halt alike: one does when the other
one does, with the same memory, the same calls, and the same variables but for the cells. -/
def HaltAlike (C : Cells) (w : World) (cs ps : List Cmd) : Prop :=
  ∀ d, (∀ d', Halts w cs d d' → ∃ p', Halts w ps d p' ∧ Same C d' p') ∧
    ∀ p', Halts w ps d p' → ∃ d', Halts w cs d d' ∧ Same C d' p'

/-- Code that sets and reads cells halts like the code with the expressions in their place. -/
theorem Body.haltAlike {cs ps : List Cmd} (h : Body C σ cs ps τ) (hcs : C.avoidsAll cs = true)
    (hund : undisturbed C w .none ps = true) : HaltAlike C w cs ps := by
  intro d
  have hd : Holds C w .none σ d d := ⟨.refl C d, fun hps _ => by cases hps⟩
  have hend := h.sameEnd hcs hund hd
  simp only [Machine.halts_iff h.labels.1, Machine.halts_iff h.labels.2]
  constructor
  · rintro _ ⟨e, he, rfl⟩
    rw [he] at hend
    obtain ⟨e', he', hs⟩ := hend.right
    exact ⟨_, ⟨e', he', rfl⟩, hs⟩
  · rintro _ ⟨e', he', rfl⟩
    rw [he'] at hend
    obtain ⟨e, he, hs⟩ := hend.left
    exact ⟨_, ⟨e, he, rfl⟩, hs⟩

end Unwind.Pinned
