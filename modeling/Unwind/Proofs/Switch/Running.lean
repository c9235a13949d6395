import Unwind.Proofs.Lowering.Confined
import Unwind.Proofs.Modes.Agreement
import Unwind.Proofs.Returns
import Unwind.Proofs.Switch.Cases

/-!
# A switch runs the first case that matches

Where nothing is raised, the commands of the scrutinee are gone through once. Then only tests are
run, until control is in front of one body: that of the first case whose value is the scrutinee's,
or that of the default case. From there on, control leaves the body only for the end of the `switch`
or for a place outside of it, whatever the body does to the variables that the tests read
(`lowerStmt_switch_runs_first`).
-/

namespace Unwind.Machine

variable {w : World} {prog pre code left body right more rest is js : List Instr} {d : Data}

/-! ## Code with its skips -/

/-- No instruction skips more than there is behind it. -/
def Closed : List Instr → Prop
  | [] => True
  | i :: is => (∀ n, i.skip? = some n → n ≤ is.length) ∧ Closed is

theorem Closed.append (ha : Closed is) (hb : Closed js) : Closed (is ++ js) := by
  induction is with
  | nil => exact hb
  | cons i is ih =>
    refine ⟨fun n hn => (ha.1 n hn).trans ?_, ih ha.2⟩
    exact (List.sublist_append_left is js).length_le

theorem Closed.suffix (h : Closed code) (hs : is <:+ code) : Closed is := by
  obtain ⟨pre, rfl⟩ := hs
  induction pre with
  | nil => exact h
  | cons i pre ih => exact ih h.2

mutual

theorem closed_flattenCmd (c : Ir.Cmd) : Closed (flattenCmd c) := by
  cases c with
  | ifElse cond thenCmds elseCmds =>
    rw [flattenCmd]
    have htest : Closed (.jump (flatten elseCmds).length :: flatten elseCmds) := by
      refine ⟨?_, closed_flatten elseCmds⟩
      rintro n ⟨⟩
      exact le_rfl
    refine ⟨?_, (closed_flatten thenCmds).append htest⟩
    rintro n ⟨⟩
    rw [List.length_append, List.length_cons]
    omega
  | call attrs proc args outs => cases attrs <;> exact ⟨nofun, trivial⟩
  | _ => exact ⟨nofun, trivial⟩

theorem closed_flatten (cs : List Ir.Cmd) : Closed (flatten cs) := by
  cases cs with
  | nil => trivial
  | cons c cs =>
    rw [flatten]
    exact (closed_flattenCmd c).append (closed_flatten cs)

end

/-! ## Control in a part of code -/

theorem inside_of_suffix (hs : is <:+ body) :
    Inside body more ⟨is ++ more, d⟩ ∨ is ++ more = more := by
  cases is with
  | nil => exact .inr rfl
  | cons i is => exact .inl ⟨_, List.cons_ne_nil _ _, hs, rfl⟩

theorem not_inside_end : ¬ Inside code rest ⟨rest, d⟩ := by
  rintro ⟨is, hne, -, his⟩
  exact hne (List.append_left_eq_self.mp his.symm)

/-- A step in closed code goes on in it, to its end, or to a label. -/
theorem step_inside (hclosed : Closed body) {c c' : Config} (hs : step w prog c = some c')
    (hc : Inside body more c) : Inside body more c' ∨ c'.rest = more ∨
      ∃ l, .goto l ∈ body ∧ landing l prog = some c'.rest := by
  obtain ⟨is, d⟩ := c
  obtain ⟨js, hne, hjs, rfl⟩ := hc
  cases js with
  | nil => exact absurd rfl hne
  | cons i is =>
    have hsuffix : ∀ {ks : List Instr}, ks <:+ is → c'.rest = ks ++ more →
        Inside body more c' ∨ c'.rest = more := by
      intro ks hks hrest
      obtain ⟨js, d'⟩ := c'
      obtain rfl : js = ks ++ more := hrest
      exact inside_of_suffix (hks.trans ((List.suffix_cons i is).trans hjs))
    rcases step_cases hs with ⟨-, hrest, -⟩ | ⟨n, hn, hrest, -⟩ | ⟨l, rfl, hl, -⟩
    · exact (hsuffix (List.suffix_refl _) hrest).imp_right .inl
    · have hrest : c'.rest = (is ++ more).drop n := hrest
      rw [List.drop_append_of_le_length ((hclosed.suffix hjs).1 n hn)] at hrest
      exact (hsuffix (List.drop_suffix _ _) hrest).imp_right .inl
    · exact .inr (.inr ⟨l, hjs.subset List.mem_cons_self, hl⟩)

theorem label_mem_labels {l : String} (h : .label l ∈ is) : l ∈ labels is :=
  List.mem_filterMap.mpr ⟨_, h, rfl⟩

theorem landing_append_of_mem {l : String} (more : List Instr) (h : l ∈ labels body) :
    ∃ is, is ≠ [] ∧ is <:+ body ∧ landing l (body ++ more) = some (is ++ more) := by
  induction body with
  | nil => cases h
  | cons i body ih =>
    rw [List.cons_append, landing]
    by_cases hi : i.label? = some l
    · rw [if_pos hi]
      exact ⟨i :: body, List.cons_ne_nil _ _, List.suffix_refl _, rfl⟩
    · have hl : l ∈ labels body := by simpa [hi] using h
      obtain ⟨is, hne, hsuf, hland⟩ := ih hl
      rw [if_neg hi]
      exact ⟨is, hne, hsuf.trans (List.suffix_cons _ _), hland⟩

/-- A jump to a label that stands in no other part of the code leads into the body, or out of the
code. -/
theorem inside_of_landing {l : String} {c : Config} (hcode : code = left ++ (body ++ right))
    (hpre : ∀ l ∈ labels code, l ∉ labels pre) (hleft : l ∉ labels left)
    (hright : l ∉ labels right) (h : landing l (pre ++ (code ++ rest)) = some c.rest) :
    Inside body (right ++ rest) c ∨ ¬ Inside code rest c := by
  by_cases hl : l ∈ labels body
  · have hmem : l ∈ labels code := by simp [hcode, hl]
    obtain ⟨is, hne, hsuf, hland⟩ := landing_append_of_mem (right ++ rest) hl
    rw [Modes.landing_append_of_notMem (hpre l hmem), hcode, List.append_assoc,
      Modes.landing_append_of_notMem hleft, List.append_assoc, hland] at h
    exact .inl ⟨is, hne, hsuf, (Option.some.inj h).symm⟩
  · refine .inr ?_
    rintro ⟨is, hne, hsuf, his⟩
    obtain ⟨js, hjs⟩ := Lowering.landing_label h
    obtain ⟨i, is, rfl⟩ := List.exists_cons_of_ne_nil hne
    rw [his] at hjs
    obtain rfl : i = .label l := (List.cons.inj hjs).1
    have hmem := label_mem_labels (hsuf.subset List.mem_cons_self)
    simp [hcode, hl, hleft, hright] at hmem

/-! ## A body that is run -/

/-- From the first instruction of the body on, control stays in the body while it is in the code:
at the end of the body it leaves the code. -/
structure RunsOnly (w : World) (prog code rest body more : List Instr) (d : Data) : Prop where
  stays : ∀ c, Stays w prog code rest ⟨body ++ more, d⟩ c →
    Inside body more c ∨ c.rest = more ∨ ¬ Inside code rest c
  ends : ∀ d', Reaches w prog ⟨more, d'⟩ ⟨rest, d'⟩

/-- A body of which the other parts of the code are kept apart by their labels. -/
theorem runsOnly (hcode : code = left ++ (body ++ right))
    (hpre : ∀ l ∈ labels code, l ∉ labels pre)
    (hown : ∀ l, .goto l ∈ body → l ∉ labels left ∧ l ∉ labels right) (hclosed : Closed body)
    (hright : right = [] ∨ ∃ is, right = .jump is.length :: is) :
    RunsOnly w (pre ++ (code ++ rest)) code rest body (right ++ rest) d := by
  refine ⟨fun c h => ?_, fun d' => ?_⟩
  · induction h with
    | refl => exact (inside_of_suffix (List.suffix_refl body)).imp_right .inl
    | @tail c c' _ hstep ih =>
      obtain ⟨hs, hin⟩ := hstep
      rcases ih with hbody | hend | hout
      · rcases step_inside hclosed hs hbody with h | h | ⟨l, hl, hland⟩
        · exact .inl h
        · exact .inr (.inl h)
        · obtain ⟨hleft, hright⟩ := hown l hl
          exact (inside_of_landing hcode hpre hleft hright hland).imp_right .inr
      · obtain ⟨is, d'⟩ := c
        obtain rfl : is = right ++ rest := hend
        rcases hright with rfl | ⟨is, rfl⟩
        · exact absurd hin not_inside_end
        · refine .inr (.inr ?_)
          have hc' : c'.rest = rest := by
            cases hs
            simp
          obtain ⟨js, d''⟩ := c'
          obtain rfl : js = rest := hc'
          exact not_inside_end
      · exact absurd hin hout
  · rcases hright with rfl | ⟨is, rfl⟩
    · exact .refl
    · exact reaches_jump

/-- Control is at a test. -/
def IsTest (c : Config) : Prop := ∃ cond n is, c.rest = .branchUnless cond n :: is

end Unwind.Machine

namespace Unwind.Lowering

open Machine (Along Config Data Instr IsTest Passes Raises RunsOnly Stays World eval flatten gotos labels
  mem_gotos)
open Modes (Steps)
open Source (Expr JumpFree Stmt SwitchCase)
open Ir (Cmd)

variable {w : World} {ρ : List Frame} {m n : Nat} {v u : Ir.Expr} {body ds : List Cmd}
  {arms as bs : List (Ir.Expr × List Cmd)} {rest prog : List Instr} {d : Data}

/-! ## The tests of a switch -/

/-- What stands behind the body of a case: the jump over the cases that follow, and these. -/
def behindCase (v : Ir.Expr) (ds : List Cmd) (bs : List (Ir.Expr × List Cmd)) : List Instr :=
  .jump (flatten (caseTests v ds bs)).length :: flatten (caseTests v ds bs)

theorem flatten_caseTests_cons : flatten (caseTests v ds ((u, body) :: arms)) =
    .branchUnless (.eq v u) ((flatten body).length + 1) ::
      (flatten body ++ behindCase v ds arms) := by
  rw [caseTests, Machine.flatten_singleton, Machine.flattenCmd, behindCase]

theorem holds_eq : (eval w d (.eq v u)).holds = true ↔ eval w d u = eval w d v := by
  show (Machine.Value.bool (eval w d v == eval w d u)).holds = true ↔ _
  rw [Machine.Value.holds_bool, beq_iff_eq, eq_comm]

/-- A case that does not match is passed over. -/
theorem along_miss (h : eval w d u ≠ eval w d v) :
    Along w prog IsTest ⟨flatten (caseTests v ds ((u, body) :: arms)) ++ rest, d⟩
      ⟨flatten (caseTests v ds arms) ++ rest, d⟩ := by
  refine .head ?_ ⟨_, _, _, by rw [flatten_caseTests_cons]; rfl⟩ .refl
  rw [flatten_caseTests_cons]
  show some (Config.mk _ _) = _
  rw [if_neg (mt holds_eq.1 h), behindCase]
  simp

/-- The body of a case that matches comes next. -/
theorem along_hit (h : eval w d u = eval w d v) :
    Along w prog IsTest ⟨flatten (caseTests v ds ((u, body) :: arms)) ++ rest, d⟩
      ⟨flatten body ++ (behindCase v ds arms ++ rest), d⟩ := by
  refine .head ?_ ⟨_, _, _, by rw [flatten_caseTests_cons]; rfl⟩ .refl
  rw [flatten_caseTests_cons]
  show some (Config.mk _ _) = _
  rw [if_pos (holds_eq.2 h)]
  simp

theorem along_misses (h : ∀ arm ∈ as, eval w d arm.1 ≠ eval w d v) :
    Along w prog IsTest ⟨flatten (caseTests v ds (as ++ bs)) ++ rest, d⟩
      ⟨flatten (caseTests v ds bs) ++ rest, d⟩ := by
  induction as with
  | nil => exact .refl
  | cons arm as ih =>
    obtain ⟨u, body⟩ := arm
    obtain ⟨hmiss, h⟩ := List.forall_mem_cons.mp h
    exact (along_miss hmiss).trans (ih h)

/-! ## The labels of the bodies -/

theorem Spaced.ofRegions (h : Spaced ρ m ds n arms) :
    OfRegions (fun r => m ≤ r ∧ r < n) (labels (flatten (caseTests v ds arms))) := by
  induction arms generalizing n with
  | nil => exact h.2.labels
  | cons arm arms ih =>
    obtain ⟨u, body⟩ := arm
    obtain ⟨k, hn, harms, hbody⟩ := h
    have hlow := (ih harms).imp fun r hr => And.intro hr.1 (hr.2.trans_le hn)
    rw [flatten_caseTests_cons, behindCase]
    simpa [Instr.label?, ofRegions_append] using And.intro (hbody.mono harms.le le_rfl).labels hlow

/-- The tests from one case on, behind the code of the cases before. -/
theorem Spaced.split (h : Spaced ρ m ds n (as ++ bs)) :
    ∃ left k, flatten (caseTests v ds (as ++ bs)) = left ++ flatten (caseTests v ds bs) ∧
      k ≤ n ∧ OfRegions (fun r => k ≤ r ∧ r < n) (labels left) ∧ Spaced ρ m ds k bs := by
  induction as generalizing n with
  | nil => exact ⟨[], n, rfl, le_rfl, ofRegions_nil, h⟩
  | cons arm as ih =>
    obtain ⟨u, body⟩ := arm
    obtain ⟨k₁, hn, harms, hbody⟩ := h
    obtain ⟨left, k, hleft, hk, hlabels, hbs⟩ := ih harms
    refine ⟨.branchUnless (.eq v u) ((flatten body).length + 1) :: (flatten body ++
      .jump (flatten (caseTests v ds (as ++ bs))).length :: left), k, ?_, hk.trans hn, ?_, hbs⟩
    · rw [List.cons_append, flatten_caseTests_cons, behindCase, hleft]
      simp
    · have hlow := hlabels.imp fun r hr => And.intro hr.1 (hr.2.trans_le hn)
      simpa [Instr.label?, ofRegions_append] using And.intro (hbody.mono hk le_rfl).labels hlow

/-- The jumps of a body lead to none of the labels in code of other regions. -/
theorem apart_of_fenced {k p : Nat} {code left right : List Instr} (hρ : ∀ f ∈ ρ, f.region < m)
    (hn : m ≤ n) (hleft : OfRegions (fun r => n ≤ r ∧ r < p) (labels left))
    (h : Fenced ρ k n code) (hright : OfRegions (fun r => m ≤ r ∧ r < k) (labels right))
    {l : String} (hl : .goto l ∈ code) : l ∉ labels left ∧ l ∉ labels right := by
  have hmem : l ∈ gotos code := mem_gotos.mpr hl
  refine ⟨h.gotos.disjoint hleft ?_ hmem, h.gotos.disjoint hright ?_ hmem⟩
  all_goals
    rintro r (hr | ⟨f, hf, rfl⟩) hr'
    · omega
    · have := hρ f hf
      omega

/-! ## The selected body -/

/-- From the tests on, nothing but tests is run until control is in front of the body, and of all
code of the `switch` only the body is run then. -/
structure Selects (w : World) (prog code rest tests body more : List Instr) (d : Data) : Prop where
  tests : Along w prog IsTest ⟨tests ++ rest, d⟩ ⟨body ++ more, d⟩
  body : RunsOnly w prog code rest body more d

section

variable {head pre : List Instr}

theorem selects_case (hρ : ∀ f ∈ ρ, f.region < m) (hhead : labels head = [])
    (hspaced : Spaced ρ m ds n (as ++ (u, body) :: bs))
    (hpre : ∀ l ∈ labels (head ++ flatten (caseTests v ds (as ++ (u, body) :: bs))), l ∉ labels pre)
    (hmiss : ∀ arm ∈ as, eval w d arm.1 ≠ eval w d v) (hhit : eval w d u = eval w d v) :
    Selects w (pre ++ (head ++ flatten (caseTests v ds (as ++ (u, body) :: bs)) ++ rest))
      (head ++ flatten (caseTests v ds (as ++ (u, body) :: bs))) rest
      (flatten (caseTests v ds (as ++ (u, body) :: bs))) (flatten body)
      (behindCase v ds bs ++ rest) d := by
  refine ⟨(along_misses hmiss).trans (along_hit hhit), ?_⟩
  obtain ⟨left, k, hleft, -, hlabels, k', hk, hbs, hbody⟩ := hspaced.split (v := v)
  have hcode : head ++ flatten (caseTests v ds (as ++ (u, body) :: bs)) =
      (head ++ (left ++ [Instr.branchUnless (.eq v u) ((flatten body).length + 1)])) ++
        (flatten body ++ behindCase v ds bs) := by
    rw [hleft, flatten_caseTests_cons]
    simp
  have hbefore : OfRegions (fun r => k ≤ r ∧ r < n)
      (labels (head ++ (left ++ [Instr.branchUnless (.eq v u) ((flatten body).length + 1)]))) := by
    simpa [hhead, Instr.label?] using hlabels
  have hbehind : OfRegions (fun r => m ≤ r ∧ r < k') (labels (behindCase v ds bs)) := by
    simpa [behindCase, Instr.label?] using hbs.ofRegions (v := v)
  exact Machine.runsOnly hcode hpre
    (fun l hl => apart_of_fenced hρ (hbs.le.trans hk) hbefore hbody hbehind hl)
    (Machine.closed_flatten body) (.inr ⟨_, rfl⟩)

theorem selects_default (hρ : ∀ f ∈ ρ, f.region < m) (hhead : labels head = [])
    (hspaced : Spaced ρ m ds n arms)
    (hpre : ∀ l ∈ labels (head ++ flatten (caseTests v ds arms)), l ∉ labels pre)
    (hmiss : ∀ arm ∈ arms, eval w d arm.1 ≠ eval w d v) :
    Selects w (pre ++ (head ++ flatten (caseTests v ds arms) ++ rest))
      (head ++ flatten (caseTests v ds arms)) rest (flatten (caseTests v ds arms)) (flatten ds)
      rest d := by
  rw [← List.append_nil arms] at hspaced hmiss hpre ⊢
  refine ⟨along_misses (by simpa using hmiss), ?_⟩
  obtain ⟨left, k, hleft, -, hlabels, hm, hds⟩ := hspaced.split (v := v)
  have hcode : head ++ flatten (caseTests v ds (arms ++ [])) =
      (head ++ left) ++ (flatten ds ++ []) := by
    rw [hleft, caseTests]
    simp
  have hbefore : OfRegions (fun r => k ≤ r ∧ r < n) (labels (head ++ left)) := by
    simpa [hhead] using hlabels
  exact Machine.runsOnly hcode hpre
    (fun l hl => apart_of_fenced hρ hm hbefore hds ofRegions_nil hl)
    (Machine.closed_flatten ds) (.inl rfl)

end

/-! ## The scrutinee -/

section

variable {env : Env} {scopes : LabelScopes} {s s₁ s₂ : State} {span : Span} {e : Expr}
  {cases : List SwitchCase} {head : List Cmd}

/-- Where no call raises, the code of the scrutinee is gone through. -/
theorem stays_head (hv : View scopes ρ s)
    (hmarks : Runs (emitMarks env span (.switch e cases)) s () s₁) (h : Runs (value env e) s₁ v s₂)
    (hcmds : s₂.cmds = s.cmds ++ head) :
    labels (flatten head) = [] ∧ ∀ {w : World} {prog rest : List Instr} {d : Data},
      ¬ Raises w prog (flatten head) rest ⟨flatten head ++ rest, d⟩ →
      ∃ d', Stays w prog (flatten head) rest ⟨flatten head ++ rest, d⟩ ⟨rest, d'⟩ := by
  let L : Layout := ⟨env, scopes, fun _ => True⟩
  have c₁ : Coded L [] ρ s s₁ := .of_marks (.emitMarks hmarks)
  obtain ⟨ls, he, hleaf⟩ := c₁.trans (value_coded (fun _ _ => trivial) (c₁.view hv) h)
  obtain ⟨ms, hms, hm⟩ := Marks.emitMarks hmarks
  obtain ⟨P, models, cs, hcs, hsteps⟩ := value_steps h
  obtain ⟨ks, hks, hf⟩ := he.cmds
  obtain ⟨qs, hqs, hf'⟩ := hm.cmds
  -- the commands are those of the marks and of the value
  rw [hcmds, List.append_cancel_left_eq] at hks
  rw [hcs, hqs, List.append_assoc, List.append_cancel_left_eq] at hcmds
  subst hks
  have hall : Steps P models models (flatten head) (flatten head) := by
    rw [← hcmds, Machine.flatten_append, hf']
    exact (Modes.steps_quiet hms).append hsteps
  refine ⟨hf ▸ hleaf.labelsOf, fun {w prog rest d} hd => ?_⟩
  have hpass : Passes w prog (flatten head) rest ⟨flatten head ++ [] ++ rest, d⟩ [] :=
    hall.passes (by rw [List.append_nil])
  rw [List.append_nil] at hpass
  exact hpass.resolve_right hd

end

/-! ## The whole switch -/

/-- The code of a `switch` in a program, run from the data `d` on: the head is gone through once,
and then one body is run, if any. The code of the body of a case, or of the default case, is known
by what stands behind it. -/
def RunsFirst (w : World) (pre rest : List Instr) (head : List Cmd) (v : Ir.Expr)
    (arms : List (Ir.Expr × List Cmd)) (ds : List Cmd) (d : Data) : Prop :=
  let tests := flatten (caseTests v ds arms)
  let code := flatten head ++ tests
  let prog := pre ++ (code ++ rest)
  ∃ d', Stays w prog (flatten head) (tests ++ rest) ⟨code ++ rest, d⟩ ⟨tests ++ rest, d'⟩ ∧
    (∀ as u body bs, arms = as ++ (u, body) :: bs →
      (∀ arm ∈ as, eval w d' arm.1 ≠ eval w d' v) → eval w d' u = eval w d' v →
      Selects w prog code rest tests (flatten body) (behindCase v ds bs ++ rest) d') ∧
    ((∀ arm ∈ arms, eval w d' arm.1 ≠ eval w d' v) →
      Selects w prog code rest tests (flatten ds) rest d')

/-- Take a `switch` whose case values need no commands and whose bodies have nothing to do with
labels. Where no call in the code of its scrutinee raises, running its code goes through the code of
the scrutinee once. Then it runs the body of the first case whose value is that of the scrutinee,
the body of the last default case where there is no such case, and no other body, before control has
left the code. `pre` and `rest` stand around the code; its labels, which are those of new regions,
stand nowhere in `pre`. -/
theorem lowerStmt_switch_runs_first {env : Env} {id : UInt32} {span : Span} {scrutinee : Expr}
    {cases : List SwitchCase} {scopes : LabelScopes} {ρ : List Frame} {s s' : State}
    (hvalues : ∀ case ∈ cases, ∀ e ∈ case.value, Wordless env e)
    (hfree : JumpFree (Source.statementsInCases cases)) (hv : View scopes ρ s)
    (h : Runs (lowerStmt env ⟨id, span, .switch scrutinee cases⟩) s () s') :
    ∃ head v arms ds, SwitchCode env span scrutinee cases s head v arms ds ∧
      s'.cmds = s.cmds ++ (head ++ caseTests v ds arms) ∧
      ∀ (w : World) (pre rest : List Instr) (d : Data),
        let code := flatten head ++ flatten (caseTests v ds arms)
        ¬ Raises w (pre ++ (code ++ rest)) (flatten head) (flatten (caseTests v ds arms) ++ rest)
          ⟨code ++ rest, d⟩ →
        (∀ l ∈ labels code, l ∉ labels pre) → RunsFirst w pre rest head v arms ds d := by
  obtain ⟨head, v, arms, ds, n, hcode, hcmds, hspaced⟩ := switchCode_of_runs hvalues hfree hv h
  refine ⟨head, v, arms, ds, hcode, hcmds, fun w pre rest d => ?_⟩
  intro code hd hpre
  obtain ⟨s₁, s₂, hmarks, hvalue, hhead⟩ := hcode.head
  obtain ⟨hlabels, hstays⟩ := stays_head hv hmarks hvalue hhead
  have hρ : ∀ f ∈ ρ, f.region < s.regions.length := fun f hf => hv.lt_regions hf
  rw [List.append_assoc (flatten head)] at hd
  obtain ⟨d', hd'⟩ := hstays hd
  refine ⟨d', ?_, ?_, selects_default hρ hlabels hspaced hpre⟩
  · rw [List.append_assoc (flatten head)]
    exact hd'
  · rintro as u body bs rfl hmiss hhit
    exact selects_case hρ hlabels hspaced hpre hmiss hhit

/-- Cases with the default case between them; the first body sets the variable that is tested. -/
def dialCases : List SwitchCase :=
  let set (name : String) (n : Int64) : List Stmt := [.expr (.assign (.var name) (.int n))]
  [⟨{}, some (.int 1), set "x" 2⟩, ⟨{}, none, set "y" 0⟩, ⟨{}, some (.int 2), set "y" 3⟩]

theorem dial_runs_first : ∃ s' head v arms ds,
    Runs (lowerStmt {} (.ofKind (.switch (.var "x" .int) dialCases))) {} () s' ∧
    SwitchCode {} {} (.var "x" .int) dialCases {} head v arms ds ∧ arms.length = 2 ∧
    RunsFirst Modes.calmWorld [] [] head v arms ds Modes.blankData := by
  have hok : ((lowerStmt {} (.ofKind (.switch (.var "x" .int) dialCases))).run
      ({} : State)).1.toBool = true := by decide +kernel
  have hvalues : ∀ case ∈ dialCases, ∀ e ∈ case.value, Wordless {} e := by
    simp only [dialCases, List.forall_mem_cons, Option.mem_def, Option.some.injEq, reduceCtorEq,
      false_implies, implies_true, true_and, forall_eq']
    exact ⟨wordless_literal, wordless_literal, List.forall_mem_nil _⟩
  have hfree : JumpFree (Source.statementsInCases dialCases) := by
    unfold JumpFree
    decide +kernel
  have hview : View {} [] ({} : State) :=
    ⟨fun _ r h => absurd h (Option.some_ne_none r).symm, rfl, List.forall_mem_nil _, rfl,
      fun x h => absurd h (Option.some_ne_none x).symm⟩
  cases hrun : (lowerStmt {} (.ofKind (.switch (.var "x" .int) dialCases))).run ({} : State) with
  | mk r s' =>
    rw [hrun] at hok
    cases r with
    | error f => cases hok
    | ok u =>
      obtain ⟨head, v, arms, ds, hcode, hcmds, hfirst⟩ :=
        lowerStmt_switch_runs_first hvalues hfree hview hrun
      have hhead : head = [] := by
        obtain ⟨s₁, s₂, h₁, h₂, hcmds⟩ := hcode.head
        obtain rfl : {} = s₁ := congrArg Prod.snd h₁
        obtain rfl : {} = s₂ := congrArg Prod.snd h₂
        exact hcmds.symm
      refine ⟨s', head, v, arms, ds, hrun, hcode, hcode.arms.length_eq.symm, ?_⟩
      refine hfirst _ [] [] _ ?_ (fun _ _ => List.not_mem_nil)
      subst hhead
      rintro ⟨proc, args, outs, is, d, hcall, -⟩
      exact List.cons_ne_nil _ _ (List.suffix_nil.mp hcall)

end Unwind.Lowering
