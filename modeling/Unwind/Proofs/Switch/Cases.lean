import Unwind.Proofs.Switch.Fences

/-!
# The code of a switch

The cases of a `switch` are lowered to tests inside each other (`caseTests`), in the order in which
they are declared, with the code of the last default case inside the innermost one. The cases are
lowered from the last to the first, behind the default case: the regions in the code of each come
behind those of the cases that follow (`Spaced`).
-/

namespace Unwind.Source

/-- The cases with a value, each with its body. -/
def valuedCases (cases : List SwitchCase) : List (Expr × List Stmt) :=
  cases.filterMap fun case => case.value.map (·, case.body)

/-- The body of the last default case, and nothing where there is none. -/
def lastDefault (cases : List SwitchCase) : List Stmt :=
  ((cases.filter (·.value.isNone)).getLast?.map (·.body)).getD []

theorem lastDefault_cons (case : SwitchCase) (cases : List SwitchCase) :
    lastDefault (case :: cases) =
      if case.value.isSome || cases.any (·.value.isNone) then lastDefault cases else case.body := by
  unfold lastDefault
  rw [List.filter_cons]
  cases hv : case.value with
  | some e => rfl
  | none =>
    cases hany : cases.any (·.value.isNone) with
    | false =>
      have hnil : cases.filter (·.value.isNone) = [] := by
        rw [List.filter_eq_nil_iff]
        rw [List.any_eq_false] at hany
        exact hany
      rw [hnil]
      rfl
    | true =>
      obtain ⟨c, hc, hnone⟩ := List.any_eq_true.mp hany
      have hne : cases.filter (·.value.isNone) ≠ [] :=
        List.ne_nil_of_mem (List.mem_filter.mpr ⟨hc, hnone⟩)
      obtain ⟨d, ds, hds⟩ := List.exists_cons_of_ne_nil hne
      rw [hds]
      rfl

theorem JumpFree.lastDefault {cases : List SwitchCase} (h : JumpFree (statementsInCases cases)) :
    JumpFree (statementsIn (lastDefault cases)) := by
  induction cases with
  | nil => exact h
  | cons case cases ih =>
    obtain ⟨span, value, body⟩ := case
    obtain ⟨hbody, hcases⟩ := jumpFree_append.mp h
    rw [lastDefault_cons]
    split
    · exact ih hcases
    · exact hbody

end Unwind.Source

namespace Unwind.Lowering

open Machine (flatten labels)
open Source (Expr JumpFree Stmt SwitchCase jumpFree_append lastDefault valuedCases)
open Ir (Cmd)

/-- The tests of a switch, in the order of its cases, with the code of the default case inside. -/
def caseTests (v : Ir.Expr) (ds : List Cmd) : List (Ir.Expr × List Cmd) → List Cmd
  | [] => ds
  | (w, body) :: arms => [.ifElse (.eq v w) body (caseTests v ds arms)]

/-- The expression is lowered without commands. -/
def Wordless (env : Env) (e : Expr) : Prop :=
  ∀ {s s' : State} {v : Ir.Expr}, Runs (value env e) s v s' → s'.cmds = s.cmds

theorem wordless_literal {env : Env} {span : Span} {ty : Source.Ty} {id : UInt32}
    {lit : Source.Lit} : Wordless env ⟨id, span, ty, .literal lit⟩ := by
  intro s s' v h
  simp only [value, valueOf, lowerExpr, runs_bind, runs_pure] at h
  obtain ⟨_, _, ⟨rfl, rfl⟩, h⟩ := h
  obtain ⟨-, rfl⟩ := runs_pure.mp h
  rfl

/-- The value and the code that a case is lowered to. -/
structure ArmOf (env : Env) (case : Expr × List Stmt) (arm : Ir.Expr × List Cmd) : Prop where
  value : ∃ s s', Runs (Lowering.value env case.1) s arm.1 s'
  body : ∃ s s', Runs (commandsOf (lowerStmts env case.2)) s arm.2 s'

/-- What the parts of a `switch` are lowered to, from the state `s` on. -/
structure SwitchCode (env : Env) (span : Span) (scrutinee : Expr) (cases : List SwitchCase)
    (s : State) (head : List Cmd) (v : Ir.Expr) (arms : List (Ir.Expr × List Cmd))
    (ds : List Cmd) : Prop where
  /-- Marks, and the commands of the scrutinee. -/
  head : ∃ s₁ s₂, Runs (emitMarks env span (.switch scrutinee cases)) s () s₁ ∧
    Runs (value env scrutinee) s₁ v s₂ ∧ s₂.cmds = s.cmds ++ head
  arms : List.Forall₂ (ArmOf env) (valuedCases cases) arms
  default : ∃ t t', Runs (commandsOf (lowerStmts env (lastDefault cases))) t ds t'

/-- The codes of the cases, each fenced apart from those of the cases behind it; `ds` comes
first. -/
def Spaced (ρ : List Frame) (m : Nat) (ds : List Cmd) :
    Nat → List (Ir.Expr × List Cmd) → Prop
  | n, [] => m ≤ n ∧ Fenced ρ m n (flatten ds)
  | n, (_, body) :: arms => ∃ k, k ≤ n ∧ Spaced ρ m ds k arms ∧ Fenced ρ k n (flatten body)

theorem Spaced.le {ρ : List Frame} {m n : Nat} {ds : List Cmd} {arms : List (Ir.Expr × List Cmd)}
    (h : Spaced ρ m ds n arms) : m ≤ n := by
  induction arms generalizing n with
  | nil => exact h.1
  | cons arm arms ih =>
    obtain ⟨k, hk, harms, -⟩ := h
    exact (ih harms).trans hk

section

variable {env : Env} {scopes : LabelScopes} {ρ : List Frame} {s s' : State} {u : Unit}
  {v : Ir.Expr} {ds : List Cmd}

theorem runs_lowerDefault {cases : List SwitchCase} (h : Runs (lowerDefault env cases) s ds s') :
    Runs (commandsOf (lowerStmts env (lastDefault cases))) s ds s' := by
  induction cases with
  | nil =>
    rw [lowerDefault, runs_pure] at h
    obtain ⟨rfl, rfl⟩ := h
    have hnone : Runs (lowerStmts env []) { s' with cmds := [] } () { s' with cmds := [] } := by
      rw [lowerStmts]
      exact runs_pure.mpr ⟨rfl, rfl⟩
    exact runs_commandsOf.mpr ⟨_, hnone, rfl, rfl⟩
  | cons case cases ih =>
    obtain ⟨span, value?, body⟩ := case
    rw [lowerDefault] at h
    rw [Source.lastDefault_cons]
    split at h
    · next hlater => exact if_pos hlater ▸ ih h
    · next hhere => exact if_neg hhere ▸ h

theorem arms_of_lowerCases {cases : List SwitchCase} {chain : Option Cmd} {m : Nat}
    (hvalues : ∀ case ∈ cases, ∀ e ∈ case.value, Wordless env e)
    (hfree : JumpFree (Source.statementsInCases cases)) (hv : View scopes ρ s)
    (hm : m ≤ s.regions.length) (hds : Fenced ρ m s.regions.length (flatten ds))
    (h : Runs (lowerCases env v ds cases) s chain s') :
    ∃ arms, List.Forall₂ (ArmOf env) (valuedCases cases) arms ∧
      (chain.elim ds ([·])) = caseTests v ds arms ∧ s'.cmds = s.cmds ∧
      Spaced ρ m ds s'.regions.length arms ∧ View scopes ρ s' := by
  induction cases generalizing chain s' with
  | nil =>
    rw [lowerCases, runs_pure] at h
    obtain ⟨rfl, rfl⟩ := h
    exact ⟨[], .nil, rfl, rfl, ⟨hm, hds⟩, hv⟩
  | cons case cases ih =>
    obtain ⟨span, value?, body⟩ := case
    obtain ⟨hvalues, hlater⟩ := List.forall_mem_cons.mp hvalues
    obtain ⟨hbody, hbodies⟩ := jumpFree_append.mp hfree
    simp only [lowerCases, runs_bind] at h
    obtain ⟨rest, s₁, h₁, h₂⟩ := h
    obtain ⟨arms, harms, hchain, hcmds, hspaced, hv₁⟩ := ih hlater hbodies h₁
    cases value? with
    | none =>
      obtain ⟨rfl, rfl⟩ := runs_pure.mp h₂
      exact ⟨arms, harms, hchain, hcmds, hspaced, hv₁⟩
    | some e =>
      simp only [runs_bind, runs_pure] at h₂
      obtain ⟨w, s₂, h₂, cmds, s₃, h₃, rfl, rfl⟩ := h₂
      obtain ⟨ls, he, -⟩ :=
        value_coded (L := .open env scopes) (π := []) (allows_open _) hv₁ h₂
      have hlen : s₂.regions.length = s₁.regions.length := he.regions
      obtain ⟨hv₃, hcmds₃, hle, hfence⟩ := fenced_lowerStmts hbody (he.view hv₁) h₃
      rw [hlen] at hle hfence
      refine ⟨(w, cmds) :: arms, .cons ⟨⟨_, _, h₂⟩, _, _, h₃⟩ harms, ?_, ?_,
        ⟨_, hle, hspaced, hfence⟩, hv₃⟩
      · rw [caseTests, ← hchain]
        cases rest <;> rfl
      · rw [hcmds₃, hvalues e rfl h₂, hcmds]

/-- A `switch` becomes the code of its scrutinee and the tests of its cases. -/
theorem switchCode_of_runs {id : UInt32} {span : Span} {scrutinee : Expr} {cases : List SwitchCase}
    (hvalues : ∀ case ∈ cases, ∀ e ∈ case.value, Wordless env e)
    (hfree : JumpFree (Source.statementsInCases cases)) (hv : View scopes ρ s)
    (h : Runs (lowerStmt env ⟨id, span, .switch scrutinee cases⟩) s u s') :
    ∃ head v arms ds n, SwitchCode env span scrutinee cases s head v arms ds ∧
      s'.cmds = s.cmds ++ (head ++ caseTests v ds arms) ∧ Spaced ρ s.regions.length ds n arms := by
  simp only [lowerStmt, runs_bind] at h
  obtain ⟨_, s₁, h₁, v, s₂, h₂, ds, s₃, h₃, chain, s₄, h₄, h₅⟩ := h
  have c₁ : Coded (.open env scopes) [] ρ s s₁ := .of_marks (.emitMarks h₁)
  obtain ⟨ls, he, -⟩ := c₁.trans
    (value_coded (L := .open env scopes) (allows_open _) (c₁.view hv) h₂)
  obtain ⟨head, hhead, -⟩ := he.cmds
  have hlen : s₂.regions.length = s.regions.length := he.regions
  have hdefault := runs_lowerDefault h₃
  obtain ⟨hv₃, hcmds₃, hle, hfence⟩ := fenced_lowerStmts hfree.lastDefault (he.view hv) hdefault
  rw [hlen] at hle hfence
  obtain ⟨arms, harms, hchain, hcmds₄, hspaced, -⟩ :=
    arms_of_lowerCases hvalues hfree hv₃ hle hfence h₄
  refine ⟨head, v, arms, ds, _, ⟨⟨s₁, s₂, h₁, h₂, hhead⟩, harms, _, _, hdefault⟩, ?_, hspaced⟩
  rw [← List.append_assoc, ← hhead, ← hcmds₃, ← hcmds₄, ← hchain]
  cases chain with
  | some k => exact congrArg (·.cmds) (runs_emit.mp h₅)
  | none => exact congrArg (·.cmds) (runs_emitAll.mp h₅)

end

end Unwind.Lowering
