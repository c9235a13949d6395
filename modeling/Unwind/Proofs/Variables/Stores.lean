import Mathlib
import Unwind.Proofs.Variables.Values

/-!
# The types of what statements store

A statement that is well typed in a scope is lowered to commands that store values of the recorded
types (`typed_lowerStmt`). The records are for the body as a whole. They agree with the scope on
what is visible, and declaring a variable keeps it that way (`Within.declare`), for the variables of
the source program are recorded with the types that they are declared with (`Records.Knows`).
-/

namespace Unwind.Lowering

open Machine (isGenerated)
open Source (CatchClause Expr Scope Stmt StmtKind SwitchCase Ty Variable)
open Ir (Cmd)

/-! ## Scopes -/

/-- The variable is recorded with the type that it is declared with. -/
def Records.Knows (R : Records) (v : Variable) : Prop :=
  isGenerated v.name = false ∧ ∀ t, v.ty.ir? = some t → R.source v.name = some t

/-- What the records say about the variables of every procedure. -/
structure Records.Complete (R : Records) (ret : Option Ir.Ty) : Prop where
  exception : R.types.var Ir.exceptionVar = some .ref
  result : ∀ t, ret = some t → R.types.var resultVar = some t

/-- The variables that the statements declare are recorded so. -/
def Records.KnowsAll (R : Records) (ss : List Stmt) : Prop :=
  ∀ t ∈ ss, ∀ v ∈ t.kind.declares, R.Knows v

theorem Within.declare {Δ T : Ir.Types} {name : String} {t : Option Ir.Ty} (h : Within Δ T)
    (ht : T.var name = t) : Within (Δ.declare name t) T := by
  refine ⟨fun {x u} hx => ?_, h.map⟩
  rw [Ir.Types.declare_var] at hx
  split at hx
  · next he => rw [he, ht, hx]
  · exact h.var hx

theorem eval_eq_some {sc sc' : Scope} {e : Expr} (h : sc.eval e = some sc') :
    e.fits sc.types = true ∧ sc'.types = sc.types ∧
      sc.operands = taken e.popNodes sc'.operands := by
  simp only [Scope.eval] at h
  split at h
  · next hboth =>
    obtain ⟨hfits, hprefix⟩ := Bool.and_eq_true_iff.mp hboth
    obtain ⟨rest, hrest⟩ := List.isPrefixOf_iff_prefix.mp hprefix
    cases h
    refine ⟨hfits, rfl, ?_⟩
    dsimp only
    rw [taken, ← hrest, List.drop_left]
  · cases h

theorem evalAs_eq_some {sc sc' : Scope} {e : Expr} {t : Option Ir.Ty}
    (h : sc.evalAs e t = some sc') : t = e.ty.ir? ∧ (∃ u, t = some u) ∧ sc.eval e = some sc' := by
  unfold Scope.evalAs at h
  split at h
  · next hkept =>
    obtain ⟨ht, u, hu⟩ := keptAs_iff.mp hkept
    exact ⟨ht, ⟨u, ht.trans hu⟩, h⟩
  · cases h

section

variable {R : Records} {env : Env} {ret : Option Ir.Ty} {n : Nat} {sc sc' : Scope} {pre : Prop}

/-- An expression takes its operands from the scope. -/
theorem typed_value {e : Expr} (h : sc.eval e = some sc') (hpre : pre → Within sc.types R.types) :
    Typed R n pre sc.operands (value env e) sc'.operands fun v => v.ty? R.types = e.ty.ir? := by
  obtain ⟨hfits, -, hops⟩ := eval_eq_some h
  rw [hops]
  exact typed_valueOf (typed_lowerExpr e false hfits hpre)

theorem typed_condition {e : Expr} (h : sc.eval e = some sc')
    (hpre : pre → Within sc.types R.types) :
    Typed R n pre sc.operands (condition env e) sc'.operands fun _ => True := by
  obtain ⟨hfits, -, hops⟩ := eval_eq_some h
  rw [hops]
  exact (typed_conditionOf (typed_lowerExpr e false hfits hpre)).consequence id fun _ _ _ => trivial

theorem typed_effect {e : Expr} {compound : Bool} (h : sc.eval e = some sc')
    (hpre : pre → Within sc.types R.types) :
    Typed R n pre sc.operands (lowerExpr env e compound) sc'.operands fun _ => True := by
  obtain ⟨hfits, -, hops⟩ := eval_eq_some h
  rw [hops]
  exact (typed_lowerExpr e compound hfits hpre).consequence id fun _ _ _ => trivial

/-! ## Statements without parts -/

theorem typed_lowerReturn (hR : R.Complete ret) {span : Span} {e : Option Expr}
    (h : (match e with | none => some sc | some e => sc.evalAs e ret) = some sc')
    (hpre : pre → Within sc.types R.types) :
    Typed R n pre sc.operands (lowerReturn env span e) sc'.operands fun _ => True := by
  cases e with
  | none =>
    cases h
    exact typed_emit_idle rfl trivial
  | some e =>
    obtain ⟨hty, ⟨t, ht⟩, heval⟩ := evalAs_eq_some h
    refine (typed_value heval hpre).bind fun v => .look fun s hs => ?_
    split
    · next slot hslot =>
      obtain rfl := hs.returnVar slot hslot
      refine .lift_bind fun _ _ => typed_record.bind fun _ => (typed_set fun hv => ?_).bind fun _ =>
        typed_emit_idle rfl trivial
      exact ⟨t, hR.result t ht, hv.2.1.trans (hty.symm.trans ht)⟩
    · have hthrow : ∀ {m : Nat} {pre : Prop} {τ : List (Option Ir.Ty)}, Typed R m pre τ
          (throw (.noReturnSlot span) : Lower Unit) τ fun _ => True := .throw
      exact hthrow.bind fun _ => typed_emit_idle rfl trivial

/-- A default value takes no operands. -/
theorem eval_defaultValue {e : Expr} (he : isDefaultValue e = true) (h : sc.eval e = some sc') :
    sc'.operands = sc.operands := by
  obtain ⟨-, -, hops⟩ := eval_eq_some h
  obtain ⟨id, span, ty, kind⟩ := e
  cases kind with
  | defaultValue => exact hops.symm
  | _ => cases he

theorem exists_typeRef?_of_isStruct {types : TypeTable} {ty : Ty} (h : types.isStruct ty = true) :
    ∃ type, ty.typeRef? = some type := by
  cases ty with
  | named type => exact ⟨type, rfl⟩
  | void | bool | int => cases h

/-- A struct gets a copy of its initial value, or a new object. -/
theorem typed_initStruct {decl : Variable} {init : Option Expr}
    (hstruct : env.types.isStruct decl.ty = true) (href : decl.ty.ir? = some .ref)
    (hpre : pre → R.types.var decl.name = some .ref ∧ Within sc.types R.types)
    (hnone : init = none → sc' = sc) (hsome : ∀ e, init = some e → sc.eval e = some sc') :
    Typed R n pre sc.operands (match init.filter (!isDefaultValue ·), decl.ty.typeRef? with
      | some e, some type => do
        let proc ← withRegistry (·.structCopy type)
        let v ← value env e
        emit (.invoke proc [v] [decl.name])
      | _, _ => do
        let v ← value env (.ofKind (.defaultValue decl.ty) decl.ty)
        emit (.set decl.name v)) sc'.operands fun _ => True := by
  split
  · next e type he _ =>
    have heval := hsome e (Option.filter_eq_some_iff.mp he).1
    refine typed_withRegistry.bind fun proc => (typed_value heval fun hp => (hpre hp.2).2).bind
      fun v => typed_emit fun hp => allFit_invoke ?_
    exact List.forall_mem_singleton.mpr (.inr (hpre hp.2.2).1)
  · next hno =>
    have hops : sc'.operands = sc.operands := by
      cases init with
      | none => rw [hnone rfl]
      | some e =>
        refine eval_defaultValue ?_ (hsome e rfl)
        by_contra hne
        obtain ⟨type, htype⟩ := exists_typeRef?_of_isStruct hstruct
        exact hno e type (Option.filter_eq_some_iff.mpr ⟨rfl, by simpa using hne⟩) htype
    have hfits : (Expr.ofKind (.defaultValue decl.ty) decl.ty).fits sc.types = true := by
      simp [Expr.ofKind, Expr.fits, Ty.keptAs, href]
    have hvalue : Typed R n pre sc.operands
        (value env (.ofKind (.defaultValue decl.ty) decl.ty)) sc.operands
        fun v => v.ty? R.types = decl.ty.ir? :=
      typed_valueOf (typed_lowerExpr _ false hfits fun hp => (hpre hp).2)
    rw [hops]
    exact hvalue.bind fun v => typed_set fun hp => ⟨_, (hpre hp.2).1, hp.1.trans href⟩

theorem typed_lowerLocalDecl {decl : Variable} {init : Option Expr} (hdecl : R.Knows decl)
    (h : sc.declareLocal env.types decl init = some sc') (hpre : pre → Within sc.types R.types) :
    Typed R n pre sc.operands (lowerLocalDecl env decl init) sc'.operands fun _ =>
      Within sc'.types R.types := by
  refine .lift_bind fun ty hty => ?_
  have hir := ir?_of_irTy hty
  have hdeclared : R.types.var decl.name = some ty ∧ pre →
      Within (sc.declare decl).types R.types := fun hp => (hpre hp.2).declare (hp.1.trans hir.symm)
  unfold Scope.declareLocal at h
  split at h
  · cases h
  next hkept =>
    have htypes : sc'.types = (sc.declare decl).types := by
      cases init with
      | none =>
        cases h
        rfl
      | some e => exact (eval_eq_some (evalAs_eq_some h).2.2).2.1
    rw [htypes]
    refine (typed_declareLocal hdecl.1 (hdecl.2 ty hir)).bind fun _ => .ite (fun hstruct => ?_)
      fun _ => ?_
    · have href : decl.ty.ir? = some .ref := by
        rw [hstruct, Bool.true_and, Bool.not_eq_true, Bool.not_eq_false'] at hkept
        exact (keptAs_iff.mp hkept).1.symm
      refine (typed_initStruct hstruct href
        (fun hp => ⟨hp.1.trans (hir.symm.trans href), hdeclared hp⟩) ?_ ?_).consequence id
          fun _ _ => hdeclared
      · rintro rfl
        exact (Option.some.inj h).symm
      · rintro e rfl
        exact (evalAs_eq_some h).2.2
    · cases init with
      | none =>
        cases h
        exact .pure hdeclared
      | some e =>
        obtain ⟨he, -, heval⟩ := evalAs_eq_some h
        refine (typed_value heval hdeclared).bind fun v => typed_record.bind fun _ =>
          (typed_set fun hp => ⟨ty, hp.2.2.1, ?_⟩).consequence id fun _ _ hp => hdeclared hp.2.2
        exact hp.2.1.trans (he.symm.trans hir)

theorem typed_setException (hR : R.Complete ret) {σ : List (Option Ir.Ty)} {v : Ir.Expr}
    (h : pre → v.ty? R.types = some .ref) :
    Typed R n pre σ (emit (.set Ir.exceptionVar v)) σ fun _ => True :=
  typed_set fun hp => ⟨_, hR.exception, h hp⟩

/-- A variable is kept in the exception variable. -/
theorem typed_raise (hR : R.Complete ret) {σ : List (Option Ir.Ty)} {x : String}
    (h : pre → R.types.var x = some .ref) :
    Typed R n pre σ (emit (.set Ir.exceptionVar (.ident x))) σ fun _ => True :=
  typed_setException hR h

theorem typed_emitAssertion {σ : List (Option Ir.Ty)} {cond : Ir.Expr} :
    Typed R n pre σ (emitAssertion env cond) σ fun _ => True := by
  unfold emitAssertion
  split <;> exact typed_emit_idle rfl trivial

theorem typed_lowerThrow (hR : R.Complete ret) {e : Expr} (h : (if env.options.modelsExceptions then
      sc.evalAs e (some .ref) else some sc) = some sc') (hpre : pre → Within sc.types R.types) :
    Typed R n pre sc.operands (lowerThrow env e) sc'.operands fun _ => True := by
  refine .ite (fun hm => ?_) fun hm => ?_
  · rw [if_pos hm] at h
    obtain ⟨he, -, heval⟩ := evalAs_eq_some h
    exact (typed_value heval hpre).bind fun v => typed_record.seq
      ((typed_setException hR fun hp => hp.1.trans he.symm).seq typed_propagate)
  · rw [if_neg hm] at h
    cases h
    exact typed_emit_idle rfl trivial

variable {σ : List (Option Ir.Ty)}

theorem typed_lowerRethrow (hR : R.Complete ret) {span : Span} :
    Typed R n pre σ (lowerRethrow env span) σ fun _ => True := by
  refine .ite (fun _ => .look fun s hs => ?_) fun _ => typed_emit_idle rfl trivial
  split
  · next id h =>
    obtain ⟨e, he, rfl⟩ := mem_of_innermostCatch? h
    exact (typed_exceptionLocal (hs.grounded e he)).bind fun caught => typed_record.seq
      ((typed_raise hR fun hp => hp.1).seq typed_propagate)
  · exact .throw

/-! ## Jumps and regions -/

theorem typed_goto {l : String} : Typed R n pre σ (emit (.goto l)) σ fun _ => True :=
  typed_emit_idle rfl trivial

theorem typed_label {l : String} : Typed R n pre σ (emit (.label l)) σ fun _ => True :=
  typed_emit_idle rfl trivial

theorem typed_escape {target : String} {span : Span} {entries : List Entry} :
    Typed R n pre σ (escape target span entries) σ fun _ => True := by
  induction entries generalizing pre with
  | nil => exact .pure fun _ => trivial
  | cons entry entries ih =>
    obtain ⟨region, phase⟩ := entry
    cases phase with
    | inFinally => exact .throw
    | inTry | inCatch =>
      exact typed_addEscapingEdge.bind fun edge => typed_useLabelVar.bind fun label =>
        (typed_setLabel fun hp => hp.1).bind fun _ => typed_finallyLabel.bind fun _ =>
          .bind typed_goto fun _ => .bind typed_label fun _ => ih

theorem typed_lowerGoto {target : String} {span : Span} :
    Typed R n pre σ (lowerGoto env target span) σ fun _ => True :=
  .look fun _ _ => .lift_bind fun _ _ => .bind typed_escape fun _ => typed_goto

theorem typed_leaveNormally {region : Nat} :
    Typed R n pre σ (leaveNormally region) σ fun _ => True :=
  typed_useLabelVar.bind fun _ => (typed_setLabel fun hp => hp.1).bind fun _ =>
    typed_finallyLabel.bind fun _ => typed_goto

/-- One variable is copied to another one. -/
theorem typed_copy {x y : String} {t : Ir.Ty}
    (h : pre → R.types.var x = some t ∧ R.types.var y = some t) :
    Typed R n pre σ (emit (.set x (.ident y))) σ fun _ => True :=
  typed_set fun hp => ⟨t, h hp⟩

theorem typed_takeException (hR : R.Complete ret) {region : Nat} (hid : region < n) :
    Typed R n pre σ (takeException region) σ fun x => R.types.var x = some .ref :=
  typed_catchLabel.bind fun _ => .bind typed_label fun _ => (typed_exceptionLocal hid).bind fun _ =>
    (typed_copy fun hp => ⟨hp.1, hR.exception⟩).seq
      ((typed_setException hR fun _ => rfl).seq (.pure fun hp => hp.1))

theorem typed_bindCaught {caught : String} {span : Span} {binding : Option Variable}
    (hdecl : ∀ v ∈ binding, R.Knows v) (hcaught : pre → R.types.var caught = some .ref)
    (h : sc.bindCaught binding = some sc') (hpre : pre → Within sc.types R.types) :
    Typed R n pre sc.operands (bindCaught env caught span binding) sc'.operands fun _ =>
      Within sc'.types R.types := by
  cases binding with
  | none =>
    cases h
    exact .pure hpre
  | some v =>
    obtain ⟨hkept, hsc⟩ := Option.ite_none_right_eq_some.mp h
    cases hsc
    obtain ⟨href, -⟩ := keptAs_iff.mp hkept
    obtain ⟨hname, hsource⟩ := hdecl v rfl
    refine .lift_bind fun ty hty => ?_
    have hir := ir?_of_irTy hty
    refine (typed_declareLocal hname (hsource ty hir)).bind fun _ => typed_record.bind fun _ => ?_
    refine (typed_copy fun hp => ⟨hp.2.1, ?_⟩).consequence id fun _ _ hp => ?_
    · exact (hcaught hp.2.2).trans (href.trans hir)
    · exact (hpre hp.2.2).declare (hp.2.1.trans hir.symm)

/-- The variables that a finally block keeps the exception and the label in. -/
def Records.Saves (R : Records) (saved : String × String) : Prop :=
  R.types.var saved.1 = some .ref ∧ R.types.var saved.2 = some .int ∧
    R.types.var labelVar = some .int

theorem typed_saveForFinally (hR : R.Complete ret) :
    Typed R n pre σ saveForFinally σ R.Saves := by
  refine typed_useLabelVar.bind fun label => typed_savedExc.bind fun savedExc =>
    typed_savedLabel.bind fun savedLabel => ?_
  refine (typed_copy fun hp => ⟨hp.2.1.2, hR.exception⟩).bind fun _ =>
    (typed_copy fun hp => ⟨hp.2.1.2, ?_⟩).bind fun _ =>
      (typed_setException hR fun _ => rfl).bind fun _ => .pure ?_
  · obtain ⟨-, -, -, ⟨rfl, hlabel⟩, -⟩ := hp
    exact hlabel
  · rintro ⟨-, -, -, hlabel, hexc, hlab, -⟩
    exact ⟨hexc.2, hlabel.2, hlab.2⟩

theorem typed_restoreAfterFinally (hR : R.Complete ret) {savedExc savedLabel : String}
    (h : pre → R.Saves (savedExc, savedLabel)) :
    Typed R n pre σ (restoreAfterFinally savedExc savedLabel) σ fun _ => True :=
  (typed_raise hR fun hp => (h hp).1).bind fun _ =>
    typed_copy fun hp => ⟨(h hp.2).2.2, (h hp.2).2.1⟩

theorem allFit_resumeTests {T : Ir.Types} {continuation : String} {edges : List EscapingEdge} :
    Cmd.AllFit T (resumeTests continuation edges) := by
  induction edges with
  | nil => exact (Cmd.allFit_singleton rfl).mpr trivial
  | cons edge edges ih => exact Cmd.allFit_ifElse.mpr ⟨(Cmd.allFit_singleton rfl).mpr trivial, ih⟩

theorem typed_dispatchContinuation {region : Nat} :
    Typed R n pre σ (dispatchContinuation region) σ fun _ => True := by
  refine typed_continuationLabel.bind fun continuation => .look fun s _ => ?_
  exact .ite (fun _ => typed_emitAll fun _ => allFit_resumeTests) fun _ =>
    typed_useLabelVar.bind fun _ => typed_emitAll fun _ => allFit_resumeTests

theorem typed_finishRegion {region : Nat} :
    Typed R n pre σ (finishRegion env region) σ fun _ => True :=
  .bind typed_dispatchContinuation fun _ => typed_continuationLabel.bind fun _ =>
    typed_label.bind fun _ => typed_propagateIfAny

/-- What the clauses of a region store. -/
abbrev ArmsFit (T : Ir.Types) (arms : List (Ir.Expr × List Cmd)) : Prop :=
  ∀ arm ∈ arms, Cmd.AllFit T arm.2

theorem allFit_catchTests {T : Ir.Types} {arms : List (Ir.Expr × List Cmd)} {inner : Option Cmd}
    (h : ArmsFit T arms) (hinner : Cmd.AllFit T inner.toList) :
    Cmd.AllFit T (arms.foldl
      (fun inner (test, body) => some (Cmd.ifElse test body inner.toList)) inner).toList := by
  induction arms generalizing inner with
  | nil => exact hinner
  | cons arm arms ih =>
    obtain ⟨harm, harms⟩ := List.forall_mem_cons.mp h
    exact ih harms (Cmd.allFit_ifElse.mpr ⟨harm, hinner⟩)

theorem typed_finishCatches (hR : R.Complete ret) {caught : String}
    {arms : List (Ir.Expr × List Cmd)} (hcaught : pre → R.types.var caught = some .ref)
    (harms : pre → ArmsFit R.types arms) :
    Typed R n pre σ (finishCatches env caught arms) σ fun _ => True :=
  (typed_emitAll fun hp => allFit_catchTests (harms hp) Cmd.allFit_nil).bind fun _ =>
    (typed_raise hR fun hp => hcaught hp.2).bind fun _ => typed_propagate

end

/-! ## Statements -/

section

/-! Behind the clauses of a `try` statement and the cases of a switch, the same variables are
visible as in front of them. -/

theorem checkCatches_types {env : Env} {ret : Option Ir.Ty} {clauses : List CatchClause}
    {sc sc' : Scope} (h : Source.checkCatches env ret clauses sc = some sc') :
    sc'.types = sc.types := by
  induction clauses generalizing sc with
  | nil =>
    rw [Source.checkCatches] at h
    rw [Option.some.inj h]
  | cons clause clauses ih =>
    obtain ⟨span, type, binding, body⟩ := clause
    rw [Source.checkCatches, Option.bind_eq_bind, Option.bind_eq_some_iff] at h
    obtain ⟨sc₁, -, h⟩ := h
    obtain ⟨sc₂, -, h⟩ := Option.bind_eq_some_iff.mp h
    rw [ih h]
    rfl

theorem checkDefault_types {env : Env} {ret : Option Ir.Ty} {cases : List SwitchCase}
    {sc sc' : Scope} (h : Source.checkDefault env ret cases sc = some sc') :
    sc'.types = sc.types := by
  induction cases with
  | nil =>
    rw [Source.checkDefault] at h
    rw [Option.some.inj h]
  | cons case cases ih =>
    obtain ⟨span, value, body⟩ := case
    rw [Source.checkDefault] at h
    split at h
    · exact ih h
    · obtain ⟨inner, -, rfl⟩ := Option.map_eq_some_iff.mp h
      rfl

theorem checkCases_types {env : Env} {ret : Option Ir.Ty} {cases : List SwitchCase}
    {sc sc' : Scope} (h : Source.checkCases env ret cases sc = some sc') :
    sc'.types = sc.types := by
  induction cases generalizing sc' with
  | nil =>
    rw [Source.checkCases] at h
    rw [Option.some.inj h]
  | cons case cases ih =>
    obtain ⟨span, value, body⟩ := case
    simp only [Source.checkCases, Option.bind_eq_bind, Option.bind_eq_some_iff] at h
    obtain ⟨sc₁, hrest, h⟩ := h
    cases value with
    | none =>
      cases h
      exact ih hrest
    | some e =>
      simp only [Option.bind_eq_some_iff] at h
      obtain ⟨sc₂, -, sc₃, -, h⟩ := h
      cases h
      rfl

variable {R : Records} {env : Env} {ret : Option Ir.Ty}

mutual

/-- A statement that is well typed in its scope stores values of the recorded types, and what is
visible behind it is recorded. -/
theorem typed_lowerStmt (hR : R.Complete ret) (s : Stmt) (hs : R.KnowsAll s.statements)
    {sc sc' : Scope} (h : s.check env ret sc = some sc') {pre : Prop}
    (hpre : pre → Within sc.types R.types) {n : Nat} :
    Typed R n pre sc.operands (lowerStmt env s) sc'.operands fun _ => Within sc'.types R.types := by
  have hown := hs s s.mem_statements
  have hin : R.KnowsAll s.statements.tail := fun t ht => hs t (List.mem_of_mem_tail ht)
  obtain ⟨id, span, kind⟩ := s
  have hmarked : ∀ {act : Lower Unit} {τ : List (Option Ir.Ty)} {ps : Unit → Prop},
      Typed R n pre sc.operands act τ ps →
      Typed R n pre sc.operands (do emitMarks env span kind; act) τ ps :=
    fun h => typed_emitMarks.bind fun _ => h.weaken fun hp => hp.2
  -- the same variables are visible behind most statements as in front of them
  have hkeeps : ∀ {k : Nat} {act : Lower Unit} {τ : List (Option Ir.Ty)},
      sc'.types = sc.types → Typed R k pre sc.operands act τ (fun _ => True) →
      Typed R k pre sc.operands act τ fun _ => Within sc'.types R.types :=
    fun heq h => h.consequence (fun hp => hp) fun _ _ hp => heq ▸ hpre hp
  cases kind with
  | block stmts =>
    rw [Stmt.check] at h
    obtain ⟨inner, hinner, rfl⟩ := Option.map_eq_some_iff.mp h
    rw [lowerStmt]
    exact hmarked ((typed_lowerStmts hR stmts hin hinner hpre).consequence (fun hp => hp)
      fun _ _ => hpre)
  | empty =>
    simp only [Stmt.check] at h
    cases h
    rw [lowerStmt]
    exact hmarked (.pure hpre)
  | assert cond =>
    rw [Stmt.check] at h
    rw [lowerStmt]
    refine hmarked (hkeeps (eval_eq_some h).2.1 ((typed_condition h hpre).bind fun v => ?_))
    exact typed_emitAssertion
  | assume cond =>
    rw [Stmt.check] at h
    rw [lowerStmt]
    exact hmarked (hkeeps (eval_eq_some h).2.1 ((typed_condition h hpre).bind fun v =>
      typed_emit_idle rfl trivial))
  | conditional cond thenBranch elseBranch =>
    obtain ⟨ht, he⟩ := List.forall_mem_append.mp hin
    simp only [Stmt.check, Option.bind_eq_bind, Option.bind_eq_some_iff] at h
    obtain ⟨sc₁, hcond, sc₂, hthen, sc₃, helse, h⟩ := h
    cases h
    have htypes := (eval_eq_some hcond).2.1
    rw [lowerStmt]
    refine hmarked (hkeeps rfl ((typed_condition hcond hpre).bind fun c => ?_))
    refine (typed_breadcrumb.seq (typed_lowerStmt hR thenBranch ht hthen
      fun hp => htypes ▸ hpre hp.2)).commandsOf.bind fun thenCmds => ?_
    -- what the first branch declares is not visible in the second one
    refine (typed_breadcrumb.seq (typed_lowerStmt hR elseBranch he helse
      fun ⟨_, _, hp⟩ => hpre hp)).commandsOf.bind fun elseCmds => ?_
    exact typed_emit fun hp => Cmd.allFit_ifElse.mpr ⟨hp.2.1, hp.1⟩
  | expression e =>
    rw [Stmt.check] at h
    rw [lowerStmt]
    exact hmarked (hkeeps (eval_eq_some h).2.1 ((typed_effect h hpre).bind fun _ =>
      .pure fun _ => trivial))
  | breakLoop | continueLoop | whileLoop | doUntil | forLoop | forEach =>
    simp only [lowerStmt]
    exact hmarked .throw
  | switch scrutinee cases =>
    simp only [Stmt.check, Option.bind_eq_bind, Option.bind_eq_some_iff] at h
    obtain ⟨sc₁, hscrutinee, sc₂, hdefault, hcases⟩ := h
    have htypes₁ := (eval_eq_some hscrutinee).2.1
    have htypes₂ := checkDefault_types hdefault
    rw [lowerStmt]
    refine hmarked (hkeeps ((checkCases_types hcases).trans (htypes₂.trans htypes₁))
      ((typed_value hscrutinee hpre).bind fun v => ?_))
    refine (typed_lowerDefault hR cases hin hdefault fun hp => htypes₁ ▸ hpre hp.2).bind
      fun ds => ?_
    refine (typed_lowerCases hR cases hin hcases (fun hp => htypes₂ ▸ htypes₁ ▸ hpre hp.2.2)
      fun hp => hp.1).bind fun chain => ?_
    cases chain with
    | some c => exact typed_emit fun hp => hp.1
    | none => exact typed_emitAll fun hp => hp.2.1
  | localDecl decl init =>
    rw [Stmt.check] at h
    rw [lowerStmt]
    exact hmarked (typed_lowerLocalDecl (hown _ List.mem_cons_self) h hpre)
  | ret value =>
    rw [lowerStmt]
    cases value with
    | none =>
      simp only [Stmt.check] at h
      have htypes := congrArg Scope.types (Option.some.inj h).symm
      exact hmarked (hkeeps htypes (typed_lowerReturn hR h hpre))
    | some e =>
      rw [Stmt.check] at h
      have htypes := (eval_eq_some (evalAs_eq_some h).2.2).2.1
      exact hmarked (hkeeps htypes (typed_lowerReturn hR h hpre))
  | goto label =>
    simp only [Stmt.check] at h
    cases h
    rw [lowerStmt]
    exact hmarked (hkeeps rfl typed_lowerGoto)
  | labeled label body =>
    rw [Stmt.check] at h
    rw [lowerStmt]
    exact hmarked (typed_label.seq (typed_lowerStmt hR body hin h hpre))
  | tryCatch body catches finalizer =>
    obtain ⟨hb, hcf⟩ := List.forall_mem_append.mp hin
    obtain ⟨hc, hf⟩ := List.forall_mem_append.mp hcf
    simp only [Stmt.check, Option.bind_eq_bind, Option.bind_eq_some_iff] at h
    obtain ⟨sc₁, hbody, h⟩ := h
    rw [lowerStmt]
    refine hmarked (.ite (fun hm => typed_enterRegion fun region => ?_) fun hm => ?_)
    · rw [if_pos hm] at h
      simp only [Option.bind_eq_some_iff] at h
      obtain ⟨sc₂, hcatches, sc₃, hfinally, h⟩ := h
      cases h
      have hid := Nat.lt_succ_self region
      -- the parts run one after the other; only `caught` is known from one to the next
      refine hkeeps rfl ((typed_pushPhase .inTry hid).seq ?_)
      refine (typed_lowerStmt hR body hb hbody hpre).seq ?_
      refine typed_leaveNormally.seq ((typed_popPhase .inTry).seq ?_)
      refine (typed_takeException hR hid).bind fun caught => (typed_pushPhase .inCatch hid).seq ?_
      refine (typed_lowerCatches hR catches hown hc hcatches (fun hp => hpre hp.2)
        fun hp => hp.1).bind fun arms => ?_
      refine (typed_finishCatches hR (fun hp => hp.2.1) fun hp => hp.1).seq
        ((typed_popPhase .inCatch).seq (typed_finallyLabel.bind fun _ => typed_label.seq ?_))
      have htypes := checkCatches_types hcatches
      exact (typed_lowerFinally hR hid finalizer hf hfinally
        fun ⟨_, _, _, hp⟩ => htypes ▸ hpre hp).seq typed_finishRegion
    · rw [if_neg hm] at h
      simp only [Option.bind_some, Option.bind_eq_some_iff] at h
      obtain ⟨sc₃, hfinally, h⟩ := h
      cases h
      exact hkeeps rfl ((typed_lowerStmt hR body hb hbody hpre).seq
        (typed_lowerOptional hR finalizer hf hfinally hpre))
  | throw e =>
    rw [Stmt.check] at h
    rw [lowerStmt]
    refine hmarked (hkeeps ?_ (typed_lowerThrow hR h hpre))
    split at h
    · exact (eval_eq_some (evalAs_eq_some h).2.2).2.1
    · rw [Option.some.inj h]
  | rethrow =>
    simp only [Stmt.check] at h
    cases h
    rw [lowerStmt]
    exact hmarked (hkeeps rfl (typed_lowerRethrow hR))
  | push e =>
    simp only [Stmt.check, Option.bind_eq_bind, Option.bind_eq_some_iff] at h
    obtain ⟨sc₁, heval, h⟩ := h
    cases h
    rw [lowerStmt]
    exact hmarked (hkeeps (eval_eq_some heval).2.1 ((typed_value heval hpre).bind fun v =>
      typed_pushOperand fun hp => hp.1))

theorem typed_lowerStmts (hR : R.Complete ret) (ss : List Stmt)
    (hs : R.KnowsAll (Source.statementsIn ss)) {sc sc' : Scope}
    (h : Source.checkAll env ret ss sc = some sc') {pre : Prop}
    (hpre : pre → Within sc.types R.types) {n : Nat} :
    Typed R n pre sc.operands (lowerStmts env ss) sc'.operands fun _ =>
      Within sc'.types R.types := by
  cases ss with
  | nil =>
    rw [Source.checkAll] at h
    cases h
    rw [lowerStmts]
    exact .pure hpre
  | cons s ss =>
    obtain ⟨hs, hss⟩ := List.forall_mem_append.mp hs
    rw [Source.checkAll, Option.bind_eq_bind, Option.bind_eq_some_iff] at h
    obtain ⟨sc₁, h₁, h₂⟩ := h
    rw [lowerStmts]
    exact (typed_lowerStmt hR s hs h₁ hpre).bind fun _ =>
      typed_lowerStmts hR ss hss h₂ fun hp => hp.1

theorem typed_lowerOptional (hR : R.Complete ret) (s : Option Stmt)
    (hs : R.KnowsAll (Source.statementsInOption s)) {sc sc' : Scope}
    (h : Source.checkOption env ret s sc = some sc') {pre : Prop}
    (hpre : pre → Within sc.types R.types) {n : Nat} :
    Typed R n pre sc.operands (lowerOptional env s) sc'.operands fun _ => True := by
  cases s with
  | none =>
    rw [Source.checkOption] at h
    cases h
    rw [lowerOptional]
    exact .pure fun _ => trivial
  | some s =>
    rw [Source.checkOption] at h
    rw [lowerOptional]
    exact (typed_lowerStmt hR s hs h hpre).consequence id fun _ _ _ => trivial

theorem typed_lowerFinally (hR : R.Complete ret) {n region : Nat} (hid : region < n)
    (s : Option Stmt) (hs : R.KnowsAll (Source.statementsInOption s)) {sc sc' : Scope}
    (h : Source.checkOption env ret s sc = some sc') {pre : Prop}
    (hpre : pre → Within sc.types R.types) :
    Typed R n pre sc.operands (lowerFinally env region s) sc'.operands fun _ => True := by
  cases s with
  | none =>
    rw [Source.checkOption] at h
    cases h
    rw [lowerFinally]
    exact .pure fun _ => trivial
  | some s =>
    rw [Source.checkOption] at h
    rw [lowerFinally]
    refine (typed_pushPhase .inFinally hid).seq ((typed_saveForFinally hR).bind fun saved => ?_)
    refine (typed_lowerStmt hR s hs h fun hp => hpre hp.2).seq ?_
    exact (typed_restoreAfterFinally hR fun hp => hp.1).seq (typed_popPhase .inFinally)

theorem typed_lowerCatches (hR : R.Complete ret) {n region : Nat} {caught : String}
    (clauses : List CatchClause) (hb : ∀ v ∈ clauses.filterMap (·.binding), R.Knows v)
    (hs : R.KnowsAll (Source.statementsInCatches clauses)) {sc sc' : Scope}
    (h : Source.checkCatches env ret clauses sc = some sc') {pre : Prop}
    (hpre : pre → Within sc.types R.types) (hcaught : pre → R.types.var caught = some .ref) :
    Typed R n pre sc.operands (lowerCatches env region caught clauses) sc'.operands
      fun arms => ArmsFit R.types arms := by
  cases clauses with
  | nil =>
    rw [Source.checkCatches] at h
    cases h
    rw [lowerCatches]
    exact .pure fun _ => nofun
  | cons clause clauses =>
    obtain ⟨span, type, binding, body⟩ := clause
    obtain ⟨hbody, hclauses⟩ := List.forall_mem_append.mp hs
    have hbindings : (∀ v ∈ binding, R.Knows v) ∧
        ∀ v ∈ clauses.filterMap (·.binding), R.Knows v := by
      cases binding with
      | none => exact ⟨nofun, hb⟩
      | some v =>
        obtain ⟨hv, hrest⟩ := List.forall_mem_cons.mp hb
        exact ⟨fun w hw => Option.mem_some.mp hw ▸ hv, hrest⟩
    rw [Source.checkCatches, Option.bind_eq_bind, Option.bind_eq_some_iff] at h
    obtain ⟨sc₁, hbinding, h⟩ := h
    obtain ⟨sc₂, hchecked, hrest⟩ := Option.bind_eq_some_iff.mp h
    rw [lowerCatches]
    refine ((typed_bindCaught hbindings.1 hcaught hbinding hpre).bind fun _ =>
      (typed_lowerStmt hR body hbody hchecked fun hp => hp.1).bind fun _ =>
        typed_leaveNormally).commandsOf.bind fun cmds => ?_
    refine (typed_lowerCatches hR clauses hbindings.2 hclauses hrest (fun hp => hpre hp.2)
      fun hp => hcaught hp.2).bind fun arms => .pure fun hp => ?_
    exact List.forall_mem_cons.mpr ⟨hp.2.1, hp.1⟩

theorem typed_lowerDefault (hR : R.Complete ret) {n : Nat} (cases : List SwitchCase)
    (hs : R.KnowsAll (Source.statementsInCases cases)) {sc sc' : Scope}
    (h : Source.checkDefault env ret cases sc = some sc') {pre : Prop}
    (hpre : pre → Within sc.types R.types) :
    Typed R n pre sc.operands (lowerDefault env cases) sc'.operands fun cs =>
      Cmd.AllFit R.types cs := by
  cases cases with
  | nil =>
    rw [Source.checkDefault] at h
    cases h
    rw [lowerDefault]
    exact .pure fun _ => Cmd.allFit_nil
  | cons case cases =>
    obtain ⟨span, value, body⟩ := case
    obtain ⟨hbody, hcases⟩ := List.forall_mem_append.mp hs
    rw [Source.checkDefault] at h
    rw [lowerDefault]
    refine .ite (fun hlater => ?_) fun hlast => ?_
    · rw [if_pos hlater] at h
      exact typed_lowerDefault hR cases hcases h hpre
    · rw [if_neg hlast] at h
      obtain ⟨inner, hinner, rfl⟩ := Option.map_eq_some_iff.mp h
      exact (typed_lowerStmts hR body hbody hinner hpre).commandsOf

theorem typed_lowerCases (hR : R.Complete ret) {n : Nat} {v : Ir.Expr} {ds : List Cmd}
    (cases : List SwitchCase) (hs : R.KnowsAll (Source.statementsInCases cases)) {sc sc' : Scope}
    (h : Source.checkCases env ret cases sc = some sc') {pre : Prop}
    (hpre : pre → Within sc.types R.types) (hds : pre → Cmd.AllFit R.types ds) :
    Typed R n pre sc.operands (lowerCases env v ds cases) sc'.operands fun chain =>
      Cmd.AllFit R.types chain.toList := by
  cases cases with
  | nil =>
    rw [Source.checkCases] at h
    cases h
    rw [lowerCases]
    exact .pure fun _ => Cmd.allFit_nil
  | cons case cases =>
    obtain ⟨span, value, body⟩ := case
    obtain ⟨hbody, hcases⟩ := List.forall_mem_append.mp hs
    simp only [Source.checkCases, Option.bind_eq_bind, Option.bind_eq_some_iff] at h
    obtain ⟨sc₁, hrest, h⟩ := h
    rw [lowerCases]
    refine (typed_lowerCases hR cases hcases hrest hpre hds).bind fun chain => ?_
    have htypes := checkCases_types hrest
    cases value with
    | none =>
      cases h
      exact .pure fun hp => hp.1
    | some e =>
      simp only [Option.bind_eq_some_iff] at h
      obtain ⟨sc₂, heval, sc₃, hchecked, h⟩ := h
      cases h
      have htypes₂ := (eval_eq_some heval).2.1
      refine (typed_value heval fun hp => htypes ▸ hpre hp.2).bind fun w => ?_
      refine (typed_lowerStmts hR body hbody hchecked
        fun hp => htypes₂ ▸ htypes ▸ hpre hp.2.2).commandsOf.bind fun cmds => .pure fun hp => ?_
      refine Cmd.allFit_ifElse.mpr ⟨hp.1, ?_⟩
      cases chain with
      | some inner => exact hp.2.2.1
      | none => exact hds hp.2.2.2

end

end

end Unwind.Lowering
