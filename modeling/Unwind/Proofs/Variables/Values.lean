import Mathlib
import Unwind.Proofs.Lowering.Balance
import Unwind.Proofs.Operands.Events
import Unwind.Proofs.Variables.Typed

/-!
# The types of values

An expression that fits its scope is lowered to a value of its type (`typed_lowerExpr`), and what is
stored on the way has the types recorded for its variables, which are those that the scope has for
the variables visible in it (`Within`). The operands that it takes go along, the one pushed last
first (`taken`).
-/

namespace Unwind.Lowering

open Machine (isGenerated)
open Source (BinOp Expr MethodRef StmtKind Target Ty TypeRef)
open Ir (Cmd)

/-! ## Types -/

/-- What is visible is known. -/
structure Within (Δ T : Ir.Types) : Prop where
  var : ∀ {x t}, Δ.var x = some t → T.var x = some t
  map : Δ.map = T.map

theorem keptAs_iff {ty : Ty} {s : Option Ir.Ty} :
    ty.keptAs s = true ↔ s = ty.ir? ∧ ∃ t, ty.ir? = some t := by
  unfold Ty.keptAs
  rw [Bool.and_eq_true, beq_iff_eq, Option.isSome_iff_exists, eq_comm (a := s)]
  constructor
  · rintro ⟨⟨t, rfl⟩, h⟩
    exact ⟨h, t, h⟩
  · rintro ⟨h, t, ht⟩
    exact ⟨⟨t, h.symm.trans ht⟩, h⟩

/-- The operands of the types that the expressions take, on top of others. -/
def taken (es : List Expr) (σ : List (Option Ir.Ty)) : List (Option Ir.Ty) :=
  es.map (·.ty.ir?) ++ σ

theorem taken_append (es es' : List Expr) (σ : List (Option Ir.Ty)) :
    taken (es ++ es') σ = taken es (taken es' σ) := by
  simp [taken]

section

variable {R : Records} {env : Env} {n : Nat} {pre : Prop} {σ τ : List (Option Ir.Ty)}

/-! ## Marks and exceptions -/

theorem typed_record {label : String} {ty : Ir.Ty} {v : Ir.Expr} :
    Typed R n pre σ (record env label ty v) σ fun _ => True := by
  refine .ite (fun _ => typed_withRegistry.bind fun proc => typed_emit fun _ => ?_) fun _ =>
    .pure fun _ => trivial
  exact (Cmd.allFit_singleton rfl).mpr nofun

/-- A command that stores nothing. -/
theorem typed_emit_idle {c : Cmd} (hc : c.withNested = [c]) (h : c.Fits R.types) :
    Typed R n pre σ (emit c) σ fun _ => True :=
  typed_emit fun _ => (Cmd.allFit_singleton hc).mpr h

theorem typed_breadcrumb : Typed R n pre σ (breadcrumb env) σ fun _ => True :=
  .ite (fun _ => typed_withRegistry.bind fun _ => typed_emit_idle rfl trivial) fun _ =>
    .pure fun _ => trivial

theorem typed_emitMarks {span : Span} {kind : StmtKind} :
    Typed R n pre σ (emitMarks env span kind) σ fun _ => True := by
  have hcapture : ∀ {pre : Prop}, Typed R n pre σ (if env.options.captureState then
      withRegistry (·.nextCaptureState) >>= fun k =>
        emit (.marker ⟨"captureState", [.str ("s" ++ toString k.toNat)]⟩)
      else pure ()) σ fun _ => True :=
    .ite (fun _ => typed_withRegistry.bind fun _ => typed_emit_idle rfl trivial) fun _ =>
      .pure fun _ => trivial
  have hmark : ∀ {pre : Prop}, Typed R n pre σ (emit (sourceMark env span)) σ fun _ => True :=
    typed_emit_idle rfl trivial
  exact .ite (fun _ => .ite (fun _ => hmark.bind fun _ => hcapture) fun _ => hcapture) fun _ =>
    .pure fun _ => trivial

/-- The label variable holds integers. -/
theorem typed_setLabel {x : String} {k : Int64}
    (h : pre → x = labelVar ∧ R.types.var labelVar = some .int) :
    Typed R n pre σ (emit (.set x (.int k))) σ fun _ => True :=
  typed_set fun hpre => by
    obtain ⟨rfl, hlabel⟩ := h hpre
    exact ⟨_, hlabel, rfl⟩

theorem typed_propagate : Typed R n pre σ (propagate env) σ fun _ => True := by
  refine .look fun s _ => ?_
  split
  · exact .bind typed_record fun _ => typed_emit_idle rfl trivial
  · exact typed_catchLabel.bind fun _ => typed_emit_idle rfl trivial
  · exact typed_useLabelVar.bind fun label => (typed_setLabel fun h => h.1).bind fun _ =>
      typed_finallyLabel.bind fun _ => typed_emit_idle rfl trivial
  · exact typed_continuationLabel.bind fun _ => typed_emit_idle rfl trivial

theorem typed_propagateIfAny : Typed R n pre σ (propagateIfAny env) σ fun _ => True :=
  .bind (.commandsOf typed_propagate) fun _ => typed_emit fun h =>
    Cmd.allFit_ifElse.mpr ⟨h.1, Cmd.allFit_nil⟩

/-! ## The commands of each kind -/

theorem typed_valueOf {e : Expr} {act : Lower (Option Ir.Expr)} {t : Option Ir.Ty}
    (h : Typed R n pre σ act τ fun r => ∀ v ∈ r, v.ty? R.types = t) :
    Typed R n pre σ (valueOf e act) τ fun v => v.ty? R.types = t := by
  refine h.bind fun r => ?_
  cases r with
  | some v => exact .pure fun hpre => hpre.1 v rfl
  | none => exact .throw

theorem truthOf_ty? {T : Ir.Types} {e : Expr} {v c : Ir.Expr} (h : truthOf e v = .ok c)
    (hv : v.ty? T = e.ty.ir?) (hty : e.ty.isCondition = true) : c.ty? T = some .bool := by
  unfold truthOf at h
  unfold Ty.isCondition at hty
  cases hkind : e.ty with
  | void =>
    rw [hkind] at h
    cases h
  | bool =>
    rw [hkind] at h hv
    cases h
    exact hv
  | int =>
    rw [hkind] at h hv
    cases h
    exact Ir.Expr.ty?_neq_lit hv
  | named t =>
    rw [hkind] at h hv hty
    cases h
    have hv : v.ty? T = some (if t.name = "Type" then .type else .ref) := hv
    have href : ¬ t.name = "Type" := by
      intro ht
      simp [Ty.ir?, irTy, ht, Except.toOption] at hty
    rw [if_neg href] at hv
    exact Ir.Expr.ty?_neq_lit hv

/-- The truth of an expression is a truth value, unless it is compared with a `null` that does not
have its type. -/
theorem typed_conditionOf {e : Expr} {act : Lower (Option Ir.Expr)}
    (h : Typed R n pre σ act τ fun r => ∀ v ∈ r, v.ty? R.types = e.ty.ir?) :
    Typed R n pre σ (conditionOf e act) τ fun c =>
      e.ty.isCondition = true → c.ty? R.types = some .bool :=
  (typed_valueOf h).bind fun _ => .lift fun _ hc hpre => truthOf_ty? hc hpre.1

theorem allFit_invoke {T : Ir.Types} {proc : String} {args : List Ir.Expr} {outs : List String}
    (h : ∀ x ∈ outs, isGenerated x = true ∨ T.var x = some .ref) :
    Cmd.AllFit T [.invoke proc args outs] := by
  refine (Cmd.allFit_singleton rfl).mpr fun x hx hplain => (h x hx).resolve_left ?_
  rw [hplain]
  exact Bool.false_ne_true

theorem typed_alloc {type : TypeRef} :
    Typed R n pre σ (alloc type) σ fun v => v.ty? R.types = some .ref := by
  refine typed_temp.bind fun object => (typed_emit fun h => ?_).bind fun _ => .pure fun h => ?_
  · exact allFit_invoke (List.forall_mem_singleton.mpr (.inl h.1.1))
  · exact h.2.1.2

theorem typed_emitCall {method : MethodRef} {args : List Ir.Expr} {outs : List String}
    (h : pre → ∀ x ∈ outs, isGenerated x = true) :
    Typed R n pre σ (emitCall env method args outs) σ fun _ => True :=
  (typed_emit fun hpre => allFit_invoke fun x hx => .inl (h hpre x hx)).bind fun _ =>
    .ite (fun _ => typed_propagateIfAny) fun _ => .pure fun _ => trivial

theorem typed_finishCall {method : MethodRef} {args : List Ir.Expr} {ty : Ty} :
    Typed R n pre σ (finishCall env method args ty) σ fun r =>
      ∀ v ∈ r, v.ty? R.types = ty.ir? := by
  refine .ite (fun _ => (typed_emitCall fun _ => List.forall_mem_nil _).bind fun _ =>
    .pure fun _ => nofun) fun _ => .lift_bind fun t ht => typed_temp.bind fun out => ?_
  refine (typed_emitCall fun h => List.forall_mem_singleton.mpr h.1.1).bind fun _ => .pure ?_
  rintro ⟨-, hout, -⟩ v ⟨⟩
  rw [ir?_of_irTy ht]
  exact hout.2

theorem typed_finishNew {type : TypeRef} {ctor : Option MethodRef} {args : List Ir.Expr} :
    Typed R n pre σ (finishNew env type ctor args) σ fun v => v.ty? R.types = some .ref := by
  refine .bind typed_alloc fun object => ?_
  cases ctor with
  | some method =>
    exact (typed_emitCall fun _ => List.forall_mem_nil _).bind fun _ => .pure fun h => h.2.1
  | none => exact .pure fun h => h.1

/-- Operands of truth values. -/
theorem ty?_logic {op : Ir.BinOp} {s t : Option Ir.Ty} {u : Ir.Ty} (hop : op = .and ∨ op = .or)
    (h : op.ty? s t = some u) : s = some .bool ∧ t = some .bool ∧ u = .bool := by
  rcases hop with rfl | rfl
  all_goals
    rw [Ir.BinOp.ty?] at h
    split at h
    · next hboth =>
      cases h
      exact ⟨hboth.1, hboth.2, rfl⟩
    · cases h

theorem typed_finishBinary {op : BinOp} {lhs : Expr} {left right : Ir.Expr} {cmds : List Cmd}
    {t : Option Ir.Ty} {u : Ir.Ty} (hop : (binOp op).ty? lhs.ty.ir? t = some u)
    (hleft : pre → left.ty? R.types = lhs.ty.ir?) (hright : pre → right.ty? R.types = t)
    (hcmds : pre → Cmd.AllFit R.types cmds) :
    Typed R n pre σ (finishBinary op lhs left right cmds) σ fun v => v.ty? R.types = some u := by
  refine .ite (fun _ => .pure fun hpre => ?_) fun _ => ?_
  · rw [Ir.Expr.ty?_binary, hleft hpre, hright hpre, hop]
  have hlogic : ∀ guard : String → Ir.Expr, binOp op = .and ∨ binOp op = .or →
      Typed R n pre σ (do
        let tmp ← freshLocal "tmp" .bool
        emit (.set tmp left)
        emit (.ifThen (guard tmp) (cmds ++ [Ir.Cmd.set tmp right]))
        return Ir.Expr.ident tmp) σ fun v => v.ty? R.types = some u := by
    intro guard hkind
    obtain ⟨hl, hr, rfl⟩ := ty?_logic hkind hop
    refine typed_temp.bind fun tmp => (typed_set fun h => ⟨_, h.1.2, ?_⟩).bind fun _ =>
      (typed_emit fun h => ?_).bind fun _ => .pure fun h => h.2.2.1.2
    · rw [hleft h.2, hl]
    · obtain ⟨-, htmp, hpre⟩ := h
      refine Cmd.allFit_ifElse.mpr ⟨Cmd.allFit_append.mpr ⟨hcmds hpre, ?_⟩, Cmd.allFit_nil⟩
      exact (Cmd.allFit_singleton rfl).mpr ⟨_, htmp.2, (hright hpre).trans hr⟩
  cases op with
  | and => exact hlogic (fun tmp => .ident tmp) (.inl rfl)
  | or => exact hlogic (fun tmp => .not (.ident tmp)) (.inr rfl)
  | _ =>
    refine .lift_bind fun ty hty => typed_temp.bind fun tmp => ?_
    have hlhs := ir?_of_irTy hty
    refine (typed_set fun h => ⟨_, h.1.2, (hleft h.2).trans hlhs⟩).bind fun _ =>
      (typed_emitAll fun h => hcmds h.2.2).bind fun _ => .pure ?_
    rintro ⟨-, -, htmp, hpre⟩
    rw [Ir.Expr.ty?_binary, Ir.Expr.ty?_ident, htmp.2, hright hpre, ← hlhs, hop]

theorem typed_finishConditional {ty : Ty} {span : Span} {cond : Ir.Expr}
    {thenPart elsePart : Ir.Expr × List Cmd} (hcond : pre → cond.ty? R.types = some .bool)
    (hthen : pre → thenPart.1.ty? R.types = ty.ir? ∧ Cmd.AllFit R.types thenPart.2)
    (helse : pre → elsePart.1.ty? R.types = ty.ir? ∧ Cmd.AllFit R.types elsePart.2) :
    Typed R n pre σ (finishConditional ty span cond thenPart elsePart) σ fun v =>
      v.ty? R.types = ty.ir? := by
  refine .ite (fun _ => .pure fun hpre => ?_) fun _ => ?_
  · rw [Ir.Expr.ty?_ifThenElse,
      if_pos ⟨hcond hpre, (hthen hpre).1.trans (helse hpre).1.symm⟩, (hthen hpre).1]
  refine .lift_bind fun t ht => typed_temp.bind fun tmp => (typed_emit ?_).bind fun _ =>
    .pure fun h => h.2.1.2.trans (ir?_of_irTy ht).symm
  rintro ⟨htmp, hpre⟩
  have hpart : ∀ {part : Ir.Expr × List Cmd},
      part.1.ty? R.types = ty.ir? ∧ Cmd.AllFit R.types part.2 →
      Cmd.AllFit R.types (part.2 ++ [Ir.Cmd.set tmp part.1]) := fun h =>
    Cmd.allFit_append.mpr ⟨h.2, (Cmd.allFit_singleton rfl).mpr
      ⟨_, htmp.2, h.1.trans (ir?_of_irTy ht)⟩⟩
  exact Cmd.allFit_ifElse.mpr ⟨hpart (hthen hpre), hpart (helse hpre)⟩

theorem ty?_convert {T : Ir.Types} {source : Ty} {v : Ir.Expr} (target : Ty)
    (hv : v.ty? T = source.ir?) : (convert source target v).ty? T = source.converted target := by
  cases source with
  | void | named => exact hv
  | bool =>
    have hv : v.ty? T = some .bool := hv
    cases target with
    | int => exact (Ir.Expr.ty?_ifThenElse ..).trans (if_pos ⟨hv, rfl⟩)
    | void | bool | named => exact hv
  | int =>
    cases target with
    | bool => exact Ir.Expr.ty?_neq_lit hv
    | void | int | named => exact hv

theorem typed_defaultValue {ty : Ty} {span : Span} (h : ty.ir? ≠ some .type) :
    Typed R n pre σ (defaultValue env ty span) σ fun v => v.ty? R.types = ty.ir? := by
  unfold defaultValue
  cases ty with
  | void => exact .throw
  | bool | int => exact .pure fun _ => rfl
  | named t =>
    have href : (Ty.named t).ir? = some .ref := by
      have hir : (Ty.named t).ir? = some (if t.name = "Type" then .type else .ref) := rfl
      rw [hir] at h ⊢
      split at h
      · exact absurd rfl h
      · next hne => rw [if_neg hne]
    rw [href]
    exact .ite (fun _ => typed_alloc) fun _ => .pure fun _ => rfl

end

/-! ## Expressions -/

/-- The value, where there is one, has the type. -/
abbrev Gives (R : Records) (t : Option Ir.Ty) (r : Option Ir.Expr) : Prop :=
  ∀ v ∈ r, v.ty? R.types = t

theorem gives_some {R : Records} {v : Ir.Expr} {t : Option Ir.Ty} (h : v.ty? R.types = t) :
    Gives R t (some v) := by
  rintro w ⟨⟩
  exact h

theorem ty?_select {T : Ir.Types} {m : String} {v : Ir.Expr} (hv : v.ty? T = some .ref) :
    (Ir.Expr.select m v).ty? T = T.map m := by
  rw [Ir.Expr.ty?_select, if_pos hv]

section

variable {R : Records} {env : Env} {n : Nat} {Δ : Ir.Types}

/-- A target that is read, combined with an operand, and written again. -/
theorem typed_update {op : BinOp} {target : Target} {rhs : Expr} {t : Option Ir.Ty} {u : Ir.Ty}
    {pre : Prop} {σ : List (Option Ir.Ty)} (hop : (binOp op).ty? (some u) t = some u)
    (hpre : pre → Within Δ R.types)
    (hread : ∀ {q : Prop} {τ : List (Option Ir.Ty)}, (q → Within Δ R.types) →
      Typed R n q (taken target.popNodes τ) (readTarget env target) τ
        fun v => v.ty? R.types = some u)
    (hwrite : ∀ {q : Prop} {τ : List (Option Ir.Ty)} {v : Ir.Expr}, (q → Within Δ R.types) →
      (q → v.ty? R.types = some u) →
      Typed R n q (taken target.popNodes τ) (writeTarget env target v) τ fun _ => True)
    (hrhs : ∀ {q : Prop} {τ : List (Option Ir.Ty)}, (q → Within Δ R.types) →
      Typed R n q (taken rhs.popNodes τ) (valueOf rhs (lowerExpr env rhs false)) τ
        fun v => v.ty? R.types = t) :
    Typed R n pre (taken target.popNodes (taken rhs.popNodes (taken target.popNodes
      (taken target.popNodes σ)))) (do
        let current ← readTarget env target
        let rhs ← valueOf rhs (lowerExpr env rhs false)
        writeTarget env target (.binary (binOp op) current rhs)
        return some (← readTarget env target)) σ (Gives R (some u)) := by
  refine (hread hpre).bind fun current => (hrhs fun h => hpre h.2).bind fun v => ?_
  refine (hwrite (fun h => hpre h.2.2) fun h => ?_).bind fun _ =>
    (hread fun h => hpre h.2.2.2).bind fun w => .pure fun h => gives_some h.1
  rw [Ir.Expr.ty?_binary, h.1, h.2.1, hop]

mutual

/-- The value of an expression has the type that the expression is annotated with. -/
theorem typed_lowerExpr (e : Expr) (compound : Bool) (he : e.fits Δ = true) {pre : Prop}
    (hpre : pre → Within Δ R.types) {σ : List (Option Ir.Ty)} :
    Typed R n pre (taken e.popNodes σ) (lowerExpr env e compound) σ (Gives R e.ty.ir?) := by
  obtain ⟨id, span, ty, kind⟩ := e
  cases kind with
  | literal lit =>
    obtain ⟨hty, -⟩ := keptAs_iff.mp he
    rw [lowerExpr]
    refine .pure fun _ => gives_some (Eq.trans ?_ hty)
    cases lit <;> rfl
  | var name | self =>
    obtain ⟨hty, t, ht⟩ := keptAs_iff.mp he
    rw [lowerExpr]
    exact .pure fun h => gives_some (((hpre h).var (hty.trans ht)).trans ht.symm)
  | typeOf type =>
    obtain ⟨hty, -⟩ := keptAs_iff.mp he
    rw [lowerExpr]
    exact .pure fun _ => gives_some hty
  | field object field =>
    cases object with
    | none =>
      obtain ⟨hty, t, ht⟩ := keptAs_iff.mp he
      rw [lowerExpr]
      exact .pure fun h => gives_some (((hpre h).var (hty.trans ht)).trans ht.symm)
    | some object =>
      obtain ⟨hobject, htys⟩ := Bool.and_eq_true_iff.mp he
      obtain ⟨href, hty⟩ := Bool.and_eq_true_iff.mp htys
      obtain ⟨href, -⟩ := keptAs_iff.mp href
      obtain ⟨hty, -⟩ := keptAs_iff.mp hty
      rw [lowerExpr]
      refine (typed_valueOf (typed_lowerExpr object false hobject hpre)).bind fun v =>
        .pure fun h => gives_some ?_
      rw [ty?_select (h.1.trans href.symm), ← (hpre h.2).map, hty]
  | unary op operand =>
    obtain ⟨hoperand, hty⟩ := Bool.and_eq_true_iff.mp he
    obtain ⟨hty, -⟩ := keptAs_iff.mp hty
    rw [lowerExpr]
    refine (typed_valueOf (typed_lowerExpr operand false hoperand hpre)).bind fun v =>
      .pure fun h => gives_some ?_
    rw [Ir.Expr.ty?_unary, h.1, hty]
  | getType object =>
    obtain ⟨hobject, htys⟩ := Bool.and_eq_true_iff.mp he
    obtain ⟨href, hty⟩ := Bool.and_eq_true_iff.mp htys
    obtain ⟨href, -⟩ := keptAs_iff.mp href
    obtain ⟨hty, -⟩ := keptAs_iff.mp hty
    rw [lowerExpr]
    refine (typed_valueOf (typed_lowerExpr object false hobject hpre)).bind fun v =>
      .pure fun h => gives_some (Eq.trans ?_ hty)
    exact Ir.Expr.ty?_dynamicType (h.1.trans href.symm)
  | conversion operand newTy =>
    obtain ⟨hoperand, htys⟩ := Bool.and_eq_true_iff.mp he
    obtain ⟨-, hty⟩ := Bool.and_eq_true_iff.mp htys
    obtain ⟨hty, -⟩ := keptAs_iff.mp hty
    rw [lowerExpr]
    exact (typed_valueOf (typed_lowerExpr operand false hoperand hpre)).bind fun v =>
      .pure fun h => gives_some ((ty?_convert newTy h.1).trans hty)
  | binary op lhs rhs =>
    obtain ⟨hl, hrest⟩ := Bool.and_eq_true_iff.mp he
    obtain ⟨hr, hrest⟩ := Bool.and_eq_true_iff.mp hrest
    obtain ⟨hop, htarget⟩ := Bool.and_eq_true_iff.mp hrest
    obtain ⟨hop, u, hu⟩ := keptAs_iff.mp hop
    cases hkind : lhs.isTarget with
    | false =>
      have htaken : taken (Expr.popNodes ⟨id, span, ty, .binary op lhs rhs⟩) σ =
          taken lhs.popNodes (taken rhs.popNodes σ) := by
        simp [Expr.popNodes, hkind, taken_append]
      rw [htaken, lowerExpr_binary env hkind]
      refine (typed_valueOf (typed_lowerExpr lhs false hl hpre)).bind fun left => ?_
      refine (typed_valueOf (typed_lowerExpr rhs false hr fun h => hpre h.2)).buffered.bind
        fun right => (typed_finishBinary (hop.trans hu) (fun h => h.2.1) (fun h => h.1.1)
          fun h => h.1.2).bind fun v => .pure fun h => gives_some (h.1.trans hu.symm)
    | true =>
      obtain ⟨i, sp, t, lhsKind⟩ := lhs
      cases lhsKind with
      | target target =>
        obtain ⟨ht, hplace⟩ := Bool.and_eq_true_iff.mp hl
        obtain ⟨hplace, -⟩ := keptAs_iff.mp hplace
        obtain ⟨hsame, -⟩ := keptAs_iff.mp (by simpa [hkind] using htarget)
        have hplace : target.ty? Δ = some u := hplace.trans (hsame.trans hu)
        have hresult : (binOp op).ty? (some u) rhs.ty.ir? = some u := by
          rw [← hu, ← hsame]
          exact hop.trans hsame.symm
        have htaken : taken
            (Expr.popNodes ⟨id, span, ty, .binary op ⟨i, sp, t, .target target⟩ rhs⟩) σ =
            taken target.popNodes (taken rhs.popNodes (taken target.popNodes
              (taken target.popNodes σ))) := by
          simp only [Expr.popNodes, Expr.isTarget, if_true, taken_append]
        rw [htaken, lowerExpr]
        have hupdate : Typed R n pre _ _ σ _ := typed_update hresult hpre
          (fun hq => typed_readTarget target ht hplace hq)
          (fun hq hv => typed_writeTarget target ht hplace hq hv)
          fun hq => typed_valueOf (typed_lowerExpr rhs false hr hq)
        rw [← hu] at hupdate
        have hthrow : ∀ {σ : List (Option Ir.Ty)}, Typed R n pre σ
            (throw (.compoundAsValue span) : Lower Unit) σ fun _ => True := .throw
        exact .ite (fun _ => hupdate) fun _ => hthrow.bind fun _ => hupdate.weaken fun h => h.2
      | _ => cases hkind
  | conditional cond thenExpr elseExpr =>
    obtain ⟨hc, hrest⟩ := Bool.and_eq_true_iff.mp he
    obtain ⟨ht, hrest⟩ := Bool.and_eq_true_iff.mp hrest
    obtain ⟨he, hrest⟩ := Bool.and_eq_true_iff.mp hrest
    obtain ⟨hcond, htys⟩ := Bool.and_eq_true_iff.mp hrest
    obtain ⟨hthen, helse⟩ := Bool.and_eq_true_iff.mp htys
    obtain ⟨hthen, -⟩ := keptAs_iff.mp hthen
    obtain ⟨helse, -⟩ := keptAs_iff.mp helse
    have htaken : taken (Expr.popNodes ⟨id, span, ty, .conditional cond thenExpr elseExpr⟩) σ =
        taken cond.popNodes (taken thenExpr.popNodes (taken elseExpr.popNodes σ)) := by
      simp [Expr.popNodes, taken_append]
    rw [htaken, lowerExpr]
    refine (typed_conditionOf (typed_lowerExpr cond false hc hpre)).bind fun c => ?_
    refine (typed_valueOf (typed_lowerExpr thenExpr false ht fun h => hpre h.2)).buffered.bind
      fun thenPart => ?_
    refine (typed_valueOf (typed_lowerExpr elseExpr false he fun h => hpre h.2.2)).buffered.bind
      fun elsePart => (typed_finishConditional (fun h => h.2.2.1 hcond)
        (fun h => ⟨h.2.1.1.trans hthen, h.2.1.2⟩) fun h => ⟨h.1.1.trans helse, h.1.2⟩).bind
        fun v => .pure fun h => gives_some h.1
  | assign target value =>
    obtain ⟨ht, hrest⟩ := Bool.and_eq_true_iff.mp he
    obtain ⟨hv, htys⟩ := Bool.and_eq_true_iff.mp hrest
    obtain ⟨hvalue, hplace⟩ := Bool.and_eq_true_iff.mp htys
    obtain ⟨hvalue, u, hu⟩ := keptAs_iff.mp hvalue
    obtain ⟨hplace, -⟩ := keptAs_iff.mp hplace
    have hplace : target.ty? Δ = some u := hplace.trans hu
    have htaken : taken (Expr.popNodes ⟨id, span, ty, .assign target value⟩) σ =
        taken value.popNodes (taken target.popNodes (taken target.popNodes σ)) := by
      simp [Expr.popNodes, taken_append]
    rw [htaken, lowerExpr]
    refine (typed_valueOf (typed_lowerExpr value false hv hpre)).bind fun v => ?_
    exact (typed_writeTarget target ht hplace (fun h => hpre h.2) fun h =>
      h.1.trans (hvalue.trans hu)).bind fun _ =>
        (typed_readTarget target ht hplace fun h => hpre h.2.2).bind fun w =>
          .pure fun h => gives_some (h.1.trans hu.symm)
  | target target =>
    obtain ⟨ht, hplace⟩ := Bool.and_eq_true_iff.mp he
    obtain ⟨hplace, u, hu⟩ := keptAs_iff.mp hplace
    rw [lowerExpr]
    exact (typed_readTarget target ht (hplace.trans hu) hpre).bind fun v =>
      .pure fun h => gives_some (h.1.trans hu.symm)
  | call call =>
    obtain ⟨method, receiver, args, isVirtual⟩ := call
    obtain ⟨hr, ha⟩ := Bool.and_eq_true_iff.mp he
    have htaken :
        taken (Expr.popNodes ⟨id, span, ty, .call ⟨method, receiver, args, isVirtual⟩⟩) σ =
        taken (Source.popNodesInOption receiver) (taken (Source.popNodesInAll args) σ) := by
      simp [Expr.popNodes, taken_append]
    rw [htaken, lowerExpr]
    exact (typed_lowerOption receiver hr hpre).bind fun r =>
      (typed_lowerArgs args ha fun h => hpre h.2).bind fun vs => typed_finishCall
  | new type ctor args =>
    obtain ⟨ha, hty⟩ := Bool.and_eq_true_iff.mp he
    obtain ⟨hty, -⟩ := keptAs_iff.mp hty
    rw [lowerExpr]
    exact (typed_lowerArgs args ha hpre).bind fun vs => typed_finishNew.bind fun v =>
      .pure fun h => gives_some (h.1.trans hty)
  | defaultValue valueTy =>
    obtain ⟨hty, hne⟩ := Bool.and_eq_true_iff.mp he
    obtain ⟨hty, -⟩ := keptAs_iff.mp hty
    rw [lowerExpr]
    exact (typed_defaultValue (by simpa using hne)).bind fun v =>
      .pure fun h => gives_some (h.1.trans hty)
  | pop =>
    rw [lowerExpr]
    exact typed_popOperand.bind fun v => .pure fun h => gives_some h.1

theorem typed_readTarget (t : Target) (ht : t.fits Δ = true) {u : Ir.Ty}
    (hu : t.ty? Δ = some u) {pre : Prop} (hpre : pre → Within Δ R.types)
    {σ : List (Option Ir.Ty)} :
    Typed R n pre (taken t.popNodes σ) (readTarget env t) σ fun v => v.ty? R.types = some u := by
  cases t with
  | var name =>
    rw [readTarget]
    exact .pure fun h => (hpre h).var hu
  | field object field =>
    cases object with
    | none =>
      rw [readTarget]
      exact .pure fun h => (hpre h).var hu
    | some object =>
      obtain ⟨hobject, href⟩ := Bool.and_eq_true_iff.mp ht
      obtain ⟨href, -⟩ := keptAs_iff.mp href
      rw [readTarget]
      refine (typed_valueOf (typed_lowerExpr object false hobject hpre)).bind fun v =>
        .pure fun h => ?_
      rw [ty?_select (h.1.trans href.symm), ← (hpre h.2).map]
      exact hu

theorem typed_writeTarget (t : Target) (ht : t.fits Δ = true) {u : Ir.Ty}
    (hu : t.ty? Δ = some u) {pre : Prop} (hpre : pre → Within Δ R.types) {v : Ir.Expr}
    (hv : pre → v.ty? R.types = some u) {σ : List (Option Ir.Ty)} :
    Typed R n pre (taken t.popNodes σ) (writeTarget env t v) σ fun _ => True := by
  cases t with
  | var name =>
    rw [writeTarget]
    exact typed_set fun h => ⟨u, (hpre h).var hu, hv h⟩
  | field object field =>
    cases object with
    | none =>
      rw [writeTarget]
      exact typed_set fun h => ⟨u, (hpre h).var hu, hv h⟩
    | some object =>
      obtain ⟨hobject, href⟩ := Bool.and_eq_true_iff.mp ht
      obtain ⟨href, -⟩ := keptAs_iff.mp href
      rw [writeTarget]
      refine (typed_valueOf (typed_lowerExpr object false hobject hpre)).bind fun w =>
        typed_emit fun h => (Cmd.allFit_singleton rfl).mpr ⟨h.1.trans href.symm, u, ?_, hv h.2⟩
      rw [← (hpre h.2).map]
      exact hu

theorem typed_lowerOption (e : Option Expr) (he : Source.fitsOption Δ e = true) {pre : Prop}
    (hpre : pre → Within Δ R.types) {σ : List (Option Ir.Ty)} :
    Typed R n pre (taken (Source.popNodesInOption e) σ) (lowerOption env e) σ fun _ => True := by
  cases e with
  | none =>
    rw [lowerOption]
    exact .pure fun _ => trivial
  | some e =>
    rw [lowerOption]
    exact (typed_valueOf (typed_lowerExpr e false he hpre)).bind fun _ => .pure fun _ => trivial

theorem typed_lowerArgs (es : List Expr) (hes : Source.fitsAll Δ es = true) {pre : Prop}
    (hpre : pre → Within Δ R.types) {σ : List (Option Ir.Ty)} :
    Typed R n pre (taken (Source.popNodesInAll es) σ) (lowerArgs env es) σ fun _ => True := by
  cases es with
  | nil =>
    rw [lowerArgs]
    exact .pure fun _ => trivial
  | cons e es =>
    obtain ⟨he, hes⟩ := Bool.and_eq_true_iff.mp hes
    have htaken : taken (Source.popNodesInAll (e :: es)) σ =
        taken e.popNodes (taken (Source.popNodesInAll es) σ) := by
      simp [Source.popNodesInAll, taken_append]
    rw [htaken, lowerArgs]
    exact (typed_valueOf (typed_lowerExpr e false he hpre)).bind fun _ =>
      (typed_lowerArgs es hes fun h => hpre h.2).bind fun _ => .pure fun _ => trivial

end

end

end Unwind.Lowering
