import Unwind.Proofs.Lowering.Leaf

/-!
# Lowering an expression emits code without statements

One lemma for each part of the lowering of expressions, and the induction over expressions that
puts them together: `lowerExpr_coded`.
-/

namespace Unwind.Lowering

open Source (BinOp Expr MethodRef Path Target Ty TypeRef)
open Ir (Cmd)
open Machine (Instr flatten)

variable {L : Layout} {π : Path} {ρ : List Frame} {s s' : State} {u : Unit}

/-! ## Values -/

theorem runs_valueOf {e : Expr} {act : Lower (Option Ir.Expr)} {v : Ir.Expr} :
    Runs (valueOf e act) s v s' ↔ Runs act s (some v) s' := by
  unfold valueOf
  rw [runs_bind]
  constructor
  · rintro ⟨r, s₁, h₁, h₂⟩
    cases r with
    | some v' =>
      obtain ⟨rfl, rfl⟩ := runs_pure.mp h₂
      exact h₁
    | none => exact absurd h₂ not_runs_throw
  · intro h
    exact ⟨some v, s', h, runs_pure.mpr ⟨rfl, rfl⟩⟩

theorem runs_conditionOf {e : Expr} {act : Lower (Option Ir.Expr)} {c : Ir.Expr} :
    Runs (conditionOf e act) s c s' ↔ ∃ v, Runs act s (some v) s' ∧ truthOf e v = .ok c := by
  unfold conditionOf
  rw [runs_bind]
  constructor
  · rintro ⟨v, s₁, h₁, h₂⟩
    obtain ⟨ht, rfl⟩ := runs_lift.mp h₂
    exact ⟨v, runs_valueOf.1 h₁, ht⟩
  · rintro ⟨v, h, ht⟩
    exact ⟨v, s', runs_valueOf.2 h, runs_lift.mpr ⟨ht, rfl⟩⟩

/-! ## The parts -/

theorem alloc_coded {type : TypeRef} {v : Ir.Expr} (h : Runs (alloc type) s v s') :
    Coded L π ρ s s' := by
  simp only [alloc, runs_bind, runs_pure] at h
  obtain ⟨x, s₁, h₁, _, s₂, h₂, -, rfl⟩ := h
  obtain ⟨rfl, -, he⟩ := runs_freshLocal h₁
  refine (Coded.of_nil he).trans (.emit rfl (.call fun x hx => ?_) h₂)
  rw [List.mem_singleton] at hx
  subst hx
  exact .temp

theorem emitCall_coded {method : MethodRef} {args : List Ir.Expr} {outs : List String}
    (hv : View L.scopes ρ s) (houts : ∀ x ∈ outs, Writable L x)
    (h : Runs (emitCall L.env method args outs) s u s') : Coded L π ρ s s' := by
  simp only [emitCall, runs_bind] at h
  obtain ⟨_, s₁, h₁, h₂⟩ := h
  have hc : Coded L π ρ s s₁ := .emit rfl (.call houts) h₁
  by_cases hm : L.env.options.modelsExceptions = true
  · rw [if_pos hm] at h₂
    exact hc.trans (.propagateIfAny (hc.view hv) h₂)
  · rw [if_neg hm, runs_pure] at h₂
    rw [h₂.2]
    exact hc

theorem finishCall_coded {method : MethodRef} {args : List Ir.Expr} {ty : Ty}
    {r : Option Ir.Expr} (hv : View L.scopes ρ s)
    (h : Runs (finishCall L.env method args ty) s r s') : Coded L π ρ s s' := by
  unfold finishCall at h
  by_cases hty : ty.isVoid = true
  · simp only [if_pos hty, runs_bind, runs_pure] at h
    obtain ⟨_, s₁, h₁, -, rfl⟩ := h
    exact emitCall_coded hv (by simp) h₁
  · simp only [if_neg hty, runs_bind, runs_lift, runs_pure] at h
    obtain ⟨t, s₁, ⟨-, rfl⟩, x, s₂, h₂, _, s₃, h₃, -, rfl⟩ := h
    -- the output is a variable made right in front of the call
    obtain ⟨rfl, -, he⟩ := runs_freshLocal h₂
    refine (Coded.of_nil he).trans (emitCall_coded (he.view hv) (fun x hx => ?_) h₃)
    rw [List.mem_singleton] at hx
    subst hx
    exact .temp

theorem finishNew_coded {type : TypeRef} {ctor : Option MethodRef} {args : List Ir.Expr}
    {v : Ir.Expr} (hv : View L.scopes ρ s)
    (h : Runs (finishNew L.env type ctor args) s v s') : Coded L π ρ s s' := by
  simp only [finishNew, runs_bind] at h
  obtain ⟨object, s₁, h₁, h₂⟩ := h
  have hc : Coded L π ρ s s₁ := alloc_coded h₁
  cases ctor with
  | none =>
    simp only [runs_pure] at h₂
    rw [h₂.2]
    exact hc
  | some method =>
    simp only [runs_bind, runs_pure] at h₂
    obtain ⟨_, s₂, h₂, -, rfl⟩ := h₂
    exact hc.trans (emitCall_coded (hc.view hv) (by simp) h₂)

/-- A part that was lowered before, and the assignment of its value behind it. -/
theorem flatten_set (π : Path) (ρ : List Frame) {cs : List Cmd} {ls : List Line}
    (hcs : flatten cs = instrs ls) (n : Nat) (v : Ir.Expr) :
    flatten (cs ++ [.set ("$" ++ "tmp" ++ toString n) v])
      = instrs (ls ++ own π ρ [.set (Slot.temp n).name v]) := by
  rw [Machine.flatten_append, hcs, instrs_append, instrs_own]
  rfl

/-- The commands of the right operand were lowered before; here they find their place. -/
theorem finishBinary_coded {op : BinOp} {lhs : Expr} {left right v : Ir.Expr}
    {rightCmds : List Cmd} {rs : List Line} (hrs : flatten rightCmds = instrs rs)
    (hl : Leaf L π ρ rs) (h : Runs (finishBinary op lhs left right rightCmds) s v s') :
    Coded L π ρ s s' := by
  unfold finishBinary at h
  by_cases hr : rightCmds.isEmpty = true
  · rw [if_pos hr, runs_pure] at h
    rw [h.2]
    exact .refl s
  rw [if_neg hr] at h
  cases op with
  | and | or =>
    simp only [runs_bind, runs_pure] at h
    obtain ⟨x, s₁, h₁, _, s₂, h₂, _, s₃, h₃, -, rfl⟩ := h
    obtain ⟨rfl, -, he₁⟩ := runs_freshLocal h₁
    refine (Coded.of_nil he₁).trans (.trans (.emit rfl (.set .temp) h₂) ?_)
    exact ⟨_, emits_ifElse π ρ (flatten_set π ρ hrs _ _) rfl h₃,
      .choice (.append hl (.single (.set .temp))) .nil⟩
  | _ =>
    simp only [runs_bind, runs_lift, runs_pure] at h
    obtain ⟨ty, _, ⟨-, rfl⟩, x, s₁, h₁, _, s₂, h₂, _, s₃, h₃, -, rfl⟩ := h
    obtain ⟨rfl, -, he₁⟩ := runs_freshLocal h₁
    refine (Coded.of_nil he₁).trans (.trans (.emit rfl (.set .temp) h₂) ⟨rs, ?_, hl⟩)
    rw [← hrs]
    exact emits_emitAll h₃

/-- The same for the two branches of a conditional. -/
theorem finishConditional_coded {ty : Ty} {span : Span} {cond : Ir.Expr}
    {thenPart elsePart : Ir.Expr × List Cmd} {as bs : List Line} {v : Ir.Expr}
    (ha : flatten thenPart.2 = instrs as) (hb : flatten elsePart.2 = instrs bs)
    (hla : Leaf L π ρ as) (hlb : Leaf L π ρ bs)
    (h : Runs (finishConditional ty span cond thenPart elsePart) s v s') :
    Coded L π ρ s s' := by
  unfold finishConditional at h
  by_cases hr : (thenPart.2.isEmpty && elsePart.2.isEmpty) = true
  · rw [if_pos hr, runs_pure] at h
    rw [h.2]
    exact .refl s
  rw [if_neg hr] at h
  simp only [runs_bind, runs_lift, runs_pure] at h
  obtain ⟨irty, _, ⟨-, rfl⟩, x, s₁, h₁, _, s₂, h₂, -, rfl⟩ := h
  obtain ⟨rfl, -, he₁⟩ := runs_freshLocal h₁
  refine (Coded.of_nil he₁).trans
    ⟨_, emits_ifElse π ρ (flatten_set π ρ ha _ _) (flatten_set π ρ hb _ _) h₂, ?_⟩
  exact .choice (.append hla (.single (.set .temp))) (.append hlb (.single (.set .temp)))

theorem defaultValue_coded {ty : Ty} {span : Span} {v : Ir.Expr}
    (h : Runs (defaultValue L.env ty span) s v s') : Coded L π ρ s s' := by
  unfold defaultValue at h
  cases ty with
  | void => exact absurd h not_runs_throw
  | bool | int =>
    rw [(runs_pure.mp h).2]
    exact .refl s
  | named t =>
    simp only at h
    split at h
    · exact alloc_coded h
    · rw [(runs_pure.mp h).2]
      exact .refl s

/-- A part that is lowered aside. -/
theorem buffered_coded {act : Lower Ir.Expr} {r : Ir.Expr × List Cmd}
    (hact : ∀ {t t' : State} {v : Ir.Expr}, View L.scopes ρ t → Runs act t v t' →
      Coded L π ρ t t') (hv : View L.scopes ρ s) (h : Runs (buffered act) s r s') :
    Emits s [] s' ∧ ∃ ls, flatten r.2 = instrs ls ∧ Leaf L π ρ ls := by
  obtain ⟨s₁, h₁, hr, rfl⟩ := runs_buffered.mp h
  obtain ⟨ls, he, hl⟩ := hact (hv.withCmds []) h₁
  obtain ⟨he', hf⟩ := he.unbuffer
  refine ⟨he', ls, ?_, hl⟩
  rw [hr, hf]

/-! ## Expressions -/

/-- The variables that an expression writes may be written. -/
def Layout.Allows (L : Layout) (names : List String) : Prop := ∀ x ∈ names, L.writes x

theorem Layout.allows_append {xs ys : List String} :
    L.Allows (xs ++ ys) ↔ L.Allows xs ∧ L.Allows ys := by
  simp [Layout.Allows, or_imp, forall_and]

mutual

theorem lowerExpr_coded (e : Expr) (compound : Bool) {s s' : State} {r : Option Ir.Expr}
    (hw : L.Allows e.assigned) (hv : View L.scopes ρ s)
    (h : Runs (lowerExpr L.env e compound) s r s') : Coded L π ρ s s' := by
  obtain ⟨id, span, ty, kind⟩ := e
  cases kind with
  | literal | var | self | typeOf =>
    simp only [lowerExpr, runs_pure] at h
    rw [h.2]
    exact .refl s
  | field object field =>
    cases object with
    | none =>
      simp only [lowerExpr, runs_pure] at h
      rw [h.2]
      exact .refl s
    | some object =>
      simp only [lowerExpr, runs_bind, runs_pure, runs_valueOf] at h
      obtain ⟨v, s₁, h₁, -, rfl⟩ := h
      exact lowerExpr_coded object false (by simpa [Expr.assigned, Source.assignedOption] using hw)
        hv h₁
  | unary op operand | getType operand | conversion operand newTy =>
    simp only [lowerExpr, runs_bind, runs_pure, runs_valueOf] at h
    obtain ⟨v, s₁, h₁, -, rfl⟩ := h
    exact lowerExpr_coded operand false (by simpa [Expr.assigned] using hw) hv h₁
  | binary op lhs rhs =>
    rw [Expr.assigned, L.allows_append] at hw
    by_cases htar : lhs.isTarget
    · obtain ⟨i, sp, t, lhsKind⟩ := lhs
      cases lhsKind with
      | target target =>
        cases compound with
        | false =>
          rw [lowerExpr, if_neg Bool.false_ne_true, runs_bind] at h
          obtain ⟨_, s₁, h₁, -⟩ := h
          exact absurd h₁ not_runs_throw
        | true =>
          simp only [lowerExpr, if_true, runs_bind, runs_pure, runs_valueOf] at h
          obtain ⟨cur, s₁, h₁, v, s₂, h₂, _, s₃, h₃, w, s₄, h₄, -, rfl⟩ := h
          have hw₁ : L.Allows target.assigned := by simpa [Expr.assigned] using hw.1
          have c₁ := readTarget_coded target hw₁ hv h₁
          have c₂ := c₁.trans (lowerExpr_coded rhs false hw.2 (c₁.view hv) h₂)
          have c₃ := c₂.trans (writeTarget_coded target hw₁ (c₂.view hv) h₃)
          exact c₃.trans (readTarget_coded target hw₁ (c₃.view hv) h₄)
      | _ => cases htar
    · rw [Bool.not_eq_true] at htar
      simp only [lowerExpr_binary L.env htar, runs_bind, runs_pure, runs_valueOf] at h
      obtain ⟨left, s₁, h₁, ⟨right, rightCmds⟩, s₂, h₂, v, s₃, h₃, -, rfl⟩ := h
      have c₁ := lowerExpr_coded lhs false hw.1 hv h₁
      obtain ⟨he, rs, hrs, hleaf⟩ := buffered_coded
        (fun hv h => lowerExpr_coded rhs false hw.2 hv (runs_valueOf.mp h)) (c₁.view hv) h₂
      exact (c₁.trans (.of_nil he)).trans (finishBinary_coded hrs hleaf h₃)
  | conditional cond thenExpr elseExpr =>
    rw [Expr.assigned, L.allows_append, L.allows_append] at hw
    simp only [lowerExpr, runs_bind, runs_pure, runs_conditionOf] at h
    obtain ⟨c, s₁, ⟨w, h₁, -⟩, a, s₂, h₂, b, s₃, h₃, v, s₄, h₄, -, rfl⟩ := h
    have c₁ := lowerExpr_coded cond false hw.1.1 hv h₁
    obtain ⟨he₂, as, has, hla⟩ := buffered_coded
      (fun hv h => lowerExpr_coded thenExpr false hw.1.2 hv (runs_valueOf.mp h)) (c₁.view hv) h₂
    have c₂ := c₁.trans (.of_nil he₂)
    obtain ⟨he₃, bs, hbs, hlb⟩ := buffered_coded
      (fun hv h => lowerExpr_coded elseExpr false hw.2 hv (runs_valueOf.mp h)) (c₂.view hv) h₃
    exact (c₂.trans (.of_nil he₃)).trans (finishConditional_coded has hbs hla hlb h₄)
  | assign target value =>
    rw [Expr.assigned, L.allows_append] at hw
    simp only [lowerExpr, runs_bind, runs_pure, runs_valueOf] at h
    obtain ⟨v, s₁, h₁, _, s₂, h₂, w, s₃, h₃, -, rfl⟩ := h
    have c₁ := lowerExpr_coded value false hw.2 hv h₁
    have c₂ := c₁.trans (writeTarget_coded target hw.1 (c₁.view hv) h₂)
    exact c₂.trans (readTarget_coded target hw.1 (c₂.view hv) h₃)
  | target target =>
    simp only [lowerExpr, runs_bind, runs_pure] at h
    obtain ⟨v, s₁, h₁, -, rfl⟩ := h
    exact readTarget_coded target (by simpa [Expr.assigned] using hw) hv h₁
  | call call =>
    obtain ⟨method, receiver, args, isVirtual⟩ := call
    rw [Expr.assigned, L.allows_append] at hw
    simp only [lowerExpr, runs_bind] at h
    obtain ⟨r, s₁, h₁, vs, s₂, h₂, h₃⟩ := h
    have c₁ := lowerOption_coded receiver hw.1 hv h₁
    have c₂ := c₁.trans (lowerArgs_coded args hw.2 (c₁.view hv) h₂)
    exact c₂.trans (finishCall_coded (c₂.view hv) h₃)
  | new type ctor args =>
    simp only [lowerExpr, runs_bind, runs_pure] at h
    obtain ⟨vs, s₁, h₁, v, s₂, h₂, -, rfl⟩ := h
    have c₁ := lowerArgs_coded args (by simpa [Expr.assigned] using hw) hv h₁
    exact c₁.trans (finishNew_coded (c₁.view hv) h₂)
  | defaultValue valueTy =>
    simp only [lowerExpr, runs_bind, runs_pure] at h
    obtain ⟨v, s₁, h₁, -, rfl⟩ := h
    exact defaultValue_coded h₁
  | pop =>
    simp only [lowerExpr, runs_bind, runs_pure] at h
    obtain ⟨v, s₁, h₁, -, rfl⟩ := h
    exact .of_nil (emits_popOperand h₁)

theorem readTarget_coded (t : Target) {s s' : State} {v : Ir.Expr} (hw : L.Allows t.assigned)
    (hv : View L.scopes ρ s) (h : Runs (readTarget L.env t) s v s') : Coded L π ρ s s' := by
  cases t with
  | var name =>
    simp only [readTarget, runs_pure] at h
    rw [h.2]
    exact .refl s
  | field object field =>
    cases object with
    | none =>
      simp only [readTarget, runs_pure] at h
      rw [h.2]
      exact .refl s
    | some object =>
      simp only [readTarget, runs_bind, runs_pure, runs_valueOf] at h
      obtain ⟨v, s₁, h₁, -, rfl⟩ := h
      exact lowerExpr_coded object false (by simpa [Target.assigned] using hw) hv h₁

theorem writeTarget_coded (t : Target) {s s' : State} {v : Ir.Expr} {u : Unit}
    (hw : L.Allows t.assigned) (hv : View L.scopes ρ s)
    (h : Runs (writeTarget L.env t v) s u s') : Coded L π ρ s s' := by
  cases t with
  | var name =>
    rw [writeTarget] at h
    exact .emit rfl (.set (.source (hw name (by simp [Target.assigned])))) h
  | field object field =>
    cases object with
    | none =>
      rw [writeTarget] at h
      exact .emit rfl (.set (.source (hw field.mapName (by simp [Target.assigned])))) h
    | some object =>
      simp only [writeTarget, runs_bind, runs_valueOf] at h
      obtain ⟨o, s₁, h₁, h₂⟩ := h
      have c₁ := lowerExpr_coded object false (by simpa [Target.assigned] using hw) hv h₁
      exact c₁.trans (.emit rfl .store h₂)

theorem lowerOption_coded (e : Option Expr) {s s' : State} {r : Option Ir.Expr}
    (hw : L.Allows (Source.assignedOption e)) (hv : View L.scopes ρ s)
    (h : Runs (lowerOption L.env e) s r s') : Coded L π ρ s s' := by
  cases e with
  | none =>
    simp only [lowerOption, runs_pure] at h
    rw [h.2]
    exact .refl s
  | some e =>
    simp only [lowerOption, runs_bind, runs_pure, runs_valueOf] at h
    obtain ⟨v, s₁, h₁, -, rfl⟩ := h
    exact lowerExpr_coded e false (by simpa [Source.assignedOption] using hw) hv h₁

theorem lowerArgs_coded (es : List Expr) {s s' : State} {vs : List Ir.Expr}
    (hw : L.Allows (Source.assignedAll es)) (hv : View L.scopes ρ s)
    (h : Runs (lowerArgs L.env es) s vs s') : Coded L π ρ s s' := by
  cases es with
  | nil =>
    simp only [lowerArgs, runs_pure] at h
    rw [h.2]
    exact .refl s
  | cons e es =>
    rw [Source.assignedAll, L.allows_append] at hw
    simp only [lowerArgs, runs_bind, runs_pure, runs_valueOf] at h
    obtain ⟨v, s₁, h₁, vs, s₂, h₂, -, rfl⟩ := h
    have c₁ := lowerExpr_coded e false hw.1 hv h₁
    exact c₁.trans (lowerArgs_coded es hw.2 (c₁.view hv) h₂)

end

theorem value_coded {e : Expr} {v : Ir.Expr} (hw : L.Allows e.assigned) (hv : View L.scopes ρ s)
    (h : Runs (value L.env e) s v s') : Coded L π ρ s s' :=
  lowerExpr_coded e false hw hv (runs_valueOf.mp h)

theorem condition_coded {e : Expr} {v : Ir.Expr} (hw : L.Allows e.assigned)
    (hv : View L.scopes ρ s) (h : Runs (condition L.env e) s v s') : Coded L π ρ s s' := by
  obtain ⟨w, h₁, -⟩ := runs_conditionOf.mp h
  exact lowerExpr_coded e false hw hv h₁

end Unwind.Lowering
