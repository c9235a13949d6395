import Unwind.Proofs.Evaluation.Effects
import Unwind.Proofs.Evaluation.Typing

/-!
# Well-typed expressions have values

From a store that fits the signature, among callees that keep to it and return normally, the
evaluation of a well-typed expression succeeds with a value of its type and leaves a store that
fits again.
-/

namespace Unwind.Evaluation

open Source
open Lowering (binOp unOp)
open Machine (Memory Value)

/-! ## Stores and callees that fit -/

/-- No exception is pending, and the fields hold values of their types. -/
structure Admits (Γ : Signature) (m : Memory) : Prop where
  exception : m.exception = none
  static : ∀ {x t}, Γ.static x = some t → t.Has (m.globals x)
  field : ∀ {x t}, Γ.field x = some t → ∀ o, t.Has (m.fields x o)

/-- Variables and fields hold values of their types. -/
structure Conforms (Γ : Signature) (s : Store) : Prop where
  var : ∀ {x t}, Γ.var x = some t → t.Has (s.locals x)
  memory : Admits Γ s.memory

/-- The callees return normally, with results of their types, and leave values of their types in
the fields. Otherwise they may do anything. -/
structure World.Respects (w : World) (Γ : Signature) : Prop where
  memory : ∀ is i {m}, Admits Γ m → Admits Γ (w.call is i m).1
  result : ∀ is i {m t}, Admits Γ m → Γ.result i.method = some t → t.isVoid = false →
    t.Has (w.call is i m).2

/-! ## Values of operators -/

section

variable {s t result : Ty} {v a b : Value}

theorem literal_has {lit : Lit} (h : lit.isOf t = true) : t.Has (literal lit) := by
  cases lit with
  | int n => exact .int h
  | bool c => exact .bool h
  | null => exact .reference (beq_iff_eq.mp h)

theorem unary_has {op : UnOp} (hop : op.isOf t result = true) (h : t.Has v) :
    result.Has (Machine.unary (unOp op) v) := by
  cases op with
  | not =>
    rw [UnOp.isOf, Bool.and_eq_true] at hop
    obtain ⟨c, rfl⟩ := h.suits hop.1
    exact .bool hop.2
  | neg =>
    rw [UnOp.isOf, Bool.and_eq_true] at hop
    obtain ⟨n, rfl⟩ := h.suits hop.1
    exact .int hop.2

theorem binary_has {op : BinOp} (hop : op.isOf s t result = true) (ha : s.Has a) (hb : t.Has b) :
    result.Has (Machine.binary (binOp op) a b) := by
  cases op with
  | add | sub | mul | div | rem =>
    simp only [BinOp.isOf, Bool.and_eq_true] at hop
    obtain ⟨m, rfl⟩ := ha.suits hop.1.1
    obtain ⟨n, rfl⟩ := hb.suits hop.1.2
    exact .int hop.2
  | lt | le | gt | ge =>
    simp only [BinOp.isOf, Bool.and_eq_true] at hop
    obtain ⟨m, rfl⟩ := ha.suits hop.1.1
    obtain ⟨n, rfl⟩ := hb.suits hop.1.2
    exact .bool hop.2
  | eq | ne =>
    simp only [BinOp.isOf, Bool.and_eq_true] at hop
    exact .bool hop.2
  | and | or =>
    simp only [BinOp.isOf, Bool.and_eq_true] at hop
    obtain ⟨c, rfl⟩ := ha.suits hop.1.1
    obtain ⟨d, rfl⟩ := hb.suits hop.1.2
    exact .bool hop.2

/-- A left operand that decides the operator is a truth value, and so is the result. -/
theorem decided_has {op : BinOp} (hop : op.isOf s t result = true) (hd : isDecided op a = true)
    (ha : s.Has a) : result.Has a := by
  cases op with
  | and | or =>
    simp only [BinOp.isOf, Bool.and_eq_true] at hop
    obtain ⟨c, rfl⟩ := ha.suits hop.1.1
    exact .bool hop.2
  | _ => cases hd

theorem convert_has (hst : s.converts t = true) (h : s.Has v) : t.Has (convert s t v) := by
  obtain ⟨hs, ht, href⟩ := Ty.converts_iff.mp hst
  cases s with
  | void => cases hs
  | bool =>
    cases t with
    | void => cases ht
    | bool => exact h
    | int => exact ⟨_, rfl⟩
    | named => trivial
  | int =>
    cases t with
    | void => cases ht
    | bool => exact ⟨_, rfl⟩
    | int => exact h
    | named => trivial
  | named =>
    rcases href with href | href
    · exact absurd rfl href
    · exact .reference href

/-- Values of their types remain when another one is stored. -/
theorem update_has {T : String → Option Ty} {g : String → Value} {x y : String} (hx : T x = some t)
    (hv : t.Has v) (hg : ∀ {y t'}, T y = some t' → t'.Has (g y)) (hy : T y = some s) :
    s.Has (Function.update g x v y) := by
  by_cases hyx : y = x
  · subst hyx
    cases hx.symm.trans hy
    rw [Function.update_self]
    exact hv
  · rw [Function.update_of_ne hyx]
    exact hg hy

end

/-! ## Evaluations that succeed -/

/-- From every store that fits, the evaluation succeeds with a result that has the property, and
leaves a store that fits. -/
def Sound {α : Type} (Γ : Signature) (x : Evaluating α) (P : α → Prop) : Prop :=
  ∀ s, Conforms Γ s → ∃ a s', Yields x s a s' ∧ Conforms Γ s' ∧ P a

namespace Sound

variable {α β : Type} {Γ : Signature} {w : World} {x : Evaluating α} {f : α → Evaluating β}
  {P : α → Prop} {Q : β → Prop} {s s' : Store}

theorem of_yields {a : α} (h : Sound Γ x P) (hs : Conforms Γ s) (hx : Yields x s a s') :
    Conforms Γ s' ∧ P a := by
  obtain ⟨a', s'', hx', hs', ha'⟩ := h s hs
  obtain ⟨rfl, rfl⟩ := hx'.unique hx
  exact ⟨hs', ha'⟩

theorem pure {a : α} (ha : P a) : Sound Γ (Pure.pure a) P :=
  fun s hs => ⟨a, s, yields_pure.mpr ⟨rfl, rfl⟩, hs, ha⟩

theorem bind (hx : Sound Γ x P) (hf : ∀ a, P a → Sound Γ (f a) Q) : Sound Γ (x >>= f) Q := by
  intro s hs
  obtain ⟨a, s₁, h₁, hs₁, ha⟩ := hx s hs
  obtain ⟨b, s₂, h₂, hs₂, hb⟩ := hf a ha s₁ hs₁
  exact ⟨b, s₂, yields_bind.mpr ⟨a, s₁, h₁, h₂⟩, hs₂, hb⟩

theorem imp {P' : α → Prop} (h : Sound Γ x P) (hP : ∀ a, P a → P' a) : Sound Γ x P' := by
  intro s hs
  obtain ⟨a, s', hx, hs', ha⟩ := h s hs
  exact ⟨a, s', hx, hs', hP a ha⟩

/-- The value of an expression that has one goes to what follows. -/
theorem value {e : Evaluating (Option Value)} {t : Ty} {f : Value → Evaluating β}
    (he : Sound Γ e t.Gives) (ht : t.isVoid = false) (hf : ∀ v, t.Has v → Sound Γ (f v) Q) :
    Sound Γ (do f (← demand (← e))) Q := by
  refine he.bind fun o ho => ?_
  cases o with
  | none =>
    rw [Ty.Gives, ht] at ho
    cases ho
  | some v => exact hf v ho

theorem readLocal {x : String} {t : Ty} (hx : Γ.var x = some t) :
    Sound Γ (Evaluation.readLocal x) t.Has :=
  fun s hs => ⟨_, s, yields_readLocal.mpr ⟨rfl, rfl⟩, hs, hs.var hx⟩

theorem writeLocal {x : String} {t : Ty} {v : Value} (hx : Γ.var x = some t) (hv : t.Has v) :
    Sound Γ (Evaluation.writeLocal x v) fun _ => True :=
  fun _ hs => ⟨(), _, yields_writeLocal.mpr rfl, ⟨update_has hx hv hs.var, hs.memory⟩, trivial⟩

theorem readField {object : Option Expr} {o : Option Value} {f : FieldRef} {t : Ty}
    (ho : o.isSome = object.isSome) (hf : Γ.ofField object f = some t) :
    Sound Γ (Evaluation.readField o f) t.Has := by
  refine fun s hs => ⟨_, s, yields_readField.mpr ⟨rfl, rfl⟩, hs, ?_⟩
  cases object with
  | none =>
    cases o with
    | none => exact hs.memory.static hf
    | some o => cases ho
  | some e =>
    cases o with
    | none => cases ho
    | some o => exact hs.memory.field hf o

theorem writeField {object : Option Expr} {o : Option Value} {f : FieldRef} {t : Ty} {v : Value}
    (ho : o.isSome = object.isSome) (hf : Γ.ofField object f = some t) (hv : t.Has v) :
    Sound Γ (Evaluation.writeField o f v) fun _ => True := by
  refine fun s hs => ⟨(), _, yields_writeField.mpr rfl, ⟨hs.var, ?_⟩, trivial⟩
  obtain ⟨hexc, hstatic, hfield⟩ := hs.memory
  cases object with
  | none =>
    cases o with
    | some o => cases ho
    | none => exact ⟨hexc, update_has hf hv hstatic, hfield⟩
  | some e =>
    cases o with
    | none => cases ho
    | some o =>
      refine ⟨hexc, hstatic, fun {m t'} hm o' => ?_⟩
      show t'.Has (Function.update s.memory.fields f.mapName _ m o')
      by_cases hmf : m = f.mapName
      · subst hmf
        cases hf.symm.trans hm
        rw [Function.update_self, Function.update_apply]
        split
        · exact hv
        · exact hfield hf o'
      · rw [Function.update_of_ne hmf]
        exact hfield hm o'

theorem create {t : TypeRef} {ty : Ty} (hty : ty.valueKind? = some .reference) :
    Sound Γ (Evaluation.create t) ty.Has := by
  refine fun s hs => ⟨_, _, yields_create.mpr ⟨rfl, rfl⟩, ⟨hs.var, ?_⟩, .reference hty⟩
  exact ⟨hs.memory.exception, hs.memory.static, hs.memory.field⟩

theorem perform (hw : w.Respects Γ) {i : Invocation} {result : Ty}
    (hi : result.isVoid = false → ∃ t, Γ.result i.method = some t ∧ t.suits result = true) :
    Sound Γ (Evaluation.perform w i result) result.Gives := by
  intro s hs
  have hm := hw.memory s.calls i hs.memory
  refine ⟨_, _, yields_perform.mpr ⟨hm.exception, rfl, rfl⟩, ⟨hs.var, hm⟩, ?_⟩
  cases hv : result.isVoid with
  | true => exact hv
  | false =>
    obtain ⟨t, ht, hsuits⟩ := hi hv
    have hr := hw.result s.calls i hs.memory ht (Ty.suits_iff.mp hsuits).1
    exact hr.suits hsuits

theorem truth {t : Ty} {v : Value} (h : t.isVoid = false) :
    Sound Γ (Evaluation.truth t v) fun _ => True := by
  cases t with
  | void => cases h
  | bool | int | named => exact pure trivial

theorem defaultValue {t ty : Ty} (h : t.suits ty = true) :
    Sound Γ (Evaluation.defaultValue w t) ty.Has := by
  cases t with
  | void => cases h
  | bool => exact pure (Ty.Has.suits (s := .bool) ⟨_, rfl⟩ h)
  | int => exact pure (Ty.Has.suits (s := .int) ⟨_, rfl⟩ h)
  | named t =>
    have hty : ty.valueKind? = some .reference := (Ty.suits_iff.mp h).2.symm
    unfold Evaluation.defaultValue
    dsimp only
    split
    · exact create hty
    · exact pure (.reference hty)

end Sound

/-! ## Expressions -/

section

variable {Γ : Signature} {w : World}

mutual

/-- A well-typed expression has a value of its type. -/
theorem eval_sound (hw : w.Respects Γ) (e : Expr) (h : e.wellTyped Γ = true) :
    Sound Γ (eval w e) e.ty.Gives := by
  obtain ⟨id, span, ty, kind⟩ := e
  cases kind with
  | literal lit =>
    rw [eval]
    exact .pure (literal_has h)
  | var | self =>
    obtain ⟨t, hx, ht⟩ := (Option.any_eq_true _ _).mp h
    rw [eval]
    exact (Sound.readLocal hx).bind fun v hv => .pure (hv.suits ht)
  | field object f =>
    simp only [Expr.wellTyped, Bool.and_eq_true] at h
    obtain ⟨t, hf, ht⟩ := (Option.any_eq_true _ _).mp h.2
    rw [eval]
    refine (evalOption_sound hw object h.1).bind fun o ho => ?_
    exact (Sound.readField ho hf).bind fun v hv => .pure (hv.suits ht)
  | unary op operand =>
    simp only [Expr.wellTyped, Bool.and_eq_true] at h
    rw [eval]
    refine (eval_sound hw operand h.1).value (UnOp.not_void h.2) fun v hv => ?_
    exact .pure (unary_has h.2 hv)
  | getType object =>
    simp only [Expr.wellTyped, Bool.and_eq_true, Bool.not_eq_true', beq_iff_eq] at h
    rw [eval]
    exact (eval_sound hw object h.1).value h.2.1 fun v _ => .pure (.reference h.2.2)
  | conversion value newTy =>
    simp only [Expr.wellTyped, Bool.and_eq_true] at h
    rw [eval]
    refine (eval_sound hw value h.1).value (Ty.converts_iff.mp h.2.1).1 fun v hv => ?_
    exact .pure ((convert_has h.2.1 hv).suits h.2.2)
  | binary op lhs rhs =>
    simp only [Expr.wellTyped, Bool.and_eq_true] at h
    obtain ⟨hlhs, hrhs, hop, hplace⟩ := h
    obtain ⟨hl, hr⟩ := BinOp.not_void hop
    by_cases ht : lhs.isTarget
    · obtain ⟨i, sp, t, lhsKind⟩ := lhs
      cases lhsKind with
      | target target =>
        simp only [Expr.wellTyped, Bool.and_eq_true] at hlhs
        obtain ⟨htarget, hty⟩ := hlhs
        obtain ⟨tt, htt, hty⟩ := (Option.any_eq_true _ _).mp hty
        rw [Bool.and_eq_true] at hty
        rw [eval]
        -- the target is read, combined, written, and read once more for the value
        refine (readTarget_sound hw target htarget htt).bind fun current hcur => ?_
        refine (eval_sound hw rhs hrhs).value hr fun right hright => ?_
        have hres := binary_has hop (hcur.suits hty.1) hright
        have hstored := (hres.suits (by simpa [Expr.isTarget] using hplace)).suits hty.2
        refine (writeTarget_sound hw target htarget htt hstored).bind fun _ _ => ?_
        refine (readTarget_sound hw target htarget htt).bind fun v hv => .pure ?_
        exact Ty.Has.of_suits (by simpa [Expr.isTarget] using hplace) (hv.suits hty.1)
      | _ => cases ht
    · rw [Bool.not_eq_true] at ht
      rw [eval_binary w ht]
      refine (eval_sound hw lhs hlhs).value hl fun left hleft => ?_
      split
      -- the left operand may decide the value alone
      · next hd => exact .pure (decided_has hop hd hleft)
      · exact (eval_sound hw rhs hrhs).value hr fun right hright =>
          .pure (binary_has hop hleft hright)
  | conditional cond thenExpr elseExpr =>
    simp only [Expr.wellTyped, Bool.and_eq_true, Bool.not_eq_true'] at h
    obtain ⟨hcond, hthen, helse, hc, hthenTy, helseTy⟩ := h
    rw [eval]
    refine (eval_sound hw cond hcond).value hc fun c _ => ?_
    refine (Sound.truth hc).bind fun b _ => ?_
    cases b with
    | true => exact (eval_sound hw thenExpr hthen).imp fun o ho => ho.suits hthenTy
    | false => exact (eval_sound hw elseExpr helse).imp fun o ho => ho.suits helseTy
  | assign target value =>
    simp only [Expr.wellTyped, Bool.and_eq_true] at h
    obtain ⟨htarget, hvalue, hty⟩ := h
    obtain ⟨tt, htt, hty⟩ := (Option.any_eq_true _ _).mp hty
    rw [Bool.and_eq_true] at hty
    rw [eval]
    refine (eval_sound hw value hvalue).value (Ty.suits_iff.mp hty.1).1 fun v hv => ?_
    refine (writeTarget_sound hw target htarget htt (hv.suits hty.1)).bind fun _ _ => ?_
    exact (readTarget_sound hw target htarget htt).bind fun v hv => .pure (hv.suits hty.2)
  | target target =>
    simp only [Expr.wellTyped, Bool.and_eq_true] at h
    obtain ⟨tt, htt, hty⟩ := (Option.any_eq_true _ _).mp h.2
    rw [Bool.and_eq_true] at hty
    rw [eval]
    exact (readTarget_sound hw target h.1 htt).bind fun v hv => .pure (hv.suits hty.1)
  | call call =>
    obtain ⟨method, receiver, args, isVirtual⟩ := call
    simp only [Expr.wellTyped, Bool.and_eq_true] at h
    obtain ⟨t, ht, hty⟩ := (Option.any_eq_true _ _).mp h.2.2
    rw [eval]
    refine (evalOption_sound hw receiver h.1).bind fun r _ => ?_
    refine (evalAll_sound hw args h.2.1).bind fun vs _ => ?_
    exact .perform hw fun hv => ⟨t, ht, Ty.suits_of_valueKind? hv (beq_iff_eq.mp hty)⟩
  | new type ctor args =>
    simp only [Expr.wellTyped, Bool.and_eq_true, beq_iff_eq] at h
    rw [eval]
    refine (evalAll_sound hw args h.1).bind fun vs _ => ?_
    refine (Sound.create h.2).bind fun object hobject => ?_
    cases ctor with
    | none => exact .pure hobject
    | some method =>
      exact (Sound.perform hw (by rintro ⟨⟩)).bind fun _ _ => .pure hobject
  | typeOf type =>
    rw [eval]
    exact .pure (.reference (beq_iff_eq.mp h))
  | defaultValue valueTy =>
    rw [eval]
    exact (Sound.defaultValue h).bind fun v hv => .pure hv
  | pop => cases h

theorem readTarget_sound (hw : w.Respects Γ) (t : Target) {ty : Ty} (h : t.wellTyped Γ = true)
    (ht : Γ.ofTarget t = some ty) : Sound Γ (readTarget w t) ty.Has := by
  cases t with
  | var name =>
    rw [readTarget]
    exact .readLocal ht
  | field object f =>
    rw [readTarget]
    exact (evalOption_sound hw object h).bind fun o ho => .readField ho ht

theorem writeTarget_sound (hw : w.Respects Γ) (t : Target) {ty : Ty} {v : Value}
    (h : t.wellTyped Γ = true) (ht : Γ.ofTarget t = some ty) (hv : ty.Has v) :
    Sound Γ (writeTarget w t v) fun _ => True := by
  cases t with
  | var name =>
    rw [writeTarget]
    exact .writeLocal ht hv
  | field object f =>
    rw [writeTarget]
    exact (evalOption_sound hw object h).bind fun o ho => .writeField ho ht hv

theorem evalOption_sound (hw : w.Respects Γ) (e : Option Expr) (h : optionTyped Γ e = true) :
    Sound Γ (evalOption w e) fun o => o.isSome = e.isSome := by
  cases e with
  | none =>
    rw [evalOption]
    exact .pure rfl
  | some e =>
    simp only [optionTyped, Bool.and_eq_true, Bool.not_eq_true'] at h
    rw [evalOption]
    exact (eval_sound hw e h.1).value h.2 fun v _ => .pure rfl

theorem evalAll_sound (hw : w.Respects Γ) (es : List Expr) (h : allTyped Γ es = true) :
    Sound Γ (evalAll w es) fun _ => True := by
  cases es with
  | nil =>
    rw [evalAll]
    exact .pure trivial
  | cons e es =>
    simp only [allTyped, Bool.and_eq_true, Bool.not_eq_true'] at h
    rw [evalAll]
    refine (eval_sound hw e h.1.1).value h.1.2 fun v _ => ?_
    exact (evalAll_sound hw es h.2).bind fun vs _ => .pure trivial

end

end

end Unwind.Evaluation
