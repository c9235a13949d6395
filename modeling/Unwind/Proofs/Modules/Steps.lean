import Unwind.Proofs.Lowering.Steps

/-!
# Steps on states with a part left out

A step that only carries a part of its state along does the same without it. `Erases` relates a step
to one that runs on states from which `forget` has dropped that part: both end with the same result,
up to what `f` drops from results, and the second leaves what `forget` makes of the state that the
first one leaves. The relation is closed under what steps are made of.
-/

namespace Unwind

/-- Run on a state after `forget`, the step `y` does what `x` does on the state itself. -/
def Erases {σ α β : Type} (forget : σ → σ) (f : α → β) (x : ExceptT Fault (StateM σ) α)
    (y : ExceptT Fault (StateM σ) β) : Prop :=
  ∀ s, y.run (forget s) = ((x.run s).1.map f, forget (x.run s).2)

namespace Erases

variable {σ α β γ δ : Type} {forget : σ → σ} {f : α → β} {g : γ → δ}
  {x : ExceptT Fault (StateM σ) α} {y : ExceptT Fault (StateM σ) β}

theorem pure {a : α} {b : β} (h : b = f a) :
    Erases forget f (Pure.pure a : ExceptT Fault (StateM σ) α) (Pure.pure b) := by
  subst h
  exact fun _ => rfl

theorem bind {k : α → ExceptT Fault (StateM σ) γ} {k' : β → ExceptT Fault (StateM σ) δ}
    (h : Erases forget f x y) (hk : ∀ a, Erases forget g (k a) (k' (f a))) :
    Erases forget g (x >>= k) (y >>= k') := by
  intro s
  rw [Lowering.run_bind, Lowering.run_bind, h s]
  rcases x.run s with ⟨e | a, t⟩
  · rfl
  · exact hk a t

theorem throw {e : Fault} :
    Erases forget f (MonadExcept.throw e : ExceptT Fault (StateM σ) α) (MonadExcept.throw e) :=
  fun _ => rfl

theorem lift {a : Except Fault α} {b : Except Fault β} (h : b = a.map f) :
    Erases forget f (liftM a : ExceptT Fault (StateM σ) α) (liftM b) := by
  subst h
  cases a with
  | ok a => exact .pure rfl
  | error e => exact .throw

theorem liftSame (a : Except Fault α) :
    Erases forget id (liftM a : ExceptT Fault (StateM σ) α) (liftM a) :=
  .lift (congrFun Except.map_id a).symm

theorem modifyGet {step : σ → α × σ} {step' : σ → β × σ}
    (h : ∀ s, step' (forget s) = (f (step s).1, forget (step s).2)) :
    Erases forget f (MonadStateOf.modifyGet step : ExceptT Fault (StateM σ) α)
      (MonadStateOf.modifyGet step') :=
  fun s => congrArg (fun p : β × σ => (Except.ok p.1, p.2)) (h s)

theorem update {step step' : σ → σ} (h : ∀ s, step' (forget s) = forget (step s)) :
    Erases forget id (modify step : ExceptT Fault (StateM σ) Unit) (modify step') :=
  fun s => congrArg (Prod.mk (Except.ok ())) (h s)

end Erases

end Unwind
