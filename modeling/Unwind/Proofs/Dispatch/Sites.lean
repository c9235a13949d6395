import Mathlib.Data.List.Nodup
import Unwind.Proofs.Dispatch
import Unwind.Proofs.Names

/-!
# One call site

What the expansion of a single call site does. Either the call is settled, and it stays as it is
whatever has been expanded before (`expandCall_settled`), or it becomes a cascade over the overrides
of its method, on a receiver that is read again or bound to the next variable (`runs_expandCall`).

The variables bound to receivers are numbered in the order in which they are bound (`Numbered`). A
step adds to them and keeps them numbered, whether it fails or not (`Grows`).
-/

namespace Unwind.Dispatch

open Source
open Lowering (Runs run_bind runs_bind runs_pure runs_lift runs_modify toDigits_inj)

/-! ## Names of receivers -/

theorem receiverName_inj {m n : Nat} (h : receiverName m = receiverName n) : m = n :=
  toDigits_inj.mp (by simpa [receiverName] using congrArg String.toList h)

/-- The name begins like the names of variables bound to receivers. -/
def isReceiverName (name : String) : Bool := "$recv".toList.isPrefixOf name.toList

/-- The variables are called `$recv0`, `$recv1` and so on. -/
def Numbered (vs : List Variable) : Prop :=
  vs.map (·.name) = (List.range vs.length).map receiverName

theorem Numbered.nil : Numbered [] := rfl

theorem Numbered.concat {vs : List Variable} (h : Numbered vs) (ty : Ty) :
    Numbered (vs ++ [⟨receiverName vs.length, ty⟩]) := by
  unfold Numbered at h ⊢
  rw [List.map_append, h, List.length_append, List.length_singleton, List.range_succ,
    List.map_append]
  rfl

theorem Numbered.nodup {vs : List Variable} (h : Numbered vs) : (vs.map (·.name)).Nodup := by
  rw [h]
  exact List.nodup_range.map fun _ _ heq => receiverName_inj heq

/-- The next name is new. -/
theorem Numbered.fresh {vs : List Variable} (h : Numbered vs) :
    receiverName vs.length ∉ vs.map (·.name) := by
  rw [h]
  intro hmem
  obtain ⟨n, hn, heq⟩ := List.mem_map.mp hmem
  exact absurd (receiverName_inj heq) (Nat.ne_of_lt (List.mem_range.mp hn))

/-- Receivers are added behind those that are bound, and stay numbered. -/
structure Grows (s s' : State) : Prop where
  keeps : s.receivers <+: s'.receivers
  numbered : Numbered s.receivers → Numbered s'.receivers

namespace Grows

theorem of_eq {s s' : State} (h : s'.receivers = s.receivers) : Grows s s' :=
  ⟨h ▸ List.prefix_rfl, fun hs => h ▸ hs⟩

theorem refl (s : State) : Grows s s := of_eq rfl

theorem trans {s s₁ s₂ : State} (h : Grows s s₁) (h' : Grows s₁ s₂) : Grows s s₂ :=
  ⟨h.keeps.trans h'.keeps, fun hs => h'.numbered (h.numbered hs)⟩

variable {α β : Type} {x : Expanding α} {f : α → Expanding β}

theorem bind (hx : ∀ s, Grows s (x.run s).2) (hf : ∀ a s, Grows s ((f a).run s).2) (s : State) :
    Grows s ((x >>= f).run s).2 := by
  have h := hx s
  rw [run_bind]
  -- a failing first step ends the run, and what it has bound stays bound
  generalize x.run s = p at h
  obtain ⟨a | a, s₁⟩ := p
  · exact h
  · exact h.trans (hf a s₁)

end Grows

/-! ## Receivers -/

/-- The expression can be evaluated a second time: it is a variable or `this`. -/
def isReusable (e : Expr) : Bool :=
  match e.kind with
  | .var _ | .self => true
  | _ => false

/-- How the receiver `e` stands in a cascade, and the variables that are bound afterwards when `vs`
were bound before. -/
inductive Bound (vs : List Variable) (e : Expr) : Receiver → List Variable → Prop
  | reused : isReusable e = true → Bound vs e ⟨e, e⟩ vs
  | named : isReusable e = false →
      Bound vs e
        ⟨(Expr.assign (.var (receiverName vs.length)) e).withSpan e.span,
          (Expr.var (receiverName vs.length) e.ty).withSpan e.span⟩
        (vs ++ [⟨receiverName vs.length, e.ty⟩])

theorem exists_bound (vs : List Variable) (e : Expr) : ∃ receiver vs', Bound vs e receiver vs' := by
  cases he : isReusable e with
  | true => exact ⟨_, _, .reused he⟩
  | false => exact ⟨_, _, .named he⟩

theorem Bound.leads {e : Expr} {s : State} {receiver : Receiver} {vs : List Variable}
    (h : Bound s.receivers e receiver vs) :
    Leads (bindReceiver e) s (.ok receiver) { s with receivers := vs } := by
  intro log
  obtain ⟨id, span, ty, kind⟩ := e
  cases h with
  | reused he => cases kind <;> first | exact ⟨log, rfl⟩ | cases he
  | named he => cases kind <;> first | exact ⟨log, rfl⟩ | cases he

theorem Bound.grows {s : State} {e : Expr} {receiver : Receiver} {vs : List Variable}
    (h : Bound s.receivers e receiver vs) : Grows s { s with receivers := vs } := by
  cases h with
  | reused => exact .of_eq rfl
  | named => exact ⟨List.prefix_append _ _, fun hs => hs.concat e.ty⟩

/-! ## Calls -/

/-- A call that an expansion leaves as it is: it is exempt, or every type below runs the method of
the call itself. -/
def Settled (h : Hierarchy) (call : Call) : Prop :=
  isExempt h call = true ∨ h.resolve call.method = .ok []

/-- A call that is not virtual is settled. -/
theorem settled_of_not_isVirtual (h : Hierarchy) {call : Call} (hcall : call.isVirtual = false) :
    Settled h call := by
  left
  unfold isExempt
  rw [hcall]
  rfl

/-- The call has the receiver `e` and is dispatched over the overrides `os`. The receiver stands in
the cascade as `receiver`; the variables `vs` are bound before and `vs'` afterwards. -/
structure Dispatched (h : Hierarchy) (call : Call) (vs : List Variable) (e : Expr)
    (os : List Override) (receiver : Receiver) (vs' : List Variable) : Prop where
  not_exempt : isExempt h call = false
  receiver_eq : call.receiver = some e
  resolves : h.resolve call.method = .ok os
  nonempty : os ≠ []
  bound : Bound vs e receiver vs'

/-- What becomes of a call site, and the state behind it. -/
inductive Decided (h : Hierarchy) (call : Call) (result : Ty) (span : Span) (s : State) :
    Except Fault Replacement → State → Prop
  | settled : Settled h call → Decided h call result span s (.ok .unchanged) s
  | unknown {fault : Fault} : isExempt h call = false → h.resolve call.method = .error fault →
      Decided h call result span s (.error fault) s
  | dispatched {e : Expr} {os : List Override} {receiver : Receiver} {vs : List Variable} :
      Dispatched h call s.receivers e os receiver vs →
      Decided h call result span s (.ok (chain h call result span receiver os))
        { s with receivers := vs }

section

variable {h : Hierarchy} {call : Call}

theorem overridesOf_leads {m : MethodRef} {os : List Override} (hm : h.resolve m = .ok os)
    (s : State) : Leads (overridesOf h m) s (.ok os) s := by
  intro log
  unfold overridesOf
  rw [hm]
  exact ⟨_, rfl⟩

/-- A call on a type with subtypes is not exempt, unless its method is a root method or named as an
event accessor. -/
theorem isExempt_dispatched {m : MethodRef} {receiver : Expr} {args : List Expr}
    (hroot : isRootMethod m = false)
    (hname : ¬"add_".toList <+: m.name.toList ∧ ¬"remove_".toList <+: m.name.toList)
    (hindex : h.index.contains m.type = true) :
    isExempt h (.dispatched m receiver args) = false := by
  have hadd : "add_".isPrefixOf m.name = false := String.startsWith_string_eq_false_iff.mpr hname.1
  have hremove : "remove_".isPrefixOf m.name = false :=
    String.startsWith_string_eq_false_iff.mpr hname.2
  have haccessor : isEventAccessor h m = false := by
    rw [isEventAccessor, hadd, hremove, Bool.or_false, Bool.false_and]
  change (isRootMethod m || isEventAccessor h m || !h.index.contains m.type) = false
  rw [hroot, haccessor, hindex]
  rfl

/-- A call on a type without subtypes is exempt. -/
theorem isExempt_of_leaf (hindex : h.index.contains call.method.type = false) :
    isExempt h call = true := by
  rw [isExempt, hindex, Bool.not_false, Bool.or_true]

/-- A settled call stays as it is, and nothing is bound or counted. -/
theorem expandCall_settled (hs : Settled h call) (result : Ty) (span : Span) (s : State) :
    Leads (expandCall h call result span) s (.ok .unchanged) s := by
  unfold expandCall
  by_cases hexempt : isExempt h call = true
  · rw [if_pos hexempt]
    exact fun log => ⟨log, rfl⟩
  · rw [if_neg hexempt]
    exact (overridesOf_leads (hs.resolve_left hexempt) s).bind fun log => ⟨log, rfl⟩

/-- A call whose method is unknown fails before anything is bound. -/
theorem expandCall_unknown {fault : Fault} (hexempt : isExempt h call = false)
    (hresolve : h.resolve call.method = .error fault) (result : Ty) (span : Span) (s : State) :
    Leads (expandCall h call result span) s (.error fault) s := by
  intro log
  unfold expandCall overridesOf
  rw [if_neg (Bool.eq_false_iff.mp hexempt), hresolve]
  exact ⟨_, rfl⟩

/-- A dispatched call becomes the cascade over its overrides. -/
theorem Dispatched.leads {s : State} {e : Expr} {os : List Override} {receiver : Receiver}
    {vs : List Variable} (hd : Dispatched h call s.receivers e os receiver vs) (result : Ty)
    (span : Span) : Leads (expandCall h call result span) s
      (.ok (chain h call result span receiver os)) { s with receivers := vs } := by
  obtain ⟨hexempt, hreceiver, hresolve, hnonempty, hbound⟩ := hd
  obtain ⟨o, os, rfl⟩ := List.exists_cons_of_ne_nil hnonempty
  have hreport : ∀ message, Leads (report .debug message) s (.ok ()) s := fun _ log => ⟨_, rfl⟩
  unfold expandCall
  rw [if_neg (Bool.eq_false_iff.mp hexempt), hreceiver]
  refine (overridesOf_leads hresolve s).bind ?_
  exact (hreport _).bind (hbound.leads.bind fun log => ⟨log, rfl⟩)

/-- A call stays, or its method is unknown, or it becomes the cascade over its overrides. -/
theorem expandCall_decided (h : Hierarchy) (call : Call) (result : Ty) (span : Span) (s : State) :
    ∃ r s', Decided h call result span s r s' ∧ Leads (expandCall h call result span) s r s' := by
  cases hexempt : isExempt h call with
  | true => exact ⟨_, _, .settled (.inl hexempt), expandCall_settled (.inl hexempt) result span s⟩
  | false =>
    cases hresolve : h.resolve call.method with
    | error fault =>
      exact ⟨_, _, .unknown hexempt hresolve, expandCall_unknown hexempt hresolve result span s⟩
    | ok os =>
      cases os with
      | nil =>
        exact ⟨_, _, .settled (.inr hresolve), expandCall_settled (.inr hresolve) result span s⟩
      | cons o os =>
        cases hreceiver : call.receiver with
        -- a call without a receiver is exempt
        | none => simp [isExempt, hreceiver] at hexempt
        | some e =>
          obtain ⟨receiver, vs, hbound⟩ := exists_bound s.receivers e
          have hd : Dispatched h call s.receivers e (o :: os) receiver vs :=
            ⟨hexempt, hreceiver, hresolve, List.cons_ne_nil o os, hbound⟩
          exact ⟨_, _, .dispatched hd, hd.leads result span⟩

/-- The run of a call site from a state with its log. -/
theorem run_expandCall (h : Hierarchy) (call : Call) (result : Ty) (span : Span) (s : State) :
    ∃ r s' log, Decided h call result span s r s' ∧
      (expandCall h call result span).run s = (r, { s' with log }) := by
  obtain ⟨r, s', hdecided, hleads⟩ := expandCall_decided h call result span s
  obtain ⟨log, hrun⟩ := hleads s.log
  exact ⟨r, s', log, hdecided, hrun⟩

/-- A call that does not fail stays because it is settled, or it becomes the cascade over its
overrides. -/
theorem runs_expandCall {result : Ty} {span : Span} {r : Replacement} {s s' : State}
    (hrun : Runs (expandCall h call result span) s r s') :
    (r = .unchanged ∧ Settled h call ∧ s'.receivers = s.receivers) ∨
      ∃ e os receiver, Dispatched h call s.receivers e os receiver s'.receivers ∧
        r = chain h call result span receiver os := by
  obtain ⟨r', s₁, log, hdecided, hrun'⟩ := run_expandCall h call result span s
  cases hrun.symm.trans hrun'
  cases hdecided with
  | settled hsettled => exact .inl ⟨rfl, hsettled, rfl⟩
  | dispatched hd => exact .inr ⟨_, _, _, hd, rfl⟩

theorem expandCall_grows (h : Hierarchy) (call : Call) (result : Ty) (span : Span) (s : State) :
    Grows s ((expandCall h call result span).run s).2 := by
  obtain ⟨r, s', log, hdecided, hrun⟩ := run_expandCall h call result span s
  rw [hrun]
  cases hdecided with
  | settled | unknown => exact .of_eq rfl
  | dispatched hd => exact ⟨hd.bound.grows.keeps, hd.bound.grows.numbered⟩

/-- A call site binds at most one receiver, its own, to a name that is not in use. -/
theorem expandCall_binds (h : Hierarchy) (call : Call) (result : Ty) (span : Span) {s : State}
    (hs : Numbered s.receivers) {vs : List Variable}
    (hvs : ((expandCall h call result span).run s).2.receivers = vs) :
    vs = s.receivers ∨ ∃ e name, call.receiver = some e ∧ name ∉ s.receivers.map (·.name) ∧
      vs = s.receivers ++ [⟨name, e.ty⟩] := by
  obtain ⟨r, s', log, hdecided, hrun⟩ := run_expandCall h call result span s
  rw [hrun] at hvs
  subst hvs
  cases hdecided with
  | settled | unknown => exact .inl rfl
  | dispatched hd =>
    obtain ⟨-, hreceiver, -, -, hbound⟩ := hd
    cases hbound with
    | reused => exact .inl rfl
    | named => exact .inr ⟨_, _, hreceiver, hs.fresh, rfl⟩

end

end Unwind.Dispatch
