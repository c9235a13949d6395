import Mathlib.Logic.Relation
import Unwind.Proofs.Dispatch.Idempotence

/-!
# The variables bound to receivers

One expander works on many bodies and call sites, and some of its steps fail. Whatever came before,
the variables that are bound and not yet declared are called `$recv0`, `$recv1` and so on
(`Reached.numbered`), so that no two of them share a name. A body that is expanded successfully
begins with a declaration of each of them, and mentions no other (`receivers_declared`).
-/

namespace Unwind.Dispatch

open Source
open Relation (ReflTransGen)
open Lowering (Runs)

/-! ## Runs -/

/-- One step of an expander, which may fail. The parts of an expansion count as steps of their own,
so that the states in the middle of a body are reached as well. -/
inductive Step (h : Hierarchy) (s : State) : State → Prop
  | call (call : Call) (result : Ty) (span : Span) :
      Step h s ((expandCall h call result span).run s).2
  | count : Step h s (count.run s).2
  | expr (e : Expr) : Step h s ((expandExpr h e).run s).2
  | stmt (body : Stmt) : Step h s ((expandStmt h body).run s).2
  | body (body : Stmt) : Step h s ((transform h body).run s).2

/-- The states that a new expander can come to. -/
def Reached (h : Hierarchy) (s : State) : Prop := ReflTransGen (Step h) {} s

variable {h : Hierarchy} {s s' : State}

theorem Step.numbered (hstep : Step h s s') (hs : Numbered s.receivers) :
    Numbered s'.receivers := by
  cases hstep with
  | call call result span => exact (expandCall_grows h call result span s).numbered hs
  | count => exact hs
  | expr e => exact (expandExpr_grows h e s).numbered hs
  | stmt body => exact (expandStmt_grows h body s).numbered hs
  | body body =>
    -- numbers start again only behind a body that was expanded: then nothing is pending
    have hgrows := expandStmt_grows h body s
    rw [run_transform]
    split
    · exact .nil
    · next hrun =>
      rw [hrun] at hgrows
      exact hgrows.numbered hs

/-- The variables that are bound are numbered at every moment. -/
theorem Reached.numbered (hs : Reached h s) : Numbered s.receivers := by
  induction hs with
  | refl => exact .nil
  | tail _ hstep ih => exact hstep.numbered ih

/-! ## Bodies -/

/-- No variable of the source is called like one that is bound to a receiver. -/
structure NoReceiverNames (body : Stmt) : Prop where
  mentioned : ∀ e ∈ body.nodes, ∀ v, e.accessed? = some v → isReceiverName v.name = false
  declared : ∀ v ∈ body.declared, isReceiverName v.name = false

/-- The body declares the variables that are bound to receivers. Without any, it mentions none;
else it is a block that begins with their declarations in order, has no other declaration of such a
variable, and mentions them with the type they are declared with. -/
inductive DeclaresReceivers (body : Stmt) : List Variable → Prop
  | none : NoReceiverNames body → DeclaresReceivers body []
  | block {vs : List Variable} {rest : List Stmt} : vs ≠ [] →
      body.kind = .block (vs.map declare ++ rest) →
      (∀ t ∈ statementsIn rest, ∀ v ∈ t.kind.declared, isReceiverName v.name = false) →
      (∀ e ∈ body.nodes, ∀ v, e.accessed? = some v → isReceiverName v.name = true → v ∈ vs) →
      DeclaresReceivers body vs

theorem NoReceiverNames.given {body : Stmt} (hbody : NoReceiverNames body) :
    ∀ t ∈ body.statements,
      Given (fun e => ∀ v, e.accessed? = some v → isReceiverName v.name = false)
        (fun v => isReceiverName v.name = false) t.kind :=
  fun t ht => ⟨fun e he => hbody.mentioned e
      (List.mem_flatMap.mpr ⟨t, ht, mem_nodes_of_mem_operands he⟩),
    fun v hv => hbody.declared v (List.mem_flatMap.mpr ⟨t, ht, hv⟩)⟩

/-- A variable that is bound to a receiver stands in an expanded body only when it is pending. -/
theorem Origin.mem_bound {src : Expr → Prop} {bound : List Variable} {e : Expr}
    (ho : Origin h src bound e)
    (hsrc : ∀ e, src e → ∀ v, e.accessed? = some v → isReceiverName v.name = false) {v : Variable}
    (hv : e.accessed? = some v) (hname : isReceiverName v.name = true) : v ∈ bound := by
  cases ho with
  | kept hm heq _ =>
    -- it would be a variable of the source
    rw [hsrc _ hm v (heq ▸ hv)] at hname
    cases hname
  | settled hcall _ => exact absurd hv (by simp [Expr.accessed?_of_call? hcall])
  | void _ _ hnone => exact absurd hv (by simp [hnone])
  | made hmem _ => exact hmem v hv

/-- A body with declarations of the pending receivers in front declares them all. -/
theorem Transformed.declaresReceivers {body body' inner : Stmt} {pending : List Variable}
    (ht : Transformed h body s body' s' pending inner) (hbody : NoReceiverNames body) :
    DeclaresReceivers body' pending := by
  have hmentioned : ∀ e ∈ body'.nodes, ∀ v, e.accessed? = some v → isReceiverName v.name = true →
      v ∈ pending := fun e he v hv hname =>
    (ht.origin (fun t hmem => (hbody.given t hmem).operands) e he).mem_bound (fun _ hm => hm) hv
      hname
  have hdeclared : ∀ t ∈ inner.statements, ∀ v ∈ t.kind.declared, isReceiverName v.name = false :=
    fun t hmem => (ht.traced _ _ hbody.given t hmem).declared
  have hbody' := ht.body_eq
  unfold declareAll at hbody'
  cases pending with
  | nil =>
    refine .none ⟨fun e he v hv => ?_, fun v hv => ?_⟩
    · -- nothing is pending that such a name could stand for
      cases hname : isReceiverName v.name with
      | false => rfl
      | true => cases hmentioned e he v hv hname
    · rw [hbody'] at hv
      obtain ⟨t, hmem, hv⟩ := List.mem_flatMap.mp hv
      exact hdeclared t hmem v hv
  | cons v vs =>
    exact .block (List.cons_ne_nil v vs) (congrArg Stmt.kind hbody')
      (fun t hmem => hdeclared t (mem_statementsIn_flatten hmem)) hmentioned

/-- At every moment the variables bound to receivers are numbered and have different names. A call
site binds its own receiver to a name that is not in use, if it binds one. A body without such names
keeps what is bound when its expansion fails. When it succeeds nothing is left pending, and the body
declares all that were, those of earlier steps included. -/
theorem receivers_declared (h : Hierarchy) (s : State) (hs : Reached h s) :
    Numbered s.receivers ∧ (s.receivers.map (·.name)).Nodup ∧
    (∀ call result span s', ((expandCall h call result span).run s).2 = s' →
      s'.receivers = s.receivers ∨ ∃ e name, call.receiver = some e ∧
        name ∉ s.receivers.map (·.name) ∧ s'.receivers = s.receivers ++ [⟨name, e.ty⟩]) ∧
    ∀ body, NoReceiverNames body →
      (∀ fault s', (transform h body).run s = (.error fault, s') →
        s.receivers <+: s'.receivers) ∧
      ∀ body' s', (transform h body).run s = (.ok body', s') →
        s'.receivers = [] ∧ ∃ pending, s.receivers <+: pending ∧ Numbered pending ∧
          DeclaresReceivers body' pending := by
  have hnumbered := hs.numbered
  refine ⟨hnumbered, hnumbered.nodup, ?_, fun body hbody => ⟨?_, ?_⟩⟩
  · rintro call result span s' rfl
    exact expandCall_binds h call result span hnumbered rfl
  · intro fault s' hrun
    have hgrows := expandStmt_grows h body s
    rw [run_transform] at hrun
    split at hrun
    · cases hrun
    · next hstmt =>
      cases hrun
      rw [hstmt] at hgrows
      exact hgrows.keeps
  · intro body' s' hrun
    obtain ⟨pending, inner, ht⟩ := runs_transform hrun
    exact ⟨ht.receivers_eq, pending, ht.keeps, ht.numbered hnumbered, ht.declaresReceivers hbody⟩

/-- The classes of the example with one more, whose base class is not declared. -/
def haunted : Hierarchy := .ofProgram
  { types := Hierarchy.shapes.types ++
      [⟨⟨"Spirit", none⟩, .classType, [⟨"Ghost", none⟩], [], [], [], []⟩] }

theorem haunted_index : haunted.index =
    ⟨[⟨⟨"Shape", none⟩, [⟨"Round", none⟩]⟩, ⟨⟨"Round", none⟩, [⟨"Disk", none⟩]⟩,
      ⟨⟨"Ghost", none⟩, [⟨"Spirit", none⟩]⟩]⟩ := by
  cbv

/-- The receiver of a body that fails is declared by the next one that does not. -/
theorem haunted_declares :
    ∃ fault s body' s', (transform haunted (drawing "Ghost")).run {} = (.error fault, s) ∧
      s.receivers.map (·.name) = ["$recv0"] ∧
      (transform haunted (drawing "Disk")).run s = (.ok body', s') ∧ s'.receivers = [] ∧
      ∃ pending, s.receivers <+: pending ∧ Numbered pending ∧ DeclaresReceivers body' pending := by
  have hexempt : isExempt haunted drawCall = false :=
    isExempt_dispatched (by decide) (by decide) (by rw [haunted_index]; decide)
  have hos : haunted.resolve drawCall.method =
      .ok [⟨⟨"Round", none⟩, ⟨⟨"Round", none⟩, "draw", []⟩⟩,
        ⟨⟨"Disk", none⟩, ⟨⟨"Round", none⟩, "draw", []⟩⟩] := by cbv
  have hghost : isExempt haunted (selfCall "Ghost") = false :=
    isExempt_dispatched (by decide) (by decide) (by rw [haunted_index]; decide)
  have hdisk : isExempt haunted (selfCall "Disk") = true :=
    isExempt_of_leaf (by rw [haunted_index]; decide)
  have hbody : NoReceiverNames (drawing "Disk") := by
    constructor <;> decide
  have hfails : Leads (transform haunted (drawing "Ghost")) {} (.error _) (State.drawn {}) :=
    (drawing_fails hexempt hos hghost rfl {}).bind_error
  obtain ⟨log, hrun⟩ := hfails #[]
  have hreached : Reached haunted { State.drawn {} with log } := by
    have hstep : Reached haunted ((transform haunted (drawing "Ghost")).run {}).2 :=
      .single (.body _)
    rwa [hrun] at hstep
  obtain ⟨stmt, hdrawing⟩ := drawing_leads hexempt hos (.inl hdisk) (State.drawn {})
  obtain ⟨log', hrun'⟩ := hdrawing.transform log
  obtain ⟨-, -, -, hdeclares⟩ := receivers_declared haunted _ hreached
  obtain ⟨hnil, hpending⟩ := (hdeclares _ hbody).2 _ _ hrun'
  have hnames : (State.drawn {}).receivers.map (·.name) = ["$recv0"] := by decide
  exact ⟨_, _, _, _, hrun, hnames, hrun', hnil, hpending⟩

end Unwind.Dispatch
