import Unwind.Proofs.Operands.Statements

/-!
# Operands of expanded bodies

The statements of a body are lowered in lockstep with what they are expanded to
(`expandStmt_transfers`), and the receivers that are declared in front of the body do nothing to the
operands. So is the whole body with what it is transformed to (`transform_transfers`).
-/

namespace Unwind.Operands

open Dispatch
open Lowering
open Source

/-! ## Statements -/

section

variable {env : Env} {h : Hierarchy}

/-- Every node in these statements is fit. -/
def AllFit (h : Hierarchy) (ts : List Stmt) : Prop := ∀ t ∈ ts, ∀ n ∈ t.kind.nodes, Fit h n

theorem voids_of_fit {ns : List Expr} (hf : ∀ n ∈ ns, Fit h n) : ∀ n ∈ ns, n.CallIfVoid :=
  fun n hn => (hf n hn).checked.callIfVoid

theorem expandExprStmt_transfers {id : UInt32} {span : Span} {e : Expr}
    (hf : ∀ n ∈ e.nodes, Fit h n) :
    Gives (expandExprStmt h id span e) (Transfers env ⟨id, span, .expression e⟩) := by
  unfold expandExprStmt
  split
  · next call hcall =>
    obtain ⟨eid, espan, ty, kind⟩ := e
    obtain ⟨hkind, hvoid⟩ := voidCall?_eq_some.mp hcall
    cases hkind
    cases ty with
    | void =>
      obtain ⟨hown, hin⟩ := List.forall_mem_cons.mp hf
      refine (expandOperands_stands call hin).bind fun call' hs => ?_
      refine (expandCall_gives rfl hown hs span).bind fun r hr => ?_
      obtain rfl | ⟨receiver, os, hd, rfl⟩ := hr
      · exact .pure (.expression ⟨rfl, hs.serves rfl rfl, rfl, rfl, rfl⟩ (voids_of_fit hf))
      · exact Gives.count.bind fun _ _ => .pure (hd.transfers rfl (voids_of_fit hf) id span span)
    | _ => cases hvoid
  · exact (expandExpr_stands e hf).bind fun _ he => .pure (.expression he (voids_of_fit hf))

mutual

/-- A statement is lowered in lockstep with what it is expanded to. -/
theorem expandStmt_transfers (s : Stmt) (hs : AllFit h s.statements) :
    Gives (expandStmt h s) (Transfers env s) := by
  have hown := hs s s.mem_statements
  have hin : AllFit h s.statements.tail := fun t ht => hs t (List.mem_of_mem_tail ht)
  obtain ⟨id, span, kind⟩ := s
  unfold expandStmt
  cases kind with
  | empty =>
    refine .pure (.refl ?_ (List.forall_mem_singleton.mpr nofun))
    rw [lowerStmt]
    exact .marked (.pure trivial)
  | breakLoop | continueLoop =>
    exact .pure (.refl (.unhandled (by rw [lowerStmt])) (List.forall_mem_singleton.mpr nofun))
  | goto label =>
    refine .pure (.refl ?_ (List.forall_mem_singleton.mpr nofun))
    rw [lowerStmt]
    exact .marked (follows_lowerGoto label span)
  | rethrow =>
    refine .pure (.refl ?_ (List.forall_mem_singleton.mpr nofun))
    rw [lowerStmt]
    exact .marked (follows_lowerRethrow span)
  | block stmts =>
    exact (expandStmts_transfers stmts hin).bind fun _ hs => .pure (.block hs)
  | assert e =>
    have he := (List.forall_mem_append.mp hown).1
    exact (expandExpr_stands e he).bind fun _ h => .pure (.assert h (voids_of_fit he))
  | assume e =>
    have he := (List.forall_mem_append.mp hown).1
    exact (expandExpr_stands e he).bind fun _ h => .pure (.assume h (voids_of_fit he))
  | throw e =>
    have he := (List.forall_mem_append.mp hown).1
    exact (expandExpr_stands e he).bind fun _ h => .pure (.throw h (voids_of_fit he))
  | push e =>
    have he := (List.forall_mem_append.mp hown).1
    exact (expandExpr_stands e he).bind fun _ h => .pure (.push h (voids_of_fit he))
  | expression e => exact expandExprStmt_transfers (List.forall_mem_append.mp hown).1
  | conditional cond thenBranch elseBranch =>
    have hcond := (List.forall_mem_append.mp hown).1
    obtain ⟨hthen, helse⟩ := List.forall_mem_append.mp hin
    exact (expandExpr_stands cond hcond).bind fun _ hc =>
      (expandStmt_transfers thenBranch hthen).bind fun _ ht =>
        (expandStmt_transfers elseBranch helse).bind fun _ he =>
          .pure (.conditional hc (voids_of_fit hcond) ht he)
  | switch scrutinee cases =>
    obtain ⟨hscrutinee, hvalues⟩ := List.forall_mem_append.mp hown
    exact (expandExpr_stands scrutinee hscrutinee).bind fun _ hs =>
      (expandCases_transfers cases hvalues hin).bind fun _ hcs =>
        .pure (.switch hs (voids_of_fit hscrutinee) hcs)
  | localDecl decl init =>
    have hinit : ∀ n ∈ nodesInOption init, Fit h n := by rwa [nodesInOption_eq]
    exact (expandOption_stands init hinit).bind fun _ hi =>
      .pure (.localDecl hi (voids_of_fit hinit) decl)
  | ret value =>
    have hvalue : ∀ n ∈ nodesInOption value, Fit h n := by rwa [nodesInOption_eq]
    exact (expandOption_stands value hvalue).bind fun _ hv => .pure (.ret hv (voids_of_fit hvalue))
  | labeled label body =>
    exact (expandStmt_transfers body hin).bind fun _ hb => .pure (.labeled hb label)
  | tryCatch body catches finalizer =>
    obtain ⟨hb, hcf⟩ := List.forall_mem_append.mp hin
    obtain ⟨hc, hf⟩ := List.forall_mem_append.mp hcf
    exact (expandStmt_transfers body hb).bind fun _ hb =>
      (expandCatches_transfers catches hc).bind fun _ hc =>
        (expandStmtOption_transfers finalizer hf).bind fun _ hf => .pure (.tryCatch hb hc hf)
  | whileLoop cond body =>
    exact (expandExpr_stands cond (List.forall_mem_append.mp hown).1).bind fun _ hc =>
      (expandStmt_transfers body hin).bind fun _ hb => .pure (.whileLoop hc hb)
  | doUntil body cond =>
    exact (expandExpr_stands cond (List.forall_mem_append.mp hown).1).bind fun _ hc =>
      (expandStmt_transfers body hin).bind fun _ hb => .pure (.doUntil hc hb)
  | forEach item collection body =>
    exact (expandExpr_stands collection (List.forall_mem_append.mp hown).1).bind fun _ hc =>
      (expandStmt_transfers body hin).bind fun _ hb => .pure (.forEach hc hb item)
  | forLoop init cond step body =>
    obtain ⟨hi, hsb⟩ := List.forall_mem_append.mp hin
    obtain ⟨hs, hb⟩ := List.forall_mem_append.mp hsb
    exact (expandStmts_transfers init hi).bind fun _ hi =>
      (expandStmts_transfers step hs).bind fun _ hs =>
        (expandOption_stands cond (by rwa [nodesInOption_eq])).bind fun _ hc =>
          (expandStmt_transfers body hb).bind fun _ hb => .pure (.forLoop hi hc hs hb)

theorem expandStmts_transfers (ss : List Stmt) (hs : AllFit h (statementsIn ss)) :
    Gives (expandStmts h ss) (TransfersAll env ss) := by
  cases ss with
  | nil =>
    unfold expandStmts
    exact .pure .nil
  | cons s ss =>
    obtain ⟨hs, hss⟩ := List.forall_mem_append.mp hs
    unfold expandStmts
    exact (expandStmt_transfers s hs).bind fun _ hs =>
      (expandStmts_transfers ss hss).bind fun _ hss => .pure (.cons hs hss)

theorem expandCases_transfers (cases : List SwitchCase) (hvalues : ∀ n ∈ caseNodes cases, Fit h n)
    (hs : AllFit h (statementsInCases cases)) :
    Gives (expandCases h cases) (TransfersCases env cases) := by
  cases cases with
  | nil =>
    unfold expandCases
    exact .pure .nil
  | cons case cases =>
    obtain ⟨span, value, body⟩ := case
    obtain ⟨hb, hc⟩ := List.forall_mem_append.mp hs
    rw [caseNodes_cons] at hvalues
    obtain ⟨hv, hvs⟩ := List.forall_mem_append.mp hvalues
    unfold expandCases
    exact (expandOption_stands value hv).bind fun _ he =>
      (expandStmts_transfers body hb).bind fun _ hb =>
        (expandCases_transfers cases hvs hc).bind fun _ hc =>
          .pure (.cons he (voids_of_fit hv) hb hc span)

theorem expandCatches_transfers (clauses : List CatchClause)
    (hs : AllFit h (statementsInCatches clauses)) :
    Gives (expandCatches h clauses) (TransfersCatches env clauses) := by
  cases clauses with
  | nil =>
    unfold expandCatches
    exact .pure .nil
  | cons clause clauses =>
    obtain ⟨span, type, binding, body⟩ := clause
    obtain ⟨hb, hc⟩ := List.forall_mem_append.mp hs
    unfold expandCatches
    exact (expandStmt_transfers body hb).bind fun _ hb =>
      (expandCatches_transfers clauses hc).bind fun _ hc => .pure (.cons hb hc span type binding)

theorem expandStmtOption_transfers (s : Option Stmt) (hs : AllFit h (statementsInOption s)) :
    Gives (expandStmtOption h s) (TransfersOption env s) := by
  cases s with
  | none =>
    unfold expandStmtOption
    exact .pure .none
  | some s =>
    unfold expandStmtOption
    exact (expandStmt_transfers s hs).bind fun _ hs => .pure (.some hs)

end

/-! ## Receivers in front -/

/-- A block carries no marks of its own, so that it is lowered as its statements are. -/
theorem lowerStmts_flatten (s : Stmt) : lowerStmts env (flatten s) = lowerStmt env s := by
  have hone : lowerStmts env [s] = lowerStmt env s := by
    have hlast : (fun _ : Unit => lowerStmts env []) = pure := by
      rw [lowerStmts]
    rw [lowerStmts, hlast]
    exact bind_pure (lowerStmt env s)
  obtain ⟨id, span, kind⟩ := s
  cases kind with
  | block ss =>
    rw [lowerStmt]
    exact (pure_bind () fun _ => lowerStmts env ss).symm
  | _ => exact hone

theorem eventsIn_flatten (exceptions : Bool) (s : Stmt) :
    eventsIn exceptions (flatten s) = s.events exceptions := by
  have hone : eventsIn exceptions [s] = s.events exceptions := List.append_nil _
  obtain ⟨id, span, kind⟩ := s
  cases kind with
  | block ss => rfl
  | _ => exact hone

theorem visitAll_flatten (enclosing : Option UInt32) (s : Stmt) (sc : LabelScopes) :
    LabelScopes.visitAll enclosing (flatten s) sc = LabelScopes.visit enclosing s sc := by
  have hone : LabelScopes.visitAll enclosing [s] sc = LabelScopes.visit enclosing s sc :=
    bind_pure (LabelScopes.visit enclosing s sc)
  obtain ⟨id, span, kind⟩ := s
  cases kind with
  | block ss => rfl
  | _ => exact hone

theorem Transfers.flatten {s s' : Stmt} (h : Transfers env s s') :
    TransfersAll env (flatten s) (flatten s') where
  lowered := by
    rw [lowerStmts_flatten, lowerStmts_flatten]
    exact h.lowered
  events := by
    rw [eventsIn_flatten, eventsIn_flatten]
    exact h.events
  visited enclosing sc := by
    rw [visitAll_flatten, visitAll_flatten]
    exact h.visited enclosing sc
  voids t ht := h.voids t (mem_statementsIn_flatten ht)

/-- A block in the place of a statement. -/
theorem TransfersAll.block {s : Stmt} {ss' : List Stmt}
    (h : TransfersAll env (Dispatch.flatten s) ss') (id : UInt32) (span : Span) :
    Transfers env s ⟨id, span, .block ss'⟩ where
  lowered := by
    rw [← lowerStmts_flatten s, ← lowerStmts_flatten ⟨id, span, .block ss'⟩]
    exact h.lowered
  events := h.events.trans (eventsIn_flatten _ s)
  visited enclosing sc := (h.visited enclosing sc).trans (visitAll_flatten enclosing s sc)
  voids := List.forall_mem_cons.mpr ⟨nofun, h.voids⟩

theorem declare_idle {v : Variable} (hv : v.ty.isVoid = false) :
    Idle (lowerStmt env (declare v)) := by
  have hvoids : ∀ n ∈ (Expr.ofKind (.defaultValue v.ty) v.ty).nodes, n.CallIfVoid :=
    List.forall_mem_singleton.mpr (callIfVoid_of_ty hv)
  have hdefault : Idle (value env (.ofKind (.defaultValue v.ty) v.ty)) :=
    (lowerExpr_draws _ false hvoids).valueOf.congr (iff_of_true ⟨hv, hv⟩ trivial) rfl
  unfold declare Stmt.ofKind
  rw [lowerStmt]
  refine Draws.emitMarks.next fun _ => (Draws.irTy hv _).next fun ty =>
    Draws.declareLocal.next fun _ => .ite ?_ (.pure trivial)
  exact hdefault.next fun _ => .emit

/-- The declarations are lowered in front, and do nothing to the operands. -/
theorem TransfersAll.declare {ss ss' : List Stmt} (h : TransfersAll env ss ss')
    {vs : List Variable} (hvs : HoldValues vs) :
    TransfersAll env ss (vs.map Dispatch.declare ++ ss') := by
  induction vs with
  | nil => exact h
  | cons v vs ih =>
    obtain ⟨hv, hvs⟩ := List.forall_mem_cons.mp hvs
    have hrest := ih hvs
    refine ⟨?_, hrest.events, hrest.visited, List.forall_mem_cons.mpr ⟨nofun, hrest.voids⟩⟩
    rw [List.map_cons, List.cons_append, lowerStmts.eq_2]
    exact .behind (declare_idle hv) fun _ => hrest.lowered

theorem Transfers.declareAll {s s' : Stmt} (h : Transfers env s s') {vs : List Variable}
    (hvs : HoldValues vs) : Transfers env s (declareAll vs s') := by
  unfold Dispatch.declareAll
  split
  · exact h
  · exact (h.flatten.declare hvs).block _ _

/-- A body is lowered in lockstep with what it is transformed to. -/
theorem transform_transfers {body body' : Stmt} (hf : ∀ n ∈ body.nodes, Fit h n)
    {σ σ' : Dispatch.State} (hσ : HoldValues σ.receivers)
    (hruns : Runs (transform h body) σ body' σ') : Transfers env body body' := by
  have hall : AllFit h body.statements := fun t ht n hn =>
    hf n (List.mem_flatMap.mpr ⟨t, ht, hn⟩)
  have hgives : Gives (expandStmt h body) (Transfers env body) := expandStmt_transfers body hall
  unfold Runs at hruns
  rw [run_transform] at hruns
  split at hruns
  · next inner s₁ hinner =>
    cases hruns
    exact (hgives.result hinner).declareAll (hgives.receivers hinner hσ)
  · cases hruns

end

end Unwind.Operands
