import Unwind.Proofs.Lowering.Expressions

/-!
# The code of a body, statement by statement

`Listing` says which lines a statement becomes. The statement stands at a path, between the frames
of the `try` statements around it. The counters say what was given out before: regions, jumps out
of each region, and a bound below the numbers of the variables that finally blocks use.

The code of expressions is known only as far as `Plain` says; everything that has to do with
leaving a region is spelled out.
-/

namespace Unwind.Lowering

open Source (CatchClause Expr Hop Path Stmt StmtKind SwitchCase)
open Machine (Instr flatten)

/-- Code without statements that a step emits between the frames `ρ`, and the result of the
step. -/
def Plain {α : Type} (L : Layout) (π : Path) (ρ : List Frame) (act : Lower α) (a : α)
    (ls : List Line) : Prop :=
  Leaf L π ρ ls ∧ ∃ s s', View L.scopes ρ s ∧ Runs act s a s' ∧ Emits s (instrs ls) s'

/-- A step emits one code only. -/
theorem emits_unique {s s' : State} {is js : List Instr} (h : Emits s is s') (h' : Emits s js s') :
    is = js := by
  obtain ⟨cs, hc, rfl⟩ := h.cmds
  obtain ⟨cs', hc', rfl⟩ := h'.cmds
  rw [hc, List.append_cancel_left_eq] at hc'
  rw [hc']

/-- The code of marks does nothing. -/
theorem plain_quiet {α : Type} {L : Layout} {π : Path} {ρ : List Frame} {act : Lower α} {a : α}
    {ls : List Line} (hp : Plain L π ρ act a ls)
    (hact : ∀ {s s' : State}, Runs act s a s' → Marks s s') : ∀ i ∈ instrs ls, Quiet i := by
  obtain ⟨-, s, s', -, hrun, he⟩ := hp
  obtain ⟨is, hq, he'⟩ := hact hrun
  rw [emits_unique he he']
  exact hq

/-- Statements that hold no other statement, and go on with the next one or return. -/
def isPlain : StmtKind → Bool
  | .empty | .assert _ | .assume _ | .expression _ | .localDecl .. | .ret _ | .push _ => true
  | _ => false

/-! ## Leaving a part of a region -/

/-- The region whose catch clauses hold the code, the innermost one. -/
def catchOf (ρ : List Frame) : Option Nat :=
  (ρ.find? (·.phase == .inCatch)).map Frame.region

/-- A value becomes the pending exception and is sent to the handler. -/
def raiseLines (env : Env) (π : Path) (ρ : List Frame) (v : Ir.Expr) : List Line :=
  own π ρ [.set Ir.exceptionVar v] ++ raise π ρ (propagation env ρ)

/-- A part of a region is complete. -/
def leaveLines (π : Path) (ρ : List Frame) (region : Nat) : List Line :=
  own π ρ [.set labelVar (.int normal), .goto (Tag.finalizer region).name]

/-- How a jump to a label splits the frames around it: the regions that it leaves, and those that
hold the label too. -/
structure Splits (scopes : LabelScopes) (label : String) (ρ left kept : List Frame) : Prop where
  eq : ρ = left ++ kept
  leaving : ∀ f ∈ left, f.phase ≠ .inFinally
  kept : (scopes.innermostTry? label = some none ∧ kept = []) ∨
    ∃ f rest, kept = f :: rest ∧ scopes.innermostTry? label = some (some f.node) ∧
      ∀ g ∈ rest, g.node ≠ f.node

/-- The counters behind a jump out of some regions. -/
def Counters.escapeAll : List Frame → Counters → Counters
  | [], c => c
  | f :: left, c => escapeAll left (c.escape f.region)

/-- A jump leaves regions, innermost first, and goes on behind each finally block at a label of its
own. -/
def escapeLines (π : Path) (kept : List Frame) : List Frame → Counters → List Line
  | [], _ => []
  | f :: left, c =>
    own π (f :: (left ++ kept))
        [.set labelVar (.int (Int64.ofNat (c.escapes f.region))),
          .goto (Tag.finalizer f.region).name] ++
      (own π (left ++ kept) [.label (Tag.resume f.region (c.escapes f.region)).name] ++
        escapeLines π kept left (c.escape f.region))

/-! ## Regions -/

/-- The head of the catch part, which takes the exception over. -/
def takeLines (π : Path) (f : Frame) (ρ : List Frame) : List Line :=
  raise π ρ [.label (Tag.catches f.region).name, .set (Slot.caught f.region).name .exception] ++
    own π (f :: ρ) [.set Ir.exceptionVar .null]

/-- The finally block, with `$Exception` and `$label` put aside meanwhile. -/
def finallyLines (π : Path) (ρ : List Frame) (n : Nat) (body : List Line) : List Line :=
  own π ρ [.set (Slot.savedExc n).name .exception,
      .set (Slot.savedLabel (n + 1)).name (.ident labelVar), .set Ir.exceptionVar .null] ++
    (body ++
      own π ρ [.set Ir.exceptionVar (.ident (Slot.savedExc n).name),
        .set labelVar (.ident (Slot.savedLabel (n + 1)).name)])

/-- The end of a region: resume the jump under way, or go on behind the region. -/
def resumeLines (π : Path) (ρ : List Frame) (region jumps : Nat) : List Line :=
  own π ρ (flatten (resumeTests (Tag.behind region).name ((List.range jumps).map (edge region))))

/-- The code of a region from its three parts. -/
def regionLines (env : Env) (π : Path) (ρ : List Frame) (region : Nat) (node : UInt32)
    (body arms final : List Line) (jumps : Nat) : List Line :=
  let inCatch : Frame := ⟨region, node, .inCatch, π⟩
  body ++ (leaveLines π (⟨region, node, .inTry, π⟩ :: ρ) region ++
    (takeLines π inCatch ρ ++ (arms ++
      (raiseLines env π (inCatch :: ρ) (.ident (Slot.caught region).name) ++
        (own π ρ [.label (Tag.finalizer region).name] ++ (final ++
          (resumeLines π ρ region jumps ++
            (own π ρ [.label (Tag.behind region).name] ++ checkLines env π ρ))))))))

/-! ## The code of statements -/

/-- The parts of a body that are laid out. -/
inductive Piece where
  | stmt (s : Stmt)
  /-- The statements of a block or of a case, from one of them on. -/
  | stmts (hop : Nat → Hop) (index : Nat) (ss : List Stmt)
  /-- The default case among the cases from one of them on. -/
  | default (index : Nat) (cases : List SwitchCase)
  /-- The tests of a switch from one case on; the code of the case values stands in front of all
  tests, the code of the default case behind the last one. -/
  | cases (scrutinee : Ir.Expr) (default values : List Line) (index : Nat)
      (cases : List SwitchCase)
  /-- The tests of catch clauses from one clause on, around those of the clauses before. -/
  | catches (region : Nat) (before : List Line) (index : Nat) (clauses : List CatchClause)
  | finalizer (s : Option Stmt)

/-- The piece stands at `π` between the frames `ρ` and becomes these lines; the counters lead from
before it to behind it. -/
inductive Listing (L : Layout) :
    Piece → Path → List Frame → Counters → List Line → Counters → Prop where
  | plain {id : UInt32} {span : Span} {kind : StmtKind} {π : Path} {ρ : List Frame}
      {c : Counters} {ls : List Line} :
      isPlain kind = true → Plain L π ρ (lowerStmt L.env ⟨id, span, kind⟩) () ls →
      Listing L (.stmt ⟨id, span, kind⟩) π ρ c ls c
  | block {id : UInt32} {span : Span} {ss : List Stmt} {π : Path} {ρ : List Frame}
      {c c' : Counters} {ls : List Line} :
      Listing L (.stmts .item 0 ss) π ρ c ls c' →
      Listing L (.stmt ⟨id, span, .block ss⟩) π ρ c ls c'
  | conditional {id : UInt32} {span : Span} {cond : Expr} {s t : Stmt} {π : Path}
      {ρ : List Frame} {c c₁ c₂ : Counters} {v : Ir.Expr} {hs as bs ms ns : List Line} :
      Plain L π ρ (do emitMarks L.env span (.conditional cond s t); condition L.env cond) v hs →
      Plain L π ρ (breadcrumb L.env) () ms →
      Listing L (.stmt s) (π ++ [.thenBranch]) ρ c as c₁ →
      Plain L π ρ (breadcrumb L.env) () ns →
      Listing L (.stmt t) (π ++ [.elseBranch]) ρ c₁ bs c₂ →
      Listing L (.stmt ⟨id, span, .conditional cond s t⟩) π ρ c
        (hs ++ choice π ρ v (ms ++ as) (ns ++ bs)) c₂
  | switch {id : UInt32} {span : Span} {scrutinee : Expr} {cases : List SwitchCase} {π : Path}
      {ρ : List Frame} {c c₁ c₂ : Counters} {v : Ir.Expr} {hs ds vs ls : List Line} :
      Plain L π ρ (do emitMarks L.env span (.switch scrutinee cases); value L.env scrutinee) v hs →
      Listing L (.default 0 cases) π ρ c ds c₁ →
      Listing L (.cases v ds vs 0 cases) π ρ c₁ ls c₂ →
      Listing L (.stmt ⟨id, span, .switch scrutinee cases⟩) π ρ c (hs ++ (vs ++ ls)) c₂
  | goto {id : UInt32} {span : Span} {label : String} {π : Path} {ρ left kept : List Frame}
      {c : Counters} {ms : List Line} :
      Plain L π ρ (emitMarks L.env span (.goto label)) () ms →
      Splits L.scopes label ρ left kept →
      Listing L (.stmt ⟨id, span, .goto label⟩) π ρ c
        (ms ++ (escapeLines π kept left c ++ own π kept [.goto label])) (c.escapeAll left)
  | labeled {id : UInt32} {span : Span} {label : String} {s : Stmt} {π : Path} {ρ : List Frame}
      {c c' : Counters} {ms ls : List Line} :
      Plain L π ρ (emitMarks L.env span (.labeled label s)) () ms →
      Listing L (.stmt s) (π ++ [.labelBody]) ρ c ls c' →
      Listing L (.stmt ⟨id, span, .labeled label s⟩) π ρ c
        (ms ++ (own π ρ [.label label] ++ ls)) c'
  | tryCatch {id : UInt32} {span : Span} {body : Stmt} {catches : List CatchClause}
      {finalizer : Option Stmt} {π : Path} {ρ : List Frame} {c c₁ c₂ c₃ : Counters}
      {ms bs as fs : List Line} :
      Plain L π ρ (emitMarks L.env span (.tryCatch body catches finalizer)) () ms →
      c.escapes c.regions = 0 →
      Listing L (.stmt body) (π ++ [.tryBody]) (⟨c.regions, id, .inTry, π⟩ :: ρ)
        { c with regions := c.regions + 1 } bs c₁ →
      Listing L (.catches c.regions [] 0 catches) π (⟨c.regions, id, .inCatch, π⟩ :: ρ) c₁ as c₂ →
      Listing L (.finalizer finalizer) π (⟨c.regions, id, .inFinally, π⟩ :: ρ) c₂ fs c₃ →
      Listing L (.stmt ⟨id, span, .tryCatch body catches finalizer⟩) π ρ c
        (ms ++ regionLines L.env π ρ c.regions id bs as fs (c₃.escapes c.regions)) c₃
  | throw {id : UInt32} {span : Span} {e : Expr} {π : Path} {ρ : List Frame} {c : Counters}
      {v : Ir.Expr} {hs : List Line} :
      Plain L π ρ (do
        emitMarks L.env span (.throw e)
        let v ← value L.env e
        record L.env "<thrown exception>" .ref v
        return v) v hs →
      Listing L (.stmt ⟨id, span, .throw e⟩) π ρ c (hs ++ raiseLines L.env π ρ v) c
  | rethrow {id : UInt32} {span : Span} {π : Path} {ρ : List Frame} {c : Counters}
      {region : Nat} {hs : List Line} :
      catchOf ρ = some region →
      Plain L π ρ (do
        emitMarks L.env span .rethrow
        let caught ← exceptionLocal region
        record L.env "<rethrown exception>" .ref (.ident caught)) () hs →
      Listing L (.stmt ⟨id, span, .rethrow⟩) π ρ c
        (hs ++ raiseLines L.env π ρ (.ident (Slot.caught region).name)) c
  | stmtsNil {hop : Nat → Hop} {i : Nat} {π : Path} {ρ : List Frame} {c : Counters} :
      Listing L (.stmts hop i []) π ρ c [] c
  | stmtsCons {hop : Nat → Hop} {i : Nat} {s : Stmt} {ss : List Stmt} {π : Path}
      {ρ : List Frame} {c c₁ c₂ : Counters} {as bs : List Line} :
      Listing L (.stmt s) (π ++ [hop i]) ρ c as c₁ →
      Listing L (.stmts hop (i + 1) ss) π ρ c₁ bs c₂ →
      Listing L (.stmts hop i (s :: ss)) π ρ c (as ++ bs) c₂
  | defaultNil {i : Nat} {π : Path} {ρ : List Frame} {c : Counters} :
      Listing L (.default i []) π ρ c [] c
  | defaultLater {i : Nat} {case : SwitchCase} {cases : List SwitchCase} {π : Path}
      {ρ : List Frame} {c c' : Counters} {ls : List Line} :
      (case.value.isSome || cases.any (·.value.isNone)) = true →
      Listing L (.default (i + 1) cases) π ρ c ls c' →
      Listing L (.default i (case :: cases)) π ρ c ls c'
  | defaultHere {i : Nat} {span : Span} {body : List Stmt} {cases : List SwitchCase} {π : Path}
      {ρ : List Frame} {c c' : Counters} {ls : List Line} :
      cases.any (·.value.isNone) = false →
      Listing L (.stmts (.caseItem i) 0 body) π ρ c ls c' →
      Listing L (.default i (⟨span, none, body⟩ :: cases)) π ρ c ls c'
  | casesNil {v : Ir.Expr} {ds : List Line} {i : Nat} {π : Path} {ρ : List Frame}
      {c : Counters} :
      Listing L (.cases v ds [] i []) π ρ c ds c
  | casesDefault {v : Ir.Expr} {ds vs : List Line} {i : Nat} {span : Span} {body : List Stmt}
      {cases : List SwitchCase} {π : Path} {ρ : List Frame} {c c' : Counters} {ls : List Line} :
      Listing L (.cases v ds vs (i + 1) cases) π ρ c ls c' →
      Listing L (.cases v ds vs i (⟨span, none, body⟩ :: cases)) π ρ c ls c'
  | casesCons {v w : Ir.Expr} {ds vs ws : List Line} {i : Nat} {span : Span} {e : Expr}
      {body : List Stmt} {cases : List SwitchCase} {π : Path} {ρ : List Frame}
      {c c₁ c₂ : Counters} {ls bs : List Line} :
      Listing L (.cases v ds vs (i + 1) cases) π ρ c ls c₁ →
      Plain L π ρ (value L.env e) w ws →
      Listing L (.stmts (.caseItem i) 0 body) π ρ c₁ bs c₂ →
      Listing L (.cases v ds (vs ++ ws) i (⟨span, some e, body⟩ :: cases)) π ρ c
        (choice π ρ (.eq v w) bs ls) c₂
  | catchesNil {region i : Nat} {before : List Line} {π : Path} {ρ : List Frame}
      {c : Counters} :
      Listing L (.catches region before i []) π ρ c before c
  | catchesCons {region i : Nat} {before : List Line} {clause : CatchClause}
      {clauses : List CatchClause} {π : Path} {ρ : List Frame} {c c₁ c₂ : Counters}
      {ms bs ls : List Line} :
      Plain L π ρ
        (bindCaught L.env (Slot.caught region).name clause.span clause.binding) () ms →
      Listing L (.stmt clause.body) (π ++ [.catchBody i]) ρ c bs c₁ →
      Listing L (.catches region
          (choice π ρ (catchTest (Slot.caught region).name clause.exceptionType)
            (ms ++ (bs ++ leaveLines π ρ region)) before) (i + 1) clauses) π ρ c₁ ls c₂ →
      Listing L (.catches region before i (clause :: clauses)) π ρ c ls c₂
  | finalizerNone {π : Path} {ρ : List Frame} {c : Counters} :
      Listing L (.finalizer none) π ρ c [] c
  | finalizerSome {s : Stmt} {π : Path} {ρ : List Frame} {c c' : Counters} {n : Nat}
      {ls : List Line} :
      c.temps ≤ n →
      Listing L (.stmt s) (π ++ [.finalizer]) ρ { c with temps := n + 2 } ls c' →
      Listing L (.finalizer (some s)) π ρ c (finallyLines π ρ n ls) c'

/-- What the code `ls` of a piece is made of, given the form of the piece. -/
def Piece.MadeOf (L : Layout) (π : Path) (ρ : List Frame) (c : Counters) (ls : List Line)
    (c' : Counters) : Piece → Prop
  | .stmt ⟨id, span, kind⟩ =>
    (isPlain kind = true ∧ Plain L π ρ (lowerStmt L.env ⟨id, span, kind⟩) () ls ∧ c' = c) ∨
    match kind with
    | .block ss => Listing L (.stmts .item 0 ss) π ρ c ls c'
    | .conditional cond s t => ∃ v hs as bs ms ns c₁,
        Plain L π ρ (do emitMarks L.env span (.conditional cond s t); condition L.env cond) v hs ∧
        Plain L π ρ (breadcrumb L.env) () ms ∧
        Listing L (.stmt s) (π ++ [.thenBranch]) ρ c as c₁ ∧
        Plain L π ρ (breadcrumb L.env) () ns ∧
        Listing L (.stmt t) (π ++ [.elseBranch]) ρ c₁ bs c' ∧
        ls = hs ++ choice π ρ v (ms ++ as) (ns ++ bs)
    | .switch scrutinee cs => ∃ v hs ds vs ks c₁,
        Plain L π ρ (do emitMarks L.env span (.switch scrutinee cs); value L.env scrutinee) v
          hs ∧
        Listing L (.default 0 cs) π ρ c ds c₁ ∧ Listing L (.cases v ds vs 0 cs) π ρ c₁ ks c' ∧
        ls = hs ++ (vs ++ ks)
    | .goto label => ∃ left kept ms,
        Plain L π ρ (emitMarks L.env span (.goto label)) () ms ∧
        Splits L.scopes label ρ left kept ∧
        ls = ms ++ (escapeLines π kept left c ++ own π kept [.goto label]) ∧ c' = c.escapeAll left
    | .labeled label s => ∃ ms ks,
        Plain L π ρ (emitMarks L.env span (.labeled label s)) () ms ∧
        Listing L (.stmt s) (π ++ [.labelBody]) ρ c ks c' ∧
        ls = ms ++ (own π ρ [.label label] ++ ks)
    | .tryCatch body clauses final => ∃ c₁ c₂ ms bs as fs,
        Plain L π ρ (emitMarks L.env span (.tryCatch body clauses final)) () ms ∧
        c.escapes c.regions = 0 ∧
        Listing L (.stmt body) (π ++ [.tryBody]) (⟨c.regions, id, .inTry, π⟩ :: ρ)
          { c with regions := c.regions + 1 } bs c₁ ∧
        Listing L (.catches c.regions [] 0 clauses) π (⟨c.regions, id, .inCatch, π⟩ :: ρ) c₁ as
          c₂ ∧
        Listing L (.finalizer final) π (⟨c.regions, id, .inFinally, π⟩ :: ρ) c₂ fs c' ∧
        ls = ms ++ regionLines L.env π ρ c.regions id bs as fs (c'.escapes c.regions)
    | .throw e => ∃ v hs,
        Plain L π ρ (do
          emitMarks L.env span (.throw e)
          let v ← value L.env e
          record L.env "<thrown exception>" .ref v
          return v) v hs ∧
        ls = hs ++ raiseLines L.env π ρ v ∧ c' = c
    | .rethrow => ∃ region hs,
        catchOf ρ = some region ∧
        Plain L π ρ (do
          emitMarks L.env span .rethrow
          let caught ← exceptionLocal region
          record L.env "<rethrown exception>" .ref (.ident caught)) () hs ∧
        ls = hs ++ raiseLines L.env π ρ (.ident (Slot.caught region).name) ∧ c' = c
    | _ => False
  | .stmts _ _ [] | .default _ [] | .finalizer none => ls = [] ∧ c' = c
  | .stmts hop i (s :: ss) => ∃ c₁ as bs,
      Listing L (.stmt s) (π ++ [hop i]) ρ c as c₁ ∧
      Listing L (.stmts hop (i + 1) ss) π ρ c₁ bs c' ∧
      ls = as ++ bs
  | .default i (case :: cs) =>
    ((case.value.isSome || cs.any (·.value.isNone)) = true ∧
      Listing L (.default (i + 1) cs) π ρ c ls c') ∨
    (case.value = none ∧ cs.any (·.value.isNone) = false ∧
      Listing L (.stmts (.caseItem i) 0 case.body) π ρ c ls c')
  | .cases _ ds vs _ [] => vs = [] ∧ ls = ds ∧ c' = c
  | .cases v ds vs i (⟨_, none, _⟩ :: cs) => Listing L (.cases v ds vs (i + 1) cs) π ρ c ls c'
  | .cases v ds vs i (⟨_, some e, body⟩ :: cs) => ∃ w us ws ks bs c₁,
      Listing L (.cases v ds us (i + 1) cs) π ρ c ks c₁ ∧ Plain L π ρ (value L.env e) w ws ∧
      Listing L (.stmts (.caseItem i) 0 body) π ρ c₁ bs c' ∧
      vs = us ++ ws ∧ ls = choice π ρ (.eq v w) bs ks
  | .catches _ before _ [] => ls = before ∧ c' = c
  | .catches region before i (clause :: clauses) => ∃ ms bs c₁,
      Plain L π ρ (bindCaught L.env (Slot.caught region).name clause.span clause.binding) () ms ∧
      Listing L (.stmt clause.body) (π ++ [.catchBody i]) ρ c bs c₁ ∧
      Listing L (.catches region
        (choice π ρ (catchTest (Slot.caught region).name clause.exceptionType)
          (ms ++ (bs ++ leaveLines π ρ region)) before) (i + 1) clauses) π ρ c₁ ls c'
  | .finalizer (some s) => ∃ n ks,
      c.temps ≤ n ∧ Listing L (.stmt s) (π ++ [.finalizer]) ρ { c with temps := n + 2 } ks c' ∧
      ls = finallyLines π ρ n ks

theorem Listing.inv {L : Layout} {p : Piece} {π : Path} {ρ : List Frame} {c c' : Counters}
    {ls : List Line} (h : Listing L p π ρ c ls c') : p.MadeOf L π ρ c ls c' := by
  cases h with
  | plain hk hl => exact .inl ⟨hk, hl, rfl⟩
  | block hl => exact .inr hl
  | conditional hh hm ha hn hb => exact .inr ⟨_, _, _, _, _, _, _, hh, hm, ha, hn, hb, rfl⟩
  | switch hh hd hc => exact .inr ⟨_, _, _, _, _, _, hh, hd, hc, rfl⟩
  | goto hm hs => exact .inr ⟨_, _, _, hm, hs, rfl, rfl⟩
  | labeled hm hl => exact .inr ⟨_, _, hm, hl, rfl⟩
  | tryCatch hm hfresh hb ha hf => exact .inr ⟨_, _, _, _, _, _, hm, hfresh, hb, ha, hf, rfl⟩
  | throw hh => exact .inr ⟨_, _, hh, rfl, rfl⟩
  | rethrow hr hh => exact .inr ⟨_, _, hr, hh, rfl, rfl⟩
  | stmtsNil | defaultNil | catchesNil | finalizerNone => exact ⟨rfl, rfl⟩
  | stmtsCons ha hb => exact ⟨_, _, _, ha, hb, rfl⟩
  | defaultLater hv hl => exact .inl ⟨hv, hl⟩
  | defaultHere hv hl => exact .inr ⟨rfl, hv, hl⟩
  | casesNil => exact ⟨rfl, rfl, rfl⟩
  | casesDefault hl => exact hl
  | casesCons hl hw hb => exact ⟨_, _, _, _, _, _, hl, hw, hb, rfl, rfl⟩
  | catchesCons hm hb hl => exact ⟨_, _, _, hm, hb, hl⟩
  | finalizerSome hn hl => exact ⟨_, _, hn, hl, rfl⟩

/-- The code of a whole body: the breadcrumb of its entry, and its statements. -/
inductive BodyListing (L : Layout) (body : Stmt) : List Line → Prop where
  | mk {ms ls : List Line} {c : Counters} :
      Plain L [] [] (breadcrumb L.env) () ms →
      Listing L (.stmt body) [] [] ⟨0, 0, fun _ => 0⟩ ls c → BodyListing L body (ms ++ ls)

end Unwind.Lowering
