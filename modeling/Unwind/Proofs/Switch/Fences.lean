import Unwind.Proofs.Callees
import Unwind.Proofs.Lowering.Labels
import Unwind.Proofs.Lowering.Sound

/-!
# Code that keeps to its own labels

Where statements neither jump nor carry labels themselves, all labels in their code are those of
regions that are entered meanwhile, and the code jumps to these or to the regions around it
(`fenced_lowerStmts`). So the codes of two such bodies do not jump into each other.

With exceptions this is read off the listing of the statements (`Listing.fenced`). Without them
there are no regions, and the code is that of expressions, in conditionals (`lowerStmt_coded`).
-/

namespace Unwind.Source

/-- Jumps to labels, and the statements that carry these. -/
def StmtKind.isJump : StmtKind → Bool
  | .goto _ | .labeled .. => true
  | _ => false

/-- None of the statements jumps to a label or carries one. -/
def JumpFree (ss : List Stmt) : Prop := ∀ t ∈ ss, t.kind.isJump = false

theorem jumpFree_append {ss ts : List Stmt} : JumpFree (ss ++ ts) ↔ JumpFree ss ∧ JumpFree ts :=
  List.forall_mem_append

theorem JumpFree.inside {s : Stmt} (h : JumpFree s.statements) : JumpFree s.statements.tail :=
  fun t ht => h t (List.mem_of_mem_tail ht)

end Unwind.Source

namespace Unwind.Machine

/-- The label that an instruction jumps to. -/
def Instr.goto? : Instr → Option String
  | goto l => some l
  | _ => none

/-- The labels that code jumps to, in order. -/
def gotos (is : List Instr) : List String := is.filterMap Instr.goto?

@[simp]
theorem gotos_nil : gotos [] = [] := rfl

@[simp]
theorem gotos_cons (i : Instr) (is : List Instr) : gotos (i :: is) = i.goto?.toList ++ gotos is := by
  rw [gotos, List.filterMap_cons]
  cases i.goto? <;> rfl

@[simp]
theorem gotos_append (as bs : List Instr) : gotos (as ++ bs) = gotos as ++ gotos bs :=
  List.filterMap_append

theorem mem_gotos {l : String} {is : List Instr} : l ∈ gotos is ↔ .goto l ∈ is := by
  rw [gotos, List.mem_filterMap]
  constructor
  · rintro ⟨i, hi, hl⟩
    cases i with
    | goto => cases hl; exact hi
    | _ => cases hl
  · exact fun h => ⟨_, h, rfl⟩

end Unwind.Machine

namespace Unwind.Lowering

open Machine (Instr flatten gotos labels mem_gotos)
open Source (CatchClause Expr JumpFree Path Stmt StmtKind SwitchCase jumpFree_append)
open Ir (Cmd)

/-! ## Labels of regions -/

/-- The region that a generated label belongs to. -/
def Tag.region : Tag → Nat
  | .source _ => 0
  | .catches region | .finalizer region | .behind region | .resume region _ => region

/-- The names are generated labels of regions with the property. -/
def OfRegions (P : Nat → Prop) (names : List String) : Prop :=
  ∀ l ∈ names, ∃ t : Tag, t.isSource = false ∧ t.name = l ∧ P t.region

section

variable {P Q : Nat → Prop} {xs ys : List String}

theorem ofRegions_nil : OfRegions P [] := nofun

theorem ofRegions_append : OfRegions P (xs ++ ys) ↔ OfRegions P xs ∧ OfRegions P ys :=
  List.forall_mem_append

theorem ofRegions_singleton {t : Tag} (ht : t.isSource = false) (hp : P t.region) :
    OfRegions P [t.name] := List.forall_mem_singleton.mpr ⟨t, ht, rfl, hp⟩

theorem OfRegions.imp (h : OfRegions P xs) (hpq : ∀ r, P r → Q r) : OfRegions Q xs := by
  intro l hl
  obtain ⟨t, ht, hname, hp⟩ := h l hl
  exact ⟨t, ht, hname, hpq _ hp⟩

/-- Labels of different regions are different. -/
theorem OfRegions.disjoint (h : OfRegions P xs) (h' : OfRegions Q ys) (hpq : ∀ r, P r → ¬ Q r)
    {l : String} (hl : l ∈ xs) : l ∉ ys := by
  intro hl'
  have hproper : ∀ {t : Tag}, t.isSource = false → t.Proper := by
    intro t ht
    cases t with
    | source => cases ht
    | _ => trivial
  obtain ⟨t, ht, rfl, hp⟩ := h l hl
  obtain ⟨t', ht', hname, hq⟩ := h' _ hl'
  rw [Tag.name_inj (hproper ht') (hproper ht) hname] at hq
  exact hpq _ hp hq

end

/-! ## Fenced code -/

/-- The labels in the code are those of regions from `m` on and below `n`; it jumps to such labels,
or to those of the frames `ρ`. -/
structure Fenced (ρ : List Frame) (m n : Nat) (is : List Instr) : Prop where
  labels : OfRegions (fun r => m ≤ r ∧ r < n) (labels is)
  gotos : OfRegions (fun r => (m ≤ r ∧ r < n) ∨ ∃ f ∈ ρ, f.region = r) (gotos is)

section

variable {ρ ρ' : List Frame} {m m' n n' : Nat} {is js : List Instr} {ls : List Line} {L : Layout}
  {π : Path}

theorem fenced_nil : Fenced ρ m n [] := ⟨ofRegions_nil, ofRegions_nil⟩

theorem Fenced.append (h : Fenced ρ m n is) (h' : Fenced ρ m n js) : Fenced ρ m n (is ++ js) := by
  refine ⟨?_, ?_⟩
  · rw [Machine.labels_append]
    exact ofRegions_append.2 ⟨h.labels, h'.labels⟩
  · rw [Machine.gotos_append]
    exact ofRegions_append.2 ⟨h.gotos, h'.gotos⟩

theorem Fenced.mono (h : Fenced ρ m n is) (hm : m' ≤ m) (hn : n ≤ n') : Fenced ρ m' n' is :=
  ⟨h.labels.imp fun _ hr => ⟨hm.trans hr.1, hr.2.trans_le hn⟩,
    h.gotos.imp fun _ hr => hr.imp_left fun hr => ⟨hm.trans hr.1, hr.2.trans_le hn⟩⟩

/-- Code in a region belongs to the code of the region. -/
theorem Fenced.region {f : Frame} (h : Fenced (f :: ρ) m' n' is) (hf : f.region = m) (hm : m ≤ m')
    (hn : n' ≤ n) (hlt : m < n) : Fenced ρ m n is := by
  refine ⟨(h.mono hm hn).labels, (h.mono hm hn).gotos.imp fun r hr => ?_⟩
  rcases hr with hr | ⟨g, hg, hgr⟩
  · exact .inl hr
  · rcases List.mem_cons.mp hg with rfl | hg
    · exact .inl (by omega)
    · exact .inr ⟨g, hg, hgr⟩

/-- Instructions that neither are labels nor jump to one. -/
theorem fenced_of_none (hl : labels is = []) (hg : gotos is = []) : Fenced ρ m n is :=
  ⟨hl ▸ ofRegions_nil, hg ▸ ofRegions_nil⟩

theorem Exit.region {ℓ : Line} {l : String} (h : Exit ℓ ρ l) :
    ∃ t : Tag, t.isSource = false ∧ t.name = l ∧ ∃ f ∈ ρ, f.region = t.region := by
  induction h with
  | @here f _ => exact ⟨.finalizer f.region, rfl, rfl, f, List.mem_cons_self, rfl⟩
  | outer _ _ ih =>
    obtain ⟨t, ht, hname, f, hf, hr⟩ := ih
    exact ⟨t, ht, hname, f, List.mem_cons_of_mem _ hf, hr⟩

theorem Outlet.region {ℓ : Line} {l : String} (h : Outlet ℓ ρ l) :
    ∃ t : Tag, t.isSource = false ∧ t.name = l ∧ ∃ f ∈ ρ, f.region = t.region := by
  cases h with
  | @catches f _ => exact ⟨.catches f.region, rfl, rfl, f, List.mem_cons_self, rfl⟩
  | @behind f _ => exact ⟨.behind f.region, rfl, rfl, f, List.mem_cons_self, rfl⟩
  | exit h => exact h.region

/-- Code without labels that leaves its place only for the frames around it. -/
theorem fenced_of_outlets (hl : labelsOf ls = [])
    (hg : ∀ ℓ ∈ ls, ∀ l, ℓ.instr = .goto l → Outlet ℓ ρ l) : Fenced ρ m n (instrs ls) := by
  refine ⟨by rw [← labelsOf, hl]; exact ofRegions_nil, fun l hmem => ?_⟩
  obtain ⟨ℓ, hℓ, hgoto⟩ := List.mem_map.mp (mem_gotos.mp hmem)
  obtain ⟨t, ht, hname, hf⟩ := (hg ℓ hℓ l hgoto).region
  exact ⟨t, ht, hname, .inr hf⟩

theorem Leaf.fenced (h : Leaf L π ρ ls) : Fenced ρ m n (instrs ls) :=
  fenced_of_outlets h.labelsOf fun _ hℓ _ => h.target hℓ

theorem fenced_choice {v : Ir.Expr} {as bs : List Line} (ha : Fenced ρ m n (instrs as))
    (hb : Fenced ρ m n (instrs bs)) : Fenced ρ m n (instrs (choice π ρ v as bs)) := by
  rw [instrs_choice]
  have htest : ∀ i : Instr, i.label? = none → i.goto? = none → Fenced ρ m n [i] :=
    fun i hl hg => fenced_of_none (by simp [hl]) (by simp [hg])
  exact (htest _ rfl rfl).append (ha.append ((htest _ rfl rfl).append hb))

/-- A label of a region that is entered meanwhile. -/
theorem fenced_label {t : Tag} (ht : t.isSource = false) (hm : m ≤ t.region) (hn : t.region < n) :
    Fenced ρ m n [.label t.name] := by
  refine ⟨?_, ofRegions_nil⟩
  simpa [Instr.label?] using ofRegions_singleton (P := fun r => m ≤ r ∧ r < n) ht ⟨hm, hn⟩

/-! ## Regions -/

theorem fenced_leaveLines {f : Frame} (hphase : f.phase ≠ .inFinally) :
    Fenced (f :: ρ) m n (instrs (leaveLines π (f :: ρ) f.region)) :=
  fenced_of_outlets (labelsOf_leaveLines _) fun _ hℓ _ => outlet_leaveLines hphase hℓ

theorem fenced_resumeLines {r jumps : Nat} (hm : m ≤ r) (hn : r < n) :
    Fenced ρ m n (instrs (resumeLines π ρ r jumps)) := by
  refine ⟨?_, fun l hl => ?_⟩
  · rw [← labelsOf, labelsOf_resumeLines]
    exact ofRegions_nil
  · rw [resumeLines, instrs_own, mem_gotos] at hl
    rcases goto_resumeTests hl with rfl | ⟨e, he, rfl⟩
    · exact ⟨.behind r, rfl, rfl, .inl ⟨hm, hn⟩⟩
    · obtain ⟨k, -, rfl⟩ := List.mem_map.mp he
      exact ⟨.resume r k, rfl, rfl, .inl ⟨hm, hn⟩⟩

theorem fenced_regionLines {env : Env} {r jumps : Nat} {node : UInt32} {bs as fs : List Line}
    (hn : r < n) (hb : Fenced ρ r n (instrs bs)) (ha : Fenced ρ r n (instrs as))
    (hf : Fenced ρ r n (instrs fs)) :
    Fenced ρ r n (instrs (regionLines env π ρ r node bs as fs jumps)) := by
  have hleave : Fenced ρ r n (instrs (leaveLines π (⟨r, node, .inTry, π⟩ :: ρ) r)) :=
    (fenced_leaveLines (f := ⟨r, node, .inTry, π⟩) nofun).region rfl le_rfl le_rfl hn
  have hraise : Fenced (⟨r, node, .inCatch, π⟩ :: ρ) r n (instrs (raiseLines env π
      (⟨r, node, .inCatch, π⟩ :: ρ) (.ident (Slot.caught r).name))) :=
    fenced_of_outlets (labelsOf_raiseLines _ _) fun _ hℓ _ => outlet_raiseLines hℓ
  have htake : Fenced ρ r n (instrs (takeLines π ⟨r, node, .inCatch, π⟩ ρ)) :=
    (fenced_label (t := .catches r) rfl le_rfl hn).append (fenced_of_none rfl rfl)
  have hcheck : Fenced ρ r n (instrs (checkLines env π ρ)) :=
    fenced_of_outlets (labelsOf_checkLines _) fun _ hℓ _ => outlet_checkLines hℓ
  simp only [regionLines, instrs_append]
  exact hb.append (hleave.append (htake.append (ha.append
    ((hraise.region rfl le_rfl le_rfl hn).append
    ((fenced_label (t := .finalizer r) rfl le_rfl hn).append (hf.append
      ((fenced_resumeLines le_rfl hn).append
        ((fenced_label (t := .behind r) rfl le_rfl hn).append hcheck))))))))

theorem fenced_finallyLines {k : Nat} (h : Fenced ρ m n (instrs ls)) :
    Fenced ρ m n (instrs (finallyLines π ρ k ls)) := by
  simp only [finallyLines, instrs_append, instrs_own]
  exact (fenced_of_none rfl rfl).append (h.append (fenced_of_none rfl rfl))

end

/-! ## Listed code -/

namespace Piece

/-- The statements of a piece. -/
def statements : Piece → List Stmt
  | stmt s => s.statements
  | stmts _ _ ss => Source.statementsIn ss
  | default _ cs | cases _ _ _ _ cs => Source.statementsInCases cs
  | catches _ _ _ clauses => Source.statementsInCatches clauses
  | finalizer s => Source.statementsInOption s

/-- The code of a piece is fenced. Tests are fenced with the code around which they stand. -/
def IsFenced (ρ : List Frame) (c : Counters) (ls : List Line) (c' : Counters) : Piece → Prop
  | cases _ ds vs _ _ => Fenced ρ c.regions c'.regions (instrs vs) ∧ ∀ m ≤ c.regions,
      Fenced ρ m c.regions (instrs ds) → Fenced ρ m c'.regions (instrs ls)
  | catches region before _ _ => ∀ f ρ', ρ = f :: ρ' → f.region = region → f.phase = .inCatch →
      ∀ m ≤ c.regions, Fenced ρ m c.regions (instrs before) → Fenced ρ m c'.regions (instrs ls)
  | _ => Fenced ρ c.regions c'.regions (instrs ls)

end Piece

theorem Listing.fenced {L : Layout} {p : Piece} {π : Path} {ρ : List Frame} {c c' : Counters}
    {ls : List Line} (h : Listing L p π ρ c ls c') (hfree : JumpFree p.statements) :
    c.regions ≤ c'.regions ∧ p.IsFenced ρ c ls c' := by
  induction h with
  | plain _ hp => exact ⟨le_rfl, hp.1.fenced⟩
  | block _ ih => exact ih hfree.inside
  | conditional hh hms _ hns _ iha ihb =>
    obtain ⟨hfa, hfb⟩ := jumpFree_append.mp hfree.inside
    obtain ⟨ha, hthen⟩ := iha hfa
    obtain ⟨hb, helse⟩ := ihb hfb
    refine ⟨ha.trans hb, ?_⟩
    simp only [Piece.IsFenced, instrs_append]
    refine hh.1.fenced.append (fenced_choice ?_ ?_)
    · rw [instrs_append]
      exact hms.1.fenced.append (Fenced.mono hthen le_rfl hb)
    · rw [instrs_append]
      exact hns.1.fenced.append (Fenced.mono helse ha le_rfl)
  | switch hh _ _ ihd ihc =>
    obtain ⟨hd, hds⟩ := ihd hfree.inside
    obtain ⟨hc, hvs, hls⟩ := ihc hfree.inside
    refine ⟨hd.trans hc, ?_⟩
    simp only [Piece.IsFenced, instrs_append]
    exact hh.1.fenced.append ((hvs.mono hd le_rfl).append (hls _ hd hds))
  | goto => cases hfree _ (Stmt.mem_statements _)
  | labeled => cases hfree _ (Stmt.mem_statements _)
  | tryCatch hms _ _ _ _ ihb iha ihf =>
    obtain ⟨hfb, hfree⟩ := jumpFree_append.mp hfree.inside
    obtain ⟨hfa, hff⟩ := jumpFree_append.mp hfree
    obtain ⟨hb, hbs⟩ := ihb hfb
    obtain ⟨ha, has⟩ := iha hfa
    obtain ⟨hf, hfs⟩ := ihf hff
    simp only at hb
    refine ⟨by omega, ?_⟩
    simp only [Piece.IsFenced, instrs_append] at hbs hfs ⊢
    refine hms.1.fenced.append (fenced_regionLines (by omega) ?_ ?_ ?_)
    · exact hbs.region rfl (by simp) (by omega) (by omega)
    · exact (has _ _ rfl rfl rfl _ le_rfl fenced_nil).region rfl (by omega) (by omega) (by omega)
    · exact hfs.region rfl (by omega) (by omega) (by omega)
  | throw hh | rethrow _ hh =>
    refine ⟨le_rfl, ?_⟩
    simp only [Piece.IsFenced, instrs_append]
    exact hh.1.fenced.append
      (fenced_of_outlets (labelsOf_raiseLines _ _) fun _ hℓ _ => outlet_raiseLines hℓ)
  | stmtsNil | defaultNil | finalizerNone => exact ⟨le_rfl, fenced_nil⟩
  | stmtsCons _ _ iha ihb =>
    obtain ⟨hfa, hfb⟩ := jumpFree_append.mp hfree
    obtain ⟨ha, has⟩ := iha hfa
    obtain ⟨hb, hbs⟩ := ihb hfb
    refine ⟨ha.trans hb, ?_⟩
    simp only [Piece.IsFenced, instrs_append] at has hbs ⊢
    exact (has.mono le_rfl hb).append (hbs.mono ha le_rfl)
  | @defaultLater _ case _ _ _ _ _ _ _ _ ih =>
    obtain ⟨span, value, body⟩ := case
    exact ih (jumpFree_append.mp hfree).2
  | defaultHere _ _ ih => exact ih (jumpFree_append.mp hfree).1
  | casesNil => exact ⟨le_rfl, fenced_nil, fun _ _ h => h⟩
  | casesDefault _ ih => exact ih (jumpFree_append.mp hfree).2
  | casesCons _ hw _ ihl ihb =>
    obtain ⟨hfb, hfl⟩ := jumpFree_append.mp hfree
    obtain ⟨hl, hvs, hls⟩ := ihl hfl
    obtain ⟨hb, hbs⟩ := ihb hfb
    refine ⟨hl.trans hb, ?_, fun m hm hds => ?_⟩
    · rw [instrs_append]
      exact (hvs.mono le_rfl hb).append hw.1.fenced
    · exact fenced_choice (Fenced.mono hbs (hm.trans hl) le_rfl) ((hls m hm hds).mono le_rfl hb)
  | catchesNil => exact ⟨le_rfl, fun _ _ _ _ _ _ _ h => h⟩
  | @catchesCons _ _ _ clause _ _ _ _ _ _ _ _ _ hms _ _ ihb ihl =>
    obtain ⟨span, type, binding, body⟩ := clause
    obtain ⟨hfb, hfl⟩ := jumpFree_append.mp hfree
    obtain ⟨hb, hbs⟩ := ihb hfb
    obtain ⟨hl, hls⟩ := ihl hfl
    refine ⟨hb.trans hl, fun f ρ' hρ hf hphase m hm hbefore => ?_⟩
    refine hls f ρ' hρ hf hphase m (hm.trans hb) (fenced_choice ?_ (hbefore.mono le_rfl hb))
    subst hρ hf
    simp only [instrs_append]
    exact hms.1.fenced.append ((Fenced.mono hbs hm le_rfl).append
      (fenced_leaveLines (by rw [hphase]; nofun)))
  | finalizerSome _ _ ih =>
    obtain ⟨hs, hls⟩ := ih hfree
    exact ⟨hs, fenced_finallyLines hls⟩

/-! ## Code without regions -/

/-- A layout that lets a body write everything. -/
abbrev Layout.open (env : Env) (scopes : LabelScopes) : Layout := ⟨env, scopes, fun _ => True⟩

section

variable {env : Env} {scopes : LabelScopes} {ρ : List Frame} {s s' : State} {u : Unit}

theorem allows_open (names : List String) : (Layout.open env scopes).Allows names :=
  fun _ _ => trivial

/-- Code that is lowered aside. -/
theorem coded_aside {act : Lower Unit} {cs : List Cmd}
    (hact : ∀ {t t' : State}, View scopes ρ t → Runs act t () t' →
      Coded (.open env scopes) [] ρ t t')
    (hv : View scopes ρ s) (h : Runs (commandsOf act) s cs s') :
    ∃ ls, flatten cs = instrs ls ∧ Leaf (.open env scopes) [] ρ ls ∧ Emits s [] s' := by
  obtain ⟨s₁, h₁, rfl, rfl⟩ := runs_commandsOf.mp h
  obtain ⟨ls, he, hleaf⟩ := hact (hv.withCmds []) h₁
  obtain ⟨he', hf⟩ := he.unbuffer
  exact ⟨ls, hf, hleaf, he'⟩

theorem coded_ifElse {cond : Ir.Expr} {thenCmds elseCmds : List Cmd} {as bs : List Line}
    (hf : flatten thenCmds = instrs as) (hf' : flatten elseCmds = instrs bs)
    (ha : Leaf (.open env scopes) [] ρ as) (hb : Leaf (.open env scopes) [] ρ bs)
    (h : Runs (emit (.ifElse cond thenCmds elseCmds)) s u s') :
    Coded (.open env scopes) [] ρ s s' :=
  ⟨choice [] ρ cond as bs, emits_ifElse [] ρ hf hf' h, ha.choice hb⟩

mutual

/-- Without exceptions, statements become code without regions. -/
theorem lowerStmt_coded (st : Stmt) (hm : env.options.modelsExceptions = false)
    (hfree : JumpFree st.statements) {s s' : State} {u : Unit} (hv : View scopes ρ s)
    (h : Runs (lowerStmt env st) s u s') : Coded (.open env scopes) [] ρ s s' := by
  have hm' : ¬ env.options.modelsExceptions = true := by simp [hm]
  obtain ⟨id, span, kind⟩ := st
  by_cases hk : isPlain kind = true
  · exact plainStmt_coded (L := .open env scopes) hk (allows_open _) hv h
  have hin := hfree.inside
  cases kind with
  | empty | assert | assume | expression | localDecl | ret | push => exact absurd rfl hk
  | goto | labeled => cases hfree _ (Stmt.mem_statements _)
  | breakLoop | continueLoop | whileLoop | doUntil | forLoop | forEach =>
    simp only [lowerStmt, runs_bind] at h
    obtain ⟨_, s₁, -, h₂⟩ := h
    exact absurd h₂ not_runs_throw
  | block ss =>
    simp only [lowerStmt, runs_bind] at h
    obtain ⟨_, s₁, h₁, h₂⟩ := h
    have c₁ : Coded (.open env scopes) [] ρ s s₁ := .of_marks (.emitMarks h₁)
    exact c₁.trans (lowerStmts_coded ss hm hin (c₁.view hv) h₂)
  | conditional cond thenBranch elseBranch =>
    obtain ⟨ht, he⟩ := jumpFree_append.mp hin
    have hbranch : ∀ {b : Stmt} {cs : List Cmd} {t t' : State}, View scopes ρ t →
        (∀ {r r' : State}, View scopes ρ r → Runs (lowerStmt env b) r () r' →
          Coded (.open env scopes) [] ρ r r') →
        Runs (commandsOf do breadcrumb env; lowerStmt env b) t cs t' →
        ∃ ls, flatten cs = instrs ls ∧ Leaf (.open env scopes) [] ρ ls ∧ Emits t [] t' := by
      intro b cs t t' hv hb h
      refine coded_aside (fun hv h => ?_) hv h
      obtain ⟨_, r, h₁, h₂⟩ := runs_bind.mp h
      have c₁ : Coded (.open env scopes) [] ρ _ r := .of_marks (.breadcrumb h₁)
      exact c₁.trans (hb (c₁.view hv) h₂)
    simp only [lowerStmt, runs_bind] at h
    obtain ⟨_, s₁, h₁, v, s₂, h₂, thenCmds, s₃, h₃, elseCmds, s₄, h₄, h₅⟩ := h
    have c₁ : Coded (.open env scopes) [] ρ s s₁ := .of_marks (.emitMarks h₁)
    have c₂ := c₁.trans (condition_coded (L := .open env scopes) (allows_open _) (c₁.view hv) h₂)
    obtain ⟨as, hf, ha, e₃⟩ := hbranch (c₂.view hv) (lowerStmt_coded thenBranch hm ht) h₃
    obtain ⟨bs, hf', hb, e₄⟩ := hbranch (e₃.view (c₂.view hv)) (lowerStmt_coded elseBranch hm he) h₄
    exact c₂.trans ((Coded.of_nil e₃).trans ((Coded.of_nil e₄).trans (coded_ifElse hf hf' ha hb h₅)))
  | switch scrutinee cases =>
    simp only [lowerStmt, runs_bind] at h
    obtain ⟨_, s₁, h₁, v, s₂, h₂, ds, s₃, h₃, chain, s₄, h₄, h₅⟩ := h
    have c₁ : Coded (.open env scopes) [] ρ s s₁ := .of_marks (.emitMarks h₁)
    have c₂ := c₁.trans (value_coded (L := .open env scopes) (allows_open _) (c₁.view hv) h₂)
    obtain ⟨ls, hf, hl, e₃⟩ := lowerDefault_coded cases hm hin (c₂.view hv) h₃
    obtain ⟨c₄, hchain⟩ := lowerCases_coded cases hm hin (e₃.view (c₂.view hv)) hf hl h₄
    refine c₂.trans ((Coded.of_nil e₃).trans (c₄.trans ?_))
    cases chain with
    | some k =>
      obtain ⟨ks, hk, hks⟩ := hchain k rfl
      exact ⟨ks, hk ▸ emits_emit h₅, hks⟩
    | none => exact ⟨ls, hf ▸ emits_emitAll h₅, hl⟩
  | tryCatch body catches finalizer =>
    obtain ⟨hb, hrest⟩ := jumpFree_append.mp hin
    obtain ⟨-, hf⟩ := jumpFree_append.mp hrest
    simp only [lowerStmt, if_neg hm', runs_bind] at h
    obtain ⟨_, s₁, h₁, _, s₂, h₂, h₃⟩ := h
    have c₁ : Coded (.open env scopes) [] ρ s s₁ := .of_marks (.emitMarks h₁)
    have c₂ := c₁.trans (lowerStmt_coded body hm hb (c₁.view hv) h₂)
    cases finalizer with
    | none =>
      rw [lowerOptional, runs_pure] at h₃
      exact h₃.2 ▸ c₂
    | some st =>
      rw [lowerOptional] at h₃
      exact c₂.trans (lowerStmt_coded st hm hf (c₂.view hv) h₃)
  | throw e =>
    simp only [lowerStmt, lowerThrow, if_neg hm', runs_bind] at h
    obtain ⟨_, s₁, h₁, h₂⟩ := h
    exact (Coded.of_marks (.emitMarks h₁)).trans (.emit rfl .assume h₂)
  | rethrow =>
    simp only [lowerStmt, lowerRethrow, if_neg hm', runs_bind] at h
    obtain ⟨_, s₁, h₁, h₂⟩ := h
    exact (Coded.of_marks (.emitMarks h₁)).trans (.emit rfl .assume h₂)

theorem lowerStmts_coded (ss : List Stmt) (hm : env.options.modelsExceptions = false)
    (hfree : JumpFree (Source.statementsIn ss)) {s s' : State} {u : Unit} (hv : View scopes ρ s)
    (h : Runs (lowerStmts env ss) s u s') : Coded (.open env scopes) [] ρ s s' := by
  cases ss with
  | nil =>
    rw [lowerStmts, runs_pure] at h
    rw [h.2]
    exact .refl s
  | cons st ss =>
    obtain ⟨hs, hss⟩ := jumpFree_append.mp hfree
    simp only [lowerStmts, runs_bind] at h
    obtain ⟨_, s₁, h₁, h₂⟩ := h
    have c₁ := lowerStmt_coded st hm hs hv h₁
    exact c₁.trans (lowerStmts_coded ss hm hss (c₁.view hv) h₂)

theorem lowerDefault_coded (cases : List SwitchCase) (hm : env.options.modelsExceptions = false)
    (hfree : JumpFree (Source.statementsInCases cases)) {s s' : State} {cs : List Cmd}
    (hv : View scopes ρ s) (h : Runs (lowerDefault env cases) s cs s') :
    ∃ ls, flatten cs = instrs ls ∧ Leaf (.open env scopes) [] ρ ls ∧ Emits s [] s' := by
  cases cases with
  | nil =>
    rw [lowerDefault, runs_pure] at h
    obtain ⟨rfl, rfl⟩ := h
    exact ⟨[], rfl, .nil, .refl _⟩
  | cons case cases =>
    obtain ⟨span, value?, body⟩ := case
    obtain ⟨hb, hcs⟩ := jumpFree_append.mp hfree
    rw [lowerDefault] at h
    split at h
    · exact lowerDefault_coded cases hm hcs hv h
    · exact coded_aside (fun hv h => lowerStmts_coded body hm hb hv h) hv h

theorem lowerCases_coded (cases : List SwitchCase) (hm : env.options.modelsExceptions = false)
    (hfree : JumpFree (Source.statementsInCases cases)) {s s' : State} {v : Ir.Expr}
    {ds : List Cmd} {ls : List Line} {chain : Option Cmd} (hv : View scopes ρ s)
    (hf : flatten ds = instrs ls) (hl : Leaf (.open env scopes) [] ρ ls)
    (h : Runs (lowerCases env v ds cases) s chain s') :
    Coded (.open env scopes) [] ρ s s' ∧ ∀ k, chain = some k →
      ∃ ks, Machine.flattenCmd k = instrs ks ∧ Leaf (.open env scopes) [] ρ ks := by
  cases cases with
  | nil =>
    rw [lowerCases, runs_pure] at h
    obtain ⟨rfl, rfl⟩ := h
    exact ⟨.refl _, nofun⟩
  | cons case cases =>
    obtain ⟨span, value?, body⟩ := case
    obtain ⟨hb, hcs⟩ := jumpFree_append.mp hfree
    simp only [lowerCases, runs_bind] at h
    obtain ⟨rest, s₁, h₁, h₂⟩ := h
    obtain ⟨c₁, hrest⟩ := lowerCases_coded cases hm hcs hv hf hl h₁
    cases value? with
    | none =>
      obtain ⟨rfl, rfl⟩ := runs_pure.mp h₂
      exact ⟨c₁, hrest⟩
    | some e =>
      simp only [runs_bind, runs_pure] at h₂
      obtain ⟨w, s₂, h₂, cmds, s₃, h₃, rfl, rfl⟩ := h₂
      have c₂ := c₁.trans
        (value_coded (L := .open env scopes) (allows_open _) (c₁.view hv) h₂)
      obtain ⟨bs, hfb, hlb, e₃⟩ :=
        coded_aside (fun hv h => lowerStmts_coded body hm hb hv h) (c₂.view hv) h₃
      refine ⟨c₂.trans (.of_nil e₃), ?_⟩
      rintro k ⟨⟩
      cases rest with
      | some inner =>
        obtain ⟨ks, hk, hks⟩ := hrest inner rfl
        refine ⟨choice [] ρ (.eq v w) bs ks, ?_, hlb.choice hks⟩
        show Machine.flattenCmd (.ifElse (.eq v w) cmds [inner]) = _
        rw [Machine.flattenCmd, Machine.flatten_singleton, instrs_choice, hfb, hk]
      | none =>
        refine ⟨choice [] ρ (.eq v w) bs ls, ?_, hlb.choice hl⟩
        show Machine.flattenCmd (.ifElse (.eq v w) cmds ds) = _
        rw [Machine.flattenCmd, instrs_choice, hfb, hf]

end

/-! ## Bodies -/

/-- The code of statements that have nothing to do with labels jumps to labels of its own, or to
those of the regions around it. -/
theorem fenced_lowerStmts {ss : List Stmt} {cs : List Cmd} (hfree : JumpFree (Source.statementsIn ss))
    (hv : View scopes ρ s) (h : Runs (commandsOf (lowerStmts env ss)) s cs s') :
    View scopes ρ s' ∧ s'.cmds = s.cmds ∧ s.regions.length ≤ s'.regions.length ∧
      Fenced ρ s.regions.length s'.regions.length (flatten cs) := by
  cases hm : env.options.modelsExceptions with
  | true =>
    have hr : Ready (.open env scopes) ρ s.counters s := ⟨hv, rfl, le_rfl, rfl⟩
    obtain ⟨ls, c', hl, hf, hcmds, hr'⟩ := listed_aside (fun hr h =>
      lowerStmts_listed (L := .open env scopes) ss .item 0 (π := []) hm (allows_open _) hr h) hr h
    obtain ⟨hle, hfence⟩ := hl.fenced hfree
    have hfence : Fenced ρ s.counters.regions c'.regions (instrs ls) := hfence
    rw [hr'.regions] at hle hfence
    exact ⟨hr'.view, hcmds, hle, hf ▸ hfence⟩
  | false =>
    have hcoded : ∀ {t t' : State}, View scopes ρ t → Runs (lowerStmts env ss) t () t' →
        Coded (.open env scopes) [] ρ t t' := fun hv h => lowerStmts_coded ss hm hfree hv h
    obtain ⟨ls, hf, hl, he⟩ := coded_aside hcoded hv h
    have hlen : s'.regions.length = s.regions.length := he.regions
    obtain ⟨s₁, -, -, rfl⟩ := runs_commandsOf.mp h
    exact ⟨he.view hv, rfl, hlen.ge, hf ▸ hl.fenced⟩

end

end Unwind.Lowering
