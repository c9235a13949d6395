import Unwind.Proofs.Lowering.Frames

/-!
# The shape of lowered code

For what holds of all code it does not matter which statement a line comes from. `Laid` keeps of a
`Listing` only how the code is put together: code without statements, one part behind the other,
conditionals, labels, jumps, and regions. It also lists the labels of the code by their origin.

Of labels, jumps and regions the place is kept too, so that the code of a `goto` statement, of its
target and of a finally block can be found in the code of a body.
-/

namespace Unwind.Lowering

open Source (CatchClause Expr Hop Path Stmt StmtKind SwitchCase)
open Machine (Instr flatten)

/-- What the statement at `π` of a body may raise: a value where it is a `throw`, else what the
catch clause around it has caught. -/
inductive Raisable (body : Stmt) (π : Path) (ρ : List Frame) : Ir.Expr → Prop where
  | thrown {id : UInt32} {span : Span} {e : Expr} {v : Ir.Expr} :
      body.at? π = some ⟨id, span, .throw e⟩ → Raisable body π ρ v
  | caught {region : Nat} :
      catchOf ρ = some region → Raisable body π ρ (.ident (Slot.caught region).name)

/-- The code of a finally block from the code of its statement: there may be none. The numbers are
bounds for those of the variables that are still to be used. -/
inductive Guard (π : Path) (ρ : List Frame) (t : Nat) :
    Option Stmt → Nat → List Line → List Line → Prop where
  | none : Guard π ρ t none t [] []
  | some {s : Stmt} {n : Nat} {ls : List Line} :
      t ≤ n → Guard π ρ t (some s) (n + 2) ls (finallyLines π ρ n ls)

/-- The labels at which a jump goes on behind the regions that it leaves. -/
def resumes : List Frame → Counters → List Tag
  | [], _ => []
  | f :: left, c => .resume f.region (c.escapes f.region) :: resumes left (c.escape f.region)

/-- The label to which the statement at a place jumps, if it is a `goto` statement. -/
def gotoAt? (body : Stmt) (π : Path) : Option String := (body.at? π).bind Stmt.target?

/-- The labels of the source program among some labels are these. -/
def Counts (ts : List Tag) (labels : List String) : Prop :=
  ∀ l, ts.count (.source l) = labels.count l

/-- The statement stands at the place, between these frames. -/
def Stands (body : Stmt) (π : Path) (ρ : List Frame) (s : Stmt) : Prop :=
  body.at? π = some s ∧ Framed body π ρ

/-- Code between the frames `ρ` with its labels; the counters lead from before it to behind it. -/
inductive Laid (L : Layout) (body : Stmt) :
    List Frame → Counters → List Line → List Tag → Counters → Prop where
  | nil {ρ : List Frame} {c : Counters} : Laid L body ρ c [] [] c
  | leaf {π : Path} {ρ : List Frame} {c : Counters} {ls : List Line} :
      gotoAt? body π = none → Leaf L π ρ ls → Laid L body ρ c ls [] c
  | seq {ρ : List Frame} {c c₁ c₂ : Counters} {as bs : List Line} {ts us : List Tag} :
      Laid L body ρ c as ts c₁ → Laid L body ρ c₁ bs us c₂ →
      Laid L body ρ c (as ++ bs) (ts ++ us) c₂
  /-- The two parts are lowered in the order in which they stand. -/
  | choice {π : Path} {ρ : List Frame} {c c₁ c₂ : Counters} {v : Ir.Expr} {as bs : List Line}
      {ts us : List Tag} :
      gotoAt? body π = none → Laid L body ρ c as ts c₁ → Laid L body ρ c₁ bs us c₂ →
      Laid L body ρ c (choice π ρ v as bs) (ts ++ us) c₂
  /-- The second part is lowered first. -/
  | choiceBack {π : Path} {ρ : List Frame} {c c₁ c₂ : Counters} {v : Ir.Expr}
      {as bs : List Line} {ts us : List Tag} :
      gotoAt? body π = none → Laid L body ρ c bs us c₁ → Laid L body ρ c₁ as ts c₂ →
      Laid L body ρ c (choice π ρ v as bs) (us ++ ts) c₂
  | mark {id : UInt32} {span : Span} {s : Stmt} {π : Path} {ρ : List Frame} {c : Counters}
      {label : String} :
      Stands body π ρ ⟨id, span, .labeled label s⟩ →
      Laid L body ρ c (own π ρ [.label label]) [.source label] c
  | jump {π : Path} {ρ left kept : List Frame} {c : Counters} {label : String} {ms : List Line} :
      gotoAt? body π = some label → Framed body π ρ → Leaf L π ρ ms →
      (∀ i ∈ instrs ms, Quiet i) → Splits L.scopes label ρ left kept →
      Laid L body ρ c (ms ++ (escapeLines π kept left c ++ own π kept [.goto label]))
        (resumes left c) (c.escapeAll left)
  | leave {π : Path} {f : Frame} {ρ : List Frame} {c : Counters} :
      gotoAt? body π = none → f.phase ≠ .inFinally →
      Laid L body (f :: ρ) c (leaveLines π (f :: ρ) f.region) [] c
  | raise {π : Path} {ρ : List Frame} {c : Counters} {v : Ir.Expr} :
      gotoAt? body π = none → Raisable body π ρ v →
      Laid L body ρ c (raiseLines L.env π ρ v) [] c
  | region {id : UInt32} {span : Span} {b : Stmt} {cs : List CatchClause} {fin : Option Stmt}
      {π : Path} {ρ : List Frame} {c c₁ c₂ c₃ : Counters} {t : Nat} {bs as fs gs : List Line}
      {ts us vs : List Tag} :
      body.at? π = some ⟨id, span, .tryCatch b cs fin⟩ → Framed body π ρ →
      c.escapes c.regions = 0 →
      Laid L body (⟨c.regions, id, .inTry, π⟩ :: ρ) { c with regions := c.regions + 1 } bs ts c₁ →
      Laid L body (⟨c.regions, id, .inCatch, π⟩ :: ρ) c₁ as us c₂ →
      Laid L body (⟨c.regions, id, .inFinally, π⟩ :: ρ) { c₂ with temps := t } fs vs c₃ →
      Guard π (⟨c.regions, id, .inFinally, π⟩ :: ρ) c₂.temps fin t fs gs →
      (∀ s, fin = some s → Counts vs s.labels ∧ Listing L (.stmt s) (π ++ [.finalizer])
        (⟨c.regions, id, .inFinally, π⟩ :: ρ) { c₂ with temps := t } fs c₃) →
      Laid L body ρ c (regionLines L.env π ρ c.regions id bs as gs (c₃.escapes c.regions))
        ([.catches c.regions, .finalizer c.regions, .behind c.regions] ++ (ts ++ (us ++ vs))) c₃

/-! ## From the listing to the shape -/

theorem Counts.append {ts us : List Tag} {ks ls : List String} (h : Counts ts ks)
    (h' : Counts us ls) : Counts (ts ++ us) (ks ++ ls) := by
  intro l
  rw [List.count_append, List.count_append, h l, h' l]

theorem counts_resumes (left : List Frame) (c : Counters) : Counts (resumes left c) [] := by
  induction left generalizing c with
  | nil => exact fun _ => rfl
  | cons f left ih =>
    intro l
    rw [resumes, List.count_cons_of_ne (by simp)]
    exact ih _ l

theorem Stands.child {body s t : Stmt} {π : Path} {ρ : List Frame} (h : Stands body π ρ s) {hop : Hop}
    (hc : s.child? hop = some t) (hp : hop.isPart = false) : Stands body (π ++ [hop]) ρ t :=
  ⟨(Stmt.at?_concat h.1 hop).trans hc, .inner hp h.2⟩

theorem Stands.part {body t : Stmt} {π : Path} {ρ : List Frame} {id : UInt32} {span : Span}
    {b : Stmt} {cs : List CatchClause} {f : Option Stmt} {hop : Hop} {phase : Phase}
    (h : Stands body π ρ ⟨id, span, .tryCatch b cs f⟩) (region : Nat)
    (hc : (Stmt.mk id span (.tryCatch b cs f)).child? hop = some t)
    (hp : phaseOf? hop = some phase) :
    Stands body (π ++ [hop]) (⟨region, id, phase, π⟩ :: ρ) t :=
  ⟨(Stmt.at?_concat h.1 hop).trans hc, .part hp h.1 h.2⟩

theorem Stands.gotoAt? {body s : Stmt} {π : Path} {ρ : List Frame} (h : Stands body π ρ s) :
    gotoAt? body π = s.target? := by
  rw [Lowering.gotoAt?, h.1]
  rfl

/-- The code of a `goto` statement. -/
theorem Listing.goto_inv {L : Layout} {s : Stmt} {label : String} {π : Path} {ρ : List Frame}
    {c c' : Counters} {ls : List Line} (h : Listing L (.stmt s) π ρ c ls c')
    (htarget : s.target? = some label) : ∃ left kept ms,
      Plain L π ρ (emitMarks L.env s.span (.goto label)) () ms ∧ Splits L.scopes label ρ left kept ∧
      ls = ms ++ (escapeLines π kept left c ++ own π kept [.goto label]) := by
  obtain ⟨id, span, kind⟩ := s
  cases kind with
  | goto l =>
    cases htarget
    obtain ⟨hk, -⟩ | ⟨left, kept, ms, hm, hs, hls, -⟩ := h.inv
    · cases hk
    · exact ⟨left, kept, ms, hm, hs, hls⟩
  | _ => cases htarget

namespace Piece

/-- The piece stands at `π` in the body, between the frames `ρ`. -/
def Within (body : Stmt) (π : Path) (ρ : List Frame) : Piece → Prop
  | stmt s => Stands body π ρ s
  | stmts hop i ss => ∀ j s, ss[j]? = some s → Stands body (π ++ [hop (i + j)]) ρ s
  | default i cs | cases _ _ _ i cs =>
    ∀ j k s, cs[j]?.bind (·.body[k]?) = some s → Stands body (π ++ [.caseItem (i + j) k]) ρ s
  | catches _ _ i clauses =>
    ∀ j clause, clauses[j]? = some clause → Stands body (π ++ [.catchBody (i + j)]) ρ clause.body
  | finalizer s => ∀ t, s = some t → Stands body (π ++ [.finalizer]) ρ t

theorem within_cases {body : Stmt} {π : Path} {ρ : List Frame} {id : UInt32} {span : Span}
    {e : Expr} {cs : List SwitchCase} (h : Stands body π ρ ⟨id, span, .switch e cs⟩) :
    (default 0 cs).Within body π ρ := by
  intro j k s hs
  rw [Nat.zero_add]
  exact h.child hs rfl

theorem within_catches {body : Stmt} {π : Path} {ρ : List Frame} {id : UInt32} {span : Span}
    {b : Stmt} {clauses : List CatchClause} {f : Option Stmt} {region : Nat} {before : List Line}
    (h : Stands body π ρ ⟨id, span, .tryCatch b clauses f⟩) :
    (catches region before 0 clauses).Within body π (⟨region, id, .inCatch, π⟩ :: ρ) := by
  intro j clause hc
  rw [Nat.zero_add]
  refine h.part region ?_ rfl
  simp only [Stmt.child?, hc, Option.map_some]

/-- The shape of the code of a piece. Tests are laid around code that was laid before. -/
def Shaped (L : Layout) (body : Stmt) (π : Path) (ρ : List Frame) (c : Counters)
    (ls : List Line) (c' : Counters) : Piece → Prop
  | stmt s => ∃ ts, Laid L body ρ c ls ts c' ∧ Counts ts s.labels
  | stmts _ _ ss => ∃ ts, Laid L body ρ c ls ts c' ∧ Counts ts (Source.labelsIn ss)
  | default _ cs => ∃ ts, Laid L body ρ c ls ts c' ∧ Counts ts (Source.labelsInDefault cs)
  | cases _ ds vs _ cs => gotoAt? body π = none → Leaf L π ρ vs ∧
      ∀ c₀ us, Laid L body ρ c₀ ds us c →
        ∃ ts, Laid L body ρ c₀ ls (us ++ ts) c' ∧ Counts ts (Source.labelsInValued cs)
  | catches region before _ clauses => gotoAt? body π = none →
      ∀ node ρ', ρ = ⟨region, node, .inCatch, π⟩ :: ρ' → ∀ c₀ us, Laid L body ρ c₀ before us c →
        ∃ ts, Laid L body ρ c₀ ls (us ++ ts) c' ∧ Counts ts (Source.labelsInCatches clauses)
  | finalizer s => ∃ fs ts t, Laid L body ρ { c with temps := t } fs ts c' ∧
      Guard π ρ c.temps s t fs ls ∧ Counts ts (Source.labelsInOption s) ∧
      ∀ st, s = some st → Listing L (.stmt st) (π ++ [.finalizer]) ρ { c with temps := t } fs c'

end Piece

theorem Listing.shaped {L : Layout} {body : Stmt} (hone : body.oneDefault = true) {p : Piece} {π : Path}
    {ρ : List Frame} {c c' : Counters} {ls : List Line} (h : Listing L p π ρ c ls c')
    (hp : p.Within body π ρ) : p.Shaped L body π ρ c ls c' := by
  induction h with
  | plain hk hl =>
    rename_i id span kind _ _ _ _
    cases kind with
    | empty | assert | assume | expression | localDecl | ret | push =>
      exact ⟨[], .leaf (Stands.gotoAt? hp) hl.1, fun _ => rfl⟩
    | _ => cases hk
  | block _ ih =>
    refine ih fun j s hs => ?_
    rw [Nat.zero_add]
    exact Stands.child hp hs rfl
  | conditional hh hm _ hn _ iha ihb =>
    obtain ⟨ts, ha, hta⟩ := iha (Stands.child hp rfl rfl)
    obtain ⟨us, hb, hub⟩ := ihb (Stands.child hp rfl rfl)
    have hg := Stands.gotoAt? hp
    refine ⟨[] ++ (([] ++ ts) ++ ([] ++ us)), ?_, hta.append hub⟩
    exact .seq (.leaf hg hh.1)
      (.choice hg (.seq (.leaf hg hm.1) ha) (.seq (.leaf hg hn.1) hb))
  | switch hh _ _ ihd ihc =>
    have hg := Stands.gotoAt? hp
    obtain ⟨us, hd, hud⟩ := ihd (Piece.within_cases hp)
    obtain ⟨hv, hc⟩ := ihc (Piece.within_cases hp) hg
    obtain ⟨ts, hl, htl⟩ := hc _ us hd
    refine ⟨[] ++ ([] ++ (us ++ ts)), .seq (.leaf hg hh.1) (.seq (.leaf hg hv) hl), fun l => ?_⟩
    -- the default clause is laid first, but its labels are listed where it stands
    have hdefault := Stmt.oneDefault_at hone hp.1
    rw [Stmt.oneDefault, Bool.and_eq_true, decide_eq_true_eq] at hdefault
    have hcount := Source.count_labelsInCases hdefault.1 l
    simp only [List.nil_append, List.count_append, hud l, htl l, Stmt.labels, hcount]
  | goto hm hs =>
    refine ⟨resumes _ _, .jump (Stands.gotoAt? hp) hp.2 hm.1 ?_ hs, counts_resumes _ _⟩
    exact plain_quiet hm Marks.emitMarks
  | labeled hm _ ih =>
    obtain ⟨ts, hl, ht⟩ := ih (Stands.child hp rfl rfl)
    have hg := Stands.gotoAt? hp
    refine ⟨[] ++ ([.source _] ++ ts), .seq (.leaf hg hm.1) (.seq (.mark hp) hl), fun l => ?_⟩
    simp only [List.nil_append, List.singleton_append, Stmt.labels, List.count_cons, ht l]
    simp
  | tryCatch hm hfresh _ _ _ ihb iha ihf =>
    have hg := Stands.gotoAt? hp
    obtain ⟨ts, hb, htb⟩ := ihb (Stands.part hp _ rfl rfl)
    obtain ⟨us, ha, hua⟩ := iha (Piece.within_catches hp) hg _ _ rfl _ [] .nil
    obtain ⟨fs, vs, t, hf, hgd, hvf, hlist⟩ := ihf (fun st hst => Stands.part hp _ hst rfl)
    have hfin : ∀ s, _ = some s → Counts vs s.labels ∧ Listing _ (.stmt s) _ _ _ fs _ :=
      fun s hs => ⟨by rw [hs] at hvf; exact hvf, hlist s hs⟩
    refine ⟨[] ++ _, .seq (.leaf hg hm.1) (.region hp.1 hp.2 hfresh hb ha hf hgd hfin),
      fun l => ?_⟩
    simp only [List.nil_append, List.cons_append, Stmt.labels, List.count_append, List.count_cons,
      htb l, hua l, hvf l]
    simp
  | throw hh =>
    have hg := Stands.gotoAt? hp
    exact ⟨[] ++ [], .seq (.leaf hg hh.1) (.raise hg (.thrown hp.1)), fun _ => rfl⟩
  | rethrow hr hh =>
    have hg := Stands.gotoAt? hp
    exact ⟨[] ++ [], .seq (.leaf hg hh.1) (.raise hg (.caught hr)), fun _ => rfl⟩
  | stmtsNil => exact ⟨[], .nil, fun _ => rfl⟩
  | stmtsCons _ _ iha ihb =>
    obtain ⟨ts, ha, hta⟩ := iha (hp 0 _ rfl)
    obtain ⟨us, hb, hub⟩ := ihb fun j s hs => by
      rw [Nat.add_right_comm]
      exact hp (j + 1) s hs
    exact ⟨ts ++ us, .seq ha hb, hta.append hub⟩
  | defaultNil => exact ⟨[], .nil, fun _ => rfl⟩
  | defaultLater hv _ ih =>
    obtain ⟨ts, hl, ht⟩ := ih fun j k s hs => by
      rw [Nat.add_right_comm]
      exact hp (j + 1) k s hs
    refine ⟨ts, hl, fun l => ?_⟩
    rw [ht l, Source.labelsInDefault, if_pos hv]
  | defaultHere hv _ ih =>
    obtain ⟨ts, hl, ht⟩ := ih fun j s hs => by
      rw [Nat.zero_add]
      exact hp 0 j s hs
    refine ⟨ts, hl, fun l => ?_⟩
    rw [ht l, Source.labelsInDefault, if_neg (by simp [hv])]
  | casesNil =>
    refine fun _ => ⟨.nil, fun c₀ us hd => ⟨[], ?_, fun _ => rfl⟩⟩
    rw [List.append_nil]
    exact hd
  | casesDefault _ ih =>
    exact ih fun j k s hs => by
      rw [Nat.add_right_comm]
      exact hp (j + 1) k s hs
  | casesCons _ hw _ ihc ihb =>
    intro hg
    obtain ⟨hv, hc⟩ := ihc (fun j k s hs => by
      rw [Nat.add_right_comm]
      exact hp (j + 1) k s hs) hg
    obtain ⟨us, hb, hub⟩ := ihb fun j s hs => by
      rw [Nat.zero_add]
      exact hp 0 j s hs
    refine ⟨hv.append hw.1, fun c₀ ts₀ hd => ?_⟩
    -- what the later cases come to is the branch taken when the value differs
    obtain ⟨ts, hl, ht⟩ := hc c₀ ts₀ hd
    refine ⟨ts ++ us, ?_, ht.append hub⟩
    rw [← List.append_assoc]
    exact .choiceBack hg hl hb
  | catchesNil =>
    intro _ node ρ' _ c₀ us hd
    refine ⟨[], ?_, fun _ => rfl⟩
    rw [List.append_nil]
    exact hd
  | catchesCons hm _ _ ihb ihc =>
    intro hg node ρ' hρ c₀ us hd
    subst hρ
    -- the clause is tested before those that are laid already
    obtain ⟨ts, hb, htb⟩ := ihb (hp 0 _ rfl)
    obtain ⟨vs, hl, hvl⟩ := ihc (fun j clause hc => by
        rw [Nat.add_right_comm]
        exact hp (j + 1) clause hc) hg node ρ' rfl c₀ (us ++ ([] ++ (ts ++ [])))
      (.choiceBack hg hd (.seq (.leaf hg hm.1) (.seq hb (.leave hg fun h => by cases h))))
    refine ⟨ts ++ vs, by simpa using hl, ?_⟩
    rw [Source.labelsInCatches_cons]
    exact htb.append hvl
  | finalizerNone => exact ⟨[], [], _, .nil, .none, fun _ => rfl, fun _ h => by cases h⟩
  | finalizerSome hn hl ih =>
    obtain ⟨ts, hlaid, ht⟩ := ih (hp _ rfl)
    refine ⟨_, ts, _, hlaid, .some hn, ht, ?_⟩
    rintro st ⟨⟩
    exact hl

/-! ## Counters -/

section

variable {L : Layout} {body : Stmt} {ρ : List Frame} {c c' : Counters} {ls : List Line}
  {ts : List Tag}

theorem Guard.le {π : Path} {t t' : Nat} {fin : Option Stmt} {fs gs : List Line}
    (h : Guard π ρ t fin t' fs gs) : t ≤ t' := by
  cases h with
  | none => exact Nat.le_refl _
  | some hn => omega

theorem Counters.escapeAll_regions (left : List Frame) (c : Counters) :
    (c.escapeAll left).regions = c.regions := by
  induction left generalizing c with
  | nil => rfl
  | cons f left ih => exact ih _

theorem Counters.escapeAll_temps (left : List Frame) (c : Counters) :
    (c.escapeAll left).temps = c.temps := by
  induction left generalizing c with
  | nil => rfl
  | cons f left ih => exact ih _

theorem Counters.escapes_escape_of_ne {c : Counters} {r r' : Nat} (h : r' ≠ r) :
    (c.escape r).escapes r' = c.escapes r' :=
  Function.update_of_ne h _ _

theorem Counters.escapes_escape_self (c : Counters) (r : Nat) :
    (c.escape r).escapes r = c.escapes r + 1 :=
  Function.update_self _ _ _

theorem Counters.escapeAll_escapes_of_notMem {left : List Frame} {c : Counters} {r : Nat}
    (h : ∀ f ∈ left, f.region ≠ r) : (c.escapeAll left).escapes r = c.escapes r := by
  induction left generalizing c with
  | nil => rfl
  | cons f left ih =>
    rw [escapeAll, ih fun g hg => h g (List.mem_cons_of_mem _ hg),
      escapes_escape_of_ne (h f List.mem_cons_self).symm]

theorem Laid.regions_le (h : Laid L body ρ c ls ts c') : c.regions ≤ c'.regions := by
  induction h with
  | nil | leaf | mark | leave | raise => exact Nat.le_refl _
  | seq _ _ iha ihb | choice _ _ _ iha ihb | choiceBack _ _ _ iha ihb => exact Nat.le_trans iha ihb
  | jump => exact Nat.le_of_eq (Counters.escapeAll_regions _ _).symm
  | region _ _ _ _ _ _ _ _ ihb iha ihf =>
    simp only at ihb ihf
    omega

theorem Laid.temps_le (h : Laid L body ρ c ls ts c') : c.temps ≤ c'.temps := by
  induction h with
  | nil | leaf | mark | leave | raise => exact Nat.le_refl _
  | seq _ _ iha ihb | choice _ _ _ iha ihb | choiceBack _ _ _ iha ihb => exact Nat.le_trans iha ihb
  | jump => exact Nat.le_of_eq (Counters.escapeAll_temps _ _).symm
  | region _ _ _ _ _ _ hg _ ihb iha ihf =>
    have := hg.le
    simp only at ihb ihf
    omega

/-- Regions further in have higher numbers, and all of them were given out. -/
structure Ordered (ρ : List Frame) (c : Counters) : Prop where
  pairwise : ρ.Pairwise fun f g => g.region < f.region
  lt : ∀ f ∈ ρ, f.region < c.regions

theorem Ordered.mono (ho : Ordered ρ c) (h : c.regions ≤ c'.regions) : Ordered ρ c' :=
  ⟨ho.pairwise, fun f hf => Nat.lt_of_lt_of_le (ho.lt f hf) h⟩

theorem Ordered.cons {f : Frame} (ho : Ordered ρ c) (hf : f.region = c.regions)
    (h : c.regions < c'.regions) : Ordered (f :: ρ) c' := by
  constructor
  · rw [List.pairwise_cons]
    exact ⟨fun g hg => hf ▸ ho.lt g hg, ho.pairwise⟩
  · intro g hg
    rcases List.mem_cons.mp hg with rfl | hg
    · rw [hf]
      exact h
    · exact Nat.lt_trans (ho.lt g hg) h

/-- The frames that the parts of a region have around them are ordered. -/
theorem Ordered.region {id : UInt32} {π : Path} {c₁ c₂ : Counters} {bs as : List Line}
    {us : List Tag} (ho : Ordered ρ c)
    (hb : Laid L body (⟨c.regions, id, .inTry, π⟩ :: ρ) { c with regions := c.regions + 1 } bs ts
      c₁)
    (ha : Laid L body (⟨c.regions, id, .inCatch, π⟩ :: ρ) c₁ as us c₂) :
    Ordered (⟨c.regions, id, .inTry, π⟩ :: ρ) { c with regions := c.regions + 1 } ∧
      Ordered (⟨c.regions, id, .inCatch, π⟩ :: ρ) c₁ ∧
      ∀ t, Ordered (⟨c.regions, id, .inFinally, π⟩ :: ρ) { c₂ with temps := t } := by
  have h₁ := hb.regions_le
  have h₂ := ha.regions_le
  simp only at h₁
  exact ⟨ho.cons rfl (Nat.lt_succ_self _), ho.cons rfl (by omega),
    fun t => ho.cons rfl (by simp only; omega)⟩

/-- A region that is complete gets no more jumps. -/
theorem Laid.escapes_eq (h : Laid L body ρ c ls ts c') {r : Nat} (hr : r < c.regions)
    (hρ : ∀ f ∈ ρ, f.region ≠ r) : c'.escapes r = c.escapes r := by
  induction h with
  | nil | leaf | mark | leave | raise => rfl
  | seq ha _ iha ihb | choice _ ha _ iha ihb | choiceBack _ ha _ iha ihb =>
    rw [ihb (Nat.lt_of_lt_of_le hr ha.regions_le) hρ, iha hr hρ]
  | jump _ _ _ _ hs =>
    refine Counters.escapeAll_escapes_of_notMem fun f hf => hρ f ?_
    rw [hs.eq]
    exact List.mem_append_left _ hf
  | region _ _ _ hb ha _ _ _ ihb iha ihf =>
    have h₁ := hb.regions_le
    have h₂ := ha.regions_le
    simp only at h₁
    have hne := (Nat.ne_of_lt hr).symm
    rw [ihf (by simp only; omega) (List.forall_mem_cons.mpr ⟨hne, hρ⟩),
      iha (by omega) (List.forall_mem_cons.mpr ⟨hne, hρ⟩),
      ihb (by simp only; omega) (List.forall_mem_cons.mpr ⟨hne, hρ⟩)]

end

end Unwind.Lowering
