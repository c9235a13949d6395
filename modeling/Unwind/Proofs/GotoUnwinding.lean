import Unwind.Proofs.Lowering.Escaping

/-!
# Jumps through finally blocks

A jump runs the finally block of each `try` statement that it leaves, the innermost first, and then
arrives at its label. `Unwinds` tells this as the course of a run: between the finally blocks there
is only code of the jump and of the `try` statements that it leaves, and each finally block is run
from its first instruction. When it comes to its end, the jump goes on; when it raises, the
exception goes to the handler around its `try` statement.
-/

namespace Unwind.Lowering

open Source (CatchClause Expr Hop MethodDef Path Stmt TypeDef)
open Machine (Along Config Data Instr Reaches World flatten isGenerated step)

/-- From `c` on, the exception that is pending is propagated from the `try` statement at `τ`. -/
def Propagates (w : World) (L : Layout) (body : Stmt) (lines : List Line) (label : String)
    (τ : Path) (c : Config) : Prop :=
  c.data.memory.exception ≠ none ∧ ∃ ρ ks, Framed body τ ρ ∧
    raise τ ρ (propagation L.env ρ) ++ ks <:+ lines ∧
    Along w (instrs lines) (Passing lines [τ] label) c
      ⟨instrs (raise τ ρ (propagation L.env ρ) ++ ks), c.data⟩

/-- From `c` on, the `try` statements are left one after the other, each through its finally block,
on the way to the label. The code of the statements `owners` stands between the finally blocks. -/
inductive Unwinds (w : World) (L : Layout) (body : Stmt) (lines : List Line) (owners : List Path)
    (label : String) : List Path → Config → Prop where
  /-- All of them are left, and control arrives at the label. -/
  | arrives {c : Config} {is : List Instr} {d : Data} :
      Along w (instrs lines) (Passing lines owners label) c ⟨.label label :: is, d⟩ →
      d.memory.exception = none → Unwinds w L body lines owners label [] c
  /-- A `try` statement without finally block. -/
  | passes {τ : Path} {τs : List Path} {id : UInt32} {span : Span} {b : Stmt}
      {cs : List CatchClause} {c : Config} :
      body.at? τ = some ⟨id, span, .tryCatch b cs none⟩ →
      Unwinds w L body lines owners label τs c → Unwinds w L body lines owners label (τ :: τs) c
  /-- The finally block is run. It comes to its end, or raises; only in the first case the next
  `try` statement is left. -/
  | runs {τ : Path} {τs : List Path} {id : UInt32} {span : Span} {b fin : Stmt}
      {cs : List CatchClause} {ρ : List Frame} {n n' : Counters} {fs ks : List Line} {c : Config}
      {d : Data} :
      body.at? τ = some ⟨id, span, .tryCatch b cs (some fin)⟩ →
      Listing L (.stmt fin) (τ ++ [.finalizer]) ρ n fs n' → fs ++ ks <:+ lines →
      (∀ ℓ ∈ fs, ℓ.owner ∉ owners ∧ ℓ.instr ≠ .label label) →
      Along w (instrs lines) (Passing lines owners label) c ⟨instrs (fs ++ ks), d⟩ →
      d.memory.exception = none →
      (∀ c', Along w (instrs lines) (InCode fs ks) ⟨instrs (fs ++ ks), d⟩ c' →
        InCode fs ks c' ∨ c'.rest = instrs ks ∨ Propagates w L body lines label τ c') →
      (∀ c', Along w (instrs lines) (InCode fs ks) ⟨instrs (fs ++ ks), d⟩ c' →
        c'.rest = instrs ks → Unwinds w L body lines owners label τs c') →
      Unwinds w L body lines owners label (τ :: τs) c

section

variable {w : World} {L : Layout} {body : Stmt} {lines ks more : List Line} {owners : List Path}
  {label : String} {π : Path} {τs : List Path} {ρ ρ' : List Frame} {f : Frame} {jumps k : Nat}
  {c c' : Config} {d : Data}

/-- Before the first `try` statement is left, code of the jump may be run. -/
theorem Unwinds.head (h : Along w (instrs lines) (Passing lines owners label) c c')
    (hu : Unwinds w L body lines owners label τs c') :
    Unwinds w L body lines owners label τs c := by
  induction hu with
  | arrives hal hd => exact .arrives (h.trans hal) hd
  | passes hat _ ih => exact .passes hat (ih h)
  | runs hat hl hs hn hal hd hconf hends => exact .runs hat hl hs hn (h.trans hal) hd hconf hends

/-! ## Leaving one region -/

/-- The code of a region from the label of its finally block on. -/
theorem RegionIn.from_finalizer (h : RegionIn L body lines f ρ jumps) :
    ∃ span b cs fin gs rest ks, body.at? f.place = some ⟨f.node, span, .tryCatch b cs fin⟩ ∧
      Framed body f.place ρ ∧
      FinallyCode L body f.place (⟨f.region, f.node, .inFinally, f.place⟩ :: ρ) fin gs ∧
      own f.place ρ [.label (Tag.finalizer f.region).name] ++
        (gs ++ (resumeLines f.place ρ f.region jumps ++ rest)) <:+ lines ∧
      rest = own f.place ρ [.label (Tag.behind f.region).name] ++
        (checkLines L.env f.place ρ ++ ks) := by
  obtain ⟨span, b, cs, fin, bs, as, gs, hat, hfr, hcode, xs, ys, hlines⟩ := h
  refine ⟨span, b, cs, fin, gs, _, ys, hat, hfr, hcode, ?_, rfl⟩
  rw [← hlines, regionLines]
  simp only [List.append_assoc]
  iterate 6 refine List.IsSuffix.trans ?_ (List.suffix_append _ _)
  exact List.suffix_refl _

/-- A region around a line of the body; its tests know every jump that leaves it. -/
theorem RegularCode.region (h : RegularCode L body lines) {ℓ : Line} (hℓ : ℓ ∈ lines)
    (hf : f :: ρ <:+ ℓ.frames) :
    ∃ jumps, RegionIn L body lines f ρ jumps ∧
      ∀ k, (Tag.resume f.region k).name ∈ labelsOf lines → k < jumps := by
  obtain ⟨ts, n, hl, hts⟩ := h.listing.laid h.oneDefault h.names
  rcases hl.region_of_frame (ordered_nil _) hℓ hf with hnil | ⟨⟨hin, -⟩, -⟩
  · exact absurd (List.suffix_nil.mp hnil) (List.cons_ne_nil _ _)
  · refine ⟨_, hin, fun k hk => ?_⟩
    rw [← List.count_pos_iff, hl.count_labels, List.count_pos_iff] at hk
    obtain ⟨t, ht, hname⟩ := List.mem_map.mp hk
    obtain rfl : t = .resume f.region k :=
      Tag.name_inj (hts.proper h.label_source t ht) trivial hname
    have hcount := hl.count_tags (t := .resume f.region k) rfl
    have hpos := List.count_pos_iff.mpr ht
    by_contra hlt
    have hhas : n.has (.resume f.region k) = false := decide_eq_false hlt
    rw [hhas, Bool.toNat_false] at hcount
    omega

/-- A finally block does not hold a label that is no label of its `try` statement. -/
theorem Laid.label_ne {n n' : Counters} {fs : List Line} {vs : List Tag}
    (hl : Laid L body ρ n fs vs n') {s : Stmt} (hvs : Counts vs s.labels)
    (hlabel : label ∉ s.labels) (hn : isGenerated label = false) {ℓ : Line} (hℓ : ℓ ∈ fs) :
    ℓ.instr ≠ .label label := by
  intro hi
  have hmem := mem_labelsOf hℓ hi
  rw [← List.count_pos_iff, hl.count_labels, List.count_pos_iff] at hmem
  obtain ⟨t, ht, rfl⟩ := List.mem_map.mp hmem
  cases hs : t.isSource with
  | false =>
    rw [Tag.isGenerated_of_not_isSource hs] at hn
    cases hn
  | true =>
    cases t with
    | source l =>
      rw [← List.count_pos_iff, hvs l, List.count_pos_iff] at ht
      exact hlabel ht
    | _ => cases hs

/-- A jump leaves one region, and goes on where the tests at the end of the region lead to. -/
theorem RegularCode.unwinds_region (h : RegularCode L body lines)
    (hsize : (instrs lines).length < 2 ^ 63) (hn : isGenerated label = false)
    (hπ : π ∈ owners) (hτ : f.place ∈ owners) (hregion : RegionIn L body lines f ρ' jumps)
    (hk : k < jumps) (hlabel : ∀ s, body.at? f.place = some s → label ∉ s.labels)
    (hapart : ∀ σ ∈ owners, ¬ f.place ++ [.finalizer] <+: σ)
    (hs : own π ρ [.set labelVar (.int (Int64.ofNat k)), .goto (Tag.finalizer f.region).name] ++
      (own π ρ' [.label (Tag.resume f.region k).name] ++ more) <:+ lines)
    (hc : c.rest = instrs (own π ρ [.set labelVar (.int (Int64.ofNat k)),
      .goto (Tag.finalizer f.region).name] ++
        (own π ρ' [.label (Tag.resume f.region k).name] ++ more)))
    (hd : c.data.memory.exception = none)
    (hfit : ∀ c', Reaches w (instrs lines) c c' → Fitting lines c')
    (hnext : ∀ d, d.memory.exception = none → Reaches w (instrs lines) c ⟨instrs more, d⟩ →
      Unwinds w L body lines owners label τs ⟨instrs more, d⟩) :
    Unwinds w L body lines owners label (f.place :: τs) c := by
  obtain ⟨span, b, cs, fin, gs, rest, ks, hat, hfr, hcode, hfin, hrest⟩ := hregion.from_finalizer
  have hnd := h.sealed.nodup
  have hresume := (List.suffix_append _ _).trans hs
  have hfinally := (List.suffix_append _ _).trans hfin
  have hend := (List.suffix_append _ _).trans hfinally
  let v : Machine.Value := .int (Int64.ofNat k)
  have henter : Along w (instrs lines) (Passing lines owners label) c
      ⟨instrs (gs ++ (resumeLines f.place ρ' f.region jumps ++ rest)),
        c.data.set w labelVar v⟩ := by
    obtain ⟨is, d⟩ := c
    obtain rfl : is = _ := hc
    exact along_enter hnd hn hπ hτ hs hfin
  have hne : labelVar ≠ Ir.exceptionVar := (Machine.isOwn_name (v := .label) rfl).1
  have hexc : (c.data.set w labelVar v).memory.exception = none := by
    rw [Data.exception_set hne, hd]
  -- behind the finally block
  have hback : ∀ {c₁ : Config} {d : Data}, Reaches w (instrs lines) c c₁ →
      Along w (instrs lines) (Passing lines owners label) c₁
        ⟨instrs (resumeLines f.place ρ' f.region jumps ++ rest), d⟩ →
      d.memory.exception = none → d.locals labelVar = v →
      Unwinds w L body lines owners label τs c₁ := by
    intro c₁ d hr hal hd' hv
    have hal' := hal.trans (along_resume hnd hn hτ hπ hsize hk hend hresume hv)
    exact (hnext d hd' (hr.trans hal'.reaches)).head hal'
  cases hcode with
  | none => exact .passes hat (hback .refl henter hexc (locals_setLabel _))
  | @some fin n fs n₁ n₂ vs hl ho htemps hcounts hlist =>
    obtain ⟨d₁, hsave, hd₁, hsexc, hslab⟩ :=
      along_save label w (c.data.set w labelVar v) hτ hfinally
    rw [hexc] at hsexc
    rw [locals_setLabel] at hslab
    rw [finallyLines_append] at hfinally
    have hfs := (List.suffix_append _ _).trans hfinally
    have hrestoring := (List.suffix_append _ _).trans hfs
    have hstart := henter.trans hsave
    have hjumps : ∀ ℓ l, Jumps L body (⟨f.region, f.node, .inFinally, f.place⟩ :: ρ') ℓ l →
        ∃ m ∈ fs, m.instr = .label l := fun ℓ l hj =>
      hl.exists_label hcounts (hj.label_in_finally h.tries h.scopes h.regular rfl hat)
    have hfit' := fun c' hr => hfit c' (hstart.reaches.trans hr)
    have hconf : ∀ c', Along w (instrs lines) (InCode fs _) ⟨instrs (fs ++ _), d₁⟩ c' →
        Confined ⟨f.region, f.node, .inFinally, f.place⟩ fs _ c' ∧ Keeps n₁ d₁ c'.data :=
      fun _ hal => hl.confined ho rfl hfs hnd h.writes_source hjumps hfit' hal
    refine .runs hat hlist hfs (fun ℓ hℓ => ⟨fun hmem => ?_, ?_⟩) hstart hd₁ (fun c' hal => ?_)
      fun c' hal hc' => ?_
    · exact hapart _ hmem ((hlist.owner_prefix ℓ hℓ).resolve_left List.not_mem_nil)
    · refine hl.label_ne hcounts (fun hmem => hlabel _ hat ?_) hn hℓ
      have hfinat : body.at? (f.place ++ [Hop.finalizer]) = some fin := Stmt.at?_concat hat _
      obtain ⟨σ, -, hσ⟩ := Stmt.at?_of_prefix hat hfinat (List.prefix_append _ _)
      exact (Stmt.holds_at hσ).labels.subset hmem
    · rcases (hconf c' hal).1 with hin | hr | ⟨hr, hraised⟩
      · exact .inl hin
      · exact .inr (.inl hr)
      · -- the exception goes to the handler around the region
        obtain ⟨is, d'⟩ := c'
        obtain rfl : is = _ := hr
        have hbehind := (hfit' _ hal.reaches).suffix
        rw [hrest] at hend
        obtain ⟨ms, hms, hprop⟩ := along_propagate hnd hn (List.mem_singleton_self f.place)
          ((List.suffix_append _ _).trans hend) hbehind hraised
        exact .inr (.inr ⟨hraised, ρ', ms, hfr, hms, hprop⟩)
    · obtain ⟨is, d'⟩ := c'
      obtain rfl : is = _ := hc'
      have hkeeps := (hconf _ hal).2
      have hsexc' := hkeeps (.savedExc n) (Nat.lt_of_succ_lt htemps)
      have hslab' := hkeeps (.savedLabel (n + 1)) htemps
      obtain ⟨d₂, hrestore, hd₂, hlab⟩ := along_restore hτ hrestoring
        (hsexc'.trans hsexc) (hslab'.trans hslab)
      exact hback (hstart.reaches.trans hal.reaches) hrestore hd₂ hlab

/-! ## Whole jumps -/

/-- The `try` statements around a place are above it. -/
theorem Framed.place_prefix (h : Framed body π ρ) (hf : f ∈ ρ) : f.place <+: π := by
  obtain ⟨ρ', hsuf⟩ := suffix_of_mem hf
  obtain ⟨-, ⟨hop, -, hpre⟩, -⟩ := h.of_suffix hsuf
  exact (List.prefix_append _ _).trans hpre

/-- A jump does not stand in the finally block of a `try` statement that it leaves. -/
theorem Splits.not_finalizer_prefix {scopes : LabelScopes} {left kept : List Frame}
    (h : Splits scopes label ρ left kept) (hfr : Framed body π ρ) (hf : f ∈ left) {σ : Path}
    (hσ : σ <+: π) : ¬ f.place ++ [.finalizer] <+: σ := by
  intro hfin
  obtain ⟨ρ', hsuf⟩ := suffix_of_mem (h.eq ▸ List.mem_append_left kept hf)
  obtain ⟨-, ⟨hop, hphase, hpre⟩, -⟩ := hfr.of_suffix hsuf
  have heq : f.place ++ [hop] = f.place ++ [Hop.finalizer] :=
    (List.prefix_of_prefix_length_le hpre (hfin.trans hσ) (by simp)).eq_of_length (by simp)
  obtain rfl : hop = .finalizer := by simpa using heq
  exact h.leaving f hf (Option.some.inj hphase).symm

/-- A jump leaves its regions and arrives at its label. -/
theorem RegularCode.unwinds_escapes (h : RegularCode L body lines)
    (hsize : (instrs lines).length < 2 ^ 63) (hn : isGenerated label = false) (hπ : π ∈ owners)
    {left kept : List Frame} {n : Counters} (howners : ∀ f ∈ left, f.place ∈ owners)
    (hapart : ∀ f ∈ left, ∀ σ ∈ owners, ¬ f.place ++ [.finalizer] <+: σ)
    (hlabels : ∀ f ∈ left, ∀ s, body.at? f.place = some s → label ∉ s.labels)
    (hs : escapeLines π kept left n ++ (own π kept [.goto label] ++ more) <:+ lines)
    (hc : c.rest = instrs (escapeLines π kept left n ++ (own π kept [.goto label] ++ more)))
    (hd : c.data.memory.exception = none)
    (hfit : ∀ c', Reaches w (instrs lines) c c' → Fitting lines c') :
    Unwinds w L body lines owners label (left.map Frame.place) c := by
  induction left generalizing n c with
  | nil =>
    have hmem : (⟨.goto label, π, kept, false⟩ : Line) ∈ lines := hs.subset List.mem_cons_self
    obtain ⟨m, hm, hml, -⟩ := h.sealed.lands _ hmem label rfl
    obtain ⟨ms, -, hland⟩ := landing_instrs h.sealed.nodup hm hml
    obtain ⟨is, d⟩ := c
    obtain rfl : is = .goto label :: instrs more := hc
    have hstep : step w (instrs lines) ⟨.goto label :: instrs more, d⟩ =
        some ⟨.label label :: instrs ms, d⟩ := by
      show (Machine.landing label (instrs lines)).map _ = _
      rw [hland, ← hml]
      rfl
    exact .arrives (.head hstep ⟨_, _, ⟨hs, rfl⟩, hπ, nofun⟩ .refl) hd
  | cons f left ih =>
    rw [escapeLines, List.append_assoc, List.append_assoc] at hs hc
    have hmem : (⟨.set labelVar (.int (Int64.ofNat (n.escapes f.region))), π, f :: (left ++ kept),
        false⟩ : Line) ∈ lines := hs.subset List.mem_cons_self
    obtain ⟨jumps, hregion, hjumps⟩ := h.region hmem (List.suffix_refl _)
    have hresume := (List.suffix_append _ _).trans hs
    have hk := hjumps _ (mem_labelsOf (hresume.subset List.mem_cons_self) rfl)
    have hnext := (List.suffix_append _ _).trans hresume
    refine h.unwinds_region hsize hn hπ (howners f List.mem_cons_self) hregion hk
      (hlabels f List.mem_cons_self) (hapart f List.mem_cons_self) hs hc hd hfit
      fun d hd' hr => ?_
    exact ih (fun g hg => howners g (List.mem_cons_of_mem _ hg))
      (fun g hg => hapart g (List.mem_cons_of_mem _ hg))
      (fun g hg => hlabels g (List.mem_cons_of_mem _ hg)) hnext rfl hd' fun c' hr' =>
        hfit c' (hr.trans hr')

/-- The jump of a `goto` statement, from the code of the statement on. -/
theorem RegularCode.unwinds (h : RegularCode L body lines)
    (hsize : (instrs lines).length < 2 ^ 63) {goto : Stmt} {n n' : Counters} {ls : List Line}
    (hfr : Framed body π ρ) (htarget : goto.target? = some label)
    (hl : Listing L (.stmt goto) π ρ n ls n') (hs : ls ++ more <:+ lines)
    (hc : c.rest = instrs (ls ++ more)) (hd : c.data.memory.exception = none)
    (hfit : ∀ c', Reaches w (instrs lines) c c' → Fitting lines c') :
    Unwinds w L body lines (π :: body.triesLeft π label) label (body.triesLeft π label) c := by
  obtain ⟨left, kept, ms, hms, hsplit, rfl⟩ := hl.goto_inv htarget
  have hn : isGenerated label = false := by
    refine h.label_source label ?_
    rw [← h.names]
    exact hsplit.mem_scopes
  rw [h.scopes] at hsplit
  have hplaces := hsplit.map_place h.labels h.tries hfr
  rw [List.append_assoc, List.append_assoc] at hs hc
  have hmarks : Along w (instrs lines) (Passing lines (π :: body.triesLeft π label) label) c
      ⟨instrs (escapeLines π kept left n ++ (own π kept [.goto label] ++ more)), c.data⟩ := by
    obtain ⟨is, d⟩ := c
    obtain rfl : is = _ := hc
    exact along_marks List.mem_cons_self (fun ℓ hℓ => (hms.1.mem hℓ).2)
      (plain_quiet hms Marks.emitMarks) hs
  have hescapes := (List.suffix_append _ _).trans hs
  have hfit' := fun c' hr => hfit c' (hmarks.reaches.trans hr)
  rw [← hplaces] at hmarks ⊢
  refine .head hmarks (h.unwinds_escapes hsize hn List.mem_cons_self (fun f hf => ?_)
    (fun f hf σ hσ => hsplit.not_finalizer_prefix hfr hf ?_)
    (fun f hf s hat => hsplit.notMem_labels h.labels h.tries hfr hf hat) hescapes rfl hd hfit')
  · exact List.mem_cons_of_mem _ (List.mem_map_of_mem hf)
  · rcases List.mem_cons.mp hσ with rfl | hσ
    · exact List.prefix_refl _
    · obtain ⟨g, hg, rfl⟩ := List.mem_map.mp hσ
      exact hfr.place_prefix (hsplit.eq ▸ List.mem_append_left _ hg)

end

/-- Take a lowered method that models exceptions, no label and no variable written in which looks
generated, with one default case per switch at most and regular jumps. The code of every `goto`
statement is one piece of the code of the body. A run in which no null reference is thrown and that
comes to this piece with no exception pending goes through the finally blocks of the `try`
statements that do not hold the label, the innermost first, and arrives at the label with no
exception pending; unless a finally block raises, or does not come to its end. (Jumps are numbered
by 64-bit integers, which tell those of a procedure in memory apart.) -/
theorem lowerMethod_goto_unwinds {env : Env} {owner : TypeDef} {m : MethodDef} {body : Stmt}
    {p : Ir.Procedure} {shared shared' : Shared} {cmds : List Ir.Cmd}
    (hm : env.options.modelExceptions ≠ 0)
    (h : (lowerMethod env owner m).run shared = (.ok p, shared')) (hbody : m.body = some body)
    (hcmds : p.body = some cmds)
    (hnames : ∀ x ∈ body.assigned ++ body.labels, isGenerated x = false)
    (hone : body.oneDefault = true) (hreg : body.Regular)
    (hsize : (flatten cmds).length < 2 ^ 63) :
    ∃ L lines, L.env = env ∧ LabelScopes.collect body = .ok L.scopes ∧ BodyListing L body lines ∧
      flatten cmds = instrs lines ∧
      ∀ π goto label, body.at? π = some goto → goto.target? = some label →
        ∃ ρ n ls n' ks, Framed body π ρ ∧ Listing L (.stmt goto) π ρ n ls n' ∧ ls ++ ks <:+ lines ∧
          ∀ (w : World) (d₀ d : Data), ThrowsObjects w body lines ⟨flatten cmds, d₀⟩ →
            Reaches w (flatten cmds) ⟨flatten cmds, d₀⟩ ⟨instrs (ls ++ ks), d⟩ →
            d.memory.exception = none →
            Unwinds w L body lines (π :: body.triesLeft π label) label (body.triesLeft π label)
              ⟨instrs (ls ++ ks), d⟩ := by
  have hm' : env.options.modelsExceptions = true := bne_iff_ne.mpr hm
  obtain ⟨scopes, hsc, hlist⟩ := lowerMethod_listed hm' hbody h
  obtain ⟨lines, hlines, cmds', hp, hf⟩ := hlist (· ∈ body.assigned) fun _ hx => hx
  obtain ⟨⟨hlabels, htries⟩, rfl⟩ := LabelScopes.collect_eq_ok.mp hsc
  obtain rfl : cmds = cmds' := Option.some.inj (hcmds.symm.trans hp)
  have hcode : RegularCode ⟨env, ⟨body.scoped none, body.tries⟩, (· ∈ body.assigned)⟩ body lines :=
    ⟨hlines, hone, hlabels, htries, rfl, fun l hl => hnames l (List.mem_append_right _ hl),
      fun x hx => hnames x (List.mem_append_left _ hx), hreg⟩
  refine ⟨_, lines, rfl, hsc, hlines, hf, fun π goto label hat htarget => ?_⟩
  obtain ⟨ρ, hfr, n, ls, n', hl, as, ks, hls⟩ :=
    hlines.at hat (Stmt.lowers_of_oneDefault hone hat)
  have hsuf : ls ++ ks <:+ lines := ⟨as, by rw [← hls, List.append_assoc]⟩
  refine ⟨ρ, n, ls, n', ks, hfr, hl, hsuf, fun w d₀ d hthrow hreach hd => ?_⟩
  rw [hf] at hsize hthrow hreach
  exact hcode.unwinds hsize hfr htarget hl hsuf rfl hd fun c' hr =>
    hcode.sealed.fits_of_reaches hcode.opens hthrow (hreach.trans hr)

/-! A jump out of two `try` statements. -/

/-- The instruction is no mark. -/
def isNoMark : Instr → Bool
  | .assert _ | .assume _ | .note => false
  | _ => true

/-- The statement throws. -/
def isThrow (s : Stmt) : Bool :=
  match s.kind with
  | .throw _ => true
  | _ => false

/-- The code of a jump that leaves two regions. -/
def leavesTwo : List Instr → Bool
  | .assign .. :: .goto _ :: .label _ :: .assign .. :: .goto _ :: .label _ :: .goto _ :: _ => true
  | _ => false

/-- The code of the procedure begins with such a jump, and there is no other one. -/
def startsLeaving (cmds : List Ir.Cmd) : Bool :=
  decide ((flatten cmds).length < 100) && (flatten cmds).all isNoMark &&
    (flatten cmds).tail.tails.all (!leavesTwo ·)

theorem Listing.leavesTwo {L : Layout} {π : Path} {ρ : List Frame} {n n' : Counters}
    {id : UInt32} {span : Span} {label : String} {body : Stmt} {ls ks : List Line}
    (hl : Listing L (.stmt ⟨id, span, .goto label⟩) π ρ n ls n') (hfr : Framed body π ρ)
    (hsc : LabelScopes.collect body = .ok L.scopes) (htwo : (body.triesLeft π label).length = 2)
    (hmarks : ∀ i ∈ instrs ls, isNoMark i = true) : leavesTwo (instrs (ls ++ ks)) = true := by
  obtain ⟨⟨hlabels, htries⟩, hscopes⟩ := LabelScopes.collect_eq_ok.mp hsc
  obtain ⟨left, kept, ms, hms, hsplit, rfl⟩ := hl.goto_inv rfl
  rw [hscopes] at hsplit
  rw [← hsplit.map_place hlabels htries hfr, List.length_map] at htwo
  obtain ⟨f, g, rfl⟩ := List.length_eq_two.mp htwo
  cases ms with
  | nil => rfl
  | cons ℓ ms =>
    have hq := plain_quiet hms Marks.emitMarks ℓ.instr (List.mem_map_of_mem List.mem_cons_self)
    have hno := hmarks ℓ.instr (List.mem_map_of_mem List.mem_cons_self)
    cases hi : ℓ.instr with
    | assert | assume | note =>
      rw [hi] at hno
      cases hno
    | _ =>
      rw [hi] at hq
      cases hq

/-- A call of a method without arguments. -/
def cleanup (name : String) : Stmt :=
  .expr (.ofCall (.direct ⟨⟨"T", none⟩, name, []⟩ none []) .void)

/-- A jump out of two `try` statements with finally blocks. -/
def closingBody : Stmt := .block
  [⟨1, {}, .tryCatch ⟨2, {}, .tryCatch (.goto "done") [] (some (cleanup "inner"))⟩ []
    (some (cleanup "outer"))⟩, .labeled "done" .empty]

def closingMethod : MethodDef where
  name := "close"
  body := some closingBody

/-- The method goes through both finally blocks, the inner one first. -/
theorem closingMethod_goto_unwinds :
    ∃ p shared' cmds L lines,
      (lowerMethod {} ⟨⟨"T", none⟩, .classType, [], [], [], [], []⟩ closingMethod).run {} =
        (.ok p, shared') ∧ p.body = some cmds ∧ flatten cmds = instrs lines ∧
      ∀ w d, d.memory.exception = none →
        Unwinds w L closingBody lines
          [[.item 0, .tryBody, .tryBody], [.item 0, .tryBody], [.item 0]] "done"
          [[.item 0, .tryBody], [.item 0]] ⟨flatten cmds, d⟩ := by
  have hrun : (((lowerMethod {} ⟨⟨"T", none⟩, .classType, [], [], [], [], []⟩
      closingMethod).run {}).1.toOption.bind (·.body)).any startsLeaving = true := by
    decide +kernel
  obtain ⟨p, shared', cmds, hrun, hp, hstarts⟩ := exists_commands hrun
  simp only [startsLeaving, Bool.and_eq_true, decide_eq_true_eq, List.all_eq_true,
    List.mem_tails, Bool.not_eq_true'] at hstarts
  obtain ⟨⟨hlen, hmarks⟩, htails⟩ := hstarts
  obtain ⟨L, lines, -, hsc, -, hlines, hjumps⟩ := lowerMethod_goto_unwinds (by decide) hrun rfl hp
    (by decide +kernel) (by decide +kernel) (by decide +kernel) (by omega)
  obtain ⟨ρ, n, ls, n', ks, hfr, hl, hsuf, hunwinds⟩ :=
    hjumps [.item 0, .tryBody, .tryBody] _ "done" rfl rfl
  have hsuf' : instrs (ls ++ ks) <:+ flatten cmds := by
    rw [hlines]
    exact hsuf.map Line.instr
  -- the jump is the first statement
  have hstart : instrs (ls ++ ks) = flatten cmds := by
    have hleaves : leavesTwo (instrs (ls ++ ks)) = true := by
      refine hl.leavesTwo hfr hsc (by decide +kernel) fun i hi => hmarks i (hsuf'.subset ?_)
      rw [instrs_append]
      exact List.mem_append_left _ hi
    cases hcmds : flatten cmds with
    | nil =>
      rw [hcmds, List.suffix_nil] at hsuf'
      rw [hsuf'] at hleaves
      cases hleaves
    | cons i is =>
      rw [hcmds] at hsuf' htails
      refine (List.suffix_cons_iff.mp hsuf').resolve_right fun htail => ?_
      rw [htails _ htail] at hleaves
      cases hleaves
  refine ⟨p, shared', cmds, L, lines, hrun, hp, hlines, fun w d hd => ?_⟩
  rw [hstart] at hunwinds
  refine hunwinds w d d (fun c _ ℓ _ _ id span e v hat _ => ?_) .refl hd
  have hno : ∀ q ∈ closingBody.places, isThrow q.2 = false := by decide +kernel
  cases hno _ (Stmt.mem_places hat)

end Unwind.Lowering
