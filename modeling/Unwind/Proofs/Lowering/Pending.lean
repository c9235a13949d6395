import Unwind.Proofs.Lowering.Kept
import Unwind.Proofs.Lowering.Landing
import Unwind.Proofs.Lowering.Links

/-!
# What is pending

Lines say what is there: where an exception is raised, one is pending, and in a catch part, one was
caught (`Fits`). A step keeps that, because lines are linked (`Link.fits`) and because jumps land
where no more is known (`Sealed.step`). So it holds in every run in which no null reference is
thrown (`Sealed.fits_of_reaches`).
-/

namespace Unwind.Lowering

open Source (Path Stmt)
open Machine (Config Data Instr Reaches Value World eval isGenerated isOwn labels step)

variable {L : Layout} {body : Stmt} {π : Path} {ρ : List Frame} {c c' : Counters}
  {as bs ls : List Line} {ℓ : Line}

/-! ## The variables of catch parts -/

/-- What a catch part has caught is stored at its head only. -/
def Takes (ls : List Line) : Prop :=
  ∀ ℓ ∈ ls, ∀ r, (Slot.caught r).name ∈ ℓ.instr.writes →
    ℓ.raising = true ∧ ℓ.instr = .set (Slot.caught r).name .exception

theorem takes_of_sparesAll (h : ∀ c, SparesAll c ls) : Takes ls := fun ℓ hℓ r hm =>
  absurd rfl (h ⟨r + 1, 0, fun _ => 0⟩ ℓ hℓ _ hm (.caught r) (Nat.lt_succ_self r))

theorem Takes.append (ha : Takes as) (hb : Takes bs) : Takes (as ++ bs) := by
  intro ℓ hℓ
  rcases List.mem_append.mp hℓ with hℓ | hℓ
  · exact ha ℓ hℓ
  · exact hb ℓ hℓ

theorem takes_own {is : List Instr} (h : ∀ i ∈ is, ∀ r, (Slot.caught r).name ∉ i.writes) :
    Takes (own π ρ is) := by
  intro ℓ hℓ r hm
  obtain ⟨i, hi, rfl⟩ := mem_own.mp hℓ
  exact absurd hm (h i hi r)

theorem Takes.choice {v : Ir.Expr} (ha : Takes as) (hb : Takes bs) :
    Takes (choice π ρ v as bs) :=
  .append (takes_own (by simp [Instr.writes]))
    (ha.append (.append (takes_own (by simp [Instr.writes])) hb))

theorem caught_ne_name {v : Slot} (hv : isOwn v = true) (hne : ∀ r, v ≠ .caught r) (r : Nat) :
    (Slot.caught r).name ≠ v.name := by
  have hcaught : (Slot.caught r).Proper := Machine.isOwn_proper rfl
  exact fun he => hne r (Slot.name_inj hcaught (Machine.isOwn_proper hv) he).symm

theorem caught_ne_exception (r : Nat) : (Slot.caught r).name ≠ Ir.exceptionVar :=
  (Machine.isOwn_name (v := .caught r) rfl).1

theorem takes_takeLines {f : Frame} : Takes (takeLines π f ρ) := by
  refine .append ?_ (takes_own ?_)
  · intro ℓ hℓ r hm
    simp only [mem_raise, List.mem_cons, List.not_mem_nil, or_false] at hℓ
    obtain ⟨i, rfl | rfl, rfl⟩ := hℓ
    · cases hm
    · rw [← List.mem_singleton.mp hm]
      exact ⟨rfl, rfl⟩
  · simp [Instr.writes, Instr.set, caught_ne_exception]

theorem Guard.takes {t t' : Nat} {fin : Option Stmt} {fs gs : List Line}
    (h : Guard π ρ t fin t' fs gs) (hf : Takes fs) : Takes gs := by
  cases h with
  | none => exact takes_of_sparesAll fun _ => sparesAll_nil
  | @some _ n _ _ =>
    have hexc := caught_ne_name (v := .savedExc n) rfl (by simp)
    have hlab := caught_ne_name (v := .savedLabel (n + 1)) rfl (by simp)
    have hvar : ∀ r, (Slot.caught r).name ≠ labelVar := caught_ne_name (v := .label) rfl (by simp)
    refine .append (takes_own ?_) (hf.append (takes_own ?_))
    · simp [Instr.writes, Instr.set, caught_ne_exception, hexc, hlab]
    · simp [Instr.writes, Instr.set, caught_ne_exception, hvar]

theorem Laid.takes {ts : List Tag} (hw : ∀ x, L.writes x → isGenerated x = false)
    (h : Laid L body ρ c ls ts c') : Takes ls := by
  induction h with
  | nil => exact takes_of_sparesAll fun _ => sparesAll_nil
  | leaf _ hl => exact takes_of_sparesAll fun _ => hl.sparesAll hw
  | seq _ _ iha ihb => exact iha.append ihb
  | choice _ _ _ iha ihb | choiceBack _ _ _ ihb iha => exact iha.choice ihb
  | mark => exact takes_own (by simp [Instr.writes])
  | jump _ _ hms =>
    exact .append (takes_of_sparesAll fun _ => hms.sparesAll hw)
      (.append (takes_of_sparesAll fun _ => sparesAll_escapeLines _ _ _)
        (takes_own (by simp [Instr.writes])))
  | leave => exact takes_of_sparesAll fun _ => sparesAll_leaveLines _
  | raise => exact takes_of_sparesAll fun _ => sparesAll_raiseLines _ _
  | region _ _ _ _ _ _ hg _ ihb iha ihf =>
    have hmark : ∀ {π : Path} {ρ : List Frame} l, Takes (own π ρ [.label l]) :=
      fun _ => takes_own (by simp [Instr.writes])
    refine ihb.append (.append (takes_of_sparesAll fun _ => sparesAll_leaveLines _) ?_)
    refine takes_takeLines.append (iha.append ?_)
    refine .append (takes_of_sparesAll fun _ => sparesAll_raiseLines _ _) ((hmark _).append ?_)
    refine (hg.takes ihf).append (.append ?_ ((hmark _).append ?_))
    · exact takes_of_sparesAll fun _ => sparesAll_resumeLines _ _
    · exact takes_of_sparesAll fun _ => sparesAll_checkLines _

/-! ## Runs -/

/-- Control is in front of these lines of a listing. -/
def Before (lines ls : List Line) (c : Config) : Prop := ls <:+ lines ∧ c.rest = instrs ls

/-- What is known at the line is there. -/
structure Fits (ℓ : Line) (d : Data) : Prop where
  pending : ℓ.raising = true → d.memory.exception ≠ none
  caught : ∀ f ∈ ℓ.frames, f.phase = .inCatch →
    ∃ o, d.locals (Slot.caught f.region).name = .ref (some o)

/-- A `throw` statement that raises at the line raises an object. -/
def ThrowsObject (w : World) (body : Stmt) (ℓ : Line) (d : Data) : Prop :=
  ∀ id span e v, body.at? ℓ.owner = some ⟨id, span, .throw e⟩ →
    ℓ.instr = .set Ir.exceptionVar v → ∃ o, eval w d v = .ref (some o)

section

variable {w : World} {prog rest : List Instr} {d : Data} {c₁ : Config}

theorem Opens.fits (h : Opens ρ ls) (hc : ∀ f ∈ ρ, f.phase = .inCatch →
    ∃ o, d.locals (Slot.caught f.region).name = .ref (some o)) : ∀ k ∈ ls.head?, Fits k d := by
  intro k hk
  refine ⟨fun hr => ?_, fun f hf hp => hc f (h.1 k hk f hf hp) hp⟩
  rw [h.2 k hk] at hr
  cases hr

theorem Around.fits (h : Around ρ ls) (hd : d.memory.exception ≠ none)
    (hc : ∀ f ∈ ρ, f.phase = .inCatch →
      ∃ o, d.locals (Slot.caught f.region).name = .ref (some o)) : ∀ k ∈ ls.head?, Fits k d :=
  fun k hk => ⟨fun _ => hd, fun f hf hp => hc f (h k hk f hf hp) hp⟩

/-- A calm instruction keeps the pending exception. -/
theorem exception_of_isCalm {i : Instr} (hi : isCalm i = true)
    (hs : step w prog ⟨i :: rest, d⟩ = some c₁) :
    c₁.data.memory.exception = d.memory.exception := by
  cases i with
  | assign lhs e =>
    cases lhs with
    | var x =>
      cases hs
      exact Data.exception_set (by simpa [isCalm] using hi) _
    | map => cases hi
  | label | note =>
    cases hs
    rfl
  | _ => cases hi

/-- Behind a line that goes on, what is known at the next one is there. -/
theorem Link.fits (h : Link body ℓ ls) (hfit : Fits ℓ d) (hthrow : ThrowsObject w body ℓ d)
    (htest : ∀ n, ℓ.instr = .branchUnless (.neq .exception .null) n → d.memory.exception ≠ none)
    (hs : step w prog ⟨ℓ.instr :: rest, d⟩ = some c₁)
    (hkept : ∀ f ∈ ℓ.frames, f.phase = .inCatch →
      ∃ o, c₁.data.locals (Slot.caught f.region).name = .ref (some o)) :
    ∀ k ∈ ls.head?, Fits k c₁.data := by
  cases h with
  | plain h => exact h.fits hkept
  | calm hr hi h =>
    refine h.fits ?_ hkept
    rw [exception_of_isCalm hi hs]
    exact hfit.pending hr
  | @take f hr hi h =>
    refine h.fits fun g hg hp => ?_
    rcases List.mem_cons.mp hg with rfl | hg
    · obtain ⟨o, ho⟩ := Option.ne_none_iff_exists'.mp (hfit.pending hr)
      rw [hi] at hs
      cases hs
      refine ⟨o, ?_⟩
      show (d.set w _ (d.get w Ir.exceptionVar)).locals _ = _
      rw [Data.locals_set_own rfl, Data.get_exception, ho]
    · exact hkept g hg hp
  | @test n hi h =>
    refine h.fits ?_ hkept
    have hd : c₁.data = d := by
      rw [hi] at hs
      cases hs
      rfl
    rw [hd]
    exact htest n hi
  | @raised v hi hv h =>
    have hobj : ∃ o, eval w d v = .ref (some o) := by
      cases hv with
      | thrown hat => exact hthrow _ _ _ _ hat hi
      | caught hr =>
        obtain ⟨f, hf, rfl⟩ := Option.map_eq_some_iff.mp hr
        obtain ⟨o, ho⟩ := hfit.caught f (List.mem_of_find?_eq_some hf)
          (by simpa using List.find?_some hf)
        refine ⟨o, ?_⟩
        show d.get w (Slot.caught f.region).name = _
        rw [Data.get_own (v := .caught f.region) rfl, ho]
    obtain ⟨o, ho⟩ := hobj
    refine h.fits ?_ hkept
    rw [hi] at hs
    cases hs
    show (d.set w Ir.exceptionVar (eval w d v)).memory.exception ≠ none
    rw [ho, Data.set_exception]
    exact nofun

/-- A step keeps what the catch parts around the line have caught. -/
theorem Fits.caught_step (hfit : Fits ℓ d)
    (htakes : ∀ r, (Slot.caught r).name ∈ ℓ.instr.writes →
      ℓ.raising = true ∧ ℓ.instr = .set (Slot.caught r).name .exception)
    (hs : step w prog ⟨ℓ.instr :: rest, d⟩ = some c₁) {f : Frame} (hf : f ∈ ℓ.frames)
    (hp : f.phase = .inCatch) :
    ∃ o, c₁.data.locals (Slot.caught f.region).name = .ref (some o) := by
  by_cases hw : (Slot.caught f.region).name ∈ ℓ.instr.writes
  · obtain ⟨hr, hi⟩ := htakes _ hw
    obtain ⟨o, ho⟩ := Option.ne_none_iff_exists'.mp (hfit.pending hr)
    rw [hi] at hs
    cases hs
    refine ⟨o, ?_⟩
    show (d.set w _ (d.get w Ir.exceptionVar)).locals _ = _
    rw [Data.locals_set_own rfl, Data.get_exception, ho]
  · rw [Machine.step_locals hs hw]
    exact hfit.caught f hf hp

end

/-- Code that runs on its own: its lines are linked, and every jump lands where no more is known
than at the jump. -/
structure Sealed (body : Stmt) (lines : List Line) : Prop where
  chained : Chained body [] lines
  takes : Takes lines
  nodup : (labelsOf lines).Nodup
  lands : ∀ ℓ ∈ lines, ∀ l, ℓ.instr = .goto l → Lands lines ℓ l

section

variable {w : World} {lines : List Line} {c₀ c₁ : Config}

/-- The code that is left tells the place. -/
theorem Before.unique (h : Before lines as c₀) (h' : Before lines bs c₀) : as = bs := by
  have hlen : as.length = bs.length := by
    rw [← length_instrs, ← length_instrs, ← h.2, ← h'.2]
  exact List.IsSuffix.eq_of_length (List.suffix_of_suffix_length_le h.1 h'.1 hlen.le) hlen

/-- A label stands in one place. -/
theorem landing_instrs (hnd : (labelsOf lines).Nodup) {k : Line} (hk : k ∈ lines) {l : String}
    (hl : k.instr = .label l) :
    ∃ ls, k :: ls <:+ lines ∧ Machine.landing l (instrs lines) = some (instrs (k :: ls)) := by
  obtain ⟨as, bs, rfl⟩ := List.append_of_mem hk
  refine ⟨bs, List.suffix_append _ _, ?_⟩
  have hsuf : .label l :: instrs bs <:+ instrs (as ++ k :: bs) := by
    rw [← hl]
    exact (List.suffix_append as (k :: bs)).map Line.instr
  rw [Machine.landing_of_suffix hnd hsuf, ← hl]
  rfl

/-- Control is at a line at which everything that is known is there, or at the end. -/
def Fitting (lines : List Line) (c : Config) : Prop :=
  ∃ ks, Before lines ks c ∧ ∀ k ∈ ks.head?, Fits k c.data

theorem Fitting.suffix (h : Fitting lines c₀) : c₀.rest <:+ instrs lines := by
  obtain ⟨ks, ⟨hks, hr⟩, -⟩ := h
  rw [hr]
  exact hks.map Line.instr

theorem Fitting.fits (h : Fitting lines c₀) (hb : Before lines (ℓ :: ls) c₀) : Fits ℓ c₀.data := by
  obtain ⟨ks, hb', hfits⟩ := h
  obtain rfl := hb'.unique hb
  exact hfits ℓ rfl

theorem Sealed.step (h : Sealed body lines) (hb : Before lines (ℓ :: ls) c₀)
    (hfit : Fits ℓ c₀.data) (hthrow : ThrowsObject w body ℓ c₀.data)
    (hs : step w (instrs lines) c₀ = some c₁) : Fitting lines c₁ := by
  obtain ⟨hsuf, hrest⟩ := hb
  obtain ⟨is, d⟩ := c₀
  obtain rfl : is = ℓ.instr :: instrs ls := hrest
  have hmem : ℓ ∈ lines := hsuf.subset List.mem_cons_self
  obtain ⟨⟨hnext, hover⟩, -⟩ := h.chained.linked hsuf
  rw [List.append_nil] at hnext hover
  have hkept := fun f hf hp => hfit.caught_step (h.takes ℓ hmem) hs (f := f) hf hp
  have htail : ls <:+ lines := (List.suffix_cons _ _).trans hsuf
  rcases Machine.step_cases hs with ⟨hg, hr, hbranch⟩ | ⟨n, hn, hr, -⟩ | ⟨l, hi, hland, hd⟩
  · refine ⟨ls, ⟨htail, hr⟩, (hnext hg).fits hfit hthrow (fun n hn he => ?_) hs hkept⟩
    have hholds := (hbranch _ _ hn).1
    rw [Machine.holds_pending_none he] at hholds
    cases hholds
  · refine ⟨ls.drop n, ⟨(List.drop_suffix _ _).trans htail, ?_⟩, (hover n hn).fits hkept⟩
    rw [hr, instrs, instrs, List.map_drop]
  · obtain ⟨k, hk, hkl, hleads⟩ := h.lands ℓ hmem l hi
    obtain ⟨ks, hks, hks'⟩ := landing_instrs h.nodup hk hkl
    refine ⟨k :: ks, ⟨hks, (Option.some.inj (hks'.symm.trans hland)).symm⟩, ?_⟩
    rintro _ ⟨⟩
    rw [hd]
    exact ⟨fun hr => hfit.pending (hleads.2 hr),
      fun f hf hp => hfit.caught f (hleads.1 f hf hp) hp⟩

/-- No `throw` statement raises a null reference in the run from `c₀` on. -/
def ThrowsObjects (w : World) (body : Stmt) (lines : List Line) (c₀ : Config) : Prop :=
  ∀ c, Reaches w (instrs lines) c₀ c → ∀ ℓ ls, Before lines (ℓ :: ls) c →
    ThrowsObject w body ℓ c.data

/-- What is known at a line is there whenever control comes to the line. -/
theorem Sealed.fits_of_reaches (h : Sealed body lines) (hopens : Opens [] lines) {d : Data}
    (hthrow : ThrowsObjects w body lines ⟨instrs lines, d⟩)
    (hr : Reaches w (instrs lines) ⟨instrs lines, d⟩ c₁) : Fitting lines c₁ := by
  induction hr with
  | refl => exact ⟨lines, ⟨List.suffix_refl _, rfl⟩, hopens.fits nofun⟩
  | @tail c c' hr hs ih =>
    obtain ⟨ks, hb, hfits⟩ := ih
    cases ks with
    | nil =>
      obtain ⟨is, d'⟩ := c
      obtain rfl : is = [] := hb.2
      cases hs
    | cons k ks => exact h.step hb (hfits k rfl) (hthrow c hr k ks hb) hs

/-- The code of a body with regular jumps, in which no label and no variable that is written looks
generated. -/
structure RegularCode (L : Layout) (body : Stmt) (lines : List Line) : Prop where
  listing : BodyListing L body lines
  oneDefault : body.oneDefault = true
  labels : body.labels.Nodup
  tries : body.tries.Nodup
  scopes : L.scopes = ⟨body.scoped none, body.tries⟩
  label_source : ∀ l ∈ body.labels, isGenerated l = false
  writes_source : ∀ x, L.writes x → isGenerated x = false
  regular : body.Regular

theorem RegularCode.names (h : RegularCode L body lines) :
    L.scopes.labels.map Prod.fst = body.labels := by
  rw [h.scopes]
  exact Source.map_fst_scoped body none

/-- The code of a body with regular jumps runs on its own. -/
theorem RegularCode.sealed (h : RegularCode L body lines) : Sealed body lines := by
  obtain ⟨ts, c', hl, -⟩ := h.listing.laid h.oneDefault h.names
  exact ⟨(hl.chained opens_nil).1, hl.takes h.writes_source,
    h.listing.nodup_labels h.oneDefault h.labels h.names h.label_source,
    fun ℓ hℓ l hg => h.listing.lands_of_regular h.oneDefault h.labels h.tries h.scopes
      h.label_source h.regular hℓ hg⟩

theorem RegularCode.opens (h : RegularCode L body lines) : Opens [] lines := by
  obtain ⟨ts, c', hl, -⟩ := h.listing.laid h.oneDefault h.names
  rw [← List.append_nil lines]
  exact (hl.chained opens_nil).2

end

end Unwind.Lowering
