import Unwind.Proofs.Modes.Rest

/-!
# Running in two modes side by side

Where what is left of the code is related by `Rest` and the data agree, one step without exceptions
is one or more steps with exceptions (`Rest.ahead`). The steps between are those of the code that
only one mode has; they write nothing but the variables that say how a region is left.

A finally block brings back what it has put aside. So as long as control is in it, what it has put
aside must be what a region leaves behind that completes: no exception, and the label value of
normal completion (`Near.fine`).
-/

namespace Unwind.Modes

open Lowering
open Machine (Along Config Data Instr Reaches Value World along_goto along_set eval flatten isOwn labels
  step step_of_isDone)

/-! ## Variables of regions -/

/-- The variables that say how a region is left. -/
def isAside : Slot → Bool
  | .label | .savedExc _ | .savedLabel _ => true
  | _ => false

theorem isOwn_of_isAside {v : Slot} (h : isAside v = true) : isOwn v = true := by
  cases v with
  | label | savedExc | savedLabel => rfl
  | _ => cases h

theorem name_ne_of_isAside (u v : Slot) (hu : isAside u = true) (hv : isAside v = true)
    (h : u ≠ v) : u.name ≠ v.name := fun he =>
  h (Slot.name_inj (Machine.isOwn_proper (isOwn_of_isAside hu))
    (Machine.isOwn_proper (isOwn_of_isAside hv)) he)

/-! ## Plans and data -/

/-- The plan pairs variables sharply and leaves those of regions out; every finally block has
variables of its own. -/
structure Plan.Sound (p : Plan) : Prop where
  sharp : Sharp p.pairs
  apart : ∀ {x y v}, p.pairs x y → isAside v = true → x ≠ v.name
  saved : ∀ {node m n}, p.saved node m → p.saved node n → m = n

/-- The data agree, no exception is pending, and the finally blocks that control is in have put
aside what a region leaves behind that completes. -/
structure Near (w : World) (p : Plan) (ns : List Nook) (d d' : Data) : Prop where
  agree : Agree w p.pairs d d'
  calm : d.memory.exception = none
  fine : ∀ node ∈ finals ns, ∀ n, p.saved node n →
    d.locals (Slot.savedExc n).name = .null ∧
      d.locals (Slot.savedLabel (n + 1)).name = .int normal

section

variable {w : World} {p : Plan} {ns ms : List Nook} {d d' e e' : Data}

/-- What keeps the variables of regions keeps the data near. -/
theorem Near.keep (h : Near w p ns d d') (ha : Agree w p.pairs e e')
    (hc : e'.memory.exception = none)
    (hl : ∀ v, isAside v = true → e.locals v.name = d.locals v.name) : Near w p ns e e' := by
  refine ⟨ha, ?_, fun node hn n hs => ?_⟩
  · rw [ha.memory]
    exact hc
  · rw [hl (.savedExc n) rfl, hl (.savedLabel (n + 1)) rfl]
    exact h.fine node hn n hs

/-- Fewer finally blocks. -/
theorem Near.subset (h : Near w p ns d d') (hm : finals ms ⊆ finals ns) : Near w p ms d d' :=
  ⟨h.agree, h.calm, fun node hn => h.fine node (hm hn)⟩

/-- Writing paired variables. -/
theorem Near.set (hp : p.Sound) (h : Near w p ns d d') {x y : String} (hxy : p.pairs x y)
    (v : Value) : Near w p ns (d.set w x v) (d'.set w y v) := by
  refine h.keep (h.agree.set hp.sharp hxy v) ?_ fun u hu => ?_
  · have hy := (hp.sharp.ne_exception hxy).2
    have hd' : d'.memory.exception = none := h.agree.memory ▸ h.calm
    unfold Data.set
    rw [if_neg hy]
    split_ifs <;> exact hd'
  · exact Data.locals_set (hp.apart hxy hu).symm v

/-- Writing a field. -/
theorem Near.store (hp : p.Sound) (h : Near w p ns d d') {map : String} {i i' : Ir.Expr}
    (hi : Alike p.pairs i i') (v : Value) :
    Near w p ns (Machine.assign w d (.map map i) v) (Machine.assign w d' (.map map i') v) := by
  have hd' : d'.memory.exception = none := h.agree.memory ▸ h.calm
  exact h.keep (h.agree.store hp.sharp hi v) hd' fun _ _ => rfl

/-- A call that does not raise. -/
theorem Near.invoke (hp : p.Sound) (h : Near w p ns d d') (proc : String) (vs : List Value)
    {xs ys : List String} (hxy : List.Forall₂ p.pairs xs ys)
    (hc : (Machine.invoke w d' proc vs ys).memory.exception = none) :
    Near w p ns (Machine.invoke w d proc vs xs) (Machine.invoke w d' proc vs ys) := by
  refine h.keep (h.agree.invoke hp.sharp proc vs hxy) hc fun u hu => ?_
  refine Machine.locals_invoke (fun hx => ?_) proc vs
  obtain ⟨i, hi, he⟩ := List.mem_iff_getElem.mp hx
  exact hp.apart (hxy.get hi (hxy.length_eq ▸ hi)) hu he

/-- Variables of regions are not paired. -/
theorem Agree.aside (hp : p.Sound) (h : Agree w p.pairs d d') {v : Slot} (hv : isAside v = true)
    (x : Value) : Agree w p.pairs (d.set w v.name x) d' := by
  rw [Machine.Data.set_own (isOwn_of_isAside hv)]
  refine ⟨fun {a b} hab => ?_, h.memory, h.calls⟩
  rw [← h.vars hab]
  have hne := hp.apart hab hv
  unfold Data.get
  split_ifs
  · rfl
  · rfl
  · exact Function.update_of_ne hne _ _

/-- The label variable may be written at any time. -/
theorem Near.setLabel (hp : p.Sound) (h : Near w p ns d d') (x : Value) :
    Near w p ns (d.set w labelVar x) d' := by
  have hown : isOwn .label = true := rfl
  refine ⟨h.agree.aside hp (v := .label) rfl x, ?_, fun node hn n hs => ?_⟩
  · rw [show labelVar = (Slot.label).name from rfl, Machine.Data.set_own hown]
    exact h.calm
  · have hx : (Slot.savedExc n).name ≠ labelVar :=
      name_ne_of_isAside (.savedExc n) .label rfl rfl nofun
    have hy : (Slot.savedLabel (n + 1)).name ≠ labelVar :=
      name_ne_of_isAside (.savedLabel (n + 1)) .label rfl rfl nofun
    rw [Data.locals_set hx, Data.locals_set hy]
    exact h.fine node hn n hs

end

/-! ## Steps between -/

section

variable {w : World} {prog : List Instr} {Q : Config → Prop} {c c' c'' : Config}

/-- At least one step in front of which the configuration has a property. -/
def Strides (w : World) (prog : List Instr) (Q : Config → Prop) (c c' : Config) : Prop :=
  ∃ c₁, step w prog c = some c₁ ∧ Q c ∧ Along w prog Q c₁ c'

theorem strides_of_along (h : Along w prog Q c c') (h' : Strides w prog Q c' c'') :
    Strides w prog Q c c'' := by
  rcases Relation.ReflTransGen.cases_head h with rfl | ⟨c₁, ⟨hs, hq⟩, h₁⟩
  · exact h'
  · obtain ⟨c₂, hs', hq', h₂⟩ := h'
    exact ⟨c₁, hs, hq, .trans h₁ (.head hs' hq' h₂)⟩

/-- The test behind a call or a region is passed when nothing is pending. -/
theorem along_test {models : Bool} {test is : List Instr} {d : Data} (ht : Test models test)
    (hd : d.memory.exception = none) (hq : Q ⟨test ++ is, d⟩) :
    Along w prog Q ⟨test ++ is, d⟩ ⟨is, d⟩ := by
  cases ht with
  | none => exact .refl
  | some =>
    refine .head ?_ hq .refl
    simp [step, Machine.holds_pending_none hd]

end

/-! ## Code of one mode only -/

section

variable {w : World} {p : Plan} {prog : List Instr} {ns : List Nook} {d d' : Data}
  {region jumps n : Nat} {node : UInt32} {rs test is ks es : List Instr}

theorem suffix_tail {i : Instr} (h : i :: is <:+ prog) : is <:+ prog :=
  (List.suffix_cons _ _).trans h

theorem suffix_behind (h : ks ++ is <:+ prog) : is <:+ prog := (List.suffix_append _ _).trans h

/-- A jump leaves regions without finally block. -/
theorem along_escape (hp : p.Sound) (hnd : (labels prog).Nodup) (hsize : prog.length < 2 ^ 63)
    (hends : ∀ region jumps, .bare region jumps ∈ ns → ∃ ks,
      .label (Tag.finalizer region).name :: (resuming region jumps ++ ks) <:+ prog)
    (he : Escape ns es) (hs : es ++ is <:+ prog) (h : Near w p ns d d') :
    ∃ e, Along w prog (fun c => Agree w p.pairs c.data d') ⟨es ++ is, d⟩ ⟨is, e⟩ ∧ Near w p ns e d' := by
  induction he generalizing d with
  | nil => exact ⟨d, .refl, h⟩
  | @cons region jumps k es hmem hk _ ih =>
    obtain ⟨ks, hks⟩ := hends region jumps hmem
    have hresume := suffix_tail (suffix_tail hs)
    have h₁ := h.setLabel hp (.int (Int64.ofNat k))
    obtain ⟨e, hal, he⟩ := ih (suffix_tail hresume) h₁
    refine ⟨e, ?_, he⟩
    refine .head rfl h.agree (.trans (along_goto hnd hks h₁.agree h₁.agree) ?_)
    exact .trans (along_resuming_jump hnd (jumps_lt hsize (suffix_tail hks)) hresume hk
      (locals_setLabel _) (fun _ _ _ => h₁.agree) h₁.agree) hal

/-- The end of a `try` part, from which control goes behind the region. -/
theorem along_leave (hp : p.Sound) (hnd : (labels prog).Nodup) (hsize : prog.length < 2 ^ 63)
    (ht : Test true test) (h : Near w p ns d d')
    (hs : .set labelVar (.int normal) :: .goto (Tag.finalizer region).name ::
      (rs ++ .label (Tag.finalizer region).name :: (resuming region jumps ++
        .label (Tag.behind region).name :: (test ++ is))) <:+ prog) :
    ∃ e, Along w prog (fun c => Agree w p.pairs c.data d')
      ⟨.set labelVar (.int normal) :: .goto (Tag.finalizer region).name ::
        (rs ++ .label (Tag.finalizer region).name :: (resuming region jumps ++
          .label (Tag.behind region).name :: (test ++ is))), d⟩ ⟨is, e⟩ ∧ Near w p ns e d' := by
  have hfin := suffix_behind (suffix_tail (suffix_tail hs))
  have htests := suffix_tail hfin
  have h₁ := h.setLabel hp (.int normal)
  refine ⟨_, .head rfl h.agree (.trans (along_goto hnd hfin h₁.agree h₁.agree) ?_), h₁⟩
  exact (along_resuming_normal hnd (jumps_lt hsize htests) (suffix_behind htests)
    (locals_setLabel _) (fun _ _ _ => h₁.agree) h₁.agree).trans (along_test ht h₁.calm h₁.agree)

/-- Putting aside what a region leaves behind that completes. -/
theorem Near.putAside (hp : p.Sound) (h : Near w p ns d d') (hsaved : p.saved node n) :
    Near w p (.final node :: ns) ((d.set w (Slot.savedExc n).name .null).set w
      (Slot.savedLabel (n + 1)).name (.int normal)) d' := by
  have hne : ∀ m k, (Slot.savedExc m).name ≠ (Slot.savedLabel k).name :=
    fun m k => name_ne_of_isAside (.savedExc m) (.savedLabel k) rfl rfl nofun
  have hown : isOwn (.savedExc n) = true := rfl
  have hown' : isOwn (.savedLabel (n + 1)) = true := rfl
  refine ⟨(h.agree.aside hp (v := .savedExc n) rfl _).aside hp (v := .savedLabel (n + 1)) rfl _,
    ?_, fun k hk m hm => ?_⟩
  · rw [Machine.Data.set_own hown', Machine.Data.set_own hown]
    exact h.calm
  rw [Data.locals_set (hne m _)]
  by_cases hmn : m = n
  · subst hmn
    rw [Machine.Data.set_own hown', Machine.Data.set_own hown]
    exact ⟨Function.update_self _ _ _, Function.update_self _ _ _⟩
  · -- another finally block, whose variables are untouched
    have hk' : k ∈ finals ns := by
      rcases List.mem_cons.mp hk with rfl | hk
      · exact absurd (hp.saved hm hsaved) hmn
      · exact hk
    have hx : (Slot.savedExc m).name ≠ (Slot.savedExc n).name :=
      fun he => hmn (Slot.savedExc.inj (Slot.name_inj trivial trivial he))
    have hy : (Slot.savedLabel (m + 1)).name ≠ (Slot.savedLabel (n + 1)).name := by
      intro he
      have := Slot.savedLabel.inj (Slot.name_inj trivial trivial he)
      omega
    rw [Data.locals_set hx, Data.locals_set hy, Data.locals_set (hne n _).symm]
    exact h.fine k hk' m hm

/-- The beginning of a finally block. -/
theorem along_save (hp : p.Sound) (hnd : (labels prog).Nodup) (hsaved : p.saved node n)
    (h : Near w p (.guarded :: ns) d d')
    (hs : .set labelVar (.int normal) :: .goto (Tag.finalizer region).name ::
      (rs ++ .label (Tag.finalizer region).name :: .set (Slot.savedExc n).name .exception ::
        .set (Slot.savedLabel (n + 1)).name (.ident labelVar) ::
        .set Ir.exceptionVar .null :: is) <:+ prog) :
    ∃ e, Along w prog (fun c => Agree w p.pairs c.data d')
      ⟨.set labelVar (.int normal) :: .goto (Tag.finalizer region).name ::
        (rs ++ .label (Tag.finalizer region).name :: .set (Slot.savedExc n).name .exception ::
          .set (Slot.savedLabel (n + 1)).name (.ident labelVar) ::
          .set Ir.exceptionVar .null :: is), d⟩ ⟨is, e⟩ ∧
      Near w p (.final node :: ns) e d' := by
  have hfin := suffix_behind (suffix_tail (suffix_tail hs))
  have h₀ : Near w p ns d d' := ⟨h.agree, h.calm, h.fine⟩
  have h₁ := h₀.setLabel hp (.int normal)
  have h₃ := h₁.putAside hp hsaved
  have ha₂ := h₁.agree.aside hp (v := .savedExc n) rfl .null
  have hexc : eval w (d.set w labelVar (.int normal)) .exception = .null := by
    show Data.get w _ Ir.exceptionVar = _
    rw [Machine.Data.get_exception, h₁.calm]
    rfl
  have hlab : eval w ((d.set w labelVar (.int normal)).set w (Slot.savedExc n).name .null)
      (.ident labelVar) = .int normal := by
    have hown : isOwn .label = true := rfl
    have hne : labelVar ≠ (Slot.savedExc n).name :=
      name_ne_of_isAside .label (.savedExc n) rfl rfl nofun
    show Data.get w _ (Slot.label).name = _
    rw [Machine.Data.get_own hown, show (Slot.label).name = labelVar from rfl,
      Data.locals_set hne, locals_setLabel]
  refine ⟨_, along_set (v := .int normal) rfl h.agree ?_, h₃⟩
  refine .trans (along_goto hnd hfin h₁.agree h₁.agree) ?_
  refine along_set hexc h₁.agree (along_set hlab ha₂ (along_set (v := .null) rfl h₃.agree ?_))
  rw [Data.set_exception_null h₃.calm]
  exact .refl

/-- The end of a finally block. -/
theorem along_restore (hp : p.Sound) (hnd : (labels prog).Nodup) (hsize : prog.length < 2 ^ 63)
    (hsaved : p.saved node n) (ht : Test true test) (h : Near w p (.final node :: ns) d d')
    (hs : .set Ir.exceptionVar (.ident (Slot.savedExc n).name) ::
      .set labelVar (.ident (Slot.savedLabel (n + 1)).name) ::
      (resuming region jumps ++ .label (Tag.behind region).name :: (test ++ is)) <:+ prog) :
    ∃ e, Along w prog (fun c => Agree w p.pairs c.data d')
      ⟨.set Ir.exceptionVar (.ident (Slot.savedExc n).name) ::
        .set labelVar (.ident (Slot.savedLabel (n + 1)).name) ::
        (resuming region jumps ++ .label (Tag.behind region).name :: (test ++ is)), d⟩ ⟨is, e⟩ ∧
      Near w p ns e d' := by
  have htests := suffix_tail (suffix_tail hs)
  obtain ⟨hexc, hlab⟩ := h.fine node List.mem_cons_self n hsaved
  have h₀ : Near w p ns d d' :=
    ⟨h.agree, h.calm, fun k hk => h.fine k (List.mem_cons_of_mem _ hk)⟩
  have h₁ := h₀.setLabel hp (.int normal)
  have hown : isOwn (.savedExc n) = true := rfl
  have hown' : isOwn (.savedLabel (n + 1)) = true := rfl
  refine ⟨_, along_set (v := .null) ?_ h.agree ?_, h₁⟩
  · show Data.get w _ _ = _
    rw [Machine.Data.get_own hown, hexc]
  rw [Data.set_exception_null h.calm]
  refine along_set (v := .int normal) ?_ h.agree ?_
  · show Data.get w _ _ = _
    rw [Machine.Data.get_own hown', hlab]
  · exact (along_resuming_normal hnd (jumps_lt hsize htests) (suffix_behind htests)
      (locals_setLabel _) (fun _ _ _ => h₁.agree) h₁.agree).trans (along_test ht h₁.calm h₁.agree)

end

/-! ## Steps of both modes -/

section

variable {w : World} {p : Plan} {prog prog' : List Instr}

/-- The configurations stand at related places of the two codes, and their data are near. -/
def Abreast (w : World) (p : Plan) (prog : List Instr) (c c' : Config) : Prop :=
  ∃ ns, c.rest <:+ prog ∧ Rest p ns c.rest c'.rest ∧ Near w p ns c.data c'.data

/-- What comes next in the two modes: the second moves, and the first follows; or both halt, the
first perhaps some steps later; or the second stands where an exception is raised. -/
inductive Ahead (w : World) (p : Plan) (prog prog' : List Instr) (c c' : Config) : Prop where
  | moves {e' : Config} : step w prog' c' = some e' →
      (e'.data.memory.exception = none → ∃ e, Abreast w p prog e e' ∧ Strides w prog
        (fun x => Agree w p.pairs x.data c'.data ∨ Agree w p.pairs x.data e'.data) c e) →
      Ahead w p prog prog' c c'
  | halts {e : Config} : step w prog' c' = none →
      Along w prog (fun x => Agree w p.pairs x.data c'.data) c e → step w prog e = none →
      e.isDone = c'.isDone → Agree w p.pairs e.data c'.data → Ahead w p prog prog' c c'
  | raises {js : List Instr} :
      c'.rest = .assume (.bool false) :: js → Ahead w p prog prog' c c'

/-- Steps of the first code alone. -/
theorem Ahead.head {c c₁ c' : Config} (h : Along w prog (fun x => Agree w p.pairs x.data c'.data) c c₁)
    (h' : Ahead w p prog prog' c₁ c') : Ahead w p prog prog' c c' := by
  cases h' with
  | moves hs he =>
    refine .moves hs fun hc => ?_
    obtain ⟨e, ha, ht⟩ := he hc
    exact ⟨e, ha, strides_of_along (h.mono fun _ => Or.inl) ht⟩
  | halts hs hal hn hd ha => exact .halts hs (h.trans hal) hn hd ha
  | raises hr => exact .raises hr

/-- One step on both sides. -/
theorem Ahead.one {c c' e e' : Config} (hs : step w prog c = some e)
    (hs' : step w prog' c' = some e') (ha : Agree w p.pairs c.data c'.data)
    (h : e'.data.memory.exception = none → Abreast w p prog e e') : Ahead w p prog prog' c c' :=
  .moves hs' fun hc => ⟨e, h hc, e, hs, .inl ha, .refl⟩

/-- Where the codes are related and the data near, the modes go on side by side. -/
theorem Rest.ahead (hp : p.Sound) (hnd : (labels prog).Nodup) (hsize : prog.length < 2 ^ 63)
    (hprog : Rest p [] prog prog') {ns : List Nook} {is js : List Instr} (h : Rest p ns is js)
    {d d' : Data} (hs : is <:+ prog) (hn : Near w p ns d d') :
    Ahead w p prog prog' ⟨is, d⟩ ⟨js, d'⟩ := by
  induction h generalizing d with
  | nil => exact .halts rfl .refl rfl rfl hn.agree
  | set hx he hr ih =>
    refine .one rfl rfl hn.agree fun _ => ⟨_, suffix_tail hs, hr, ?_⟩
    simp only [Machine.assign, hn.agree.eval he]
    exact hn.set hp hx _
  | store hi he hr ih =>
    refine .one rfl rfl hn.agree fun _ => ⟨_, suffix_tail hs, hr, ?_⟩
    simp only [hn.agree.eval he]
    exact hn.store hp hi _
  | @call ns proc args args' outs outs' test is js hargs houts ht hr ih =>
    -- only a call that leaves no exception is followed; then the test behind it falls through
    refine .moves rfl fun hc => ?_
    have hn' : Near w p ns (Machine.invoke w d proc (Machine.evalAll w d args) outs)
        (Machine.invoke w d' proc (Machine.evalAll w d' args') outs') := by
      rw [hn.agree.evalAll hargs]
      exact hn.invoke hp proc _ houts hc
    refine ⟨⟨is, _⟩, ⟨ns, suffix_behind (suffix_tail hs), hr, hn'⟩, _, rfl, .inl hn.agree, ?_⟩
    exact along_test ht hn'.calm (.inr hn'.agree)
  | quiet hi hr ih =>
    cases hi with
    | assert | assume | note =>
      exact .one rfl rfl hn.agree fun _ => ⟨_, suffix_tail hs, hr, hn⟩
  | @assert _ e e' _ _ he hr ih | @assume _ e e' _ _ he hr ih =>
    have heval := hn.agree.eval he
    by_cases hh : (eval w d' e').holds = true
    · refine .one (if_pos (heval ▸ hh)) (if_pos hh) hn.agree fun _ => ?_
      exact ⟨_, suffix_tail hs, hr, hn⟩
    · exact .halts (if_neg hh) .refl (if_neg (heval ▸ hh)) rfl hn.agree
  | branch he hr hr' ih ih' =>
    refine .one rfl rfl hn.agree fun _ => ?_
    simp only [hn.agree.eval he]
    split
    · exact ⟨_, suffix_tail hs, hr, hn⟩
    · exact ⟨_, (List.drop_suffix _ _).trans (suffix_tail hs), hr', hn⟩
  | jump hr hr' ih ih' =>
    exact .one rfl rfl hn.agree fun _ =>
      ⟨_, (List.drop_suffix _ _).trans (suffix_tail hs), hr', hn⟩
  | label hh hr ih =>
    exact .one rfl rfl hn.agree fun _ => ⟨_, suffix_tail hs, hr, hn⟩
  | ret hr ih => exact .halts rfl .refl rfl rfl hn.agree
  | @goto ns l es is js hes hl hdead hhome hr ih =>
    -- the regions without finally block are passed one by one before the jump lands
    have hends : ∀ region jumps, .bare region jumps ∈ ns → ∃ ks,
        .label (Tag.finalizer region).name :: (resuming region jumps ++ ks) <:+ prog := by
      intro region jumps hmem
      obtain ⟨ks, hks⟩ := hr.end_of_bare hmem
      exact ⟨ks, hks.trans (suffix_tail (suffix_behind hs))⟩
    obtain ⟨e, hal, he⟩ := along_escape hp hnd hsize hends hes hs hn
    refine .head hal ?_
    rcases hprog.landing hl hdead with ⟨hnone, hnone'⟩ | ⟨ms, is', js', hsome, hsome', hr', hms⟩
    · refine .halts ?_ .refl ?_ rfl he.agree
      · show (Machine.landing l prog').map _ = none
        rw [hnone']
        rfl
      · show (Machine.landing l prog).map _ = none
        rw [hnone]
        rfl
    · have hs₁ : step w prog ⟨.goto l :: is, e⟩ = some ⟨.label l :: is', e⟩ := by
        show (Machine.landing l prog).map _ = _
        rw [hsome]
        rfl
      have hs₂ : step w prog' ⟨.goto l :: js, d'⟩ = some ⟨.label l :: js', d'⟩ := by
        show (Machine.landing l prog').map _ = _
        rw [hsome']
        rfl
      refine .one hs₁ hs₂ he.agree fun _ => ?_
      exact ⟨ms, Machine.landing_suffix hsome, hr', he.subset (hhome _ hms)⟩
  | raise => exact .raises rfl
  | enter hn' _ ih =>
    refine ih hs ⟨hn.agree, hn.calm, fun node hmem => hn.fine node ?_⟩
    rwa [finals, List.filterMap_cons_none hn'] at hmem
  | leave hrs ht hr ih =>
    obtain ⟨e, hal, he⟩ := along_leave hp hnd hsize ht hn hs
    refine .head hal (ih ?_ ⟨he.agree, he.calm, he.fine⟩)
    exact suffix_behind (suffix_tail (suffix_behind (suffix_tail (suffix_behind
      (suffix_tail (suffix_tail hs))))))
  | save hrs hsaved hr ih =>
    obtain ⟨e, hal, he⟩ := along_save hp hnd hsaved hn hs
    refine .head hal (ih ?_ he)
    exact suffix_tail (suffix_tail (suffix_tail (suffix_tail (suffix_behind
      (suffix_tail (suffix_tail hs))))))
  | restore hsaved ht hr ih =>
    obtain ⟨e, hal, he⟩ := along_restore hp hnd hsize hsaved ht hn hs
    refine .head hal (ih ?_ he)
    exact suffix_behind (suffix_tail (suffix_behind (suffix_tail (suffix_tail hs))))

/-! ## Whole runs -/

theorem step_assume_false {c : Config} {js : List Instr}
    (h : c.rest = .assume (.bool false) :: js) : step w prog c = none := by
  rw [step, h]
  exact if_neg Bool.false_ne_true

theorem Abreast.ahead {c c' : Config} (h : Abreast w p prog c c') (hp : p.Sound)
    (hnd : (labels prog).Nodup) (hsize : prog.length < 2 ^ 63) (hprog : Rest p [] prog prog') :
    Ahead w p prog prog' c c' := by
  obtain ⟨ns, hs, hr, hn⟩ := h
  exact Rest.ahead hp hnd hsize hprog hr hs hn

/-- What the modes share of a procedure, and where they start. -/
structure Course (w : World) (p : Plan) (prog prog' : List Instr) (start start' : Config) :
    Prop where
  sound : p.Sound
  nodup : (labels prog).Nodup
  size : prog.length < 2 ^ 63
  rest : Rest p [] prog prog'
  start : Abreast w p prog start start'
  /-- No exception is left behind in the run without exceptions. -/
  calm : ∀ {c'}, Reaches w prog' start' c' → c'.data.memory.exception = none

variable {start start' : Config}

/-- Wherever the run without exceptions comes, the other one comes too. -/
theorem Course.abreast (h : Course w p prog prog' start start') {c' : Config}
    (hc' : Reaches w prog' start' c') : ∃ c, Reaches w prog start c ∧ Abreast w p prog c c' := by
  induction hc' with
  | refl => exact ⟨start, .refl, h.start⟩
  | @tail c' e' hc' hs ih =>
    obtain ⟨c, hc, ha⟩ := ih
    cases ha.ahead h.sound h.nodup h.size h.rest with
    | moves hs' he =>
      rw [hs] at hs'
      cases hs'
      obtain ⟨e, ha', c₁, hs₁, -, hal⟩ := he (h.calm (hc'.tail hs))
      exact ⟨e, (hc.tail hs₁).trans hal.reaches, ha'⟩
    | halts hn =>
      rw [hs] at hn
      cases hn
    | raises hr =>
      rw [step_assume_false hr] at hs
      cases hs

/-- The run without exceptions is followed by the other one, to the end. -/
theorem Course.follows (h : Course w p prog prog' start start') {c' : Config}
    (hc' : Reaches w prog' start' c') :
    ∃ c, Reaches w prog start c ∧ Agree w p.pairs c.data c'.data ∧
      (c'.isDone = true → c.isDone = true) := by
  obtain ⟨c, hc, ha⟩ := h.abreast hc'
  by_cases hd : c'.isDone = true
  · cases ha.ahead h.sound h.nodup h.size h.rest with
    | moves hs =>
      rw [step_of_isDone hd] at hs
      cases hs
    | halts _ hal _ he hagree => exact ⟨_, hc.trans hal.reaches, hagree, fun _ => he.trans hd⟩
    | raises hr =>
      rw [Config.isDone, hr] at hd
      cases hd
  · obtain ⟨ns, -, -, hn⟩ := ha
    exact ⟨c, hc, hn.agree, fun hd' => absurd hd' hd⟩

/-- The data agree with those of some place that the run without exceptions comes to. -/
def Met (w : World) (p : Plan) (prog' : List Instr) (start' c : Config) : Prop :=
  ∃ c', Reaches w prog' start' c' ∧ Agree w p.pairs c.data c'.data

/-- The run without exceptions comes to a place where one is raised. -/
def Stops (w : World) (prog' : List Instr) (start' c' : Config) : Prop :=
  Reaches w prog' start' c' ∧ ∃ js, c'.rest = .assume (.bool false) :: js

/-- The run with exceptions is on its way to a place where the two runs are abreast, or where both
have halted; or there is a place where an exception is raised. -/
def Heading (w : World) (p : Plan) (prog prog' : List Instr) (start' c : Config) : Prop :=
  (∃ e', Stops w prog' start' e') ∨
    ∃ e e', Along w prog (Met w p prog' start') c e ∧ Reaches w prog' start' e' ∧
      (Abreast w p prog e e' ∨
        step w prog e = none ∧ e.isDone = e'.isDone ∧ Agree w p.pairs e.data e'.data)

theorem Course.heading_step (h : Course w p prog prog' start start') {c c₁ : Config}
    (hc : Heading w p prog prog' start' c) (hs : step w prog c = some c₁) :
    Heading w p prog prog' start' c₁ := by
  rcases hc with hstop | ⟨e, e', hal, he', hor⟩
  · exact .inl hstop
  rcases Relation.ReflTransGen.cases_head hal with rfl | ⟨c₂, ⟨hs₂, -⟩, hal₂⟩
  · rcases hor with ha | ⟨hn, -⟩
    · cases ha.ahead h.sound h.nodup h.size h.rest with
      | @moves e₁ hs' he =>
        have he₁ : Reaches w prog' start' e₁ := he'.tail hs'
        obtain ⟨e₂, ha₂, c₂, hs₂, -, hal₂⟩ := he (h.calm he₁)
        rw [hs] at hs₂
        cases hs₂
        refine .inr ⟨e₂, e₁, hal₂.mono fun d hd => ?_, he₁, .inl ha₂⟩
        exact hd.elim (fun hd => ⟨e', he', hd⟩) fun hd => ⟨e₁, he₁, hd⟩
      | @halts e₂ _ hal₂ hn hd hagree =>
        rcases Relation.ReflTransGen.cases_head hal₂ with rfl | ⟨c₂, ⟨hs₂, -⟩, hal₃⟩
        · rw [hs] at hn
          cases hn
        · rw [hs] at hs₂
          cases hs₂
          refine .inr ⟨e₂, e', ?_, he', .inr ⟨hn, hd, hagree⟩⟩
          exact Along.mono (fun d hd => ⟨e', he', hd⟩) hal₃
      | raises hr => exact .inl ⟨e', he', _, hr⟩
    · rw [hs] at hn
      cases hn
  · rw [hs] at hs₂
    cases hs₂
    exact .inr ⟨e, e', hal₂, he', hor⟩

theorem Course.heading (h : Course w p prog prog' start start') {c : Config}
    (hc : Reaches w prog start c) : Heading w p prog prog' start' c := by
  induction hc with
  | refl => exact .inr ⟨start, start', .refl, .refl, .inl h.start⟩
  | tail _ hs ih => exact h.heading_step ih hs

/-- The run with exceptions is followed by the one without, to the end or to a place where an
exception is raised. -/
theorem Course.followed (h : Course w p prog prog' start start') {c : Config}
    (hc : Reaches w prog start c) :
    ∃ c', Reaches w prog' start' c' ∧ (Agree w p.pairs c.data c'.data ∧
      (c.isDone = true → c'.isDone = true) ∨ ∃ js, c'.rest = .assume (.bool false) :: js) := by
  rcases h.heading hc with ⟨e', he', hr⟩ | ⟨e, e', hal, he', hor⟩
  · exact ⟨e', he', .inr hr⟩
  rcases Relation.ReflTransGen.cases_head hal with rfl | ⟨c₂, ⟨hs₂, hq⟩, -⟩
  · rcases hor with ha | ⟨-, hd, hagree⟩
    · cases ha.ahead h.sound h.nodup h.size h.rest with
      | moves hs' he =>
        obtain ⟨e₂, -, c₂, hs₂, -⟩ := he (h.calm (he'.tail hs'))
        obtain ⟨ns, -, -, hn⟩ := ha
        refine ⟨e', he', .inl ⟨hn.agree, fun hd => ?_⟩⟩
        rw [step_of_isDone hd] at hs₂
        cases hs₂
      | halts _ hal₂ _ hd _ =>
        obtain ⟨ns, -, -, hn⟩ := ha
        refine ⟨e', he', .inl ⟨hn.agree, fun hd' => ?_⟩⟩
        rcases Relation.ReflTransGen.cases_head hal₂ with rfl | ⟨c₂, ⟨hs₂, -⟩, -⟩
        · exact hd ▸ hd'
        · rw [step_of_isDone hd'] at hs₂
          cases hs₂
      | raises hr => exact ⟨e', he', .inr ⟨_, hr⟩⟩
    · exact ⟨e', he', .inl ⟨hagree, fun hd' => hd ▸ hd'⟩⟩
  · obtain ⟨c', hc', hagree⟩ := hq
    refine ⟨c', hc', .inl ⟨hagree, fun hd => ?_⟩⟩
    rw [step_of_isDone hd] at hs₂
    cases hs₂

end

end Unwind.Modes
