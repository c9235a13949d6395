import Mathlib
import Unwind.Proofs.Lowering.Arena

/-!
# Names given out along a run

A context is asked for regions, labels and variables, one request after the other (`session`). What
it answers depends on its counters only (`NameRequest.gives_perform`), and the counters never go
back (`Granted.later`). So who asks again for the same name gets it, all other names are different,
and the jumps out of a region are numbered in order (`session_consistent`).

The names of labels are told apart by `Tag.name_inj`. New variables may have any stem that does not
end in a digit, so that their numbers are read off the end of the name (`numbered_inj`).
-/

namespace Unwind.Lowering

open Source (TypeRef)

/-! ## Requests -/

/-- What a context is asked for. -/
inductive NameRequest where
  | enterRegion (node : UInt32) (catchTypes : List (Option TypeRef))
  | pushPhase (region : Nat) (phase : Phase)
  | popPhase (region : Nat) (phase : Phase)
  | catchLabel (region : Nat)
  | finallyLabel (region : Nat)
  | continuationLabel (region : Nat)
  | escapingEdge (region : Nat)
  | exceptionLocal (region : Nat)
  | freshLocal (stem : String) (ty : Ir.Ty)
  | labelVar
  | declareLocal (name : String) (ty : Ir.Ty)

/-- What it answers. -/
inductive NameAnswer where
  | done
  | region (id : Nat)
  | label (name : String)
  | edge (edge : EscapingEdge)
  | var (name : String)

namespace NameAnswer

/-- The label that is given out. -/
def label? : NameAnswer → Option String
  | label l => some l
  | edge x => some x.resume
  | _ => none

/-- The variable that is given out. -/
def var? : NameAnswer → Option String
  | var x => some x
  | _ => none

/-- The jump that is given out. -/
def edge? : NameAnswer → Option EscapingEdge
  | edge x => some x
  | _ => none

end NameAnswer

namespace NameRequest

/-- Carry the request out. -/
def perform : NameRequest → Lower NameAnswer
  | enterRegion node catchTypes => return .region (← Lowering.enterRegion node catchTypes)
  | pushPhase region phase => do
    Lowering.pushPhase region phase
    return .done
  | popPhase region phase => do
    Lowering.popPhase region phase
    return .done
  | catchLabel region => return .label (← Lowering.catchLabel region)
  | finallyLabel region => return .label (← Lowering.finallyLabel region)
  | continuationLabel region => return .label (← Lowering.continuationLabel region)
  | escapingEdge region => return .edge (← addEscapingEdge region)
  | exceptionLocal region => return .var (← Lowering.exceptionLocal region)
  | freshLocal stem ty => return .var (← Lowering.freshLocal stem ty)
  | labelVar => return .var (← useLabelVar)
  | declareLocal name ty => do
    Lowering.declareLocal name ty
    return .done

/-- The request is about one of the first `regions` regions. The stem of a new variable does not end
in a digit, and is not that of the variables of regions. -/
def fits (regions : Nat) : NameRequest → Bool
  | pushPhase region _ | popPhase region _ | catchLabel region | finallyLabel region
  | continuationLabel region | escapingEdge region | exceptionLocal region => region < regions
  | freshLocal stem _ => stem.toList.getLast?.all (!·.isDigit) && stem != "localExc"
  | enterRegion .. | labelVar | declareLocal .. => true

/-- The regions that are there after the request. -/
def regionsAfter (regions : Nat) : NameRequest → Nat
  | enterRegion .. => regions + 1
  | _ => regions

/-- Requests one after the other fit when `regions` regions are there at the start. -/
def fitAll (regions : Nat) : List NameRequest → Bool
  | [] => true
  | r :: rs => r.fits regions && fitAll (r.regionsAfter regions) rs

/-- What is given out by the request is given out once and for all. -/
def isLasting : NameRequest → Bool
  | catchLabel _ | finallyLabel _ | continuationLabel _ | exceptionLocal _ | labelVar => true
  | _ => false

/-- The request is for a label, perhaps along with the number of a jump. -/
def isForLabel : NameRequest → Bool
  | catchLabel _ | finallyLabel _ | continuationLabel _ | escapingEdge _ => true
  | _ => false

/-- The request is for a jump out of the region. -/
def leaves (region : Nat) : NameRequest → Bool
  | escapingEdge r => r == region
  | _ => false

/-- The request is for a variable. -/
def isForVar : NameRequest → Bool
  | exceptionLocal _ | freshLocal .. | labelVar => true
  | _ => false

end NameRequest

/-- A request with what came of it. -/
abbrev NameEvent := NameRequest × Except Fault NameAnswer

namespace NameEvent

/-- The label that is given out. -/
def label? (e : NameEvent) : Option String := e.2.toOption.bind NameAnswer.label?

/-- The variable that is given out. -/
def var? (e : NameEvent) : Option String := e.2.toOption.bind NameAnswer.var?

/-- The jump out of the region that is given out. -/
def edge? (region : Nat) (e : NameEvent) : Option EscapingEdge :=
  if e.1.leaves region then e.2.toOption.bind NameAnswer.edge? else none

end NameEvent

/-- Carry requests out, one after the other. Behind a request that fails it goes on with the state
that is left. -/
def session : List NameRequest → State → List NameEvent × State
  | [], s => ([], s)
  | r :: rs, s =>
    let (answer, s₁) := r.perform.run s
    let (events, s₂) := session rs s₁
    ((r, answer) :: events, s₂)

/-- The names and numbers that are given out by a session. -/
structure Consistent (es : List NameEvent) : Prop where
  labeled : ∀ e ∈ es, e.1.isForLabel = true → e.label?.isSome = true
  named : ∀ e ∈ es, e.1.isForVar = true → e.var?.isSome = true
  /-- Who asks again gets the same. -/
  lasting : ∀ e ∈ es, ∀ e' ∈ es, e.1 = e'.1 → e.1.isLasting = true → e.2 = e'.2
  /-- Only then is a label given out twice. -/
  labels : es.Pairwise fun e e' => ∀ l, e.label? = some l → e'.label? = some l →
    e.1 = e'.1 ∧ e.1.isLasting = true
  /-- The same for variables, the label variable included. -/
  vars : es.Pairwise fun e e' => ∀ x, e.var? = some x → e'.var? = some x →
    e.1 = e'.1 ∧ e.1.isLasting = true
  ne_labelVar : ∀ e ∈ es, e.var? = some labelVar → e.1 = .labelVar
  /-- The jumps out of a region are numbered from 0 on. -/
  edges : ∀ region k x, (es.filterMap (NameEvent.edge? region))[k]? = some x → x.id = Int64.ofNat k
  /-- The numbers fit where they are stored: no list in memory has 2^63 entries. -/
  sentinels : ∀ region (k : Nat) x, (es.filterMap (NameEvent.edge? region))[k]? = some x →
    k < 2 ^ 63 → x.id.toInt = (k : Int) ∧ x.id ≠ normal ∧ x.id ≠ propagating

/-! ## Numbers at the end of names -/

/-- What ends in no digit, with digits behind it, is taken apart in one way only. -/
theorem append_digits_le {xs ys ds es : List Char} (hy : ∀ c ∈ ys.getLast?, c.isDigit = false)
    (hd : ∀ c ∈ ds, c.isDigit = true) {as : List Char} (hys : ys = xs ++ as) (hds : ds = as ++ es) :
    xs = ys ∧ ds = es := by
  have has : as = [] := by
    by_contra hne
    have hlast : as.getLast hne ∈ ys.getLast? := by
      rw [hys, List.getLast?_append, List.getLast?_eq_getLast_of_ne_nil hne]
      rfl
    have hdigit := hd _ (hds ▸ List.mem_append_left es (List.getLast_mem hne))
    rw [hy _ hlast] at hdigit
    cases hdigit
  subst has
  exact ⟨by rw [hys, List.append_nil], hds⟩

theorem append_digits_inj {xs ys ds es : List Char} (hx : ∀ c ∈ xs.getLast?, c.isDigit = false)
    (hy : ∀ c ∈ ys.getLast?, c.isDigit = false) (hd : ∀ c ∈ ds, c.isDigit = true)
    (he : ∀ c ∈ es, c.isDigit = true) (h : xs ++ ds = ys ++ es) : xs = ys ∧ ds = es := by
  rcases List.append_eq_append_iff.mp h with ⟨as, hys, hds⟩ | ⟨as, hxs, hes⟩
  · exact append_digits_le hy hd hys hds
  · obtain ⟨h₁, h₂⟩ := append_digits_le hx he hxs hes
    exact ⟨h₁.symm, h₂.symm⟩

/-- A stem of variables that are numbered. -/
def IsStem (stem : String) : Prop := ∀ c ∈ stem.toList.getLast?, c.isDigit = false

/-- The name of a variable with a number. -/
def numbered (stem : String) (k : Nat) : String := "$" ++ stem ++ toString k

theorem toList_numbered (stem : String) (k : Nat) :
    (numbered stem k).toList = ('$' :: stem.toList) ++ Nat.toDigits 10 k := by
  simp [numbered]

theorem isDigit_of_mem_digits {k : Nat} : ∀ c ∈ Nat.toDigits 10 k, c.isDigit = true :=
  fun _ hc => Nat.isDigit_of_mem_toDigits (by decide) (by decide) hc

theorem isDigit_getLast?_stem {stem : String} (h : IsStem stem) :
    ∀ c ∈ ('$' :: stem.toList).getLast?, c.isDigit = false := by
  intro c hc
  rw [List.getLast?_cons] at hc
  cases hlast : stem.toList.getLast? with
  | none =>
    rw [hlast] at hc
    cases hc
    rfl
  | some d =>
    rw [hlast] at hc
    cases hc
    exact h d hlast

theorem numbered_inj {a b : String} {m n : Nat} (ha : IsStem a) (hb : IsStem b)
    (h : numbered a m = numbered b n) : a = b ∧ m = n := by
  have hl := congrArg String.toList h
  rw [toList_numbered, toList_numbered] at hl
  obtain ⟨hstem, hnumber⟩ := append_digits_inj (isDigit_getLast?_stem ha) (isDigit_getLast?_stem hb)
    isDigit_of_mem_digits isDigit_of_mem_digits hl
  exact ⟨String.toList_inj.mp (List.cons.inj hstem).2, toDigits_inj.mp hnumber⟩

theorem numbered_ne_labelVar (stem : String) (k : Nat) : numbered stem k ≠ labelVar := by
  intro h
  have hl := congrArg (·.toList.getLast?) h
  have hne : Nat.toDigits 10 k ≠ [] := Nat.toDigits_ne_nil
  simp only [toList_numbered, List.getLast?_append, List.getLast?_eq_getLast_of_ne_nil hne] at hl
  have hdigit := isDigit_of_mem_digits _ (List.getLast_mem hne)
  rw [Option.some.inj (hl.trans (by decide : labelVar.toList.getLast? = some 'l'))] at hdigit
  cases hdigit

/-- The variable of a region is numbered, too. -/
theorem caught_eq_numbered (region : Nat) :
    (Slot.caught region).name = numbered "localExc" region := rfl

theorem isStem_localExc : IsStem "localExc" := by
  have hlast : "localExc".toList.getLast? = some 'c' := by decide
  intro c hc
  rw [hlast] at hc
  cases hc
  rfl

/-! ## One request -/

namespace NameRequest

/-- What is answered when the counters stand at `c`. -/
def outcome (c : Counters) : NameRequest → NameAnswer
  | enterRegion .. => .region c.regions
  | pushPhase .. | popPhase .. | declareLocal .. => .done
  | catchLabel region => .label (Tag.catches region).name
  | finallyLabel region => .label (Tag.finalizer region).name
  | continuationLabel region => .label (Tag.behind region).name
  | escapingEdge region => .edge (edge region (c.escapes region))
  | exceptionLocal region => .var (Slot.caught region).name
  | freshLocal stem _ => .var (numbered stem c.temps)
  | labelVar => .var Lowering.labelVar

/-- Where the counters stand afterwards. -/
def after (c : Counters) : NameRequest → Counters
  | enterRegion .. => { c with regions := c.regions + 1 }
  | escapingEdge region => c.escape region
  | freshLocal .. => { c with temps := c.temps + 1 }
  | _ => c

/-- With the counters at `c`, the request is answered by `a` and leaves them at `c'`. Only the end
of a phase can fail. -/
structure Gives (r : NameRequest) (c : Counters) (a : Except Fault NameAnswer) (c' : Counters) :
    Prop where
  answer : a = .ok (r.outcome c) ∨ r.isForLabel = false ∧ r.isForVar = false ∧ ∃ f, a = .error f
  regions : c'.regions = (r.after c).regions
  escapes : c'.escapes = (r.after c).escapes
  temps : (r.after c).temps ≤ c'.temps

theorem regions_after (r : NameRequest) (c : Counters) :
    (r.after c).regions = r.regionsAfter c.regions := by
  cases r <;> rfl

/-- The jump is counted at the region that it leaves. -/
theorem escapes_after_escapingEdge (region : Nat) (c : Counters) :
    ((escapingEdge region).after c).escapes =
      Function.update c.escapes region (c.escapes region + 1) := rfl

variable {scopes : LabelScopes} {ρ : List Frame} {r : NameRequest} {s s' : State}
  {a : Except Fault NameAnswer}

/-- A request that leaves the counters alone but for the numbers of variables. -/
theorem Gives.of_emits {is : List Machine.Instr} (he : Emits s is s')
    (hc : r.after s.counters = s.counters) (ha : a = .ok (r.outcome s.counters)) :
    r.Gives s.counters a s'.counters :=
  ⟨.inl ha, by rw [hc, he.regions], by rw [hc, he.escapes], by rw [hc]; exact he.temps⟩

/-- A request that moves the counters in one way only. -/
theorem Gives.of_eq {c c' : Counters} (hc : c' = r.after c) (ha : a = .ok (r.outcome c)) :
    r.Gives c a c' := by
  subst hc
  exact ⟨.inl ha, rfl, rfl, Nat.le_refl _⟩

/-- An operation of the context always succeeds. -/
theorem runs_withContext {α : Type} (f : Context → α × Context) (s : State) :
    Runs (withContext f) s (f s.toContext).1 { s with toContext := (f s.toContext).2 } := rfl

/-- What is answered is what the operation returns. -/
theorem run_answered {α : Type} {act : Lower α} {x : α} {s₁ : State} (g : α → NameAnswer)
    (hact : Runs act s x s₁) (h : (do return g (← act) : Lower NameAnswer).run s = (a, s')) :
    a = .ok (g x) ∧ s' = s₁ := by
  have hrun : (do return g (← act) : Lower NameAnswer).run s = (.ok (g x), s₁) :=
    runs_bind.mpr ⟨x, s₁, hact, rfl⟩
  obtain ⟨ha, hs⟩ := Prod.mk.inj (h.symm.trans hrun)
  exact ⟨ha, hs⟩

/-- The step lemma: the answer depends on the counters, and there is a view again. -/
theorem gives_perform (hv : View scopes ρ s) (hf : r.fits s.counters.regions = true)
    (h : r.perform.run s = (a, s')) :
    (∃ ρ', View scopes ρ' s') ∧ r.Gives s.counters a s'.counters := by
  cases r with
  | enterRegion node types =>
    have hrun := runs_withContext (·.enterRegion node types) s
    obtain ⟨rfl, rfl⟩ := run_answered NameAnswer.region hrun h
    obtain ⟨hid, -, hv', hc, -⟩ := runs_enterRegion hv hrun
    exact ⟨⟨ρ, hv'⟩, .of_eq hc (by rw [hid]; rfl)⟩
  | pushPhase region phase =>
    obtain ⟨rfl, rfl⟩ := Prod.mk.inj h
    have hlt : region < s.regions.length := of_decide_eq_true hf
    obtain ⟨-, hv', hc⟩ := runs_pushPhase (f := ⟨region, s.regions[region].node, phase, []⟩) hv
      ⟨_, List.getElem?_eq_getElem hlt, rfl⟩ rfl
    exact ⟨⟨_, hv'⟩, .of_eq hc rfl⟩
  | popPhase region phase =>
    have hs : s' = { s with stack := s.stack.tail } := by
      have hrun : (do Lowering.popPhase region phase; return .done : Lower NameAnswer).run s =
        (a, s') := h
      rw [run_bind, run_popPhase] at hrun
      split at hrun
      · next heq =>
        obtain ⟨-, hs⟩ := Prod.mk.inj heq
        exact (Prod.mk.inj hrun).2.symm.trans hs.symm
      · next heq =>
        obtain ⟨-, hs⟩ := Prod.mk.inj heq
        exact (Prod.mk.inj hrun).2.symm.trans hs.symm
    have ha : a = .ok .done ∨ ∃ f, a = .error f := by
      have hrun : (do Lowering.popPhase region phase; return .done : Lower NameAnswer).run s =
        (a, s') := h
      rw [run_bind] at hrun
      split at hrun
      · exact .inl (Prod.mk.inj hrun).1.symm
      · exact .inr ⟨_, (Prod.mk.inj hrun).1.symm⟩
    subst hs
    refine ⟨⟨ρ.tail, hv.named, by rw [hv.stack, List.map_tail],
      fun f hf => hv.nodes f (List.mem_of_mem_tail hf), hv.scopes, hv.returnVar⟩, ?_⟩
    exact ⟨ha.imp_right fun hfail => ⟨rfl, rfl, hfail⟩, rfl, rfl, Nat.le_refl _⟩
  | catchLabel region =>
    have hrun := runs_withContext (·.catchLabel region) s
    obtain ⟨rfl, rfl⟩ := run_answered NameAnswer.label hrun h
    obtain ⟨hx, he⟩ := runs_catchLabel hv (of_decide_eq_true hf) hrun
    exact ⟨⟨ρ, he.view hv⟩, .of_emits he rfl (by rw [hx]; rfl)⟩
  | finallyLabel region =>
    have hrun := runs_withContext (·.finallyLabel region) s
    obtain ⟨rfl, rfl⟩ := run_answered NameAnswer.label hrun h
    obtain ⟨hx, he⟩ := runs_finallyLabel hv (of_decide_eq_true hf) hrun
    exact ⟨⟨ρ, he.view hv⟩, .of_emits he rfl (by rw [hx]; rfl)⟩
  | continuationLabel region =>
    have hrun := runs_withContext (·.continuationLabel region) s
    obtain ⟨rfl, rfl⟩ := run_answered NameAnswer.label hrun h
    obtain ⟨hx, he⟩ := runs_continuationLabel hv (of_decide_eq_true hf) hrun
    exact ⟨⟨ρ, he.view hv⟩, .of_emits he rfl (by rw [hx]; rfl)⟩
  | escapingEdge region =>
    have hrun := runs_withContext (·.addEscapingEdge region) s
    obtain ⟨rfl, rfl⟩ := run_answered NameAnswer.edge hrun h
    obtain ⟨hx, -, hv', hc⟩ := runs_addEscapingEdge hv (of_decide_eq_true hf) hrun
    exact ⟨⟨ρ, hv'⟩, .of_eq hc (by rw [hx]; rfl)⟩
  | exceptionLocal region =>
    have hrun := runs_withContext (·.exceptionLocal region) s
    obtain ⟨rfl, rfl⟩ := run_answered NameAnswer.var hrun h
    obtain ⟨hx, he⟩ := runs_exceptionLocal hv (of_decide_eq_true hf) hrun
    exact ⟨⟨ρ, he.view hv⟩, .of_emits he rfl (by rw [hx]; rfl)⟩
  | freshLocal stem ty =>
    have hrun := runs_withContext (·.freshLocal stem ty) s
    obtain ⟨rfl, rfl⟩ := run_answered NameAnswer.var hrun h
    obtain ⟨hx, ht, he⟩ := runs_freshLocal hrun
    exact ⟨⟨ρ, he.view hv⟩, .inl (by rw [hx]; rfl), he.regions, he.escapes, Nat.le_of_eq ht.symm⟩
  | labelVar =>
    have hrun : Runs useLabelVar s _ _ := rfl
    obtain ⟨rfl, rfl⟩ := run_answered NameAnswer.var hrun h
    obtain ⟨-, he⟩ := runs_useLabelVar hrun
    exact ⟨⟨ρ, he.view hv⟩, .of_emits he rfl rfl⟩
  | declareLocal name ty =>
    obtain ⟨rfl, rfl⟩ := Prod.mk.inj h
    have he := emits_declareLocal (show Runs (Lowering.declareLocal name ty) s () _ from rfl)
    exact ⟨⟨ρ, he.view hv⟩, .of_emits he rfl rfl⟩

/-! ## Two requests -/

/-- Where the label comes from that is given out. -/
def tag? (c : Counters) : NameRequest → Option Tag
  | catchLabel region => some (.catches region)
  | finallyLabel region => some (.finalizer region)
  | continuationLabel region => some (.behind region)
  | escapingEdge region => some (.resume region (c.escapes region))
  | _ => none

/-- Stem and number of the variable that is given out, when it has a number. -/
def number? (c : Counters) : NameRequest → Option (String × Nat)
  | exceptionLocal region => some ("localExc", region)
  | freshLocal stem _ => some (stem, c.temps)
  | _ => none

theorem label?_outcome (r : NameRequest) (c : Counters) :
    (r.outcome c).label? = (r.tag? c).map Tag.name := by
  cases r <;> rfl

theorem var?_outcome {c : Counters} {x : String} (h : (r.outcome c).var? = some x) :
    (r = .labelVar ∧ x = Lowering.labelVar) ∨
      ∃ n, r.number? c = some n ∧ x = numbered n.1 n.2 := by
  cases r with
  | labelVar => exact .inl ⟨rfl, (Option.some.inj h).symm⟩
  | exceptionLocal region =>
    exact .inr ⟨_, rfl, (Option.some.inj h).symm.trans (caught_eq_numbered region)⟩
  | freshLocal stem ty => exact .inr ⟨_, rfl, (Option.some.inj h).symm⟩
  | _ => cases h

theorem proper_tag? {c : Counters} {t : Tag} (h : r.tag? c = some t) : t.Proper := by
  cases r with
  | catchLabel | finallyLabel | continuationLabel | escapingEdge =>
    cases h
    trivial
  | _ => cases h

theorem isStem_number? {c : Counters} {n : String × Nat} {regions : Nat}
    (hf : r.fits regions = true) (h : r.number? c = some n) : IsStem n.1 := by
  cases r with
  | exceptionLocal =>
    cases h
    exact isStem_localExc
  | freshLocal stem =>
    cases h
    intro d hd
    have hstem := (Bool.and_eq_true_iff.mp hf).1
    rw [Option.mem_def.mp hd] at hstem
    simpa using hstem
  | _ => cases h

end NameRequest

/-- The counters never go back. -/
structure Counters.Le (c c' : Counters) : Prop where
  temps : c.temps ≤ c'.temps
  escapes : ∀ region, c.escapes region ≤ c'.escapes region

namespace NameRequest

variable {r' : NameRequest} {c c' : Counters}

/-- Two labels of one name have been asked for by the same request. The request is not for a jump:
jumps out of one region have different numbers. -/
theorem eq_of_tag? {t : Tag} (hle : (r.after c).Le c') (h : r.tag? c = some t)
    (h' : r'.tag? c' = some t) : r = r' ∧ r.isLasting = true := by
  cases r with
  | catchLabel =>
    cases h
    cases r' with
    | catchLabel =>
      cases h'
      exact ⟨rfl, rfl⟩
    | _ => cases h'
  | finallyLabel =>
    cases h
    cases r' with
    | finallyLabel =>
      cases h'
      exact ⟨rfl, rfl⟩
    | _ => cases h'
  | continuationLabel =>
    cases h
    cases r' with
    | continuationLabel =>
      cases h'
      exact ⟨rfl, rfl⟩
    | _ => cases h'
  | escapingEdge region =>
    cases h
    cases r' with
    | escapingEdge region' =>
      obtain ⟨rfl, hk⟩ := Tag.resume.inj (Option.some.inj h')
      have hlt := hle.escapes region'
      rw [escapes_after_escapingEdge, Function.update_self] at hlt
      omega
    | _ => cases h'
  | _ => cases h

theorem ne_localExc {regions : Nat} {ty : Ir.Ty}
    (hf : (freshLocal "localExc" ty).fits regions = true) : False := by
  rw [fits, bne_self_eq_false, Bool.and_false] at hf
  cases hf

/-- The same for variables: two new variables have different numbers. -/
theorem eq_of_number? {n : String × Nat} {regions regions' : Nat} (hf : r.fits regions = true)
    (hf' : r'.fits regions' = true) (hle : (r.after c).Le c') (h : r.number? c = some n)
    (h' : r'.number? c' = some n) : r = r' ∧ r.isLasting = true := by
  cases r with
  | exceptionLocal =>
    cases h
    cases r' with
    | exceptionLocal =>
      cases h'
      exact ⟨rfl, rfl⟩
    | freshLocal =>
      obtain ⟨rfl, -⟩ := Prod.mk.inj (Option.some.inj h')
      exact (ne_localExc hf').elim
    | _ => cases h'
  | freshLocal stem =>
    cases h
    cases r' with
    | exceptionLocal =>
      obtain ⟨rfl, -⟩ := Prod.mk.inj (Option.some.inj h')
      exact (ne_localExc hf).elim
    | freshLocal =>
      obtain ⟨-, hk⟩ := Prod.mk.inj (Option.some.inj h')
      have hlt : c.temps + 1 ≤ c'.temps := hle.temps
      omega
    | _ => cases h'
  | _ => cases h

theorem isSome_label? {r : NameRequest} (h : r.isForLabel = true) (c : Counters) :
    (r.outcome c).label?.isSome = true := by
  cases r with
  | catchLabel | finallyLabel | continuationLabel | escapingEdge => rfl
  | _ => cases h

theorem isSome_var? {r : NameRequest} (h : r.isForVar = true) (c : Counters) :
    (r.outcome c).var?.isSome = true := by
  cases r with
  | exceptionLocal | freshLocal | labelVar => rfl
  | _ => cases h

theorem isFor_of_isLasting {r : NameRequest} (h : r.isLasting = true) :
    r.isForLabel = true ∨ r.isForVar = true := by
  cases r with
  | catchLabel | finallyLabel | continuationLabel => exact .inl rfl
  | exceptionLocal | labelVar => exact .inr rfl
  | _ => cases h

/-- What lasts does not depend on the counters. -/
theorem outcome_of_isLasting {r : NameRequest} (h : r.isLasting = true) (c c' : Counters) :
    r.outcome c = r.outcome c' := by
  cases r with
  | catchLabel | finallyLabel | continuationLabel | exceptionLocal | labelVar => rfl
  | _ => cases h

theorem after_le (r : NameRequest) (c : Counters) : c.Le (r.after c) := by
  cases r with
  | escapingEdge region =>
    refine ⟨Nat.le_refl _, fun region' => ?_⟩
    rw [escapes_after_escapingEdge, Function.update_apply]
    split
    · next he => exact he ▸ Nat.le_succ _
    · exact Nat.le_refl _
  | freshLocal => exact ⟨Nat.le_succ _, fun _ => Nat.le_refl _⟩
  | _ => exact ⟨Nat.le_refl _, fun _ => Nat.le_refl _⟩

theorem escapes_after (r : NameRequest) (c : Counters) (region : Nat) :
    (r.after c).escapes region = c.escapes region + if r.leaves region then 1 else 0 := by
  cases r with
  | escapingEdge region' =>
    rw [escapes_after_escapingEdge, Function.update_apply]
    simp only [leaves, beq_iff_eq, eq_comm (a := region)]
    split
    · next he => rw [he]
    · rfl
  | _ => rfl

theorem eq_of_leaves {region : Nat} {r : NameRequest} (h : r.leaves region = true) :
    r = escapingEdge region := by
  cases r with
  | escapingEdge => rw [eq_of_beq h]
  | _ => cases h

end NameRequest

theorem Counters.Le.trans {c₁ c₂ c₃ : Counters} (h : c₁.Le c₂) (h' : c₂.Le c₃) : c₁.Le c₃ :=
  ⟨h.temps.trans h'.temps, fun region => (h.escapes region).trans (h'.escapes region)⟩

theorem NameRequest.Gives.le {r : NameRequest} {c c' : Counters} {a : Except Fault NameAnswer}
    (h : r.Gives c a c') : (r.after c).Le c' :=
  ⟨h.temps, fun region => by rw [h.escapes]⟩

/-! ## One event -/

/-- The event is what comes of its request when the counters stand at `c`. -/
structure NameEvent.At (e : NameEvent) (c : Counters) : Prop where
  fits : e.1.fits c.regions = true
  answer : e.2 = .ok (e.1.outcome c) ∨
    e.1.isForLabel = false ∧ e.1.isForVar = false ∧ ∃ f, e.2 = .error f

namespace NameEvent.At

variable {e e' : NameEvent} {c c' : Counters}

theorem answer_of_some {α : Type} {f : NameAnswer → Option α} {x : α} (h : e.At c)
    (hx : e.2.toOption.bind f = some x) : f (e.1.outcome c) = some x := by
  rcases h.answer with ha | ⟨-, -, err, ha⟩ <;> rw [ha] at hx
  · exact hx
  · cases hx

/-- Who asks for a name gets an answer. -/
theorem answered (h : e.At c) (hr : e.1.isForLabel = true ∨ e.1.isForVar = true) :
    e.2 = .ok (e.1.outcome c) := by
  rcases h.answer with ha | ⟨hlabel, hvar, -⟩
  · exact ha
  · rw [hlabel, hvar] at hr
    rcases hr with hr | hr <;> cases hr

theorem isSome_label? (h : e.At c) (hr : e.1.isForLabel = true) : e.label?.isSome = true := by
  rw [label?, h.answered (.inl hr)]
  exact NameRequest.isSome_label? hr c

theorem isSome_var? (h : e.At c) (hr : e.1.isForVar = true) : e.var?.isSome = true := by
  rw [var?, h.answered (.inr hr)]
  exact NameRequest.isSome_var? hr c

theorem eq_of_isLasting (h : e.At c) (h' : e'.At c') (hr : e.1 = e'.1)
    (hl : e.1.isLasting = true) : e.2 = e'.2 := by
  have hl' : e'.1.isLasting = true := hr ▸ hl
  rw [h.answered (NameRequest.isFor_of_isLasting hl),
    h'.answered (NameRequest.isFor_of_isLasting hl'), hr, NameRequest.outcome_of_isLasting hl' c c']

theorem label?_inj (h : e.At c) (h' : e'.At c') (hle : (e.1.after c).Le c') {l : String}
    (hl : e.label? = some l) (hl' : e'.label? = some l) : e.1 = e'.1 ∧ e.1.isLasting = true := by
  have ht := h.answer_of_some hl
  have ht' := h'.answer_of_some hl'
  rw [NameRequest.label?_outcome, Option.map_eq_some_iff] at ht ht'
  obtain ⟨t, ht, rfl⟩ := ht
  obtain ⟨t', ht', hname⟩ := ht'
  cases Tag.name_inj (NameRequest.proper_tag? ht') (NameRequest.proper_tag? ht) hname
  exact NameRequest.eq_of_tag? hle ht ht'

theorem var?_inj (h : e.At c) (h' : e'.At c') (hle : (e.1.after c).Le c') {x : String}
    (hx : e.var? = some x) (hx' : e'.var? = some x) : e.1 = e'.1 ∧ e.1.isLasting = true := by
  rcases NameRequest.var?_outcome (h.answer_of_some hx) with ⟨hr, rfl⟩ | ⟨n, hn, rfl⟩ <;>
    rcases NameRequest.var?_outcome (h'.answer_of_some hx') with ⟨hr', hx'⟩ | ⟨n', hn', hx'⟩
  · rw [hr, hr']
    exact ⟨rfl, rfl⟩
  · exact (numbered_ne_labelVar _ _ hx'.symm).elim
  · exact (numbered_ne_labelVar _ _ hx').elim
  · obtain ⟨hstem, hnumber⟩ := numbered_inj (NameRequest.isStem_number? h.fits hn)
      (NameRequest.isStem_number? h'.fits hn') hx'
    cases Prod.ext hstem hnumber
    exact NameRequest.eq_of_number? h.fits h'.fits hle hn hn'

theorem eq_labelVar (h : e.At c) (hx : e.var? = some labelVar) : e.1 = .labelVar := by
  rcases NameRequest.var?_outcome (h.answer_of_some hx) with ⟨hr, -⟩ | ⟨n, -, hx⟩
  · exact hr
  · exact (numbered_ne_labelVar _ _ hx.symm).elim

theorem edge?_eq (h : e.At c) (region : Nat) :
    e.edge? region = if e.1.leaves region then some (edge region (c.escapes region)) else none := by
  unfold edge?
  split
  · next hr =>
    have he := NameRequest.eq_of_leaves hr
    rw [h.answered (.inl (by rw [he]; rfl)), he]
    rfl
  · rfl

end NameEvent.At

/-! ## A run -/

/-- The events follow one another, with the counters at `c` before the first one. -/
inductive Granted : Counters → List NameEvent → Prop
  | nil (c : Counters) : Granted c []
  | cons {c c' : Counters} {r : NameRequest} {a : Except Fault NameAnswer} {es : List NameEvent}
      (fits : r.fits c.regions = true) (gives : r.Gives c a c') (rest : Granted c' es) :
      Granted c ((r, a) :: es)

/-- The run lemma. -/
theorem granted_session {scopes : LabelScopes} {ρ : List Frame} {rs : List NameRequest} {s : State}
    (hv : View scopes ρ s) (hf : NameRequest.fitAll s.counters.regions rs = true) :
    Granted s.counters (session rs s).1 := by
  induction rs generalizing ρ s with
  | nil => exact .nil _
  | cons r rs ih =>
    obtain ⟨hr, hrs⟩ := Bool.and_eq_true_iff.mp hf
    rcases hrun : r.perform.run s with ⟨a, s'⟩
    obtain ⟨⟨ρ', hv'⟩, hg⟩ := NameRequest.gives_perform hv hr hrun
    have hrest : Granted s'.counters (session rs s').1 :=
      ih hv' (by rw [hg.regions, NameRequest.regions_after]; exact hrs)
    have hsession : (session (r :: rs) s).1 = (r, a) :: (session rs s').1 := by
      rw [session, hrun]
    rw [hsession]
    exact .cons hr hg hrest

namespace Granted

variable {c : Counters} {es : List NameEvent}

/-- The counters do not go back. -/
theorem later (h : Granted c es) : ∀ e ∈ es, ∃ c', e.At c' ∧ c.Le c' := by
  induction h with
  | nil => exact List.forall_mem_nil _
  | cons hf hg _ ih =>
    rintro e (_ | ⟨_, he⟩)
    · exact ⟨_, ⟨hf, hg.answer⟩, ⟨Nat.le_refl _, fun _ => Nat.le_refl _⟩⟩
    · obtain ⟨c', hat, hle⟩ := ih e he
      exact ⟨c', hat, ((NameRequest.after_le _ _).trans hg.le).trans hle⟩

/-- Between two events the counters move on as the first one says. -/
theorem pairwise (h : Granted c es) :
    es.Pairwise fun e e' => ∃ c c', e.At c ∧ e'.At c' ∧ (e.1.after c).Le c' := by
  induction h with
  | nil => exact .nil
  | cons hf hg hrest ih =>
    refine .cons (fun e he => ?_) ih
    obtain ⟨c', hat, hle⟩ := hrest.later e he
    exact ⟨_, c', ⟨hf, hg.answer⟩, hat, hg.le.trans hle⟩

/-- The jumps out of a region are numbered from the counter on. -/
theorem edges (h : Granted c es) (region : Nat) :
    ∀ (k : Nat) (x : EscapingEdge), (es.filterMap (NameEvent.edge? region))[k]? = some x →
      x.id = Int64.ofNat (c.escapes region + k) := by
  induction h with
  | nil =>
    intro k x hx
    simp at hx
  | @cons c c' r a es hf hg _ ih =>
    intro k x hx
    have hat : NameEvent.At (r, a) c := ⟨hf, hg.answer⟩
    have hcount := NameRequest.escapes_after r c region
    rw [← hg.escapes] at hcount
    rw [List.filterMap_cons, hat.edge?_eq] at hx
    by_cases hr : r.leaves region = true
    · simp only [hr, if_true] at hx hcount
      cases k with
      | zero =>
        cases hx
        rfl
      | succ k =>
        rw [ih k x hx, hcount]
        congr 1
        omega
    · simp only [hr] at hx hcount
      rw [ih k x hx, hcount]
      rfl

end Granted

theorem Granted.consistent {c : Counters} {es : List NameEvent} (h : Granted c es)
    (hc : ∀ region, c.escapes region = 0) : Consistent es := by
  have hedges : ∀ region (k : Nat) x, (es.filterMap (NameEvent.edge? region))[k]? = some x →
      x.id = Int64.ofNat k := by
    intro region k x hx
    rw [h.edges region k x hx, hc, Nat.zero_add]
  refine ⟨?_, ?_, ?_, ?_, ?_, ?_, hedges, ?_⟩
  · intro e he hr
    obtain ⟨_, hat, -⟩ := h.later e he
    exact hat.isSome_label? hr
  · intro e he hr
    obtain ⟨_, hat, -⟩ := h.later e he
    exact hat.isSome_var? hr
  · intro e he e' he' hr hl
    obtain ⟨_, hat, -⟩ := h.later e he
    obtain ⟨_, hat', -⟩ := h.later e' he'
    exact hat.eq_of_isLasting hat' hr hl
  · refine h.pairwise.imp ?_
    rintro e e' ⟨c, c', hat, hat', hle⟩ l hl hl'
    exact hat.label?_inj hat' hle hl hl'
  · refine h.pairwise.imp ?_
    rintro e e' ⟨c, c', hat, hat', hle⟩ x hx hx'
    exact hat.var?_inj hat' hle hx hx'
  · intro e he hx
    obtain ⟨_, hat, -⟩ := h.later e he
    exact hat.eq_labelVar hx
  · intro region k x hx hk
    have hid : x.id.toInt = (k : Int) := by
      rw [hedges region k x hx, Int64.toInt_ofNat_of_lt hk]
    have hnormal : normal.toInt = -1 := by decide
    have hpropagating : propagating.toInt = -2 := by decide
    refine ⟨hid, ?_, ?_⟩ <;> intro he <;> rw [he] at hid <;> omega

theorem view_startContext (scopes : LabelScopes) (params returns : List Ir.VarDecl)
    (shared : Shared) : View scopes [] ⟨startContext scopes params returns, shared⟩ := by
  obtain ⟨names, slot, hslot, he⟩ := startContext_eq scopes params returns
  rw [he]
  exact ⟨fun _ _ h => (by cases h), rfl, List.forall_mem_nil _, rfl, hslot⟩

/-- The names given out along a run are consistent, whatever is asked for. -/
theorem session_consistent (scopes : LabelScopes) (params returns : List Ir.VarDecl)
    (shared : Shared) (rs : List NameRequest) (h : NameRequest.fitAll 0 rs = true) :
    Consistent (session rs ⟨startContext scopes params returns, shared⟩).1 := by
  have hv := view_startContext scopes params returns shared
  obtain ⟨names, slot, -, he⟩ := startContext_eq scopes params returns
  rw [he] at hv ⊢
  exact (granted_session hv h).consistent fun _ => rfl

/-- Two `try` statements, the second one in the body of the first. Labels are asked for twice, the
regions are left by jumps in turns, and a stem is empty or looks like a generated name. -/
def mixedRequests : List NameRequest :=
  [.enterRegion 3 [none], .pushPhase 0 .inTry, .finallyLabel 0, .enterRegion 7 [],
    .pushPhase 1 .inTry, .escapingEdge 1, .escapingEdge 0, .escapingEdge 1, .catchLabel 1,
    .exceptionLocal 1, .freshLocal "tmp" .int, .freshLocal "" .bool, .declareLocal "x" .int,
    .popPhase 1 .inTry, .popPhase 1 .inTry, .catchLabel 1, .labelVar, .freshLocal "label" .int,
    .freshLocal "localExc1x" .ref, .exceptionLocal 0, .exceptionLocal 1, .finallyLabel 0,
    .continuationLabel 0, .labelVar]

theorem mixedRequests_consistent :
    NameRequest.fitAll 0 mixedRequests = true ∧
      Consistent (session mixedRequests ⟨startContext {} [] [], {}⟩).1 :=
  ⟨by decide, session_consistent {} [] [] {} mixedRequests (by decide)⟩

example :
    (session mixedRequests ⟨startContext {} [] [], {}⟩).1.filterMap NameEvent.var? =
      ["$localExc1", "$tmp0", "$1", "$label", "$label2", "$localExc1x3", "$localExc0", "$localExc1",
        "$label"] := by
  decide

end Unwind.Lowering
