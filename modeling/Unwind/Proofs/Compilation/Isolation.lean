import Unwind.Proofs.Compilation.Bodies
import Unwind.Proofs.Compilation.Scheduling

/-!
# Failures stay where they are

What becomes of a method depends on its own body and on the declarations of the program, but on no
other body. When failures are skipped, two programs that differ in one body have the same procedures
and the same diagnostics for all other methods; when they abort, the first failing method decides
(`compile_failures_isolated`).
-/

namespace Unwind.Compilation

open Ir (Procedure)
open Lowering (Env)

/-! ## Programs that differ in one body -/

/-- The bodies of a program, in declaration order. -/
def bodiesOf (p : Source.Program) : List (Option Source.Stmt) :=
  (membersOf p).map (·.method.body)

/-- The programs differ at most in the body of method `j`, counted in declaration order. -/
structure SameButBody (j : Nat) (p p' : Source.Program) : Prop where
  bare : p'.bare = p.bare
  bodies : ∀ i, i ≠ j → (bodiesOf p')[i]? = (bodiesOf p)[i]?

/-- The member without bodies. -/
def Member.bare (m : Member) : Member := ⟨m.owner.bare, m.method.bare⟩

theorem membersOf_bare (p : Source.Program) : membersOf p.bare = (membersOf p).map Member.bare := by
  simp only [membersOf, Source.Program.allTypes_bare, List.flatMap_map, List.map_flatMap,
    Source.TypeDef.methods_bare, List.map_map]
  rfl

/-- Methods at the same place, apart from their bodies. -/
theorem SameButBody.member {j : Nat} {p p' : Source.Program} (h : SameButBody j p p') (i : Nat) :
    Option.Rel (fun m m' : Member => m.bare = m'.bare) (membersOf p)[i]? (membersOf p')[i]? := by
  have hmap : (membersOf p').map Member.bare = (membersOf p).map Member.bare := by
    rw [← membersOf_bare, ← membersOf_bare, h.bare]
  have hi := congrArg (·[i]?) hmap
  simp only [List.getElem?_map] at hi
  cases hm : (membersOf p)[i]? with
  | none =>
    rw [hm, Option.map_none, Option.map_eq_none_iff] at hi
    rw [hi]
    exact .none
  | some m =>
    rw [hm, Option.map_some] at hi
    obtain ⟨m', hm', he⟩ := Option.map_eq_some_iff.mp hi
    rw [hm']
    exact .some he.symm

theorem Member.procedureName_bare (m : Member) : m.bare.procedureName = m.procedureName := by
  simp only [Member.procedureName, Member.bare, Source.TypeDef.name_bare]
  rfl

/-- The methods have the same names, in the same order. -/
theorem SameButBody.names {j : Nat} {p p' : Source.Program} (h : SameButBody j p p') :
    (membersOf p').map Member.procedureName = (membersOf p).map Member.procedureName := by
  have hbare : ∀ q : Source.Program, (membersOf q).map Member.procedureName =
      (membersOf q.bare).map Member.procedureName := by
    intro q
    rw [membersOf_bare, List.map_map]
    exact List.map_congr_left fun m _ => m.procedureName_bare.symm
  rw [hbare p', hbare p, h.bare]

/-- A method is what it is without its body, and its body. -/
theorem method_eq {m m' : Source.MethodDef} (h : m'.bare = m.bare) (hbody : m'.body = m.body) :
    m' = m := by
  obtain ⟨_, _, _, _, _, _, _, _, _⟩ := m
  obtain ⟨_, _, _, _, _, _, _, _, _⟩ := m'
  cases hbody
  cases h
  rfl

/-! ## Fates -/

/-- What becomes of each method of a program when it is compiled alone. -/
def fatesOf (options : Options) (p : Source.Program) (literal : Int64 → Int64) :
    List (String × Except Fault Procedure) :=
  (membersOf p).map fun m =>
    (m.procedureName, outcomeOf (envOf options p literal) (Hierarchy.ofProgram p) m)

/-- The compilation shows these fates: the procedures stand in front, in order, and the methods
left out are listed in order, each with its diagnostic. -/
structure Shows (c : Compilation) (fates : List (String × Except Fault Procedure)) : Prop where
  procedures : ∃ helpers, c.program.procedures = emitted fates ++ allocDecl :: helpers
  diagnostics : c.diagnostics = (faults fates).map fun f => .ofFault f.2 f.1
  skipped : c.skipped = (faults fates).map (·.1)

/-- Keys do not matter for what is emitted, and faults keep theirs. -/
theorem emitted_map_key {κ κ' : Type} (f : κ → κ') (results : List (κ × Except Fault Procedure)) :
    emitted (results.map fun x => (f x.1, x.2)) = emitted results := by
  simp only [emitted, List.filterMap_map]
  rfl

theorem faults_map_key {κ κ' : Type} (f : κ → κ') (results : List (κ × Except Fault Procedure)) :
    faults (results.map fun x => (f x.1, x.2)) = (faults results).map fun x => (f x.1, x.2) := by
  simp only [faults, List.filterMap_map, List.map_filterMap]
  refine List.filterMap_congr fun x _ => ?_
  obtain ⟨k, fault | procedure⟩ := x <;> rfl

/-- The first fault is the first one in order. -/
theorem faults_eq_cons {κ : Type} {results : List (κ × Except Fault Procedure)} {i : Nat} {k : κ}
    {e : Fault} (hi : results[i]? = some (k, .error e))
    (hlt : ∀ n < i, ∀ x, results[n]? = some x → ∃ q, x.2 = .ok q) :
    ∃ rest, faults results = (k, e) :: rest := by
  induction results generalizing i with
  | nil => cases hi
  | cons x results ih =>
    cases i with
    | zero =>
      obtain rfl : x = (k, .error e) := Option.some.inj hi
      exact ⟨faults results, rfl⟩
    | succ i =>
      obtain ⟨q, hq⟩ := hlt 0 (Nat.succ_pos i) x rfl
      obtain ⟨rest, hrest⟩ := ih hi fun n hn x hx => hlt (n + 1) (Nat.succ_lt_succ hn) x hx
      refine ⟨rest, ?_⟩
      obtain ⟨k', r⟩ := x
      obtain rfl : r = .ok q := hq
      exact hrest

/-- To stop at failures and to leave them out come to the same where there are none. -/
theorem concluded_abort_eq_ok {p : Source.Program} {results : List (Except Fault Procedure)}
    {helpers : List Procedure} {c : Compilation} :
    concluded .abort p results helpers = .ok c ↔
      concluded .skip p results helpers = .ok c ∧ c.skipped = [] := by
  have habort : faults ((membersOf p).zip results) = [] →
      concluded .abort p results helpers = concluded .skip p results helpers := by
    intro hfaults
    simp only [concluded, collected, hfaults]
  constructor
  · intro h
    obtain ⟨-, -, hskipped, hfaults⟩ := concluded_eq_ok h
    refine ⟨(habort (hfaults rfl)).symm.trans h, ?_⟩
    rw [hskipped, hfaults rfl, List.map_nil]
  · rintro ⟨h, hempty⟩
    obtain ⟨-, -, hskipped, -⟩ := concluded_eq_ok h
    rw [habort (List.map_eq_nil_iff.mp (hskipped.symm.trans hempty)), h]

/-- Under `abort` the first fault is the result. -/
theorem concluded_abort_eq_error {p : Source.Program} {results : List (Except Fault Procedure)}
    {m : Member} {e : Fault} {rest : List (Member × Fault)}
    (h : faults ((membersOf p).zip results) = (m, e) :: rest) (helpers : List Procedure) :
    concluded .abort p results helpers = .error e := by
  simp only [concluded, collected, h]
  rfl

/-! ## Compilations and fates -/

section

variable {options : Options} (hb : options.instrumentBranches = false)
  (hc : options.captureState = false)
include hb hc

/-- The declarations and the method itself decide what becomes of a method. -/
theorem outcomeOf_eq {p p' : Source.Program} (h : p'.bare = p.bare) (literal : Int64 → Int64)
    {m m' : Member} (howner : m'.owner.name = m.owner.name) (hmethod : m'.method = m.method) :
    outcomeOf (envOf options p' literal) (Hierarchy.ofProgram p') m' =
      outcomeOf (envOf options p literal) (Hierarchy.ofProgram p) m := by
  have hfiles : p'.bare.files = p.bare.files := by rw [h]
  have ha : (envOf options p literal).Alike (envOf options p' literal) := by
    refine ⟨rfl, rfl, isStruct_of_bare_eq h, fun file => ?_⟩
    exact congrArg (fun files : List SourceFile => files[file.toNat]?.map (·.path)) hfiles
  obtain ⟨t, ht, hx, hy⟩ := attempt_performs ha (Env.asks_lookups hb hc)
    (agree_of_bare_eq h) howner hmethod
  rw [← outcome_eq ht hx, ← outcome_eq ht hy]

/-- Another body has no influence on what becomes of a method. -/
theorem fates_eq {j : Nat} {p p' : Source.Program} (h : SameButBody j p p')
    (literal : Int64 → Int64) {i : Nat} (hi : i ≠ j) :
    (fatesOf options p' literal)[i]? = (fatesOf options p literal)[i]? := by
  have hrel := h.member i
  have hbodies := h.bodies i hi
  simp only [fatesOf, bodiesOf, List.getElem?_map] at hbodies ⊢
  generalize (membersOf p)[i]? = o at hrel hbodies ⊢
  generalize (membersOf p')[i]? = o' at hrel hbodies ⊢
  cases hrel with
  | none => rw [Option.map_none, Option.map_none]
  | @some m m' hbare =>
    have howner : m'.owner.name = m.owner.name := by
      rw [← Source.TypeDef.name_bare m'.owner, ← Source.TypeDef.name_bare m.owner]
      exact congrArg (·.owner.name) hbare.symm
    have hmethod : m'.method = m.method :=
      method_eq (congrArg Member.method hbare).symm (Option.some.inj hbodies)
    have hname : m'.procedureName = m.procedureName := by
      rw [Member.procedureName, Member.procedureName, howner, hmethod]
    rw [Option.map_some, Option.map_some, hname, outcomeOf_eq hb hc h.bare literal howner hmethod]

/-- Under both policies a compilation is concluded from the same results and helpers. -/
theorem compile_concluded (p : Source.Program) (literal : Int64 → Int64) :
    ∃ results helpers, fatesOf options p literal =
        (((membersOf p).zip results).map fun x => (x.1.procedureName, x.2)) ∧
      ∀ policy, (compile options policy p literal).1 = concluded policy p results helpers := by
  obtain ⟨talk, ht, -⟩ := exists_talksOf hb hc p literal 1
  obtain ⟨results, r, hs, -⟩ := compile_eq .skip ht
  refine ⟨results, r.helpers, ?_, fun policy => ?_⟩
  · rw [zip_results ht hs, List.map_map]
    rfl
  · obtain ⟨results', r', hs', h'⟩ := compile_eq policy ht
    rw [h', concluded_eq_of_settled hs' hs]

/-- What a compilation that skips failures shows. -/
theorem shows_of_skip {p : Source.Program} {literal : Int64 → Int64} {c : Compilation}
    (h : (compile options .skip p literal).1 = .ok c) : Shows c (fatesOf options p literal) := by
  obtain ⟨results, helpers, hfates, hcompile⟩ := compile_concluded hb hc p literal
  rw [hcompile] at h
  obtain ⟨hprogram, hdiagnostics, hskipped, -⟩ := concluded_eq_ok h
  refine ⟨⟨helpers, ?_⟩, ?_, ?_⟩
  · rw [procedures_of_assemble hprogram, hfates, emitted_map_key]
  · rw [hdiagnostics, hfates, faults_map_key, List.map_map]
    rfl
  · rw [hskipped, hfates, faults_map_key, List.map_map]
    rfl

/-- The first method that fails decides what a compilation that stops at failures comes to. -/
theorem abort_of_fate {p : Source.Program} {literal : Int64 → Int64} {i : Nat} {name : String}
    {e : Fault} (hi : (fatesOf options p literal)[i]? = some (name, .error e))
    (hlt : ∀ n < i, ∀ x, (fatesOf options p literal)[n]? = some x → ∃ q, x.2 = .ok q) :
    (compile options .abort p literal).1 = .error e := by
  obtain ⟨results, helpers, hfates, hcompile⟩ := compile_concluded hb hc p literal
  obtain ⟨rest, hrest⟩ := faults_eq_cons hi hlt
  rw [hfates, faults_map_key] at hrest
  obtain ⟨⟨m, e'⟩, rest', hfaults, hfirst, -⟩ := List.map_eq_cons_iff.mp hrest
  obtain ⟨-, rfl⟩ := Prod.mk.inj hfirst
  rw [hcompile, concluded_abort_eq_error hfaults]

end

/-- Failures are isolated. Two programs that differ in the body of method `j` have methods of the
same names, all but `j` with the same fate, and these fates are what compilations that skip failures
show. A compilation that stops at failures succeeds when the one that skips them leaves nothing out,
with the same result, and otherwise the first method that fails decides. -/
theorem compile_failures_isolated (options : Options) (literal : Int64 → Int64)
    (hb : options.instrumentBranches = false) (hc : options.captureState = false) :
    (∀ j p p', SameButBody j p p' →
      (fatesOf options p' literal).map (·.1) = (fatesOf options p literal).map (·.1) ∧
      (∀ i, i ≠ j → (fatesOf options p' literal)[i]? = (fatesOf options p literal)[i]?) ∧
      ∀ c c', (compile options .skip p literal).1 = .ok c →
        (compile options .skip p' literal).1 = .ok c' →
        Shows c (fatesOf options p literal) ∧ Shows c' (fatesOf options p' literal)) ∧
    ∀ p, (∀ c, (compile options .abort p literal).1 = .ok c ↔
        (compile options .skip p literal).1 = .ok c ∧ c.skipped = []) ∧
      ∀ (i : Nat) (name : String) (e : Fault),
        (fatesOf options p literal)[i]? = some (name, .error e) →
        (∀ n < i, ∀ x, (fatesOf options p literal)[n]? = some x → ∃ q, x.2 = .ok q) →
        (compile options .abort p literal).1 = .error e := by
  refine ⟨fun j p p' h => ⟨?_, fun i hi => fates_eq hb hc h literal hi, fun c c' hok hok' => ?_⟩,
    fun p => ⟨fun c => ?_, fun i name e hi hlt => abort_of_fate hb hc hi hlt⟩⟩
  · rw [fatesOf, fatesOf, List.map_map, List.map_map]
    exact h.names
  · exact ⟨shows_of_skip hb hc hok, shows_of_skip hb hc hok'⟩
  · obtain ⟨results, helpers, -, hcompile⟩ := compile_concluded hb hc p literal
    rw [hcompile, hcompile]
    exact concluded_abort_eq_ok

/-- A lamp that blinks in the given way. -/
def lamp (blink : Option Source.Stmt) : Source.Program :=
  { types := [
      { name := ⟨"Lamp", none⟩, kind := .classType, methods := [
          { name := "blink", body := blink },
          { name := "glow", body := some (.ofKind .empty) }] }] }

theorem lamp_sameButBody (blink blink' : Option Source.Stmt) :
    SameButBody 0 (lamp blink) (lamp blink') := by
  refine ⟨rfl, fun i hi => ?_⟩
  cases i with
  | zero => exact absurd rfl hi
  | succ i => rfl

/-- A loop in one method, which cannot be lowered, does no harm to the other one. -/
theorem lamp_failures :
    let spin : Source.Stmt := .ofKind
      (.whileLoop (.ofKind (.literal (.bool true)) .bool) (.ofKind .empty))
    (fatesOf {} (lamp (some spin)) id)[1]? = (fatesOf {} (lamp none) id)[1]? :=
  ((compile_failures_isolated {} id rfl rfl).1 0 _ _ (lamp_sameButBody none _)).2.1 1 (by decide)

end Unwind.Compilation
