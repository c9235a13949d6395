import Unwind.Proofs.Compilation.Outcomes

/-!
# Compilations do not depend on their workers

Without breadcrumbs and state markers, the result of a compilation does not depend on the number of
workers, nor on the order in which the registry serves their requests
(`compile_scheduling_irrelevant`). Each method is a talk with the registry; the talks are dealt out
to the workers, any interleaving of their requests can be finished, and every one that is finished
leads to the result of one worker: the same fault, or the same program with the same diagnostics and
the same methods left out.
-/

namespace Unwind.Compilation

open Ir (Procedure)
open Lowering (Env)
open Workers (Pool)

/-- The number of workers is no matter of the methods. -/
theorem exists_talksOf {options : Options} (hb : options.instrumentBranches = false)
    (hc : options.captureState = false) (p : Source.Program) (literal : Int64 → Int64)
    (jobs : UInt64) :
    ∃ talk, TalksOf options p literal talk ∧ TalksOf { options with jobs } p literal talk := by
  have ha : (envOf options p literal).Alike (envOf { options with jobs } p literal) :=
    ⟨rfl, rfl, fun _ => rfl, fun _ => rfl⟩
  choose talk hl hx hy using fun m : Member => attempt_performs ha (Env.asks_lookups hb hc)
    (Dispatch.Agree.refl (Hierarchy.ofProgram p)) (m := m) rfl rfl
  exact ⟨talk, fun m _ => ⟨hl m, hx m⟩, fun m _ => ⟨hl m, hy m⟩⟩

section

variable {options : Options} {policy : FailurePolicy} {p : Source.Program}
  {literal : Int64 → Int64}

theorem concluded_eq_of_settled {talks : List (Talk (Except Fault Procedure))}
    {results results' : List (Except Fault Procedure)} {r r' : Registry}
    (h : Workers.Settled talks results r) (h' : Workers.Settled talks results' r') :
    concluded policy p results r.helpers = concluded policy p results' r'.helpers := by
  rw [h.results_eq, h'.results_eq, h.helpers_eq h']

theorem compile_jobs_eq (hb : options.instrumentBranches = false)
    (hc : options.captureState = false) (jobs : UInt64) :
    (compile options policy p literal).1 = (compile { options with jobs } policy p literal).1 := by
  obtain ⟨talk, ht, ht'⟩ := exists_talksOf hb hc p literal jobs
  obtain ⟨results, r, hs, h⟩ := compile_eq policy ht
  obtain ⟨results', r', hs', h'⟩ := compile_eq policy ht'
  rw [h, h', concluded_eq_of_settled hs hs']

/-- An interleaving that is over comes to what the compilation comes to. -/
theorem conclude_pool {talk : Member → Talk (Except Fault Procedure)}
    (ht : TalksOf options p literal talk) {n : Nat} (hn : 0 < n) {pool : Pool _}
    (hpool : (Pool.start n ((membersOf p).map talk)).Reaches pool) (hdone : pool.IsDone)
    (log : Log) :
    ((conclude policy p (Workers.inOrder pool.results)).run ⟨pool.registry, log⟩).1 =
      (compile options policy p literal).1 := by
  have hl : ∀ t ∈ (membersOf p).map talk, t.Lookups := by
    intro t hmem
    obtain ⟨m, hm, rfl⟩ := List.mem_map.mp hmem
    exact (ht m hm).1
  obtain ⟨results, r, hs, h⟩ := compile_eq policy ht
  rw [h, run_conclude]
  exact concluded_eq_of_settled (Pool.settled hn hl hpool hdone) hs

end

/-- The result of a compilation without breadcrumbs and state markers depends neither on the number
of workers nor on the order in which their requests are served. -/
theorem compile_scheduling_irrelevant (options : Options) (policy : FailurePolicy)
    (p : Source.Program) (literal : Int64 → Int64) (hb : options.instrumentBranches = false)
    (hc : options.captureState = false) :
    (compile options policy p literal).1 =
        (compile { options with jobs := 1 } policy p literal).1 ∧
      (∃ talk, TalksOf options p literal talk) ∧
      (∀ talk, TalksOf options p literal talk → ∀ pool,
        (Pool.start (Workers.count options.jobs.toNat (membersOf p).length)
          ((membersOf p).map talk)).Reaches pool →
          (∃ pool', pool.Reaches pool' ∧ pool'.IsDone) ∧
          (pool.IsDone → ∀ log,
            ((conclude policy p (Workers.inOrder pool.results)).run ⟨pool.registry, log⟩).1 =
              (compile { options with jobs := 1 } policy p literal).1)) ∧
      ∀ c, (compile options policy p literal).1 = .ok c → ∃ procedures r,
        c.program.procedures = procedures ++ allocDecl :: Registry.helpers r ∧
          (procedures.map (·.name)).Sublist ((membersOf p).map Member.procedureName) := by
  have hone : (compile options policy p literal).1 = _ := compile_jobs_eq hb hc 1
  obtain ⟨talk, ht, -⟩ := exists_talksOf hb hc p literal 1
  refine ⟨hone, ⟨talk, ht⟩, fun talk ht pool hpool => ⟨pool.can_finish, fun hdone log => ?_⟩, ?_⟩
  · rw [← hone]
    exact conclude_pool ht (count_pos _ _) hpool hdone log
  · intro c hok
    obtain ⟨procedures, r, -, hprogram, hnames, -⟩ := compile_declares hok
    exact ⟨procedures, r, procedures_of_assemble hprogram, hnames⟩

/-- A struct that two methods copy, and a method whose loop cannot be lowered. -/
def shapes : Source.Program :=
  let point : Source.Ty := .named ⟨"Point", none⟩
  let copy : Source.Stmt := .ofKind (.localDecl ⟨"q", point⟩ (some (.var "p" point)))
  let spin : Source.Stmt := .ofKind (.whileLoop (.ofKind (.literal (.bool true)) .bool) copy)
  { types := [
      { name := ⟨"Point", none⟩, kind := .structType },
      { name := ⟨"Shape", none⟩, kind := .classType, methods := [
          { name := "grow", params := [⟨"p", point⟩], body := some copy },
          { name := "spin", body := some spin },
          { name := "turn", params := [⟨"p", point⟩], body := some copy }] }] }

theorem shapes_scheduling :
    (compile { jobs := 7 } .skip shapes).1 = (compile {} .skip shapes).1 ∧
      ∃ talk, TalksOf { jobs := 7 } shapes id talk :=
  have h := compile_scheduling_irrelevant { jobs := 7 } .skip shapes id rfl rfl
  ⟨h.1, h.2.1⟩

end Unwind.Compilation
