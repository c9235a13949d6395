import Unwind.Compilation
import Unwind.Proofs.Dispatch
import Unwind.Proofs.Lowering.Requests
import Unwind.Proofs.Workers

/-!
# The outcomes of methods

What becomes of a method does not depend on the methods compiled before it: its compilation is one
talk that asks for helpers only (`attempt_performs`), so that its outcome is the one it has when it
is compiled alone (`outcomeOf`). A compilation is put together from these outcomes and the helpers
that have been asked for (`compile_eq`).
-/

namespace Unwind.Compilation

open Ir (Procedure)
open Lowering (Env Shared Compiling run_bind)

/-! ## One method -/

section

variable {h h' : Hierarchy}

/-- An expansion leaves the registry alone, and hierarchies that agree expand alike. -/
theorem devirtualize_eq (hh : Dispatch.Agree h h') (body : Source.Stmt) :
    ∃ r, (∀ shared : Shared, ∃ log,
        (devirtualize h body).run shared = (r, ⟨shared.registry, log⟩)) ∧
      ∀ shared : Shared, ∃ log,
        (devirtualize h' body).run shared = (r, ⟨shared.registry, log⟩) := by
  obtain ⟨r, s, hx, hy⟩ := Dispatch.transform_same hh body {}
  have hrun : ∀ {h : Hierarchy}, Dispatch.Leads (Dispatch.transform h body) {} r s →
      ∀ shared : Shared, ∃ log, (devirtualize h body).run shared =
        (r.map fun body => (body, s.replaced), ⟨shared.registry, log⟩) := by
    intro h hleads shared
    obtain ⟨log, hlog⟩ := hleads shared.log
    refine ⟨log, ?_⟩
    show (((Dispatch.transform h body).run { log := shared.log }).1.map fun expanded =>
        (expanded, ((Dispatch.transform h body).run { log := shared.log }).2.replaced),
      { shared with log := ((Dispatch.transform h body).run { log := shared.log }).2.log }) = _
    rw [hlog]
  exact ⟨_, hrun hx, hrun hy⟩

/-- What comes first asks for nothing. -/
theorem performs_bind {α β : Type} {x : Compiling α} {f : α → Compiling β} {a : α}
    {t : Talk (Except Fault β)}
    (hx : ∀ shared : Shared, ∃ log, x.run shared = (.ok a, ⟨shared.registry, log⟩))
    (ht : t.Performs (f a).run) : t.Performs (x >>= f).run := by
  intro shared
  obtain ⟨log, hlog⟩ := hx shared
  obtain ⟨log', hlog'⟩ := ht ⟨shared.registry, log⟩
  refine ⟨log', (run_bind x f shared).trans ?_⟩
  rw [hlog]
  exact hlog'

theorem performs_bind_error {α β : Type} {x : Compiling α} {f : α → Compiling β} {e : Fault}
    (hx : ∀ shared : Shared, ∃ log, x.run shared = (.error e, ⟨shared.registry, log⟩)) :
    Talk.Performs (.done (.error e)) (x >>= f).run := by
  intro shared
  obtain ⟨log, hlog⟩ := hx shared
  refine ⟨log, (run_bind x f shared).trans ?_⟩
  rw [hlog]
  rfl

theorem performs_report {β : Type} {level : Log.Level} {message : String} {c : Prop} [Decidable c]
    {x : Compiling β} {t : Talk (Except Fault β)} (ht : t.Performs x.run) :
    t.Performs (if c then report level message >>= fun _ => x else x).run := by
  by_cases hc : c
  · rw [if_pos hc]
    exact performs_bind (a := ()) (fun shared => ⟨shared.log.add level message, rfl⟩) ht
  · rw [if_neg hc]
    exact ht

/-- A method is compiled by one talk, the same wherever the hierarchies agree and the environments
are alike. -/
theorem attempt_performs {env env' : Env} {may : Request → Prop} (ha : env.Alike env')
    (hmay : env.Asks may) (hh : Dispatch.Agree h h') {m m' : Member}
    (ho : m'.owner.name = m.owner.name) (hm : m'.method = m.method) :
    ∃ t : Talk (Except Fault Procedure), t.Only may ∧ t.Performs (attempt env h m) ∧
      t.Performs (attempt env' h' m') := by
  obtain ⟨owner', method⟩ := m'
  obtain rfl : method = m.method := hm
  unfold attempt compileMember
  rcases hbody : m.method.body with _ | body
  · dsimp only
    exact Lowering.lowerMethod_performs ha hmay ho m.method
  · dsimp only
    obtain ⟨r, hx, hy⟩ := devirtualize_eq hh body
    cases r with
    | error e => exact ⟨.done (.error e), .done _, performs_bind_error hx, performs_bind_error hy⟩
    | ok expanded =>
      obtain ⟨t, ht, htx, hty⟩ := Lowering.lowerMethod_performs ha hmay ho
        { m.method with body := some expanded.1 }
      exact ⟨t, ht, performs_bind hx (performs_report htx), performs_bind hy (performs_report hty)⟩

end

/-- What becomes of a method that is compiled alone. -/
def outcomeOf (env : Env) (h : Hierarchy) (m : Member) : Except Fault Procedure :=
  ((attempt env h m).run {}).1

theorem outcome_eq {env : Env} {h : Hierarchy} {m : Member} {t : Talk (Except Fault Procedure)}
    (ht : t.Lookups) (hp : t.Performs (attempt env h m)) : t.outcome = outcomeOf env h m := by
  obtain ⟨log, hlog⟩ := hp {}
  rw [outcomeOf, hlog]
  exact (Talk.run_sound ht .empty).1.symm

/-- A method that is compiled becomes the procedure of its name. -/
theorem name_of_compileMember {env : Env} {h : Hierarchy} {m : Member} {p : Procedure}
    {shared : Shared} (hp : ((compileMember env h m).run shared).1 = .ok p) :
    p.name = m.procedureName := by
  unfold compileMember at hp
  split at hp
  · next body hbody =>
    obtain ⟨r, hx, -⟩ := devirtualize_eq (.refl h) body
    obtain ⟨log, hlog⟩ := hx shared
    rw [run_bind, hlog] at hp
    cases r with
    | error e => cases hp
    | ok expanded =>
      dsimp only at hp
      split at hp
      · rw [run_bind] at hp
        exact Lowering.name_of_lowerMethod (m := { m.method with body := some expanded.1 }) hp
      · exact Lowering.name_of_lowerMethod (m := { m.method with body := some expanded.1 }) hp
  · exact Lowering.name_of_lowerMethod hp

/-! ## All results -/

/-- The procedures among the results. -/
def emitted {κ : Type} (results : List (κ × Except Fault Procedure)) : List Procedure :=
  results.filterMap (·.2.toOption)

/-- Those that failed, with their faults. -/
def faults {κ : Type} (results : List (κ × Except Fault Procedure)) : List (κ × Fault) :=
  results.filterMap fun
    | (k, .error fault) => some (k, fault)
    | (_, .ok _) => none

/-- A result that is a procedure has the name of its method. -/
def NamedAfter (m : Member) (r : Except Fault Procedure) : Prop :=
  ∀ q, r = .ok q → q.name = m.procedureName

theorem map_name_emitted {results : List (Member × Except Fault Procedure)}
    (h : ∀ x ∈ results, NamedAfter x.1 x.2) :
    ((emitted results).map (·.name)).Sublist (results.map (·.1.procedureName)) := by
  induction results with
  | nil => exact List.Sublist.slnil
  | cons x results ih =>
    have ih := ih fun y hy => h y (List.mem_cons_of_mem _ hy)
    obtain ⟨m, fault | procedure⟩ := x
    · exact ih.cons _
    · have hname := h _ List.mem_cons_self procedure rfl
      show (procedure.name :: (emitted results).map (·.name)).Sublist (m.procedureName :: _)
      rw [hname]
      exact ih.cons_cons _

theorem length_emitted {κ : Type} (results : List (κ × Except Fault Procedure)) :
    (emitted results).length + (faults results).length = results.length := by
  induction results with
  | nil => rfl
  | cons x results ih =>
    obtain ⟨k, fault | procedure⟩ := x
    · show (emitted results).length + ((faults results).length + 1) = results.length + 1
      omega
    · show (emitted results).length + 1 + (faults results).length = results.length + 1
      omega

/-- The first fault under `abort`; otherwise what is emitted and what is left out, in order. -/
def collected (policy : FailurePolicy) (results : List (Member × Except Fault Procedure)) :
    Except Fault Outcome :=
  match policy, faults results with
  | .abort, (_, fault) :: _ => .error fault
  | _, failed => .ok {
      procedures := emitted results
      diagnostics := failed.map fun f => .ofFault f.2 f.1.procedureName
      skipped := failed.map (·.1.procedureName) }

theorem collected_eq_ok {policy : FailurePolicy}
    {results : List (Member × Except Fault Procedure)} {out : Outcome}
    (h : collected policy results = .ok out) :
    out.procedures = emitted results ∧
      out.diagnostics = ((faults results).map fun f => .ofFault f.2 f.1.procedureName) ∧
      out.skipped = (faults results).map (·.1.procedureName) ∧
      (policy = .abort → faults results = []) := by
  unfold collected at h
  split at h
  · cases h
  · next failed hfailed =>
    cases h
    refine ⟨rfl, rfl, rfl, ?_⟩
    rintro rfl
    cases hf : faults results with
    | nil => rfl
    | cons f rest => exact absurd hf (hfailed f.1 f.2 rest rfl)

/-- One outcome after another. -/
def Outcome.append (out more : Outcome) : Outcome where
  procedures := out.procedures ++ more.procedures
  diagnostics := out.diagnostics ++ more.diagnostics
  skipped := out.skipped ++ more.skipped

theorem collected_ok (policy : FailurePolicy) (m : Member) (procedure : Procedure)
    (results : List (Member × Except Fault Procedure)) :
    collected policy ((m, .ok procedure) :: results) =
      (collected policy results).map (Outcome.append { procedures := [procedure] }) := by
  have hf : faults ((m, .ok procedure) :: results) = faults results := rfl
  unfold collected
  rw [hf]
  split <;> rfl

theorem collected_error (m : Member) (fault : Fault)
    (results : List (Member × Except Fault Procedure)) :
    collected .skip ((m, .error fault) :: results) =
      (collected .skip results).map (Outcome.append {
        diagnostics := [.ofFault fault m.procedureName], skipped := [m.procedureName] }) := rfl

theorem Outcome.append_append (out more rest : Outcome) :
    (out.append more).append rest = out.append (more.append rest) := by
  simp only [Outcome.append, List.append_assoc]

theorem run_collect (policy : FailurePolicy) (results : List (Member × Except Fault Procedure))
    (out : Outcome) (shared : Shared) :
    ∃ log, (collect policy results out).run shared =
      ((collected policy results).map out.append, ⟨shared.registry, log⟩) := by
  have hmap : ∀ (out more : Outcome) (x : Except Fault Outcome),
      x.map (out.append more).append = (x.map more.append).map out.append := by
    intro out more x
    cases x with
    | error e => rfl
    | ok o => exact congrArg Except.ok (Outcome.append_append out more o)
  induction results generalizing out shared with
  | nil =>
    refine ⟨shared.log, ?_⟩
    have hout : out.append {} = out := by simp [Outcome.append]
    cases policy <;> exact congrArg (fun o => (Except.ok o, shared)) hout.symm
  | cons result results ih =>
    obtain ⟨m, fault | procedure⟩ := result
    · cases policy with
      | abort => exact ⟨shared.log, rfl⟩
      | skip =>
        let message := s!"skipping {m.procedureName}: {fault.message}"
        obtain ⟨log, hlog⟩ := ih (out.append {
          diagnostics := [.ofFault fault m.procedureName], skipped := [m.procedureName] })
          ⟨shared.registry, shared.log.add .warn message⟩
        refine ⟨log, ?_⟩
        rw [collected_error, ← hmap, ← hlog, Outcome.append, List.append_nil]
        rfl
    · obtain ⟨log, hlog⟩ := ih (out.append { procedures := [procedure] }) shared
      refine ⟨log, ?_⟩
      rw [collected_ok, ← hmap, ← hlog, collect, Outcome.append, List.append_nil, List.append_nil]

/-! ## Whole programs -/

/-- What is made of the results of the methods, once all of them are there. -/
def conclude (policy : FailurePolicy) (p : Source.Program)
    (results : List (Except Fault Procedure)) : Compiling Compilation := do
  let out ← collect policy ((membersOf p).zip results) {}
  let helpers := (← get).registry.helpers
  let program ← assemble p (Hierarchy.ofProgram p).table (out.procedures ++ allocDecl :: helpers)
  return { program, diagnostics := out.diagnostics, skipped := out.skipped }

/-- The compilation made of results and helpers. -/
def concluded (policy : FailurePolicy) (p : Source.Program)
    (results : List (Except Fault Procedure)) (helpers : List Procedure) :
    Except Fault Compilation := do
  let out ← collected policy ((membersOf p).zip results)
  let program ← assemble p (Hierarchy.ofProgram p).table (out.procedures ++ allocDecl :: helpers)
  return { program, diagnostics := out.diagnostics, skipped := out.skipped }

theorem run_conclude (policy : FailurePolicy) (p : Source.Program)
    (results : List (Except Fault Procedure)) (shared : Shared) :
    ((conclude policy p results).run shared).1 =
      concluded policy p results shared.registry.helpers := by
  obtain ⟨log, hlog⟩ := run_collect policy ((membersOf p).zip results) {} shared
  unfold conclude concluded
  rw [run_bind, hlog]
  cases collected policy ((membersOf p).zip results) with
  | error e => rfl
  | ok out =>
    show ((liftM (assemble p (Hierarchy.ofProgram p).table
        (out.procedures ++ allocDecl :: shared.registry.helpers)) >>= fun program =>
          pure { program, diagnostics := out.diagnostics, skipped := out.skipped } :
        Compiling Compilation).run ⟨shared.registry, log⟩).1 =
      assemble p _ (out.procedures ++ allocDecl :: shared.registry.helpers) >>= _
    cases assemble p (Hierarchy.ofProgram p).table
      (out.procedures ++ allocDecl :: shared.registry.helpers) with
    | error e => rfl
    | ok program => rfl

theorem assemble_eq_ok {p : Source.Program} {table : TypeTable} {procedures : List Procedure}
    {program : Ir.Program} (h : assemble p table procedures = .ok program) :
    ∃ fields, fieldDecls p = .ok fields ∧ program = {
      typeConstants := table.defs.map fun d => "T$" ++ d.name.name
      globals := ⟨Ir.exceptionVar, .ref⟩ :: (fields.filter (·.1.isStatic)).map (·.2)
      fieldMaps := (fields.filter (!·.1.isStatic)).map (·.2)
      procedures } := by
  unfold assemble at h
  cases hf : fieldDecls p with
  | error e =>
    rw [hf] at h
    cases h
  | ok fields =>
    rw [hf] at h
    cases h
    exact ⟨fields, rfl, rfl⟩

theorem procedures_of_assemble {p : Source.Program} {table : TypeTable}
    {procedures : List Procedure} {program : Ir.Program}
    (h : assemble p table procedures = .ok program) : program.procedures = procedures := by
  obtain ⟨fields, -, rfl⟩ := assemble_eq_ok h
  rfl

/-- A compilation that succeeds has what is emitted, then `$Alloc`, then the helpers, and it lists
what failed. -/
theorem concluded_eq_ok {policy : FailurePolicy} {p : Source.Program}
    {results : List (Except Fault Procedure)} {helpers : List Procedure} {c : Compilation}
    (h : concluded policy p results helpers = .ok c) :
    assemble p (Hierarchy.ofProgram p).table
        (emitted ((membersOf p).zip results) ++ allocDecl :: helpers) = .ok c.program ∧
      c.diagnostics = ((faults ((membersOf p).zip results)).map fun f =>
        .ofFault f.2 f.1.procedureName) ∧
      c.skipped = (faults ((membersOf p).zip results)).map (·.1.procedureName) ∧
      (policy = .abort → faults ((membersOf p).zip results) = []) := by
  unfold concluded at h
  cases hout : collected policy ((membersOf p).zip results) with
  | error e =>
    rw [hout] at h
    cases h
  | ok out =>
    rw [hout, show (Except.ok out >>= _ : Except Fault Compilation) = assemble p _ _ >>= _ from
      rfl] at h
    obtain ⟨hemitted, hrest⟩ := collected_eq_ok hout
    rw [← hemitted]
    cases hprogram : assemble p (Hierarchy.ofProgram p).table
        (out.procedures ++ allocDecl :: helpers) with
    | error e =>
      rw [hprogram] at h
      cases h
    | ok program =>
      rw [hprogram] at h
      cases h
      exact ⟨rfl, hrest⟩

/-- A compilation without faults succeeds when its fields can be declared, and nothing is left
out. -/
theorem exists_concluded_eq_ok (policy : FailurePolicy) {p : Source.Program}
    {results : List (Except Fault Procedure)} (helpers : List Procedure)
    (hfaults : faults ((membersOf p).zip results) = []) (hfields : (fieldDecls p).isOk = true) :
    ∃ c, concluded policy p results helpers = .ok c ∧ c.skipped = [] := by
  cases hf : fieldDecls p with
  | error e =>
    rw [hf] at hfields
    cases hfields
  | ok fields =>
    simp only [concluded, collected, hfaults, assemble, hf]
    exact ⟨_, rfl, rfl⟩

/-- The environment in which the methods of a program are compiled. -/
def envOf (options : Options) (p : Source.Program) (literal : Int64 → Int64) : Env :=
  { options, program := p, types := (Hierarchy.ofProgram p).table, literal }

/-- The step in which a method of a program is compiled. -/
def workOf (options : Options) (p : Source.Program) (literal : Int64 → Int64) (m : Member) :
    StateM Shared (Except Fault Procedure) :=
  attempt (envOf options p literal) (Hierarchy.ofProgram p) m

theorem count_pos (jobs items : Nat) : 0 < Workers.count jobs items := by
  unfold Workers.count
  omega

/-- The work on all methods of a program, by as many workers as the options say. -/
def workAll (options : Options) (p : Source.Program) (literal : Int64 → Int64) :
    StateM Shared (List (Except Fault Procedure)) :=
  Workers.run (Workers.count options.jobs.toNat (membersOf p).length) (workOf options p literal)
    (membersOf p)

/-- A compilation runs its workers on an empty registry and concludes. -/
theorem compile_run (options : Options) (policy : FailurePolicy) (p : Source.Program)
    (literal : Int64 → Int64) :
    ∃ log, (compile options policy p literal).1 =
      concluded policy p ((workAll options p literal).run ⟨{}, log⟩).1
        ((workAll options p literal).run ⟨{}, log⟩).2.registry.helpers := by
  obtain ⟨log, hlog⟩ : ∃ log, (compile options policy p literal).1 =
      ((ExceptT.lift (workAll options p literal) >>= conclude policy p).run ⟨{}, log⟩).1 :=
    ⟨_, rfl⟩
  have hlift : ∀ {α : Type} (act : StateM Shared α) (shared : Shared),
      (ExceptT.lift act : Compiling α).run shared = (.ok (act.run shared).1, (act.run shared).2) :=
    fun _ _ => rfl
  refine ⟨log, ?_⟩
  rw [hlog, run_bind, hlift, ← run_conclude]

/-- The talks are what the methods of the program ask the registry for, and they ask for helpers
only. -/
def TalksOf (options : Options) (p : Source.Program) (literal : Int64 → Int64)
    (talk : Member → Talk (Except Fault Procedure)) : Prop :=
  ∀ m ∈ membersOf p, (talk m).Lookups ∧ (talk m).Performs (workOf options p literal m)

/-- The results that talks lead to are the outcomes of the methods, one by one. -/
theorem zip_results {options : Options} {p : Source.Program} {literal : Int64 → Int64}
    {talk : Member → Talk (Except Fault Procedure)} (ht : TalksOf options p literal talk)
    {results : List (Except Fault Procedure)} {r : Registry}
    (hs : Workers.Settled ((membersOf p).map talk) results r) :
    (membersOf p).zip results = (membersOf p).map fun m =>
      (m, outcomeOf (envOf options p literal) (Hierarchy.ofProgram p) m) := by
  have hres : results = (membersOf p).map
      (outcomeOf (envOf options p literal) (Hierarchy.ofProgram p)) := by
    rw [hs.results_eq, List.map_map]
    exact List.map_congr_left fun m hm => outcome_eq (ht m hm).1 (ht m hm).2
  calc (membersOf p).zip results
      = ((membersOf p).map id).zip ((membersOf p).map _) := by rw [hres, List.map_id]
    _ = _ := List.zip_map'

/-- A compilation is made of what its methods come to, one by one. -/
theorem compile_eq {options : Options} {p : Source.Program} {literal : Int64 → Int64}
    {talk : Member → Talk (Except Fault Procedure)} (policy : FailurePolicy)
    (ht : TalksOf options p literal talk) :
    ∃ results r, Workers.Settled ((membersOf p).map talk) results r ∧
      (compile options policy p literal).1 = concluded policy p results r.helpers := by
  obtain ⟨log, hlog⟩ := compile_run options policy p literal
  obtain ⟨results, shared, hrun, hsettled⟩ := Workers.run_settled
    (count_pos options.jobs.toNat (membersOf p).length) ht log
  refine ⟨results, shared.registry, hsettled, ?_⟩
  rw [hlog, workAll, hrun]

/-- Compiling one method names the procedure after it and keeps the registry sound. -/
theorem workOf_keeps (options : Options) (p : Source.Program) (literal : Int64 → Int64) (m : Member)
    {s : Shared} (hs : s.registry.Sound) :
    NamedAfter m ((workOf options p literal m).run s).1 ∧
      ((workOf options p literal m).run s).2.registry.Sound := by
  refine ⟨fun q hq => name_of_compileMember hq, ?_⟩
  have ha : (envOf options p literal).Alike (envOf options p literal) :=
    ⟨rfl, rfl, fun _ => rfl, fun _ => rfl⟩
  obtain ⟨t, -, ht, -⟩ := attempt_performs ha (Env.asks_anything _)
    (Dispatch.Agree.refl (Hierarchy.ofProgram p)) (m := m) rfl rfl
  obtain ⟨log, hlog⟩ := ht s
  rw [workOf, hlog]
  exact t.sound_run hs

/-- What is emitted is named after the methods, in their order. -/
theorem names_emitted {ms : List Member} {results : List (Except Fault Procedure)}
    (h : List.Forall₂ NamedAfter ms results) :
    ((emitted (ms.zip results)).map (·.name)).Sublist (ms.map Member.procedureName) ∧
      (faults (ms.zip results) = [] →
        (emitted (ms.zip results)).map (·.name) = ms.map Member.procedureName) := by
  have hzip : (ms.zip results).map (·.1.procedureName) = ms.map Member.procedureName := by
    have hfst : (ms.zip results).map Prod.fst = ms :=
      List.map_fst_zip (Nat.le_of_eq h.length_eq)
    calc (ms.zip results).map (·.1.procedureName)
        = ((ms.zip results).map Prod.fst).map Member.procedureName := by
          rw [List.map_map]
          rfl
      _ = _ := by rw [hfst]
  have hsub : ((emitted (ms.zip results)).map (·.name)).Sublist (ms.map Member.procedureName) := by
    rw [← hzip]
    exact map_name_emitted fun x hx => (List.forall₂_iff_zip.mp h).2 hx
  refine ⟨hsub, fun hnone => hsub.eq_of_length ?_⟩
  have hlength := length_emitted (ms.zip results)
  rw [hnone, List.length_nil, Nat.add_zero] at hlength
  rw [List.length_map, hlength, ← hzip, List.length_map]

/-- Whatever the options, a compilation that succeeds declares procedures that are named after its
methods, then `$Alloc` and the helpers of a sound registry. -/
theorem compile_declares {options : Options} {policy : FailurePolicy} {p : Source.Program}
    {literal : Int64 → Int64} {c : Compilation}
    (h : (compile options policy p literal).1 = .ok c) :
    ∃ procedures r, Registry.Sound r ∧
      assemble p (Hierarchy.ofProgram p).table (procedures ++ allocDecl :: r.helpers) =
        .ok c.program ∧
      (procedures.map (·.name)).Sublist ((membersOf p).map Member.procedureName) ∧
      (c.skipped = [] →
        procedures.map (·.name) = (membersOf p).map Member.procedureName) := by
  obtain ⟨log, hlog⟩ := compile_run options policy p literal
  obtain ⟨hnames, hsound⟩ := Workers.run_each (fun m _ hs => workOf_keeps options p literal m hs)
    (count_pos options.jobs.toNat (membersOf p).length) (membersOf p) (s := ⟨{}, log⟩) .empty
  rw [hlog] at h
  obtain ⟨hprogram, -, hskipped, -⟩ := concluded_eq_ok h
  obtain ⟨hsub, hall⟩ := names_emitted hnames
  exact ⟨_, _, hsound, hprogram, hsub, fun hempty =>
    hall (List.map_eq_nil_iff.mp (hskipped.symm.trans hempty))⟩

end Unwind.Compilation
