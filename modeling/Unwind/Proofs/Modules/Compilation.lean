import Unwind.Proofs.Literals.Compilation
import Unwind.Proofs.Modules.Dispatch
import Unwind.Proofs.Modules.Lowering

/-!
# Modules on references do not matter

The module of a reference to a type tells nobody anything: only the names of the type definitions
themselves are ever looked at together with their modules. Two programs that are equal without the
modules of their references compile to the same result and log, and resolve every method to the same
overrides, modules apart (`compile_modules_irrelevant`).

A compilation is followed over the outline of its hierarchy, which such programs share
(`runWith_forgets`).
-/

namespace Unwind.Compilation

open Source (TypeDef)
open Ir (Procedure)
open Lowering (Env Shared Compiling)

/-! ## Methods -/

/-- The method without the modules of its references, in its type without them. -/
def Member.unqualified (m : Member) : Member := ⟨m.owner.unqualified, m.method.unqualified⟩

theorem Member.procedureName_unqualified (m : Member) :
    m.unqualified.procedureName = m.procedureName := by
  rw [procedureName, procedureName, unqualified, TypeDef.name_unqualified,
    ← Source.MethodRef.procedureName_unqualified (m.method.reference m.owner.name),
    ← Source.MethodDef.reference_unqualified]
  rfl

theorem membersOf_unqualified (p : Source.Program) :
    membersOf p.unqualified = (membersOf p).map Member.unqualified := by
  unfold membersOf
  rw [Source.Program.allTypes_unqualified, List.flatMap_map, List.map_flatMap]
  refine List.flatMap_congr fun d _ => ?_
  rw [TypeDef.methods_unqualified, List.map_map, List.map_map]
  rfl

theorem devirtualize_forgets (h : Hierarchy) (body : Source.Stmt) :
    Erases Shared.unqualified (Prod.map Source.Stmt.unqualified id) (devirtualize h body)
      (devirtualize h.outline body.unqualified) := by
  intro shared
  have hbody := Dispatch.transform_forgets h body { log := shared.log }
  rw [run_devirtualize, run_devirtualize]
  dsimp only
  -- an expander starts without receivers, so that its first state has no module to lose
  rw [show ({ log := shared.unqualified.log } : Dispatch.State) =
    Dispatch.State.unqualified { log := shared.log } from rfl, hbody]
  cases ((Dispatch.transform h body).run { log := shared.log }).1 <;> rfl

theorem report_forgets (level : Log.Level) (message : String) :
    Erases Shared.unqualified id (report level message) (report level message) :=
  .update fun _ => rfl

/-- The modules of a method do not matter to its compilation. -/
theorem compileMember_forgets {env env' : Env} (hr : env.Renders id env') (h : Hierarchy)
    (m : Member) :
    Erases Shared.unqualified id (compileMember env h m)
      (compileMember env' h.outline m.unqualified) := by
  have hlower : ∀ body, Erases Shared.unqualified id
      (Lowering.lowerMethod env m.owner { m.method with body })
      (Lowering.lowerMethod env' m.owner.unqualified
        { m.method.unqualified with body := body.map Source.Stmt.unqualified }) :=
    fun body => Lowering.lowerMethod_forgets hr m.owner.name_unqualified { m.method with body }
  unfold compileMember
  cases hb : m.method.body with
  | none =>
    have hbody : m.unqualified.method.body = none := by
      rw [Member.unqualified, Source.MethodDef.unqualified, hb, Option.map_none]
    rw [hbody]
    exact Lowering.lowerMethod_forgets hr m.owner.name_unqualified m.method
  | some body =>
    have hbody : m.unqualified.method.body = some body.unqualified := by
      rw [Member.unqualified, Source.MethodDef.unqualified, hb, Option.map_some]
    rw [hbody]
    refine .bind (devirtualize_forgets h body) ?_
    rintro ⟨expanded, replaced⟩
    show Erases _ id (if 0 < replaced then _ else _) (if 0 < replaced then _ else _)
    split
    · exact .bind (report_forgets _ _) fun _ => hlower (some expanded)
    · exact hlower (some expanded)

/-! ## Workers -/

section

variable {σ α β : Type} {forget : σ → σ}

theorem mapM_forgets {step step' : α → StateM σ β}
    (h : ∀ a s, (step' a).run (forget s) = (((step a).run s).1, forget ((step a).run s).2))
    (items : List α) (s : σ) :
    (items.mapM step').run (forget s) =
      (((items.mapM step).run s).1, forget ((items.mapM step).run s).2) := by
  induction items generalizing s with
  | nil => rfl
  | cons a items ih =>
    have hcons : ∀ (f : α → StateM σ β) (s : σ), ((a :: items).mapM f).run s =
        (((f a).run s).1 :: ((items.mapM f).run ((f a).run s).2).1,
          ((items.mapM f).run ((f a).run s).2).2) := by
      intro f s
      rw [List.mapM_cons]
      rfl
    rw [hcons, hcons, h, ih]

/-- Workers that do the same on states with a part left out leave that part out together. -/
theorem run_forgets {work work' : α → StateM σ β}
    (h : ∀ a s, (work' a).run (forget s) = (((work a).run s).1, forget ((work a).run s).2))
    (n : Nat) (items : List α) (s : σ) :
    (Workers.run n work' items).run (forget s) =
      (((Workers.run n work items).run s).1, forget ((Workers.run n work items).run s).2) := by
  have htask : ∀ (t : α × Nat) (s : σ),
      (do return (← work' t.1, t.2) : StateM σ (β × Nat)).run (forget s) =
        (((do return (← work t.1, t.2) : StateM σ (β × Nat)).run s).1,
          forget ((do return (← work t.1, t.2) : StateM σ (β × Nat)).run s).2) :=
    fun t s => congrArg (fun p : β × σ => ((p.1, t.2), p.2)) (h t.1 s)
  exact congrArg (fun p : List (β × Nat) × σ => (Workers.inOrder p.1, p.2))
    (mapM_forgets htask (Workers.schedule n items) s)

end

/-! ## Results -/

theorem collect_forgets (policy : FailurePolicy) (members : List Member)
    (results : List (Except Fault Procedure)) (out : Outcome) :
    Erases Shared.unqualified id (collect policy (members.zip results) out)
      (collect policy ((members.map Member.unqualified).zip results) out) := by
  induction members generalizing results out with
  | nil => exact .pure rfl
  | cons m members ih =>
    cases results with
    | nil => exact .pure rfl
    | cons result results =>
      rw [List.map_cons, List.zip_cons_cons, List.zip_cons_cons]
      cases result with
      | ok procedure => exact ih results _
      | error fault =>
        cases policy with
        | abort => exact .throw
        | skip =>
          simp only [collect, Member.procedureName_unqualified]
          exact .bind (report_forgets _ _) fun _ => ih results _

/-! ## What stands around the procedures -/

/-- Changed results of all items are the changed results. -/
theorem mapM_eq_map {α β γ : Type} {f : α → Except Fault β} {f' : α → Except Fault γ} {g : β → γ}
    (h : ∀ a, f' a = (f a).map g) (items : List α) :
    items.mapM f' = (items.mapM f).map (List.map g) := by
  induction items with
  | nil => rfl
  | cons a items ih =>
    rw [List.mapM_cons, List.mapM_cons, ih, h]
    cases f a with
    | error e => rfl
    | ok b => cases items.mapM f <;> rfl

theorem fieldDecls_unqualified (p : Source.Program) :
    fieldDecls p.unqualified =
      (fieldDecls p).map (List.map (Prod.map Source.FieldDef.unqualified id)) := by
  have hfields : (p.unqualified.allTypes.flatMap fun d => d.fields.map fun f => (d, f)) =
      (p.allTypes.flatMap fun d => d.fields.map fun f => (d, f)).map fun x =>
        (x.1.unqualified, x.2.unqualified) := by
    rw [Source.Program.allTypes_unqualified, List.flatMap_map, List.map_flatMap]
    refine List.flatMap_congr fun d _ => ?_
    rw [TypeDef.fields_unqualified, List.map_map, List.map_map]
    rfl
  unfold fieldDecls
  rw [hfields, List.mapM_map]
  refine mapM_eq_map (fun x => ?_) _
  obtain ⟨d, f⟩ := x
  have hdecl : fieldDecl d.unqualified f.unqualified = fieldDecl d f := by
    rw [fieldDecl, TypeDef.name_unqualified, Source.FieldDef.unqualified, Lowering.irTy_bare]
    rfl
  dsimp only [Function.comp_apply]
  rw [hdecl]
  cases fieldDecl d f <;> rfl

theorem assemble_unqualified (h : Hierarchy) (p : Source.Program) (procedures : List Procedure) :
    assemble p.unqualified h.outline.table procedures = assemble p h.table procedures := by
  have hnames : (h.outline.table.defs.map fun d => "T$" ++ d.name.name) =
      h.table.defs.map fun d => "T$" ++ d.name.name := by
    simp only [Hierarchy.outline, Hierarchy.change, TypeTable.map, List.map_map, Function.comp_def]
    rfl
  unfold assemble
  rw [fieldDecls_unqualified, hnames]
  cases fieldDecls p with
  | error e => rfl
  | ok fields =>
    have hglobals : ((fields.map (Prod.map Source.FieldDef.unqualified id)).filter
        (·.1.isStatic)).map (·.2) = (fields.filter (·.1.isStatic)).map (·.2) := by
      simp only [List.filter_map, List.map_map]
      rfl
    have hmaps : ((fields.map (Prod.map Source.FieldDef.unqualified id)).filter
        (!·.1.isStatic)).map (·.2) = (fields.filter (!·.1.isStatic)).map (·.2) := by
      simp only [List.filter_map, List.map_map]
      rfl
    simp only [Except.map, bind, Except.bind, hglobals, hmaps]

/-! ## Programs -/

/-- A compilation over a given hierarchy. -/
def runWith (h : Hierarchy) (options : Options) (policy : FailurePolicy) (p : Source.Program)
    (literal : Int64 → Int64) : Compiling Compilation := do
  report .debug s!"subtype index built: {h.index.size} supertypes over {h.table.size} types"
  let env : Env := { options, program := p, types := h.table, literal }
  let members := membersOf p
  let workers := Workers.count options.jobs.toNat members.length
  report .info
    s!"translating {members.length} methods of {h.table.size} types with {workers} workers"
  let results ← ExceptT.lift (Workers.run workers (attempt env h) members)
  let out ← collect policy (members.zip results) {}
  let helpers := (← get).registry.helpers
  let program ← assemble p h.table (out.procedures ++ allocDecl :: helpers)
  return { program, diagnostics := out.diagnostics, skipped := out.skipped }

theorem run_eq_runWith (options : Options) (policy : FailurePolicy) (p : Source.Program)
    (literal : Int64 → Int64) :
    run options policy p literal =
      runWith (Hierarchy.ofProgram p) options policy p literal := rfl

/-- Over the outline of a hierarchy, a program without modules is compiled to the same result. -/
theorem runWith_forgets (h : Hierarchy) (options : Options) (policy : FailurePolicy)
    (p : Source.Program) (literal : Int64 → Int64) :
    Erases Shared.unqualified id (runWith h options policy p literal)
      (runWith h.outline options policy p.unqualified literal) := by
  have hr : Env.Renders id ⟨options, p, h.table, literal⟩
      ⟨options, p.unqualified, h.outline.table, literal⟩ :=
    ⟨rfl, fun _ => rfl, h.isStruct_outline, fun _ => rfl⟩
  -- the log tells how many types there are, so that the outline must count the same
  have hsize : h.outline.table.size = h.table.size := List.length_map _
  have hindex : h.outline.index.size = h.index.size := SubtypeIndex.size_map h.index
  have hmember : ∀ (m : Member) (s : Shared),
      (attempt ⟨options, p.unqualified, h.outline.table, literal⟩ h.outline m.unqualified).run
          s.unqualified =
        (((attempt ⟨options, p, h.table, literal⟩ h m).run s).1,
          ((attempt ⟨options, p, h.table, literal⟩ h m).run s).2.unqualified) := by
    intro m s
    have hm := compileMember_forgets hr h m s
    rwa [Except.map_id] at hm
  have hwork : ∀ (n : Nat) (members : List Member),
      Erases Shared.unqualified id
        (ExceptT.lift (Workers.run n (attempt ⟨options, p, h.table, literal⟩ h) members))
        (ExceptT.lift (Workers.run n (attempt ⟨options, p.unqualified, h.outline.table, literal⟩
          h.outline) (members.map Member.unqualified))) := by
    intro n members s
    rw [run_items_map]
    exact congrArg (fun p : List (Except Fault Procedure) × Shared => (Except.ok p.1, p.2))
      (run_forgets hmember n members s)
  unfold runWith
  rw [hsize, hindex, membersOf_unqualified]
  dsimp only
  rw [List.length_map]
  refine .bind (report_forgets _ _) fun _ => .bind (report_forgets _ _) fun _ => ?_
  refine .bind (hwork _ _) fun results => .bind (collect_forgets policy _ results {}) fun out => ?_
  refine .bind (f := Shared.unqualified) (fun _ => rfl) fun s => ?_
  rw [assemble_unqualified, Shared.unqualified, Registry.helpers_unqualified]
  exact .bind (.liftSame _) fun _ => .pure rfl

/-- Programs that are equal without the modules of their references compile to the same result,
with the same log, and resolve methods that are equal without modules to the same overrides, in the
same order, up to modules. -/
theorem compile_modules_irrelevant {p q : Source.Program} (h : p.unqualified = q.unqualified) :
    (∀ options policy literal,
      compile options policy p literal = compile options policy q literal) ∧
    ∀ m m' : Source.MethodRef, m.unqualified = m'.unqualified →
      ((Hierarchy.ofProgram p).resolve m).map (List.map Override.unqualified) =
        ((Hierarchy.ofProgram q).resolve m').map (List.map Override.unqualified) := by
  have houtline := Hierarchy.outline_ofProgram h
  constructor
  · intro options policy literal
    -- both compilations are the compilation over the outline, which is the same for both
    have houtcome : ∀ p, compile options policy p literal =
        let run := (runWith (Hierarchy.ofProgram p).outline options policy p.unqualified
          literal).run {}
        (run.1, run.2.log) := by
      intro p
      have hrun := runWith_forgets (Hierarchy.ofProgram p) options policy p literal {}
      rw [show Shared.unqualified {} = {} from rfl, Except.map_id] at hrun
      unfold compile
      rw [run_eq_runWith, hrun]
      rfl
    rw [houtcome, houtcome, houtline, h]
  · intro m m' hm
    rw [← Hierarchy.resolve_outline, ← Hierarchy.resolve_outline, houtline, hm]

/-- The method of an animal, whose type is said to be of the given module. -/
def cry (spelling : Option String) : Source.MethodRef :=
  { type := ⟨"Animal", spelling⟩, name := "cry" }

/-- Dogs cry in their own way. Every reference to `Animal` is said to be of the given module. -/
def kennel (spelling : Option String) : Source.Program :=
  let animal : Source.TypeRef := ⟨"Animal", spelling⟩
  let call : Source.Stmt :=
    .expr (.ofCall (.dispatched (cry spelling) (.var "pet" (.named animal)) []) .void)
  { types := [
      { name := ⟨"Animal", some "Zoo"⟩, kind := .classType, methods := [
          { name := "cry", isVirtual := true, body := some .empty },
          { name := "tease", params := [⟨"pet", .named animal⟩], body := some call }] },
      { name := ⟨"Dog", some "Zoo"⟩, kind := .classType, baseClasses := [animal], methods := [
          { name := "cry", isVirtual := true, body := some .empty }] }] }

theorem kennel_modules_irrelevant :
    kennel none ≠ kennel (some "Stubs") ∧
      (kennel none).unqualified = (kennel (some "Stubs")).unqualified ∧
      (cry none).unqualified = (cry (some "Stubs")).unqualified ∧
      compile {} .abort (kennel none) = compile {} .abort (kennel (some "Stubs")) ∧
      ((Hierarchy.ofProgram (kennel none)).resolve (cry none)).map (List.map Override.unqualified) =
        ((Hierarchy.ofProgram (kennel (some "Stubs"))).resolve (cry (some "Stubs"))).map
          (List.map Override.unqualified) :=
  have h := compile_modules_irrelevant (p := kennel none) (q := kennel (some "Stubs")) rfl
  ⟨by simp [kennel], rfl, rfl, h.1 {} .abort id, h.2 (cry none) (cry (some "Stubs")) rfl⟩

end Unwind.Compilation
