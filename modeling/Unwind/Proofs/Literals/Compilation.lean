import Unwind.Proofs.Compilation.Outcomes
import Unwind.Proofs.Literals.Dispatch
import Unwind.Proofs.Literals.Lowering
import Unwind.Proofs.Literals.Seam

/-!
# Compilations that replace literals

A compilation may be told what integer literals become. That is the same as replacing the literals
of the program first and compiling the result (`compile_mapLiterals`): every literal of every body
goes through the seam, wherever it stands, and nothing else does.
-/

namespace Unwind.Compilation

open Source (TypeDef)
open Ir (Procedure)
open Lowering (Env Seam Shared Compiling)

variable {g : Int64 → Int64}

/-! ## Methods -/

/-- The method with the literals of its body replaced. -/
def Member.mapLiterals (g : Int64 → Int64) (m : Member) : Member :=
  ⟨m.owner.mapLiterals g, m.method.mapLiterals g⟩

theorem Member.procedureName_mapLiterals (m : Member) :
    (m.mapLiterals g).procedureName = m.procedureName := by
  unfold Member.procedureName Member.mapLiterals
  rw [TypeDef.name_mapLiterals]
  rfl

theorem membersOf_mapLiterals (p : Source.Program) :
    membersOf (p.mapLiterals g) = (membersOf p).map (Member.mapLiterals g) := by
  unfold membersOf
  rw [Source.Program.allTypes_mapLiterals, List.flatMap_map, List.map_flatMap]
  refine List.flatMap_congr fun d _ => ?_
  rw [TypeDef.methods_mapLiterals, List.map_map, List.map_map]
  rfl

/-- The result of a step, changed. -/
theorem run_map {σ α β : Type} (f : α → β) (x : ExceptT Fault (StateM σ) α) (s : σ) :
    (f <$> x).run s = ((x.run s).1.map f, (x.run s).2) := by
  rw [← bind_pure_comp, Lowering.run_bind]
  rcases x.run s with ⟨a | e, t⟩
  · rfl
  · rfl

/-- What an expansion makes of a body, and what it leaves in the log. -/
theorem run_devirtualize (h : Hierarchy) (body : Source.Stmt) (shared : Shared) :
    (devirtualize h body).run shared =
      let out := (Dispatch.transform h body).run { log := shared.log }
      (out.1.map fun body => (body, out.2.replaced), { shared with log := out.2.log }) := rfl

theorem devirtualize_mapLiterals {h h' : Hierarchy} (ha : Dispatch.Agree h h')
    (body : Source.Stmt) :
    devirtualize h' (body.mapLiterals g) =
      (fun r => (r.1.mapLiterals g, r.2)) <$> devirtualize h body := by
  refine funext fun shared => ?_
  refine (run_devirtualize h' _ shared).trans (.trans ?_ (run_map _ _ shared).symm)
  rw [run_devirtualize, Dispatch.transform_mapLiterals ha, run_map]
  dsimp only
  cases ((Dispatch.transform h body).run { log := shared.log }).1 with
  | ok body => rfl
  | error e => rfl

/-- Literals may be replaced before a method is compiled. -/
theorem attempt_mapLiterals {env env' : Env} (hr : env.Renders g env') {h h' : Hierarchy}
    (ha : Dispatch.Agree h h') (m : Member) :
    attempt env' h' (m.mapLiterals g) = attempt env h m := by
  have howner : (m.owner.mapLiterals g).name = m.owner.name := TypeDef.name_mapLiterals _
  unfold attempt compileMember Member.mapLiterals
  cases hb : m.method.body with
  | none =>
    have hbody : (m.method.mapLiterals g).body = none := by
      rw [Source.MethodDef.mapLiterals, hb, Option.map_none]
    simp only [hbody, Lowering.lowerMethod_mapLiterals hr howner]
  | some body =>
    have hbody : (m.method.mapLiterals g).body = some (body.mapLiterals g) := by
      rw [Source.MethodDef.mapLiterals, hb, Option.map_some]
    have hmethod : ∀ b : Source.Stmt,
        ({ m.method.mapLiterals g with body := some (b.mapLiterals g) } : Source.MethodDef) =
          ({ m.method with body := some b } : Source.MethodDef).mapLiterals g := fun _ => rfl
    simp only [hbody, devirtualize_mapLiterals ha, bind_map_left, hmethod,
      Lowering.lowerMethod_mapLiterals hr howner]
    rfl

/-! ## Programs -/

/-- Work on changed items is changed work on the items. -/
theorem run_items_map {m : Type → Type} [Monad m] [LawfulMonad m] {α β γ : Type} (n : Nat)
    (f : α → β) (work : β → m γ) (items : List α) :
    Workers.run n work (items.map f) = Workers.run n (fun a => work (f a)) items := by
  have hschedule : Workers.schedule n (items.map f) =
      (Workers.schedule n items).map (Prod.map f id) := by
    unfold Workers.schedule
    rw [List.map_flatMap]
    refine List.flatMap_congr fun w _ => ?_
    rw [List.zipIdx_map, List.filter_map]
    rfl
  unfold Workers.run
  rw [hschedule, List.mapM_map]
  rfl

theorem collect_mapLiterals (policy : FailurePolicy) (members : List Member)
    (results : List (Except Fault Procedure)) (out : Outcome) :
    collect policy ((members.map (Member.mapLiterals g)).zip results) out =
      collect policy (members.zip results) out := by
  induction members generalizing results out with
  | nil => rfl
  | cons m members ih =>
    cases results with
    | nil => rfl
    | cons result results =>
      rw [List.map_cons, List.zip_cons_cons, List.zip_cons_cons]
      cases result with
      | ok procedure => exact ih results _
      | error fault =>
        cases policy with
        | abort => rfl
        | skip =>
          simp only [collect, Member.procedureName_mapLiterals]
          exact bind_congr fun _ => ih results _

theorem fieldDecls_mapLiterals (p : Source.Program) :
    fieldDecls (p.mapLiterals g) = fieldDecls p := by
  have hfields : ((p.mapLiterals g).allTypes.flatMap fun d => d.fields.map fun f => (d, f)) =
      (p.allTypes.flatMap fun d => d.fields.map fun f => (d, f)).map fun x =>
        (x.1.mapLiterals g, x.2) := by
    rw [Source.Program.allTypes_mapLiterals, List.flatMap_map, List.map_flatMap]
    refine List.flatMap_congr fun d _ => ?_
    rw [TypeDef.fields_mapLiterals, List.map_map]
    rfl
  unfold fieldDecls
  rw [hfields, List.mapM_map]
  congr 1
  funext ⟨d, f⟩
  simp only [Function.comp_apply, fieldDecl, TypeDef.name_mapLiterals]

/-- The hierarchy is built without a look into a body. -/
theorem hierarchy_bare_mapLiterals (p : Source.Program) :
    (Hierarchy.ofProgram (p.mapLiterals g)).bare = (Hierarchy.ofProgram p).bare := by
  rw [← Hierarchy.ofProgram_bare, ← Hierarchy.ofProgram_bare, Source.Program.bare_mapLiterals]

theorem assemble_mapLiterals (p : Source.Program) (procedures : List Procedure) :
    assemble (p.mapLiterals g) (Hierarchy.ofProgram (p.mapLiterals g)).table procedures =
      assemble p (Hierarchy.ofProgram p).table procedures := by
  have hnames : ∀ t : TypeTable, (t.defs.map fun d => "T$" ++ d.name.name) =
      t.bare.defs.map fun d => "T$" ++ d.name.name := by
    intro t
    simp only [TypeTable.bare, List.map_map, Function.comp_def, TypeDef.name_bare]
  have htable : (Hierarchy.ofProgram (p.mapLiterals g)).table.bare =
      (Hierarchy.ofProgram p).table.bare := congrArg Hierarchy.table (hierarchy_bare_mapLiterals p)
  unfold assemble
  rw [fieldDecls_mapLiterals, hnames (Hierarchy.ofProgram (p.mapLiterals g)).table, htable,
    ← hnames]

theorem run_mapLiterals (options : Options) (policy : FailurePolicy) (p : Source.Program) :
    run options policy (p.mapLiterals g) = run options policy p g := by
  have hp : (p.mapLiterals g).bare = p.bare := Source.Program.bare_mapLiterals p
  have ha := agree_of_bare_eq hp
  have hbare := hierarchy_bare_mapLiterals (g := g) p
  have hindex : (Hierarchy.ofProgram (p.mapLiterals g)).index = (Hierarchy.ofProgram p).index := by
    simpa only [Hierarchy.bare] using congrArg Hierarchy.index hbare
  have hsize : (Hierarchy.ofProgram (p.mapLiterals g)).table.size =
      (Hierarchy.ofProgram p).table.size := by
    have := congrArg (fun h : Hierarchy => h.table.defs.length) hbare
    simpa only [Hierarchy.bare, TypeTable.bare, List.length_map, TypeTable.size] using this
  have hr : Env.Renders g ⟨options, p, (Hierarchy.ofProgram p).table, g⟩
      ⟨options, p.mapLiterals g, (Hierarchy.ofProgram (p.mapLiterals g)).table, id⟩ :=
    ⟨rfl, fun _ => rfl, isStruct_of_bare_eq hp, fun _ => rfl⟩
  unfold run
  simp only [hindex, hsize, membersOf_mapLiterals, List.length_map, run_items_map,
    attempt_mapLiterals hr ha, collect_mapLiterals, assemble_mapLiterals]

/-- Replacing integer literals at the seam is the same as replacing them in the program: the
compilation ends with the same program, diagnostics and methods left out, or with the same fault,
and the same log. The lowering of expressions that does so is the only one that lowers literals by
itself and leaves everything else to the usual lowering, asking itself again for the parts. -/
theorem compile_mapLiterals (g : Int64 → Int64) (options : Options) (policy : FailurePolicy)
    (p : Source.Program) :
    compile options policy p g = compile options policy (p.mapLiterals g) ∧
      ∀ lower : Seam, (∀ e c, lower e c = lower.replacing g (envOf options p id) e c) ↔
        lower = Lowering.lowerExpr (envOf options p g) := by
  constructor
  · unfold compile
    rw [run_mapLiterals]
  · exact fun lower => Seam.replacing_iff

end Unwind.Compilation
