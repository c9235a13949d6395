import Unwind.Proofs.Compilation.Declarations
import Unwind.Proofs.Compilation.Interleaved

/-!
# Calls of helpers

Lowering calls procedures that no method of the program becomes: `$Alloc`, copies of structs and
recorders. Each of them is declared once, without a body, with as many parameters and results as
the calls have arguments and variables for results; and the parameter of a recorder has the type
that was asked for where the value is recorded (`helper_calls_declared`).

What is called by the code of a method is known from compiling it alone (`outcome_tally`): a method
that it calls, a method that the program declares, or a helper that was asked for. Whatever was
asked for in an interleaving is declared at its end.
-/

namespace Unwind

open Ir (Cmd Procedure)
open Lowering (Env CallFits Lower Runs State)
open Source (MethodRef Stmt TypeDef TypeRef)

/-! ## Declarations of helpers -/

/-- The procedure declares the helper that a call is for. -/
structure Declared (d : Procedure) (proc : String) (args : List Ir.Expr) (outs : List String) :
    Prop where
  name_eq : d.name = proc
  body_eq : d.body = none
  params_length : d.params.length = args.length
  returns_length : d.returns.length = outs.length
  recorded : ∀ ty, proc = (Registry.recorderDecl ty).name → d.params.map (·.ty) = [ty]

/-- What the registry has is declared. -/
theorem Registry.mem_helpers_of_has {r : Registry} :
    (∀ type, r.Has (.structCopy type) → structCopyDecl type ∈ r.helpers) ∧
      ∀ ty, r.Has (.recorder ty) → recorderDecl ty ∈ r.helpers :=
  ⟨fun _ h => List.mem_append_left _ (List.mem_mergeSort.mpr h),
    fun _ h => List.mem_append_right _ (List.mem_mergeSort.mpr h)⟩

/-- A call that fits is a call of a method, or its helper is declared. -/
theorem Lowering.CallFits.declared {P : MethodRef → Prop} {r : Registry} {proc : String}
    {args : List Ir.Expr} {outs : List String} (h : CallFits P r (proc, args, outs)) :
    (∃ m, P m ∧ m.procedureName = proc) ∨
      ∃ d ∈ Compilation.allocDecl :: r.helpers, Declared d proc args outs := by
  obtain ⟨hcopies, hrecorders⟩ := r.mem_helpers_of_has
  cases h with
  | alloc =>
    refine .inr ⟨_, List.mem_cons_self, rfl, rfl, rfl, rfl, fun ty h => ?_⟩
    cases ty <;> exact absurd h (by decide)
  | structCopy hr =>
    refine .inr ⟨_, List.mem_cons_of_mem _ (hcopies _ hr), rfl, rfl, rfl, rfl, fun ty h => ?_⟩
    exact absurd h (Registry.structCopyDecl_name_ne _ ty)
  | recorder hr =>
    refine .inr ⟨_, List.mem_cons_of_mem _ (hrecorders _ hr), rfl, rfl, rfl, rfl, fun ty h => ?_⟩
    rw [Registry.recorderDecl_name_inj h]
    rfl
  | method hm => exact .inl ⟨_, hm, rfl⟩

/-- Where values are recorded, the recorder for the type of the value is called. -/
theorem Lowering.record_calls {env : Env} (h : env.options.recordValues = true) {label : String}
    {ty : Ir.Ty} {v : Ir.Expr} {s s' : State} (hs : s.registry.Sound)
    (hrun : Runs (record env label ty v) s () s') :
    s'.cmds = s.cmds ++
      [.call [⟨"cexpr", [.str label]⟩] (Registry.recorderDecl ty).name [v] []] := by
  unfold record at hrun
  rw [if_pos h] at hrun
  obtain ⟨proc, s₁, h₁, h₂⟩ := Lowering.runs_bind.mp hrun
  obtain ⟨hproc, hreg⟩ := Prod.mk.inj h₁
  rw [Lowering.runs_emit.mp h₂, ← hreg, ← Except.ok.inj hproc]
  exact congrArg (fun proc => s.cmds ++ [Cmd.call _ proc [v] []])
    (hs.serve (q := .recorder ty) trivial).1

namespace Compilation

/-! ## Known methods -/

/-- The methods that a program declares, and those that it calls. -/
def knownMethods (p : Source.Program) : List MethodRef :=
  methodRefs p ++ (membersOf p).flatMap fun m => m.method.body.toList.flatMap Stmt.callees

theorem declares_ofProgram (p : Source.Program) :
    (Hierarchy.ofProgram p).Declares (· ∈ knownMethods p) := by
  intro d hd x hx
  refine List.mem_append_left _ (List.mem_map.mpr ⟨⟨d, x⟩, ?_, rfl⟩)
  exact List.mem_flatMap.mpr ⟨d, TypeTable.mem_of_mem_ofDefs hd, List.mem_map_of_mem hx⟩

theorem callees_known {p : Source.Program} {m : Member} (hm : m ∈ membersOf p) :
    ∀ body ∈ m.method.body, ∀ c ∈ body.callees, c ∈ knownMethods p := by
  intro body hbody c hc
  refine List.mem_append_right _ (List.mem_flatMap.mpr ⟨m, hm, List.mem_flatMap.mpr ⟨body, ?_, hc⟩⟩)
  exact Option.mem_toList.mpr hbody

/-! ## The end of an interleaving -/

section

variable {options : Options} {policy : FailurePolicy} {p : Source.Program}
  {literal : Int64 → Int64}

/-- Every call in the code of a method fits a registry that has what the method asked for. -/
theorem Becomes.fits {m : Member} {es : List Exchange} {q : Procedure} {r : Registry}
    (hb : Becomes options p literal m es (.ok q)) (hm : m ∈ membersOf p)
    (hr : ∀ e ∈ es, ∀ q', Request.Alike q' e.request → r.Has q') :
    ∀ call ∈ q.calls, CallFits (· ∈ knownMethods p) r call := by
  intro call hcall
  obtain ⟨q₀, hq₀, hu⟩ := hb.alone
  obtain ⟨t, hv, hf⟩ := hb.voiced
  obtain ⟨method, -, ht⟩ := outcome_tally (declares_ofProgram p) (callees_known hm) hq₀
  have hcalls : q.calls = q₀.calls := by
    rw [← q.calls_renumber fun _ _ => 0, ← q₀.calls_renumber fun _ _ => 0]
    exact congrArg Procedure.calls hu
  rw [hcalls] at hcall
  refine (ht.fits .empty call hcall).mono (fun _ => id) fun q' hq' => ?_
  obtain ⟨e, he, ha⟩ := (hv.has_alone_iff hf hb.known q').mp hq'
  exact hr e he q' ha

/-- One procedure has a name that no other one has. -/
theorem filter_name_eq {ps : List Procedure} (h : (ps.map (·.name)).Nodup) {d : Procedure}
    (hd : d ∈ ps) : ps.filter (·.name == d.name) = [d] := by
  induction ps with
  | nil => cases hd
  | cons q ps ih =>
    obtain ⟨hq, hps⟩ := List.nodup_cons.mp h
    rcases List.mem_cons.mp hd with rfl | hd
    · have hrest : ps.filter (·.name == d.name) = [] := by
        refine List.filter_eq_nil_iff.mpr fun q' hq' hname => hq ?_
        exact List.mem_map.mpr ⟨q', hq', beq_iff_eq.mp hname⟩
      rw [List.filter_cons, if_pos (beq_self_eq_true d.name), hrest]
    · have hne : ¬ (q.name == d.name) = true := fun hname =>
        hq (List.mem_map.mpr ⟨d, hd, (beq_iff_eq.mp hname).symm⟩)
      rw [List.filter_cons, if_neg hne, ih hps hd]

/-- A helper that a registry declares is declared once, unless a method has its name. -/
theorem Interleaving.filter_name_eq {x : Interleaving options p literal} {c : Compilation}
    (h : x.result policy = .ok c) {d : Procedure}
    (hd : d ∈ allocDecl :: x.pool.registry.helpers)
    (hfree : d.name ∉ (knownMethods p).map MethodRef.procedureName) :
    c.program.procedures.filter (·.name == d.name) = [d] := by
  obtain ⟨hs, hbecomes, hresults, hsound, -, -⟩ := x.histories
  have hemitted :
      (emitted ((membersOf p).zip (hs.map Prod.snd))).filter (·.name == d.name) = [] := by
    refine List.filter_eq_nil_iff.mpr fun q hq hname => hfree ?_
    obtain ⟨m, hm, es, -, hb⟩ := mem_emitted hbecomes hq
    rw [← beq_iff_eq.mp hname, hb.name_eq]
    exact List.mem_map.mpr ⟨_, List.mem_append_left _ (List.mem_map_of_mem hm), rfl⟩
  rw [x.procedures_of_ok h, hresults, List.filter_append, hemitted, List.nil_append]
  have hnodup : ((allocDecl :: x.pool.registry.helpers).map (·.name)).Nodup :=
    List.nodup_cons.mpr ⟨hsound.alloc_notMem_helpers, hsound.nodup_helpers⟩
  exact Compilation.filter_name_eq hnodup hd

/-- Whatever calls of helpers the emitted code has, they fit the declarations. -/
theorem Interleaving.exists_declared {x : Interleaving options p literal} {c : Compilation}
    (h : x.result policy = .ok c) {q : Procedure} (hq : q ∈ c.program.procedures)
    {proc : String} {args : List Ir.Expr} {outs : List String}
    (hcall : (proc, args, outs) ∈ q.calls)
    (hfree : proc ∉ (knownMethods p).map MethodRef.procedureName) :
    ∃ d, c.program.procedures.filter (·.name == proc) = [d] ∧ Declared d proc args outs := by
  obtain ⟨hs, hbecomes, hresults, hsound, -, hhas⟩ := x.histories
  rw [x.procedures_of_ok h, hresults] at hq
  rcases List.mem_append.mp hq with hq | hq
  · obtain ⟨m, hm, es, hes, hb⟩ := mem_emitted hbecomes hq
    have hfits := hb.fits hm (fun e he q' ha => (hhas q').mpr ⟨_, hes, e, he, ha⟩) _ hcall
    rcases hfits.declared with ⟨m', hm', rfl⟩ | ⟨d, hd, hdecl⟩
    · exact absurd (List.mem_map_of_mem hm') hfree
    · obtain rfl := hdecl.name_eq
      exact ⟨d, x.filter_name_eq h hd hfree, hdecl⟩
  · rw [Procedure.calls, body_of_mem_helpers hsound hq] at hcall
    cases hcall

end

/-- In every interleaving of the workers, each call in the emitted code of what is not called like a
method that the program declares or calls - of `$Alloc`, of a copy or of a recorder - is a call of
a procedure that is declared once, without a body, and with as many parameters and results as the
call has arguments and variables for results. The parameter of a recorder has the type that was
asked for where the value is recorded. The compilation itself is one of the interleavings. -/
theorem helper_calls_declared (options : Options) (policy : FailurePolicy) (p : Source.Program)
    (literal : Int64 → Int64) :
    (∃ x : Interleaving options p literal,
      x.result policy = (compile options policy p literal).1) ∧
    (∀ (x : Interleaving options p literal) (c : Compilation), x.result policy = .ok c →
      ∀ q ∈ c.program.procedures, ∀ attrs proc args outs,
        .call attrs proc args outs ∈ q.commands →
        proc ∉ (knownMethods p).map MethodRef.procedureName →
        ∃ d, c.program.procedures.filter (·.name == proc) = [d] ∧ Declared d proc args outs) ∧
    ∀ (env : Env) (label : String) (ty : Ir.Ty) (v : Ir.Expr) (s s' : State),
      env.options.recordValues = true → s.registry.Sound →
      Runs (Lowering.record env label ty v) s () s' →
      s'.cmds = s.cmds ++
        [.call [⟨"cexpr", [.str label]⟩] (Registry.recorderDecl ty).name [v] []] := by
  refine ⟨?_, ?_, ?_⟩
  · obtain ⟨x, hx, -⟩ := exists_interleaving options policy p literal
    exact ⟨x, hx⟩
  · intro x c h q hq attrs proc args outs hcall hfree
    exact x.exists_declared h hq (Procedure.mem_calls.mpr ⟨attrs, hcall⟩) hfree
  · intro env label ty v s s' hrecord hs hrun
    exact Lowering.record_calls hrecord hs hrun

/-- A method that copies a struct and returns a new one. -/
def mover : Source.Program :=
  let point : Source.Ty := .named ⟨"Point", none⟩
  let copy : Stmt := .ofKind (.localDecl ⟨"q", point⟩ (some (.var "p" point)))
  let fresh : Source.Expr := .ofKind (.new ⟨"Point", none⟩ none []) point
  { types := [
      { name := ⟨"Point", none⟩, kind := .structType },
      { name := ⟨"Shape", none⟩, kind := .classType, methods := [
          { name := "move", params := [⟨"p", point⟩], ret := point,
            body := some (.ofKind (.block [copy, .ofKind (.ret (some fresh))])) }] }] }

/-- All three kinds of helpers are called and declared. -/
theorem mover_helper_calls :
    (∃ (x : Interleaving { recordValues := true } mover id) (c : Compilation),
      x.result .abort = .ok c ∧ ∀ proc ∈ ["$Alloc", "Point.#copy_ctor", "$Record.Ref"],
        ∃ q ∈ c.program.procedures, ∃ attrs args outs, .call attrs proc args outs ∈ q.commands ∧
          ∃ d, c.program.procedures.filter (·.name == proc) = [d] ∧ Declared d proc args outs) ∧
    ∀ v : Ir.Expr, ((Lowering.record { options := { recordValues := true } } "v" .ref v).run
        ⟨{}, {}⟩).2.cmds = [.call [⟨"cexpr", [.str "v"]⟩] "$Record.Ref" [v] []] := by
  obtain ⟨⟨x, hx⟩, hcalls, hrecord⟩ :=
    helper_calls_declared { recordValues := true } .abort mover id
  constructor
  · have hemit : ∀ proc ∈ ["$Alloc", "Point.#copy_ctor", "$Record.Ref"],
        ((compile { recordValues := true } .abort mover).1.toOption.any fun c =>
          c.program.procedures.any fun q => q.calls.any (·.1 == proc)) = true := by
      decide +kernel
    have hfree : ∀ proc ∈ ["$Alloc", "Point.#copy_ctor", "$Record.Ref"],
        proc ∉ (knownMethods mover).map MethodRef.procedureName := by
      decide
    cases hc : (compile { recordValues := true } .abort mover).1 with
    | error e =>
      rw [hc] at hemit
      cases hemit _ List.mem_cons_self
    | ok c =>
      refine ⟨x, c, hx.trans hc, fun proc hproc => ?_⟩
      have hany := hemit proc hproc
      rw [hc] at hany
      obtain ⟨q, hq, hany⟩ := List.any_eq_true.mp hany
      obtain ⟨⟨_, args, outs⟩, hmem, hname⟩ := List.any_eq_true.mp hany
      obtain rfl := beq_iff_eq.mp hname
      obtain ⟨attrs, hcall⟩ := Procedure.mem_calls.mp hmem
      exact ⟨q, hq, attrs, args, outs, hcall,
        hcalls x c (hx.trans hc) q hq attrs _ args outs hcall (hfree _ hproc)⟩
  · intro v
    exact hrecord { options := { recordValues := true } } "v" .ref v ⟨{}, {}⟩ _ rfl .empty rfl

end Compilation

end Unwind
