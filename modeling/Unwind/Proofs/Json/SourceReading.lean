import Unwind.Proofs.Json.Reading
import Unwind.Source.Codec.Program

/-!
# Source programs are read back

Every part of a source program is read back from the value it is written as, by one induction over
expressions, one over statements and one over type definitions. Whether arrays are accepted for the
contents of variants makes no difference, because none is ever written.
-/

namespace Unwind

open Json (Reads reads_items reads_map exists_of_depth_obj exists_of_depth_tagged
  exists_of_depth_fields slots?_obj required_of orDefault_of nullable_of optional_of nullable?_of
  tagged)

/-! ## Names, types and places -/

theorem Span.reads (s : Span) : Reads Span.ofJson? s.toJson s := by
  intro n hn
  obtain ⟨n, rfl, -⟩ := exists_of_depth_obj hn
  rw [ofJson?, toJson, slots?_obj (by rfl) (by decide)]
  simp only [List.map_cons, List.map_nil, required_of (Json.uint64?_ofUInt64 s.file),
    required_of (Json.uint32?_ofUInt32 _), orDefault_of (Json.uint32?_ofUInt32 s.line)]
  rfl

theorem SourceFile.reads (f : SourceFile) : Reads SourceFile.ofJson? f.toJson f := by
  intro n hn
  obtain ⟨n, rfl, -⟩ := exists_of_depth_obj hn
  rfl

namespace Source

theorem TypeRef.reads (t : TypeRef) : Reads TypeRef.ofJson? t.toJson t := by
  intro n hn
  obtain ⟨name, module⟩ := t
  cases module with
  | none =>
    -- the module is left out, and a slot that is left out is read as `none`
    obtain ⟨n, rfl, -⟩ := exists_of_depth_obj hn
    rfl
  | some m =>
    obtain ⟨n, rfl, -⟩ := exists_of_depth_obj hn
    rfl

theorem Ty.reads (t : Ty) : Reads Ty.ofJson? t.toJson t := by
  intro n hn
  cases t with
  | named t =>
    obtain ⟨n, rfl, h⟩ := exists_of_depth_obj hn
    rw [toJson, tagged, ofJson?, t.reads n (h _ List.mem_cons_self), Option.map_some]
  | void | bool | int => cases n <;> rfl

theorem MethodRef.reads (m : MethodRef) : Reads MethodRef.ofJson? m.toJson m := by
  intro n hn
  obtain ⟨n, rfl, h⟩ := exists_of_depth_obj hn
  simp only [List.forall_mem_cons] at h
  obtain ⟨htype, -, hparams, -⟩ := h
  rw [ofJson?, toJson, slots?_obj (by rfl) (by decide)]
  simp only [List.map_cons, List.map_nil, required_of (m.type.reads n htype),
    required_of (Json.str?_str _), orDefault_of (reads_map (fun t _ => t.reads) n hparams)]
  rfl

theorem FieldRef.reads (f : FieldRef) : Reads FieldRef.ofJson? f.toJson f := by
  intro n hn
  obtain ⟨n, rfl, h⟩ := exists_of_depth_obj hn
  rw [ofJson?, toJson, slots?_obj (by rfl) (by decide)]
  simp only [List.map_cons, List.map_nil, required_of (f.type.reads n (h _ List.mem_cons_self)),
    required_of (Json.str?_str _)]
  rfl

theorem Variable.reads (v : Variable) : Reads Variable.ofJson? v.toJson v := by
  intro n hn
  obtain ⟨n, rfl, h⟩ := exists_of_depth_obj hn
  simp only [List.forall_mem_cons] at h
  obtain ⟨-, hty, -⟩ := h
  rw [ofJson?, toJson, slots?_obj (by rfl) (by decide)]
  simp only [List.map_cons, List.map_nil, required_of (v.ty.reads n hty),
    required_of (Json.str?_str _)]
  rfl

/-! ## Literals and operators -/

theorem Lit.reads (l : Lit) : Reads Lit.ofJson? l.toJson l := by
  intro n hn
  cases l with
  | int i =>
    obtain ⟨n, rfl, -⟩ := exists_of_depth_obj hn
    rw [toJson, tagged, ofJson?, Json.int64?_ofInt64, Option.map_some]
  | bool b =>
    obtain ⟨n, rfl, -⟩ := exists_of_depth_obj hn
    rfl
  | null => cases n <;> rfl

theorem UnOp.reads (op : UnOp) : Reads UnOp.ofJson? (.str op.tag) op := by
  intro n _
  cases op <;> cases n <;> rfl

theorem BinOp.reads (op : BinOp) : Reads BinOp.ofJson? (.str op.tag) op := by
  intro n _
  cases op <;> cases n <;> rfl

/-! ## Optional parts -/

/-- An optional part is read back when it is never written as `null`. -/
theorem optional_reads {α : Type} {decode : Json.Decoder α} {toJson : α → Json} {o : Option α}
    {n : Nat} (hnull : ∀ a, toJson a ≠ .null) (h : ∀ a, Reads decode (toJson a) a)
    (hn : (optionalJson toJson o).depth ≤ n) :
    Json.nullable? (decode n) (optionalJson toJson o) = some o := by
  cases o with
  | none => rfl
  | some a => exact nullable?_of (hnull a) (h a n hn)

theorem TypeRef.toJson_ne_null (t : TypeRef) : t.toJson ≠ .null := by
  unfold toJson
  split <;> nofun

/-! ## Expressions -/

section

variable {positional : Bool}

mutual

theorem Expr.reads (e : Expr) : Reads (Expr.ofJson? positional) e.toJson e := by
  intro n hn
  obtain ⟨id, span, ty, kind⟩ := e
  rw [Expr.toJson] at hn ⊢
  obtain ⟨n, rfl, h⟩ := exists_of_depth_obj hn
  simp only [List.forall_mem_cons] at h
  obtain ⟨-, hspan, hty, hkind, -⟩ := h
  rw [Expr.ofJson?, slots?_obj (by rfl) (by decide)]
  simp only [List.map_cons, List.map_nil, orDefault_of (Json.uint32?_ofUInt32 id),
    orDefault_of (span.reads n hspan), required_of (ty.reads n hty),
    required_of (ExprKind.reads kind n hkind)]
  rfl

theorem ExprKind.reads (kind : ExprKind) :
    Reads (ExprKind.ofJson? positional) kind.toJson kind := by
  intro n hn
  cases kind with
  | self | pop => cases n <;> rfl
  | literal l =>
    rw [ExprKind.toJson] at hn ⊢
    obtain ⟨n, rfl, h⟩ := exists_of_depth_tagged hn
    show (Lit.ofJson? n l.toJson).map ExprKind.literal = _
    rw [l.reads n h, Option.map_some]
  | var name =>
    rw [ExprKind.toJson] at hn ⊢
    obtain ⟨n, rfl, -⟩ := exists_of_depth_obj hn
    rfl
  | target target =>
    rw [ExprKind.toJson] at hn ⊢
    obtain ⟨n, rfl, h⟩ := exists_of_depth_tagged hn
    show (Target.ofJson? positional n target.toJson).map ExprKind.target = _
    rw [Target.reads target n h, Option.map_some]
  | call call =>
    rw [ExprKind.toJson] at hn ⊢
    obtain ⟨n, rfl, h⟩ := exists_of_depth_tagged hn
    show (Call.ofJson? positional n call.toJson).map ExprKind.call = _
    rw [Call.reads call n h, Option.map_some]
  | typeOf type =>
    rw [ExprKind.toJson] at hn ⊢
    obtain ⟨n, rfl, h⟩ := exists_of_depth_tagged hn
    show (TypeRef.ofJson? n type.toJson).map ExprKind.typeOf = _
    rw [type.reads n h, Option.map_some]
  | getType object =>
    rw [ExprKind.toJson] at hn ⊢
    obtain ⟨n, rfl, h⟩ := exists_of_depth_tagged hn
    show (Expr.ofJson? positional n object.toJson).map ExprKind.getType = _
    rw [Expr.reads object n h, Option.map_some]
  | defaultValue ty =>
    rw [ExprKind.toJson] at hn ⊢
    obtain ⟨n, rfl, h⟩ := exists_of_depth_tagged hn
    show (Ty.ofJson? n ty.toJson).map ExprKind.defaultValue = _
    rw [ty.reads n h, Option.map_some]
  | field object field =>
    rw [ExprKind.toJson] at hn ⊢
    obtain ⟨n, rfl, h⟩ := exists_of_depth_fields hn
    simp only [List.forall_mem_cons] at h
    obtain ⟨hobject, hfield, -⟩ := h
    show (do
      return ExprKind.field
        (← Json.nullable? (Expr.ofJson? positional n) (Expr.optionToJson object))
        (← FieldRef.ofJson? n field.toJson)) = _
    rw [Expr.option_reads object hobject, field.reads n hfield]
    rfl
  | unary op operand =>
    rw [ExprKind.toJson] at hn ⊢
    obtain ⟨n, rfl, h⟩ := exists_of_depth_fields hn
    simp only [List.forall_mem_cons] at h
    obtain ⟨hop, hoperand, -⟩ := h
    show (do
      return ExprKind.unary (← UnOp.ofJson? n (.str op.tag))
        (← Expr.ofJson? positional n operand.toJson)) = _
    rw [op.reads n hop, Expr.reads operand n hoperand]
    rfl
  | binary op lhs rhs =>
    rw [ExprKind.toJson] at hn ⊢
    obtain ⟨n, rfl, h⟩ := exists_of_depth_fields hn
    simp only [List.forall_mem_cons] at h
    obtain ⟨hop, hlhs, hrhs, -⟩ := h
    show (do
      return ExprKind.binary (← BinOp.ofJson? n (.str op.tag))
        (← Expr.ofJson? positional n lhs.toJson) (← Expr.ofJson? positional n rhs.toJson)) = _
    rw [op.reads n hop, Expr.reads lhs n hlhs, Expr.reads rhs n hrhs]
    rfl
  | conditional cond thenExpr elseExpr =>
    rw [ExprKind.toJson] at hn ⊢
    obtain ⟨n, rfl, h⟩ := exists_of_depth_fields hn
    simp only [List.forall_mem_cons] at h
    obtain ⟨hcond, hthen, helse, -⟩ := h
    show (do
      return ExprKind.conditional (← Expr.ofJson? positional n cond.toJson)
        (← Expr.ofJson? positional n thenExpr.toJson)
        (← Expr.ofJson? positional n elseExpr.toJson)) = _
    rw [Expr.reads cond n hcond, Expr.reads thenExpr n hthen, Expr.reads elseExpr n helse]
    rfl
  | assign target value =>
    rw [ExprKind.toJson] at hn ⊢
    obtain ⟨n, rfl, h⟩ := exists_of_depth_fields hn
    simp only [List.forall_mem_cons] at h
    obtain ⟨htarget, hvalue, -⟩ := h
    show (do
      return ExprKind.assign (← Target.ofJson? positional n target.toJson)
        (← Expr.ofJson? positional n value.toJson)) = _
    rw [Target.reads target n htarget, Expr.reads value n hvalue]
    rfl
  | new type ctor args =>
    rw [ExprKind.toJson] at hn ⊢
    obtain ⟨n, rfl, h⟩ := exists_of_depth_fields hn
    simp only [List.forall_mem_cons] at h
    obtain ⟨htype, hctor, hargs, -⟩ := h
    show (do
      return ExprKind.new (← TypeRef.ofJson? n type.toJson)
        (← Json.nullable? (MethodRef.ofJson? n) (optionalJson MethodRef.toJson ctor))
        (← Expr.listOfJson? positional n (.arr (Expr.listToJson args)))) = _
    rw [type.reads n htype, optional_reads nofun MethodRef.reads hctor,
      reads_items (Expr.listOfJson? positional) (fun _ => rfl) (Expr.items_read args) n hargs]
    rfl
  | conversion value newTy =>
    rw [ExprKind.toJson] at hn ⊢
    obtain ⟨n, rfl, h⟩ := exists_of_depth_fields hn
    simp only [List.forall_mem_cons] at h
    obtain ⟨hvalue, hty, -⟩ := h
    show (do
      return ExprKind.conversion (← Expr.ofJson? positional n value.toJson)
        (← Ty.ofJson? n newTy.toJson)) = _
    rw [Expr.reads value n hvalue, newTy.reads n hty]
    rfl

theorem Target.reads (t : Target) : Reads (Target.ofJson? positional) t.toJson t := by
  intro n hn
  cases t with
  | var name =>
    rw [Target.toJson] at hn ⊢
    obtain ⟨n, rfl, -⟩ := exists_of_depth_obj hn
    rfl
  | field object field =>
    rw [Target.toJson] at hn ⊢
    obtain ⟨n, rfl, h⟩ := exists_of_depth_fields hn
    simp only [List.forall_mem_cons] at h
    obtain ⟨hobject, hfield, -⟩ := h
    show (do
      return Target.field
        (← Json.nullable? (Expr.ofJson? positional n) (Expr.optionToJson object))
        (← FieldRef.ofJson? n field.toJson)) = _
    rw [Expr.option_reads object hobject, field.reads n hfield]
    rfl

theorem Call.reads (c : Call) : Reads (Call.ofJson? positional) c.toJson c := by
  intro n hn
  obtain ⟨method, receiver, args, isVirtual⟩ := c
  rw [Call.toJson] at hn ⊢
  obtain ⟨n, rfl, h⟩ := exists_of_depth_obj hn
  simp only [List.forall_mem_cons] at h
  obtain ⟨hmethod, hreceiver, hargs, -⟩ := h
  rw [Call.ofJson?, slots?_obj (by rfl) (by decide)]
  simp only [List.map_cons, List.map_nil, required_of (method.reads n hmethod),
    optional_of (Expr.option_reads receiver hreceiver),
    orDefault_of (reads_items (Expr.listOfJson? positional) (fun _ => rfl) (Expr.items_read args) n
      hargs),
    orDefault_of (Json.bool?_bool isVirtual)]
  rfl

theorem Expr.option_reads {n : Nat} (e : Option Expr) (hn : (Expr.optionToJson e).depth ≤ n) :
    Json.nullable? (Expr.ofJson? positional n) (Expr.optionToJson e) = some e := by
  cases e with
  | none => rfl
  | some e =>
    rw [Expr.optionToJson] at hn ⊢
    exact nullable?_of (by cases e; nofun) (Expr.reads e n hn)

theorem Expr.items_read (es : List Expr) (n : Nat)
    (hn : ∀ j ∈ Expr.listToJson es, j.depth ≤ n) :
    (Expr.listToJson es).mapM (Expr.ofJson? positional n) = some es := by
  cases es with
  | nil => rfl
  | cons e es =>
    rw [Expr.listToJson, List.forall_mem_cons] at hn
    rw [Expr.listToJson, List.mapM_cons, Expr.reads e n hn.1, Expr.items_read es n hn.2]
    rfl

end

/-! ## Statements -/

mutual

theorem Stmt.reads (s : Stmt) : Reads (Stmt.ofJson? positional) s.toJson s := by
  intro n hn
  obtain ⟨id, span, kind⟩ := s
  rw [Stmt.toJson] at hn ⊢
  obtain ⟨n, rfl, h⟩ := exists_of_depth_obj hn
  simp only [List.forall_mem_cons] at h
  obtain ⟨-, hspan, hkind, -⟩ := h
  rw [Stmt.ofJson?, slots?_obj (by rfl) (by decide)]
  simp only [List.map_cons, List.map_nil, orDefault_of (Json.uint32?_ofUInt32 id),
    orDefault_of (span.reads n hspan), required_of (StmtKind.reads kind n hkind)]
  rfl

theorem StmtKind.reads (kind : StmtKind) :
    Reads (StmtKind.ofJson? positional) kind.toJson kind := by
  intro n hn
  cases kind with
  | empty | breakLoop | continueLoop | rethrow => cases n <;> rfl
  | block stmts =>
    rw [StmtKind.toJson] at hn ⊢
    obtain ⟨n, rfl, h⟩ := exists_of_depth_tagged hn
    show (Stmt.listOfJson? positional n (.arr (Stmt.listToJson stmts))).map StmtKind.block = _
    rw [reads_items (Stmt.listOfJson? positional) (fun _ => rfl) (Stmt.items_read stmts) n h,
      Option.map_some]
  | assert cond =>
    rw [StmtKind.toJson] at hn ⊢
    obtain ⟨n, rfl, h⟩ := exists_of_depth_tagged hn
    show (Expr.ofJson? positional n cond.toJson).map StmtKind.assert = _
    rw [cond.reads n h, Option.map_some]
  | assume cond =>
    rw [StmtKind.toJson] at hn ⊢
    obtain ⟨n, rfl, h⟩ := exists_of_depth_tagged hn
    show (Expr.ofJson? positional n cond.toJson).map StmtKind.assume = _
    rw [cond.reads n h, Option.map_some]
  | expression e =>
    rw [StmtKind.toJson] at hn ⊢
    obtain ⟨n, rfl, h⟩ := exists_of_depth_tagged hn
    show (Expr.ofJson? positional n e.toJson).map StmtKind.expression = _
    rw [e.reads n h, Option.map_some]
  | throw e =>
    rw [StmtKind.toJson] at hn ⊢
    obtain ⟨n, rfl, h⟩ := exists_of_depth_tagged hn
    show (Expr.ofJson? positional n e.toJson).map StmtKind.throw = _
    rw [e.reads n h, Option.map_some]
  | push e =>
    rw [StmtKind.toJson] at hn ⊢
    obtain ⟨n, rfl, h⟩ := exists_of_depth_tagged hn
    show (Expr.ofJson? positional n e.toJson).map StmtKind.push = _
    rw [e.reads n h, Option.map_some]
  | ret value =>
    rw [StmtKind.toJson] at hn ⊢
    obtain ⟨n, rfl, h⟩ := exists_of_depth_tagged hn
    show (Json.nullable? (Expr.ofJson? positional n) (Expr.optionToJson value)).map
      StmtKind.ret = _
    rw [Expr.option_reads value h, Option.map_some]
  | goto label =>
    rw [StmtKind.toJson] at hn ⊢
    obtain ⟨n, rfl, -⟩ := exists_of_depth_tagged hn
    rfl
  | conditional cond thenBranch elseBranch =>
    rw [StmtKind.toJson] at hn ⊢
    obtain ⟨n, rfl, h⟩ := exists_of_depth_fields hn
    simp only [List.forall_mem_cons] at h
    obtain ⟨hcond, hthen, helse, -⟩ := h
    show (do
      return StmtKind.conditional (← Expr.ofJson? positional n cond.toJson)
        (← Stmt.ofJson? positional n thenBranch.toJson)
        (← Stmt.ofJson? positional n elseBranch.toJson)) = _
    rw [cond.reads n hcond, Stmt.reads thenBranch n hthen, Stmt.reads elseBranch n helse]
    rfl
  | whileLoop cond body =>
    rw [StmtKind.toJson] at hn ⊢
    obtain ⟨n, rfl, h⟩ := exists_of_depth_fields hn
    simp only [List.forall_mem_cons] at h
    obtain ⟨hcond, hbody, -⟩ := h
    show (do
      return StmtKind.whileLoop (← Expr.ofJson? positional n cond.toJson)
        (← Stmt.ofJson? positional n body.toJson)) = _
    rw [cond.reads n hcond, Stmt.reads body n hbody]
    rfl
  | doUntil body cond =>
    rw [StmtKind.toJson] at hn ⊢
    obtain ⟨n, rfl, h⟩ := exists_of_depth_fields hn
    simp only [List.forall_mem_cons] at h
    obtain ⟨hbody, hcond, -⟩ := h
    show (do
      return StmtKind.doUntil (← Stmt.ofJson? positional n body.toJson)
        (← Expr.ofJson? positional n cond.toJson)) = _
    rw [Stmt.reads body n hbody, cond.reads n hcond]
    rfl
  | forLoop init cond step body =>
    rw [StmtKind.toJson] at hn ⊢
    obtain ⟨n, rfl, h⟩ := exists_of_depth_fields hn
    simp only [List.forall_mem_cons] at h
    obtain ⟨hinit, hcond, hstep, hbody, -⟩ := h
    show (do
      return StmtKind.forLoop
        (← Stmt.listOfJson? positional n (.arr (Stmt.listToJson init)))
        (← Json.nullable? (Expr.ofJson? positional n) (Expr.optionToJson cond))
        (← Stmt.listOfJson? positional n (.arr (Stmt.listToJson step)))
        (← Stmt.ofJson? positional n body.toJson)) = _
    rw [reads_items (Stmt.listOfJson? positional) (fun _ => rfl) (Stmt.items_read init) n hinit,
      Expr.option_reads cond hcond,
      reads_items (Stmt.listOfJson? positional) (fun _ => rfl) (Stmt.items_read step) n hstep,
      Stmt.reads body n hbody]
    rfl
  | forEach item collection body =>
    rw [StmtKind.toJson] at hn ⊢
    obtain ⟨n, rfl, h⟩ := exists_of_depth_fields hn
    simp only [List.forall_mem_cons] at h
    obtain ⟨hitem, hcollection, hbody, -⟩ := h
    show (do
      return StmtKind.forEach (← Variable.ofJson? n item.toJson)
        (← Expr.ofJson? positional n collection.toJson)
        (← Stmt.ofJson? positional n body.toJson)) = _
    rw [item.reads n hitem, collection.reads n hcollection, Stmt.reads body n hbody]
    rfl
  | switch scrutinee cases =>
    rw [StmtKind.toJson] at hn ⊢
    obtain ⟨n, rfl, h⟩ := exists_of_depth_fields hn
    simp only [List.forall_mem_cons] at h
    obtain ⟨hscrutinee, hcases, -⟩ := h
    show (do
      return StmtKind.switch (← Expr.ofJson? positional n scrutinee.toJson)
        (← SwitchCase.listOfJson? positional n (.arr (SwitchCase.listToJson cases)))) = _
    rw [scrutinee.reads n hscrutinee,
      reads_items (SwitchCase.listOfJson? positional) (fun _ => rfl) (SwitchCase.items_read cases) n
        hcases]
    rfl
  | localDecl decl init =>
    rw [StmtKind.toJson] at hn ⊢
    obtain ⟨n, rfl, h⟩ := exists_of_depth_fields hn
    simp only [List.forall_mem_cons] at h
    obtain ⟨hdecl, hinit, -⟩ := h
    show (do
      return StmtKind.localDecl (← Variable.ofJson? n decl.toJson)
        (← Json.nullable? (Expr.ofJson? positional n) (Expr.optionToJson init))) = _
    rw [decl.reads n hdecl, Expr.option_reads init hinit]
    rfl
  | labeled label body =>
    rw [StmtKind.toJson] at hn ⊢
    obtain ⟨n, rfl, h⟩ := exists_of_depth_fields hn
    simp only [List.forall_mem_cons] at h
    obtain ⟨-, hbody, -⟩ := h
    show (do
      return StmtKind.labeled (← (Json.str label).str?)
        (← Stmt.ofJson? positional n body.toJson)) = _
    rw [Stmt.reads body n hbody]
    rfl
  | tryCatch body catches finalizer =>
    rw [StmtKind.toJson] at hn ⊢
    obtain ⟨n, rfl, h⟩ := exists_of_depth_fields hn
    simp only [List.forall_mem_cons] at h
    obtain ⟨hbody, hcatches, hfinalizer, -⟩ := h
    show (do
      return StmtKind.tryCatch (← Stmt.ofJson? positional n body.toJson)
        (← CatchClause.listOfJson? positional n (.arr (CatchClause.listToJson catches)))
        (← Json.nullable? (Stmt.ofJson? positional n) (Stmt.optionToJson finalizer))) = _
    rw [Stmt.reads body n hbody,
      reads_items (CatchClause.listOfJson? positional) (fun _ => rfl)
        (CatchClause.items_read catches) n hcatches,
      Stmt.option_reads finalizer hfinalizer]
    rfl

theorem SwitchCase.reads (c : SwitchCase) : Reads (SwitchCase.ofJson? positional) c.toJson c := by
  intro n hn
  obtain ⟨span, value, body⟩ := c
  rw [SwitchCase.toJson] at hn ⊢
  obtain ⟨n, rfl, h⟩ := exists_of_depth_obj hn
  simp only [List.forall_mem_cons] at h
  obtain ⟨hspan, hvalue, hbody, -⟩ := h
  rw [SwitchCase.ofJson?, slots?_obj (by rfl) (by decide)]
  simp only [List.map_cons, List.map_nil, orDefault_of (span.reads n hspan),
    nullable_of (Expr.option_reads value hvalue),
    required_of (reads_items (Stmt.listOfJson? positional) (fun _ => rfl) (Stmt.items_read body) n
      hbody)]
  rfl

theorem CatchClause.reads (c : CatchClause) :
    Reads (CatchClause.ofJson? positional) c.toJson c := by
  intro n hn
  obtain ⟨span, type, binding, body⟩ := c
  rw [CatchClause.toJson] at hn ⊢
  obtain ⟨n, rfl, h⟩ := exists_of_depth_obj hn
  simp only [List.forall_mem_cons] at h
  obtain ⟨hspan, htype, hbinding, hbody, -⟩ := h
  rw [CatchClause.ofJson?, slots?_obj (by rfl) (by decide)]
  simp only [List.map_cons, List.map_nil, orDefault_of (span.reads n hspan),
    nullable_of (optional_reads TypeRef.toJson_ne_null TypeRef.reads htype),
    nullable_of (optional_reads nofun Variable.reads hbinding),
    required_of (Stmt.reads body n hbody)]
  rfl

theorem Stmt.option_reads {n : Nat} (s : Option Stmt) (hn : (Stmt.optionToJson s).depth ≤ n) :
    Json.nullable? (Stmt.ofJson? positional n) (Stmt.optionToJson s) = some s := by
  cases s with
  | none => rfl
  | some s =>
    rw [Stmt.optionToJson] at hn ⊢
    exact nullable?_of (by cases s; nofun) (Stmt.reads s n hn)

theorem Stmt.items_read (ss : List Stmt) (n : Nat)
    (hn : ∀ j ∈ Stmt.listToJson ss, j.depth ≤ n) :
    (Stmt.listToJson ss).mapM (Stmt.ofJson? positional n) = some ss := by
  cases ss with
  | nil => rfl
  | cons s ss =>
    rw [Stmt.listToJson, List.forall_mem_cons] at hn
    rw [Stmt.listToJson, List.mapM_cons, Stmt.reads s n hn.1, Stmt.items_read ss n hn.2]
    rfl

theorem SwitchCase.items_read (cs : List SwitchCase) (n : Nat)
    (hn : ∀ j ∈ SwitchCase.listToJson cs, j.depth ≤ n) :
    (SwitchCase.listToJson cs).mapM (SwitchCase.ofJson? positional n) = some cs := by
  cases cs with
  | nil => rfl
  | cons c cs =>
    rw [SwitchCase.listToJson, List.forall_mem_cons] at hn
    rw [SwitchCase.listToJson, List.mapM_cons, SwitchCase.reads c n hn.1,
      SwitchCase.items_read cs n hn.2]
    rfl

theorem CatchClause.items_read (cs : List CatchClause) (n : Nat)
    (hn : ∀ j ∈ CatchClause.listToJson cs, j.depth ≤ n) :
    (CatchClause.listToJson cs).mapM (CatchClause.ofJson? positional n) = some cs := by
  cases cs with
  | nil => rfl
  | cons c cs =>
    rw [CatchClause.listToJson, List.forall_mem_cons] at hn
    rw [CatchClause.listToJson, List.mapM_cons, CatchClause.reads c n hn.1,
      CatchClause.items_read cs n hn.2]
    rfl

end

/-! ## Programs -/

theorem TypeKind.reads (k : TypeKind) : Reads TypeKind.ofJson? (.str k.tag) k := by
  intro n _
  cases k <;> cases n <;> rfl

theorem FieldDef.reads (f : FieldDef) : Reads FieldDef.ofJson? f.toJson f := by
  intro n hn
  obtain ⟨n, rfl, h⟩ := exists_of_depth_obj hn
  simp only [List.forall_mem_cons] at h
  obtain ⟨-, hty, -⟩ := h
  rw [ofJson?, toJson, slots?_obj (by rfl) (by decide)]
  simp only [List.map_cons, List.map_nil, required_of (Json.str?_str _),
    required_of (f.ty.reads n hty), orDefault_of (Json.bool?_bool _)]
  rfl

theorem MethodDef.reads (m : MethodDef) : Reads (MethodDef.ofJson? positional) m.toJson m := by
  intro n hn
  obtain ⟨n, rfl, h⟩ := exists_of_depth_obj hn
  simp only [List.forall_mem_cons] at h
  obtain ⟨-, hparams, hret, -, -, -, -, hoverrides, hbody, -⟩ := h
  have hnull : ∀ s : Stmt, s.toJson ≠ .null := by
    intro s
    cases s
    nofun
  rw [ofJson?, toJson, slots?_obj (by rfl) (by decide)]
  simp only [List.map_cons, List.map_nil, required_of (Json.str?_str _),
    orDefault_of (reads_map (fun v _ => v.reads) n hparams), orDefault_of (m.ret.reads n hret),
    orDefault_of (Json.bool?_bool _), orDefault_of (reads_map (fun r _ => r.reads) n hoverrides),
    optional_of (optional_reads hnull Stmt.reads hbody)]
  rfl

mutual

theorem TypeDef.reads (d : TypeDef) : Reads (TypeDef.ofJson? positional) d.toJson d := by
  intro n hn
  obtain ⟨name, kind, baseClasses, interfaces, fields, methods, nested⟩ := d
  rw [TypeDef.toJson] at hn ⊢
  obtain ⟨n, rfl, h⟩ := exists_of_depth_obj hn
  simp only [List.forall_mem_cons] at h
  obtain ⟨hname, hkind, hbases, hinterfaces, hfields, hmethods, hnested, -⟩ := h
  rw [TypeDef.ofJson?, slots?_obj (by rfl) (by decide)]
  simp only [List.map_cons, List.map_nil, required_of (name.reads n hname),
    required_of (kind.reads n hkind), orDefault_of (reads_map (fun t _ => t.reads) n hbases),
    orDefault_of (reads_map (fun t _ => t.reads) n hinterfaces),
    orDefault_of (reads_map (fun f _ => f.reads) n hfields),
    orDefault_of (reads_map (fun m _ => MethodDef.reads m) n hmethods),
    orDefault_of (reads_items (TypeDef.listOfJson? positional) (fun _ => rfl)
      (TypeDef.items_read nested) n hnested)]
  rfl

theorem TypeDef.items_read (ds : List TypeDef) (n : Nat)
    (hn : ∀ j ∈ TypeDef.listToJson ds, j.depth ≤ n) :
    (TypeDef.listToJson ds).mapM (TypeDef.ofJson? positional n) = some ds := by
  cases ds with
  | nil => rfl
  | cons d ds =>
    rw [TypeDef.listToJson, List.forall_mem_cons] at hn
    rw [TypeDef.listToJson, List.mapM_cons, TypeDef.reads d n hn.1, TypeDef.items_read ds n hn.2]
    rfl

end

theorem TypeDef.listToJson_eq_map (ds : List TypeDef) :
    TypeDef.listToJson ds = ds.map TypeDef.toJson := by
  induction ds with
  | nil => rfl
  | cons d ds ih => rw [TypeDef.listToJson, ih, List.map_cons]

theorem Program.reads (p : Program) : Reads (Program.ofJson? positional) p.toJson p := by
  intro n hn
  obtain ⟨n, rfl, h⟩ := exists_of_depth_obj hn
  simp only [List.forall_mem_cons] at h
  obtain ⟨htypes, hfiles, -⟩ := h
  rw [ofJson?, toJson, slots?_obj (by rfl) (by decide)]
  have hdefs : ∀ n, (∀ j ∈ TypeDef.listToJson p.types, j.depth ≤ n) →
      (TypeDef.listToJson p.types).mapM (TypeDef.ofJson? positional n) = some p.types :=
    TypeDef.items_read p.types
  rw [TypeDef.listToJson_eq_map] at hdefs
  simp only [List.map_cons, List.map_nil,
    required_of (reads_items (TypeDef.listOfJson? positional) (fun _ => rfl) hdefs n htypes),
    orDefault_of (reads_map (fun f _ => f.reads) n hfiles)]
  rfl

end

end Source

end Unwind
