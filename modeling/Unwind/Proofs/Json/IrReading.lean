import Unwind.Ir.Codec
import Unwind.Proofs.Json.Reading

/-!
# Compiled programs are read back

The same for programs of the verification language. No field has a default there, and the contents
of expressions are arrays, whose parts are read one by one.
-/

namespace Unwind.Ir

open Json (Reads reads_items reads_map exists_of_depth_obj exists_of_depth_tagged
  exists_of_depth_fields exists_of_depth_parts slots?_obj required_of nullable_of nullable?_of
  tagged)

/-! ## Types, literals and operators -/

theorem Ty.reads (t : Ty) : Reads Ty.ofJson? t.toJson t := by
  intro n _
  cases t <;> cases n <;> rfl

theorem VarDecl.reads (v : VarDecl) : Reads VarDecl.ofJson? v.toJson v := by
  intro n hn
  obtain ⟨n, rfl, h⟩ := exists_of_depth_obj hn
  simp only [List.forall_mem_cons] at h
  obtain ⟨-, hty, -⟩ := h
  rw [ofJson?, toJson, slots?_obj (by rfl) (by decide)]
  simp only [List.map_cons, List.map_nil, required_of (Json.str?_str _),
    required_of (v.ty.reads n hty)]
  rfl

theorem Lit.reads (l : Lit) : Reads Lit.ofJson? l.toJson l := by
  intro n hn
  cases l with
  | int i =>
    obtain ⟨n, rfl, -⟩ := exists_of_depth_tagged hn
    rw [toJson, tagged, ofJson?, Json.int64?_ofInt64, Option.map_some]
  | bool b =>
    obtain ⟨n, rfl, -⟩ := exists_of_depth_tagged hn
    rfl
  | null => cases n <;> rfl

theorem UnOp.reads (op : UnOp) : Reads UnOp.ofJson? (.str op.tag) op := by
  intro n _
  cases op <;> cases n <;> rfl

theorem BinOp.reads (op : BinOp) : Reads BinOp.ofJson? (.str op.tag) op := by
  intro n _
  cases op <;> cases n <;> rfl

/-! ## Expressions -/

mutual

theorem Expr.reads (e : Expr) : Reads Expr.ofJson? e.toJson e := by
  intro n hn
  cases e with
  | lit l =>
    rw [Expr.toJson] at hn ⊢
    obtain ⟨n, rfl, h⟩ := exists_of_depth_tagged hn
    show (Lit.ofJson? n l.toJson).map Expr.lit = _
    rw [l.reads n h, Option.map_some]
  | ident name | typeConst name =>
    rw [Expr.toJson] at hn ⊢
    obtain ⟨n, rfl, -⟩ := exists_of_depth_tagged hn
    rfl
  | unary op operand =>
    rw [Expr.toJson] at hn ⊢
    obtain ⟨n, rfl, h⟩ := exists_of_depth_parts hn
    simp only [List.forall_mem_cons] at h
    obtain ⟨hop, hoperand, -⟩ := h
    show (do
      return Expr.unary (← UnOp.ofJson? n (.str op.tag)) (← Expr.ofJson? n operand.toJson)) = _
    rw [op.reads n hop, Expr.reads operand n hoperand]
    rfl
  | binary op lhs rhs =>
    rw [Expr.toJson] at hn ⊢
    obtain ⟨n, rfl, h⟩ := exists_of_depth_parts hn
    simp only [List.forall_mem_cons] at h
    obtain ⟨hop, hlhs, hrhs, -⟩ := h
    show (do
      return Expr.binary (← BinOp.ofJson? n (.str op.tag)) (← Expr.ofJson? n lhs.toJson)
        (← Expr.ofJson? n rhs.toJson)) = _
    rw [op.reads n hop, Expr.reads lhs n hlhs, Expr.reads rhs n hrhs]
    rfl
  | app function args =>
    rw [Expr.toJson] at hn ⊢
    obtain ⟨n, rfl, h⟩ := exists_of_depth_parts hn
    simp only [List.forall_mem_cons] at h
    obtain ⟨-, hargs, -⟩ := h
    show (do
      return Expr.app (← (Json.str function).str?)
        (← Expr.listOfJson? n (.arr (Expr.listToJson args)))) = _
    rw [reads_items Expr.listOfJson? (fun _ => rfl) (Expr.items_read args) n hargs]
    rfl
  | select map index =>
    rw [Expr.toJson] at hn ⊢
    obtain ⟨n, rfl, h⟩ := exists_of_depth_parts hn
    simp only [List.forall_mem_cons] at h
    obtain ⟨-, hindex, -⟩ := h
    show (do
      return Expr.select (← (Json.str map).str?) (← Expr.ofJson? n index.toJson)) = _
    rw [Expr.reads index n hindex]
    rfl
  | ifThenElse cond thenExpr elseExpr =>
    rw [Expr.toJson] at hn ⊢
    obtain ⟨n, rfl, h⟩ := exists_of_depth_parts hn
    simp only [List.forall_mem_cons] at h
    obtain ⟨hcond, hthen, helse, -⟩ := h
    show (do
      return Expr.ifThenElse (← Expr.ofJson? n cond.toJson) (← Expr.ofJson? n thenExpr.toJson)
        (← Expr.ofJson? n elseExpr.toJson)) = _
    rw [Expr.reads cond n hcond, Expr.reads thenExpr n hthen, Expr.reads elseExpr n helse]
    rfl

theorem Expr.items_read (es : List Expr) (n : Nat)
    (hn : ∀ j ∈ Expr.listToJson es, j.depth ≤ n) :
    (Expr.listToJson es).mapM (Expr.ofJson? n) = some es := by
  cases es with
  | nil => rfl
  | cons e es =>
    rw [Expr.listToJson, List.forall_mem_cons] at hn
    rw [Expr.listToJson, List.mapM_cons, Expr.reads e n hn.1, Expr.items_read es n hn.2]
    rfl

end

/-! ## Commands -/

theorem AttrValue.reads (v : AttrValue) : Reads AttrValue.ofJson? v.toJson v := by
  intro n hn
  cases v with
  | expr e =>
    obtain ⟨n, rfl, h⟩ := exists_of_depth_tagged hn
    rw [toJson, tagged, ofJson?, e.reads n h, Option.map_some]
  | str s =>
    obtain ⟨n, rfl, -⟩ := exists_of_depth_tagged hn
    rfl

theorem Attr.reads (a : Attr) : Reads Attr.ofJson? a.toJson a := by
  intro n hn
  obtain ⟨n, rfl, h⟩ := exists_of_depth_obj hn
  simp only [List.forall_mem_cons] at h
  obtain ⟨-, hvalues, -⟩ := h
  rw [ofJson?, toJson, slots?_obj (by rfl) (by decide)]
  simp only [List.map_cons, List.map_nil, required_of (Json.str?_str _),
    required_of (reads_map (fun v _ => v.reads) n hvalues)]
  rfl

theorem Lhs.reads (l : Lhs) : Reads Lhs.ofJson? l.toJson l := by
  intro n hn
  cases l with
  | var name =>
    obtain ⟨n, rfl, -⟩ := exists_of_depth_tagged hn
    rfl
  | map m index =>
    obtain ⟨n, rfl, h⟩ := exists_of_depth_parts hn
    simp only [List.forall_mem_cons] at h
    obtain ⟨-, hindex, -⟩ := h
    rw [toJson, tagged, ofJson?, index.reads n hindex]
    rfl

theorem names_read (names : List String) :
    Reads namesOfJson? (.arr (names.map Json.str)) names :=
  reads_map fun _ _ _ _ => rfl

section

variable {positional : Bool}

mutual

theorem Cmd.reads (c : Cmd) : Reads (Cmd.ofJson? positional) c.toJson c := by
  intro n hn
  cases c with
  | ret => cases n <;> rfl
  | goto name | label name =>
    rw [Cmd.toJson] at hn ⊢
    obtain ⟨n, rfl, -⟩ := exists_of_depth_tagged hn
    rfl
  | assert cond attrs =>
    rw [Cmd.toJson] at hn ⊢
    obtain ⟨n, rfl, h⟩ := exists_of_depth_fields hn
    simp only [List.forall_mem_cons] at h
    obtain ⟨hcond, hattrs, -⟩ := h
    show (do
      return Cmd.assert (← Expr.ofJson? n cond.toJson)
        (← Json.list? Attr.ofJson? n (.arr (attrs.map Attr.toJson)))) = _
    rw [cond.reads n hcond, reads_map (fun a _ => Attr.reads a) n hattrs]
    rfl
  | assume cond attrs =>
    rw [Cmd.toJson] at hn ⊢
    obtain ⟨n, rfl, h⟩ := exists_of_depth_fields hn
    simp only [List.forall_mem_cons] at h
    obtain ⟨hcond, hattrs, -⟩ := h
    show (do
      return Cmd.assume (← Expr.ofJson? n cond.toJson)
        (← Json.list? Attr.ofJson? n (.arr (attrs.map Attr.toJson)))) = _
    rw [cond.reads n hcond, reads_map (fun a _ => Attr.reads a) n hattrs]
    rfl
  | assign lhs rhs =>
    rw [Cmd.toJson] at hn ⊢
    obtain ⟨n, rfl, h⟩ := exists_of_depth_fields hn
    simp only [List.forall_mem_cons] at h
    obtain ⟨hlhs, hrhs, -⟩ := h
    show (do
      return Cmd.assign (← Lhs.ofJson? n lhs.toJson) (← Expr.ofJson? n rhs.toJson)) = _
    rw [lhs.reads n hlhs, rhs.reads n hrhs]
    rfl
  | call attrs proc args outs =>
    rw [Cmd.toJson] at hn ⊢
    obtain ⟨n, rfl, h⟩ := exists_of_depth_fields hn
    simp only [List.forall_mem_cons] at h
    obtain ⟨hattrs, -, hargs, houts, -⟩ := h
    show (do
      return Cmd.call (← Json.list? Attr.ofJson? n (.arr (attrs.map Attr.toJson)))
        (← (Json.str proc).str?) (← Expr.listOfJson? n (.arr (Expr.listToJson args)))
        (← namesOfJson? n (.arr (outs.map Json.str)))) = _
    rw [reads_map (fun a _ => Attr.reads a) n hattrs, names_read outs n houts,
      reads_items Expr.listOfJson? (fun _ => rfl) (Expr.items_read args) n hargs]
    rfl
  | ifElse cond thenCmds elseCmds =>
    rw [Cmd.toJson] at hn ⊢
    obtain ⟨n, rfl, h⟩ := exists_of_depth_fields hn
    simp only [List.forall_mem_cons] at h
    obtain ⟨hcond, hthen, helse, -⟩ := h
    show (do
      return Cmd.ifElse (← Expr.ofJson? n cond.toJson)
        (← Cmd.listOfJson? positional n (.arr (Cmd.listToJson thenCmds)))
        (← Cmd.listOfJson? positional n (.arr (Cmd.listToJson elseCmds)))) = _
    rw [cond.reads n hcond,
      reads_items (Cmd.listOfJson? positional) (fun _ => rfl) (Cmd.items_read thenCmds) n hthen,
      reads_items (Cmd.listOfJson? positional) (fun _ => rfl) (Cmd.items_read elseCmds) n helse]
    rfl

theorem Cmd.items_read (cs : List Cmd) (n : Nat) (hn : ∀ j ∈ Cmd.listToJson cs, j.depth ≤ n) :
    (Cmd.listToJson cs).mapM (Cmd.ofJson? positional n) = some cs := by
  cases cs with
  | nil => rfl
  | cons c cs =>
    rw [Cmd.listToJson, List.forall_mem_cons] at hn
    rw [Cmd.listToJson, List.mapM_cons, Cmd.reads c n hn.1, Cmd.items_read cs n hn.2]
    rfl

end

/-! ## Programs -/

theorem Procedure.reads (p : Procedure) : Reads (Procedure.ofJson? positional) p.toJson p := by
  intro n hn
  obtain ⟨n, rfl, h⟩ := exists_of_depth_obj hn
  simp only [List.forall_mem_cons] at h
  obtain ⟨-, hparams, hreturns, hlocals, hbody, -⟩ := h
  have hcmds : Json.nullable? (Cmd.listOfJson? positional n) (bodyToJson p.body) =
      some p.body := by
    cases hb : p.body with
    | none => rfl
    | some cmds =>
      rw [hb] at hbody
      exact nullable?_of nofun (reads_items (Cmd.listOfJson? positional) (fun _ => rfl)
        (Cmd.items_read cmds) n hbody)
  rw [ofJson?, toJson, slots?_obj (by rfl) (by decide)]
  simp only [List.map_cons, List.map_nil, required_of (Json.str?_str _),
    required_of (reads_map (fun v _ => VarDecl.reads v) n hparams),
    required_of (reads_map (fun v _ => VarDecl.reads v) n hreturns),
    required_of (reads_map (fun v _ => VarDecl.reads v) n hlocals), nullable_of hcmds]
  rfl

theorem Program.reads (p : Program) : Reads (Program.ofJson? positional) p.toJson p := by
  intro n hn
  obtain ⟨n, rfl, h⟩ := exists_of_depth_obj hn
  simp only [List.forall_mem_cons] at h
  obtain ⟨htypes, hglobals, hmaps, hprocedures, -⟩ := h
  rw [ofJson?, toJson, slots?_obj (by rfl) (by decide)]
  simp only [List.map_cons, List.map_nil, required_of (names_read p.typeConstants n htypes),
    required_of (reads_map (fun v _ => VarDecl.reads v) n hglobals),
    required_of (reads_map (fun v _ => VarDecl.reads v) n hmaps),
    required_of (reads_map (fun q _ => Procedure.reads q) n hprocedures)]
  rfl

end

end Unwind.Ir
