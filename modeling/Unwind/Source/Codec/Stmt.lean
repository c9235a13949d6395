import Unwind.Source.Codec.Expr
import Unwind.Source.Stmt

/-!
# JSON form of statements

A kind of statement is a variant: its tag, and its content where it has any. The content of a `try`
statement is a record of its own and may always be written as an array.
-/

namespace Unwind.Source

open Json (Decoder tagged)

mutual

def Stmt.toJson : Stmt → Json
  | ⟨id, span, kind⟩ =>
    .obj [("id", .ofUInt32 id), ("span", span.toJson), ("kind", kind.toJson)]

def StmtKind.toJson : StmtKind → Json
  | .block stmts => tagged "block" (.arr (Stmt.listToJson stmts))
  | .empty => .str "empty"
  | .assert cond => tagged "assert" cond.toJson
  | .assume cond => tagged "assume" cond.toJson
  | .conditional cond thenBranch elseBranch =>
    tagged "conditional" (.obj [("cond", cond.toJson), ("then_branch", thenBranch.toJson),
      ("else_branch", elseBranch.toJson)])
  | .expression e => tagged "expression" e.toJson
  | .breakLoop => .str "break"
  | .continueLoop => .str "continue"
  | .whileLoop cond body => tagged "while" (.obj [("cond", cond.toJson), ("body", body.toJson)])
  | .doUntil body cond => tagged "do_until" (.obj [("body", body.toJson), ("cond", cond.toJson)])
  | .forLoop init cond step body =>
    tagged "for" (.obj [("init", .arr (Stmt.listToJson init)), ("cond", Expr.optionToJson cond),
      ("step", .arr (Stmt.listToJson step)), ("body", body.toJson)])
  | .forEach item collection body =>
    tagged "for_each" (.obj [("variable", item.toJson), ("collection", collection.toJson),
      ("body", body.toJson)])
  | .switch scrutinee cases =>
    tagged "switch" (.obj [("scrutinee", scrutinee.toJson),
      ("cases", .arr (SwitchCase.listToJson cases))])
  | .localDecl decl init =>
    tagged "local_decl" (.obj [("local", decl.toJson), ("init", Expr.optionToJson init)])
  | .ret value => tagged "return" (Expr.optionToJson value)
  | .goto label => tagged "goto" (.str label)
  | .labeled label body => tagged "labeled" (.obj [("label", .str label), ("body", body.toJson)])
  | .tryCatch body catches finalizer =>
    tagged "try" (.obj [("body", body.toJson), ("catches", .arr (CatchClause.listToJson catches)),
      ("finally", Stmt.optionToJson finalizer)])
  | .throw e => tagged "throw" e.toJson
  | .rethrow => .str "rethrow"
  | .push e => tagged "push" e.toJson

def SwitchCase.toJson : SwitchCase → Json
  | ⟨span, value, body⟩ =>
    .obj [("span", span.toJson), ("value", Expr.optionToJson value),
      ("body", .arr (Stmt.listToJson body))]

def CatchClause.toJson : CatchClause → Json
  | ⟨span, exceptionType, binding, body⟩ =>
    .obj [("span", span.toJson), ("exception_type", optionalJson TypeRef.toJson exceptionType),
      ("variable", optionalJson Variable.toJson binding), ("body", body.toJson)]

def Stmt.optionToJson : Option Stmt → Json
  | none => .null
  | some s => s.toJson

def Stmt.listToJson : List Stmt → List Json
  | [] => []
  | s :: ss => s.toJson :: Stmt.listToJson ss

def SwitchCase.listToJson : List SwitchCase → List Json
  | [] => []
  | c :: cs => c.toJson :: SwitchCase.listToJson cs

def CatchClause.listToJson : List CatchClause → List Json
  | [] => []
  | c :: cs => c.toJson :: CatchClause.listToJson cs

end

mutual

def Stmt.ofJson? (positional : Bool) : Decoder Stmt
  | n + 1, j =>
    match j.slots? ["id", "span", "kind"] with
    | some [id, span, kind] => do
      return { id := ← id.orDefault 0 Json.uint32?, span := ← span.orDefault {} (Span.ofJson? n),
               kind := ← kind.required (StmtKind.ofJson? positional n) }
    | _ => none
  | 0, _ => none

def StmtKind.ofJson? (positional : Bool) : Decoder StmtKind
  | n + 1, .obj [(tag, content)] =>
    match tag with
    | "block" => (Stmt.listOfJson? positional n content).map .block
    | "empty" => content.null?.map fun _ => .empty
    | "assert" => (Expr.ofJson? positional n content).map .assert
    | "assume" => (Expr.ofJson? positional n content).map .assume
    | "expression" => (Expr.ofJson? positional n content).map .expression
    | "break" => content.null?.map fun _ => .breakLoop
    | "continue" => content.null?.map fun _ => .continueLoop
    | "return" => (Json.nullable? (Expr.ofJson? positional n) content).map .ret
    | "goto" => content.str?.map .goto
    | "try" => StmtKind.tryOfJson? positional n content
    | "throw" => (Expr.ofJson? positional n content).map .throw
    | "rethrow" => content.null?.map fun _ => .rethrow
    | "push" => (Expr.ofJson? positional n content).map .push
    | _ => StmtKind.ofContent? positional n tag content
  | _, .str "empty" => some .empty
  | _, .str "break" => some .breakLoop
  | _, .str "continue" => some .continueLoop
  | _, .str "rethrow" => some .rethrow
  | _, _ => none

/-- The kinds whose content is a record. -/
def StmtKind.ofContent? (positional : Bool) : Nat → String → Json → Option StmtKind
  | n + 1, tag, content =>
    match tag with
    | "conditional" =>
      match content.contentSlots? positional ["cond", "then_branch", "else_branch"] with
      | some [cond, thenBranch, elseBranch] => do
        return .conditional (← cond.required (Expr.ofJson? positional n))
          (← thenBranch.required (Stmt.ofJson? positional n))
          (← elseBranch.required (Stmt.ofJson? positional n))
      | _ => none
    | "while" =>
      match content.contentSlots? positional ["cond", "body"] with
      | some [cond, body] => do
        return .whileLoop (← cond.required (Expr.ofJson? positional n))
          (← body.required (Stmt.ofJson? positional n))
      | _ => none
    | "do_until" =>
      match content.contentSlots? positional ["body", "cond"] with
      | some [body, cond] => do
        return .doUntil (← body.required (Stmt.ofJson? positional n))
          (← cond.required (Expr.ofJson? positional n))
      | _ => none
    | "for" =>
      match content.contentSlots? positional ["init", "cond", "step", "body"] with
      | some [init, cond, step, body] => do
        return .forLoop (← init.required (Stmt.listOfJson? positional n))
          (← cond.nullable (Expr.ofJson? positional n))
          (← step.required (Stmt.listOfJson? positional n))
          (← body.required (Stmt.ofJson? positional n))
      | _ => none
    | "for_each" =>
      match content.contentSlots? positional ["variable", "collection", "body"] with
      | some [item, collection, body] => do
        return .forEach (← item.required (Variable.ofJson? n))
          (← collection.required (Expr.ofJson? positional n))
          (← body.required (Stmt.ofJson? positional n))
      | _ => none
    | "switch" =>
      match content.contentSlots? positional ["scrutinee", "cases"] with
      | some [scrutinee, cases] => do
        return .switch (← scrutinee.required (Expr.ofJson? positional n))
          (← cases.required (SwitchCase.listOfJson? positional n))
      | _ => none
    | "local_decl" =>
      match content.contentSlots? positional ["local", "init"] with
      | some [decl, init] => do
        return .localDecl (← decl.required (Variable.ofJson? n))
          (← init.nullable (Expr.ofJson? positional n))
      | _ => none
    | "labeled" =>
      match content.contentSlots? positional ["label", "body"] with
      | some [label, body] => do
        return .labeled (← label.required Json.str?) (← body.required (Stmt.ofJson? positional n))
      | _ => none
    | _ => none
  | 0, _, _ => none

/-- The parts of a `try` statement. -/
def StmtKind.tryOfJson? (positional : Bool) : Decoder StmtKind
  | n + 1, j =>
    match j.slots? ["body", "catches", "finally"] with
    | some [body, catches, finalizer] => do
      return .tryCatch (← body.required (Stmt.ofJson? positional n))
        (← catches.orDefault [] (CatchClause.listOfJson? positional n))
        (← finalizer.optional (Stmt.ofJson? positional n))
    | _ => none
  | 0, _ => none

def SwitchCase.ofJson? (positional : Bool) : Decoder SwitchCase
  | n + 1, j =>
    match j.slots? ["span", "value", "body"] with
    | some [span, value, body] => do
      return { span := ← span.orDefault {} (Span.ofJson? n),
               value := ← value.nullable (Expr.ofJson? positional n),
               body := ← body.required (Stmt.listOfJson? positional n) }
    | _ => none
  | 0, _ => none

def CatchClause.ofJson? (positional : Bool) : Decoder CatchClause
  | n + 1, j =>
    match j.slots? ["span", "exception_type", "variable", "body"] with
    | some [span, exceptionType, binding, body] => do
      return { span := ← span.orDefault {} (Span.ofJson? n),
               exceptionType := ← exceptionType.nullable (TypeRef.ofJson? n),
               binding := ← binding.nullable (Variable.ofJson? n),
               body := ← body.required (Stmt.ofJson? positional n) }
    | _ => none
  | 0, _ => none

def Stmt.listOfJson? (positional : Bool) : Decoder (List Stmt)
  | n + 1, .arr items => items.mapM (Stmt.ofJson? positional n)
  | _, _ => none

def SwitchCase.listOfJson? (positional : Bool) : Decoder (List SwitchCase)
  | n + 1, .arr items => items.mapM (SwitchCase.ofJson? positional n)
  | _, _ => none

def CatchClause.listOfJson? (positional : Bool) : Decoder (List CatchClause)
  | n + 1, .arr items => items.mapM (CatchClause.ofJson? positional n)
  | _, _ => none

end

end Unwind.Source
