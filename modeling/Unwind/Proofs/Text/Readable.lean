import Mathlib
import Unwind.Proofs.Text.Expressions

/-!
# Printed texts are uniquely readable

Expressions and attributes are the same as soon as their texts are, up to the two notations that
type constants share with identifiers and negations of positive literals with negative literals
(`plain_eq_of_text_eq`). Where neither is used, the text of an expression tells its tree
(`Expr.text_inj`); what is escaped can always be told apart (`escape_inj`).
-/

namespace Unwind.Ir

open Reader

variable {rest : List Char}

/-! ## Attributes -/

/-- A string is read up to the quote that closes it, however many it has of its own. -/
theorem readQuoted_escape (cs : List Char) :
    readQuoted ((cs.map escapeChar).flatMap String.toList ++ '"' :: rest) = some (cs, rest) := by
  induction cs with
  | nil => rfl
  | cons c cs ih =>
    rw [List.map_cons, List.flatMap_cons, List.append_assoc]
    by_cases hquote : c = '"'
    · subst hquote
      simp [escapeChar, readQuoted, ih, unescapeChar]
    by_cases hslash : c = '\\'
    · subst hslash
      simp [escapeChar, readQuoted, ih, unescapeChar]
    by_cases hline : c = '\n'
    · subst hline
      simp [escapeChar, readQuoted, ih, unescapeChar]
    by_cases htab : c = '\t'
    · subst htab
      simp [escapeChar, readQuoted, ih, unescapeChar]
    simp [escapeChar, hquote, hslash, hline, htab, readQuoted, ih]

theorem takes_quoted (s : String) : Takes readQuoted (escape s ++ "\"") s.toList rest := by
  rw [Takes, String.toList_append, escape, String.toList_join, List.append_assoc]
  exact readQuoted_escape s.toList

namespace AttrValue

variable {v : AttrValue} {n : Nat}

theorem text_expr (e : Expr) : (expr e).text = e.text := rfl

theorem text_str (s : String) : (str s).text = "\"" ++ escape s ++ "\"" := rfl

theorem head?_text (h : v.wellNamed = true) :
    ∃ c, v.text.toList.head? = some c ∧ c ≠ '\x7d' := by
  cases v with
  | expr e =>
    obtain ⟨c, hc, hopens⟩ := Expr.head?_text h
    exact ⟨c, hc, hopens.ne (by decide)⟩
  | str s =>
    refine ⟨'"', ?_, by decide⟩
    rw [text_str, String.append_assoc]
    exact head?_toList_append (by decide)

theorem takes_value (h : v.wellNamed = true) (hn : 2 * v.text.length + 1 < n) (hrest : Ends rest) :
    (readValue n).Takes v.text v.plain rest := by
  cases v with
  | expr e =>
    obtain ⟨c, hc, hopens⟩ := Expr.head?_text h
    have hquote : (e.text.toList ++ rest).head? ≠ some '"' := by
      rw [List.head?_append, hc, Option.some_or]
      exact fun heq => hopens.ne (by decide) (Option.some.inj heq)
    refine takes_ahead ?_
    rw [text_expr, if_neg hquote]
    exact takes_bind_pure ((Expr.readable e h).full hn hrest)
  | str s =>
    have hquoted : Takes (do return str (String.ofList (← readQuoted))) (escape s ++ "\"")
        (str (String.ofList s.toList)) rest := takes_bind_pure (takes_quoted s)
    rw [String.ofList_toList] at hquoted
    refine takes_ahead ?_
    rw [text_str, String.append_assoc, if_pos (head?_append (by decide))]
    exact takes_exactly_bind hquoted

theorem text_ne_empty (h : v.wellNamed = true) : v.text ≠ "" := by
  obtain ⟨c, hc, -⟩ := head?_text h
  intro hempty
  rw [hempty] at hc
  cases hc

end AttrValue

namespace Attr

theorem text_eq (a : Attr) : a.text =
    "\x7b:" ++ (a.key ++ (joined " " (a.values.map AttrValue.text) ++ "\x7d")) := by
  rw [text]
  cases hvalues : a.values with
  | nil => simp [String.append_assoc]
  | cons v vs =>
    rw [← append_intercalate (by simp)]
    simp [String.append_assoc]

theorem takes_attr {a : Attr} {n : Nat} (h : a.wellNamed = true) (hn : 2 * a.text.length ≤ n) :
    (readAttr n).Takes a.text a.plain rest := by
  simp only [wellNamed, Bool.and_eq_true, List.all_eq_true] at h
  obtain ⟨hkey, hvalues⟩ := h
  obtain ⟨-, hall, -⟩ := isWord_iff.mp (isName_iff.mp hkey).1
  rw [text_eq] at hn ⊢
  have hbrace : "\x7b:".length = 2 := rfl
  simp only [String.length_append] at hn
  have hlength : a.values.length ≤ (joined " " (a.values.map AttrValue.text)).length := by
    rw [← List.length_map AttrValue.text]
    refine length_le_length_joined (List.forall_mem_map.mpr fun v hv => ?_)
    exact AttrValue.text_ne_empty (hvalues v hv)
  refine takes_exactly_bind ?_
  refine takes_bind (takes_word hall ?_) ?_
  · intro c hc
    cases hcons : a.values with
    | nil =>
      rw [hcons] at hc
      cases hc
      decide
    | cons v vs =>
      rw [hcons, List.map_cons, joined_cons, String.append_assoc] at hc
      rw [head?_append (c := ' ') (by decide)] at hc
      cases hc
      decide
  refine takes_bind (takes_list (g := AttrValue.plain) (m := "\x7d") (by decide) (by decide)
    (by decide) (by decide) (fun v hv => ⟨?_, fun hends => ?_⟩) (by omega)) ?_
  · exact AttrValue.head?_text (hvalues v hv)
  · have hle := length_le_joined " " (List.mem_map_of_mem (f := AttrValue.text) hv)
    exact AttrValue.takes_value (hvalues v hv) (by omega) hends
  · exact takes_bind_pure takes_exactly

/-- The text of an attribute is read as the attribute in plain notation. -/
theorem read?_text (a : Attr) (h : a.wellNamed = true) : read? a.text = some a.plain := by
  have htakes : (readAttr (2 * a.text.length)).Takes a.text a.plain [] := takes_attr h le_rfl
  rw [Reader.Takes, List.append_nil] at htakes
  simp [read?, StateT.run', htakes]

end Attr

/-! ## Unique readability -/

/-- Expressions with the same text are the same up to the two shared notations, and so are
attributes. -/
theorem plain_eq_of_text_eq :
    (∀ e e' : Expr, e.wellNamed = true → e'.wellNamed = true → e.text = e'.text →
      e.plain = e'.plain) ∧
    (∀ a a' : Attr, a.wellNamed = true → a'.wellNamed = true → a.text = a'.text →
      a.plain = a'.plain) := by
  constructor
  · intro e e' h h' htext
    have hread := Expr.read?_text e h
    rw [htext, Expr.read?_text e' h'] at hread
    exact (Option.some.inj hread).symm
  · intro a a' h h' htext
    have hread := Attr.read?_text a h
    rw [htext, Attr.read?_text a' h'] at hread
    exact (Option.some.inj hread).symm

/-- The two shared notations inside of a call and of an attribute that has a quote in it. -/
theorem plain_eq_of_shared_notations :
    let e := Expr.app "f" [.unary .neg (.int 5), .typeConst "T$A"]
    let e' := Expr.app "f" [.int (-5), .ident "T$A"]
    let a : Attr := ⟨"note", [.str "a\"b", .expr e]⟩
    let a' : Attr := ⟨"note", [.str "a\"b", .expr e']⟩
    (e.text = e'.text ∧ e.plain = e'.plain) ∧ (a.text = a'.text ∧ a.plain = a'.plain) := by
  intro e e' a a'
  have htext : e.text = e'.text := by decide
  have htext' : a.text = a'.text := by decide
  exact ⟨⟨htext, plain_eq_of_text_eq.1 e e' (by decide) (by decide) htext⟩,
    ⟨htext', plain_eq_of_text_eq.2 a a' (by decide) (by decide) htext'⟩⟩

/-! ### Trees and strings -/

/-- The operator is a minus in front of a positive literal. -/
def UnOp.isSign : UnOp → Expr → Bool
  | neg, .lit (.int n) => 0 < n
  | _, _ => false

theorem UnOp.applied_of_not_isSign {op : UnOp} {e : Expr} (h : op.isSign e = false) :
    op.applied e = .unary op e := by
  unfold applied
  split
  · rw [isSign, decide_eq_false_iff_not] at h
    exact if_neg h
  · rfl

namespace Expr

mutual

/-- Neither of the two shared notations is used. -/
def isPlain : Expr → Bool
  | lit _ | ident _ => true
  | typeConst _ => false
  | unary op e => e.isPlain && !op.isSign e
  | binary _ a b => a.isPlain && b.isPlain
  | app _ args => allPlain args
  | select _ i => i.isPlain
  | ifThenElse c t e => c.isPlain && t.isPlain && e.isPlain

def allPlain : List Expr → Bool
  | [] => true
  | e :: es => e.isPlain && allPlain es

end

mutual

theorem plain_eq_self (e : Expr) (h : e.isPlain = true) : e.plain = e := by
  cases e with
  | lit l => rfl
  | ident x => rfl
  | typeConst x => cases h
  | unary op e =>
    simp only [isPlain, Bool.and_eq_true, Bool.not_eq_true'] at h
    rw [plain, plain_eq_self e h.1, UnOp.applied_of_not_isSign h.2]
  | binary op a b =>
    simp only [isPlain, Bool.and_eq_true] at h
    rw [plain, plain_eq_self a h.1, plain_eq_self b h.2]
  | app f args => rw [plain, plains_eq_self args h]
  | select m i => rw [plain, plain_eq_self i h]
  | ifThenElse c t e =>
    simp only [isPlain, Bool.and_eq_true] at h
    rw [plain, plain_eq_self c h.1.1, plain_eq_self t h.1.2, plain_eq_self e h.2]

theorem plains_eq_self (es : List Expr) (h : allPlain es = true) : plains es = es := by
  cases es with
  | nil => rfl
  | cons e es =>
    simp only [allPlain, Bool.and_eq_true] at h
    rw [plains, plain_eq_self e h.1, plains_eq_self es h.2]

end

/-- Where neither notation is used, the text tells the tree. -/
theorem text_inj {e e' : Expr} (h : e.wellNamed = true ∧ e.isPlain = true)
    (h' : e'.wellNamed = true ∧ e'.isPlain = true) : e.text = e'.text ↔ e = e' := by
  refine ⟨fun htext => ?_, congrArg text⟩
  have hread := read?_text e h.1
  rw [htext, read?_text e' h'.1, plain_eq_self e h.2, plain_eq_self e' h'.2] at hread
  exact (Option.some.inj hread).symm

end Expr

theorem escape_inj {s s' : String} : escape s = escape s' ↔ s = s' := by
  refine ⟨fun h => ?_, congrArg escape⟩
  have hs : Takes readQuoted (escape s ++ "\"") s.toList [] := takes_quoted s
  rw [h] at hs
  have hs' : Takes readQuoted (escape s' ++ "\"") s'.toList [] := takes_quoted s'
  exact String.toList_inj.mp (Prod.mk.inj (Option.some.inj (hs.symm.trans hs'))).1

end Unwind.Ir
