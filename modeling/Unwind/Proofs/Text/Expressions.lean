import Mathlib
import Unwind.Proofs.Text.Takes

/-!
# Printed expressions can be read back

An expression is read in two places: in full, where something that is no operator follows, and as an
operand, where an operator may follow. `Expr.Readable` says that both succeed and stop at the end
of the text. Parentheses lead from the first to the second, and every atomic expression is read in
full as an operand that nothing follows; so one lemma per construct is enough.
-/

namespace Unwind.Ir

open Reader

variable {rest : List Char}

namespace Expr

variable {e : Expr} {n : Nat}

/-- The text of an expression as an operand. -/
def operandText (e : Expr) : String := parenUnless e.isAtomic e.text

theorem operandText_eq (e : Expr) :
    e.operandText = if e.isAtomic then e.text else "(" ++ e.text ++ ")" := rfl

theorem operandText_of_atomic (h : e.isAtomic = true) : e.operandText = e.text := by
  rw [operandText_eq, if_pos h]

theorem operandText_of_not_atomic (h : e.isAtomic = false) :
    e.operandText = "(" ++ (e.text ++ ")") := by
  rw [operandText_eq, h, if_neg Bool.false_ne_true, String.append_assoc]

theorem takes_nothing {lhs : Expr} {operand : Reader Expr} (hrest : Ends rest) :
    (readInfix lhs operand).Takes "" lhs rest := by
  refine takes_ahead ?_
  rw [String.toList_empty, List.nil_append, hrest.2]
  exact takes_pure

theorem takes_infix {lhs rhs : Expr} {operand : Reader Expr} {t : String} {op : BinOp}
    (h : operand.Takes t rhs rest) :
    (readInfix lhs operand).Takes (op.infixText ++ t) (binary op lhs rhs) rest := by
  refine takes_ahead ?_
  rw [String.toList_append, List.append_assoc, next?_infixText]
  exact takes_exactly_bind (takes_bind_pure h)

/-! ### Parts of an expression -/

theorem wellNamed_app (f : String) (args : List Expr) :
    (app f args).wellNamed = true ↔ isName f = true ∧ allWellNamed args = true :=
  Bool.and_eq_true_iff

theorem wellNamed_select (m : String) (i : Expr) :
    (select m i).wellNamed = true ↔ isName m = true ∧ i.wellNamed = true :=
  Bool.and_eq_true_iff

theorem wellNamed_binary (op : BinOp) (a b : Expr) :
    (binary op a b).wellNamed = true ↔ a.wellNamed = true ∧ b.wellNamed = true :=
  Bool.and_eq_true_iff

theorem wellNamed_ifThenElse (c t e : Expr) : (ifThenElse c t e).wellNamed = true ↔
    (c.wellNamed = true ∧ t.wellNamed = true) ∧ e.wellNamed = true :=
  Bool.and_eq_true_iff.trans (and_congr_left' Bool.and_eq_true_iff)

theorem allWellNamed_cons (e : Expr) (es : List Expr) :
    allWellNamed (e :: es) = true ↔ e.wellNamed = true ∧ allWellNamed es = true :=
  Bool.and_eq_true_iff

theorem texts_eq_map (es : List Expr) : texts es = es.map text := by
  induction es with
  | nil => rfl
  | cons e es ih =>
    change e.text :: texts es = _
    rw [ih, List.map_cons]

theorem plains_eq_map (es : List Expr) : plains es = es.map plain := by
  induction es with
  | nil => rfl
  | cons e es ih =>
    change e.plain :: plains es = _
    rw [ih, List.map_cons]

theorem text_app (f : String) (args : List Expr) :
    (app f args).text = f ++ ("(" ++ (joined "" (args.map text) ++ ")")) := by
  change f ++ "(" ++ ", ".intercalate (texts args) ++ ")" = _
  simp only [texts_eq_map, intercalate_eq_joined, String.append_assoc]

theorem text_select (m : String) (i : Expr) :
    (select m i).text = m ++ ("[" ++ (i.text ++ "]")) := by
  change m ++ "[" ++ i.text ++ "]" = _
  simp only [String.append_assoc]

theorem text_unary (op : UnOp) (e : Expr) : (unary op e).text = op.text ++ e.operandText := rfl

theorem text_binary (op : BinOp) (a b : Expr) :
    (binary op a b).text = a.operandText ++ (op.infixText ++ b.operandText) := by
  change a.operandText ++ " " ++ op.text ++ " " ++ b.operandText = _
  simp only [BinOp.infixText, String.append_assoc]

theorem text_ifThenElse (c t e : Expr) : (ifThenElse c t e).text =
    "if " ++ (c.text ++ (" then " ++ (t.text ++ (" else " ++ e.text)))) := by
  change "if " ++ c.text ++ " then " ++ t.text ++ " else " ++ e.text = _
  simp only [String.append_assoc]

/-- The text is read back in both places where it may stand, with fuel for its length. -/
structure Readable (e : Expr) : Prop where
  full : ∀ {n rest}, 2 * e.text.length + 1 < n → Ends rest →
    (readExpr n).Takes e.text e.plain rest
  operand : ∀ {n rest}, 2 * e.operandText.length < n → Stops rest →
    (readOperand n).Takes e.operandText e.plain rest
  opens : ∀ {rest}, Stops rest → Opening.of (e.operandText.toList ++ rest) = .operand

theorem length_operandText (h : e.isAtomic = false) :
    e.operandText.length = e.text.length + 2 := by
  rw [operandText_of_not_atomic h, String.length_append, String.length_append]
  change 1 + (_ + 1) = _
  omega

/-- An operator stands in parentheses as an operand. -/
theorem Readable.of_full (hatom : e.isAtomic = false)
    (h : ∀ {n rest}, 2 * e.text.length + 1 < n → Ends rest →
      (readExpr n).Takes e.text e.plain rest) : e.Readable := by
  refine ⟨h, ?_, fun _ => by rw [operandText_of_not_atomic hatom]; simpa using opening_paren⟩
  intro n rest hn hrest
  rw [length_operandText hatom] at hn
  obtain ⟨n, rfl⟩ : ∃ k, n = k + 1 := ⟨n - 1, by omega⟩
  rw [operandText_of_not_atomic hatom]
  refine takes_ahead ?_
  rw [head?_append (c := '(') (by decide)]
  refine takes_exactly_bind ?_
  refine takes_bind (h (by omega) ?_) (takes_bind_pure takes_exactly)
  exact ends_closer (by decide)

/-- Nothing more is read behind an operand that no operator follows. -/
theorem takes_full_of_operand {t : String} {a : Expr} (hrest : Ends rest)
    (hopens : Opening.of (t.toList ++ rest) = .operand) (h : (readOperand n).Takes t a rest) :
    (readExpr (n + 1)).Takes t a rest := by
  refine takes_ahead ?_
  rw [hopens]
  exact takes_bind_last h (takes_nothing hrest)

theorem Readable.of_operand (hatom : e.isAtomic = true)
    (hopens : ∀ {rest}, Stops rest → Opening.of (e.text.toList ++ rest) = .operand)
    (h : ∀ {n rest}, 2 * e.text.length < n → Stops rest →
      (readOperand n).Takes e.text e.plain rest) : e.Readable := by
  refine ⟨?_, by rwa [operandText_of_atomic hatom], by rwa [operandText_of_atomic hatom]⟩
  intro n rest hn hrest
  obtain ⟨n, rfl⟩ : ∃ k, n = k + 1 := ⟨n - 1, by omega⟩
  exact takes_full_of_operand hrest (hopens hrest.1) (h (by omega) hrest.1)

/-! ### Literals and words -/

theorem stops_word (h : Stops rest) : ∀ c ∈ rest.head?, isWordChar c = false := fun c hc =>
  (h c hc).1

theorem stops_number (h : Stops rest) : ∀ c ∈ rest.head?, c.isDigit = false := fun c hc =>
  not_isDigit_of_not_isWordChar (h c hc).1

theorem head?_repr (m : Nat) : ∃ c, m.repr.toList.head? = some c ∧ c.isDigit = true := by
  cases hcons : m.repr.toList with
  | nil => exact absurd hcons (by rw [Nat.toList_repr]; exact Nat.toDigits_ne_nil)
  | cons c cs => exact ⟨c, rfl, (isWordChar_of_mem_repr (m := m) (by simp [hcons])).1⟩

/-- An operand with neither a parenthesis nor a minus in front is a number or begins with a word. -/
theorem takes_operand {t : String} {a : Expr} {c : Char}
    (hc : (t.toList ++ rest).head? = some c) (hparen : c ≠ '(') (hminus : c ≠ '-')
    (h : Takes (if c.isDigit then (return int (Int64.ofInt (← number)))
      else do readBehind (← word) (list (readExpr n) ')' "" n) (readExpr n)) t a rest) :
    (readOperand (n + 1)).Takes t a rest := by
  refine takes_ahead ?_
  rw [hc]
  split
  next heq => exact absurd (Option.some.inj heq) hparen
  next heq => exact absurd (Option.some.inj heq) hminus
  next => rwa [Option.any_some]

theorem takes_natural (m : Nat) (hn : 0 < n) (hrest : Stops rest) :
    (readOperand n).Takes m.repr (int (Int64.ofInt m)) rest := by
  obtain ⟨n, rfl⟩ : ∃ k, n = k + 1 := ⟨n - 1, by omega⟩
  obtain ⟨c, hc, hd⟩ := head?_repr m
  have hparen : c ≠ '(' := by rintro rfl; exact absurd hd (by decide)
  have hminus : c ≠ '-' := by rintro rfl; exact absurd hd (by decide)
  refine takes_operand (by rw [List.head?_append, hc, Option.some_or]) hparen hminus ?_
  rw [if_pos hd]
  exact takes_bind_pure (takes_number m (stops_number hrest))

theorem takes_minus (m : Nat) (hn : 0 < n) (hrest : Stops rest) :
    (readOperand n).Takes ("-" ++ m.repr) (ofMinus m) rest := by
  obtain ⟨n, rfl⟩ : ∃ k, n = k + 1 := ⟨n - 1, by omega⟩
  refine takes_ahead ?_
  rw [head?_append (c := '-') (by decide)]
  exact takes_exactly_bind (takes_bind_pure (takes_number m (stops_number hrest)))

/-- A word is read as such, and what is behind it tells what it is the beginning of. -/
theorem takes_word_behind {x t : String} {a : Expr} (hx : isWord x = true)
    (ht : ∀ c ∈ (t.toList ++ rest).head?, isWordChar c = false)
    (h : (readBehind x (list (readExpr n) ')' "" n) (readExpr n)).Takes t a rest) :
    (readOperand (n + 1)).Takes (x ++ t) a rest := by
  obtain ⟨c, hc, hword, hdigit⟩ := head?_of_isWord hx
  have hparen : c ≠ '(' := by rintro rfl; exact absurd hword (by decide)
  have hminus : c ≠ '-' := by rintro rfl; exact absurd hword (by decide)
  refine takes_operand (head?_append hc) hparen hminus ?_
  rw [if_neg (by rw [hdigit]; decide)]
  exact takes_bind (takes_word (isWord_iff.mp hx).2.1 ht) h

theorem takes_ofWord {x : String} {args : Reader (List Expr)} {index : Reader Expr}
    (hrest : Stops rest) : (readBehind x args index).Takes "" (ofWord x) rest := by
  refine takes_ahead ?_
  rw [String.toList_empty, List.nil_append]
  split
  next heq => exact absurd rfl (hrest _ heq).2.1
  next heq => exact absurd rfl (hrest _ heq).2.2
  next => exact takes_pure

/-- An expression that is written as one word. -/
theorem Readable.of_word {x : String} (hx : isWord x = true) (hif : x ≠ "if")
    (hatom : e.isAtomic = true) (htext : e.text = x) (hplain : e.plain = ofWord x) :
    e.Readable := by
  subst htext
  refine .of_operand hatom (fun hrest => opening_word hx hif (stops_word hrest)) ?_
  intro n rest hn hrest
  obtain ⟨n, rfl⟩ : ∃ k, n = k + 1 := ⟨n - 1, by omega⟩
  have htakes := takes_word_behind (n := n) (t := "") hx (stops_word hrest) (takes_ofWord hrest)
  rwa [String.append_empty, ← hplain] at htakes

theorem ofWord_of_isName {x : String} (hx : isName x = true) : ofWord x = ident x := by
  have hkey := (isName_iff.mp hx).2
  have htrue : x ≠ "true" := by rintro rfl; exact hkey (by decide)
  have hfalse : x ≠ "false" := by rintro rfl; exact hkey (by decide)
  have hnull : x ≠ "null" := by rintro rfl; exact hkey (by decide)
  rw [ofWord, if_neg htrue, if_neg hfalse, if_neg hnull]

theorem text_int (v : Int64) : (int v).text = v.toInt.repr := rfl

theorem text_int_of_nonneg {v : Int64} (h : 0 ≤ v.toInt) :
    (int v).text = v.toInt.toNat.repr := by
  rw [text_int, Int.repr_eq_if, if_pos h]

theorem text_int_of_neg {v : Int64} (h : v.toInt < 0) :
    (int v).text = "-" ++ (-v.toInt).toNat.repr := by
  rw [text_int, Int.repr_eq_if, if_neg (not_le.mpr h)]

theorem opening_repr (m : Nat) (hrest : Stops rest) :
    Opening.of (m.repr.toList ++ rest) = .operand := by
  obtain ⟨c, hc, hd⟩ := head?_repr m
  refine opening_wordChars ?_ (fun c hc => (isWordChar_of_mem_repr hc).2) ?_ (stops_word hrest)
  · intro hnil
    rw [hnil] at hc
    cases hc
  · intro hif
    rw [hif] at hc
    cases hc
    exact absurd hd (by decide)

theorem opening_minus_repr (m : Nat) : Opening.of (("-" ++ m.repr).toList ++ rest) = .operand := by
  obtain ⟨c, hc, hd⟩ := head?_repr m
  have hcs : ("-" ++ m.repr).toList ++ rest = '-' :: (m.repr.toList ++ rest) := by simp
  rw [hcs, opening_minus, List.head?_append, hc, Option.some_or, Option.any_some, if_pos hd]

theorem readable_int (v : Int64) : (int v).Readable := by
  rcases lt_or_ge v.toInt 0 with hneg | hpos
  · have hvalue : ofMinus (-v.toInt).toNat = int v := by
      rw [ofMinus, if_neg (by omega), Int.toNat_of_nonneg (by omega), Int.neg_neg,
        Int64.ofInt_toInt]
    refine .of_operand rfl (fun _ => ?_) (fun hn hrest => ?_)
    · rw [text_int_of_neg hneg]
      exact opening_minus_repr _
    · rw [text_int_of_neg hneg, show (int v).plain = int v from rfl, ← hvalue]
      exact takes_minus _ (by omega) hrest
  · have hvalue : int (Int64.ofInt v.toInt.toNat) = int v := by
      rw [Int.toNat_of_nonneg hpos, Int64.ofInt_toInt]
    refine .of_operand rfl (fun hrest => ?_) (fun hn hrest => ?_)
    · rw [text_int_of_nonneg hpos]
      exact opening_repr _ hrest
    · rw [text_int_of_nonneg hpos, show (int v).plain = int v from rfl, ← hvalue]
      exact takes_natural _ (by omega) hrest

theorem readable_lit (l : Lit) : (lit l).Readable := by
  cases l with
  | int v => exact readable_int v
  | bool b =>
    cases b with
    | true => exact .of_word (x := "true") (by decide) (by decide) rfl rfl rfl
    | false => exact .of_word (x := "false") (by decide) (by decide) rfl rfl rfl
  | null => exact .of_word (x := "null") (by decide) (by decide) rfl rfl rfl

theorem readable_name {x : String} (hx : isName x = true) (hatom : e.isAtomic = true)
    (htext : e.text = x) (hplain : e.plain = ident x) : e.Readable :=
  .of_word (isName_iff.mp hx).1 (ne_if_of_isName hx) hatom htext
    (hplain.trans (ofWord_of_isName hx).symm)

/-! ### First characters -/

/-- A character that an expression begins with. -/
def Opens (c : Char) : Prop := isWordChar c = true ∨ c ∈ ['(', '-', '!']

theorem Opens.ne {c d : Char} (h : Opens c) (hd : isWordChar d = false ∧ d ∉ ['(', '-', '!']) :
    c ≠ d := by
  rintro rfl
  rcases h with hword | hmem
  · exact absurd hword (by rw [hd.1]; decide)
  · exact hd.2 hmem

/-- An operand begins with a digit only when it is a literal that is not negative. -/
theorem head?_operandText (h : e.wellNamed = true) :
    ∃ c, e.operandText.toList.head? = some c ∧ Opens c ∧
      (c.isDigit = true → ∃ v : Int64, e = int v ∧ 0 ≤ v.toInt) := by
  have hparen : e.isAtomic = false → ∃ c, e.operandText.toList.head? = some c ∧ Opens c ∧
      (c.isDigit = true → ∃ v : Int64, e = int v ∧ 0 ≤ v.toInt) := fun hatom =>
    ⟨'(', by rw [operandText_of_not_atomic hatom]; exact head?_toList_append (by decide),
      .inr (by decide), fun hd => absurd hd (by decide)⟩
  have hword : ∀ {x t : String}, isWord x = true → e.operandText = x ++ t →
      ∃ c, e.operandText.toList.head? = some c ∧ Opens c ∧
        (c.isDigit = true → ∃ v : Int64, e = int v ∧ 0 ≤ v.toInt) := by
    intro x t hx htext
    obtain ⟨c, hc, hwc, hd⟩ := head?_of_isWord hx
    refine ⟨c, by rw [htext]; exact head?_toList_append hc, .inl hwc, ?_⟩
    rw [hd]
    exact fun hd' => absurd hd' (by decide)
  cases e with
  | lit l =>
    cases l with
    | int v =>
      rcases lt_or_ge v.toInt 0 with hneg | hpos
      · refine ⟨'-', ?_, .inr (by decide), fun hd => absurd hd (by decide)⟩
        rw [operandText_of_atomic rfl, ← int, text_int_of_neg hneg]
        exact head?_toList_append (by decide)
      · obtain ⟨c, hc, hd⟩ := head?_repr v.toInt.toNat
        refine ⟨c, ?_, .inl ?_, fun _ => ⟨v, rfl, hpos⟩⟩
        · rw [operandText_of_atomic rfl, ← int, text_int_of_nonneg hpos, hc]
        · exact (isWordChar_of_mem_repr (List.mem_of_head? hc)).2
    | bool b =>
      cases b with
      | true => exact hword (x := "true") (t := "") (by decide) rfl
      | false => exact hword (x := "false") (t := "") (by decide) rfl
    | null => exact hword (x := "null") (t := "") (by decide) rfl
  | ident x => exact hword (isName_iff.mp h).1 (String.append_empty (s := x)).symm
  | typeConst x => exact hword (isName_iff.mp h).1 (String.append_empty (s := x)).symm
  | app f args =>
    rw [wellNamed_app] at h
    exact hword (isName_iff.mp h.1).1 ((operandText_of_atomic rfl).trans (text_app f args))
  | select m i =>
    rw [wellNamed_select] at h
    exact hword (isName_iff.mp h.1).1 ((operandText_of_atomic rfl).trans (text_select m i))
  | unary op e => exact hparen rfl
  | binary op a b => exact hparen rfl
  | ifThenElse c t e => exact hparen rfl

theorem head?_text (h : e.wellNamed = true) : ∃ c, e.text.toList.head? = some c ∧ Opens c := by
  cases e with
  | unary op e =>
    cases op with
    | not => exact ⟨'!', head?_toList_append (by decide), .inr (by decide)⟩
    | neg => exact ⟨'-', head?_toList_append (by decide), .inr (by decide)⟩
  | binary op a b =>
    rw [wellNamed_binary] at h
    obtain ⟨c, hc, hopens, -⟩ := head?_operandText h.1
    refine ⟨c, ?_, hopens⟩
    rw [text_binary]
    exact head?_toList_append hc
  | ifThenElse c t e =>
    refine ⟨'i', ?_, .inl (by decide)⟩
    rw [text_ifThenElse]
    exact head?_toList_append (by decide)
  | _ =>
    obtain ⟨c, hc, hopens, -⟩ := head?_operandText h
    exact ⟨c, hc, hopens⟩

/-! ### Applications -/

theorem wellNamed_of_mem {es : List Expr} (h : allWellNamed es = true) :
    ∀ e ∈ es, e.wellNamed = true := by
  induction es with
  | nil => exact List.forall_mem_nil _
  | cons e es ih =>
    rw [allWellNamed_cons] at h
    exact List.forall_mem_cons.mpr ⟨h.1, ih h.2⟩

theorem text_ne_empty (h : e.wellNamed = true) : e.text ≠ "" := by
  obtain ⟨c, hc, -⟩ := head?_text h
  intro hempty
  rw [hempty] at hc
  cases hc

/-- Behind a word, a bracket ends it. -/
theorem not_isWordChar_bracket {t u : String} {d : Char} (h : t.toList.head? = some d)
    (hd : isWordChar d = false) :
    ∀ c ∈ ((t ++ u).toList ++ rest).head?, isWordChar c = false := by
  intro c hc
  rw [head?_append h] at hc
  cases hc
  exact hd

theorem readable_app {f : String} {args : List Expr} (hf : isName f = true)
    (hnamed : allWellNamed args = true) (hargs : ∀ e ∈ args, e.Readable) :
    (app f args).Readable := by
  have htext := text_app f args
  have hbehind : ∀ {rest : List Char},
      ∀ c ∈ (("(" ++ (joined "" (args.map text) ++ ")")).toList ++ rest).head?,
        isWordChar c = false :=
    not_isWordChar_bracket (d := '(') (by decide) (by decide)
  refine .of_operand rfl (fun hrest => ?_) (fun {n rest} hn hrest => ?_)
  · rw [htext, String.toList_append, List.append_assoc]
    exact opening_word (isName_iff.mp hf).1 (ne_if_of_isName hf) hbehind
  · rw [htext] at hn ⊢
    simp only [String.length_append] at hn
    obtain ⟨n, rfl⟩ : ∃ k, n = k + 1 := ⟨n - 1, by omega⟩
    refine takes_word_behind (isName_iff.mp hf).1 hbehind ?_
    refine takes_ahead ?_
    rw [head?_append (c := '(') (by decide)]
    refine takes_exactly_bind ?_
    have hparen : "(".length = 1 := rfl
    have hlength : args.length ≤ (joined "" (args.map text)).length := by
      rw [← List.length_map text]
      refine length_le_length_joined (List.forall_mem_map.mpr fun e he => ?_)
      exact text_ne_empty (wellNamed_of_mem hnamed e he)
    refine takes_bind (takes_list (g := plain) (m := ")") (by decide) (by decide)
      (by decide) (by decide) (fun e he => ⟨?_, fun hends => ?_⟩) (by omega)) ?_
    · obtain ⟨c, hc, hopens⟩ := head?_text (wellNamed_of_mem hnamed e he)
      exact ⟨c, hc, hopens.ne (by decide)⟩
    · have hle := length_le_joined "" (List.mem_map_of_mem (f := text) he)
      exact (hargs e he).full (by omega) hends
    · rw [plain, plains_eq_map]
      exact takes_bind_pure takes_exactly

theorem readable_select {m : String} {i : Expr} (hm : isName m = true) (hi : i.Readable) :
    (select m i).Readable := by
  have htext := text_select m i
  have hbehind : ∀ {rest : List Char}, ∀ c ∈ (("[" ++ (i.text ++ "]")).toList ++ rest).head?,
      isWordChar c = false :=
    not_isWordChar_bracket (d := '[') (by decide) (by decide)
  refine .of_operand rfl (fun hrest => ?_) (fun {n rest} hn hrest => ?_)
  · rw [htext, String.toList_append, List.append_assoc]
    exact opening_word (isName_iff.mp hm).1 (ne_if_of_isName hm) hbehind
  · rw [htext] at hn ⊢
    simp only [String.length_append] at hn
    obtain ⟨n, rfl⟩ : ∃ k, n = k + 1 := ⟨n - 1, by omega⟩
    have hbracket : "[".length = 1 := rfl
    refine takes_word_behind (isName_iff.mp hm).1 hbehind ?_
    refine takes_ahead ?_
    rw [head?_append (c := '[') (by decide)]
    refine takes_exactly_bind ?_
    refine takes_bind (hi.full (by omega) ?_) (takes_bind_pure takes_exactly)
    exact ends_closer (by decide)

/-! ### Operators -/

theorem readable_unary (h : e.Readable) {op : UnOp}
    (hopens : ∀ {rest}, Opening.of ((op.text ++ e.operandText).toList ++ rest) = .unary op) :
    (unary op e).Readable := by
  refine .of_full rfl (fun {n rest} hn hrest => ?_)
  have htext := text_unary op e
  have hlength : op.text.length = 1 := by cases op <;> rfl
  rw [htext, String.length_append] at hn
  obtain ⟨n, rfl⟩ : ∃ k, n = k + 1 := ⟨n - 1, by omega⟩
  rw [htext]
  refine takes_ahead ?_
  rw [hopens]
  refine takes_exactly_bind ?_
  exact takes_bind_pure (h.operand (by omega) hrest.1)

theorem plain_neg_int {v : Int64} (hv : 0 ≤ v.toInt) :
    (unary .neg (int v)).plain = ofMinus v.toInt.toNat := by
  change (if 0 < v then int (-v) else unary .neg (int v)) = _
  rcases hv.eq_or_lt with h0 | hpos
  · obtain rfl : v = 0 := Int64.toInt_inj.mp h0.symm
    rfl
  · have hneg : -v = Int64.ofInt (-v.toInt.toNat) := by
      rw [Int.toNat_of_nonneg hv, Int64.ofInt_neg, Int64.ofInt_toInt]
    have hlt : 0 < v := Int64.lt_iff_toInt_lt.mpr (by simpa using hpos)
    rw [if_pos hlt, ofMinus, if_neg (by omega), hneg]

/-- The minus in front of a number is read with it. -/
theorem readable_neg_int {v : Int64} (hv : 0 ≤ v.toInt) : (unary .neg (int v)).Readable := by
  refine .of_full rfl (fun {n rest} hn hrest => ?_)
  have htext : (unary .neg (int v)).text = "-" ++ v.toInt.toNat.repr := by
    rw [← text_int_of_nonneg hv]
    rfl
  have hplain : (unary .neg (int v)).plain = ofMinus v.toInt.toNat := plain_neg_int hv
  obtain ⟨n, rfl⟩ : ∃ k, n = k + 1 := ⟨n - 1, by omega⟩
  rw [htext, hplain]
  exact takes_full_of_operand hrest (opening_minus_repr _) (takes_minus _ (by omega) hrest.1)

/-- The operator in front of an operand is read as such, or as the sign of a literal. -/
theorem readable_applied {op : UnOp} (h : e.wellNamed = true) (he : e.Readable) :
    (unary op e).Readable := by
  cases op with
  | not => exact readable_unary he (fun {rest} => by simpa [UnOp.text] using opening_bang)
  | neg =>
    obtain ⟨c, hc, -, hdigit⟩ := head?_operandText h
    cases hd : c.isDigit with
    | true =>
      obtain ⟨v, rfl, hv⟩ := hdigit hd
      exact readable_neg_int hv
    | false =>
      refine readable_unary he (fun {rest} => ?_)
      have hcs : (UnOp.neg.text ++ e.operandText).toList ++ rest =
          '-' :: (e.operandText.toList ++ rest) := by simp [UnOp.text]
      rw [hcs, opening_minus, List.head?_append, hc, Option.some_or, Option.any_some, hd]
      rfl

theorem readable_binary {a b : Expr} {op : BinOp} (ha : a.Readable) (hb : b.Readable) :
    (binary op a b).Readable := by
  refine .of_full rfl (fun {n rest} hn hrest => ?_)
  have htext := text_binary op a b
  have hstops : Stops ((op.infixText ++ b.operandText).toList ++ rest) := by
    rw [String.toList_append, List.append_assoc]
    exact stops_infixText op
  rw [htext, String.length_append, String.length_append] at hn
  obtain ⟨n, rfl⟩ : ∃ k, n = k + 1 := ⟨n - 1, by omega⟩
  rw [htext]
  refine takes_ahead ?_
  rw [String.toList_append, List.append_assoc, ha.opens hstops]
  refine takes_bind (ha.operand (by omega) hstops) ?_
  exact takes_infix (hb.operand (by omega) hrest.1)

theorem readable_ifThenElse {c t e : Expr} (hc : c.Readable) (ht : t.Readable) (he : e.Readable) :
    (ifThenElse c t e).Readable := by
  refine .of_full rfl (fun {n rest} hn hrest => ?_)
  have htext := text_ifThenElse c t e
  have hopens : Opening.of ((ifThenElse c t e).text.toList ++ rest) = .conditional := by
    rw [htext, String.toList_append, List.append_assoc]
    rfl
  have hif : "if ".length = 3 := rfl
  simp only [htext, String.length_append] at hn
  obtain ⟨n, rfl⟩ : ∃ k, n = k + 1 := ⟨n - 1, by omega⟩
  refine takes_ahead ?_
  rw [hopens, htext]
  refine takes_exactly_bind (takes_bind (hc.full (by omega) ?_) ?_)
  · rw [String.toList_append, List.append_assoc]
    exact ends_closer (by decide)
  refine takes_exactly_bind (takes_bind (ht.full (by omega) ?_) ?_)
  · rw [String.toList_append, List.append_assoc]
    exact ends_closer (by decide)
  refine takes_exactly_bind ?_
  exact takes_bind_pure (he.full (by omega) hrest)

/-! ### All expressions -/

mutual

theorem readable (e : Expr) (h : e.wellNamed = true) : e.Readable := by
  cases e with
  | lit l => exact readable_lit l
  | ident x => exact readable_name h rfl rfl rfl
  | typeConst x => exact readable_name h rfl rfl rfl
  | unary op e => exact readable_applied h (readable e h)
  | binary op a b =>
    rw [wellNamed_binary] at h
    exact readable_binary (readable a h.1) (readable b h.2)
  | app f args =>
    rw [wellNamed_app] at h
    exact readable_app h.1 h.2 (readables args h.2)
  | select m i =>
    rw [wellNamed_select] at h
    exact readable_select h.1 (readable i h.2)
  | ifThenElse c t e =>
    rw [wellNamed_ifThenElse] at h
    exact readable_ifThenElse (readable c h.1.1) (readable t h.1.2) (readable e h.2)

theorem readables (es : List Expr) (h : allWellNamed es = true) : ∀ e ∈ es, e.Readable := by
  cases es with
  | nil => exact List.forall_mem_nil _
  | cons e es =>
    rw [allWellNamed_cons] at h
    exact List.forall_mem_cons.mpr ⟨readable e h.1, readables es h.2⟩

end

/-- The text of an expression is read as the expression in plain notation. -/
theorem read?_text (e : Expr) (h : e.wellNamed = true) : read? e.text = some e.plain := by
  have htakes := (readable e h).full (n := 2 * e.text.length + 2) (by omega) ends_nil
  rw [Reader.Takes, List.append_nil] at htakes
  simp [read?, StateT.run', htakes]

end Expr

end Unwind.Ir
