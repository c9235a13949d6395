import Mathlib
import Unwind.Proofs.Text.Reader

/-!
# What a reader takes

`Reader.Takes` says that a reader takes one text and stops in front of the rest. Readers in sequence
take their texts in sequence. The rest matters: a word must not go on in it, and an expression must
not be followed by an operator, which every mark that closes one sees to (`ends_closer`).
-/

namespace Unwind.Ir

variable {α β : Type} {rest : List Char}

/-! ## Readers -/

/-- In front of `rest`, the reader takes exactly the text, as `a`. -/
def Reader.Takes (r : Reader α) (text : String) (a : α) (rest : List Char) : Prop :=
  r (text.toList ++ rest) = some (a, rest)

namespace Reader

variable {r : Reader α} {f : α → Reader β} {g : α → β} {t u : String} {a : α} {b : β}

theorem takes_pure : Takes (pure a) "" a rest := rfl

theorem takes_bind (h : r.Takes t a (u.toList ++ rest)) (h' : (f a).Takes u b rest) :
    (r >>= f).Takes (t ++ u) b rest := by
  unfold Takes at *
  rw [String.toList_append, List.append_assoc]
  exact Option.bind_eq_some_iff.mpr ⟨(a, u.toList ++ rest), h, h'⟩

theorem takes_map (h : r.Takes t a rest) : (g <$> r).Takes t (g a) rest :=
  Option.bind_eq_some_iff.mpr ⟨(a, rest), h, rfl⟩

/-- What comes last takes nothing more. -/
theorem takes_bind_last (h : r.Takes t a rest) (h' : (f a).Takes "" b rest) :
    (r >>= f).Takes t b rest :=
  Option.bind_eq_some_iff.mpr ⟨(a, rest), h, h'⟩

theorem takes_bind_pure (h : r.Takes t a rest) : (r >>= fun x => pure (g x)).Takes t (g a) rest :=
  takes_bind_last h takes_pure

theorem takes_ahead {f : List Char → Reader β} (h : (f (t.toList ++ rest)).Takes t b rest) :
    (ahead >>= f).Takes t b rest := h

theorem takes_exactly : (exactly t).Takes t () rest := by
  have h : t.toList.isPrefixOf? (t.toList ++ rest) = some rest :=
    List.isPrefixOf?_eq_some_iff_append_eq.mpr rfl
  simp only [Takes, exactly, h, Option.map_some]

theorem takes_exactly_bind {f : Unit → Reader β} (h : (f ()).Takes u b rest) :
    (exactly t >>= f).Takes (t ++ u) b rest :=
  takes_bind takes_exactly h

theorem takes_span {p : Char → Bool} (h : ∀ c ∈ t.toList, p c = true)
    (hrest : ∀ c ∈ rest.head?, p c = false) : (span p).Takes t t.toList rest := by
  have hnone : rest.takeWhile p = [] ∧ rest.dropWhile p = rest := by
    cases rest with
    | nil => exact ⟨rfl, rfl⟩
    | cons c cs => simp [hrest c rfl]
  simp only [Takes, span, List.takeWhile_append_of_pos h, List.dropWhile_append_of_pos h, hnone,
    List.append_nil]

theorem takes_word (h : ∀ c ∈ t.toList, isWordChar c = true)
    (hrest : ∀ c ∈ rest.head?, isWordChar c = false) : word.Takes t t rest := by
  simpa only [word, String.ofList_toList] using takes_map (g := String.ofList) (takes_span h hrest)

theorem takes_number (m : Nat) (hrest : ∀ c ∈ rest.head?, c.isDigit = false) :
    number.Takes m.repr m rest := by
  have hdigits : ∀ c ∈ m.repr.toList, c.isDigit = true := by
    intro c hc
    rw [Nat.toList_repr] at hc
    exact Nat.isDigit_of_mem_toDigits (by decide) (by decide) hc
  have h := takes_map (g := (Nat.ofDigitChars 10 · 0)) (takes_span hdigits hrest)
  rwa [Nat.toList_repr, Nat.ofDigitChars_toDigits (by decide) (by decide)] at h

end Reader

open Reader

/-! ## What comes behind -/

/-- What comes behind an operand: the last word does not go on, and takes no arguments. -/
def Stops (rest : List Char) : Prop :=
  ∀ c ∈ rest.head?, isWordChar c = false ∧ c ≠ '(' ∧ c ≠ '['

/-- What comes behind an expression: no operator either. -/
def Ends (rest : List Char) : Prop := Stops rest ∧ BinOp.next? rest = none

/-- The marks that end an expression. -/
def closers : List String := [" then ", " else ", ")", "]", ", ", "\x7d"]

theorem stops_nil : Stops [] := by simp [Stops]

theorem ends_nil : Ends [] := ⟨stops_nil, by decide⟩

theorem stops_cons {c : Char} {cs : List Char}
    (h : isWordChar c = false ∧ c ≠ '(' ∧ c ≠ '[') : Stops (c :: cs) := by
  simpa [Stops] using h

theorem toList_infixText (op : BinOp) :
    op.infixText.toList = ' ' :: (op.text.toList ++ [' ']) := by
  rw [BinOp.infixText, String.toList_append, String.toList_append]
  rfl

theorem stops_infixText (op : BinOp) : Stops (op.infixText.toList ++ rest) := by
  rw [toList_infixText, List.cons_append]
  exact stops_cons (by decide)

theorem next?_infixText (op : BinOp) : BinOp.next? (op.infixText.toList ++ rest) = some op := by
  cases op <;> rfl

theorem ends_closer {t : String} (h : t ∈ closers) : Ends (t.toList ++ rest) := by
  simp only [closers, List.mem_cons, List.not_mem_nil, or_false] at h
  rcases h with rfl | rfl | rfl | rfl | rfl | rfl <;> exact ⟨stops_cons (by decide), rfl⟩

/-! ## Lists -/

/-- The texts, the first one behind `lead` and the others behind a comma. -/
def joined (lead : String) : List String → String
  | [] => ""
  | t :: ts => lead ++ (t ++ joined ", " ts)

@[simp]
theorem joined_nil (lead : String) : joined lead [] = "" := rfl

@[simp]
theorem joined_cons (lead t : String) (ts : List String) :
    joined lead (t :: ts) = lead ++ (t ++ joined ", " ts) := rfl

theorem intercalate_eq_joined (ts : List String) : ", ".intercalate ts = joined "" ts := by
  induction ts with
  | nil => rfl
  | cons t ts ih =>
    cases ts with
    | nil => simp
    | cons u ts =>
      rw [String.intercalate_cons_cons, ih]
      simp [String.append_assoc]

theorem append_intercalate {lead : String} {ts : List String} (h : ts ≠ []) :
    lead ++ ", ".intercalate ts = joined lead ts := by
  rw [intercalate_eq_joined]
  cases ts with
  | nil => exact absurd rfl h
  | cons t ts => simp

theorem length_le_joined (lead : String) {t : String} {ts : List String} (h : t ∈ ts) :
    t.length ≤ (joined lead ts).length := by
  induction ts generalizing lead with
  | nil => cases h
  | cons u ts ih =>
    rw [joined_cons, String.length_append, String.length_append]
    rcases List.mem_cons.mp h with rfl | h
    · omega
    · have := ih ", " h
      omega

/-- Every text but the empty one takes part in the length. -/
theorem length_le_length_joined {lead : String} {ts : List String} (h : ∀ t ∈ ts, t ≠ "") :
    ts.length ≤ (joined lead ts).length := by
  induction ts generalizing lead with
  | nil => exact Nat.zero_le _
  | cons t ts ih =>
    rw [List.forall_mem_cons] at h
    have hpos : t.length ≠ 0 := fun h0 => h.1 (String.length_eq_zero_iff.mp h0)
    have : ts.length ≤ (joined ", " ts).length := ih h.2
    rw [joined_cons, String.length_append, String.length_append, List.length_cons]
    omega

theorem ends_joined {t : String} (h : t ∈ closers) (ts : List String) :
    Ends ((joined ", " ts).toList ++ (t.toList ++ rest)) := by
  cases ts with
  | nil => simpa using ends_closer h
  | cons u ts =>
    rw [joined_cons, String.toList_append, List.append_assoc]
    exact ends_closer (by decide)

theorem takes_list {text : α → String} {g : α → β} {item : Reader β} {close : Char}
    {m lead : String} {xs : List α} {n : Nat} (hmark : m.toList = [close])
    (hcloses : m ∈ closers) (hlead : lead.toList.head? ≠ some close) (hcomma : ',' ≠ close)
    (hitem : ∀ x ∈ xs, (∃ c, (text x).toList.head? = some c ∧ c ≠ close) ∧
      ∀ {rest}, Ends rest → item.Takes (text x) (g x) rest) (hn : xs.length < n) :
    (list item close lead n).Takes (joined lead (xs.map text)) (xs.map g)
      (m.toList ++ rest) := by
  induction xs generalizing n lead with
  | nil =>
    obtain ⟨n, rfl⟩ : ∃ k, n = k + 1 := Nat.exists_eq_add_one.mpr hn
    rw [list]
    refine takes_ahead ?_
    rw [if_pos (by simp [hmark])]
    exact takes_pure
  | cons x xs ih =>
    rw [List.length_cons] at hn
    obtain ⟨n, rfl⟩ : ∃ k, n = k + 1 := ⟨n - 1, by omega⟩
    rw [List.forall_mem_cons] at hitem
    obtain ⟨⟨⟨c, hc, hne⟩, htakes⟩, hitems⟩ := hitem
    have hnot : ((joined lead ((x :: xs).map text)).toList ++ (m.toList ++ rest)).head? ≠
        some close := by
      rw [List.map_cons, joined_cons]
      cases hcs : lead.toList with
      | nil => simpa [hcs, hc] using hne
      | cons d ds => simpa [hcs] using hlead
    rw [list]
    refine takes_ahead ?_
    rw [if_neg hnot, List.map_cons, joined_cons]
    refine takes_exactly_bind ?_
    refine takes_bind (htakes (ends_joined hcloses _)) ?_
    refine takes_bind_pure (ih ?_ hitems (by omega))
    simpa using hcomma

/-! ## Words -/

theorem isWord_iff {x : String} :
    isWord x = true ↔ x.toList ≠ [] ∧ (∀ c ∈ x.toList, isWordChar c = true) ∧
      ∀ c ∈ x.toList.head?, c.isDigit = false := by
  simp [isWord, and_assoc, Option.all_eq_true]

/-- A word begins with a character that is no digit. -/
theorem head?_of_isWord {x : String} (hx : isWord x = true) :
    ∃ c, x.toList.head? = some c ∧ isWordChar c = true ∧ c.isDigit = false := by
  obtain ⟨hne, hall, hhead⟩ := isWord_iff.1 hx
  obtain ⟨c, hc⟩ : ∃ c, x.toList.head? = some c := by
    rw [← Option.isSome_iff_exists, List.isSome_head?]
    exact hne
  exact ⟨c, hc, hall c (List.mem_of_head? hc), hhead c hc⟩

theorem isName_iff {x : String} : isName x = true ↔ isWord x = true ∧ x ∉ keywords := by
  simp [isName]

theorem ne_if_of_isName {x : String} (h : isName x = true) : x ≠ "if" := by
  rintro rfl
  exact (isName_iff.1 h).2 (by decide)

theorem not_isDigit_of_not_isWordChar {c : Char} (h : isWordChar c = false) :
    c.isDigit = false := by
  simp only [isWordChar, Char.isAlphanum, Bool.or_eq_false_iff] at h
  exact h.1.1.2

theorem isWordChar_of_mem_repr {m : Nat} {c : Char} (h : c ∈ m.repr.toList) :
    c.isDigit = true ∧ isWordChar c = true := by
  rw [Nat.toList_repr] at h
  have hd := Nat.isDigit_of_mem_toDigits (by decide) (by decide) h
  exact ⟨hd, by simp [isWordChar, Char.isAlphanum, hd]⟩

/-! ## The beginning of an expression -/

theorem opening_wordChars {x : String} {cs : List Char} (hx : x.toList ≠ [])
    (hall : ∀ c ∈ x.toList, isWordChar c = true) (hif : x ≠ "if")
    (hcs : ∀ c ∈ cs.head?, isWordChar c = false) : Opening.of (x.toList ++ cs) = .operand := by
  have htake : (x.toList ++ cs).takeWhile isWordChar = x.toList := by
    have h := takes_span hall hcs
    simp only [Takes, Reader.span, Option.some.injEq, Prod.mk.injEq] at h
    exact h.1
  unfold Opening.of
  rw [htake, if_neg (fun h => hif (String.toList_inj.mp h))]
  cases hcons : x.toList with
  | nil => exact absurd hcons hx
  | cons c ds =>
    have hc : isWordChar c = true := hall c (by rw [hcons]; exact List.mem_cons_self)
    rw [List.cons_append]
    split
    next hbang => exact absurd hc (by rw [(List.cons.inj hbang).1]; decide)
    next hminus => exact absurd hc (by rw [(List.cons.inj hminus).1]; decide)
    next => rfl

theorem opening_word {x : String} {cs : List Char} (hx : isWord x = true) (hif : x ≠ "if")
    (hcs : ∀ c ∈ cs.head?, isWordChar c = false) : Opening.of (x.toList ++ cs) = .operand :=
  have ⟨hne, hall, _⟩ := isWord_iff.1 hx
  opening_wordChars hne hall hif hcs

theorem opening_paren {cs : List Char} : Opening.of ('(' :: cs) = .operand := rfl

theorem opening_bang {cs : List Char} : Opening.of ('!' :: cs) = .unary .not := rfl

theorem opening_minus {cs : List Char} :
    Opening.of ('-' :: cs) = if cs.head?.any Char.isDigit then .operand else .unary .neg := rfl

/-- The first character of a text is that of its first part. -/
theorem head?_toList_append {t u : String} {c : Char} (h : t.toList.head? = some c) :
    (t ++ u).toList.head? = some c := by
  rw [String.toList_append, List.head?_append, h, Option.some_or]

theorem head?_append {t u : String} {c : Char} (h : t.toList.head? = some c) :
    ((t ++ u).toList ++ rest).head? = some c := by
  rw [List.head?_append, head?_toList_append h, Option.some_or]

end Unwind.Ir
