import Mathlib.Data.List.TakeWhile
import ScopeLang.Token.Lexer

/-!
# Lexemes

What the words of a text look like, without reading any: which characters make up a token of each
form, and what stands between two of them. The first character of a lexeme tells its form, so where
one begins there is one that is longest, and it is a token of one kind only. Layout never begins like
a lexeme, so where layout stops is no matter of choice either.

## Main definitions

* `Lexeme` — the characters of a token.
* `Longest` — no longer lexeme of the same form begins at the same place.
* `Layout` — what may stand in front of a lexeme or of the end of a text.

## Main statements

* `Lexeme.eq_of_longest` — the longest lexeme at a place is unique.
* `Layout.eq_of_append_eq` — and so is the layout in front of it.
-/

namespace ScopeLang

/-- The forms that tokens take. A keyword has the form of a name. -/
inductive Form where
  | text | number | word | mark | operator
deriving DecidableEq

def TokenKind.form : TokenKind → Form
  | .text _ => .text
  | .number _ => .number
  | .name _ | .keyword _ => .word
  | .mark _ => .mark
  | .operator _ => .operator

/-- The characters between the quotes of a text, and what they stand for. A backslash takes the next
character as it is; the flag tells that one was just read. -/
inductive Escaped : Bool → List Char → List Char → Prop where
  | nil : Escaped false [] []
  | plain {c : Char} {body content : List Char} : c ≠ '\\' → c ≠ '"' →
    Escaped false body content → Escaped false (c :: body) (c :: content)
  | backslash {body content : List Char} : Escaped true body content →
    Escaped false ('\\' :: body) content
  | taken {c : Char} {body content : List Char} : Escaped false body content →
    Escaped true (c :: body) (c :: content)

/-- The characters of a token. -/
inductive Lexeme : List Char → TokenKind → Prop where
  | text {body content : List Char} : Escaped false body content →
    Lexeme ('"' :: (body ++ ['"'])) (.text (String.ofList content))
  | whole {digits : List Char} : digits ≠ [] → (∀ c ∈ digits, isDigit c = true) →
    Lexeme digits (.number (Decimal.ofDigits digits []))
  | decimal {digits fraction : List Char} : digits ≠ [] → (∀ c ∈ digits, isDigit c = true) →
    (∀ c ∈ fraction, isDigit c = true) →
      Lexeme (digits ++ '.' :: fraction) (.number (Decimal.ofDigits digits fraction))
  | keyword {c : Char} {cs : List Char} {k : Keyword} : isNameStart c = true →
    (∀ d ∈ cs, isNamePart d = true) → Keyword.ofSpelling? (String.ofList (c :: cs)) = some k →
      Lexeme (c :: cs) (.keyword k)
  | name {c : Char} {cs : List Char} : isNameStart c = true → (∀ d ∈ cs, isNamePart d = true) →
    Keyword.ofSpelling? (String.ofList (c :: cs)) = none →
      Lexeme (c :: cs) (.name (String.ofList (c :: cs)))
  | mark {c : Char} {m : Mark} : Mark.ofChar? c = some m → Lexeme [c] (.mark m)
  | operator {cs : List Char} : cs ≠ [] → (∀ c ∈ cs, isOperatorChar c = true) →
    Lexeme cs (.operator (String.ofList cs))

/-- In front of the rest, no longer lexeme of the same form begins where this one does. -/
def Longest (lexeme : List Char) (kind : TokenKind) (rest : List Char) : Prop :=
  ∀ lexeme' kind', Lexeme lexeme' kind' → kind'.form = kind.form → lexeme' <+: lexeme ++ rest →
    lexeme'.length ≤ lexeme.length

/-- Blanks and comments in front of the rest of a text. A comment goes to the end of its line, which
is the end of the text if there is nothing else. -/
inductive Layout (rest : List Char) : List Char → Prop where
  | nil : Layout rest []
  | blank {c : Char} {w : List Char} : isBlank c = true → Layout rest w → Layout rest (c :: w)
  | comment {body w : List Char} : '\n' ∉ body → Layout rest w →
    Layout rest ('#' :: (body ++ '\n' :: w))
  | lastComment {body : List Char} : rest = [] → '\n' ∉ body → Layout rest ('#' :: body)

/-- The text does not go on with layout. -/
def PastLayout (text : List Char) : Prop := ∀ c ∈ text.head?, isBlank c = false ∧ c ≠ '#'

/-! ### First characters -/

/-- The characters that lexemes of a form begin with. -/
def Form.begins : Form → Char → Bool
  | text, c => c == '"'
  | number, c => isDigit c
  | word, c => isNameStart c
  | mark, c => (Mark.ofChar? c).isSome
  | operator, c => isOperatorChar c

/-- Blanks and the sign of a comment begin no lexeme. -/
theorem Form.pastLayout_of_begins {f : Form} {c : Char} (h : f.begins c = true) :
    isBlank c = false ∧ c ≠ '#' := by
  have none : [' ', '\t', '\n', '\r', '#'].all (fun d => !f.begins d) = true := by
    cases f <;> decide
  have other : c ∉ [' ', '\t', '\n', '\r', '#'] := fun hc => by
    simpa [h] using List.all_eq_true.1 none c hc
  simpa [isBlank, not_or, and_assoc] using other

theorem Form.mem_of_begins_mark {c : Char} (h : Form.mark.begins c = true) :
    c ∈ [',', ';', '(', ')', '\x7b', '\x7d', '[', ']'] := by
  obtain ⟨m, hm⟩ := Option.isSome_iff_exists.1 h
  have hc : m.char = c := by simpa using List.find?_some hm
  subst hc
  cases m <;> decide

theorem Form.mem_of_begins_operator {c : Char} (h : Form.operator.begins c = true) :
    c ∈ ['+', '-', '*', '/', '%', '=', '&', '|', '<', '>', '!'] := by
  simpa [begins, isOperatorChar] using h

/-- Quotes, marks and operators are told by their characters, which are few. -/
theorem Form.eq_of_begins_symbol {f g : Form} {c : Char} (symbol : f ≠ .number ∧ f ≠ .word)
    (hf : f.begins c = true) (hg : g.begins c = true) : f = g := by
  have only {chars : List Char} (hc : c ∈ chars)
      (all : chars.all (fun d => !g.begins d || decide (f = g)) = true) : f = g := by
    simpa [hg] using List.all_eq_true.1 all c hc
  cases f with
  | text => exact only (by simpa [begins] using hf : c ∈ ['"']) (by cases g <;> decide)
  | mark => exact only (mem_of_begins_mark hf) (by cases g <;> decide)
  | operator => exact only (mem_of_begins_operator hf) (by cases g <;> decide)
  | number => exact absurd rfl symbol.1
  | word => exact absurd rfl symbol.2

/-- No digit begins a name. -/
theorem not_isNameStart_of_isDigit {c : Char} (h : isDigit c = true) : isNameStart c = false := by
  have hc : c ≤ '9' := by
    simp only [isDigit, Bool.and_eq_true, decide_eq_true_eq] at h
    exact h.2
  have letter : ¬ 'a' ≤ c := fun ha => absurd (Char.le_trans ha hc) (by decide)
  have underscore : c ≠ '_' := by
    rintro rfl
    exact absurd hc (by decide)
  simp [isNameStart, letter, underscore]

/-- The first character of a lexeme tells its form. -/
theorem Form.eq_of_begins {f g : Form} {c : Char} (hf : f.begins c = true)
    (hg : g.begins c = true) : f = g := by
  by_cases symbol : f ≠ .number ∧ f ≠ .word
  · exact eq_of_begins_symbol symbol hf hg
  · by_cases symbol' : g ≠ .number ∧ g ≠ .word
    · exact (eq_of_begins_symbol symbol' hg hf).symm
    · have digit_or_word (h : Form) (hh : ¬ (h ≠ .number ∧ h ≠ .word)) :
          h = .number ∨ h = .word := by grind
      rcases digit_or_word f symbol with rfl | rfl <;> rcases digit_or_word g symbol' with rfl | rfl
      · rfl
      · exact absurd hg (by simp [begins, not_isNameStart_of_isDigit hf])
      · exact absurd hf (by simp [begins, not_isNameStart_of_isDigit hg])
      · rfl

theorem Lexeme.begins {l : List Char} {k : TokenKind} (h : Lexeme l k) :
    ∃ c cs, l = c :: cs ∧ k.form.begins c = true := by
  cases h with
  | text => exact ⟨_, _, rfl, rfl⟩
  | whole nonempty digits =>
    obtain ⟨c, cs, rfl⟩ := List.exists_cons_of_ne_nil nonempty
    exact ⟨c, cs, rfl, digits c (by simp)⟩
  | @decimal _ fraction nonempty digits =>
    obtain ⟨c, cs, rfl⟩ := List.exists_cons_of_ne_nil nonempty
    exact ⟨c, cs ++ '.' :: fraction, rfl, digits c (by simp)⟩
  | keyword start => exact ⟨_, _, rfl, start⟩
  | name start => exact ⟨_, _, rfl, start⟩
  | mark hm => exact ⟨_, _, rfl, Option.isSome_of_eq_some hm⟩
  | operator nonempty chars =>
    obtain ⟨c, cs, rfl⟩ := List.exists_cons_of_ne_nil nonempty
    exact ⟨c, cs, rfl, chars c (by simp)⟩

theorem Lexeme.ne_nil {l : List Char} {k : TokenKind} (h : Lexeme l k) : l ≠ [] := by
  obtain ⟨c, cs, rfl, -⟩ := h.begins
  exact List.cons_ne_nil c cs

theorem Lexeme.pastLayout {l rest : List Char} {k : TokenKind} (h : Lexeme l k) :
    PastLayout (l ++ rest) := by
  obtain ⟨c, cs, rfl, hc⟩ := h.begins
  rintro _ ⟨⟩
  exact Form.pastLayout_of_begins hc

/-! ### The characters of each form -/

namespace Lexeme

variable {l : List Char} {k : TokenKind}

theorem of_text (h : Lexeme l k) (hk : k.form = .text) :
    ∃ body content, Escaped false body content ∧ l = '"' :: (body ++ ['"']) := by
  cases h with
  | text hb => exact ⟨_, _, hb, rfl⟩
  | _ => simp [TokenKind.form] at hk

theorem of_number (h : Lexeme l k) (hk : k.form = .number) :
    ∃ digits, (∀ c ∈ digits, isDigit c = true) ∧
      (l = digits ∨ ∃ fraction, (∀ c ∈ fraction, isDigit c = true) ∧
        l = digits ++ '.' :: fraction) := by
  cases h with
  | whole _ digits => exact ⟨l, digits, .inl rfl⟩
  | decimal _ digits fraction => exact ⟨_, digits, .inr ⟨_, fraction, rfl⟩⟩
  | _ => simp [TokenKind.form] at hk

theorem of_word (h : Lexeme l k) (hk : k.form = .word) : ∀ c ∈ l, isNamePart c = true := by
  have part {c : Char} (hc : isNameStart c = true) : isNamePart c = true := by
    simp [isNamePart, hc]
  cases h with
  | keyword start parts => exact List.forall_mem_cons.2 ⟨part start, parts⟩
  | name start parts => exact List.forall_mem_cons.2 ⟨part start, parts⟩
  | _ => simp [TokenKind.form] at hk

theorem of_mark (h : Lexeme l k) (hk : k.form = .mark) : l.length = 1 := by
  cases h with
  | mark => rfl
  | _ => simp [TokenKind.form] at hk

theorem of_operator (h : Lexeme l k) (hk : k.form = .operator) :
    ∀ c ∈ l, isOperatorChar c = true := by
  cases h with
  | operator _ chars => exact chars
  | _ => simp [TokenKind.form] at hk

end Lexeme

/-! ### One reading only -/

/-- A stretch of characters of one class ends at the first character that is not of it. -/
theorem stretch_unique {p : Char → Bool} {xs xs' t t' : List Char} {c c' : Char}
    (h : ∀ x ∈ xs, p x = true) (h' : ∀ x ∈ xs', p x = true) (hc : p c = false)
    (hc' : p c' = false) (same : xs ++ c :: t = xs' ++ c' :: t') :
    xs = xs' ∧ c :: t = c' :: t' := by
  have stretch := congrArg (List.takeWhile p) same
  rw [List.takeWhile_append_of_pos h, List.takeWhile_append_of_pos h'] at stretch
  obtain rfl : xs = xs' := by simpa [hc, hc'] using stretch
  exact ⟨rfl, List.append_cancel_left same⟩

/-- A text is closed by the first quote that no backslash takes. -/
theorem Escaped.unique {escaped : Bool} {body content body' content' t t' : List Char}
    (h : Escaped escaped body content) (h' : Escaped escaped body' content')
    (same : body ++ '"' :: t = body' ++ '"' :: t') : body = body' ∧ content = content' := by
  induction h generalizing body' content' with
  | nil =>
    cases h' with
    | nil => exact ⟨rfl, rfl⟩
    | plain _ quote => exact absurd (List.cons.inj same).1.symm quote
    | backslash => simp at same
  | plain slash quote _ ih =>
    cases h' with
    | nil => exact absurd (List.cons.inj same).1 quote
    | plain _ _ h' =>
      obtain ⟨rfl, hrest⟩ := List.cons.inj same
      obtain ⟨rfl, rfl⟩ := ih h' hrest
      exact ⟨rfl, rfl⟩
    | backslash => exact absurd (List.cons.inj same).1 slash
  | backslash _ ih =>
    cases h' with
    | nil => simp at same
    | plain slash => exact absurd (List.cons.inj same).1.symm slash
    | backslash h' =>
      obtain ⟨rfl, rfl⟩ := ih h' (List.cons.inj same).2
      exact ⟨rfl, rfl⟩
  | taken _ ih =>
    cases h' with
    | taken h' =>
      obtain ⟨rfl, hrest⟩ := List.cons.inj same
      obtain ⟨rfl, rfl⟩ := ih h' hrest
      exact ⟨rfl, rfl⟩

namespace Lexeme

variable {l l' t t' : List Char} {k k' : TokenKind}

theorem form_eq (h : Lexeme l k) (h' : Lexeme l' k') (same : l ++ t = l' ++ t') :
    k.form = k'.form := by
  obtain ⟨c, cs, rfl, hc⟩ := h.begins
  obtain ⟨c', cs', rfl, hc'⟩ := h'.begins
  obtain ⟨rfl, -⟩ := List.cons.inj same
  exact Form.eq_of_begins hc hc'

/-- No number with a point is one without. -/
theorem whole_ne_decimal {digits digits' fraction : List Char}
    (h : ∀ c ∈ digits, isDigit c = true) : digits ≠ digits' ++ '.' :: fraction := by
  rintro rfl
  exact absurd (h '.' (by simp)) (by decide)

/-- A lexeme is the text of tokens of one kind only. -/
theorem kind_eq (h : Lexeme l k) (h' : Lexeme l k') : k = k' := by
  have form : k.form = k'.form := h.form_eq h' (t := []) rfl
  generalize hl : l = l' at h'
  cases h with
  | text hb =>
    cases h' with
    | text hb' =>
      obtain ⟨-, rfl⟩ := hb.unique hb' (List.cons.inj hl).2
      rfl
    | _ => simp [TokenKind.form] at form
  | whole _ digits =>
    cases h' with
    | whole => rw [hl]
    | decimal => exact absurd hl (whole_ne_decimal digits)
    | _ => simp [TokenKind.form] at form
  | decimal _ digits =>
    cases h' with
    | whole _ digits' => exact absurd hl.symm (whole_ne_decimal digits')
    | decimal _ digits' =>
      obtain ⟨rfl, hrest⟩ := stretch_unique digits digits' rfl rfl hl
      rw [(List.cons.inj hrest).2]
    | _ => simp [TokenKind.form] at form
  | keyword _ _ hk =>
    cases h' with
    | keyword _ _ hk' => rw [Option.some.inj (hk.symm.trans (hl ▸ hk'))]
    | name _ _ hk' => rw [hl, hk'] at hk; cases hk
    | _ => simp [TokenKind.form] at form
  | name _ _ hk =>
    cases h' with
    | keyword _ _ hk' => rw [hl, hk'] at hk; cases hk
    | name => rw [hl]
    | _ => simp [TokenKind.form] at form
  | mark hm =>
    cases h' with
    | mark hm' =>
      obtain ⟨rfl, -⟩ := List.cons.inj hl
      rw [Option.some.inj (hm.symm.trans hm')]
    | _ => simp [TokenKind.form] at form
  | operator =>
    cases h' with
    | operator => rw [hl]
    | _ => simp [TokenKind.form] at form

/-- Of the lexemes that begin at one place, only one is longest. -/
theorem eq_of_longest (h : Lexeme l k) (h' : Lexeme l' k') (longest : Longest l k t)
    (longest' : Longest l' k' t') (same : l ++ t = l' ++ t') : l = l' ∧ k = k' ∧ t = t' := by
  have form := h.form_eq h' same
  have le : l.length ≤ l'.length := longest' l k h form ⟨t, same⟩
  have ge : l'.length ≤ l.length := longest l' k' h' form.symm ⟨t', same.symm⟩
  obtain ⟨rfl, rfl⟩ := List.append_inj same (Nat.le_antisymm le ge)
  exact ⟨rfl, h.kind_eq h', rfl⟩

end Lexeme

/-! ### Layout -/

/-- A comment may be longer as long as it stays on its line. -/
theorem Layout.comment_cons {rest w : List Char} {c : Char} (h : Layout rest ('#' :: w))
    (hc : c ≠ '\n') : Layout rest ('#' :: c :: w) := by
  have further {body : List Char} (inside : '\n' ∉ body) : '\n' ∉ c :: body := by
    simp [hc.symm, inside]
  generalize hw : '#' :: w = w' at h
  cases h with
  | nil => cases hw
  | blank hblank =>
    cases hw
    exact absurd hblank (by decide)
  | comment inside h =>
    cases hw
    exact .comment (further inside) h
  | lastComment hend inside =>
    cases hw
    exact .lastComment hend (further inside)

namespace Cursor

theorem skipLayoutFrom_comment {body : List Char} (inside : '\n' ∉ body) (text : List Char)
    (pos : Pos) : skipLayoutFrom true (body ++ '\n' :: text) pos =
      skipLayoutFrom false text (pos.advance (body ++ ['\n'])) := by
  induction body generalizing pos with
  | nil => rfl
  | cons c body ih =>
    obtain ⟨hc, inside⟩ : '\n' ≠ c ∧ '\n' ∉ body := by simpa using inside
    have go : (c != '\n') = true := bne_iff_ne.2 (Ne.symm hc)
    simp only [List.cons_append, skipLayoutFrom, if_true, go, Pos.advance_cons]
    exact ih inside (pos.next c)

theorem skipLayoutFrom_lastComment {body : List Char} (inside : '\n' ∉ body) (pos : Pos) :
    skipLayoutFrom true body pos = ⟨[], pos.advance body⟩ := by
  induction body generalizing pos with
  | nil => rfl
  | cons c body ih =>
    obtain ⟨hc, inside⟩ : '\n' ≠ c ∧ '\n' ∉ body := by simpa using inside
    have go : (c != '\n') = true := bne_iff_ne.2 (Ne.symm hc)
    simp only [skipLayoutFrom, if_true, go, Pos.advance_cons]
    exact ih inside (pos.next c)

/-- Layout is skipped, and nothing more. -/
theorem skipLayoutFrom_layout {w t : List Char} (h : Layout t w) (past : PastLayout t) (pos : Pos) :
    skipLayoutFrom false (w ++ t) pos = ⟨t, pos.advance w⟩ := by
  induction h generalizing pos with
  | nil =>
    cases t with
    | nil => rfl
    | cons c t =>
      obtain ⟨hblank, hsign⟩ := past c rfl
      simp [skipLayoutFrom, hblank, hsign]
  | @blank c w hc _ ih => simpa [skipLayoutFrom, hc] using ih (pos.next c)
  | @comment body w inside _ ih =>
    have sign : isBlank '#' = false := rfl
    simp only [List.cons_append, List.append_assoc, skipLayoutFrom, sign, if_true, if_false,
      Bool.false_eq_true, skipLayoutFrom_comment inside, ih, Pos.advance_cons, Pos.advance_append,
      Pos.advance_nil]
  | @lastComment body hend inside =>
    have sign : isBlank '#' = false := rfl
    subst hend
    simp [skipLayoutFrom, sign, skipLayoutFrom_lastComment inside]

end Cursor

/-- Layout ends with the first character that is not part of it. -/
theorem Layout.eq_of_append_eq {w w' t t' : List Char} (h : Layout t w) (h' : Layout t' w')
    (past : PastLayout t) (past' : PastLayout t') (same : w ++ t = w' ++ t') : w = w' ∧ t = t' := by
  have skip := Cursor.skipLayoutFrom_layout h past .start
  rw [same, Cursor.skipLayoutFrom_layout h' past' .start] at skip
  obtain rfl : t' = t := congrArg Cursor.rest skip
  exact ⟨List.append_cancel_right same, rfl⟩

end ScopeLang
