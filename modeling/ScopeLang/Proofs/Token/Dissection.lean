import Mathlib.Data.List.Induction
import ScopeLang.Proofs.Token.Lexeme
import ScopeLang.Proofs.Token.Located

/-!
# Texts taken apart

The tokens of a text take it apart: layout and lexemes alternate up to the end of the text, or up to
where no lexeme begins. No character is lost, every lexeme is the longest of its form, and a text can
be taken apart in one way only. So what a stream of tokens gives is fixed by what lexemes and layout
are.

## Main definitions

* `Pos.behind` — the position behind a text, counted from the text.
* `Dissection.Of` — layout and lexemes that make up a text.

## Main statements

* `Cursor.meets_scanHere` — what looking for a token comes to, in terms of lexemes.
* `Dissection.Of.unique` — a text can be taken apart in one way only.
* `tokens_dissect_source` — the tokens of a text do so.
-/

namespace ScopeLang

/-- The position behind a text: a line more than it has line breaks, and as many columns as it has
characters behind the last of them. -/
def Pos.behind (text : List Char) : Pos :=
  ⟨1 + text.count '\n', (text.reverse.takeWhile fun c => c != '\n').length⟩

theorem Pos.advance_start (text : List Char) : Pos.start.advance text = .behind text := by
  induction text using List.reverseRecOn with
  | nil => rfl
  | append_singleton text c ih =>
    rw [advance_append, ih]
    by_cases hc : c = '\n'
    · simp [behind, next, hc, Nat.add_assoc]
    · simp [behind, next, hc]

theorem Pos.behind_append (before text : List Char) :
    Pos.behind (before ++ text) = (Pos.behind before).advance text := by
  rw [← advance_start, ← advance_start, advance_append]

namespace Cursor

/-! ### Skipping layout -/

/-- What is skipped is layout, and there is no more of it. With `comment`, what is skipped goes on with
a comment that began before. -/
theorem layout_skipLayoutFrom (comment : Bool) (text : List Char) (pos : Pos) :
    ∃ w, text = w ++ (skipLayoutFrom comment text pos).rest ∧
      (skipLayoutFrom comment text pos).pos = pos.advance w ∧
      Layout (skipLayoutFrom comment text pos).rest (if comment then '#' :: w else w) ∧
      PastLayout (skipLayoutFrom comment text pos).rest := by
  induction text generalizing comment pos with
  | nil =>
    refine ⟨[], rfl, rfl, ?_, nofun⟩
    cases comment with
    | true => exact .lastComment rfl List.not_mem_nil
    | false => exact .nil
  | cons c text ih =>
    have further (comment' : Bool) (layout : ∀ rest w,
        Layout rest (if comment' then '#' :: w else w) →
          Layout rest (if comment then '#' :: c :: w else c :: w)) :
        ∃ w, c :: text = w ++ (skipLayoutFrom comment' text (pos.next c)).rest ∧
          (skipLayoutFrom comment' text (pos.next c)).pos = pos.advance w ∧
          Layout (skipLayoutFrom comment' text (pos.next c)).rest
            (if comment then '#' :: w else w) ∧
          PastLayout (skipLayoutFrom comment' text (pos.next c)).rest := by
      obtain ⟨w, htext, hpos, hlayout, past⟩ := ih comment' (pos.next c)
      exact ⟨c :: w, congrArg (List.cons c) htext, hpos, layout _ w hlayout, past⟩
    cases comment with
    | true =>
      refine further (c != '\n') fun rest w h => ?_
      by_cases hc : c = '\n'
      · subst hc
        have empty : '\n' ∉ ([] : List Char) := List.not_mem_nil
        exact .comment empty h
      · simp only [bne_iff_ne.2 hc, if_true] at h ⊢
        exact h.comment_cons hc
    | false =>
      by_cases hblank : isBlank c = true
      · simp only [skipLayoutFrom, hblank, if_true, Bool.false_eq_true, if_false]
        exact further false fun rest w h => .blank hblank h
      · by_cases hsign : c = '#'
        · subst hsign
          simp only [skipLayoutFrom, hblank, if_true, Bool.false_eq_true, if_false]
          exact further true fun rest w h => h
        · simp only [skipLayoutFrom, hblank, hsign, Bool.false_eq_true, if_false]
          refine ⟨[], rfl, rfl, .nil, ?_⟩
          rintro _ ⟨⟩
          exact ⟨Bool.eq_false_iff.2 hblank, hsign⟩

/-! ### Reading a lexeme -/

/-- From the first cursor to the second stands the lexeme of a token, the longest of its form. -/
def Munches (a : Cursor) (kind : TokenKind) (b : Cursor) : Prop :=
  ∃ lexeme, a.rest = lexeme ++ b.rest ∧ b.pos = a.pos.advance lexeme ∧ Lexeme lexeme kind ∧
    Longest lexeme kind b.rest

theorem prefix_takeWhile {p : Char → Bool} {l text : List Char} (h : l <+: text)
    (hl : ∀ c ∈ l, p c = true) : l <+: text.takeWhile p := by
  obtain ⟨rest, rfl⟩ := h
  rw [List.takeWhile_append_of_pos hl]
  exact List.prefix_append l _

/-- As many characters of a class as there are make the longest lexeme, if all lexemes of the form
are of this class. -/
theorem longest_takeWhile {p : Char → Bool} {kind : TokenKind} (text : List Char)
    (only : ∀ l k, Lexeme l k → k.form = kind.form → ∀ c ∈ l, p c = true) :
    Longest (text.takeWhile p) kind (text.dropWhile p) := by
  intro l k hl hform hprefix
  rw [List.takeWhile_append_dropWhile] at hprefix
  exact (prefix_takeWhile hprefix (only l k hl hform)).length_le

theorem munches_readOperator {c : Char} (rest : List Char) (pos : Pos)
    (h : isOperatorChar c = true) :
    Munches ⟨c :: rest, pos⟩ (readOperator ⟨c :: rest, pos⟩).1 (readOperator ⟨c :: rest, pos⟩).2 := by
  refine ⟨_, (readWhile_append_rest isOperatorChar _).symm, rfl, .operator ?_ ?_, ?_⟩
  · simp [readWhile, h]
  · exact fun _ => List.mem_takeWhile_imp
  · exact longest_takeWhile _ fun l k hl hk => hl.of_operator hk

theorem munches_readWord {c : Char} (rest : List Char) (pos : Pos) (h : isNameStart c = true) :
    Munches ⟨c :: rest, pos⟩ (readWord ⟨c :: rest, pos⟩).1 (readWord ⟨c :: rest, pos⟩).2 := by
  have word : (c :: rest).takeWhile isNamePart = c :: rest.takeWhile isNamePart := by
    simp [isNamePart, h]
  have parts : ∀ d ∈ rest.takeWhile isNamePart, isNamePart d = true :=
    fun _ => List.mem_takeWhile_imp
  simp only [readWord]
  split <;> rename_i hk <;> simp only [readWhile, word] at hk
  · refine ⟨_, (readWhile_append_rest isNamePart _).symm, rfl, ?_,
      longest_takeWhile _ fun l k hl hk => hl.of_word hk⟩
    simp only [readWhile, word]
    exact .keyword h parts hk
  · refine ⟨_, (readWhile_append_rest isNamePart _).symm, rfl, ?_,
      longest_takeWhile _ fun l k hl hk => hl.of_word hk⟩
    simp only [readWhile, word]
    exact .name h parts hk

/-- All digits that there are make the longest number if no point follows. -/
theorem longest_whole {text : List Char} (v : Float)
    (nopoint : ∀ tail, text.dropWhile isDigit ≠ '.' :: tail) :
    Longest (text.takeWhile isDigit) (.number v) (text.dropWhile isDigit) := by
  intro l k hl hk hprefix
  rw [List.takeWhile_append_dropWhile] at hprefix
  obtain ⟨digits, hdigits, rfl | ⟨fraction, -, rfl⟩⟩ := hl.of_number hk
  · exact (prefix_takeWhile hprefix hdigits).length_le
  · -- the point would come right behind the digits
    obtain ⟨more, rfl⟩ := hprefix
    refine absurd ?_ (nopoint (fraction ++ more))
    rw [List.append_assoc, List.dropWhile_append_of_pos hdigits]
    rfl

/-- All digits on both sides of a point make the longest number. -/
theorem longest_decimal {text tail : List Char} (v : Float)
    (point : text.dropWhile isDigit = '.' :: tail) :
    Longest (text.takeWhile isDigit ++ '.' :: tail.takeWhile isDigit) (.number v)
      (tail.dropWhile isDigit) := by
  have before : ∀ d ∈ text.takeWhile isDigit, isDigit d = true := fun _ => List.mem_takeWhile_imp
  have whole : text.takeWhile isDigit ++ '.' :: tail = text := by
    rw [← point, List.takeWhile_append_dropWhile]
  intro l k hl hk hprefix
  rw [List.append_assoc, List.cons_append, List.takeWhile_append_dropWhile] at hprefix
  obtain ⟨digits, hdigits, rfl | ⟨fraction, hfraction, rfl⟩⟩ := hl.of_number hk
  · -- without a point there are no more digits than before the point
    have shorter := (prefix_takeWhile (whole ▸ hprefix) hdigits).length_le
    simp only [List.length_append]
    omega
  · obtain ⟨more, hmore⟩ := hprefix
    rw [List.append_assoc, List.cons_append] at hmore
    obtain ⟨rfl, htail⟩ := stretch_unique hdigits before rfl rfl hmore
    have within : fraction <+: tail := ⟨more, (List.cons.inj htail).2⟩
    have shorter := (prefix_takeWhile within hfraction).length_le
    simp only [List.length_append, List.length_cons]
    omega

theorem munches_readNumber {c : Char} (rest : List Char) (pos : Pos) (h : isDigit c = true) :
    Munches ⟨c :: rest, pos⟩ (readNumber ⟨c :: rest, pos⟩).1 (readNumber ⟨c :: rest, pos⟩).2 := by
  have nonempty : (c :: rest).takeWhile isDigit ≠ [] := by simp [h]
  generalize c :: rest = text at nonempty ⊢
  have digits (text : List Char) : ∀ d ∈ text.takeWhile isDigit, isDigit d = true :=
    fun _ => List.mem_takeWhile_imp
  have whole : text.takeWhile isDigit ++ text.dropWhile isDigit = text :=
    List.takeWhile_append_dropWhile
  simp only [readNumber, readWhile]
  split
  · rename_i tail point
    refine ⟨text.takeWhile isDigit ++ '.' :: tail.takeWhile isDigit, ?_, ?_,
      .decimal nonempty (digits text) (digits tail), longest_decimal _ point⟩
    · rw [point] at whole
      simp [List.takeWhile_append_dropWhile, whole]
    · simp [Pos.advance_append]
  · rename_i nopoint
    exact ⟨text.takeWhile isDigit, whole.symm, rfl, .whole nonempty (digits text),
      longest_whole _ nopoint⟩

/-! ### Reading a text -/

/-- A quoted text is read up to the quote that closes it. -/
theorem readText_closed {escaped : Bool} {body content : List Char}
    (h : Escaped escaped body content) (found rest : List Char) (pos : Pos) :
    readText escaped found (body ++ '"' :: rest) pos =
      .ok (String.ofList (found.reverse ++ content), ⟨rest, pos.advance (body ++ ['"'])⟩) := by
  induction h generalizing found pos with
  | nil => simp [readText]
  | @plain c body content slash quote _ ih =>
    simp only [List.cons_append, readText, slash, quote, Bool.false_eq_true, if_false, ih,
      List.reverse_cons, List.append_assoc, List.nil_append, Pos.advance_cons]
  | @backslash body content _ ih =>
    simp only [List.cons_append, readText, Bool.false_eq_true, if_false, if_true, ih,
      Pos.advance_cons]
  | @taken c body content _ ih =>
    simp only [List.cons_append, readText, if_true, ih, List.reverse_cons, List.append_assoc,
      List.nil_append, Pos.advance_cons]

/-- What is read as a quoted text is one. -/
theorem escaped_of_readText {escaped : Bool} {found text : List Char} {pos : Pos}
    {r : String × Cursor} (h : readText escaped found text pos = .ok r) :
    ∃ body content rest, Escaped escaped body content ∧ text = body ++ '"' :: rest := by
  induction text generalizing escaped found pos with
  | nil => simp [readText] at h
  | cons c text ih =>
    simp only [readText] at h
    cases escaped with
    | true =>
      obtain ⟨body, content, rest, hb, rfl⟩ := ih h
      exact ⟨c :: body, c :: content, rest, .taken hb, rfl⟩
    | false =>
      simp only [Bool.false_eq_true, if_false] at h
      split at h
      · rename_i hslash
        subst hslash
        obtain ⟨body, content, rest, hb, rfl⟩ := ih h
        exact ⟨'\\' :: body, content, rest, .backslash hb, rfl⟩
      · rename_i hslash
        split at h
        · rename_i hquote
          subst hquote
          exact ⟨[], [], text, .nil, rfl⟩
        · rename_i hquote
          obtain ⟨body, content, rest, hb, rfl⟩ := ih h
          exact ⟨c :: body, c :: content, rest, .plain hslash hquote hb, rfl⟩

theorem munches_readText {rest : List Char} {pos : Pos} {content : String} {b : Cursor}
    (h : readText false [] rest (pos.next '"') = .ok (content, b)) :
    Munches ⟨'"' :: rest, pos⟩ (.text content) b := by
  obtain ⟨body, content', rest', hb, rfl⟩ := escaped_of_readText h
  rw [readText_closed hb, Except.ok.injEq, Prod.mk.injEq] at h
  obtain ⟨rfl, rfl⟩ := h
  refine ⟨'"' :: (body ++ ['"']), by simp, rfl, .text hb, ?_⟩
  intro l k hl hk hprefix
  obtain ⟨body', content'', hb', rfl⟩ := hl.of_text hk
  obtain ⟨more, hmore⟩ := hprefix
  have same : body' ++ '"' :: more = body ++ '"' :: rest' := by simpa using hmore
  obtain ⟨rfl, -⟩ := hb'.unique hb same
  exact Nat.le_refl _

/-- No lexeme begins with a quote that is not closed. -/
theorem not_lexeme_of_readText {rest l : List Char} {pos pos' : Pos} {k : TokenKind}
    (h : readText false [] rest pos = .error pos') (hl : Lexeme l k) : ¬ l <+: '"' :: rest := by
  rintro ⟨more, hmore⟩
  obtain ⟨c, cs, rfl, hc⟩ := hl.begins
  obtain ⟨rfl, -⟩ := List.cons.inj hmore
  have hk : k.form = .text := Form.eq_of_begins hc rfl
  obtain ⟨body, content, hb, hl⟩ := hl.of_text hk
  have closed : rest = body ++ '"' :: more := by
    rw [hl] at hmore
    simpa using hmore.symm
  rw [closed, readText_closed hb] at h
  cases h

/-! ### Looking for a token -/

theorem munches_mark {c : Char} {m : Mark} (h : Mark.ofChar? c = some m) (rest : List Char)
    (pos : Pos) : Munches ⟨c :: rest, pos⟩ (.mark m) ⟨rest, pos.next c⟩ :=
  ⟨[c], rfl, rfl, .mark h, fun _ _ hl hk _ => (hl.of_mark hk).le⟩

end Cursor

/-- What looking for a token comes to right at the cursor: a token whose lexeme begins there; the end
of the text; a character that begins no lexeme; or a quote that is not closed. -/
inductive Scan.Meets (c : Cursor) : Scan → Prop where
  | token {t : Token} {b : Cursor} : t.pos = c.pos → c.Munches t.kind b → Meets c (.token t b)
  | finished : c.rest = [] → Meets c (.finished c)
  | unknown {ch : Char} {rest : List Char} : c.rest = ch :: rest →
    (∀ l k, ¬ Lexeme (ch :: l) k) → Meets c (.unknown ch c)
  | unclosed {rest : List Char} : c.rest = '"' :: rest →
    (∀ l k, Lexeme l k → ¬ l <+: '"' :: rest) → Meets c (.unclosed ⟨[], c.pos.advance c.rest⟩)

theorem Cursor.meets_scanHere (c : Cursor) : c.scanHere.Meets c := by
  obtain ⟨text, pos⟩ := c
  cases text with
  | nil => exact .finished rfl
  | cons ch rest =>
    simp only [scanHere]
    split
    · rename_i hquote
      subst hquote
      rcases reads_readText false [] rest (pos.next '"') with ⟨content, b, hread, -⟩ | hread
      · rw [hread]
        exact .token rfl (munches_readText hread)
      · rw [hread]
        exact .unclosed rfl fun l k => not_lexeme_of_readText hread
    · rename_i hquote
      split
      · rename_i hdigit
        exact .token rfl (munches_readNumber rest pos hdigit)
      · rename_i hdigit
        split
        · rename_i hstart
          exact .token rfl (munches_readWord rest pos hstart)
        · rename_i hstart
          split
          · rename_i m hmark
            exact .token rfl (munches_mark hmark rest pos)
          · rename_i hmark
            split
            · rename_i hop
              exact .token rfl (munches_readOperator rest pos hop)
            · rename_i hop
              refine .unknown rfl fun l k hl => ?_
              obtain ⟨c, cs, hc, hbegins⟩ := hl.begins
              obtain ⟨rfl, -⟩ := List.cons.inj hc
              cases hk : k.form <;> simp_all [Form.begins]

/-! ### Taking texts apart -/

/-- Layout, the lexeme behind it, and the token that the lexeme is the text of. -/
structure Piece where
  layout : List Char
  lexeme : List Char
  token : Token

def Piece.text (p : Piece) : List Char := p.layout ++ p.lexeme

/-- What becomes of the rest of a text, in which no token is left: it is empty; it begins with a
character that is neither layout nor the beginning of a lexeme; or it begins with a quote that is not
closed. -/
inductive EndsWith (before : List Char) : List Char → Ending → Prop where
  | finished : EndsWith before [] (.finished (.behind before))
  | unknown {c : Char} {rest : List Char} : isBlank c = false → c ≠ '#' →
    (∀ l k, ¬ Lexeme (c :: l) k) →
      EndsWith before (c :: rest) (.failed (.malformed (.unknownCharacter c) (.behind before)))
  | unclosed {rest : List Char} : (∀ l k, Lexeme l k → ¬ l <+: '"' :: rest) →
    EndsWith before ('"' :: rest)
      (.failed (.malformed .unclosedText (.behind (before ++ '"' :: rest))))

/-- A text taken apart: pieces with one token each, layout behind them, and a rest without tokens. -/
structure Dissection where
  pieces : List Piece
  last : List Char
  rest : List Char
  ending : Ending

namespace Dissection

/-- The text is taken apart into the pieces, the last layout and the rest; `before` stands in front of
it. Every token has the position of its lexeme. -/
inductive Of : List Char → List Char → Dissection → Prop where
  | done {before last rest : List Char} {ending : Ending} : Layout rest last →
    EndsWith (before ++ last) rest ending → Of before (last ++ rest) ⟨[], last, rest, ending⟩
  | piece {before text : List Char} {p : Piece} {d : Dissection} :
    Layout (p.lexeme ++ text) p.layout → Lexeme p.lexeme p.token.kind →
      Longest p.lexeme p.token.kind text → p.token.pos = .behind (before ++ p.layout) →
        Of (before ++ p.text) text d → Of before (p.text ++ text) { d with pieces := p :: d.pieces }

end Dissection

/-! ### In one way only -/

namespace EndsWith

variable {before rest : List Char} {ending ending' : Ending}

theorem pastLayout (h : EndsWith before rest ending) : PastLayout rest := by
  cases h with
  | finished => exact nofun
  | unknown hblank hsign =>
    rintro _ ⟨⟩
    exact ⟨hblank, hsign⟩
  | unclosed =>
    rintro _ ⟨⟩
    decide

/-- No lexeme begins in the rest of a text. -/
theorem not_lexeme (h : EndsWith before rest ending) {l : List Char} {k : TokenKind}
    (hl : Lexeme l k) : ¬ l <+: rest := by
  cases h with
  | finished => simpa using hl.ne_nil
  | unknown _ _ none =>
    rintro ⟨more, hmore⟩
    obtain ⟨c, cs, rfl, -⟩ := hl.begins
    obtain ⟨rfl, -⟩ := List.cons.inj hmore
    exact none cs k hl
  | unclosed none => exact none l k hl

theorem unique (h : EndsWith before rest ending) (h' : EndsWith before rest ending') :
    ending = ending' := by
  -- a quote begins a lexeme, that of the empty text
  have quote : Lexeme ('"' :: ([] ++ ['"'])) (.text (String.ofList [])) := .text .nil
  cases h with
  | finished => cases h' with | finished => rfl
  | unknown _ _ none =>
    cases h' with
    | unknown => rfl
    | unclosed => exact absurd quote (none _ _)
  | unclosed =>
    cases h' with
    | unknown _ _ none => exact absurd quote (none _ _)
    | unclosed => rfl

end EndsWith

namespace Dissection

/-- A text can be taken apart in one way only. -/
theorem Of.unique {before text : List Char} {d d' : Dissection} (h : d.Of before text)
    (h' : d'.Of before text) : d = d' := by
  induction h generalizing d' with
  | @done before last rest ending layout ends =>
    generalize htext : last ++ rest = text at h'
    cases h' with
    | done layout' ends' =>
      obtain ⟨rfl, rfl⟩ := layout.eq_of_append_eq layout' ends.pastLayout ends'.pastLayout htext
      rw [ends.unique ends']
    | @piece _ text p d layout' lexeme' =>
      rw [Piece.text, List.append_assoc] at htext
      obtain ⟨-, rfl⟩ := layout.eq_of_append_eq layout' ends.pastLayout lexeme'.pastLayout htext
      exact absurd (List.prefix_append _ _) (ends.not_lexeme lexeme')
  | @piece before text p d layout lexeme longest pos _ ih =>
    generalize htext : p.text ++ text = text' at h'
    cases h' with
    | @done _ last rest ending layout' ends' =>
      rw [Piece.text, List.append_assoc] at htext
      obtain ⟨-, rfl⟩ := layout.eq_of_append_eq layout' lexeme.pastLayout ends'.pastLayout htext
      exact absurd (List.prefix_append _ _) (ends'.not_lexeme lexeme)
    | @piece _ text' p' d' layout' lexeme' longest' pos' hd' =>
      obtain ⟨w, l, k, pos⟩ := p
      obtain ⟨w', l', k', pos'⟩ := p'
      simp only [Piece.text, List.append_assoc] at *
      obtain ⟨rfl, hrest⟩ := layout.eq_of_append_eq layout' lexeme.pastLayout lexeme'.pastLayout htext
      obtain ⟨rfl, rfl, rfl⟩ := lexeme.eq_of_longest lexeme' longest longest' hrest
      subst pos pos'
      rw [ih hd']

theorem Of.text_eq {before text : List Char} {d : Dissection} (h : d.Of before text) :
    text = d.pieces.flatMap Piece.text ++ d.last ++ d.rest := by
  induction h with
  | done => rfl
  | piece _ _ _ _ _ ih => simpa using ih

/-- It is not taken apart to the end exactly when its tokens end with a failure. -/
theorem Of.failed_iff {before text : List Char} {d : Dissection} (h : d.Of before text) :
    (∃ e, d.ending = .failed e) ↔ d.rest ≠ [] := by
  induction h with
  | done _ ends => cases ends <;> simp
  | piece _ _ _ _ _ ih => exact ih

end Dissection

/-! ### Taken apart by its tokens -/

namespace TokenStream

/-- What is read next takes the first piece off the text, or there is none. -/
inductive Takes (before text : List Char) : Except Error (Option Token) × Cursor → Prop where
  | token {p : Piece} {c : Cursor} : text = p.text ++ c.rest → Layout (p.lexeme ++ c.rest) p.layout →
    Lexeme p.lexeme p.token.kind → Longest p.lexeme p.token.kind c.rest →
      p.token.pos = .behind (before ++ p.layout) → c.pos = .behind (before ++ p.text) →
        Takes before text (.ok (some p.token), c)
  | finished {c : Cursor} : Layout [] text → c.pos = .behind (before ++ text) →
    Takes before text (.ok none, c)
  | halted {last rest : List Char} {e : Error} {c : Cursor} : text = last ++ rest →
    Layout rest last → EndsWith (before ++ last) rest (.failed e) → Takes before text (.error e, c)

theorem takes_read {before : List Char} {c : Cursor} (hc : c.pos = .behind before) :
    Takes before c.rest (read c) := by
  obtain ⟨w, htext, hpos, layout, past⟩ := Cursor.layout_skipLayoutFrom false c.rest c.pos
  rw [htext, read, Cursor.scan, Cursor.skipLayout]
  simp only [Bool.false_eq_true, if_false] at layout
  generalize Cursor.skipLayoutFrom false c.rest c.pos = here at *
  rw [hc, ← Pos.behind_append] at hpos
  have meets := here.meets_scanHere
  cases hscan : here.scanHere with
  | token t b =>
    rw [hscan] at meets
    cases meets with
    | token ht hmunches =>
      obtain ⟨l, hl, hb, lexeme, longest⟩ := hmunches
      rw [hpos, ← Pos.behind_append] at hb
      rw [hl] at layout ⊢
      exact .token (p := ⟨w, l, t⟩) (List.append_assoc ..).symm layout lexeme longest
        (ht.trans hpos) (hb.trans (congrArg Pos.behind (List.append_assoc ..)))
  | finished b =>
    rw [hscan] at meets
    cases meets with
    | finished hend =>
      rw [hend] at layout
      rw [hend, List.append_nil]
      exact .finished layout hpos
  | unknown ch b =>
    rw [hscan] at meets
    cases meets with
    | unknown hrest none =>
      obtain ⟨hblank, hsign⟩ := past ch (by simp [hrest])
      rw [hrest] at layout ⊢
      simp only [hpos]
      exact .halted rfl layout (.unknown hblank hsign none)
  | unclosed b =>
    rw [hscan] at meets
    cases meets with
    | unclosed hrest none =>
      rw [hrest] at layout ⊢
      simp only [hpos, ← Pos.behind_append]
      exact .halted rfl layout (.unclosed none)

theorem takes_next {before : List Char} {s rest : TokenStream} (hs : s.waiting = none)
    (hpos : s.cursor.pos = .behind before) {r : Except Error (Option Token)}
    (hnext : s.next = (r, rest)) :
    Takes before s.cursor.rest (r, rest.cursor) ∧ rest.waiting = none := by
  simp only [next, hs, Prod.mk.injEq] at hnext
  obtain ⟨rfl, rfl⟩ := hnext
  exact ⟨takes_read hpos, rfl⟩

/-- The tokens of a stream take apart what is left of the text. -/
theorem dissects_drain (s : TokenStream) (hs : s.waiting = none) {before : List Char}
    (hpos : s.cursor.pos = .behind before) :
    ∃ d : Dissection, d.Of before s.cursor.rest ∧ s.drain = (d.pieces.map Piece.token, d.ending) := by
  fun_induction drain s generalizing before with
  | case1 s t rest hnext tokens ending hdrain ih =>
    obtain ⟨takes, hrest⟩ := takes_next hs hpos hnext
    generalize s.cursor.rest = text at takes
    cases takes with
    | @token p _ htext layout lexeme longest ht hafter =>
      obtain ⟨d, hd, tokens_eq⟩ := ih hrest hafter
      rw [hdrain, Prod.mk.injEq] at tokens_eq
      obtain ⟨rfl, rfl⟩ := tokens_eq
      rw [htext]
      exact ⟨_, .piece layout lexeme longest ht hd, rfl⟩
  | case2 s rest hnext =>
    obtain ⟨takes, hrest⟩ := takes_next hs hpos hnext
    generalize s.cursor.rest = text at takes
    cases takes with
    | finished layout hend =>
      have ends : EndsWith (before ++ text) [] (.finished rest.pos) := by
        rw [TokenStream.pos, hrest, Option.elim_none, hend]
        exact .finished
      rw [← List.append_nil text]
      exact ⟨_, .done layout ends, rfl⟩
  | case3 s e rest hnext =>
    obtain ⟨takes, -⟩ := takes_next hs hpos hnext
    generalize s.cursor.rest = text at takes
    cases takes with
    | halted htext layout ends =>
      rw [htext]
      exact ⟨_, .done layout ends, rfl⟩

end TokenStream

/-- The tokens of a text take it apart without loss: in front of each stands layout, then its lexeme,
the longest of its form, at the position of the token. There is no other way to take the text apart.
The tokens end with a failure exactly when a rest is left in which no token begins. -/
theorem tokens_dissect_source (source : String) : ∃ d : Dissection,
    d.Of [] source.toList ∧ (∀ d' : Dissection, d'.Of [] source.toList → d' = d) ∧
      source.toList = d.pieces.flatMap Piece.text ++ d.last ++ d.rest ∧
      (TokenStream.ofString source).drain = (d.pieces.map Piece.token, d.ending) ∧
      ((∃ e, d.ending = .failed e) ↔ d.rest ≠ []) := by
  have begins : (TokenStream.ofString source).cursor.pos = .behind [] := rfl
  obtain ⟨d, hd, tokens⟩ := TokenStream.dissects_drain (.ofString source) rfl begins
  exact ⟨d, hd, fun d' hd' => hd'.unique hd, hd.text_eq, tokens, hd.failed_iff⟩

end ScopeLang
