import ScopeLang.Proofs.Decimal.Written
import ScopeLang.Proofs.Token.Dissection

/-!
# Texts put together

Tokens written one behind the other, with layout between them, are read as these tokens, each where it
was written. What matters is only that a lexeme is not continued by what stands behind it; a blank or
the sign of a comment never does that, nor does a mark or a quote.

## Main definitions

* `Parted` — what stands behind continues no lexeme.
* `TokenKind.written` — the characters with which a token is written.
* `Filler`, `Placed` — layout, and a token with the layout in front of it.

## Main statements

* `Lexeme.longest` — a lexeme that is not continued is the longest at its place.
* `drain_rendering` — what was written token by token is read so.
-/

namespace ScopeLang

/-! ### Lexemes that are not continued -/

/-- The text goes on with nothing that could continue a word, a number or an operator. -/
def Parted (rest : List Char) : Prop :=
  ∀ c ∈ rest.head?, isNamePart c = false ∧ isOperatorChar c = false ∧ c ≠ '.'

theorem parted_nil : Parted [] := nofun

theorem parted_cons {c : Char} (rest : List Char)
    (h : isNamePart c = false ∧ isOperatorChar c = false ∧ c ≠ '.') : Parted (c :: rest) := by
  rintro _ ⟨⟩
  exact h

namespace Parted

variable {rest : List Char}

theorem isDigit (h : Parted rest) : ∀ c ∈ rest.head?, isDigit c = false := fun c hc => by
  have := (h c hc).1
  simp_all [isNamePart]

end Parted

/-- A stretch of characters of one class in front of one that is not of it. -/
theorem span_append {p : Char → Bool} {l rest : List Char} (h : ∀ c ∈ l, p c = true)
    (hrest : ∀ c ∈ rest.head?, p c = false) :
    (l ++ rest).takeWhile p = l ∧ (l ++ rest).dropWhile p = rest := by
  rw [List.takeWhile_append_of_pos h, List.dropWhile_append_of_pos h]
  cases rest with
  | nil => simp
  | cons c rest => simp [hrest c rfl]

namespace Lexeme

variable {l rest : List Char} {k : TokenKind}

theorem longest_of_class {p : Char → Bool} (h : ∀ c ∈ l, p c = true)
    (hrest : ∀ c ∈ rest.head?, p c = false)
    (only : ∀ l' k', Lexeme l' k' → k'.form = k.form → ∀ c ∈ l', p c = true) :
    Longest l k rest := by
  have longest : Longest _ k _ := Cursor.longest_takeWhile (l ++ rest) only
  rwa [(span_append h hrest).1, (span_append h hrest).2] at longest

/-- Quoted texts and marks end by themselves. -/
theorem longest_of_closed (h : Lexeme l k) (closed : k.form = .text ∨ k.form = .mark)
    (rest : List Char) : Longest l k rest := by
  intro l' k' hl' hk' hprefix
  rcases closed with hk | hk
  · obtain ⟨body, content, hb, rfl⟩ := h.of_text hk
    obtain ⟨body', content', hb', rfl⟩ := hl'.of_text (hk'.trans hk)
    obtain ⟨more, hmore⟩ := hprefix
    have same : body' ++ '"' :: more = body ++ '"' :: rest := by simpa using hmore
    obtain ⟨rfl, -⟩ := hb'.unique hb same
    exact Nat.le_refl _
  · rw [hl'.of_mark (hk'.trans hk), h.of_mark hk]

/-- A lexeme that is not continued is the longest at its place. -/
theorem longest (h : Lexeme l k) (parted : Parted rest) : Longest l k rest := by
  cases h with
  | text hb => exact (Lexeme.text hb).longest_of_closed (.inl rfl) rest
  | mark hm => exact (Lexeme.mark hm).longest_of_closed (.inr rfl) rest
  | keyword hc hcs hk =>
    exact longest_of_class ((Lexeme.keyword hc hcs hk).of_word rfl) (fun c hc => (parted c hc).1)
      fun _ _ hl' hk' => hl'.of_word hk'
  | name hc hcs hk =>
    exact longest_of_class ((Lexeme.name hc hcs hk).of_word rfl) (fun c hc => (parted c hc).1)
      fun _ _ hl' hk' => hl'.of_word hk'
  | operator hne hcs =>
    exact longest_of_class hcs (fun c hc => (parted c hc).2.1) fun _ _ hl' hk' => hl'.of_operator hk'
  | whole hne digits =>
    obtain ⟨htake, hdrop⟩ := span_append digits parted.isDigit
    have longest : Longest ((l ++ rest).takeWhile isDigit) _ _ :=
      Cursor.longest_whole (Decimal.ofDigits l []) fun tail htail => by
      rw [hdrop] at htail
      exact (parted '.' (by simp [htail])).2.2 rfl
    rwa [htake, hdrop] at longest
  | @decimal digits fraction hne hdigits hfraction =>
    have point : ∀ c ∈ ('.' :: (fraction ++ rest)).head?, ScopeLang.isDigit c = false := by
      simp
      decide
    obtain ⟨htake, hdrop⟩ := span_append hdigits point
    obtain ⟨htake', hdrop'⟩ := span_append hfraction parted.isDigit
    have longest := Cursor.longest_decimal (Decimal.ofDigits digits fraction) hdrop
    rwa [htake, htake', hdrop'] at longest

end Lexeme

/-! ### Layout -/

/-- A piece of layout that ends by itself: a blank, or a comment with its line break. -/
inductive Filler where
  | blank (c : Char) (h : isBlank c = true)
  | comment (body : List Char) (h : '\n' ∉ body)

namespace Filler

def text : Filler → List Char
  | blank c _ => [c]
  | comment body _ => '#' :: (body ++ ['\n'])

/-- One piece of layout behind the other. -/
def texts (gap : List Filler) : List Char := gap.flatMap text

theorem layout_append {rest w : List Char} (f : Filler) (h : Layout rest w) :
    Layout rest (f.text ++ w) := by
  cases f with
  | blank c hc => exact .blank hc h
  | comment body hbody => simpa [text] using Layout.comment hbody h

theorem parted_append (f : Filler) (rest : List Char) : Parted (f.text ++ rest) := by
  cases f with
  | blank c hc =>
    have blanks : [' ', '\t', '\n', '\r'].all (fun c =>
        decide (isNamePart c = false ∧ isOperatorChar c = false ∧ c ≠ '.')) = true := by decide
    have mem : c ∈ [' ', '\t', '\n', '\r'] := by simpa [isBlank, or_assoc] using hc
    exact parted_cons rest (of_decide_eq_true (List.all_eq_true.1 blanks c mem))
  | comment body hbody => exact parted_cons _ (by decide)

theorem parted_texts_append {gap : List Filler} (h : gap ≠ []) (rest : List Char) :
    Parted (texts gap ++ rest) := by
  obtain ⟨f, gap, rfl⟩ := List.exists_cons_of_ne_nil h
  simpa [texts] using f.parted_append (texts gap ++ rest)

theorem parted_texts (gap : List Filler) : Parted (texts gap) := by
  by_cases h : gap = []
  · subst h
    exact parted_nil
  · simpa using parted_texts_append h []

end Filler

/-! ### Layout and lexemes put together -/

/-- A text behind `before` is put together from layout and lexemes, each the longest at its place, and
these are its tokens. -/
inductive Lexed : List Char → List Char → List Token → Prop where
  | nil (before : List Char) : Lexed before [] []
  | filler {before text : List Char} {tokens : List Token} (f : Filler) :
    Lexed (before ++ f.text) text tokens → Lexed before (f.text ++ text) tokens
  | token {before l text : List Char} {k : TokenKind} {tokens : List Token} : Lexeme l k →
    Longest l k text → Lexed (before ++ l) text tokens →
      Lexed before (l ++ text) (⟨k, .behind before⟩ :: tokens)

namespace Dissection

variable {before text : List Char} {d : Dissection}

/-- Layout in front joins the layout of the first piece. -/
theorem Of.filler (h : d.Of before text) (f : Filler) {before' : List Char}
    (hbefore : before = before' ++ f.text) : ∃ d' : Dissection, d'.Of before' (f.text ++ text) ∧
      d'.pieces.map Piece.token = d.pieces.map Piece.token ∧ d'.ending = d.ending := by
  subst hbefore
  cases h with
  | @done _ last rest ending layout ends =>
    rw [List.append_assoc] at ends
    have whole := Of.done (f.layout_append layout) ends
    rw [List.append_assoc] at whole
    exact ⟨_, whole, rfl, rfl⟩
  | @piece _ text p d layout lexeme longest pos hd =>
    rw [List.append_assoc] at pos
    rw [List.append_assoc] at hd
    have whole := Of.piece (p := ⟨f.text ++ p.layout, p.lexeme, p.token⟩) (f.layout_append layout)
      lexeme longest pos (by simpa [Piece.text] using hd)
    refine ⟨{ d with pieces := ⟨f.text ++ p.layout, p.lexeme, p.token⟩ :: d.pieces }, ?_, rfl, rfl⟩
    simpa [Piece.text] using whole

end Dissection

namespace Lexed

variable {before text : List Char} {tokens : List Token}

theorem exists_dissection (h : Lexed before text tokens) : ∃ d : Dissection, d.Of before text ∧
    d.pieces.map Piece.token = tokens ∧ d.ending = .finished (.behind (before ++ text)) := by
  induction h with
  | nil before =>
    have ends : EndsWith (before ++ []) [] (.finished (.behind (before ++ []))) := .finished
    exact ⟨_, .done .nil ends, rfl, rfl⟩
  | filler f _ ih =>
    obtain ⟨d, hd, htokens, hending⟩ := ih
    obtain ⟨d', hd', htokens', hending'⟩ := hd.filler f rfl
    refine ⟨d', hd', htokens'.trans htokens, ?_⟩
    rw [hending', hending, List.append_assoc]
  | @token before l text k tokens lexeme longest _ ih =>
    obtain ⟨d, hd, rfl, hending⟩ := ih
    have pos : Pos.behind before = .behind (before ++ []) := by rw [List.append_nil]
    have whole := Dissection.Of.piece (p := ⟨[], l, ⟨k, .behind before⟩⟩) .nil lexeme longest pos hd
    refine ⟨_, whole, rfl, ?_⟩
    rw [hending, List.append_assoc]

/-- What is put together so is read so. -/
theorem drain_eq (h : Lexed [] text tokens) :
    (TokenStream.ofString (String.ofList text)).drain = (tokens, .finished (.behind text)) := by
  have begins : (TokenStream.ofString (String.ofList text)).cursor = ⟨text, .behind []⟩ := by
    simp [TokenStream.ofString, Cursor.ofString, Pos.behind, Pos.start]
  obtain ⟨d, hd, htokens⟩ := TokenStream.dissects_drain (.ofString (String.ofList text)) rfl
    (congrArg Cursor.pos begins)
  obtain ⟨d', hd', rfl, hending⟩ := h.exists_dissection
  rw [begins] at hd
  rw [htokens, hd.unique hd', hending, List.nil_append]

end Lexed

/-- The text is put together from layout and lexemes of tokens of these kinds, whatever stands in front
of it. -/
def Lexes (text : List Char) (kinds : List TokenKind) : Prop :=
  ∀ before, ∃ tokens, tokens.map Token.kind = kinds ∧ Lexed before text tokens

namespace Lexes

variable {text l : List Char} {kinds : List TokenKind} {k : TokenKind}

theorem nil : Lexes [] [] := fun before => ⟨[], rfl, .nil before⟩

theorem blank {c : Char} (hc : isBlank c = true) (h : Lexes text kinds) : Lexes (c :: text) kinds :=
  fun before => by
    obtain ⟨tokens, htokens, lexed⟩ := h (before ++ [c])
    exact ⟨tokens, htokens, .filler (.blank c hc) lexed⟩

theorem word (lexeme : Lexeme l k) (longest : Longest l k text) (h : Lexes text kinds) :
    Lexes (l ++ text) (k :: kinds) := fun before => by
  obtain ⟨tokens, htokens, lexed⟩ := h (before ++ l)
  exact ⟨⟨k, .behind before⟩ :: tokens, by rw [List.map_cons, htokens], .token lexeme longest lexed⟩

theorem mark (m : Mark) (h : Lexes text kinds) : Lexes (m.char :: text) (.mark m :: kinds) := by
  have lexeme : Lexeme [m.char] (.mark m) := .mark (by cases m <;> rfl)
  exact h.word lexeme (lexeme.longest_of_closed (.inr rfl) text)

/-- The text is read as tokens of these kinds. -/
theorem exists_drain (h : Lexes text kinds) : ∃ tokens, tokens.map Token.kind = kinds ∧
    (TokenStream.ofString (String.ofList text)).drain = (tokens, .finished (.behind text)) := by
  obtain ⟨tokens, htokens, lexed⟩ := h []
  exact ⟨tokens, htokens, lexed.drain_eq⟩

end Lexes

/-! ### Writing tokens -/

/-- The text begins and goes on like a name, and it is no keyword. -/
def isName (x : String) : Bool :=
  x.toList.head?.any isNameStart && x.toList.all isNamePart && (Keyword.ofSpelling? x).isNone

/-- A character between quotes, with a backslash if it would mean something else there. -/
def guarded (c : Char) : List Char := if c = '"' ∨ c = '\\' then ['\\', c] else [c]

namespace TokenKind

/-- The characters with which a token is written. -/
def written : TokenKind → List Char
  | number x => (Decimal.plain x).toList
  | text s => '"' :: (s.toList.flatMap guarded ++ ['"'])
  | name x => x.toList
  | keyword k => k.spelling.toList
  | mark m => [m.char]
  | operator s => s.toList

/-- Can a text have such a token? -/
def isWritable : TokenKind → Bool
  | number x => Decimal.isFiniteNonneg x
  | name x => isName x
  | operator s => !s.toList.isEmpty && s.toList.all isOperatorChar
  | text _ | keyword _ | mark _ => true

end TokenKind

theorem escaped_guarded (content : List Char) : Escaped false (content.flatMap guarded) content := by
  induction content with
  | nil => exact .nil
  | cons c content ih =>
    rw [List.flatMap_cons, guarded]
    split
    · exact .backslash (.taken ih)
    · rename_i hc
      rw [not_or] at hc
      exact .plain hc.2 hc.1 ih

theorem lexeme_name {x : String} (h : isName x = true) : Lexeme x.toList (.name x) := by
  simp only [isName, Bool.and_eq_true, Option.isNone_iff_eq_none] at h
  obtain ⟨⟨hstart, hparts⟩, hword⟩ := h
  cases hx : x.toList with
  | nil => simp [hx] at hstart
  | cons c cs =>
    obtain rfl : x = String.ofList (c :: cs) := by rw [← hx, String.ofList_toList]
    simp only [String.toList_ofList, List.head?_cons, Option.any_some, List.all_cons,
      Bool.and_eq_true, List.all_eq_true] at hstart hparts
    exact .name hstart hparts.2 hword

theorem lexeme_keyword (k : Keyword) : Lexeme k.spelling.toList (.keyword k) := by
  have lexeme {c : Char} {cs : List Char} (hk : k.spelling.toList = c :: cs)
      (hc : isNameStart c = true) (hcs : cs.all isNamePart = true) :
      Lexeme k.spelling.toList (.keyword k) := by
    have word : k.spelling = String.ofList (c :: cs) := by rw [← hk, String.ofList_toList]
    rw [hk]
    refine .keyword hc (List.all_eq_true.1 hcs) ?_
    rw [← word]
    cases k <;> decide
  cases k <;> exact lexeme rfl (by decide) (by decide)

/-- What is written for a token is a lexeme of this token. -/
theorem lexeme_written {k : TokenKind} (h : k.isWritable = true) : Lexeme k.written k := by
  cases k with
  | number x => exact Decimal.lexeme_plain h
  | text s =>
    have lexeme := Lexeme.text (escaped_guarded s.toList)
    rwa [String.ofList_toList] at lexeme
  | name x => exact lexeme_name h
  | keyword k => exact lexeme_keyword k
  | mark m => exact .mark (by cases m <;> rfl)
  | operator s =>
    simp only [TokenKind.isWritable, Bool.and_eq_true, Bool.not_eq_true', List.isEmpty_eq_false_iff,
      List.all_eq_true] at h
    have lexeme := Lexeme.operator h.1 h.2
    rwa [String.ofList_toList] at lexeme

/-- A token to be written, and the layout in front of it. -/
structure Placed where
  gap : List Filler
  kind : TokenKind

namespace Placed

def text (p : Placed) : List Char := Filler.texts p.gap ++ p.kind.written

/-- The text that consists of these tokens and the layout behind them. -/
def rendering (ps : List Placed) (last : List Filler) : List Char :=
  ps.flatMap text ++ Filler.texts last

/-- The tokens, each with the position behind everything that is written in front of it. -/
def tokens (before : List Char) : List Placed → List Token
  | [] => []
  | p :: ps => ⟨p.kind, .behind (before ++ Filler.texts p.gap)⟩ :: tokens (before ++ p.text) ps

end Placed

theorem Lexed.fillers {before text : List Char} {tokens : List Token} (gap : List Filler)
    (h : Lexed (before ++ Filler.texts gap) text tokens) :
    Lexed before (Filler.texts gap ++ text) tokens := by
  induction gap generalizing before with
  | nil => simpa [Filler.texts] using h
  | cons f gap ih =>
    have rest : Lexed (before ++ f.text) (Filler.texts gap ++ text) tokens :=
      ih (by simpa [Filler.texts] using h)
    simpa [Filler.texts] using Lexed.filler f rest

theorem lexed_rendering {ps : List Placed} (last : List Filler)
    (lexemes : ∀ p ∈ ps, Lexeme p.kind.written p.kind) (apart : ∀ p ∈ ps.tail, p.gap ≠ [])
    (before : List Char) :
    Lexed before (Placed.rendering ps last) (Placed.tokens before ps) := by
  induction ps generalizing before with
  | nil =>
    have rest : Lexed (before ++ Filler.texts last) [] [] := .nil _
    simpa [Placed.rendering, Placed.tokens] using rest.fillers last
  | cons p ps ih =>
    obtain ⟨lexeme, lexemes⟩ := List.forall_mem_cons.1 lexemes
    have parted : Parted (Placed.rendering ps last) := by
      cases ps with
      | nil => simpa [Placed.rendering] using Filler.parted_texts last
      | cons q ps =>
        have gap : q.gap ≠ [] := apart q (by simp)
        simpa [Placed.rendering, Placed.text] using Filler.parted_texts_append gap _
    have rest := ih lexemes (fun q hq => apart q (List.mem_of_mem_tail hq)) (before ++ p.text)
    rw [Placed.text, ← List.append_assoc] at rest
    have whole := (Lexed.token lexeme (lexeme.longest parted) rest).fillers p.gap
    simpa [Placed.rendering, Placed.text, Placed.tokens] using whole

/-- Tokens that are written one behind the other with layout between them, and with any layout around
them, are read as these tokens, each at the position where it was written, and nothing else is read. -/
theorem drain_rendering {ps : List Placed} (last : List Filler)
    (writable : ∀ p ∈ ps, p.kind.isWritable = true) (apart : ∀ p ∈ ps.tail, p.gap ≠ []) :
    (TokenStream.ofString (String.ofList (Placed.rendering ps last))).drain =
      (Placed.tokens [] ps, .finished (.behind (Placed.rendering ps last))) :=
  (lexed_rendering last (fun p hp => lexeme_written (writable p hp)) apart []).drain_eq

/-- A text with a line break, a sign of a comment and a quote in it, between comments. -/
theorem drain_rendering_among_comments :
    (TokenStream.ofString "# \"if\nif\t\"a\n#\\\"\\\\\"\r\n<= 0.5#\n;").drain =
      ([⟨.keyword .ifWord, ⟨2, 0⟩⟩, ⟨.text "a\n#\"\\", ⟨2, 3⟩⟩, ⟨.operator "<=", ⟨4, 0⟩⟩,
        ⟨.number 0.5, ⟨4, 3⟩⟩, ⟨.mark .semicolon, ⟨5, 0⟩⟩], .finished ⟨5, 1⟩) := by
  have half : (Decimal.plain 0.5).toList = ['0', '.', '5'] := by decide +kernel
  let ps : List Placed := [
    ⟨[.comment [' ', '"', 'i', 'f'] (by decide)], .keyword .ifWord⟩,
    ⟨[.blank '\t' (by decide)], .text "a\n#\"\\"⟩,
    ⟨[.blank '\r' (by decide), .blank '\n' (by decide)], .operator "<="⟩,
    ⟨[.blank ' ' (by decide)], .number 0.5⟩,
    ⟨[.comment [] (by decide)], .mark .semicolon⟩]
  have text : Placed.rendering ps [] = "# \"if\nif\t\"a\n#\\\"\\\\\"\r\n<= 0.5#\n;".toList := by
    decide +kernel
  have positions : Placed.tokens [] ps = [⟨.keyword .ifWord, ⟨2, 0⟩⟩, ⟨.text "a\n#\"\\", ⟨2, 3⟩⟩,
      ⟨.operator "<=", ⟨4, 0⟩⟩, ⟨.number 0.5, ⟨4, 3⟩⟩, ⟨.mark .semicolon, ⟨5, 0⟩⟩] := by
    simp [ps, Placed.tokens, Placed.text, TokenKind.written, half]
    decide
  have writable : ∀ p ∈ ps, p.kind.isWritable = true := by decide +kernel
  have apart : ∀ p ∈ ps.tail, p.gap ≠ [] := by decide
  have whole := drain_rendering [] writable apart
  rwa [text, positions, String.ofList_toList] at whole

end ScopeLang
