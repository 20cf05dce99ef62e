import ScopeLang.Proofs.Token.Rendering

/-!
# Texts joined by a line break

What stands in front of a line break is read as if the text ended there, and what stands behind it
as if the text began there. A word, a number or an operator is not continued by the line break, quotes
and marks close by themselves, and a comment that went to the end of the text goes to the line break
instead. So the tokens of two texts with a line break between them are those of the one and then
those of the other.

## Main definitions

* `Consists` — a text is put together from layout and lexemes, with tokens of these kinds.

## Main statements

* `Consists.newline` — two texts with a line break between them.
* `consists_iff` — a text consists of the tokens that are read from it.
-/

namespace ScopeLang

/-! ### Lexemes in front of a line break -/

theorem prefix_of_prefix_cons {l a b : List Char} {c : Char} (h : l <+: a ++ c :: b) (hc : c ∉ l) :
    l <+: a := by
  rcases le_or_gt l.length a.length with hlength | hlength
  · exact List.prefix_of_prefix_length_le h (List.prefix_append a _) hlength
  · -- a longer one would go over the character
    have beyond : a ++ [c] <+: l :=
      List.prefix_of_prefix_length_le ⟨b, by simp⟩ h (by simpa using hlength)
    exact absurd (beyond.subset (by simp)) hc

namespace Lexeme

variable {l text rest : List Char} {k : TokenKind}

/-- A line break is part of quoted texts only. -/
theorem newline_not_mem (h : Lexeme l k) (hk : k.form ≠ .text) : '\n' ∉ l := by
  have other {p : Char → Bool} (all : ∀ c ∈ l, p c = true) (hp : p '\n' = false) : '\n' ∉ l :=
    fun hmem => by simpa [hp] using all _ hmem
  cases hform : k.form with
  | text => exact absurd hform hk
  | word => exact other (h.of_word hform) (by decide)
  | operator => exact other (h.of_operator hform) (by decide)
  | number =>
    obtain ⟨digits, hdigits, rfl | ⟨fraction, hfraction, rfl⟩⟩ := h.of_number hform
    · exact other hdigits (by decide)
    · refine other (p := fun c => isDigit c || c == '.') (fun c hc => ?_) (by decide)
      rcases List.mem_append.1 hc with hc | hc
      · simp [hdigits c hc]
      · rcases List.mem_cons.1 hc with rfl | hc
        · rfl
        · simp [hfraction c hc]
  | mark =>
    cases h with
    | @mark c m hm => exact other (p := fun c => (Mark.ofChar? c).isSome) (by simp [hm]) (by decide)
    | _ => cases hform

/-- No lexeme is continued by a line break. -/
theorem longest_newline (h : Lexeme l k) (longest : Longest l k text) (rest : List Char) :
    Longest l k (text ++ '\n' :: rest) := by
  by_cases closed : k.form = .text ∨ k.form = .mark
  · exact h.longest_of_closed closed _
  · intro l' k' hl' hform hprefix
    have line : '\n' ∉ l' := hl'.newline_not_mem (hform ▸ fun hk => closed (.inl hk))
    rw [← List.append_assoc] at hprefix
    exact longest l' k' hl' hform (prefix_of_prefix_cons hprefix line)

end Lexeme

/-! ### What a text consists of -/

/-- A text is put together from layout and from lexemes, each the longest at its place, and these
are the kinds of its tokens. It may end with a comment. -/
inductive Consists : List Char → List TokenKind → Prop where
  | nil : Consists [] []
  | lastComment {body : List Char} : '\n' ∉ body → Consists ('#' :: body) []
  | filler {text : List Char} {kinds : List TokenKind} (f : Filler) : Consists text kinds →
    Consists (f.text ++ text) kinds
  | word {l text : List Char} {k : TokenKind} {kinds : List TokenKind} : Lexeme l k →
    Longest l k text → Consists text kinds → Consists (l ++ text) (k :: kinds)

namespace Consists

variable {text text' w : List Char} {kinds kinds' : List TokenKind}

/-- Two texts with a line break between them. -/
theorem newline (h : Consists text kinds) (h' : Consists text' kinds') :
    Consists (text ++ '\n' :: text') (kinds ++ kinds') := by
  induction h with
  | nil => exact .filler (.blank '\n' (by decide)) h'
  | lastComment hbody => simpa [Filler.text] using filler (.comment _ hbody) h'
  | filler f _ ih => simpa using filler f ih
  | word lexeme longest _ ih =>
    simpa using word lexeme (lexeme.longest_newline longest text') ih

theorem mark (m : Mark) (h : Consists text kinds) :
    Consists (m.char :: text) (.mark m :: kinds) := by
  have lexeme : Lexeme [m.char] (.mark m) := lexeme_written (k := .mark m) rfl
  exact h.word lexeme (lexeme.longest_of_closed (.inr rfl) text)

/-- Layout in front of a token, or of the end of the text. -/
theorem layout (h : Consists text kinds) (hw : Layout text w) (hkinds : text = [] → kinds = []) :
    Consists (w ++ text) kinds := by
  induction hw with
  | nil => exact h
  | blank hc _ ih => exact ih.filler (.blank _ hc)
  | comment hbody _ ih => simpa [Filler.text] using ih.filler (.comment _ hbody)
  | lastComment htext hbody => simpa [htext, hkinds htext] using lastComment hbody

/-- A text that is taken apart to its end. -/
theorem of_dissection {before : List Char} {d : Dissection} (h : d.Of before text)
    (hrest : d.rest = []) : Consists text ((d.pieces.map Piece.token).map Token.kind) := by
  induction h with
  | done layout =>
    subst hrest
    exact nil.layout layout fun _ => rfl
  | piece layout lexeme longest _ _ ih =>
    have whole := (word lexeme longest (ih hrest)).layout layout (by simp [lexeme.ne_nil])
    simpa [Piece.text] using whole

/-- Wherever the text stands, it is taken apart into these tokens. -/
theorem exists_dissection (h : Consists text kinds) (before : List Char) : ∃ d : Dissection,
    d.Of before text ∧ (d.pieces.map Piece.token).map Token.kind = kinds ∧
      d.ending = .finished (.behind (before ++ text)) := by
  induction h generalizing before with
  | nil =>
    have ends : EndsWith (before ++ []) [] (.finished (.behind (before ++ []))) := .finished
    exact ⟨_, .done .nil ends, rfl, rfl⟩
  | @lastComment body hbody =>
    have ends : EndsWith (before ++ '#' :: body) [] _ := .finished
    have whole := Dissection.Of.done (.lastComment rfl hbody) ends
    rw [List.append_nil] at whole
    exact ⟨_, whole, rfl, rfl⟩
  | filler f _ ih =>
    obtain ⟨d, hd, hkinds, hending⟩ := ih (before ++ f.text)
    obtain ⟨d', hd', htokens, hending'⟩ := hd.filler f rfl
    exact ⟨d', hd', htokens ▸ hkinds, by rw [hending', hending, List.append_assoc]⟩
  | @word l text k kinds lexeme longest _ ih =>
    obtain ⟨d, hd, rfl, hending⟩ := ih (before ++ l)
    have pos : Pos.behind before = .behind (before ++ []) := by rw [List.append_nil]
    have whole := Dissection.Of.piece (p := ⟨[], l, ⟨k, .behind before⟩⟩) .nil lexeme longest pos hd
    exact ⟨_, whole, rfl, by rw [hending, List.append_assoc]⟩

end Consists

/-- A text consists of the tokens that are read from it, if these go to its end, and of no other. -/
theorem consists_iff (source : String) (kinds : List TokenKind) : Consists source.toList kinds ↔
    (TokenStream.ofString source).drain.1.map Token.kind = kinds ∧
      ∃ pos, (TokenStream.ofString source).drain.2 = .finished pos := by
  obtain ⟨d, hd, unique, -, hdrain, failed⟩ := tokens_dissect_source source
  rw [hdrain]
  constructor
  · intro h
    obtain ⟨d', hd', hkinds, hending⟩ := h.exists_dissection []
    obtain rfl := unique d' hd'
    exact ⟨hkinds, _, hending⟩
  · rintro ⟨rfl, pos, hpos⟩
    refine .of_dissection hd ?_
    by_contra hrest
    obtain ⟨e, he⟩ := failed.2 hrest
    cases hpos.symm.trans he

end ScopeLang
