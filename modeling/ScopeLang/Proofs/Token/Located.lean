import ScopeLang.Token.Stream

/-!
# Where tokens stand

Looking for tokens moves a cursor forward over the text, and its position is always the one behind
the characters it has passed. So the position of a token is that of the character where it was read,
and that of a failure is where looking for tokens came to a halt.

## Main definitions

* `Cursor.Reads` — a cursor gets to another one by passing characters.
* `StandsAt` — a token is what the text holds at its position.
* `HaltsAt` — at this position no token starts, or a quoted text that was begun is not closed.

## Main statements

* `reads_scanHere` — what looking for a token at the cursor comes to.
* `located_drain` — every token stands where it says, and so does the failure behind them.
-/

namespace ScopeLang

/-! ### Passing characters -/

namespace Cursor

variable {a b c : Cursor}

/-- The second cursor is behind characters that come next at the first one. -/
def Reads (a b : Cursor) : Prop :=
  ∃ passed, a.rest = passed ++ b.rest ∧ b.pos = a.pos.advance passed

namespace Reads

theorem refl (a : Cursor) : Reads a a := ⟨[], rfl, rfl⟩

theorem trans (h : Reads a b) (h' : Reads b c) : Reads a c := by
  obtain ⟨passed, hrest, hpos⟩ := h
  obtain ⟨passed', hrest', hpos'⟩ := h'
  refine ⟨passed ++ passed', ?_, ?_⟩
  · rw [hrest, hrest', List.append_assoc]
  · rw [hpos', hpos, Pos.advance_append]

theorem char (ch : Char) (rest : List Char) (pos : Pos) : Reads ⟨ch :: rest, pos⟩ ⟨rest, pos.next ch⟩ :=
  ⟨[ch], rfl, rfl⟩

/-- At the end of the text the position is the one behind all of it. -/
theorem pos_of_rest_eq_nil (h : Reads a b) (hb : b.rest = []) : b.pos = a.pos.advance a.rest := by
  obtain ⟨passed, hrest, hpos⟩ := h
  rw [hpos, hrest, hb, List.append_nil]

end Reads

theorem reads_readWhile (p : Char → Bool) (c : Cursor) : Reads c (c.readWhile p).2 :=
  ⟨_, (c.readWhile_append_rest p).symm, rfl⟩

theorem reads_skipLayoutFrom (comment : Bool) (text : List Char) (pos : Pos) :
    Reads ⟨text, pos⟩ (skipLayoutFrom comment text pos) := by
  induction text generalizing comment pos with
  | nil => exact .refl _
  | cons ch rest ih =>
    have skipped (comment : Bool) :=
      (Reads.char ch rest pos).trans (ih comment (pos.next ch))
    simp only [skipLayoutFrom]
    split
    · exact skipped _
    · split
      · exact skipped _
      · split
        · exact skipped _
        · exact .refl _

theorem reads_skipLayout (c : Cursor) : Reads c c.skipLayout := reads_skipLayoutFrom false _ _

theorem reads_readNumber (c : Cursor) : Reads c (readNumber c).2 := by
  have whole := reads_readWhile isDigit c
  simp only [readNumber]
  split
  · rename_i rest hrest
    have point : Reads (c.readWhile isDigit).2 ⟨rest, (c.readWhile isDigit).2.pos.next '.'⟩ :=
      ⟨['.'], hrest, rfl⟩
    exact (whole.trans point).trans (reads_readWhile isDigit _)
  · exact whole

theorem reads_readWord (c : Cursor) : Reads c (readWord c).2 := by
  have word := reads_readWhile isNamePart c
  simp only [readWord]
  split <;> exact word

theorem reads_readOperator (c : Cursor) : Reads c (readOperator c).2 :=
  reads_readWhile isOperatorChar c

/-- Where a quoted text gets to: behind its closing quote, or to the end of the source. -/
theorem reads_readText (escaped : Bool) (found text : List Char) (pos : Pos) :
    (∃ content b, readText escaped found text pos = .ok (content, b) ∧ Reads ⟨text, pos⟩ b) ∨
      readText escaped found text pos = .error (pos.advance text) := by
  induction text generalizing escaped found pos with
  | nil => exact .inr rfl
  | cons ch rest ih =>
    have further (escaped : Bool) (found : List Char) :
        (∃ content b, readText escaped found rest (pos.next ch) = .ok (content, b) ∧
          Reads ⟨ch :: rest, pos⟩ b) ∨
        readText escaped found rest (pos.next ch) = .error (pos.advance (ch :: rest)) :=
      (ih escaped found (pos.next ch)).imp_left fun ⟨content, b, hread, hreads⟩ =>
        ⟨content, b, hread, (Reads.char ch rest pos).trans hreads⟩
    simp only [readText]
    split
    · exact further _ _
    · split
      · exact further _ _
      · split
        · exact .inl ⟨_, _, rfl, .char ch rest pos⟩
        · exact further _ _

end Cursor

/-! ### One token -/

namespace Scan

/-- What looking for a token comes to when it is looked for right at the cursor: a token from there;
the end of the text; a character that starts none; or a quoted text up to the end. -/
inductive From (c : Cursor) : Scan → Prop where
  | token {t : Token} {b : Cursor} : t.pos = c.pos → c.Reads b → From c (.token t b)
  | finished : c.rest = [] → From c (.finished c)
  | unknown {ch : Char} {rest : List Char} : c.rest = ch :: rest → From c (.unknown ch c)
  | unclosed {rest : List Char} {b : Cursor} : c.rest = '"' :: rest → c.Reads b → b.rest = [] →
    From c (.unclosed b)

end Scan

theorem Cursor.reads_scanHere (c : Cursor) : c.scanHere.From c := by
  obtain ⟨text, pos⟩ := c
  cases text with
  | nil => exact .finished rfl
  | cons ch rest =>
    simp only [scanHere]
    split
    · rename_i hquote
      subst hquote
      rcases reads_readText false [] rest (pos.next '"') with ⟨content, b, h, hreads⟩ | h
      · rw [h]
        exact .token rfl ((Reads.char _ rest pos).trans hreads)
      · rw [h]
        exact .unclosed rfl ⟨'"' :: rest, by simp, rfl⟩ rfl
    · split
      · exact .token rfl (reads_readNumber _)
      · split
        · exact .token rfl (reads_readWord _)
        · split
          · exact .token rfl (.char ch rest pos)
          · split
            · exact .token rfl (reads_readOperator _)
            · exact .unknown rfl

/-! ### All tokens -/

variable {source : String}

/-- The token is what the text holds at the token's position. -/
def StandsAt (source : String) (t : Token) : Prop :=
  ∃ before after rest, source.toList = before ++ after ∧ t.pos = Pos.start.advance before ∧
    Cursor.scanHere ⟨after, t.pos⟩ = .token t rest

/-- Looking for tokens comes to a halt with the failure. It complains about a character that starts
no token, at the position of that character; or about a quoted text that was begun, at the end of
the source. -/
inductive HaltsAt (source : String) : Error → Prop where
  | unknown {before after : List Char} {ch : Char} {c : Cursor} :
    source.toList = before ++ ch :: after →
    Cursor.scanHere ⟨ch :: after, Pos.start.advance before⟩ = .unknown ch c →
      HaltsAt source (.malformed (.unknownCharacter ch) (Pos.start.advance before))
  | unclosed {before after : List Char} {c : Cursor} : source.toList = before ++ '"' :: after →
    Cursor.scanHere ⟨'"' :: after, Pos.start.advance before⟩ = .unclosed c →
      HaltsAt source (.malformed .unclosedText (Pos.start.advance source.toList))

namespace TokenStream

/-- What is read next stands where it says, and reading gets on from there. -/
inductive Found (source : String) : Except Error (Option Token) × Cursor → Prop where
  | token {t : Token} {c : Cursor} : StandsAt source t → (Cursor.ofString source).Reads c →
    Found source (.ok (some t), c)
  | finished {c : Cursor} : c.pos = Pos.start.advance source.toList → Found source (.ok none, c)
  | halted {e : Error} {c : Cursor} : HaltsAt source e → Found source (.error e, c)

theorem found_read {c : Cursor} (h : (Cursor.ofString source).Reads c) :
    Found source (read c) := by
  have here := h.trans c.reads_skipLayout
  simp only [read, Cursor.scan]
  generalize c.skipLayout = c at here ⊢
  have scanned := c.reads_scanHere
  obtain ⟨text, pos⟩ := c
  obtain ⟨before, hrest, hpos⟩ := id here
  cases hscan : Cursor.scanHere ⟨text, pos⟩ with
  | token t b =>
    rw [hscan] at scanned
    cases scanned with
    | token ht hb =>
      refine .token ⟨before, text, b, hrest, ht.trans hpos, ?_⟩ (here.trans hb)
      rw [ht]
      exact hscan
  | finished b =>
    rw [hscan] at scanned
    cases scanned with
    | finished hend => exact .finished (here.pos_of_rest_eq_nil hend)
  | unknown ch b =>
    rw [hscan] at scanned
    cases scanned with
    | unknown hch =>
      cases hch
      cases hpos
      exact .halted (.unknown hrest hscan)
  | unclosed b =>
    rw [hscan] at scanned
    cases scanned with
    | unclosed hquote hb hend =>
      cases hquote
      cases hpos
      have ending := (here.trans hb).pos_of_rest_eq_nil hend
      refine .halted ?_
      rw [ending]
      exact .unclosed hrest hscan

theorem found_next {s : TokenStream} (hs : s.waiting = none)
    (h : (Cursor.ofString source).Reads s.cursor) {r : Except Error (Option Token)}
    {rest : TokenStream} (hnext : s.next = (r, rest)) :
    Found source (r, rest.cursor) ∧ rest.waiting = none := by
  simp only [next, hs, Prod.mk.injEq] at hnext
  obtain ⟨rfl, rfl⟩ := hnext
  exact ⟨found_read h, rfl⟩

/-- All that a stream gives stands where it says. -/
theorem located_drain (s : TokenStream) (hs : s.waiting = none)
    (h : (Cursor.ofString source).Reads s.cursor) :
    (∀ t ∈ s.drain.1, StandsAt source t) ∧
      (∀ pos, s.drain.2 = .finished pos → pos = Pos.start.advance source.toList) ∧
      ∀ e, s.drain.2 = .failed e → HaltsAt source e := by
  fun_induction drain s with
  | case1 s t rest hnext tokens ending hdrain ih =>
    obtain ⟨found, hrest⟩ := found_next hs h hnext
    cases found with
    | token stands hreads =>
      rw [hdrain] at ih
      obtain ⟨htokens, hending⟩ := ih hrest hreads
      exact ⟨List.forall_mem_cons.2 ⟨stands, htokens⟩, hending⟩
  | case2 s rest hnext =>
    obtain ⟨found, hrest⟩ := found_next hs h hnext
    cases found with
    | finished hpos =>
      refine ⟨nofun, fun pos hfinished => ?_, nofun⟩
      cases hfinished
      rw [← hpos, TokenStream.pos, hrest]
      rfl
  | case3 s e rest hnext =>
    obtain ⟨found, -⟩ := found_next hs h hnext
    cases found with
    | halted halts =>
      refine ⟨nofun, nofun, fun e' hfailed => ?_⟩
      cases hfailed
      exact halts

end TokenStream

end ScopeLang
