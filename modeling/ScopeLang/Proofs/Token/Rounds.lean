import ScopeLang.Proofs.Token.Lexeme
import ScopeLang.Proofs.Token.Located

/-!
# Looking for a token in rounds

In front of a token blanks and comments may follow each other in any number. They can be passed in
rounds, each past the blanks and one comment behind them, until no comment is there. A round that is
not the last passes at least the sign of a comment, so there are no more rounds than characters, and
one.

## Main definitions

* `Cursor.layoutRound`, `Cursor.scanWithin` — a round, and the next token behind so many of them.

## Main statements

* `Cursor.scanWithin_eq` — enough rounds find what is found by looking for the next token.
* `TokenStream.read_passes` — every token that is read takes a character.
-/

namespace ScopeLang

namespace Cursor

variable {c c' : Cursor}

/-- Behind the next line break, or at the end of the text. -/
def skipLine (c : Cursor) : Cursor := (c.readWhile (· != '\n')).2.next.2

def skipBlanks (c : Cursor) : Cursor := (c.readWhile isBlank).2

/-- A round past layout: blanks, and a comment if one comes next. -/
def layoutRound (c : Cursor) : ForInStep Cursor :=
  if c.skipBlanks.peek? = some '#' then .yield c.skipBlanks.skipLine else .done c.skipBlanks

/-- The next token, if so many rounds are enough to come to it. -/
def scanWithin : (rounds : Nat) → Cursor → Option Scan
  | 0, _ => none
  | k + 1, c =>
    match c.layoutRound with
    | .yield c => scanWithin k c
    | .done c => some c.scanHere

theorem skipLayout_skipBlanks (c : Cursor) : c.skipBlanks.skipLayout = c.skipLayout := by
  obtain ⟨text, pos⟩ := c
  induction text generalizing pos with
  | nil => rfl
  | cons ch text ih =>
    by_cases hblank : isBlank ch = true
    · have further := ih (pos.next ch)
      simp only [skipLayout, skipBlanks, readWhile] at further ⊢
      simp [skipLayoutFrom, hblank, further]
    · simp [skipBlanks, readWhile, hblank]

theorem skipLayout_skipLine (text : List Char) (pos : Pos) :
    (skipLine ⟨text, pos⟩).skipLayout = skipLayoutFrom true text pos := by
  induction text generalizing pos with
  | nil => rfl
  | cons ch text ih =>
    by_cases hbreak : ch = '\n'
    · subst hbreak
      rfl
    · have further := ih (pos.next ch)
      have go : (ch != '\n') = true := bne_iff_ne.2 hbreak
      simp only [skipLine, readWhile] at further ⊢
      simp [skipLayoutFrom, go, further]

/-- The sign of a comment is no line break. -/
theorem length_rest_skipLine_lt (text : List Char) (pos : Pos) :
    (skipLine ⟨'#' :: text, pos⟩).rest.length < ('#' :: text).length := by
  have first := length_rest_readWhile_lt (p := (· != '\n')) text pos (by decide : ('#' != '\n') = true)
  refine Nat.lt_of_le_of_lt ?_ first
  rw [skipLine, next]
  split
  · exact Nat.le_refl _
  · rename_i hrest
    rw [hrest]
    exact Nat.le_succ _

/-- A round that is not the last passes the sign of a comment. -/
theorem length_rest_of_layoutRound (h : c.layoutRound = .yield c') :
    c'.rest.length < c.rest.length := by
  unfold layoutRound at h
  split at h
  · rename_i hsign
    cases h
    have blanks : c.skipBlanks.rest.length ≤ c.rest.length := length_dropWhile_le _ _
    generalize c.skipBlanks = here at hsign blanks
    obtain ⟨text, pos⟩ := here
    obtain ⟨text, rfl⟩ := List.head?_eq_some_iff.1 hsign
    exact Nat.lt_of_lt_of_le (length_rest_skipLine_lt text pos) blanks
  · cases h

/-- A round that is not the last passes layout. -/
theorem skipLayout_of_yield (h : c.layoutRound = .yield c') : c'.skipLayout = c.skipLayout := by
  unfold layoutRound at h
  split at h
  · rename_i hsign
    cases h
    rw [← skipLayout_skipBlanks c]
    generalize c.skipBlanks = here at hsign
    obtain ⟨text, pos⟩ := here
    obtain ⟨text, rfl⟩ := List.head?_eq_some_iff.1 hsign
    exact skipLayout_skipLine _ pos
  · cases h

/-- Behind the last round there is no more layout. -/
theorem skipLayout_of_done (h : c.layoutRound = .done c') : c.skipLayout = c' := by
  unfold layoutRound at h
  split at h
  · cases h
  · rename_i hsign
    cases h
    have past : PastLayout c.skipBlanks.rest := by
      intro ch hch
      refine ⟨?_, fun hsharp => hsign (hsharp ▸ hch)⟩
      have noBlank := List.head?_dropWhile_not isBlank c.rest
      rw [show (c.rest.dropWhile isBlank).head? = some ch from hch] at noBlank
      exact noBlank
    rw [← skipLayout_skipBlanks c]
    exact skipLayoutFrom_layout .nil past _

theorem scanWithin_eq {rounds : Nat} (enough : c.rest.length < rounds) :
    c.scanWithin rounds = some c.scan := by
  induction rounds generalizing c with
  | zero => exact absurd enough (Nat.not_lt_zero _)
  | succ k ih =>
    rw [scanWithin]
    cases h : c.layoutRound with
    | yield c' =>
      have shorter := length_rest_of_layoutRound h
      rw [scan, ← skipLayout_of_yield h]
      exact ih (by omega)
    | done c' => rw [scan, skipLayout_of_done h]

end Cursor

/-- A token that is read takes at least one character from the text. -/
theorem TokenStream.read_passes {c c' : Cursor} {t : Token} (h : read c = (.ok (some t), c')) :
    ∃ passed, passed ≠ [] ∧ c.rest = passed ++ c'.rest := by
  unfold read at h
  split at h <;> cases h
  rename_i hscan
  have shorter := Cursor.length_rest_scan_lt hscan
  have here := c.skipLayout.reads_scanHere
  rw [show c.skipLayout.scanHere = _ from hscan] at here
  cases here with
  | token _ reads =>
    obtain ⟨passed, hpassed, -⟩ := c.reads_skipLayout.trans reads
    refine ⟨passed, ?_, hpassed⟩
    rintro rfl
    exact Nat.ne_of_lt shorter (congrArg List.length hpassed.symm)

end ScopeLang
