import ScopeLang.Proofs.Token.Rendering
import ScopeLang.Tree.Printer

/-!
# The tokens of a printed tree

A tree is printed as a text whose tokens follow the tree. Numbers and quoted texts need not be read
as what they were: a number too large for a double is printed as a name, and a quoted text shows
unprintable characters by their code points. All else is read as it was printed, since what stands
behind a word, a number or an operator never continues it.

## Main definitions

* `Node.words` — the numbers, texts, truth values, names and operators of a tree from left to right.
* `Rereading` — what numbers and quoted texts are read as.
* `Node.kinds` — the tokens of a printed tree.

## Main statements

* `Node.lexes_print` — a printed tree consists of these tokens.
-/

namespace ScopeLang

namespace Node

mutual

/-- What a tree says from left to right, without what only groups it. -/
def words : Node → List TokenKind
  | number x => [.number x]
  | text s => [.text s]
  | bool b => [.keyword (if b then .trueWord else .falseWord)]
  | var x => [.name x]
  | assign t v => t.words ++ .operator Connective.assign.symbol :: v.words
  | binary op l r => l.words ++ .operator op.symbol :: r.words
  | ifThen c y => c.words ++ y.words
  | ifElse c y n => c.words ++ (y.words ++ n.words)
  | lambda ps b => ps.map .name ++ b.words
  | call f as => f.words ++ wordsAll as
  | seq xs => wordsAll xs

def wordsAll : List Node → List TokenKind
  | [] => []
  | n :: ns => n.words ++ wordsAll ns

end

end Node

/-- What the texts of numbers and quoted texts are read as. -/
structure Rereading where
  number : Float → TokenKind
  text : String → TokenKind

/-- As the numbers and texts that they stand for. -/
def Rereading.same : Rereading := ⟨.number, .text⟩

/-- A word of a tree is read so when it is printed. -/
def Rereading.Reads (W : Rereading) : TokenKind → Prop
  | .number x => Lexeme (Decimal.plain x).toList (W.number x)
  | .text s => Lexeme (Text.quote s).toList (W.text s)
  | .name x => isName x = true
  | .keyword _ | .mark _ | .operator _ => True

namespace Node

/-- Names with commas between them. -/
def kindsNames : List String → List TokenKind
  | [] => []
  | [x] => [.name x]
  | x :: xs => .name x :: .mark .comma :: kindsNames xs

mutual

/-- The tokens of a printed tree. -/
def kinds (W : Rereading) : Node → List TokenKind
  | number x => [W.number x]
  | text s => [W.text s]
  | bool b => [.keyword (if b then .trueWord else .falseWord)]
  | var x => [.name x]
  | assign t v => t.kinds W ++ .operator Connective.assign.symbol :: v.kinds W
  | binary op l r => .mark .openParen ::
    (l.kinds W ++ .operator op.symbol :: (r.kinds W ++ [.mark .closeParen]))
  | ifThen c y => .keyword .ifWord :: (c.kinds W ++ .keyword .thenWord :: y.kinds W)
  | ifElse c y n => .keyword .ifWord :: (c.kinds W ++ .keyword .thenWord ::
    (y.kinds W ++ .keyword .elseWord :: n.kinds W))
  | lambda ps b => .keyword .lambdaWord :: .mark .openParen ::
    (kindsNames ps ++ .mark .closeParen :: b.kinds W)
  | call f as => f.kinds W ++ .mark .openParen :: (kindsList W .comma as ++ [.mark .closeParen])
  | seq xs => .mark .openBrace :: (kindsList W .semicolon xs ++ [.mark .closeBrace])

/-- Trees with a separator between them. -/
def kindsList (W : Rereading) (separator : Mark) : List Node → List TokenKind
  | [] => []
  | n :: ns => n.kinds W ++ kindsTail W separator ns

/-- Trees with a separator in front of each. -/
def kindsTail (W : Rereading) (separator : Mark) : List Node → List TokenKind
  | [] => []
  | n :: ns => .mark separator :: (n.kinds W ++ kindsTail W separator ns)

end

end Node

/-! ### Words of a printed tree -/

namespace Lexes

variable {rest : List Char} {ks : List TokenKind}

theorem parted_mark (m : Mark) (rest : List Char) : Parted (m.char :: rest) :=
  parted_cons rest (by cases m <;> decide)

theorem parted_space (rest : List Char) : Parted (' ' :: rest) := parted_cons rest (by decide)

theorem space (h : Lexes rest ks) : Lexes (' ' :: rest) ks := h.blank (by decide)

theorem name {x : String} (hx : isName x = true) (parted : Parted rest) (h : Lexes rest ks) :
    Lexes (Node.spellText x rest) (.name x :: ks) :=
  h.word (lexeme_name hx) ((lexeme_name hx).longest parted)

theorem keyword (k : Keyword) (parted : Parted rest) (h : Lexes rest ks) :
    Lexes (Node.spellText k.spelling rest) (.keyword k :: ks) :=
  h.word (lexeme_keyword k) ((lexeme_keyword k).longest parted)

theorem operator (c : Connective) (h : Lexes rest ks) :
    Lexes (Node.spellText c.symbol (' ' :: rest)) (.operator c.symbol :: ks) := by
  have writable : (TokenKind.operator c.symbol).isWritable = true := by
    cases c with
    | assign => decide
    | binary op => cases op <;> decide
  have lexeme := lexeme_written writable
  exact h.space.word lexeme (lexeme.longest (parted_space rest))

end Lexes

namespace Node

variable {W : Rereading}

theorem parted_spellTail (m : Mark) (ns : List Node) {rest : List Char} (parted : Parted rest) :
    Parted (spellTail m.char ns rest) := by
  cases ns with
  | nil => exact parted
  | cons n ns => exact Lexes.parted_mark m _

theorem lexes_spellNames {ps : List String} {rest : List Char} {ks : List TokenKind}
    (hps : ∀ x ∈ ps, isName x = true) (parted : Parted rest) (h : Lexes rest ks) :
    Lexes (spellNames ps rest) (kindsNames ps ++ ks) := by
  induction ps with
  | nil => exact h
  | cons x xs ih =>
    obtain ⟨hx, hxs⟩ := List.forall_mem_cons.1 hps
    cases xs with
    | nil => exact .name hx parted h
    | cons y ys => exact .name hx (Lexes.parted_mark .comma _) (.mark .comma (.space (ih hxs)))

mutual

/-- A tree in front of a text that does not continue its last word. -/
theorem lexes_spell : (n : Node) → (∀ k ∈ n.words, W.Reads k) → ∀ {rest ks}, Parted rest →
    Lexes rest ks → Lexes (n.spell rest) (n.kinds W ++ ks)
  | .number x, hn, rest, ks, parted, h => by
    have lexeme : Lexeme (Decimal.plain x).toList (W.number x) := hn (.number x) (by simp [words])
    exact h.word lexeme (lexeme.longest parted)
  | .text s, hn, rest, ks, parted, h => by
    have lexeme : Lexeme (Text.quote s).toList (W.text s) := hn (.text s) (by simp [words])
    exact h.word lexeme (lexeme.longest parted)
  | .bool b, _, rest, ks, parted, h => by
    cases b with
    | true => exact .keyword .trueWord parted h
    | false => exact .keyword .falseWord parted h
  | .var x, hn, rest, ks, parted, h => .name (hn (.name x) (by simp [words])) parted h
  | .assign t v, hn, rest, ks, parted, h => by
    simp only [words, List.forall_mem_append, List.forall_mem_cons] at hn
    have value := lexes_spell v hn.2.2 parted h
    have whole : Lexes ((assign t v).spell rest) _ :=
      lexes_spell t hn.1 (Lexes.parted_space _) (.space (.operator .assign value))
    simpa [kinds] using whole
  | .binary op l r, hn, rest, ks, parted, h => by
    simp only [words, List.forall_mem_append, List.forall_mem_cons] at hn
    have right := lexes_spell r hn.2.2 (Lexes.parted_mark .closeParen _) (.mark .closeParen h)
    have left := lexes_spell l hn.1 (Lexes.parted_space _) (.space (.operator (.binary op) right))
    have whole : Lexes ((binary op l r).spell rest) _ := .mark .openParen left
    simpa [kinds, Connective.symbol] using whole
  | .ifThen c y, hn, rest, ks, parted, h => by
    simp only [words, List.forall_mem_append] at hn
    have yes := lexes_spell y hn.2 parted h
    have test := lexes_spell c hn.1 (Lexes.parted_space _)
      (.space (.keyword .thenWord (Lexes.parted_space _) (.space yes)))
    have whole : Lexes ((ifThen c y).spell rest) _ :=
      .keyword .ifWord (Lexes.parted_space _) (.space test)
    simpa [kinds] using whole
  | .ifElse c y n, hn, rest, ks, parted, h => by
    simp only [words, List.forall_mem_append] at hn
    have no := lexes_spell n hn.2.2 parted h
    have yes := lexes_spell y hn.2.1 (Lexes.parted_space _)
      (.space (.keyword .elseWord (Lexes.parted_space _) (.space no)))
    have test := lexes_spell c hn.1 (Lexes.parted_space _)
      (.space (.keyword .thenWord (Lexes.parted_space _) (.space yes)))
    have whole : Lexes ((ifElse c y n).spell rest) _ :=
      .keyword .ifWord (Lexes.parted_space _) (.space test)
    simpa [kinds] using whole
  | .lambda ps b, hn, rest, ks, parted, h => by
    simp only [words, List.forall_mem_append, List.forall_mem_map] at hn
    have body := lexes_spell b hn.2 parted h
    have params := lexes_spellNames hn.1 (Lexes.parted_mark .closeParen _)
      (.mark .closeParen (.space body))
    have whole : Lexes ((lambda ps b).spell rest) _ :=
      .keyword .lambdaWord (Lexes.parted_mark .openParen _) (.mark .openParen params)
    simpa [kinds] using whole
  | .call f as, hn, rest, ks, parted, h => by
    simp only [words, List.forall_mem_append] at hn
    have args := lexes_spellList .comma as hn.2 (Lexes.parted_mark .closeParen _) (.mark .closeParen h)
    have whole : Lexes ((call f as).spell rest) _ :=
      lexes_spell f hn.1 (Lexes.parted_mark .openParen _) (.mark .openParen args)
    simpa [kinds] using whole
  | .seq xs, hn, rest, ks, parted, h => by
    have items := lexes_spellList .semicolon xs hn (Lexes.parted_mark .closeBrace _)
      (.mark .closeBrace h)
    have whole : Lexes ((seq xs).spell rest) _ := .mark .openBrace items
    simpa [kinds] using whole

theorem lexes_spellList (m : Mark) : (ns : List Node) → (∀ k ∈ wordsAll ns, W.Reads k) → ∀ {rest ks},
    Parted rest → Lexes rest ks → Lexes (spellList m.char ns rest) (kindsList W m ns ++ ks)
  | [], _, rest, ks, parted, h => h
  | n :: ns, hn, rest, ks, parted, h => by
    simp only [wordsAll, List.forall_mem_append] at hn
    have tail := lexes_spellTail m ns hn.2 parted h
    have whole : Lexes (spellList m.char (n :: ns) rest) _ :=
      lexes_spell n hn.1 (parted_spellTail m ns parted) tail
    simpa [kindsList] using whole

theorem lexes_spellTail (m : Mark) : (ns : List Node) → (∀ k ∈ wordsAll ns, W.Reads k) → ∀ {rest ks},
    Parted rest → Lexes rest ks → Lexes (spellTail m.char ns rest) (kindsTail W m ns ++ ks)
  | [], _, rest, ks, parted, h => h
  | n :: ns, hn, rest, ks, parted, h => by
    simp only [wordsAll, List.forall_mem_append] at hn
    have tail := lexes_spellTail m ns hn.2 parted h
    have first := lexes_spell n hn.1 (parted_spellTail m ns parted) tail
    have whole : Lexes (spellTail m.char (n :: ns) rest) _ := .mark m (.space first)
    simpa [kindsTail] using whole

end

/-- A printed tree consists of its tokens. -/
theorem lexes_print {n : Node} (hn : ∀ k ∈ n.words, W.Reads k) :
    ∃ tokens pos, tokens.map Token.kind = n.kinds W ∧
      (TokenStream.ofString n.print).drain = (tokens, .finished pos) := by
  have lexes := lexes_spell n hn parted_nil .nil
  rw [List.append_nil] at lexes
  obtain ⟨tokens, htokens, hdrain⟩ := lexes.exists_drain
  exact ⟨tokens, _, htokens, hdrain⟩

end Node

end ScopeLang
