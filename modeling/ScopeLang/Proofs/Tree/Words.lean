import ScopeLang.Proofs.Tree.Completeness
import ScopeLang.Proofs.Tree.Wording

/-!
# The words of a source

The reader puts every word that it takes into a tree, once and in order. What it has taken lies in
its finished expressions, then on its stack from the bottom to the top, then in what it is about to
continue; read off in this order, the words grow with each token by what the token says. Marks and
the words of conditionals and lambdas say nothing, and an empty block says `false` when it is
closed.

## Main definitions

* `TokenKind.said`, `saidAll` — what a token says, and what all tokens of a text say.
* `Parser.words` — the words that the reader has taken.

## Main statements

* `Parser.hears_feed` — a token adds what it says.
* `words_of_parse` — a program has the words of its source.
-/

namespace ScopeLang

open TokenKind (mark keyword operator)

/-! ### What tokens say -/

/-- What a token adds to the words of a tree; `opened` tells that it follows the opening mark of a
block. -/
@[simp] def TokenKind.said (opened : Bool) : TokenKind → List TokenKind
  | number x => [number x]
  | text s => [text s]
  | name x => [name x]
  | operator s => [operator s]
  | keyword .trueWord => [keyword .trueWord]
  | keyword .falseWord => [keyword .falseWord]
  | mark .closeBrace => if opened then [keyword .falseWord] else []
  | keyword _ | mark _ => []

@[simp] def TokenKind.opensBlock : TokenKind → Bool
  | mark .openBrace => true
  | _ => false

/-- What a sequence of tokens says. -/
def saidAll (opened : Bool) : List TokenKind → List TokenKind
  | [] => []
  | k :: ks => k.said opened ++ saidAll k.opensBlock ks

theorem TokenKind.mem_of_mem_said {k w : TokenKind} {opened : Bool} (h : w ∈ k.said opened) :
    w = k ∨ w = keyword .falseWord := by
  unfold said at h
  split at h <;> simp_all

/-- What is said is one of the tokens, or the `false` of an empty block. -/
theorem mem_of_mem_saidAll {ks : List TokenKind} {w : TokenKind} {opened : Bool}
    (h : w ∈ saidAll opened ks) : w ∈ ks ∨ w = keyword .falseWord := by
  induction ks generalizing opened with
  | nil => cases h
  | cons k ks ih =>
    rcases List.mem_append.1 h with h | h
    · refine (TokenKind.mem_of_mem_said h).imp_left ?_
      rintro rfl
      exact List.mem_cons_self
    · exact (ih h).imp_left (List.mem_cons_of_mem k)

/-! ### Words of trees -/

namespace Node

theorem wordsAll_eq_flatMap (ns : List Node) : wordsAll ns = ns.flatMap words := by
  induction ns with
  | nil => rfl
  | cons n ns ih => rw [wordsAll, ih, List.flatMap_cons]

@[simp] theorem wordsAll_append (ns ms : List Node) :
    wordsAll (ns ++ ms) = wordsAll ns ++ wordsAll ms := by
  simp [wordsAll_eq_flatMap]

@[simp] theorem words_join (c : Connective) (l r : Node) :
    (join c l r).words = l.words ++ operator c.symbol :: r.words := by
  cases c <;> rfl

/-- A block says what its items say, unless it has none. -/
theorem words_block {ns : List Node} (h : ns ≠ []) : (block ns).words = wordsAll ns := by
  match ns, h with
  | [n], _ => simp [block, wordsAll]
  | _ :: _ :: _, _ => rfl

end Node

open Node (wordsAll)

/-! ### Words on the stack -/

@[simp] def Listed.words : Listed → List TokenKind
  | block => []
  | args callee => callee.words

/-- The words in front of the expression that the phrase waits for. -/
@[simp] def Pending.words : Pending → List TokenKind
  | operand left c => left.words ++ [operator c.symbol]
  | group | test => []
  | item list done => list.words ++ wordsAll done.reverse
  | yes c => c.words
  | no c y => c.words ++ y.words
  | body ps => ps.map .name

/-- The words of pending phrases from the outermost to the innermost. -/
@[simp] def Pending.wordsAll : List Pending → List TokenKind
  | [] => []
  | x :: σ => wordsAll σ ++ x.words

@[simp] def Expecting.words : Expecting → List TokenKind
  | programItem | operand | paramsOpen | firstParam => []
  | firstItem list => list.words
  | laterItem list done => list.words ++ Node.wordsAll done.reverse
  | continuation n => n.words
  | laterParam names | paramEnd names => names.reverse.map .name

/-- Is the list a block without items so far? -/
@[simp] def Listed.isEmptyBlock : Listed → List Node → Bool
  | block, [] => true
  | _, _ => false

@[simp] def Expecting.isEmptyBlock : Expecting → Bool
  | firstItem list => list.isEmptyBlock []
  | laterItem list done => list.isEmptyBlock done
  | _ => false

namespace Parser

/-- The words that the reader has taken. -/
def words (p : Parser) : List TokenKind :=
  wordsAll p.done.reverse ++ (Pending.wordsAll p.stack ++ p.expecting.words)

/-- Behind the token the reader has the words `before` and what the token says. -/
structure Hears (before : List TokenKind) (opened : Bool) (t : Token) (q : Parser) : Prop where
  words : q.words = before ++ t.kind.said opened
  isEmptyBlock : q.expecting.isEmptyBlock = t.kind.opensBlock

variable {p q : Parser} {done : List Node} {σ : List Pending} {n : Node} {t : Token}

/-! ### One token -/

theorem hears_startOperand (h : startOperand done σ t = .ok q) (opened : Bool) :
    Hears (wordsAll done.reverse ++ Pending.wordsAll σ) opened t q := by
  unfold startOperand at h
  split at h <;> rename_i hk <;> cases h <;> constructor <;> simp [hk, words, Node.words]

/-- A finished list says what its items say, or `false` for an empty block. -/
theorem words_build (l : Listed) (items : List Node) : (l.build items.reverse).words =
    l.words ++ wordsAll items.reverse ++ (mark l.closer).said (l.isEmptyBlock items) := by
  cases l with
  | args callee => simp [Listed.build, Listed.closer, Node.words]
  | block =>
    cases items with
    | nil => rfl
    | cons n items =>
      have some : (n :: items).reverse ≠ [] := by simp
      simpa [Listed.closer, Listed.build] using Node.words_block some

theorem hears_closer (done : List Node) (σ : List Pending) (l : Listed) (items : List Node)
    (ht : t.kind = mark l.closer) :
    Hears (wordsAll done.reverse ++ (Pending.wordsAll σ ++ (l.words ++ wordsAll items.reverse)))
      (l.isEmptyBlock items) t ⟨done, σ, .continuation (l.build items.reverse)⟩ where
  words := by simp [words, words_build, ht]
  isEmptyBlock := by cases l <;> simp [ht, Listed.closer]

theorem hears_itemOrCloser {l : Listed} {items : List Node}
    (h : itemOrCloser done σ l items t = .ok q) :
    Hears (wordsAll done.reverse ++ (Pending.wordsAll σ ++ (l.words ++ wordsAll items.reverse)))
      (l.isEmptyBlock items) t q := by
  have begins (h : startOperand done (.item l items :: σ) t = .ok q) :
      Hears (wordsAll done.reverse ++ (Pending.wordsAll σ ++ (l.words ++ wordsAll items.reverse)))
        (l.isEmptyBlock items) t q := hears_startOperand h (l.isEmptyBlock items)
  unfold itemOrCloser at h
  split at h
  · rename_i m hk
    split at h
    · rename_i hm
      cases h
      exact hears_closer done σ l items (hm ▸ hk)
    · exact begins h
  · exact begins h

theorem hears_paramOrCloser {names : List String} (h : paramOrCloser done σ names t = .ok q) :
    Hears (wordsAll done.reverse ++ (Pending.wordsAll σ ++ names.reverse.map .name)) false t q := by
  unfold paramOrCloser at h
  split at h <;> rename_i hk <;> cases h <;> constructor <;> simp [hk, words]

/-- Joining operands does not change the order of the words. -/
theorem wordsAll_reduce (k : Nat) (n : Node) (σ : List Pending) :
    Pending.wordsAll (reduce k n σ).2 ++ (reduce k n σ).1.words = Pending.wordsAll σ ++ n.words := by
  fun_induction reduce k n σ with
  | case1 n left op σ hk ih => simp [ih, Node.words, Connective.symbol]
  | case2 | case3 => rfl

theorem hears_settle (h : settle done t n σ = .ok q) :
    Hears (wordsAll done.reverse ++ (Pending.wordsAll σ ++ n.words)) false t q := by
  induction σ generalizing n with
  | nil =>
    simp only [settle] at h
    split at h <;> cases h
    rename_i hk
    constructor <;> simp [hk, words, Node.wordsAll]
  | cons x σ ih =>
    cases x with
    | operand left c => simpa using ih h
    | no test yes => simpa [Node.words] using ih h
    | body ps => simpa [Node.words] using ih h
    | yes test =>
      simp only [settle] at h
      split at h
      · rename_i hk
        cases h
        constructor <;> simp [hk, words]
      · simpa [Node.words] using ih h
    | group | test =>
      simp only [settle] at h
      split at h <;> cases h <;> rename_i hk <;> constructor <;> simp [hk, words]
    | item l items =>
      simp only [settle] at h
      split at h
      · rename_i m hk
        split at h
        · rename_i hm
          cases h
          have closer := hears_closer done σ l (n :: items) (hm ▸ hk)
          simpa [Node.wordsAll] using closer
        · split at h <;> cases h
          rename_i hm
          have separates : t.kind = mark l.separator := hm ▸ hk
          cases l <;> constructor <;> simp [separates, words, Listed.separator, Node.wordsAll]
      · cases h

theorem hears_continueWith (h : continueWith done σ n t = .ok q) :
    Hears (wordsAll done.reverse ++ (Pending.wordsAll σ ++ n.words)) false t q := by
  unfold continueWith at h
  split at h
  · rename_i hk
    cases h
    constructor <;> simp [hk, words]
  · rename_i s hk
    split at h
    · cases h
    · rename_i c hc
      cases h
      have joined := wordsAll_reduce c.precedence n σ
      constructor <;> simp [hk, words, Connective.symbol_of_ofSymbol? hc, ← joined]
  · exact hears_settle h

/-- A token adds what it says. -/
theorem hears_feed (h : p.feed t = .ok q) : Hears p.words p.expecting.isEmptyBlock t q := by
  obtain ⟨done, σ, expecting⟩ := p
  cases expecting with
  | programItem | operand =>
    have := hears_startOperand h false
    simpa [words] using this
  | firstItem l =>
    have := hears_itemOrCloser h
    simpa [words, wordsAll] using this
  | laterItem l items => exact hears_itemOrCloser h
  | continuation n => exact hears_continueWith h
  | firstParam => exact hears_paramOrCloser h
  | laterParam names => exact hears_paramOrCloser h
  | paramsOpen | paramEnd =>
    simp only [feed] at h
    split at h <;> cases h <;> rename_i hk <;> constructor <;> simp [hk, words]

/-! ### The end of the input -/

theorem words_settleEnd {items : List Node} (h : settleEnd done n σ = .ok items) :
    wordsAll items = wordsAll done.reverse ++ (Pending.wordsAll σ ++ n.words) := by
  induction σ generalizing n with
  | nil =>
    cases h
    simp [Node.wordsAll]
  | cons x σ ih =>
    cases x with
    | operand left c => simpa using ih h
    | yes | no | body => simpa [Node.words] using ih h
    | group | item | test => cases h

theorem words_finish {w : List TokenKind} (spells : p.Spells w) {pos : Pos} {tree : Node}
    (h : p.finish pos = .ok tree) : tree.words = p.words := by
  obtain ⟨done, σ, expecting⟩ := p
  cases expecting with
  | programItem =>
    -- between two items of the program nothing is pending
    obtain ⟨rfl, -⟩ : σ = [] ∧ _ := spells
    cases h
    simp [words, Node.words]
  | continuation n =>
    simp only [finish] at h
    split at h
    · rename_i items hitems
      cases h
      exact words_settleEnd hitems
    · cases h
  | _ => cases h

/-- What is read to its end has the words that were taken before and what the tokens say. -/
theorem words_readAll {w : List TokenKind} (spells : p.Spells w) {tokens : List Token} {pos : Pos}
    {tree : Node} (h : p.readAll tokens (.finished pos) = .ok tree) :
    tree.words = p.words ++ saidAll p.expecting.isEmptyBlock (tokens.map Token.kind) := by
  induction tokens generalizing p w with
  | nil => simpa [saidAll] using words_finish spells h
  | cons t tokens ih =>
    simp only [readAll] at h
    split at h
    · rename_i q hq
      -- whether a block was just opened is known from the token before
      have hears := hears_feed hq
      rw [ih (spells.feed hq) h, hears.words, hears.isEmptyBlock, List.map_cons, saidAll,
        List.append_assoc]
    · cases h

end Parser

/-- A program has the words of its source. -/
theorem words_of_parse {source : String} {tree : Node} (h : parse source = .ok tree) :
    ∃ tokens pos, (TokenStream.ofString source).drain = (tokens, .finished pos) ∧
      tree.words = saidAll false (tokens.map Token.kind) := by
  rw [parse, TokenStream.parse, Parser.run_fst] at h
  cases hdrain : (TokenStream.ofString source).drain with
  | mk tokens ending =>
    rw [hdrain] at h
    cases ending with
    | failed e => exact absurd h (Parser.readAll_failed_ne_ok _ _ e tree)
    | finished pos =>
      have start : Parser.Spells {} [] := ⟨rfl, .nil⟩
      exact ⟨tokens, pos, rfl, Parser.words_readAll start h⟩

end ScopeLang
