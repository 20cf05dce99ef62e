import Mathlib.Data.List.Permutation
import ScopeLang.Proofs.Tree.Blame

/-!
# Reading on demand

The reader asks for one token after the other, and each is looked for in the text only then. This
comes to the same as finding all tokens first and reading them afterwards. A text whose tokens end
with a failure is never a program: the reader fails with that failure unless it refuses one of the
tokens before. And of the tokens nothing matters but their kinds.

## Main definitions

* `tokensOf` — all tokens of a text, and how they end.
* `Counterparts` — one tree, or failures with one report at the same place.

## Main statements

* `counterparts_readAll` — tokens of the same kinds are read alike.
* `parse_on_demand` — reading a text is reading its tokens.
-/

namespace ScopeLang

/-- All tokens of a text, and how they end. -/
def tokensOf (source : String) : List Token × Ending := (TokenStream.ofString source).drain

theorem parse_eq_readAll (source : String) :
    parse source = Parser.readAll {} (tokensOf source).1 (tokensOf source).2 :=
  Parser.run_fst {} (.ofString source)

/-- Positions of tokens with the same number, or the positions where two texts end. -/
inductive SamePlace (tokens tokens' : List Token) (pos pos' : Pos) : Option Pos → Option Pos → Prop
    where
  | token {k : Nat} {t t' : Token} : tokens[k]? = some t → tokens'[k]? = some t' →
    SamePlace tokens tokens' pos pos' (some t.pos) (some t'.pos)
  | ending : SamePlace tokens tokens' pos pos' (some pos) (some pos')

/-- Two texts, with their tokens and the positions where they end, are read as one tree, or they are
refused with one report at the same place. -/
inductive Counterparts (tokens tokens' : List Token) (pos pos' : Pos) :
    Except Error Node → Except Error Node → Prop where
  | tree (n : Node) : Counterparts tokens tokens' pos pos' (.ok n) (.ok n)
  | report {e e' : Error} : e.SameReport e' → SamePlace tokens tokens' pos pos' e.pos? e'.pos? →
    Counterparts tokens tokens' pos pos' (.error e) (.error e')

namespace Parser

/-- Tokens of the same kinds are read alike. -/
theorem counterparts_readAll (p : Parser) {tokens tokens' : List Token}
    (h : tokens.map Token.kind = tokens'.map Token.kind) (pos pos' : Pos) :
    Counterparts tokens tokens' pos pos' (p.readAll tokens (.finished pos))
      (p.readAll tokens' (.finished pos')) := by
  have reading := p.reading_readAll tokens (.finished pos)
  generalize p.readAll tokens (.finished pos) = r at reading
  cases reading with
  | @refused before after t q f _ htokens htakes hf =>
    rw [htokens, List.map_append, List.map_cons] at h
    obtain ⟨before', rest', rfl, hbefore, hrest⟩ := List.append_eq_map_iff.1 h
    obtain ⟨t', after', rfl, hkind, -⟩ := List.map_eq_cons_iff.1 hrest
    obtain ⟨f', hf', same, hpos, hpos'⟩ := feed_eq_error hf hkind.symm
    rw [htakes.readAll_refused hbefore hf']
    have length : before'.length = before.length := by simpa using congrArg List.length hbefore
    refine .report same ?_
    rw [hpos, hpos']
    exact .token (k := before.length) (by simp [htokens]) (by simp [← length])
  | @finished q _ htakes =>
    rw [htakes.readAll_eq h.symm]
    rcases q.finish_cases with ⟨tree, hfinish⟩ | ⟨complaint, hfinish⟩
    · rw [hfinish, hfinish]
      exact .tree tree
    · rw [hfinish, hfinish]
      exact .report (Error.sameReport_malformed complaint pos pos') .ending

/-- Behind tokens that end with a failure the reader fails with it, or it refuses one of the tokens,
whatever would come behind them. -/
theorem readAll_failed (p : Parser) (tokens : List Token) (e : Error) :
    p.readAll tokens (.failed e) = .error e ∨
      ∃ e', p.readAll tokens (.failed e) = .error e' ∧ (∃ t ∈ tokens, e'.pos? = some t.pos) ∧
        ∀ more ending, p.readAll (tokens ++ more) ending = .error e' := by
  have reading := p.reading_readAll tokens (.failed e)
  generalize p.readAll tokens (.failed e) = r at reading
  cases reading with
  | failed => exact .inl rfl
  | @refused before after t q f _ htokens htakes hf =>
    obtain ⟨_, -, -, hpos, -⟩ := feed_eq_error hf rfl
    refine .inr ⟨f.error, rfl, ⟨t, by simp [htokens], hpos⟩, fun more ending => ?_⟩
    rw [htokens, List.append_assoc, List.cons_append]
    exact htakes.readAll_refused rfl hf (after ++ more) ending

end Parser

/-- A text is read as its tokens are. If it is a program, it consists of tokens throughout. If its
tokens end with a failure, that is what reading it comes to, unless one of the tokens is refused
whatever would come behind them. And texts that consist of tokens of the same kinds are read
alike. -/
theorem parse_on_demand (source : String) :
    parse source = Parser.readAll {} (tokensOf source).1 (tokensOf source).2 ∧
    (∀ tree, parse source = .ok tree → ∃ pos, (tokensOf source).2 = .finished pos) ∧
    (∀ e, (tokensOf source).2 = .failed e → parse source = .error e ∨
      ∃ e', parse source = .error e' ∧ (∃ t ∈ (tokensOf source).1, e'.pos? = some t.pos) ∧
        ∀ more ending, Parser.readAll {} ((tokensOf source).1 ++ more) ending = .error e') ∧
    ∀ source' pos pos', (tokensOf source).2 = .finished pos →
      (tokensOf source').2 = .finished pos' →
        (tokensOf source).1.map Token.kind = (tokensOf source').1.map Token.kind →
          Counterparts (tokensOf source).1 (tokensOf source').1 pos pos' (parse source)
            (parse source') := by
  refine ⟨parse_eq_readAll source, fun tree htree => ?_, fun e he => ?_, ?_⟩
  · rw [parse_eq_readAll] at htree
    cases hending : (tokensOf source).2 with
    | finished pos => exact ⟨pos, rfl⟩
    | failed e =>
      rw [hending] at htree
      exact absurd htree (Parser.readAll_failed_ne_ok _ _ e tree)
  · rw [parse_eq_readAll, he]
    exact Parser.readAll_failed _ _ e
  · intro source' pos pos' hpos hpos' hkinds
    rw [parse_eq_readAll, parse_eq_readAll, hpos, hpos']
    exact Parser.counterparts_readAll _ hkinds pos pos'

/-- The layout of a text is not looked at. -/
theorem parse_on_demand_layout : ∃ pos pos', Counterparts (tokensOf "a b").1 (tokensOf "a #\n b").1
    pos pos' (parse "a b") (parse "a #\n b") := by
  have h : (tokensOf "a b").2 = .finished ⟨1, 3⟩ := by cbv
  have h' : (tokensOf "a #\n b").2 = .finished ⟨2, 2⟩ := by cbv
  have hkinds : (tokensOf "a b").1.map Token.kind = (tokensOf "a #\n b").1.map Token.kind := by cbv
  exact ⟨_, _, (parse_on_demand "a b").2.2.2 "a #\n b" _ _ h h' hkinds⟩

end ScopeLang
