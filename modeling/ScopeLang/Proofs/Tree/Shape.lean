import ScopeLang.Proofs.Tree.Phrasing

/-!
# The shape of programs

The tree of a program has the words of its source, each once and in order. What it leaves out can be
told from its phrasing: every part of the tree is the tree of a phrase in the source that is not
just something else in brackets. So a block below the top has two items or more, and a conditional,
a lambda, an assignment or an operation that is called stands in brackets.

## Main definitions

* `Phrasing.isBare` — a phrase that has a tree of its own.
* `Phrasing.Wraps` — a phrase in brackets.

## Main statements

* `PhraseIn.bareIn` — every part of the tree belongs to a bare phrase.
* `tree_keeps_tokens` — what the tree of a program has of its source.
-/

namespace ScopeLang

open TokenKind (mark keyword operator)
open Decimal (magnitude isNegative)

/-! ### Phrases in phrases -/

theorem infix_separated {m : Mark} {ended : Bool} {w : List TokenKind}
    {items : List (List TokenKind)} (h : w ∈ items) : w <:+: separated m ended items := by
  induction items using List.reverseRecOn generalizing ended with
  | nil => cases h
  | append_singleton items v ih =>
    rw [separated_concat]
    rcases List.mem_append.1 h with h | h
    · exact (ih h).trans (List.prefix_append _ _).isInfix
    · obtain rfl := List.mem_singleton.1 h
      exact ⟨separated m true items, _, List.append_assoc _ _ _⟩

theorem Phrasing.infix_kindsAll (m : Mark) (ended : Bool) {e : Phrasing} {es : List Phrasing}
    (h : e ∈ es) : e.kinds <:+: separated m ended (kindsAll es) := by
  rw [kindsAll_eq_map]
  exact infix_separated (List.mem_map_of_mem h)

/-- Does the phrase have a tree of its own? Something in parentheses and a single item between
braces have the tree of what is inside. -/
def Callable.isBare : Callable → Bool
  | .group _ | .block [_] _ => false
  | _ => true

def Phrasing.isBare : Phrasing → Bool
  | .callable c => c.isBare
  | _ => true

/-- A bare phrase with this tree is somewhere in these tokens. -/
def BareIn (w : List TokenKind) (n : Node) : Prop :=
  ∃ e : Phrasing, e.isBare = true ∧ e.tree = n ∧ e.kinds <:+: w

theorem BareIn.of_infix {v w : List TokenKind} {n : Node} (h : BareIn v n) (hv : v <:+: w) :
    BareIn w n := by
  obtain ⟨e, bare, he, hw⟩ := h
  exact ⟨e, bare, he, hw.trans hv⟩

mutual

/-- Without the brackets around it a phrase is bare. -/
theorem Callable.bareIn_self : (c : Callable) → BareIn c.kinds c.tree
  | .group e =>
    e.bareIn_self.of_infix ⟨[mark .openParen], [mark .closeParen], by simp [Callable.kinds]⟩
  | .block [e] ended => by
    have inside : e.kinds <:+: separated .semicolon ended (Phrasing.kindsAll [e]) :=
      Phrasing.infix_kindsAll .semicolon ended List.mem_cons_self
    refine e.bareIn_self.of_infix (inside.trans ⟨[mark .openBrace], [mark .closeBrace], ?_⟩)
    simp [Callable.kinds]
  | .number x => ⟨.callable (.number x), rfl, rfl, List.infix_rfl⟩
  | .text s => ⟨.callable (.text s), rfl, rfl, List.infix_rfl⟩
  | .bool b => ⟨.callable (.bool b), rfl, rfl, List.infix_rfl⟩
  | .var x => ⟨.callable (.var x), rfl, rfl, List.infix_rfl⟩
  | .block [] ended => ⟨.callable (.block [] ended), rfl, rfl, List.infix_rfl⟩
  | .block (e :: e' :: es) ended =>
    ⟨.callable (.block (e :: e' :: es) ended), rfl, rfl, List.infix_rfl⟩
  | .call f args ended => ⟨.callable (.call f args ended), rfl, rfl, List.infix_rfl⟩

theorem Phrasing.bareIn_self : (e : Phrasing) → BareIn e.kinds e.tree
  | .callable c => c.bareIn_self
  | .join c l r => ⟨.join c l r, rfl, rfl, List.infix_rfl⟩
  | .ifThen t word y => ⟨.ifThen t word y, rfl, rfl, List.infix_rfl⟩
  | .ifElse t word y e => ⟨.ifElse t word y e, rfl, rfl, List.infix_rfl⟩
  | .lambda ps ended b => ⟨.lambda ps ended b, rfl, rfl, List.infix_rfl⟩

end

/-- A phrase with this tree is somewhere in these tokens. -/
def PhraseIn (w : List TokenKind) (n : Node) : Prop := ∃ e : Phrasing, e.tree = n ∧ e.kinds <:+: w

theorem Phrasing.phraseIn {w : List TokenKind} (e : Phrasing) (before after : List TokenKind)
    (h : w = before ++ (e.kinds ++ after)) : PhraseIn w e.tree :=
  ⟨e, rfl, before, after, by rw [h, List.append_assoc]⟩

theorem Phrasing.phraseIn_list {w : List TokenKind} (m : Mark) (ended : Bool)
    {es : List Phrasing} {n : Node} (hn : n ∈ treeAll es) (before after : List TokenKind)
    (h : w = before ++ (separated m ended (kindsAll es) ++ after)) : PhraseIn w n := by
  obtain ⟨e, he, rfl⟩ : ∃ e ∈ es, e.tree = n := by simpa using hn
  have inside : separated m ended (kindsAll es) <:+: w :=
    ⟨before, after, by rw [h, List.append_assoc]⟩
  exact ⟨e, rfl, (infix_kindsAll m ended he).trans inside⟩

@[simp] theorem Node.parts_join (c : Connective) (l r : Node) : (join c l r).parts = [l, r] := by
  cases c <;> rfl

/-- The parts of the tree of a bare phrase belong to phrases in it. -/
theorem Phrasing.phraseIn_of_mem_parts {e : Phrasing} (bare : e.isBare = true) {n : Node}
    (hn : n ∈ e.tree.parts) : PhraseIn e.kinds n := by
  cases e with
  | callable c =>
    cases c with
    | number | text | bool | var => cases hn
    | group => cases bare
    | block items ended =>
      match items with
      | [] => cases hn
      | [_] => cases bare
      | e :: e' :: es =>
        have hn : n ∈ treeAll (e :: e' :: es) := hn
        exact phraseIn_list .semicolon ended hn [mark .openBrace] [mark .closeBrace] rfl
    | call f args ended =>
      rcases List.mem_cons.1 hn with rfl | hn
      · exact phraseIn (.callable f) [] _ rfl
      · refine phraseIn_list .comma ended hn (f.kinds ++ [mark .openParen]) [mark .closeParen] ?_
        simp [kinds, Callable.kinds]
  | join c l r =>
    obtain rfl | rfl : n = l.tree ∨ n = r.tree := by simpa [tree] using hn
    · exact l.phraseIn [] (operator c.symbol :: r.kinds) rfl
    · exact r.phraseIn (l.kinds ++ [operator c.symbol]) [] (by simp [kinds])
  | ifThen t word y =>
    obtain rfl | rfl : n = t.tree ∨ n = y.tree := by simpa [tree, Node.parts] using hn
    · exact t.phraseIn [keyword .ifWord] (thenWord word ++ y.kinds) rfl
    · exact y.phraseIn (keyword .ifWord :: (t.kinds ++ thenWord word)) [] (by simp [kinds])
  | ifElse t word y o =>
    obtain rfl | rfl | rfl : n = t.tree ∨ n = y.tree ∨ n = o.tree := by
      simpa [tree, Node.parts] using hn
    · exact t.phraseIn [keyword .ifWord] _ rfl
    · refine y.phraseIn (keyword .ifWord :: (t.kinds ++ thenWord word))
        (keyword .elseWord :: o.kinds) ?_
      simp [kinds]
    · refine o.phraseIn (keyword .ifWord ::
        (t.kinds ++ (thenWord word ++ (y.kinds ++ [keyword .elseWord])))) [] ?_
      simp [kinds]
  | lambda ps ended b =>
    obtain rfl : n = b.tree := by simpa [tree, Node.parts] using hn
    refine b.phraseIn (keyword .lambdaWord :: mark .openParen ::
      (separated .comma ended (ps.map fun x => [.name x]) ++ [mark .closeParen])) [] ?_
    simp [kinds]

/-- Every part of the tree belongs to a bare phrase. -/
theorem PhraseIn.bareIn {w : List TokenKind} {m n : Node} (h : PhraseIn w m) (hn : n.Within m) :
    BareIn w n := by
  induction hn generalizing w with
  | refl =>
    obtain ⟨e, rfl, he⟩ := h
    exact e.bareIn_self.of_infix he
  | part hk _ ih =>
    obtain ⟨e, rfl, he⟩ := h
    obtain ⟨e', bare, same, he'⟩ := e.bareIn_self
    obtain ⟨d, hd, inside⟩ := Phrasing.phraseIn_of_mem_parts bare (same ▸ hk)
    exact ih ⟨d, hd, inside.trans (he'.trans he)⟩

/-! ### Programs -/

/-- A conditional, a lambda, an assignment or an operation. -/
def Node.isCompound : Node → Bool
  | .assign _ _ | .binary _ _ _ | .ifThen _ _ | .ifElse _ _ _ | .lambda _ _ => true
  | _ => false

/-- The phrase stands in parentheses or, alone, between braces. -/
inductive Phrasing.Wraps (e : Phrasing) : List TokenKind → Prop where
  | parentheses : Wraps e (mark .openParen :: (e.kinds ++ [mark .closeParen]))
  | braces (ended : Bool) : Wraps e
    (mark .openBrace :: (separated .semicolon ended [e.kinds] ++ [mark .closeBrace]))

/-- What can be called is compound only if it is something compound in brackets. -/
theorem Callable.wraps_of_isCompound {c : Callable} (h : c.tree.isCompound = true) :
    ∃ e : Phrasing, e.tree = c.tree ∧ e.Wraps c.kinds := by
  cases c with
  | group e => exact ⟨e, rfl, .parentheses⟩
  | block items ended =>
    match items with
    | [] | _ :: _ :: _ => cases h
    | [e] => exact ⟨e, rfl, .braces ended⟩
  | number | text | bool | var | call => cases h

/-- The phrase of a call is a call of something that can be called. -/
theorem Phrasing.of_tree_call {e : Phrasing} (bare : e.isBare = true) {f : Node} {args : List Node}
    (h : e.tree = .call f args) : ∃ (c : Callable) (as : List Phrasing) (ended : Bool),
      e = .callable (.call c as ended) ∧ c.tree = f ∧ as.map tree = args := by
  cases e with
  | callable c =>
    cases c with
    | call c as ended =>
      obtain ⟨rfl, rfl⟩ : c.tree = f ∧ as.map tree = args := by
        simpa [tree, Callable.tree] using h
      exact ⟨c, as, ended, rfl, rfl, rfl⟩
    | group => cases bare
    | block items =>
      rcases items with _ | ⟨e, _ | ⟨e', es⟩⟩
      · cases h
      · cases bare
      · cases h
    | number | text | bool | var => cases h
  | join c => cases c <;> cases h
  | ifThen | ifElse | lambda => cases h

/-- The phrase of a sequence is a block with two items or more. -/
theorem Phrasing.two_le_of_tree_seq {e : Phrasing} (bare : e.isBare = true) {ns : List Node}
    (h : e.tree = .seq ns) : 2 ≤ ns.length := by
  cases e with
  | callable c =>
    cases c with
    | block items =>
      rcases items with _ | ⟨e, _ | ⟨e', es⟩⟩
      · cases h
      · cases bare
      · obtain rfl : Phrasing.treeAll (e :: e' :: es) = ns := by
          simpa [tree, Callable.tree, Node.block, treeAll] using h
        simp
    | group => cases bare
    | number | text | bool | var | call => cases h
  | join c => cases c <;> cases h
  | ifThen | ifElse | lambda => cases h

/-- What is below the top of a program belongs to a phrase of its source. -/
theorem bareIn_of_parse {source : String} {tree m n : Node} (h : parse source = .ok tree)
    (hm : m ∈ tree.parts) (hn : n.Within m) : BareIn (kindsOf source) n := by
  obtain ⟨es, ended, hkinds, rfl⟩ := phrased_of_parse h
  obtain ⟨e, he, rfl⟩ : ∃ e ∈ es, e.tree = m := by simpa [Node.parts] using hm
  have inside : e.kinds <:+: kindsOf source := by
    rw [hkinds, ← Phrasing.kindsAll_eq_map]
    exact Phrasing.infix_kindsAll .semicolon ended he
  exact PhraseIn.bareIn ⟨e, rfl, inside⟩ hn

/-- The tree of a program says what the tokens of its source say, each once and in order: all of
them but marks and the words of conditionals and lambdas, and `false` for an empty block. Sequences
below the top have two items or more, no number has a sign or is undefined, names are no keywords.
And what a call calls is a conditional, a lambda, an assignment or an operation only if the source
has it in parentheses or braces, with the arguments right behind them: an opening parenthesis behind
an expression without brackets around it belongs to its last operand. -/
theorem tree_keeps_tokens {source : String} {tree : Node} (h : parse source = .ok tree) :
    tree.words = saidAll false (kindsOf source) ∧
    (∃ items, tree = .seq items) ∧
    (∀ m ∈ tree.parts, ∀ items, (Node.seq items).Within m → 2 ≤ items.length) ∧
    (∀ x, (Node.number x).Within tree → isNegative x = false ∧ magnitude x ≠ .undefined) ∧
    (∀ x, (Node.var x).Within tree → isName x = true) ∧
    (∀ params body, (Node.lambda params body).Within tree → ∀ x ∈ params, isName x = true) ∧
    ∀ f args, (Node.call f args).Within tree → f.isCompound = true →
      ∃ (e : Phrasing) (w : List TokenKind) (as : List Phrasing) (ended : Bool),
        e.tree = f ∧ e.Wraps w ∧ as.map Phrasing.tree = args ∧
          w ++ mark .openParen :: (separated .comma ended (as.map Phrasing.kinds) ++
            [mark .closeParen]) <:+: kindsOf source := by
  have said {k : TokenKind} {n : Node} (hn : n.Within tree) (hk : k ∈ n.words) : k.CanOccur :=
    canOccur_of_parse h k (hn.mem_words hk)
  obtain ⟨es, -, -, top⟩ := phrased_of_parse h
  refine ⟨?words, ⟨_, top⟩, fun m hm items hitems => ?seq, fun x hx => ?number, fun x hx => ?var,
    fun params body hlambda x hx => ?param, fun f args hcall compound => ?callee⟩
  case words =>
    obtain ⟨tokens, pos, hdrain, hwords⟩ := words_of_parse h
    rw [hwords, kindsOf, tokensOf, hdrain]
  case seq =>
    obtain ⟨e, bare, he, -⟩ := bareIn_of_parse h hm hitems
    exact Phrasing.two_le_of_tree_seq bare he
  case number => exact said (k := .number x) hx (by simp [Node.words])
  case var => exact said (k := .name x) hx (by simp [Node.words])
  case param => exact said (k := .name x) hlambda (by simp [Node.words, hx])
  case callee =>
    obtain ⟨m, hm, hcall⟩ : ∃ m ∈ tree.parts, (Node.call f args).Within m := by
      subst top
      cases hcall with
      | part hm hcall => exact ⟨_, hm, hcall⟩
    obtain ⟨_, bare, he, hkinds⟩ := bareIn_of_parse h hm hcall
    obtain ⟨c, as, ended, rfl, rfl, rfl⟩ := Phrasing.of_tree_call bare he
    obtain ⟨e, he, wraps⟩ := Callable.wraps_of_isCompound compound
    refine ⟨e, c.kinds, as, ended, he, wraps, rfl, ?_⟩
    simpa [Phrasing.kinds, Callable.kinds] using hkinds

/-- A conditional is called that stands in parentheses, with an empty block as its argument. -/
theorem tree_keeps_tokens_called_conditional :
    let f : Node := .ifThen (.var "a") (.var "b")
    let tree : Node := .seq [.call f [.bool false]]
    parse "(if a then b)(\x7b\x7d);" = .ok tree ∧
      tree.words = saidAll false (kindsOf "(if a then b)(\x7b\x7d);") ∧
        ∃ (e : Phrasing) (w : List TokenKind) (as : List Phrasing) (ended : Bool),
          e.tree = f ∧ e.Wraps w ∧ as.map Phrasing.tree = [.bool false] ∧
            w ++ mark .openParen :: (separated .comma ended (as.map Phrasing.kinds) ++
              [mark .closeParen]) <:+: kindsOf "(if a then b)(\x7b\x7d);" := by
  intro f tree
  have read : parse "(if a then b)(\x7b\x7d);" = .ok tree := by cbv
  obtain ⟨words, -, -, -, -, -, callee⟩ := tree_keeps_tokens read
  have called : (Node.call f [.bool false]).Within tree := .part List.mem_cons_self (.refl _)
  exact ⟨read, words, callee f [.bool false] called rfl⟩

end ScopeLang
