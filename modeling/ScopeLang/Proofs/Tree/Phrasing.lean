import ScopeLang.Proofs.Tree.Prefix
import ScopeLang.Proofs.Tree.Reprinted

/-!
# The phrasing of a source

A tree does not tell where its source has brackets, separators behind the last item of a list, or
the word `then`. A phrasing does, so that it has one sequence of tokens as well as one tree. The
reader puts its trees together along a phrasing of what it has taken, so a program is the tree of a
phrasing of its source. Only operands of a phrasing are called, and what an operand consists of is
a word, a call, or something in brackets.

## Main definitions

* `Phrasing`, `Callable` — expressions with all their tokens.
* `Phrasing.kinds`, `Phrasing.tree` — the tokens of a phrasing, and the tree without the brackets.
* `Parser.Phrased` — what the reader has taken, as far as it is put together.

## Main statements

* `Parser.Phrased.feed` — every token that is taken is put in its place.
* `phrased_of_parse` — a program is the tree of a phrasing of its source.
-/

namespace ScopeLang

open TokenKind (mark keyword operator)

/-! ### Phrasings -/

mutual

/-- What can be called: a word, something in brackets, or a call. The flags tell whether a separator
stands behind the last item of a list. -/
inductive Callable where
  | number (value : Float)
  | text (content : String)
  | bool (value : Bool)
  | var (name : String)
  | group (inner : Phrasing)
  | block (items : List Phrasing) (ended : Bool)
  | call (callee : Callable) (args : List Phrasing) (ended : Bool)

/-- An expression. The flags of conditionals tell whether the word `then` is there. -/
inductive Phrasing where
  | callable (o : Callable)
  | join (c : Connective) (left right : Phrasing)
  | ifThen (test : Phrasing) (word : Bool) (yes : Phrasing)
  | ifElse (test : Phrasing) (word : Bool) (yes no : Phrasing)
  | lambda (params : List String) (ended : Bool) (body : Phrasing)

end

/-- Items with a separator behind each, or behind each but the last. -/
def separated (m : Mark) (ended : Bool) (items : List (List TokenKind)) : List TokenKind :=
  let all := items.flatMap fun w => w ++ [mark m]
  if ended then all else all.dropLast

@[simp] theorem separated_nil (m : Mark) (ended : Bool) : separated m ended [] = [] := by
  cases ended <;> rfl

theorem separated_concat (m : Mark) (ended : Bool) (items : List (List TokenKind))
    (w : List TokenKind) : separated m ended (items ++ [w]) =
      separated m true items ++ (w ++ if ended then [mark m] else []) := by
  cases ended <;> simp [separated, -List.append_assoc]

theorem separated_append {m : Mark} {items : List (List TokenKind)} (h : items ≠ []) :
    separated m false items ++ [mark m] = separated m true items := by
  obtain ⟨items, w, rfl⟩ := List.eq_nil_or_concat' items |>.resolve_left h
  simp [separated_concat]

/-- The word `then`, if it is there. -/
def thenWord (word : Bool) : List TokenKind := if word then [keyword .thenWord] else []

mutual

def Callable.kinds : Callable → List TokenKind
  | .number x => [.number x]
  | .text s => [.text s]
  | .bool b => [keyword (if b then .trueWord else .falseWord)]
  | .var x => [.name x]
  | .group e => mark .openParen :: (e.kinds ++ [mark .closeParen])
  | .block items ended =>
    mark .openBrace :: (separated .semicolon ended (Phrasing.kindsAll items) ++ [mark .closeBrace])
  | .call f args ended => f.kinds ++
    mark .openParen :: (separated .comma ended (Phrasing.kindsAll args) ++ [mark .closeParen])

/-- The tokens of an expression. -/
def Phrasing.kinds : Phrasing → List TokenKind
  | .callable o => o.kinds
  | .join c l r => l.kinds ++ operator c.symbol :: r.kinds
  | .ifThen t word y => keyword .ifWord :: (t.kinds ++ (thenWord word ++ y.kinds))
  | .ifElse t word y n => keyword .ifWord ::
    (t.kinds ++ (thenWord word ++ (y.kinds ++ keyword .elseWord :: n.kinds)))
  | .lambda ps ended b => keyword .lambdaWord :: mark .openParen ::
    (separated .comma ended (ps.map fun x => [.name x]) ++ mark .closeParen :: b.kinds)

def Phrasing.kindsAll : List Phrasing → List (List TokenKind)
  | [] => []
  | e :: es => e.kinds :: Phrasing.kindsAll es

end

mutual

def Callable.tree : Callable → Node
  | .number x => .number x
  | .text s => .text s
  | .bool b => .bool b
  | .var x => .var x
  | .group e => e.tree
  | .block items _ => .block (Phrasing.treeAll items)
  | .call f args _ => .call f.tree (Phrasing.treeAll args)

/-- The tree of an expression. -/
def Phrasing.tree : Phrasing → Node
  | .callable o => o.tree
  | .join c l r => .join c l.tree r.tree
  | .ifThen t _ y => .ifThen t.tree y.tree
  | .ifElse t _ y n => .ifElse t.tree y.tree n.tree
  | .lambda ps _ b => .lambda ps b.tree

def Phrasing.treeAll : List Phrasing → List Node
  | [] => []
  | e :: es => e.tree :: Phrasing.treeAll es

end

@[simp] theorem Phrasing.kindsAll_eq_map (es : List Phrasing) : kindsAll es = es.map kinds := by
  induction es with
  | nil => rfl
  | cons e es ih => rw [kindsAll, ih, List.map_cons]

@[simp] theorem Phrasing.treeAll_eq_map (es : List Phrasing) : treeAll es = es.map tree := by
  induction es with
  | nil => rfl
  | cons e es ih => rw [treeAll, ih, List.map_cons]

/-! ### Opening and closing lists -/

/-- What a list of expressions between brackets belongs to, in a phrasing. -/
inductive Opener where
  | block
  | args (callee : Callable)

namespace Opener

/-- What the reader keeps of it. -/
@[simp] def listed : Opener → Listed
  | block => .block
  | args f => .args f.tree

/-- The tokens up to the opening mark. -/
def kinds : Opener → List TokenKind
  | block => [mark .openBrace]
  | args f => f.kinds ++ [mark .openParen]

/-- The finished list. -/
def close : Opener → List Phrasing → Bool → Callable
  | block, items, ended => .block items ended
  | args f, items, ended => .call f items ended

theorem tree_close (o : Opener) (items : List Phrasing) (ended : Bool) :
    (o.close items ended).tree = o.listed.build (items.map Phrasing.tree) := by
  cases o <;> simp [close, Callable.tree, Listed.build]

theorem kinds_close (o : Opener) (items : List Phrasing) (ended : Bool) :
    (o.close items ended).kinds = o.kinds ++
      (separated o.listed.separator ended (items.map Phrasing.kinds) ++
        [mark o.listed.closer]) := by
  cases o <;> simp [close, Callable.kinds, kinds, Listed.separator, Listed.closer]

end Opener

/-! ### What the reader has taken -/

/-- The items of a list as the reader keeps them, the last one first. -/
def Phrasing.backward (items : List Phrasing) : List Node := (items.map tree).reverse

@[simp] theorem Phrasing.backward_concat (items : List Phrasing) (e : Phrasing) :
    backward (items ++ [e]) = e.tree :: backward items := by simp [backward]

@[simp] theorem Phrasing.reverse_backward (items : List Phrasing) :
    (backward items).reverse = items.map tree := by simp [backward]

/-- The finished items of the program and the pending phrases are put together from the tokens. -/
inductive Awaits : List Node → List Pending → List TokenKind → Prop where
  | program (items : List Phrasing) :
    Awaits (Phrasing.backward items) [] (separated .semicolon true (items.map Phrasing.kinds))
  | operand {done : List Node} {σ : List Pending} {u : List TokenKind} (l : Phrasing)
    (c : Connective) : Awaits done σ u →
      Awaits done (.operand l.tree c :: σ) (u ++ (l.kinds ++ [operator c.symbol]))
  | group {done : List Node} {σ : List Pending} {u : List TokenKind} : Awaits done σ u →
    Awaits done (.group :: σ) (u ++ [mark .openParen])
  | item {done : List Node} {σ : List Pending} {u : List TokenKind} (o : Opener)
    (items : List Phrasing) : Awaits done σ u →
      Awaits done (.item o.listed (Phrasing.backward items) :: σ)
        (u ++ (o.kinds ++ separated o.listed.separator true (items.map Phrasing.kinds)))
  | test {done : List Node} {σ : List Pending} {u : List TokenKind} : Awaits done σ u →
    Awaits done (.test :: σ) (u ++ [keyword .ifWord])
  | yes {done : List Node} {σ : List Pending} {u : List TokenKind} (t : Phrasing) (word : Bool) :
    Awaits done σ u →
      Awaits done (.yes t.tree :: σ) (u ++ keyword .ifWord :: (t.kinds ++ thenWord word))
  | no {done : List Node} {σ : List Pending} {u : List TokenKind} (t : Phrasing) (word : Bool)
    (y : Phrasing) : Awaits done σ u → Awaits done (.no t.tree y.tree :: σ)
      (u ++ keyword .ifWord :: (t.kinds ++ (thenWord word ++ (y.kinds ++ [keyword .elseWord]))))
  | body {done : List Node} {σ : List Pending} {u : List TokenKind} (ps : List String)
    (ended : Bool) : Awaits done σ u → Awaits done (.body ps :: σ)
      (u ++ keyword .lambdaWord :: mark .openParen ::
        (separated .comma ended (ps.map fun x => [.name x]) ++ [mark .closeParen]))

variable {done : List Node} {σ : List Pending} {w : List TokenKind} {n : Node} {t : Token}

/-- The tokens end with an expression that is read as `n`. -/
def EndsIn (done : List Node) (σ : List Pending) (n : Node) (w : List TokenKind) : Prop :=
  ∃ (e : Phrasing) (u : List TokenKind), Awaits done σ u ∧ e.tree = n ∧ w = u ++ e.kinds

namespace EndsIn

/-- An operand is joined with what waits for it. -/
theorem join {left : Node} {c : Connective} (h : EndsIn done (.operand left c :: σ) n w) :
    EndsIn done σ (.join c left n) w := by
  obtain ⟨e, _, hu, rfl, rfl⟩ := h
  cases hu with
  | operand l _ hu => exact ⟨.join c l e, _, hu, rfl, by simp [Phrasing.kinds]⟩

theorem ifThen {test : Node} (h : EndsIn done (.yes test :: σ) n w) :
    EndsIn done σ (.ifThen test n) w := by
  obtain ⟨e, _, hu, rfl, rfl⟩ := h
  cases hu with
  | yes t word hu => exact ⟨.ifThen t word e, _, hu, rfl, by simp [Phrasing.kinds]⟩

theorem ifElse {test yes : Node} (h : EndsIn done (.no test yes :: σ) n w) :
    EndsIn done σ (.ifElse test yes n) w := by
  obtain ⟨e, _, hu, rfl, rfl⟩ := h
  cases hu with
  | no t word y hu => exact ⟨.ifElse t word y e, _, hu, rfl, by simp [Phrasing.kinds]⟩

theorem lambda {params : List String} (h : EndsIn done (.body params :: σ) n w) :
    EndsIn done σ (.lambda params n) w := by
  obtain ⟨e, _, hu, rfl, rfl⟩ := h
  cases hu with
  | body ps ended hu => exact ⟨.lambda params ended e, _, hu, rfl, by simp [Phrasing.kinds]⟩

end EndsIn

namespace Parser

/-- What the reader has taken is put together as far as it goes. -/
def Phrased (p : Parser) (w : List TokenKind) : Prop :=
  match p.expecting with
  | .programItem => p.stack = [] ∧ Awaits p.done [] w
  | .operand => Awaits p.done p.stack w
  | .firstItem l => ∃ o u, l = Opener.listed o ∧ Awaits p.done p.stack u ∧ w = u ++ o.kinds
  | .laterItem l items => ∃ o es u, l = Opener.listed o ∧ items = Phrasing.backward es ∧
    Awaits p.done p.stack u ∧
      w = u ++ (o.kinds ++ separated o.listed.separator true (es.map Phrasing.kinds))
  | .continuation n => ∃ (c : Callable) (u : List TokenKind), Awaits p.done p.stack u ∧
    c.tree = n ∧ w = u ++ c.kinds
  | .paramsOpen => ∃ u, Awaits p.done p.stack u ∧ w = u ++ [keyword .lambdaWord]
  | .firstParam => ∃ u, Awaits p.done p.stack u ∧
    w = u ++ [keyword .lambdaWord, mark .openParen]
  | .laterParam names => ∃ u, Awaits p.done p.stack u ∧
    w = u ++ keyword .lambdaWord :: mark .openParen ::
      separated .comma true (names.reverse.map fun x => [.name x])
  | .paramEnd names => names ≠ [] ∧ ∃ u, Awaits p.done p.stack u ∧
    w = u ++ keyword .lambdaWord :: mark .openParen ::
      separated .comma false (names.reverse.map fun x => [.name x])

variable {p q : Parser} {u : List TokenKind}

/-! ### One token -/

theorem phrased_callable (h : Awaits done σ u) (c : Callable) :
    Phrased ⟨done, σ, .continuation c.tree⟩ (u ++ c.kinds) := ⟨c, u, h, rfl, rfl⟩

theorem phrased_startOperand (h : Awaits done σ w) (ht : startOperand done σ t = .ok q) :
    q.Phrased (w ++ [t.kind]) := by
  unfold startOperand at ht
  split at ht <;> rename_i hk <;> cases ht <;> rw [hk]
  · exact .group h
  · exact ⟨.block, w, rfl, h, rfl⟩
  · exact .test h
  · exact ⟨w, h, rfl⟩
  · exact phrased_callable h (.bool true)
  · exact phrased_callable h (.bool false)
  · exact phrased_callable h (.number _)
  · exact phrased_callable h (.text _)
  · exact phrased_callable h (.var _)

/-- A list with its closing mark can be called. -/
theorem phrased_closer (h : Awaits done σ u) (o : Opener) (items : List Phrasing) (ended : Bool)
    (ht : t.kind = mark o.listed.closer) :
    Phrased ⟨done, σ, .continuation (o.listed.build (items.map Phrasing.tree))⟩
      (u ++ (o.kinds ++ separated o.listed.separator ended (items.map Phrasing.kinds)) ++
        [t.kind]) := by
  rw [← o.tree_close items ended, ht]
  have closed := phrased_callable h (o.close items ended)
  rw [o.kinds_close] at closed
  simpa using closed

theorem phrased_itemOrCloser (h : Awaits done σ u) (o : Opener) (items : List Phrasing)
    (ht : itemOrCloser done σ o.listed (Phrasing.backward items) t = .ok q) :
    q.Phrased (u ++ (o.kinds ++ separated o.listed.separator true (items.map Phrasing.kinds)) ++
      [t.kind]) := by
  unfold itemOrCloser at ht
  split at ht
  · rename_i m hk
    split at ht
    · rename_i hm
      cases ht
      rw [Phrasing.reverse_backward]
      exact phrased_closer h o items true (hm ▸ hk)
    · exact phrased_startOperand (.item o items h) ht
  · exact phrased_startOperand (.item o items h) ht

theorem phrased_paramOrCloser (h : Awaits done σ u) {names : List String}
    (ht : paramOrCloser done σ names t = .ok q) :
    q.Phrased (u ++ keyword .lambdaWord :: mark .openParen ::
      separated .comma true (names.reverse.map fun x => [.name x]) ++ [t.kind]) := by
  unfold paramOrCloser at ht
  split at ht
  · rename_i hk
    cases ht
    have body := Awaits.body names.reverse true h
    simpa [Phrased, hk] using body
  · rename_i x hk
    cases ht
    exact ⟨List.cons_ne_nil x names, u, h, by simp [hk, separated_concat]⟩
  · cases ht

/-- Behind a branch an `else` begins another one. -/
theorem phrased_else {test : Node} (h : EndsIn done (.yes test :: σ) n w)
    (hk : t.kind = keyword .elseWord) :
    Phrased ⟨done, .no test n :: σ, .operand⟩ (w ++ [t.kind]) := by
  obtain ⟨y, _, hu, rfl, rfl⟩ := h
  cases hu with
  | yes t word hu =>
    have no := Awaits.no t word y hu
    simpa [Phrased, hk] using no

theorem phrased_settle_group (h : EndsIn done (.group :: σ) n w)
    (ht : settle done t n (.group :: σ) = .ok q) : q.Phrased (w ++ [t.kind]) := by
  obtain ⟨e, _, hu, rfl, rfl⟩ := h
  cases hu with
  | group hu =>
    simp only [settle] at ht
    split at ht <;> cases ht
    rename_i hk
    have closed := phrased_callable hu (.group e)
    simpa [Callable.tree, Callable.kinds, hk] using closed

/-- Behind a test stands the word `then`, or a brace that begins the branch. -/
theorem phrased_settle_test (h : EndsIn done (.test :: σ) n w)
    (ht : settle done t n (.test :: σ) = .ok q) : q.Phrased (w ++ [t.kind]) := by
  obtain ⟨e, _, hu, rfl, rfl⟩ := h
  cases hu with
  | test hu =>
    simp only [settle] at ht
    split at ht <;> cases ht <;> rename_i hk
    · have yes := Awaits.yes e true hu
      simpa [Phrased, thenWord, hk] using yes
    · have yes := Awaits.yes e false hu
      exact ⟨.block, _, rfl, yes, by simp [Opener.kinds, thenWord, hk]⟩

theorem phrased_settle_item {l : Listed} {done' : List Node}
    (h : EndsIn done (.item l done' :: σ) n w)
    (ht : settle done t n (.item l done' :: σ) = .ok q) : q.Phrased (w ++ [t.kind]) := by
  obtain ⟨e, _, hu, rfl, rfl⟩ := h
  cases hu with
  | item o items hu =>
    simp only [settle] at ht
    split at ht
    · rename_i m hk
      split at ht
      · rename_i hm
        cases ht
        have closed := phrased_closer hu o (items ++ [e]) false (hm ▸ hk)
        simpa [separated_concat] using closed
      · split at ht <;> cases ht
        rename_i hm
        refine ⟨o, items ++ [e], _, rfl, by simp, hu, ?_⟩
        simp [hk, hm, separated_concat]
    · cases ht

theorem phrased_settle_program (h : EndsIn done [] n w) (ht : settle done t n [] = .ok q) :
    q.Phrased (w ++ [t.kind]) := by
  obtain ⟨e, _, hu, rfl, rfl⟩ := h
  cases hu with
  | program items =>
    simp only [settle] at ht
    split at ht <;> cases ht
    rename_i hk
    have more := Awaits.program (items ++ [e])
    exact ⟨rfl, by simpa [hk, separated_concat] using more⟩

/-- Open phrases are put together on the way to the one that the token continues or ends. -/
theorem phrased_settle (h : EndsIn done σ n w) (ht : settle done t n σ = .ok q) :
    q.Phrased (w ++ [t.kind]) := by
  induction σ generalizing n with
  | nil => exact phrased_settle_program h ht
  | cons x σ ih =>
    cases x with
    | operand => exact ih h.join ht
    | no => exact ih h.ifElse ht
    | body => exact ih h.lambda ht
    | yes test =>
      unfold settle at ht
      split at ht
      · rename_i hk
        cases ht
        exact phrased_else h hk
      · exact ih h.ifThen ht
    | group => exact phrased_settle_group h ht
    | test => exact phrased_settle_test h ht
    | item => exact phrased_settle_item h ht

theorem endsIn_reduce (h : EndsIn done σ n w) (k : Nat) :
    EndsIn done (reduce k n σ).2 (reduce k n σ).1 w := by
  fun_induction reduce k n σ with
  | case1 n left op σ hk ih => exact ih h.join
  | case2 | case3 => exact h

theorem phrased_continueWith (h : Awaits done σ u) (c : Callable)
    (ht : continueWith done σ c.tree t = .ok q) : q.Phrased (u ++ c.kinds ++ [t.kind]) := by
  have whole : EndsIn done σ c.tree (u ++ c.kinds) := ⟨.callable c, u, h, rfl, rfl⟩
  unfold continueWith at ht
  split at ht
  · rename_i hk
    cases ht
    exact ⟨.args c, u, rfl, h, by simp [Opener.kinds, hk]⟩
  · rename_i s hk
    split at ht
    · cases ht
    · rename_i d hd
      cases ht
      obtain ⟨l, v, hv, hl, hw⟩ := endsIn_reduce whole d.precedence
      have operand := Awaits.operand l d hv
      rw [hw]
      simpa [Phrased, hl, hk, Connective.symbol_of_ofSymbol? hd] using operand
  · exact phrased_settle whole ht

/-- Every token that is taken is put in its place. -/
theorem Phrased.feed (h : p.Phrased w) (ht : p.feed t = .ok q) : q.Phrased (w ++ [t.kind]) := by
  obtain ⟨done, σ, expecting⟩ := p
  cases expecting with
  | programItem =>
    obtain ⟨rfl, hw⟩ := h
    exact phrased_startOperand hw ht
  | operand => exact phrased_startOperand h ht
  | firstItem =>
    obtain ⟨o, u, rfl, hu, rfl⟩ := h
    simpa using phrased_itemOrCloser hu o [] ht
  | laterItem =>
    obtain ⟨o, items, u, rfl, rfl, hu, rfl⟩ := h
    exact phrased_itemOrCloser hu o items ht
  | continuation =>
    obtain ⟨c, u, hu, rfl, rfl⟩ := h
    exact phrased_continueWith hu c ht
  | paramsOpen =>
    obtain ⟨u, hu, rfl⟩ := h
    simp only [Parser.feed] at ht
    split at ht <;> cases ht
    rename_i hk
    exact ⟨u, hu, by simp [hk]⟩
  | firstParam =>
    obtain ⟨u, hu, rfl⟩ := h
    simpa using phrased_paramOrCloser hu ht
  | laterParam =>
    obtain ⟨u, hu, rfl⟩ := h
    exact phrased_paramOrCloser hu ht
  | paramEnd names =>
    obtain ⟨some, u, hu, rfl⟩ := h
    simp only [Parser.feed] at ht
    split at ht <;> cases ht <;> rename_i hk
    · have body := Awaits.body names.reverse false hu
      simpa [Phrased, hk] using body
    · refine ⟨u, hu, ?_⟩
      rw [← separated_append (by simpa using some), hk]
      simp

theorem Phrased.takes {v : List TokenKind} (h : p.Phrased v) (hw : Takes p w q) :
    q.Phrased (v ++ w) := by
  induction hw generalizing v with
  | nil => simpa using h
  | @cons p q r k w hk _ ih => simpa using ih (h.feed (hk ⟨k, .start⟩ rfl))

/-! ### The end of the input -/

theorem phrased_of_settleEnd (h : EndsIn done σ n w) {items : List Node}
    (hs : settleEnd done n σ = .ok items) : ∃ es : List Phrasing,
      w = separated .semicolon false (es.map Phrasing.kinds) ∧ items = es.map Phrasing.tree := by
  induction σ generalizing n with
  | nil =>
    obtain ⟨e, _, hu, rfl, rfl⟩ := h
    cases hu with
    | program es =>
      cases hs
      exact ⟨es ++ [e], by simp [separated_concat], by simp⟩
  | cons x σ ih =>
    cases x with
    | operand => exact ih h.join hs
    | yes => exact ih h.ifThen hs
    | no => exact ih h.ifElse hs
    | body => exact ih h.lambda hs
    | group | item | test => cases hs

theorem Phrased.of_finish (h : p.Phrased w) {pos : Pos} {tree : Node}
    (hf : p.finish pos = .ok tree) : ∃ (es : List Phrasing) (ended : Bool),
      w = separated .semicolon ended (es.map Phrasing.kinds) ∧
        tree = .seq (es.map Phrasing.tree) := by
  obtain ⟨done, σ, expecting⟩ := p
  cases expecting with
  | programItem =>
    obtain ⟨rfl, hw⟩ := h
    cases hw with
    | program es =>
      cases hf
      exact ⟨es, true, rfl, by simp⟩
  | continuation n =>
    obtain ⟨c, u, hu, rfl, rfl⟩ := h
    simp only [finish] at hf
    split at hf
    · rename_i items hitems
      cases hf
      obtain ⟨es, hw, rfl⟩ := phrased_of_settleEnd ⟨.callable c, u, hu, rfl, rfl⟩ hitems
      exact ⟨es, false, hw, rfl⟩
    · cases hf
  | _ => cases hf

/-- A program is taken up to its end. -/
theorem takes_of_parse {source : String} {tree : Node} (h : parse source = .ok tree) :
    ∃ q pos, Takes {} (kindsOf source) q ∧ q.finish pos = .ok tree := by
  obtain ⟨pos, hpos⟩ := (parse_on_demand source).2.1 tree h
  have reading := reading_readAll {} (tokensOf source).1 (.finished pos)
  rw [parse_eq_readAll, hpos] at h
  generalize readAll {} (tokensOf source).1 (.finished pos) = r at h reading
  cases reading with
  | refused => cases h
  | finished _ htakes => exact ⟨_, pos, htakes, h⟩

end Parser

/-- A program is the tree of a phrasing of its source. -/
theorem phrased_of_parse {source : String} {tree : Node} (h : parse source = .ok tree) :
    ∃ (es : List Phrasing) (ended : Bool),
      kindsOf source = separated .semicolon ended (es.map Phrasing.kinds) ∧
        tree = .seq (es.map Phrasing.tree) := by
  obtain ⟨q, pos, htakes, hq⟩ := Parser.takes_of_parse h
  have start : Parser.Phrased {} [] := ⟨rfl, .program []⟩
  exact (start.takes htakes).of_finish hq

end ScopeLang
