import ScopeLang.Proofs.Tree.Grammar
import ScopeLang.Tree.Parser

/-!
# What is read is a program

While the reader goes on, the tokens it has taken spell what its stack says: each pending phrase
stands for the text in front of the expression that it waits for. Every token keeps this up, so what
is accepted in the end is derived by the grammar.

## Main definitions

* `Waits` — a text behind which pending phrases wait for an expression.
* `Parser.Spells` — the invariant of the reader.

## Main statements

* `Parser.Spells.feed` — every token that is taken keeps the invariant.
* `Parser.Spells.derives_of_readAll` — what is read to its end is a program.
-/

namespace ScopeLang

open TokenKind (mark keyword operator)

theorem Connective.symbol_of_ofSymbol? {s : String} {c : Connective}
    (h : Connective.ofSymbol? s = some c) : c.symbol = s := by
  unfold Connective.ofSymbol? at h
  split at h
  · rename_i hs
    cases h
    exact hs.symm
  · obtain ⟨op, hop, rfl⟩ := Option.map_eq_some_iff.1 h
    have := List.find?_some hop
    exact eq_of_beq this

/-- The text begins with a brace. -/
def BraceFirst (w : List TokenKind) : Prop := ∃ v, w = mark .openBrace :: v

theorem BraceFirst.append {v : List TokenKind} (h : BraceFirst v) (w : List TokenKind) :
    BraceFirst (v ++ w) := by
  obtain ⟨u, rfl⟩ := h
  exact ⟨u ++ w, rfl⟩

/-- No items, or some with a separator behind each: a further item may come, or none. -/
inductive Leads (item : Phrase) (m : Mark) : List TokenKind → Prop where
  | nil : Leads item m []
  | items {w : List TokenKind} : Derives (.items item m) w → Leads item m (w ++ [mark m])

namespace Leads

variable {item : Phrase} {m : Mark} {u w : List TokenKind}

theorem items_append (h : Leads item m u) (hw : Derives item w) :
    Derives (.items item m) (u ++ w) := by
  cases h with
  | nil => exact .one hw
  | items hu => simpa using hu.more hw

theorem list (h : Leads item m u) : Derives (.list item m) u := by
  cases h with
  | nil => exact .empty
  | items hu => exact .trailing hu

end Leads

/-- The text of a list up to its opening mark; if `braced`, it begins with a brace anyhow. -/
inductive Listed.Opening : Listed → (braced : Bool) → List TokenKind → Prop where
  | block {braced : Bool} : Opening .block braced [mark .openBrace]
  | args {braced : Bool} {callee : Node} {w : List TokenKind} : Derives .atom w →
    (braced = true → BraceFirst w) → Opening (.args callee) braced (w ++ [mark .openParen])

/-- Behind the text the pending phrases wait for an expression, which is to begin with a brace if
`braced`. -/
inductive Waits : (braced : Bool) → List Pending → List TokenKind → Prop where
  | program {u : List TokenKind} : Leads .expression .semicolon u → Waits false [] u
  | operand {b : Bool} {σ : List Pending} {u v : List TokenKind} (left : Node) (c : Connective) :
    Waits b σ u → Derives .expression v → (b = true → BraceFirst v) →
      Waits false (.operand left c :: σ) (u ++ (v ++ [operator c.symbol]))
  | group {σ : List Pending} {u : List TokenKind} : Waits false σ u →
    Waits false (.group :: σ) (u ++ [mark .openParen])
  | item {b : Bool} {l : Listed} {σ : List Pending} {u v w : List TokenKind} (items : List Node) :
    Waits b σ u → l.Opening b v → Leads .expression l.separator w →
      Waits false (.item l items :: σ) (u ++ (v ++ w))
  | test {σ : List Pending} {u : List TokenKind} : Waits false σ u →
    Waits false (.test :: σ) (u ++ [keyword .ifWord])
  | yesThen {σ : List Pending} {u v : List TokenKind} (test : Node) : Waits false σ u →
    Derives .expression v →
      Waits false (.yes test :: σ) (u ++ (keyword .ifWord :: (v ++ [keyword .thenWord])))
  | yesBlock {σ : List Pending} {u v : List TokenKind} (test : Node) : Waits false σ u →
    Derives .expression v → Waits true (.yes test :: σ) (u ++ (keyword .ifWord :: v))
  | no {σ : List Pending} {u v w : List TokenKind} (test yes : Node) : Waits false σ u →
    Derives .expression v → Derives .branch w →
      Waits false (.no test yes :: σ) (u ++ (keyword .ifWord :: (v ++ (w ++ [keyword .elseWord]))))
  | body {σ : List Pending} {u v : List TokenKind} (params : List String) : Waits false σ u →
    Derives .params v → Waits false (.body params :: σ)
      (u ++ (keyword .lambdaWord :: mark .openParen :: (v ++ [mark .closeParen])))

/-- The text ends with a phrase for which the pending phrases wait. -/
def Ends (p : Phrase) (σ : List Pending) (w : List TokenKind) : Prop :=
  ∃ b u v, Waits b σ u ∧ Derives p v ∧ (b = true → BraceFirst v) ∧ w = u ++ v

variable {σ : List Pending} {w : List TokenKind}

theorem Waits.ends (h : Waits false σ w) {p : Phrase} {v : List TokenKind} (hv : Derives p v) :
    Ends p σ (w ++ v) :=
  ⟨false, w, v, h, hv, nofun, rfl⟩

theorem Ends.expression (h : Ends .atom σ w) : Ends .expression σ w := by
  obtain ⟨b, u, v, hu, hv, hb, rfl⟩ := h
  exact ⟨b, u, v, hu, .atom hv, hb, rfl⟩

/-- Does the phrase end wherever the expression ends that it waits for? -/
def Pending.isOpen : Pending → Bool
  | .operand _ _ | .yes _ | .no _ _ | .body _ => true
  | .group | .item _ _ | .test => false

/-- Behind a complete branch there is a conditional up to it. -/
theorem Ends.branch {test : Node} (h : Ends .expression (.yes test :: σ) w) :
    ∃ u x y, Waits false σ u ∧ Derives .expression x ∧ Derives .branch y ∧
      w = u ++ (keyword .ifWord :: (x ++ y)) := by
  obtain ⟨b, _, v, hu, hv, hb, rfl⟩ := h
  cases hu with
  | yesThen _ hu hx => exact ⟨_, _, _, hu, hx, .thenBranch hv, by simp⟩
  | yesBlock _ hu hx =>
    obtain ⟨v, rfl⟩ := hb rfl
    exact ⟨_, _, _, hu, hx, .blockBranch hv, by simp⟩

/-- A phrase that ends with its expression is itself an expression. -/
theorem Ends.absorb {x : Pending} (hx : x.isOpen = true) (h : Ends .expression (x :: σ) w) :
    Ends .expression σ w := by
  cases x with
  | group | item | test => cases hx
  | yes test =>
    obtain ⟨u, x, y, hu, hx, hy, rfl⟩ := h.branch
    exact hu.ends (.atom (.primary (.ifThen hx hy)))
  | operand left c =>
    obtain ⟨_, _, v, hu, hv, -, rfl⟩ := h
    cases hu with
    | operand _ _ hu hx hb =>
      exact ⟨_, _, _, hu, hx.join c hv, fun hb' => (hb hb').append _, by simp⟩
  | no test yes =>
    obtain ⟨_, _, v, hu, hv, -, rfl⟩ := h
    cases hu with
    | no _ _ hu hx hy =>
      have := hu.ends (.atom (.primary (.ifElse hx hy hv)))
      simpa using this
  | body params =>
    obtain ⟨_, _, v, hu, hv, -, rfl⟩ := h
    cases hu with
    | body _ hu hx =>
      have := hu.ends (.atom (.primary (.lambda hx hv)))
      simpa using this

namespace Parser

/-- The tokens taken so far spell the stack of the reader and what it expects. -/
def Spells (p : Parser) (w : List TokenKind) : Prop :=
  match p.expecting with
  | .programItem => p.stack = [] ∧ Leads .expression .semicolon w
  | .operand => Waits false p.stack w
  | .firstItem l | .laterItem l _ => ∃ b u v x, Waits b p.stack u ∧ l.Opening b v ∧
    Leads .expression l.separator x ∧ w = u ++ (v ++ x)
  | .continuation _ => Ends .atom p.stack w
  | .paramsOpen => ∃ u, Waits false p.stack u ∧ w = u ++ [keyword .lambdaWord]
  | .firstParam | .laterParam _ => ∃ u v, Waits false p.stack u ∧ Leads .name .comma v ∧
    w = u ++ (keyword .lambdaWord :: mark .openParen :: v)
  | .paramEnd _ => ∃ u v, Waits false p.stack u ∧ Derives (.items .name .comma) v ∧
    w = u ++ (keyword .lambdaWord :: mark .openParen :: v)

variable {p p' : Parser} {done : List Node} {t : Token} {n : Node}

/-! ### One token -/

theorem spells_startOperand (h : Waits false σ w) (ht : startOperand done σ t = .ok p') :
    p'.Spells (w ++ [t.kind]) := by
  unfold startOperand at ht
  split at ht <;> rename_i hk <;> cases ht <;> rw [hk]
  · exact .group h
  · exact ⟨false, w, _, [], h, .block, .nil, by simp⟩
  · exact .test h
  · exact ⟨w, h, rfl⟩
  · exact h.ends (.primary .trueWord)
  · exact h.ends (.primary .falseWord)
  · exact h.ends (.primary (.number _))
  · exact h.ends (.primary (.text _))
  · exact h.ends (.primary (.var _))

/-- A list with its closing mark is an atom, which begins with a brace if it was to. -/
theorem ends_closer {b : Bool} {l : Listed} {u v x : List TokenKind} (hu : Waits b σ u)
    (hv : l.Opening b v) (hx : Derives (.list .expression l.separator) x) :
    Ends .atom σ (u ++ (v ++ (x ++ [mark l.closer]))) := by
  refine ⟨b, u, v ++ (x ++ [mark l.closer]), hu, ?_, fun hb => ?_, rfl⟩
  · cases hv with
    | block => exact .primary (.block hx)
    | args hv =>
      have := hv.call hx
      simpa [Listed.closer] using this
  · cases hv with
    | block => exact ⟨_, rfl⟩
    | args _ hbrace => exact ((hbrace hb).append _).append _

theorem spells_itemOrCloser {b : Bool} {l : Listed} {u v x : List TokenKind} {items : List Node}
    (hu : Waits b σ u) (hv : l.Opening b v) (hx : Leads .expression l.separator x)
    (ht : itemOrCloser done σ l items t = .ok p') : p'.Spells (u ++ (v ++ x) ++ [t.kind]) := by
  unfold itemOrCloser at ht
  split at ht
  · rename_i m hk
    split at ht
    · rename_i hm
      cases ht
      rw [hk, hm]
      have := ends_closer hu hv hx.list
      simpa [Spells] using this
    · exact spells_startOperand (.item items hu hv hx) ht
  · exact spells_startOperand (.item items hu hv hx) ht

theorem spells_paramOrCloser {u v : List TokenKind} {names : List String} (hu : Waits false σ u)
    (hv : Leads .name .comma v) (ht : paramOrCloser done σ names t = .ok p') :
    p'.Spells (u ++ (keyword .lambdaWord :: mark .openParen :: v) ++ [t.kind]) := by
  unfold paramOrCloser at ht
  split at ht
  · rename_i hk
    cases ht
    have := Waits.body names.reverse hu hv.list
    simpa [Spells, hk] using this
  · rename_i x hk
    cases ht
    exact ⟨u, _, hu, hv.items_append (.name x), by simp [hk]⟩
  · cases ht

/-- A phrase that goes on behind its expression takes the token. -/
theorem spells_settle_closed {x : Pending} (hx : x.isOpen = false)
    (h : Ends .expression (x :: σ) w) (ht : settle done t n (x :: σ) = .ok p') :
    p'.Spells (w ++ [t.kind]) := by
  obtain ⟨_, _, v, hu, hv, -, rfl⟩ := h
  cases x with
  | operand | yes | no | body => cases hx
  | group =>
    cases hu with
    | group hu =>
      simp only [settle] at ht
      split at ht <;> cases ht
      rename_i hk
      have := hu.ends (.primary (.group hv))
      simpa [Spells, hk] using this
  | item l items =>
    cases hu with
    | @item b _ _ u o _ _ hu ho hx =>
      have more := hx.items_append hv
      simp only [settle] at ht
      split at ht
      · rename_i m hk
        split at ht
        · rename_i hm
          cases ht
          have := ends_closer hu ho (.items more)
          simpa [Spells, hk, hm] using this
        · split at ht <;> cases ht
          rename_i hm
          refine ⟨b, u, o, _, hu, ho, .items more, ?_⟩
          simp [hk, hm]
      · cases ht
  | test =>
    cases hu with
    | test hu =>
      simp only [settle] at ht
      split at ht <;> cases ht <;> rename_i hk
      · have := Waits.yesThen n hu hv
        simpa [Spells, hk] using this
      · refine ⟨true, _, _, [], .yesBlock n hu hv, .block, .nil, ?_⟩
        simp [hk]

/-- An expression settles with the phrases that wait for it, up to the one that goes on. -/
theorem spells_settle (h : Ends .expression σ w) (ht : settle done t n σ = .ok p') :
    p'.Spells (w ++ [t.kind]) := by
  induction σ generalizing n w with
  | nil =>
    obtain ⟨b, u, v, hu, hv, -, rfl⟩ := h
    cases hu with
    | program hu =>
      simp only [settle] at ht
      split at ht <;> cases ht
      rename_i hk
      rw [hk]
      exact ⟨rfl, .items (hu.items_append hv)⟩
  | cons pending σ ih =>
    cases pending with
    | operand | no | body => exact ih (h.absorb rfl) ht
    | group | item | test => exact spells_settle_closed rfl h ht
    | yes test =>
      unfold settle at ht
      split at ht
      · rename_i hk
        cases ht
        obtain ⟨u, x, y, hu, hx, hy, rfl⟩ := h.branch
        have := Waits.no test n hu hx hy
        simpa [Spells, hk] using this
      · exact ih (h.absorb rfl) ht

theorem ends_reduce (h : Ends .expression σ w) (k : Nat) :
    Ends .expression (reduce k n σ).2 w := by
  fun_induction reduce k n σ generalizing w with
  | case1 n left op σ hk ih => exact ih (h.absorb rfl)
  | case2 n left op σ hk => exact h
  | case3 n σ _ => exact h

theorem spells_continueWith (h : Ends .atom σ w) (ht : continueWith done σ n t = .ok p') :
    p'.Spells (w ++ [t.kind]) := by
  unfold continueWith at ht
  split at ht
  · rename_i hk
    cases ht
    obtain ⟨b, u, v, hu, hv, hb, rfl⟩ := h
    refine ⟨b, u, _, [], hu, .args hv hb, .nil, ?_⟩
    simp [hk]
  · rename_i s hk
    split at ht
    · cases ht
    · rename_i c hc
      cases ht
      obtain ⟨b, u, v, hu, hv, hb, rfl⟩ := ends_reduce (n := n) h.expression c.precedence
      have := Waits.operand (reduce c.precedence n σ).1 c hu hv hb
      simpa [Spells, hk, Connective.symbol_of_ofSymbol? hc] using this
  · exact spells_settle h.expression ht

/-- Every token that is taken keeps the invariant. -/
theorem Spells.feed (h : p.Spells w) (ht : p.feed t = .ok p') : p'.Spells (w ++ [t.kind]) := by
  obtain ⟨done, σ, expecting⟩ := p
  cases expecting with
  | programItem =>
    obtain ⟨rfl, hw⟩ := h
    exact spells_startOperand (.program hw) ht
  | operand => exact spells_startOperand h ht
  | firstItem l =>
    obtain ⟨b, u, v, x, hu, hv, hx, rfl⟩ := h
    exact spells_itemOrCloser hu hv hx ht
  | laterItem l items =>
    obtain ⟨b, u, v, x, hu, hv, hx, rfl⟩ := h
    exact spells_itemOrCloser hu hv hx ht
  | continuation n => exact spells_continueWith h ht
  | paramsOpen =>
    obtain ⟨u, hu, rfl⟩ := h
    simp only [Parser.feed] at ht
    split at ht <;> cases ht
    rename_i hk
    exact ⟨u, [], hu, .nil, by simp [hk]⟩
  | firstParam =>
    obtain ⟨u, v, hu, hv, rfl⟩ := h
    exact spells_paramOrCloser hu hv ht
  | laterParam names =>
    obtain ⟨u, v, hu, hv, rfl⟩ := h
    exact spells_paramOrCloser hu hv ht
  | paramEnd names =>
    obtain ⟨u, v, hu, hv, rfl⟩ := h
    simp only [Parser.feed] at ht
    split at ht <;> cases ht <;> rename_i hk
    · have := Waits.body names.reverse hu (.items hv)
      simpa [Spells, hk] using this
    · exact ⟨u, _, hu, .items hv, by simp [hk]⟩

/-! ### The end of the input -/

theorem derives_of_settleEnd (h : Ends .expression σ w) {items : List Node}
    (hs : settleEnd done n σ = .ok items) : Derives .program w := by
  induction σ generalizing n w with
  | nil =>
    obtain ⟨b, u, v, hu, hv, -, rfl⟩ := h
    cases hu with
    | program hu => exact .items (hu.items_append hv)
  | cons pending σ ih =>
    cases pending with
    | operand | yes | no | body => exact ih (h.absorb rfl) hs
    | group | item | test => cases hs

theorem Spells.derives_of_finish (h : p.Spells w) {pos : Pos} {tree : Node}
    (hf : p.finish pos = .ok tree) : Derives .program w := by
  obtain ⟨done, σ, expecting⟩ := p
  cases expecting with
  | programItem => exact h.2.list
  | continuation n =>
    simp only [finish] at hf
    split at hf
    · exact derives_of_settleEnd (Ends.expression h) ‹_›
    · cases hf
  | _ => cases hf

/-- What is read to its end is derived, together with what was read before. -/
theorem Spells.derives_of_readAll (h : p.Spells w) {tokens : List Token} {pos : Pos} {tree : Node}
    (hr : p.readAll tokens (.finished pos) = .ok tree) :
    Derives .program (w ++ tokens.map Token.kind) := by
  induction tokens generalizing p w with
  | nil => simpa using h.derives_of_finish hr
  | cons t tokens ih =>
    simp only [readAll] at hr
    split at hr
    · rename_i p' hp
      simpa using ih (h.feed hp) hr
    · cases hr

end Parser

end ScopeLang
