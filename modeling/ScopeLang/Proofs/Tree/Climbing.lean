import ScopeLang.Proofs.Tree.Grouping
import ScopeLang.Proofs.Tree.OnTop
import ScopeLang.Proofs.Tree.Prefix

/-!
# Operands are grouped by precedence

Behind operands with connectives between them, the stack of the reader is the right edge of their
grouping by precedence: a further connective joins what stands there as far as it binds tighter, which
is how a further operand is attached to the grouping. When the expression ends, the right edge is joined
to the tree of the whole grouping.

## Main definitions

* `SelfDelimiting`, `Operand` — operands that end by themselves, and the trees that they are read
  as.
* `Grouping.edge`, `Grouping.last` — the right edge of a grouping, as it lies on the stack.

## Main statements

* `Parser.takes_grouping` — the reader behind a sequence of operands.
* `grouped_by_precedence` — a sequence of operands is read as its only grouping by precedence.
-/

namespace ScopeLang

open ScopeLang.Parser

/-! ### Operands -/

/-- The tokens form an operand that ends by itself: nothing that follows belongs to it, unless it is
called. -/
inductive SelfDelimiting : List TokenKind → Prop where
  | number (x : Float) : SelfDelimiting [.number x]
  | text (s : String) : SelfDelimiting [.text s]
  | trueWord : SelfDelimiting [.keyword .trueWord]
  | falseWord : SelfDelimiting [.keyword .falseWord]
  | var (x : String) : SelfDelimiting [.name x]
  | group {w : List TokenKind} : Derives .expression w →
    SelfDelimiting (.mark .openParen :: (w ++ [.mark .closeParen]))
  | block {w : List TokenKind} : Derives .program w →
    SelfDelimiting (.mark .openBrace :: (w ++ [.mark .closeBrace]))
  | call {v w : List TokenKind} : SelfDelimiting v → Derives .arguments w →
    SelfDelimiting (v ++ .mark .openParen :: (w ++ [.mark .closeParen]))

namespace SelfDelimiting

variable {w : List TokenKind}

theorem takes (h : SelfDelimiting w) (done : List Node) (σ : List Pending) :
    ∃ n, Takes ⟨done, σ, .operand⟩ w ⟨done, σ, .continuation n⟩ := by
  have literal {k : TokenKind} {n : Node} (hk : ∀ t : Token, t.kind = k →
      startOperand done σ t = .ok ⟨done, σ, .continuation n⟩) :
      ∃ n, Takes ⟨done, σ, .operand⟩ [k] ⟨done, σ, .continuation n⟩ := ⟨n, .one hk⟩
  induction h with
  | number x => exact literal (n := .number x) fun t ht => by simp [startOperand, ht]
  | text s => exact literal (n := .text s) fun t ht => by simp [startOperand, ht]
  | trueWord => exact literal (n := .bool true) fun t ht => by simp [startOperand, ht]
  | falseWord => exact literal (n := .bool false) fun t ht => by simp [startOperand, ht]
  | var x => exact literal (n := .var x) fun t ht => by simp [startOperand, ht]
  | group hw => exact takes_group (taken_of_derives hw) done σ
  | block hw => exact takes_block (taken_of_derives hw) done σ
  | call _ hw ih =>
    obtain ⟨callee, hcallee⟩ := ih
    obtain ⟨n, hcall⟩ := takes_call (taken_of_derives hw) done σ callee
    exact ⟨n, hcallee.trans hcall⟩

/-- The operand is read as the same tree wherever it stands. -/
theorem exists_tree (h : SelfDelimiting w) :
    ∃ n, ∀ done σ, Takes ⟨done, σ, .operand⟩ w ⟨done, σ, .continuation n⟩ := by
  obtain ⟨n, hn⟩ := h.takes [] []
  have bottom : ¬ OperandLast [] := by simp [OperandLast]
  exact ⟨n, fun done σ => (hn.onTop rfl (.inr bottom) done).1⟩

end SelfDelimiting

/-- An operand that ends by itself. -/
structure Operand where
  kinds : List TokenKind
  delimited : SelfDelimiting kinds

namespace Operand

/-- What the operand is read as when it is the whole program. -/
def tree (o : Operand) : Node :=
  match readAll {} (tokensAt .start o.kinds) (.finished .start) with
  | .ok (.seq [n]) => n
  | _ => .seq []

theorem takes_and_alone (o : Operand) :
    (∀ done σ, Takes ⟨done, σ, .operand⟩ o.kinds ⟨done, σ, .continuation o.tree⟩) ∧
      ∀ tokens pos, tokens.map Token.kind = o.kinds →
        readAll {} tokens (.finished pos) = .ok (.seq [o.tree]) := by
  obtain ⟨n, hn⟩ := o.delimited.exists_tree
  have program : Takes {} o.kinds ⟨[], [], .continuation n⟩ :=
    (hn [] []).elsewhere continues_self fun _ _ h => h
  have alone (tokens : List Token) (pos : Pos) (h : tokens.map Token.kind = o.kinds) :
      readAll {} tokens (.finished pos) = .ok (.seq [n]) := program.readAll_eq h pos
  obtain rfl : o.tree = n := by simp [tree, alone _ _ (map_kind_tokensAt .start o.kinds)]
  exact ⟨hn, alone⟩

theorem takes (o : Operand) (done : List Node) (σ : List Pending) :
    Takes ⟨done, σ, .operand⟩ o.kinds ⟨done, σ, .continuation o.tree⟩ := o.takes_and_alone.1 done σ

end Operand

/-! ### Groupings on the stack -/

namespace Grouping

variable {T : Grouping Operand} {c : Connective} {σ : List Pending}

/-- The tree of the whole grouping. -/
def tree : Grouping Operand → Node
  | operand o => o.tree
  | join c l r => .join c l.tree r.tree

/-- The last operand. -/
def last : Grouping Operand → Node
  | operand o => o.tree
  | join _ _ r => r.last

/-- The left sides and connectives along the right edge, innermost first. -/
def edge : Grouping Operand → List Pending
  | operand _ => []
  | join c l r => r.edge ++ [.operand l.tree c]

theorem last_attach (T : Grouping Operand) (c : Connective) (o : Operand) :
    (T.attach c o).last = o.tree := by
  induction T with
  | operand a => rfl
  | join d l r _ ih =>
    rw [attach]
    split
    · rfl
    · exact ih

/-- When the expression ends, its operands are joined to the tree of the grouping. -/
theorem settle_edge (T : Grouping Operand) (done : List Node) (t : Token) (σ : List Pending) :
    settle done t T.last (T.edge ++ σ) = settle done t T.tree σ := by
  induction T generalizing σ with
  | operand o => rfl
  | join c l r _ ih =>
    rw [edge, List.append_assoc, last, ih]
    rfl

theorem settleEnd_edge (T : Grouping Operand) (done : List Node) (σ : List Pending) :
    settleEnd done T.last (T.edge ++ σ) = settleEnd done T.tree σ := by
  induction T generalizing σ with
  | operand o => rfl
  | join c l r _ ih =>
    rw [edge, List.append_assoc, last, ih]
    rfl

/-- A connective that binds no tighter than the loosest one joins all operands. -/
theorem reduce_edge {k : Nat} (h : T.ByPrecedence) (hk : .some k ≤ T.level) (hone : .some 1 < T.level)
    (σ : List Pending) : reduce k T.last (T.edge ++ σ) = reduce k T.tree σ := by
  induction T generalizing σ with
  | operand o => rfl
  | join c l r _ ih =>
    cases c with
    | assign => exact absurd (some_lt_level_join.1 hone) (by decide)
    | binary op =>
      have hop : k ≤ op.precedence := some_le_level_join.1 hk
      have right := h.2.2.2
      have hk' : .some k ≤ r.level := (WithTop.coe_le_coe.2 hop).trans right.le
      have hone' : .some 1 < r.level := (WithTop.coe_lt_coe.2 op.one_lt_precedence).trans right
      rw [edge, List.append_assoc, last, ih h.2.1 hk' hone', List.singleton_append, reduce, if_pos hop]
      rfl

/-- A further connective joins the right edge as far as a further operand is attached behind it. -/
theorem reduce_attach (h : T.ByPrecedence) (hσ : ∀ n, reduce c.precedence n σ = (n, σ)) (o : Operand) :
    .operand (reduce c.precedence T.last (T.edge ++ σ)).1 c ::
      (reduce c.precedence T.last (T.edge ++ σ)).2 = (T.attach c o).edge ++ σ := by
  induction T generalizing σ with
  | operand a => simp [attach, edge, hσ, tree, last]
  | join d l r _ ih =>
    rw [attach]
    split
    · rename_i hbefore
      cases d with
      | assign => cases hbefore
      | binary op =>
        have hop : c.precedence ≤ op.precedence := of_decide_eq_true hbefore
        rw [reduce_edge h (some_le_level_join.2 hop) (some_lt_level_join.2 op.one_lt_precedence), hσ]
        rfl
    · rename_i hbefore
      have stays (n : Node) : reduce c.precedence n (.operand l.tree d :: σ) =
          (n, .operand l.tree d :: σ) := by
        cases d with
        | assign => simp [reduce]
        | binary op =>
          have looser : ¬ c.precedence ≤ op.precedence := fun hle => hbefore (decide_eq_true hle)
          simp [reduce, looser]
      have hr : r.ByPrecedence := by cases d <;> exact h.2.1
      simpa [edge, last] using ih hr stays

end Grouping

/-! ### Reading a sequence of operands -/

/-- The tokens of operands with connectives between them. -/
def sequenceKinds (first : Operand) (rest : List (Connective × Operand)) : List TokenKind :=
  first.kinds ++ rest.flatMap fun x => .operator x.1.symbol :: x.2.kinds

/-- The token is no operator and begins no arguments, so no expression goes on with it. -/
def TokenKind.EndsExpression (k : TokenKind) : Prop := k ≠ .mark .openParen ∧ ∀ s, k ≠ .operator s

namespace Parser

variable {σ : List Pending}

/-- Behind a sequence of operands, the right edge of its grouping lies on the stack. -/
theorem takes_grouping (first : Operand) (rest : List (Connective × Operand)) (done : List Node)
    (hσ : Bare σ) : Takes ⟨done, σ, .operand⟩ (sequenceKinds first rest)
      ⟨done, (Grouping.ofInorder first rest).edge ++ σ,
        .continuation (Grouping.ofInorder first rest).last⟩ := by
  induction rest using List.reverseRecOn with
  | nil => simpa [sequenceKinds, Grouping.ofInorder, Grouping.edge, Grouping.last] using
      first.takes done σ
  | append_singleton rest x ih =>
    obtain ⟨c, o⟩ := x
    have stops (n : Node) : reduce c.precedence n σ = (n, σ) := by
      rw [reduce]
      exact fun left op τ => hσ left (.binary op) τ
    have grouped := Grouping.reduce_attach (Grouping.byPrecedence_ofInorder first rest) stops o
    have further : Grouping.ofInorder first (rest ++ [(c, o)]) =
        (Grouping.ofInorder first rest).attach c o := by simp [Grouping.ofInorder]
    have connective (t : Token) (ht : t.kind = .operator c.symbol) :
        feed ⟨done, (Grouping.ofInorder first rest).edge ++ σ,
          .continuation (Grouping.ofInorder first rest).last⟩ t =
            .ok ⟨done, (Grouping.ofInorder first (rest ++ [(c, o)])).edge ++ σ, .operand⟩ := by
      rw [further, ← grouped]
      simp [feed, continueWith, ht, Connective.ofSymbol?_symbol]
    have whole := ih.trans (.cons connective (o.takes done _))
    rw [further, Grouping.last_attach, ← further]
    simpa [sequenceKinds] using whole

end Parser

/-- A sequence of operands with connectives between them has exactly one grouping by precedence, and it
is read as the tree of this grouping: in front of a token that continues no expression, the phrases that
wait for an expression get this tree, and so they do at the end of the input. The trees of the operands
are what they are read as when they stand alone. -/
theorem grouped_by_precedence (first : Operand) (rest : List (Connective × Operand)) :
    ∃ T : Grouping Operand, (T.ByPrecedence ∧ T.inorder = (first, rest)) ∧
      (∀ T' : Grouping Operand, T'.ByPrecedence → T'.inorder = (first, rest) → T' = T) ∧
      (∀ o : Operand, ∀ tokens pos, tokens.map Token.kind = o.kinds →
        readAll {} tokens (.finished pos) = .ok (.seq [o.tree])) ∧
      ∀ done σ, Bare σ → ∃ q, Takes ⟨done, σ, .operand⟩ (sequenceKinds first rest) q ∧
        (∀ t : Token, t.kind.EndsExpression → q.feed t = settle done t T.tree σ) ∧
        ∀ pos, q.finish pos = Parser.finish ⟨done, σ, .continuation T.tree⟩ pos := by
  refine ⟨.ofInorder first rest, ⟨Grouping.byPrecedence_ofInorder first rest,
    Grouping.inorder_ofInorder first rest⟩, fun T' hT' hinorder => ?_,
    fun o => o.takes_and_alone.2, fun done σ hσ =>
    ⟨_, takes_grouping first rest done hσ, fun t ht => ?_, fun pos => ?_⟩⟩
  · have only := Grouping.ofInorder_inorder hT'
    rw [hinorder] at only
    exact only.symm
  · exact (continueWith_eq_settle ht.1 ht.2).trans (Grouping.settle_edge _ done t σ)
  · simp only [finish, Grouping.settleEnd_edge]

/-- Between parentheses, `a = b - c - d * e` is an assignment of the difference of `b - c` and
`d * e`. -/
theorem grouped_by_precedence_in_parentheses :
    let operand (x : String) : Operand := ⟨[.name x], .var x⟩
    let rest : List (Connective × Operand) := [(.assign, operand "b"), (.binary .subtract, operand "c"),
      (.binary .subtract, operand "d"), (.binary .multiply, operand "e")]
    ∃ q, Takes ⟨[], [.group], .operand⟩ (sequenceKinds (operand "a") rest) q ∧
      q.feed ⟨.mark .closeParen, .start⟩ = .ok ⟨[], [], .continuation (.assign (.var "a")
        (.binary .subtract (.binary .subtract (.var "b") (.var "c"))
          (.binary .multiply (.var "d") (.var "e"))))⟩ := by
  intro operand rest
  obtain ⟨T, -, only, -, reads⟩ := grouped_by_precedence (operand "a") rest
  obtain ⟨q, htakes, hends, -⟩ := reads [] [.group] nofun
  refine ⟨q, htakes, (hends _ ⟨by simp, by simp⟩).trans ?_⟩
  rw [← only (.ofInorder (operand "a") rest) (Grouping.byPrecedence_ofInorder _ _)
    (Grouping.inorder_ofInorder _ _)]
  cbv

end ScopeLang
