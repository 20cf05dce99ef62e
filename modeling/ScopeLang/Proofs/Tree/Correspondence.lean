import ScopeLang.Proofs.Tree.Climbing
import ScopeLang.Proofs.Tree.Juncture

/-!
# Routines and the reader

The reader with its stack of pending phrases and the routines that call each other read alike: where a
routine begins, the reader waits for an operand, and behind it the reader stands as if it had read the
tree that the routine gives, with the same phrases pending. When the routine fails, so does the reader,
with the same error and the same stream behind it. This is proved for one routine after the other, for
any stack below, and then by induction on the depth.

## Main definitions

* `Looser` — what comes next leaves an operand alone that a connective binds.
* `Descent.Guides` — the routines of the phrases lead the reader over them.

## Main statements

* `Descent.guides_read` — so it is at every depth.
* `Descent.program_eq_parse` — within a depth beyond the number of tokens, the routine of the program
  reads what the reader reads.
-/

namespace ScopeLang

open ScopeLang.Parser

/-! ### Behind an operand -/

/-- What comes next is no call. -/
def Uncalled (o : Option TokenKind) : Prop := o ≠ some (.mark .openParen)

/-- What comes next is neither a call nor a connective that binds tighter than `min`. -/
def Looser (min : Nat) (o : Option TokenKind) : Prop :=
  Uncalled o ∧ ∀ symbol, o = some (.operator symbol) →
    ∃ c, Connective.ofSymbol? symbol = some c ∧ c.precedence ≤ min

theorem Looser.endsExpression {k : TokenKind} (h : Looser 0 (some k)) : k.EndsExpression := by
  refine ⟨fun hk => h.1 (congrArg some hk), fun symbol hk => ?_⟩
  obtain ⟨c, -, hc⟩ := h.2 symbol (congrArg some hk)
  exact absurd hc (Nat.not_le_of_lt c.precedence_pos)

theorem looser_of_stopped {l : Listed} {o : Option TokenKind} (h : Descent.Stopped l.closer o) :
    Looser 0 o := by
  rcases h with rfl | rfl
  · simp [Looser, Uncalled]
  · cases l <;> simp [Looser, Uncalled, Listed.closer]

namespace Parser

variable {P : Option TokenKind → Prop} {done : List Node} {σ τ : List Pending} {n m : Node}

theorem feed_continuation {t : Token} (h : Looser 0 (some t.kind)) :
    feed ⟨done, σ, .continuation n⟩ t = settle done t n σ :=
  continueWith_eq_settle h.endsExpression.1 h.endsExpression.2

/-- An expression that is complete is handed to a phrase that ends with it. -/
theorem leads_settled (ends : ∀ o, P o → Looser 0 o)
    (settles : ∀ t, P (some t.kind) → settle done t n σ = settle done t m τ)
    (finishes : settleEnd done n σ = settleEnd done m τ) :
    (facing ⟨done, σ, .continuation n⟩ P).Leads (anyhow ⟨done, τ, .continuation m⟩) := by
  refine leads_of_feed (fun _ _ => trivial) (fun t ht => ?_) fun _ pos => ?_
  · rw [feed_continuation (ends _ ht), feed_continuation (ends _ ht), settles t ht]
  · simp only [finish, finishes]

/-- An expression that is complete is handed to a phrase that goes on behind a token. -/
theorem demands_settled {what : Expectation} {q : Parser} (ends : ∀ o, P o → Looser 0 o)
    (met : ∀ t, what.isMet t.kind = true → settle done t n σ = .ok q)
    (missed : ∀ t, P (some t.kind) → what.isMet t.kind = false →
      settle done t n σ = .error (.expected what t))
    (missing : P none → settleEnd done n σ = .error what) :
    Demands ⟨done, σ, .continuation n⟩ P what q where
  met t ht hwhat := (feed_continuation (ends _ ht)).trans (met t hwhat)
  missed t ht hwhat := (feed_continuation (ends _ ht)).trans (missed t ht hwhat)
  missing hnone pos := by simp only [finish, missing hnone]

theorem demands_group :
    Demands ⟨done, .group :: σ, .continuation n⟩ (Looser 0) (.mark .closeParen)
      ⟨done, σ, .continuation n⟩ := by
  refine demands_settled (fun _ h => h) (fun t ht => ?_) (fun t _ ht => ?_) fun _ => rfl
  · simp [settle, Expectation.isMet_mark.1 ht]
  · unfold settle
    split
    · exact absurd ‹_› (Expectation.isMet_mark_eq_false.1 ht)
    · rfl

/-- The word before a branch is demanded where no block follows. -/
theorem demands_then : Demands ⟨done, .test :: σ, .continuation n⟩
    (fun o => Looser 0 o ∧ o ≠ some (.mark .openBrace)) (.keyword .thenWord)
      ⟨done, .yes n :: σ, .operand⟩ := by
  refine demands_settled (fun _ h => h.1) (fun t ht => ?_) (fun t hP ht => ?_) fun _ => rfl
  · simp [settle, Expectation.isMet_keyword.1 ht]
  · unfold settle
    split
    · exact absurd ‹_› (Expectation.isMet_keyword_eq_false.1 ht)
    · exact absurd (congrArg some ‹_›) hP.2
    · rfl

/-- Behind an item of a list that is not closed there, the separator is demanded. -/
theorem demands_separator {l : Listed} {items : List Node} :
    Demands ⟨done, .item l items :: σ, .continuation n⟩
      (fun o => Looser 0 o ∧ ¬ Descent.Stopped l.closer o) (.mark l.separator)
      ⟨done, σ, .laterItem l (n :: items)⟩ := by
  refine demands_settled (fun o ho => ho.1) (fun t ht => ?_) (fun t hP ht => ?_)
    fun hP => absurd (.inl rfl) hP.2
  · cases l <;> simp [settle, Expectation.isMet_mark.1 ht, Listed.separator, Listed.closer]
  · have noCloser : t.kind ≠ .mark l.closer := fun hk => hP.2 (.inr (congrArg some hk))
    have noSeparator : t.kind ≠ .mark l.separator := Expectation.isMet_mark_eq_false.1 ht
    unfold settle
    split
    · rename_i m hm
      rw [if_neg fun hclose => noCloser (by rw [hm, hclose]),
        if_neg fun hseparator => noSeparator (by rw [hm, hseparator])]
      rfl
    · rfl

/-- And so it is behind a parameter. -/
theorem demands_comma {names : List String} :
    Demands ⟨done, σ, .paramEnd names⟩ (fun o => True ∧ ¬ Descent.Stopped .closeParen o)
      (.mark .comma) ⟨done, σ, .laterParam names⟩ where
  met t _ ht := by simp [feed, Expectation.isMet_mark.1 ht]
  missed t hP ht := by
    have noCloser : t.kind ≠ .mark .closeParen := fun hk => hP.2 (.inr (congrArg some hk))
    have noSeparator : t.kind ≠ .mark .comma := Expectation.isMet_mark_eq_false.1 ht
    -- none of the marks that the reader takes here is there
    simp only [feed]
    rfl
  missing hP := absurd (.inl rfl) hP.2

@[simp] theorem bare_nil : Bare [] := nofun

@[simp] theorem bare_cons {x : Pending} : Bare (x :: σ) ↔ ∀ left c, x ≠ .operand left c := by
  simp [Bare]

/-- Operators on top of the stack are joined before no connective that binds tighter than `min`. -/
def Stays (min : Nat) (σ : List Pending) : Prop :=
  ∀ c : Connective, min < c.precedence → ∀ n, reduce c.precedence n σ = (n, σ)

theorem stays_bare (h : Bare σ) (min : Nat) : Stays min σ := by
  intro c _ n
  rw [reduce]
  exact fun left op τ => h left (.binary op) τ

theorem stays_operand (left : Node) (c : Connective) : Stays c.floor (.operand left c :: σ) := by
  intro d tighter n
  cases c with
  | assign => rfl
  | binary op =>
    have looser : ¬ d.precedence ≤ op.precedence := Nat.not_le_of_lt tighter
    rw [reduce, if_neg looser]

theorem feed_connective {min : Nat} (stays : Stays min σ) {t : Token} {symbol : String}
    {c : Connective} (ht : t.kind = .operator symbol) (hc : Connective.ofSymbol? symbol = some c)
    (tighter : min < c.precedence) :
    feed ⟨done, σ, .continuation n⟩ t = .ok ⟨done, .operand n c :: σ, .operand⟩ := by
  simp [feed, continueWith, ht, hc, stays c tighter n]

/-- In front of what binds no tighter, a pending connective may as well be joined. -/
theorem leads_joined (left right : Node) (c : Connective) :
    (facing ⟨done, .operand left c :: σ, .continuation right⟩ (Looser c.floor)).Leads
      (facing ⟨done, σ, .continuation (.join c left right)⟩ Uncalled) := by
  refine leads_of_feed (fun _ h => h.1) (fun t ht => ?_) fun _ _ => rfl
  by_cases hop : ∃ symbol, t.kind = .operator symbol
  · obtain ⟨symbol, hsymbol⟩ := hop
    obtain ⟨d, hd, looser⟩ := ht.2 symbol (congrArg some hsymbol)
    have joins : reduce d.precedence right (.operand left c :: σ) =
        reduce d.precedence (.join c left right) σ := by
      cases c with
      | assign => exact absurd looser (Nat.not_le_of_lt d.precedence_pos)
      | binary op =>
        have tighter : d.precedence ≤ op.precedence := looser
        rw [reduce, if_pos tighter]
        rfl
    simp [feed, continueWith, hsymbol, hd, joins]
  · have ends : Looser 0 (some t.kind) :=
      ⟨ht.1, fun symbol h => absurd ⟨symbol, Option.some.inj h⟩ hop⟩
    rw [feed_continuation ends, feed_continuation ends]
    rfl

end Parser

namespace Descent

open ScopeLang.Parser

variable {rounds : Nat} {inner : Routine → Descent Node}

/-- The routines of the phrases lead the reader over them. -/
structure Guides (inner : Routine → Descent Node) : Prop where
  expression : ∀ done σ, Bare σ → Follows (anyhow ⟨done, σ, .operand⟩) (inner .expression) fun n =>
    facing ⟨done, σ, .continuation n⟩ (Looser 0)
  climb : ∀ done σ left min, Stays min σ →
    Follows (facing ⟨done, σ, .continuation left⟩ Uncalled) (inner (.climb left min)) fun n =>
      facing ⟨done, σ, .continuation n⟩ (Looser min)

/-! ### Lists -/

/-- What does not close a list begins an item. -/
theorem itemOrCloser_eq {done : List Node} {σ : List Pending} {l : Listed} {items : List Node}
    {t : Token} (h : t.kind ≠ .mark l.closer) :
    itemOrCloser done σ l items t = startOperand done (.item l items :: σ) t := by
  unfold itemOrCloser
  split
  · rename_i m hm
    rw [if_neg fun hclose => h (by rw [hm, hclose])]
  · rfl

/-- The reader behind expressions of a list. -/
def behindItems (done : List Node) (σ : List Pending) (l : Listed) : List Node → Parser
  | [] => ⟨done, σ, .firstItem l⟩
  | n :: items => ⟨done, .item l items :: σ, .continuation n⟩

/-- What may follow expressions of a list. -/
def frontItems : List Node → Option TokenKind → Prop
  | [] => fun _ => True
  | _ :: _ => Looser 0

theorem lists_expressions (h : Guides inner) (done : List Node) (σ : List Pending) (l : Listed) :
    Lists l.closer l.separator (inner .expression) (behindItems done σ l)
      (fun items => ⟨done, σ, .laterItem l items⟩) frontItems
      (fun items => ⟨done, σ, .continuation (l.build items)⟩) where
  front_nil _ := trivial
  closes
    | [] => demands_of_stopped (fun t ht => by simp [behindItems, feed, itemOrCloser, ht]) fun _ => rfl
    | n :: items => demands_of_stopped (fun t ht => by
        rw [behindItems, feed_continuation (looser_of_stopped (.inr (congrArg some ht)))]
        simp [settle, ht]) fun _ => rfl
  separates _ _ := demands_separator
  feed_later
    | [], _, _ => rfl
    | n :: items, t, ht => by
      rw [behindItems, feed_continuation (looser_of_stopped (.inr (congrArg some ht)))]
      simp [feed, itemOrCloser, settle, ht]
  first := by
    refine (h.expression done (.item l [] :: σ) (by simp)).behind (leads_of_feed (fun _ _ => trivial)
      (fun t ht => ?_) fun hnone => absurd (.inl rfl) hnone)
    exact itemOrCloser_eq fun hclose => ht (.inr (congrArg some hclose))
  further n items := by
    refine (h.expression done (.item l (n :: items) :: σ) (by simp)).behind
      (leads_of_feed (fun _ _ => trivial) (fun t ht => ?_) fun _ _ => rfl)
    exact itemOrCloser_eq fun hclose => ht (congrArg some hclose)

/-- The reader behind parameters. -/
def behindParams (done : List Node) (σ : List Pending) : List String → Parser
  | [] => ⟨done, σ, .firstParam⟩
  | x :: names => ⟨done, σ, .paramEnd (x :: names)⟩

/-- A parameter is read where the reader takes names and nothing else. -/
theorem follows_variableName {p : Parser} {P : Option TokenKind → Prop} {behind : String → Parser}
    (takes : ∀ t x, t.kind = .name x → p.feed t = .ok (behind x))
    (refuses : ∀ t, P (some t.kind) → (∀ x, t.kind ≠ .name x) → p.feed t = .error (.expectedName t))
    (missing : P none → ∀ pos, p.finish pos = .error (.malformed (.expected .variableName none) pos)) :
    Follows (p.facing P) variableName fun x => (behind x).anyhow := by
  refine follows_next (fun t ht => ?_) fun hnone => ⟨_, rfl, missing hnone⟩
  obtain ⟨kind, pos⟩ := t
  cases kind with
  | name x => exact .inl ⟨_, takes _ x rfl, follows_pure .rfl⟩
  | _ => exact .inr ⟨_, refuses _ ht nofun, rfl⟩

theorem lists_params (done : List Node) (σ : List Pending) :
    Lists .closeParen .comma variableName (behindParams done σ)
      (fun names => ⟨done, σ, .laterParam names⟩) (fun _ _ => True)
      (fun names => ⟨done, .body names :: σ, .operand⟩) where
  front_nil _ := trivial
  closes
    | [] => demands_of_stopped (fun t ht => by simp [behindParams, feed, paramOrCloser, ht])
      fun _ => rfl
    | x :: names => demands_of_stopped (fun t ht => by simp [behindParams, feed, ht]) fun _ => rfl
  separates _ _ := demands_comma
  feed_later names t ht := by cases names <;> simp [behindParams, feed, paramOrCloser, ht]
  first := by
    refine follows_variableName (fun t x ht => by simp [behindParams, feed, paramOrCloser, ht])
      (fun t ht hname => ?_) fun hnone => absurd (.inl rfl) hnone
    have noCloser : t.kind ≠ .mark .closeParen := fun hk => ht (.inr (congrArg some hk))
    simp only [behindParams, feed, paramOrCloser]
  further x names := by
    refine follows_variableName (fun t x ht => by simp [behindParams, feed, paramOrCloser, ht])
      (fun t ht hname => ?_) fun _ _ => rfl
    have noCloser : t.kind ≠ .mark .closeParen := fun hk => ht (congrArg some hk)
    simp only [feed, paramOrCloser]

/-! ### Phrases -/

section

variable (h : Guides inner) (done : List Node) (σ : List Pending)

include h

theorem follows_group : Follows (anyhow ⟨done, .group :: σ, .operand⟩) (group inner) fun n =>
    anyhow ⟨done, σ, .continuation n⟩ :=
  (h.expression done (.group :: σ) (by simp)).bind fun _ =>
    (follows_expect demands_group).bind fun _ => follows_pure .rfl

theorem follows_block (rounds : Nat) :
    Follows (facing ⟨done, σ, .operand⟩ (· = some (.mark .openBrace))) (block rounds inner) fun n =>
      anyhow ⟨done, σ, .continuation n⟩ := by
  have opens : Demands ⟨done, σ, .operand⟩ (· = some (.mark .openBrace)) (.mark .openBrace)
      (behindItems done σ .block []) := demands_of_seen (fun _ => Expectation.any_isMet_mark.2)
    fun t ht => by simp [behindItems, feed, startOperand, Expectation.isMet_mark.1 ht]
  exact (follows_delimited (lists_expressions h done σ .block) opens rounds).bind fun items =>
    follows_pure .rfl

omit h in
/-- In front of a block the word before a branch may be left out. -/
theorem follows_thenWord (test : Node) (braced : Bool) :
    Follows (facing ⟨done, .test :: σ, .continuation test⟩ fun o =>
      Looser 0 o ∧ o.any (Expectation.mark .openBrace).isMet = braced)
      (expectIf (!braced) (.keyword .thenWord)) fun _ => anyhow ⟨done, .yes test :: σ, .operand⟩ := by
  cases braced with
  | true =>
    have found {o : Option TokenKind}
        (ho : Looser 0 o ∧ o.any (Expectation.mark .openBrace).isMet = true) :
        o = some (.mark .openBrace) := Expectation.any_isMet_mark.1 ho.2
    refine follows_pure (leads_of_feed (fun _ _ => trivial) (fun t ht => ?_) fun hnone => ?_)
    · rw [feed_continuation ht.1]
      simp [feed, settle, startOperand, Option.some.inj (found ht)]
    · cases found hnone
  | false => exact (follows_expect demands_then).behind (leads_of_weaker fun o ho =>
      ⟨ho.1, Expectation.any_isMet_mark_eq_false.1 ho.2⟩)

theorem follows_conditional : Follows (facing ⟨done, σ, .operand⟩ (· = some (.keyword .ifWord)))
    (conditional inner) fun n => anyhow ⟨done, σ, .continuation n⟩ := by
  have opens : Demands ⟨done, σ, .operand⟩ (· = some (.keyword .ifWord)) (.keyword .ifWord)
      ⟨done, .test :: σ, .operand⟩ := demands_of_seen (fun _ => Expectation.any_isMet_keyword.2)
    fun t ht => by simp [feed, startOperand, Expectation.isMet_keyword.1 ht]
  refine (follows_expect opens).bind fun _ => ?_
  refine (h.expression done (.test :: σ) (by simp)).bind fun test => follows_sees.bind fun braced => ?_
  refine (follows_thenWord done σ test braced).bind fun _ => ?_
  refine (h.expression done (.yes test :: σ) (by simp)).bind fun yes => ?_
  have other (t : Token) (ht : Looser 0 (some t.kind))
      (hmet : (Expectation.keyword .elseWord).isMet t.kind = true) :
      feed ⟨done, .yes test :: σ, .continuation yes⟩ t = .ok ⟨done, .no test yes :: σ, .operand⟩ := by
    rw [feed_continuation ht]
    simp [settle, Expectation.isMet_keyword.1 hmet]
  refine (follows_accept other).bind fun found => ?_
  cases found with
  | true =>
    exact (h.expression done (.no test yes :: σ) (by simp)).bind fun no => follows_pure
      (leads_settled (fun _ ho => ho) (fun t _ => by rw [settle]) rfl)
  | false =>
    refine follows_pure (leads_settled (fun o ho => ho.1) (fun t ht => ?_) rfl)
    exact settle_yes (by simpa using ht.2) test

theorem follows_function : Follows (anyhow ⟨done, σ, .paramsOpen⟩) (function rounds inner) fun n =>
    anyhow ⟨done, σ, .continuation n⟩ := by
  have opens : Demands ⟨done, σ, .paramsOpen⟩ (fun _ => True) (.mark .openParen)
      (behindParams done σ []) := {
    met := fun t _ ht => by simp [behindParams, feed, Expectation.isMet_mark.1 ht]
    missed := fun t _ ht => by
      have noOpening : t.kind ≠ .mark .openParen := Expectation.isMet_mark_eq_false.1 ht
      simp only [feed]
      rfl
    missing := fun _ _ => rfl }
  refine (follows_delimited (lists_params done σ) opens rounds).bind fun params => ?_
  exact (h.expression done (.body params :: σ) (by simp)).bind fun body => follows_pure
    (leads_settled (fun _ ho => ho) (fun t _ => by rw [settle]) rfl)

omit h in
/-- What begins with none of the marks and words that open a phrase is an operand by itself. -/
theorem follows_literal : Follows (facing ⟨done, σ, .operand⟩ fun o =>
    (((True ∧ o ≠ some (.mark .openParen)) ∧ o ≠ some (.mark .openBrace)) ∧
      o ≠ some (.keyword .ifWord)) ∧ o ≠ some (.keyword .lambdaWord)) literal fun n =>
        anyhow ⟨done, σ, .continuation n⟩ := by
  refine follows_next (fun t ht => ?_) fun _ => ⟨_, rfl, fun _ => rfl⟩
  obtain ⟨kind, pos⟩ := t
  cases kind with
  | number x => exact .inl ⟨_, rfl, follows_pure .rfl⟩
  | text s => exact .inl ⟨_, rfl, follows_pure .rfl⟩
  | name x => exact .inl ⟨_, rfl, follows_pure .rfl⟩
  | operator symbol => exact .inr ⟨_, rfl, rfl⟩
  | keyword w =>
    cases w with
    | trueWord | falseWord => exact .inl ⟨_, rfl, follows_pure .rfl⟩
    | thenWord | elseWord => exact .inr ⟨_, rfl, rfl⟩
    | ifWord => exact absurd rfl ht.1.2
    | lambdaWord => exact absurd rfl ht.2
  | mark m =>
    cases m with
    | openParen => exact absurd rfl ht.1.1.1.2
    | openBrace => exact absurd rfl ht.1.1.2
    | _ => exact .inr ⟨_, rfl, rfl⟩

theorem follows_primary : Follows (anyhow ⟨done, σ, .operand⟩) (primary rounds inner) fun n =>
    anyhow ⟨done, σ, .continuation n⟩ := by
  have group (t : Token) (_ : True) (ht : (Expectation.mark .openParen).isMet t.kind = true) :
      feed ⟨done, σ, .operand⟩ t = .ok ⟨done, .group :: σ, .operand⟩ := by
    simp [feed, startOperand, Expectation.isMet_mark.1 ht]
  have function {P : Option TokenKind → Prop} (t : Token) (_ : P (some t.kind))
      (ht : (Expectation.keyword .lambdaWord).isMet t.kind = true) :
      feed ⟨done, σ, .operand⟩ t = .ok ⟨done, σ, .paramsOpen⟩ := by
    simp [feed, startOperand, Expectation.isMet_keyword.1 ht]
  refine (follows_accept group).bind fun opened => ?_
  cases opened with
  | true => exact follows_group h done σ
  | false =>
    refine follows_sees.bind fun braced => ?_
    cases braced with
    | true =>
      have block := follows_block h done σ rounds
      exact block.behind (leads_of_weaker fun o ho => Expectation.any_isMet_mark.1 ho.2)
    | false =>
      refine follows_sees.bind fun tested => ?_
      cases tested with
      | true =>
        have conditional := follows_conditional h done σ
        exact conditional.behind (leads_of_weaker fun o ho => Expectation.any_isMet_keyword.1 ho.2)
      | false =>
        refine (follows_accept function).bind fun abstracted => ?_
        cases abstracted with
        | true => exact follows_function h done σ
        | false => exact (follows_literal done σ).behind (leads_of_weaker (by simp))

/-- Where a call may follow, anything may follow it. -/
theorem follows_callRound {P : Option TokenKind → Prop} (callee : Node)
    (anything : P (some (.mark .openParen)) → ∀ o, P o) :
    Follows (facing ⟨done, σ, .continuation callee⟩ P) (callRound rounds inner callee)
      (behindRound (fun n => facing ⟨done, σ, .continuation n⟩ P)
        (fun n => facing ⟨done, σ, .continuation n⟩ fun o => P o ∧ Uncalled o)) := by
  refine follows_sees_bind fun called seen => ?_
  cases called with
  | true =>
    obtain ⟨o, hP, ho⟩ := seen
    obtain rfl : o = some (.mark .openParen) := Expectation.any_isMet_mark.1 ho
    have opens : Demands ⟨done, σ, .continuation callee⟩
        (fun o => P o ∧ o.any (Expectation.mark .openParen).isMet = true) (.mark .openParen)
        (behindItems done σ (.args callee) []) := demands_of_seen (fun _ ho => ho.2)
      fun t ht => by simp [behindItems, feed, continueWith, Expectation.isMet_mark.1 ht]
    have args := follows_delimited (lists_expressions h done σ (.args callee)) opens rounds
    exact args.bind fun args => follows_pure (leads_of_weaker fun o _ => anything hP o)
  | false => exact follows_pure (leads_of_weaker fun o ho => ⟨ho.1, by simpa [Uncalled] using ho.2⟩)

theorem follows_calls {P : Option TokenKind → Prop} (callee : Node)
    (anything : P (some (.mark .openParen)) → ∀ o, P o) :
    Follows (facing ⟨done, σ, .continuation callee⟩ P) (calls rounds inner callee) fun n =>
      facing ⟨done, σ, .continuation n⟩ fun o => P o ∧ Uncalled o :=
  follows_loop (fun n => follows_callRound h done σ n anything) rounds callee

theorem follows_atom : Follows (anyhow ⟨done, σ, .operand⟩) (atom rounds inner) fun n =>
    facing ⟨done, σ, .continuation n⟩ Uncalled :=
  (follows_primary h done σ).bind fun n =>
    (follows_calls h done σ n fun _ _ => trivial).ahead fun _ => leads_of_weaker fun _ ho => ho.2

theorem follows_climbRound {min : Nat} (stays : Stays min σ) (left : Node) :
    Follows (facing ⟨done, σ, .continuation left⟩ Uncalled) (climbRound rounds inner min left)
      (behindRound (fun n => facing ⟨done, σ, .continuation n⟩ Uncalled)
        (fun n => facing ⟨done, σ, .continuation n⟩ (Looser min))) := by
  refine follows_peek.bind fun o => ?_
  split
  · rename_i symbol pos
    split
    · rename_i hsymbol
      exact follows_fail_token fun _ => by simp [feed, continueWith, hsymbol, Fault.unknownOperator]
    · rename_i c hsymbol
      split
      · rename_i looser
        refine follows_pure (leads_facing fun uncalled => ⟨uncalled, fun other hother => ?_⟩)
        cases hother
        exact ⟨c, hsymbol, looser⟩
      · rename_i looser
        have tighter : min < c.precedence := Nat.lt_of_not_le looser
        refine (follows_next_token fun _ => feed_connective stays rfl hsymbol tighter).bind fun _ => ?_
        refine (follows_atom h done (.operand left c :: σ)).bind fun operand => ?_
        refine (h.climb done _ operand c.floor (stays_operand left c)).bind fun right => ?_
        exact follows_pure (leads_joined left right c)
  · rename_i hother
    refine follows_pure (leads_facing fun uncalled => ⟨uncalled, fun symbol hsymbol => ?_⟩)
    obtain ⟨⟨kind, pos⟩, rfl, rfl⟩ := Option.map_eq_some_iff.1 hsymbol
    exact absurd rfl (hother symbol pos)

theorem follows_expression (bare : Bare σ) : Follows (anyhow ⟨done, σ, .operand⟩)
    (expression rounds inner) fun n => facing ⟨done, σ, .continuation n⟩ (Looser 0) := by
  refine (follows_atom h done σ).bind fun operand => ?_
  refine (h.climb done σ operand 0 (stays_bare bare 0)).bind fun n => ?_
  exact (follows_calls h done σ n fun hcall => absurd rfl hcall.1).ahead fun _ =>
    leads_of_weaker fun _ ho => ho.1

end

/-- Routines that lead the reader over the phrases inside lead it over the phrases outside. -/
theorem guides_read (depth : Nat) : Guides (read depth) := by
  induction depth with
  | zero => exact ⟨fun _ _ _ => follows_none, fun _ _ _ _ _ => follows_none⟩
  | succ k ih =>
    exact ⟨fun done σ bare => follows_expression ih done σ bare, fun done σ left min stays =>
      follows_loop (fun n => follows_climbRound ih done σ stays n) _ left⟩

/-! ### Programs -/

/-- The reader behind expressions of the program. -/
def behindProgram (items : List Node) : Parser := ⟨items, [], .programItem⟩

theorem demands_semicolon (items : List Node) (n : Node) :
    Demands ⟨items, [], .continuation n⟩ (fun o => Looser 0 o ∧ o ≠ none) (.mark .semicolon)
      (behindProgram (n :: items)) := by
  refine demands_settled (fun o ho => ho.1) (fun t ht => ?_) (fun t _ ht => ?_)
    fun hnone => absurd rfl hnone.2
  · simp [settle, behindProgram, Expectation.isMet_mark.1 ht]
  · unfold settle
    split
    · exact absurd ‹_› (Expectation.isMet_mark_eq_false.1 ht)
    · rfl

/-- Behind the last expression the separator may be left out. -/
theorem leads_behindProgram (items : List Node) (n : Node) :
    (lookingAt ⟨items, [], .continuation n⟩ (Looser 0) none).Leads
      (behindProgram (n :: items)).anyhow := by
  have looks : (lookingAt ⟨items, [], .continuation n⟩ (Looser 0) none).Leads
      (facing ⟨items, [], .continuation n⟩ (· = none)) := leads_facing fun _ => rfl
  exact looks.trans (leads_of_feed (fun _ _ => trivial) nofun fun _ _ => rfl)

theorem follows_programRound (depth : Nat) (items : List Node) :
    Follows (behindProgram items).anyhow (programRound depth items)
      (behindRound (fun items => (behindProgram items).anyhow)
        (fun items => (behindProgram items).lookingAt (fun _ => True) none)) := by
  refine follows_atEnd.bind fun ended => ?_
  cases ended with
  | true => exact follows_pure .rfl
  | false =>
    have begins : ((behindProgram items).facing fun o => True ∧ o ≠ none).Leads
        (anyhow ⟨items, [], .operand⟩) :=
      leads_of_feed (fun _ _ => trivial) (fun _ _ => rfl) fun hnone => absurd rfl hnone.2
    have expression := ((guides_read depth).expression items [] bare_nil).behind begins
    refine expression.bind fun n => follows_atEnd.bind fun ended => ?_
    cases ended with
    | true =>
      have none : Follows (lookingAt ⟨items, [], .continuation n⟩ (Looser 0) none)
          (expectIf false (.mark .semicolon)) fun _ => (behindProgram (n :: items)).anyhow :=
        follows_pure (leads_behindProgram items n)
      exact none.bind fun _ => follows_pure .rfl
    | false => exact (follows_expect (demands_semicolon items n)).bind fun _ => follows_pure .rfl

/-- When the routine of the program is done, it has read what the reader reads. -/
theorem parse_eq_of_program {depth : Nat} {s s' : TokenStream} {r : Except Error Node}
    (h : program depth s = some (r, s')) : s.parse = (r, s') := by
  have items := follows_loop (follows_programRound depth) depth [] s (fun _ _ => trivial)
  rcases bind_eq_some h with ⟨done, s₁, hdone, hend⟩ | ⟨e, he, rfl⟩
  · obtain ⟨⟨looked, -⟩, same⟩ := items _ _ hdone
    cases hend
    exact same.trans (run_of_finished (TokenStream.next_of_looked_end looked))
  · exact items _ _ he

/-- So many nested calls and rounds of a loop as there are tokens, and one, suffice to read what the
reader reads. -/
theorem program_eq_parse {depth : Nat} {s : TokenStream} (enough : s.unread < depth) :
    program depth s = some s.parse := by
  obtain ⟨⟨r, s'⟩, h⟩ := returns_program enough s (Nat.le_refl _)
  rw [h, parse_eq_of_program h]

end Descent

end ScopeLang
