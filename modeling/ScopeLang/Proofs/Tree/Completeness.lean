import ScopeLang.Proofs.Tree.Soundness

/-!
# Every program is read

The reader takes every phrase of the grammar wherever the phrase may stand, on top of any stack of
pending phrases. It may come out with more pending phrases than before: it gives what follows to the
innermost phrase that can have it. All of them are open, that is, they end with their last
expression, so nothing that the grammar allows next can fail on them.

## Main definitions

* `Parser.Takes` — taking a sequence of tokens leads from one reader to another.
* `Parser.Continues` — the reader is behind an operand of an expression.
* `Parser.Enclosing` — the lists that items stand in.
* `Parser.Taken` — what it means to take a phrase.

## Main statements

* `Parser.taken_of_derives` — every derived sequence of tokens is taken as its phrase.
* `parse_isOk_iff` — a text is accepted exactly if it is a sequence of tokens that forms a program.
-/

namespace ScopeLang

open TokenKind (mark keyword operator)

variable {done : List Node} {σ π : List Pending} {n : Node}

namespace Parser

variable {p q r : Parser} {v w : List TokenKind}

/-- The reader takes tokens of these kinds, wherever in the text they stand. -/
inductive Takes : Parser → List TokenKind → Parser → Prop where
  | nil (p : Parser) : Takes p [] p
  | cons {p q r : Parser} {k : TokenKind} {w : List TokenKind} :
    (∀ t : Token, t.kind = k → p.feed t = .ok q) → Takes q w r → Takes p (k :: w) r

namespace Takes

theorem one {k : TokenKind} (h : ∀ t : Token, t.kind = k → p.feed t = .ok q) : Takes p [k] q :=
  .cons h (.nil q)

theorem trans (h : Takes p v q) (h' : Takes q w r) : Takes p (v ++ w) r := by
  induction h with
  | nil => exact h'
  | cons hk _ ih => exact .cons hk (ih h')

/-- Tokens that are taken may be left out when the reader starts behind them. -/
theorem readAll_append (h : Takes p w q) {tokens : List Token} (ht : tokens.map Token.kind = w)
    (rest : List Token) (ending : Ending) :
    p.readAll (tokens ++ rest) ending = q.readAll rest ending := by
  induction h generalizing tokens with
  | nil =>
    obtain rfl := List.map_eq_nil_iff.1 ht
    rfl
  | cons hk _ ih =>
    cases tokens with
    | nil => simp at ht
    | cons t tokens =>
      obtain ⟨hkind, hrest⟩ := List.cons.inj ht
      simp only [List.cons_append, readAll, hk t hkind]
      exact ih hrest

theorem readAll_eq (h : Takes p w q) {tokens : List Token} (ht : tokens.map Token.kind = w)
    (pos : Pos) : p.readAll tokens (.finished pos) = q.finish pos := by
  rw [← List.append_nil tokens, h.readAll_append ht]
  rfl

end Takes

/-! ### Open phrases -/

/-- No operand is pending on top: an expression may begin. -/
def Bare (σ : List Pending) : Prop := ∀ left c τ, σ ≠ .operand left c :: τ

/-- The reader is behind an operand, with nothing but open phrases on top of `σ`. -/
def Continues (done : List Node) (σ : List Pending) (p : Parser) : Prop :=
  ∃ π n, (∀ x ∈ π, x.isOpen = true) ∧ p = ⟨done, π ++ σ, .continuation n⟩

theorem continues_self : Continues done σ ⟨done, σ, .continuation n⟩ :=
  ⟨[], n, nofun, rfl⟩

theorem Continues.of_append (hπ : ∀ x ∈ π, x.isOpen = true) (h : Continues done (π ++ σ) p) :
    Continues done σ p := by
  obtain ⟨ρ, n, hρ, rfl⟩ := h
  refine ⟨ρ ++ π, n, fun x hx => ?_, by simp⟩
  exact (List.mem_append.1 hx).elim (hρ x) (hπ x)

theorem settle_yes {t : Token} (ht : t.kind ≠ keyword .elseWord) (test : Node) :
    settle done t n (.yes test :: σ) = settle done t (.ifThen test n) σ := by
  conv => lhs; unfold settle
  split
  · exact absurd ‹_› ht
  · rfl

theorem Continues.of_open {x : Pending} (hx : x.isOpen = true) (h : Continues done (x :: σ) p) :
    Continues done σ p :=
  Continues.of_append (List.forall_mem_singleton.2 hx) h

/-- A phrase is taken wherever its first token begins an operand. -/
theorem Takes.elsewhere {τ : List Pending} (h : Takes ⟨done, τ, .operand⟩ w q)
    (hq : Continues done σ q) (hp : ∀ t r, startOperand done τ t = .ok r → p.feed t = .ok r) :
    Takes p w q := by
  cases h with
  | nil =>
    obtain ⟨_, _, -, h⟩ := hq
    cases h
  | cons hk hrest => exact .cons (fun t ht => hp t _ (hk t ht)) hrest

/-- A token other than `else` passes open phrases by. -/
theorem settle_open (done : List Node) (σ : List Pending) (hπ : ∀ x ∈ π, x.isOpen = true)
    (n : Node) : ∃ n', ∀ t : Token, t.kind ≠ .keyword .elseWord →
      settle done t n (π ++ σ) = settle done t n' σ := by
  induction π generalizing n with
  | nil => exact ⟨n, fun _ _ => rfl⟩
  | cons x π ih =>
    obtain ⟨hx, hrest⟩ := List.forall_mem_cons.1 hπ
    cases x with
    | group | item | test => cases hx
    | operand left c => exact ih hrest (.join c left n)
    | no test yes => exact ih hrest (.ifElse test yes n)
    | body params => exact ih hrest (.lambda params n)
    | yes test =>
      obtain ⟨n', h⟩ := ih hrest (.ifThen test n)
      refine ⟨n', fun t ht => ?_⟩
      rw [List.cons_append, settle_yes ht, h t ht]

/-- An `else` goes to the innermost conditional that lacks one. -/
theorem settle_else (done : List Node) (σ : List Pending) (hπ : ∀ x ∈ π, x.isOpen = true)
    (test n : Node) :
    ∃ test' yes ρ, (∀ x ∈ ρ, x.isOpen = true) ∧ ∀ t : Token, t.kind = .keyword .elseWord →
      settle done t n (π ++ .yes test :: σ) = .ok ⟨done, .no test' yes :: (ρ ++ σ), .operand⟩ := by
  induction π generalizing n with
  | nil => exact ⟨test, n, [], nofun, fun t ht => by simp [settle, ht]⟩
  | cons x π ih =>
    obtain ⟨hx, hrest⟩ := List.forall_mem_cons.1 hπ
    cases x with
    | group | item | test => cases hx
    | operand left c => exact ih hrest (.join c left n)
    | no test yes => exact ih hrest (.ifElse test yes n)
    | body params => exact ih hrest (.lambda params n)
    | yes test' =>
      refine ⟨test', n, π ++ [.yes test], fun x hx => ?_, fun t ht => by simp [settle, ht]⟩
      rcases List.mem_append.1 hx with hx | hx
      · exact hrest x hx
      · rw [List.mem_singleton.1 hx]
        rfl

theorem settleEnd_open (done : List Node) (hπ : ∀ x ∈ π, x.isOpen = true) (n : Node) :
    ∃ items, settleEnd done n π = .ok items := by
  induction π generalizing n with
  | nil => exact ⟨_, rfl⟩
  | cons x π ih =>
    obtain ⟨hx, hrest⟩ := List.forall_mem_cons.1 hπ
    cases x with
    | group | item | test => cases hx
    | operand left c => exact ih hrest (.join c left n)
    | yes test => exact ih hrest (.ifThen test n)
    | no test yes => exact ih hrest (.ifElse test yes n)
    | body params => exact ih hrest (.lambda params n)

/-- Operators are joined within one expression only. -/
theorem reduce_open (hπ : ∀ x ∈ π, x.isOpen = true) (hσ : Bare σ) (k : Nat) (n : Node) :
    ∃ n' ρ, (∀ x ∈ ρ, x.isOpen = true) ∧ reduce k n (π ++ σ) = (n', ρ ++ σ) := by
  induction π generalizing n with
  | nil =>
    refine ⟨n, [], nofun, ?_⟩
    rw [List.nil_append, reduce]
    exact fun left op τ => hσ left (.binary op) τ
  | cons x π ih =>
    obtain ⟨-, hrest⟩ := List.forall_mem_cons.1 hπ
    rw [List.cons_append]
    unfold reduce
    split
    · rename_i left op rest heq
      obtain ⟨rfl, rfl⟩ := List.cons.inj heq
      split
      · exact ih hrest _
      · exact ⟨_, _, hπ, rfl⟩
    · exact ⟨_, _, hπ, rfl⟩

/-- Behind an operand, all tokens but operators and opening parentheses settle the expression. -/
theorem continueWith_eq_settle {t : Token} (hparen : t.kind ≠ mark .openParen)
    (hop : ∀ s, t.kind ≠ operator s) : continueWith done σ n t = settle done t n σ := by
  unfold continueWith
  split
  · exact absurd ‹_› hparen
  · exact absurd ‹_› (hop _)
  · rfl

/-- A token that only settles an expression passes all open phrases by. -/
theorem Continues.takes_of_settle (h : Continues done σ p) {k : TokenKind}
    (hparen : k ≠ mark .openParen) (hop : ∀ s, k ≠ operator s) (helse : k ≠ keyword .elseWord) :
    ∃ n, ∀ q, (∀ t : Token, t.kind = k → settle done t n σ = .ok q) → Takes p [k] q := by
  obtain ⟨π, n, hπ, rfl⟩ := h
  obtain ⟨n', hn'⟩ := settle_open done σ hπ n
  refine ⟨n', fun q hq => .one fun t ht => ?_⟩
  simp only [feed]
  rw [continueWith_eq_settle (ht ▸ hparen) (fun s => ht ▸ hop s), hn' t (ht ▸ helse), hq t ht]

/-! ### Lists -/

/-- What the items of a list stand in: the program, a bracketed list of expressions, or the
parameters of a lambda. -/
inductive Enclosing where
  | program
  | listed (list : Listed) (done : List Node) (stack : List Pending)
  | params (done : List Node) (stack : List Pending)

namespace Enclosing

def item : Enclosing → Phrase
  | program | listed _ _ _ => .expression
  | params _ _ => .name

def separator : Enclosing → Mark
  | program => .semicolon
  | listed l _ _ => l.separator
  | params _ _ => .comma

/-- The reader waits for a further item, or for the end of the list. -/
inductive Awaits : Enclosing → Parser → Prop where
  | program (done : List Node) : Awaits program ⟨done, [], .programItem⟩
  | firstItem {l : Listed} {done : List Node} {σ : List Pending} :
    Awaits (listed l done σ) ⟨done, σ, .firstItem l⟩
  | laterItem {l : Listed} {done : List Node} {σ : List Pending} (items : List Node) :
    Awaits (listed l done σ) ⟨done, σ, .laterItem l items⟩
  | firstParam {done : List Node} {σ : List Pending} : Awaits (params done σ) ⟨done, σ, .firstParam⟩
  | laterParam {done : List Node} {σ : List Pending} (names : List String) :
    Awaits (params done σ) ⟨done, σ, .laterParam names⟩

/-- The reader is behind an item. -/
inductive Behind : Enclosing → Parser → Prop where
  | program {done : List Node} {p : Parser} : Continues done [] p → Behind program p
  | listed {l : Listed} {done : List Node} {σ : List Pending} {items : List Node} {p : Parser} :
    Continues done (.item l items :: σ) p → Behind (listed l done σ) p
  | params {done : List Node} {σ : List Pending} (names : List String) :
    Behind (params done σ) ⟨done, σ, .paramEnd names⟩

end Enclosing

/-- The reader takes the tokens as the phrase, on top of any stack. -/
def Taken : Phrase → List TokenKind → Prop
  | .expression, w => ∀ done σ, Bare σ →
    ∃ q, Takes ⟨done, σ, .operand⟩ w q ∧ Continues done σ q
  | .atom, w | .primary, w => ∀ done σ, ∃ q, Takes ⟨done, σ, .operand⟩ w q ∧ Continues done σ q
  | .branch, w => ∀ done σ p, Continues done (.test :: σ) p →
    ∃ test q, Takes p w q ∧ Continues done (.yes test :: σ) q
  | .name, w => ∃ x, w = [.name x]
  | .items item m, w => ∀ c : Enclosing, c.item = item → c.separator = m → ∀ p, c.Awaits p →
    ∃ q, Takes p w q ∧ c.Behind q
  | .list item m, w => ∀ c : Enclosing, c.item = item → c.separator = m → ∀ p, c.Awaits p →
    ∃ q, Takes p w q ∧ (c.Awaits q ∨ c.Behind q)

namespace Enclosing

variable {c : Enclosing} {p : Parser} {w : List TokenKind}

/-- No operand begins with a closing mark. -/
theorem feed_item_eq {l : Listed} {items : List Node} {t : Token} {q : Parser}
    (h : startOperand done (.item l items :: σ) t = .ok q) :
    itemOrCloser done σ l items t = .ok q := by
  unfold itemOrCloser
  split
  · rename_i m hk
    split
    · rename_i hm
      subst hm
      cases l <;> simp [startOperand, hk, Listed.closer] at h
    · exact h
  · exact h

/-- An item may stand wherever one is awaited. -/
theorem Awaits.takes_item (h : c.Awaits p) (hw : Taken c.item w) :
    ∃ q, Takes p w q ∧ c.Behind q := by
  cases h with
  | program done =>
    obtain ⟨q, htakes, hq⟩ := hw done [] nofun
    exact ⟨q, htakes.elsewhere hq fun _ _ h => h, .program hq⟩
  | @firstItem l done σ =>
    obtain ⟨q, htakes, hq⟩ := hw done (.item l [] :: σ) nofun
    exact ⟨q, htakes.elsewhere hq fun _ _ => feed_item_eq, .listed hq⟩
  | @laterItem l done σ items =>
    obtain ⟨q, htakes, hq⟩ := hw done (.item l items :: σ) nofun
    exact ⟨q, htakes.elsewhere hq fun _ _ => feed_item_eq, .listed hq⟩
  | firstParam =>
    obtain ⟨x, rfl⟩ := hw
    exact ⟨_, .one fun t ht => by simp [feed, paramOrCloser, ht], .params [x]⟩
  | laterParam names =>
    obtain ⟨x, rfl⟩ := hw
    exact ⟨_, .one fun t ht => by simp [feed, paramOrCloser, ht], .params (x :: names)⟩

/-- Behind an item a separator may stand. -/
theorem Behind.takes_separator (h : c.Behind p) :
    ∃ q, Takes p [mark c.separator] q ∧ c.Awaits q := by
  cases h with
  | @program done _ hp =>
    obtain ⟨n, hn⟩ := hp.takes_of_settle (k := mark .semicolon) (by simp) (by simp) (by simp)
    exact ⟨_, hn _ fun t ht => by simp [settle, ht], .program (n :: done)⟩
  | @listed l done σ items _ hp =>
    obtain ⟨n, hn⟩ := hp.takes_of_settle (k := mark l.separator)
      (by cases l <;> simp [Listed.separator]) (by simp) (by simp)
    refine ⟨_, hn _ fun t ht => ?_, .laterItem (n :: items)⟩
    cases l <;> simp [settle, ht, Listed.separator, Listed.closer]
  | params names => exact ⟨_, .one fun t ht => by simp [feed, ht, separator], .laterParam names⟩

/-- A bracketed list may be closed behind an item and where one is awaited. -/
theorem listed_takes_closer {l : Listed}
    (h : (listed l done σ).Awaits p ∨ (listed l done σ).Behind p) :
    ∃ n, Takes p [mark l.closer] ⟨done, σ, .continuation n⟩ := by
  rcases h with h | h
  · cases h with
    | firstItem => exact ⟨l.build [], .one fun t ht => by simp [feed, itemOrCloser, ht]⟩
    | laterItem items =>
      exact ⟨l.build items.reverse, .one fun t ht => by simp [feed, itemOrCloser, ht]⟩
  · cases h with
    | @listed _ _ _ items _ hp =>
      obtain ⟨n, hn⟩ := hp.takes_of_settle (k := mark l.closer)
        (by cases l <;> simp [Listed.closer]) (by simp) (by simp)
      exact ⟨l.build (n :: items).reverse, hn _ fun t ht => by simp [settle, ht]⟩

theorem params_takes_closer (h : (params done σ).Awaits p ∨ (params done σ).Behind p) :
    ∃ names, Takes p [mark .closeParen] ⟨done, .body names :: σ, .operand⟩ := by
  rcases h with h | h
  · cases h with
    | firstParam => exact ⟨[], .one fun t ht => by simp [feed, paramOrCloser, ht]⟩
    | laterParam names =>
      exact ⟨names.reverse, .one fun t ht => by simp [feed, paramOrCloser, ht]⟩
  · cases h with
    | params names => exact ⟨names.reverse, .one fun t ht => by simp [feed, ht]⟩

/-- The input may end behind an item of the program and where one is awaited. -/
theorem program_finish (h : program.Awaits p ∨ program.Behind p) (pos : Pos) :
    ∃ tree, p.finish pos = .ok tree := by
  rcases h with h | h
  · cases h
    exact ⟨_, rfl⟩
  · cases h with
    | @program done _ hp =>
      obtain ⟨π, n, hπ, rfl⟩ := hp
      obtain ⟨items, hitems⟩ := settleEnd_open done hπ n
      exact ⟨.seq items, by simp [finish, hitems]⟩

end Enclosing

/-! ### Phrases -/

section

variable {w v : List TokenKind}

theorem taken_operator (c : Connective) (hv : Taken .expression v) (hw : Taken .atom w) :
    Taken .expression (v ++ operator c.symbol :: w) := by
  intro done σ hσ
  obtain ⟨_, htakes, π, n, hπ, rfl⟩ := hv done σ hσ
  obtain ⟨left, ρ, hρ, hreduce⟩ := reduce_open hπ hσ c.precedence n
  obtain ⟨q, hrest, hq⟩ := hw done (.operand left c :: (ρ ++ σ))
  refine ⟨q, htakes.trans (.cons (fun t ht => ?_) hrest), ?_⟩
  · simp [feed, continueWith, ht, Connective.ofSymbol?_symbol, hreduce]
  · exact (hq.of_open rfl).of_append hρ

/-- Arguments behind an operand leave nothing open. -/
theorem takes_call (hw : Taken .arguments w) (done : List Node) (σ : List Pending) (callee : Node) :
    ∃ n, Takes ⟨done, σ, .continuation callee⟩ (mark .openParen :: (w ++ [mark .closeParen]))
      ⟨done, σ, .continuation n⟩ := by
  obtain ⟨q, hargs, hq⟩ := hw (.listed (.args callee) done σ) rfl rfl _ .firstItem
  obtain ⟨n, hclose⟩ := Enclosing.listed_takes_closer hq
  refine ⟨n, .cons (fun t ht => ?_) (hargs.trans hclose)⟩
  simp [feed, continueWith, ht]

theorem taken_call (hv : Taken .atom v) (hw : Taken .arguments w) :
    Taken .atom (v ++ mark .openParen :: (w ++ [mark .closeParen])) := by
  intro done σ
  obtain ⟨_, htakes, π, callee, hπ, rfl⟩ := hv done σ
  obtain ⟨n, hcall⟩ := takes_call hw done (π ++ σ) callee
  exact ⟨_, htakes.trans hcall, π, n, hπ, rfl⟩

/-- Parentheses leave nothing open. -/
theorem takes_group (hw : Taken .expression w) (done : List Node) (σ : List Pending) :
    ∃ n, Takes ⟨done, σ, .operand⟩ (mark .openParen :: (w ++ [mark .closeParen]))
      ⟨done, σ, .continuation n⟩ := by
  obtain ⟨q, htakes, hq⟩ := hw done (.group :: σ) nofun
  obtain ⟨n, hn⟩ := hq.takes_of_settle (k := mark .closeParen) (by simp) (by simp) (by simp)
  refine ⟨n, .cons (fun t ht => ?_) (htakes.trans (hn _ fun t ht => ?_))⟩
  · simp [feed, startOperand, ht]
  · simp [settle, ht]

theorem taken_group (hw : Taken .expression w) :
    Taken .primary (mark .openParen :: (w ++ [mark .closeParen])) := by
  intro done σ
  obtain ⟨n, htakes⟩ := takes_group hw done σ
  exact ⟨_, htakes, continues_self⟩

/-- Braces leave nothing open. -/
theorem takes_block (hw : Taken .program w) (done : List Node) (σ : List Pending) :
    ∃ n, Takes ⟨done, σ, .operand⟩ (mark .openBrace :: (w ++ [mark .closeBrace]))
      ⟨done, σ, .continuation n⟩ := by
  obtain ⟨q, htakes, hq⟩ := hw (.listed .block done σ) rfl rfl _ .firstItem
  obtain ⟨n, hclose⟩ := Enclosing.listed_takes_closer hq
  refine ⟨n, .cons (fun t ht => ?_) (htakes.trans hclose)⟩
  simp [feed, startOperand, ht]

theorem taken_block (hw : Taken .program w) :
    Taken .primary (mark .openBrace :: (w ++ [mark .closeBrace])) := by
  intro done σ
  obtain ⟨n, htakes⟩ := takes_block hw done σ
  exact ⟨_, htakes, continues_self⟩

/-- A conditional up to the end of its first branch. -/
theorem takes_branch {test yes : List TokenKind} (htest : Taken .expression test)
    (hyes : Taken .branch yes) (done : List Node) (σ : List Pending) :
    ∃ n q, Takes ⟨done, σ, .operand⟩ (keyword .ifWord :: (test ++ yes)) q ∧
      Continues done (.yes n :: σ) q := by
  obtain ⟨p, htakes, hp⟩ := htest done (.test :: σ) nofun
  obtain ⟨n, q, hbranch, hq⟩ := hyes done σ p hp
  exact ⟨n, q, .cons (fun t ht => by simp [feed, startOperand, ht]) (htakes.trans hbranch), hq⟩

theorem taken_ifThen {test yes : List TokenKind} (htest : Taken .expression test)
    (hyes : Taken .branch yes) : Taken .primary (keyword .ifWord :: (test ++ yes)) := by
  intro done σ
  obtain ⟨n, q, htakes, hq⟩ := takes_branch htest hyes done σ
  exact ⟨q, htakes, hq.of_open rfl⟩

/-- Whichever conditional the `else` goes to, what follows it can be taken. -/
theorem taken_ifElse {test yes no : List TokenKind} (htest : Taken .expression test)
    (hyes : Taken .branch yes) (hno : Taken .expression no) :
    Taken .primary (keyword .ifWord :: (test ++ (yes ++ keyword .elseWord :: no))) := by
  intro done σ
  obtain ⟨m, _, htakes, π, n, hπ, rfl⟩ := takes_branch htest hyes done σ
  obtain ⟨test', yes', ρ, hρ, helse⟩ := settle_else done σ hπ m n
  obtain ⟨q, hrest, hq⟩ := hno done (.no test' yes' :: (ρ ++ σ)) nofun
  refine ⟨q, ?_, (hq.of_open rfl).of_append hρ⟩
  have helse' : Takes ⟨done, π ++ .yes m :: σ, .continuation n⟩ (keyword .elseWord :: no) q := by
    refine .cons (fun t ht => ?_) hrest
    simp only [feed]
    rw [continueWith_eq_settle (by simp [ht]) (by simp [ht]), helse t ht]
  simpa using htakes.trans helse'

theorem taken_lambda {ps body : List TokenKind} (hps : Taken .params ps)
    (hbody : Taken .expression body) : Taken .primary
      (keyword .lambdaWord :: mark .openParen :: (ps ++ mark .closeParen :: body)) := by
  intro done σ
  obtain ⟨p, htakes, hp⟩ := hps (.params done σ) rfl rfl _ .firstParam
  obtain ⟨names, hclose⟩ := Enclosing.params_takes_closer hp
  obtain ⟨q, hrest, hq⟩ := hbody done (.body names :: σ) nofun
  refine ⟨q, .cons (q := ⟨done, σ, .paramsOpen⟩) (fun t ht => ?_) (.cons (fun t ht => ?_)
    (htakes.trans (hclose.trans hrest))), hq.of_open rfl⟩
  · simp [feed, startOperand, ht]
  · simp [feed, ht]

theorem taken_thenBranch (hw : Taken .expression w) : Taken .branch (keyword .thenWord :: w) := by
  intro done σ p hp
  obtain ⟨n, hn⟩ := hp.takes_of_settle (k := keyword .thenWord) (by simp) (by simp) (by simp)
  obtain ⟨q, htakes, hq⟩ := hw done (.yes n :: σ) nofun
  exact ⟨n, q, (hn _ fun t ht => by simp [settle, ht]).trans htakes, hq⟩

/-- Behind a test a brace begins the branch at once. -/
theorem taken_blockBranch (hw : Taken .expression (mark .openBrace :: w)) :
    Taken .branch (mark .openBrace :: w) := by
  intro done σ p hp
  obtain ⟨n, hn⟩ := hp.takes_of_settle (k := mark .openBrace) (by simp) (by simp) (by simp)
  obtain ⟨q, htakes, hq⟩ := hw done (.yes n :: σ) nofun
  cases htakes with
  | @cons _ r _ _ _ hk hrest =>
    refine ⟨n, q, (hn r fun t ht => ?_).trans hrest, hq⟩
    have same := hk t ht
    simpa [feed, startOperand, settle, ht] using same

theorem taken_literal {k : TokenKind} {n : Node} (h : ∀ done σ, ∀ t : Token, t.kind = k →
    startOperand done σ t = .ok ⟨done, σ, .continuation n⟩) : Taken .primary [k] :=
  fun done σ => ⟨_, .one (h done σ), continues_self⟩

end

/-- Every derived sequence of tokens is taken as its phrase, on top of any stack. -/
theorem taken_of_derives {p : Phrase} {w : List TokenKind} (h : Derives p w) : Taken p w := by
  induction h with
  | atom _ ih => exact fun done σ _ => ih done σ
  | primary _ ih => exact ih
  | operator c _ _ ihv ihw => exact taken_operator c ihv ihw
  | call _ _ ihv ihw => exact taken_call ihv ihw
  | number x => exact taken_literal (n := .number x) fun _ _ _ ht => by simp [startOperand, ht]
  | text s => exact taken_literal (n := .text s) fun _ _ _ ht => by simp [startOperand, ht]
  | var x => exact taken_literal (n := .var x) fun _ _ _ ht => by simp [startOperand, ht]
  | trueWord => exact taken_literal (n := .bool true) fun _ _ _ ht => by simp [startOperand, ht]
  | falseWord => exact taken_literal (n := .bool false) fun _ _ _ ht => by simp [startOperand, ht]
  | group _ ih => exact taken_group ih
  | block _ ih => exact taken_block ih
  | ifThen _ _ iht ihy => exact taken_ifThen iht ihy
  | ifElse _ _ _ iht ihy ihn => exact taken_ifElse iht ihy ihn
  | lambda _ _ ihp ihb => exact taken_lambda ihp ihb
  | thenBranch _ ih => exact taken_thenBranch ih
  | blockBranch _ ih => exact taken_blockBranch ih
  | name x => exact ⟨x, rfl⟩
  | one _ ih =>
    rintro c rfl rfl p hp
    exact hp.takes_item ih
  | more _ _ ihv ihw =>
    intro c hitem hsep p hp
    obtain ⟨q, htakes, hq⟩ := ihv c hitem hsep p hp
    obtain ⟨r, hseparator, hr⟩ := hq.takes_separator
    obtain ⟨q', hrest, hq'⟩ := hr.takes_item (hitem ▸ ihw)
    exact ⟨q', htakes.trans (hsep ▸ hseparator.trans hrest), hq'⟩
  | empty => exact fun c _ _ p hp => ⟨p, .nil p, .inl hp⟩
  | items _ ih =>
    intro c hitem hsep p hp
    obtain ⟨q, htakes, hq⟩ := ih c hitem hsep p hp
    exact ⟨q, htakes, .inr hq⟩
  | trailing _ ih =>
    intro c hitem hsep p hp
    obtain ⟨q, htakes, hq⟩ := ih c hitem hsep p hp
    obtain ⟨r, hseparator, hr⟩ := hq.takes_separator
    exact ⟨r, htakes.trans (hsep ▸ hseparator), .inl hr⟩

/-- What is no sequence of tokens is not accepted. -/
theorem readAll_failed_ne_ok (p : Parser) (tokens : List Token) (e : Error) (tree : Node) :
    p.readAll tokens (.failed e) ≠ .ok tree := by
  induction tokens generalizing p with
  | nil => simp [readAll]
  | cons t tokens ih =>
    simp only [readAll]
    split
    · exact ih _
    · simp

end Parser

/-- A text is accepted exactly if it is a sequence of tokens and these form a program. -/
theorem parse_isOk_iff (source : String) : (∃ tree, parse source = .ok tree) ↔
    ∃ tokens pos, (TokenStream.ofString source).drain = (tokens, .finished pos) ∧
      Derives .program (tokens.map Token.kind) := by
  simp only [parse, TokenStream.parse, Parser.run_fst]
  cases hd : (TokenStream.ofString source).drain with
  | mk tokens ending =>
    cases ending with
    | failed e => simp [Parser.readAll_failed_ne_ok]
    | finished pos =>
      constructor
      · rintro ⟨tree, h⟩
        have start : Parser.Spells {} [] := ⟨rfl, .nil⟩
        exact ⟨tokens, pos, rfl, by simpa using start.derives_of_readAll h⟩
      · rintro ⟨_, _, htokens, h⟩
        cases htokens
        obtain ⟨q, htakes, hq⟩ := Parser.taken_of_derives h .program rfl rfl {} (.program [])
        obtain ⟨tree, htree⟩ := Parser.Enclosing.program_finish hq pos
        exact ⟨tree, (htakes.readAll_eq rfl pos).trans htree⟩

end ScopeLang
