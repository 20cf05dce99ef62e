import ScopeLang.Proofs.Token.Lookahead
import ScopeLang.Tree.Parser

/-!
# Reading by recursive descent

A program can be read by routines, one for each phrase, which call the routines of the phrases inside
it. Nothing in the calls says that they come to an end: a routine gets no part of a tree or of a text
but a stream, and loops go on for as long as there is a separator, a connective or a further call. What
ends them is that tokens are used up. Here every routine gets a depth, so that so many calls may be
nested and so many rounds may be made in a loop, and has no result when this is not enough.

## Main definitions

* `Descent`, `Descent.loop` — routines that read from a stream, and loops of them.
* `Descent.read`, `Descent.program` — the routines of the phrases, and of the program.
* `TokenStream.unread` — how many tokens were not taken yet.
* `Descent.Takes` — a routine that takes at least so many tokens when it succeeds.

## Main statements

* `Descent.takes_read`, `Descent.takes_atom` — expressions and operands take a token.
* `Descent.takes_listRound`, `Descent.takes_climbRound`, `Descent.takes_callRound`,
  `Descent.takes_programRound` — and so does a round of a loop that goes on.
-/

namespace ScopeLang

/-- A routine that reads from a stream: its outcome and the stream behind it, or nothing when it is not
done within the depth that it was given. -/
def Descent (α : Type) := TokenStream → Option (Except Error α × TokenStream)

/-- Is the token what was expected? -/
def Expectation.isMet : Expectation → TokenKind → Bool
  | mark m, .mark m' => m == m'
  | keyword k, .keyword k' => k == k'
  | variableName, .name _ => true
  | _, _ => false

namespace Expectation

variable {m : Mark} {w : Keyword} {k : TokenKind} {o : Option TokenKind}

@[simp] theorem isMet_mark : (mark m).isMet k = true ↔ k = .mark m := by
  cases k <;> simp [isMet, @eq_comm _ m]

@[simp] theorem isMet_keyword : (keyword w).isMet k = true ↔ k = .keyword w := by
  cases k <;> simp [isMet, @eq_comm _ w]

@[simp] theorem isMet_mark_eq_false : (mark m).isMet k = false ↔ k ≠ .mark m := by
  rw [← Bool.not_eq_true, isMet_mark]

@[simp] theorem isMet_keyword_eq_false : (keyword w).isMet k = false ↔ k ≠ .keyword w := by
  rw [← Bool.not_eq_true, isMet_keyword]

@[simp] theorem any_isMet_mark : o.any (mark m).isMet = true ↔ o = some (.mark m) := by
  cases o <;> simp

@[simp] theorem any_isMet_mark_eq_false : o.any (mark m).isMet = false ↔ o ≠ some (.mark m) := by
  cases o <;> simp

@[simp] theorem any_isMet_keyword : o.any (keyword w).isMet = true ↔ o = some (.keyword w) := by
  cases o <;> simp

@[simp] theorem any_isMet_keyword_eq_false :
    o.any (keyword w).isMet = false ↔ o ≠ some (.keyword w) := by
  cases o <;> simp

end Expectation

/-- The precedence beyond which connectives behind the right operand belong to it. Assignments are
grouped to the right. -/
def Connective.floor : Connective → Nat
  | assign => assign.precedence - 1
  | binary op => op.precedence

namespace Descent

variable {α β : Type}

def andThen (x : Descent α) (f : α → Descent β) : Descent β := fun s =>
  match x s with
  | some (.ok a, s) => f a s
  | some (.error e, s) => some (.error e, s)
  | none => none

instance : Monad Descent where
  pure a := fun s => some (.ok a, s)
  bind := andThen

/-! ### Requests -/

def next : Descent (Option Token) := fun s => some s.next

def peek : Descent (Option Token) := fun s => some s.peek

def atEnd : Descent Bool := do
  return (← peek).isNone

def fail (e : Error) : Descent α := fun s => some (.error e, s)

/-- Fails at the current position. -/
def complain (c : Complaint) : Descent α := fun s => some (.error (.malformed c s.pos), s)

/-- Is the next token this one? -/
def sees (what : Expectation) : Descent Bool := do
  let t ← peek
  return t.any fun t => what.isMet t.kind

/-- Takes the next token if it is this one. -/
def accept (what : Expectation) : Descent Bool := do
  if ← sees what then
    let _ ← next
    return true
  else return false

/-- Takes the next token, which must be this one. -/
def expect (what : Expectation) : Descent Unit := do
  if ← accept what then return ()
  else
    let t ← peek
    complain (.expected what (t.map Token.kind))

def expectIf (needed : Bool) (what : Expectation) : Descent Unit :=
  if needed then expect what else pure ()

/-- Makes rounds until one of them is the last. -/
def loop (round : α → Descent (ForInStep α)) : (rounds : Nat) → α → Descent α
  | 0, _ => fun _ => none
  | k + 1, a => do
    match ← round a with
    | .yield a => loop round k a
    | .done a => return a

/-! ### Lists -/

/-- A further item of a list, or the end of the list. Items come last first. -/
def listItem (stop : Mark) (item : Descent α) (items : List α) :
    Descent (ForInStep (List α)) := do
  if ← sees (.mark stop) then return .done items
  else
    let a ← item
    return .yield (a :: items)

/-- A round in a list: an item, behind a separator unless it is the first, or the end of the list. -/
def listRound (stop separator : Mark) (item : Descent α) (items : List α) :
    Descent (ForInStep (List α)) := do
  if ← atEnd then return .done items
  else if ← sees (.mark stop) then return .done items
  else
    expectIf (!items.isEmpty) (.mark separator)
    listItem stop item items

/-- Items between two marks, with a separator between them and possibly behind the last. -/
def delimited (rounds : Nat) (start stop separator : Mark) (item : Descent α) :
    Descent (List α) := do
  expect (.mark start)
  let items ← loop (listRound stop separator item) rounds []
  expect (.mark stop)
  return items.reverse

def variableName : Descent String := do
  match ← next with
  | some ⟨.name x, _⟩ => return x
  | some t => fail (Fault.expectedName t).error
  | none => complain (.expected .variableName none)

/-! ### Phrases -/

/-- The routines that call themselves, directly or through others. -/
inductive Routine where
  | expression
  /-- The operand `left`, with all connectives behind it that bind tighter than `min`. -/
  | climb (left : Node) (min : Nat)

section

variable (rounds : Nat) (inner : Routine → Descent Node)

/-- A round of calls: the arguments of one. -/
def callRound (callee : Node) : Descent (ForInStep Node) := do
  if ← sees (.mark .openParen) then
    let args ← delimited rounds .openParen .closeParen .comma (inner .expression)
    return .yield (.call callee args)
  else return .done callee

/-- All calls of an operand. -/
def calls : Node → Descent Node := loop (callRound rounds inner) rounds

def block : Descent Node := do
  let items ← delimited rounds .openBrace .closeBrace .semicolon (inner .expression)
  return .block items

def conditional : Descent Node := do
  expect (.keyword .ifWord)
  let test ← inner .expression
  expectIf (!(← sees (.mark .openBrace))) (.keyword .thenWord)
  let yes ← inner .expression
  if ← accept (.keyword .elseWord) then
    let no ← inner .expression
    return .ifElse test yes no
  else return .ifThen test yes

def function : Descent Node := do
  let params ← delimited rounds .openParen .closeParen .comma variableName
  let body ← inner .expression
  return .lambda params body

def group : Descent Node := do
  let n ← inner .expression
  expect (.mark .closeParen)
  return n

/-- The operand that a token is. -/
def literal : Descent Node := do
  match ← next with
  | some ⟨.keyword .trueWord, _⟩ => return .bool true
  | some ⟨.keyword .falseWord, _⟩ => return .bool false
  | some ⟨.number x, _⟩ => return .number x
  | some ⟨.text s, _⟩ => return .text s
  | some ⟨.name x, _⟩ => return .var x
  | some t => fail (Fault.unexpected t).error
  | none => complain .unexpectedEnd

/-- An operand before it is called. -/
def primary : Descent Node := do
  if ← accept (.mark .openParen) then group inner
  else if ← sees (.mark .openBrace) then block rounds inner
  else if ← sees (.keyword .ifWord) then conditional inner
  else if ← accept (.keyword .lambdaWord) then function rounds inner
  else literal

def atom : Descent Node := do
  let n ← primary rounds inner
  calls rounds inner n

/-- A round of connectives: one that binds tighter than `min`, and what is on its right. -/
def climbRound (min : Nat) (left : Node) : Descent (ForInStep Node) := do
  match ← peek with
  | some ⟨.operator symbol, pos⟩ =>
    match Connective.ofSymbol? symbol with
    | none => fail (.unknownOperator symbol pos)
    | some c =>
      if c.precedence ≤ min then return .done left
      else
        let _ ← next
        let operand ← atom rounds inner
        let right ← inner (.climb operand c.floor)
        return .yield (.join c left right)
  | _ => return .done left

def expression : Descent Node := do
  let operand ← atom rounds inner
  let n ← inner (.climb operand 0)
  calls rounds inner n

end

/-- The routines with calls nested no deeper than this. -/
def read : (depth : Nat) → Routine → Descent Node
  | 0, _ => fun _ => none
  | k + 1, .expression => expression (k + 1) (read k)
  | k + 1, .climb left min => loop (climbRound (k + 1) (read k) min) (k + 1) left

/-- A round of the program: an expression, and a separator unless it is the last. Expressions come last
first. -/
def programRound (depth : Nat) (items : List Node) : Descent (ForInStep (List Node)) := do
  if ← atEnd then return .done items
  else
    let n ← read depth .expression
    expectIf (!(← atEnd)) (.mark .semicolon)
    return .yield (n :: items)

/-- The whole program. -/
def program (depth : Nat) : Descent Node := do
  let items ← loop (programRound depth) depth []
  return .seq items.reverse

end Descent

/-! ### Tokens that are not taken yet -/

namespace TokenStream

/-- How many tokens were not taken yet. -/
def unread (s : TokenStream) : Nat := s.drain.1.length

/-- What comes next in a stream, with the streams behind the next token and behind a look at it. -/
inductive Front (s : TokenStream) : Prop where
  | token (t : Token) (c : Cursor) : s.next = (.ok (some t), ⟨c, none⟩) →
    s.peek = (.ok (some t), ⟨c, some t⟩) → Front s
  | finished (rest : TokenStream) : s.next = (.ok none, rest) → s.peek = (.ok none, rest) →
    rest.next = (.ok none, rest) → Front s
  | failed (e : Error) (rest : TokenStream) : s.next = (.error e, rest) → s.peek = (.error e, rest) →
    Front s

theorem front (s : TokenStream) : s.Front := by
  rcases h : s.next with ⟨e | _ | t, rest⟩
  · exact .failed e rest h (by rw [peek, h])
  · have again := next_next_of_finished (congrArg Prod.fst h)
    rw [h] at again
    exact .finished rest h (by rw [peek, h]) again
  · obtain ⟨c, waiting⟩ := rest
    obtain rfl : waiting = none := by simpa [h] using waiting_next s
    exact .token t c h (by rw [peek, h]; rfl)

variable {s rest : TokenStream} {t : Token}

/-- To take a token leaves one less. -/
theorem unread_next_of_token (h : s.next = (.ok (some t), rest)) : rest.unread + 1 = s.unread := by
  rw [unread, unread, drain_of_next_token (congrArg Prod.fst h), h, List.length_cons]

theorem unread_of_next_finished (h : s.next = (.ok none, s)) : s.unread = 0 := by
  rw [unread, drain_of_next_finished h, List.length_nil]

/-- To look at a token leaves all. -/
theorem unread_peek {o : Option Token} (h : s.peek = (.ok o, rest)) : rest.unread ≤ s.unread := by
  cases s.front with
  | token t c hnext hpeek =>
    obtain rfl : ⟨c, some t⟩ = rest := congrArg Prod.snd (hpeek.symm.trans h)
    exact ((unread_next_of_token rfl).symm.trans (unread_next_of_token hnext)).le
  | finished s' _ hpeek again =>
    obtain rfl : s' = rest := congrArg Prod.snd (hpeek.symm.trans h)
    exact (unread_of_next_finished again).trans_le (Nat.zero_le _)
  | failed e _ _ hpeek => simp [hpeek] at h

end TokenStream

/-! ### Routines that use up tokens -/

namespace Descent

variable {α β : Type} {x : Descent α} {f : α → Descent β} {count : α → Nat} {countAll : β → Nat}

/-- When the routine succeeds it has taken so many tokens or more. -/
def Takes (x : Descent α) (count : α → Nat) : Prop :=
  ∀ s a s', x s = some (.ok a, s') → s'.unread + count a ≤ s.unread

theorem bind_eq_some {s s' : TokenStream} {r : Except Error β} (h : (x >>= f) s = some (r, s')) :
    (∃ a s₁, x s = some (.ok a, s₁) ∧ f a s₁ = some (r, s')) ∨
      ∃ e, x s = some (.error e, s') ∧ r = .error e := by
  change andThen x f s = _ at h
  unfold andThen at h
  split at h
  · exact .inl ⟨_, _, ‹_›, h⟩
  · cases h
    exact .inr ⟨_, ‹_›, rfl⟩
  · cases h

theorem Takes.bind (hx : x.Takes count) (hf : ∀ a, (f a).Takes fun b => countAll b - count a) :
    (x >>= f).Takes countAll := by
  intro s b s' h
  rcases bind_eq_some h with ⟨a, s₁, ha, hb⟩ | ⟨e, -, he⟩
  · have first := hx s a s₁ ha
    have rest : s'.unread + (countAll b - count a) ≤ s₁.unread := hf a s₁ b s' hb
    omega
  · cases he

theorem Takes.zero (h : x.Takes count) : x.Takes fun _ => 0 :=
  fun s a s' ha => (Nat.le_add_right _ _).trans (h s a s' ha)

theorem Takes.after (hx : x.Takes fun _ => 0) (hf : ∀ a, (f a).Takes countAll) :
    (x >>= f).Takes countAll := hx.bind hf

theorem takes_pure {a : α} (h : count a = 0) : (pure a : Descent α).Takes count := by
  rintro s _ _ ⟨⟩
  rw [h]
  exact Nat.le_refl _

theorem takes_fail (e : Error) : (fail e : Descent α).Takes count := nofun

theorem takes_complain (c : Complaint) : (complain c : Descent α).Takes count := nofun

theorem takes_peek : peek.Takes fun _ => 0 :=
  fun _ _ _ h => TokenStream.unread_peek (Option.some.inj h)

theorem takes_next : next.Takes fun t => t.elim 0 fun _ => 1 := by
  intro s o s' h
  cases s.front with
  | token t c hnext =>
    obtain ⟨rfl, rfl⟩ : some t = o ∧ ⟨c, none⟩ = s' := by simpa [next, hnext] using h
    exact (TokenStream.unread_next_of_token hnext).le
  | finished rest hnext _ again =>
    obtain ⟨rfl, rfl⟩ : none = o ∧ rest = s' := by simpa [next, hnext] using h
    exact (TokenStream.unread_of_next_finished again).trans_le (Nat.zero_le _)
  | failed e rest hnext => simp [next, hnext] at h

theorem takes_atEnd : atEnd.Takes fun _ => 0 := takes_peek.after fun _ => takes_pure rfl

theorem takes_sees (what : Expectation) : (sees what).Takes fun _ => 0 :=
  takes_peek.after fun _ => takes_pure rfl

/-- Where the routine sees the token, there is one to take. -/
theorem next_of_sees {what : Expectation} {s s' : TokenStream}
    (h : sees what s = some (.ok true, s')) : ∃ t rest, s'.next = (.ok (some t), rest) := by
  rcases bind_eq_some h with ⟨o, s₁, ho, hb⟩ | ⟨e, -, he⟩
  · obtain ⟨found, rfl⟩ : (o.any fun t => what.isMet t.kind) = true ∧ s₁ = s' := by
      simpa [pure] using hb
    cases s.front with
    | token t c _ hpeek =>
      obtain rfl : ⟨c, some t⟩ = s₁ := congrArg Prod.snd (hpeek.symm.trans (Option.some.inj ho))
      exact ⟨t, _, rfl⟩
    | finished _ _ hpeek =>
      obtain rfl : none = o := by simpa [peek, hpeek] using congrArg (Option.map Prod.fst) ho
      cases found
    | failed _ _ _ hpeek => simp [peek, hpeek] at ho
  · cases he

theorem takes_accept (what : Expectation) : (accept what).Takes fun b => b.toNat := by
  intro s b s' h
  rcases bind_eq_some h with ⟨seen, s₁, hseen, hb⟩ | ⟨e, -, he⟩
  · have looked : s₁.unread ≤ s.unread := takes_sees what s seen s₁ hseen
    cases seen with
    | true =>
      -- what was only looked at is still there to be taken
      obtain ⟨t, rest, hnext⟩ := next_of_sees hseen
      obtain ⟨rfl, rfl⟩ : true = b ∧ rest = s' := by
        simpa [bind, andThen, next, pure, hnext] using hb
      exact (TokenStream.unread_next_of_token hnext).trans_le looked
    | false =>
      obtain ⟨rfl, rfl⟩ : false = b ∧ s₁ = s' := by simpa [pure] using hb
      exact looked
  · cases he

theorem takes_expect (what : Expectation) : (expect what).Takes fun _ => 1 := by
  refine (takes_accept what).bind fun found => ?_
  cases found with
  | true => exact takes_pure rfl
  | false => exact takes_peek.after fun _ => takes_complain _

theorem takes_expectIf (needed : Bool) (what : Expectation) :
    (expectIf needed what).Takes fun _ => 0 := by
  cases needed with
  | true => exact (takes_expect what).zero
  | false => exact takes_pure rfl

theorem takes_variableName : variableName.Takes fun _ => 1 := by
  refine takes_next.bind fun t => ?_
  split
  · exact takes_pure rfl
  · exact takes_fail _
  · exact takes_complain _

theorem takes_literal : literal.Takes fun _ => 1 := by
  refine takes_next.bind fun t => ?_
  split
  case h_6 => exact takes_fail _
  case h_7 => exact takes_complain _
  all_goals exact takes_pure rfl

/-- A round that goes on has taken a token. -/
def goesOn : ForInStep α → Nat
  | .yield _ => 1
  | .done _ => 0

theorem takes_loop {round : α → Descent (ForInStep α)} (h : ∀ a, (round a).Takes goesOn) :
    ∀ rounds a, (loop round rounds a).Takes fun _ => 0
  | 0, _ => nofun
  | k + 1, a => (h a).zero.after fun step => match step with
    | .yield a => takes_loop h k a
    | .done _ => takes_pure rfl

theorem takes_listItem {item : Descent α} (h : item.Takes fun _ => 1) (stop : Mark) (items : List α) :
    (listItem stop item items).Takes goesOn := by
  refine (takes_sees _).after fun stopped => ?_
  split
  · exact takes_pure rfl
  · exact h.bind fun a => takes_pure rfl

theorem takes_listRound {item : Descent α} (h : item.Takes fun _ => 1) (stop separator : Mark)
    (items : List α) : (listRound stop separator item items).Takes goesOn := by
  refine takes_atEnd.after fun ended => ?_
  split
  · exact takes_pure rfl
  · refine (takes_sees _).after fun stopped => ?_
    split
    · exact takes_pure rfl
    · exact (takes_expectIf _ _).after fun _ => takes_listItem h stop items

theorem takes_delimited {item : Descent α} (h : item.Takes fun _ => 1) (rounds : Nat)
    (start stop separator : Mark) :
    (delimited rounds start stop separator item).Takes fun _ => 1 :=
  (takes_expect _).bind fun _ => (takes_loop (takes_listRound h _ _) _ _).after fun _ =>
    (takes_expect _).zero.after fun _ => takes_pure rfl

/-- How many tokens the routine takes at least. -/
def Routine.least : Routine → Nat
  | expression => 1
  | climb _ _ => 0

section

variable {inner : Routine → Descent Node} (h : ∀ r, (inner r).Takes fun _ => r.least) (rounds : Nat)

include h

theorem takes_callRound (callee : Node) : (callRound rounds inner callee).Takes goesOn := by
  refine (takes_sees _).after fun called => ?_
  split
  · exact (takes_delimited (h .expression) _ _ _ _).bind fun args => takes_pure rfl
  · exact takes_pure rfl

theorem takes_calls (callee : Node) : (calls rounds inner callee).Takes fun _ => 0 :=
  takes_loop (takes_callRound h rounds) _ _

theorem takes_block : (block rounds inner).Takes fun _ => 1 :=
  (takes_delimited (h .expression) _ _ _ _).bind fun _ => takes_pure rfl

theorem takes_conditional : (conditional inner).Takes fun _ => 1 := by
  have part : (inner .expression).Takes fun _ => 0 := (h .expression).zero
  refine (takes_expect _).bind fun _ => part.after fun test => (takes_sees _).after fun _ =>
    (takes_expectIf _ _).after fun _ => part.after fun yes => ?_
  refine (takes_accept _).zero.after fun other => ?_
  split
  · exact part.after fun no => takes_pure rfl
  · exact takes_pure rfl

theorem takes_function : (function rounds inner).Takes fun _ => 1 :=
  (takes_delimited takes_variableName _ _ _ _).bind fun _ =>
    (h .expression).zero.after fun _ => takes_pure rfl

theorem takes_group : (group inner).Takes fun _ => 1 :=
  (h .expression).bind fun _ => (takes_expect _).zero.after fun _ => takes_pure rfl

theorem takes_primary : (primary rounds inner).Takes fun _ => 1 := by
  have look {what : Expectation} : (accept what).Takes fun _ => 0 := (takes_accept what).zero
  refine look.after fun opened => ?_
  split
  · exact takes_group h
  · refine (takes_sees _).after fun braced => ?_
    split
    · exact takes_block h rounds
    · refine (takes_sees _).after fun tested => ?_
      split
      · exact takes_conditional h
      · refine look.after fun abstracted => ?_
        split
        · exact takes_function h rounds
        · exact takes_literal

theorem takes_atom : (atom rounds inner).Takes fun _ => 1 :=
  (takes_primary h rounds).bind fun n => takes_calls h rounds n

theorem takes_climbRound (min : Nat) (left : Node) :
    (climbRound rounds inner min left).Takes goesOn := by
  refine takes_peek.after fun t => ?_
  split
  · split
    · exact takes_fail _
    · split
      · exact takes_pure rfl
      · refine takes_next.zero.after fun _ =>
          (takes_atom h rounds).bind fun operand => (h _).bind fun right => takes_pure ?_
        simp [goesOn]
  · exact takes_pure rfl

theorem takes_expression : (expression rounds inner).Takes fun _ => 1 :=
  (takes_atom h rounds).bind fun operand => (h (.climb operand 0)).after fun n =>
    takes_calls h rounds n

end

theorem takes_read (depth : Nat) (r : Routine) : (read depth r).Takes fun _ => r.least := by
  induction depth generalizing r with
  | zero => nofun
  | succ k ih =>
    cases r with
    | expression => exact takes_expression ih (k + 1)
    | climb left min => exact takes_loop (takes_climbRound ih _ min) _ _

theorem takes_programRound (depth : Nat) (items : List Node) :
    (programRound depth items).Takes goesOn := by
  refine takes_atEnd.after fun ended => ?_
  split
  · exact takes_pure rfl
  · exact (takes_read depth .expression).bind fun n => takes_atEnd.after fun ended =>
      (takes_expectIf _ _).after fun _ => takes_pure rfl

end Descent

end ScopeLang
