import ScopeLang.Proofs.Tree.Completeness

/-!
# What a failure depends on

The reader reacts to the kind of a token. Where the token stands shows in a failure only, as its
position. So which tokens are taken is decided by their kinds, and a sequence of tokens is read in
one of three ways: a token is refused, the input ends, or the tokens end with a failure of their own.

## Main definitions

* `Error.SameReport` — failures that differ in their positions at most.
* `Parser.Echo` — reactions to two tokens that differ in the positions of the tokens at most.
* `Parser.Reading` — the three ways in which tokens are read.

## Main statements

* `Parser.feed_echo` — reactions to tokens of one kind.
* `Parser.reading_readAll` — every sequence of tokens is read in one of the three ways.
-/

namespace ScopeLang

open TokenKind (mark keyword operator)

/-! ### Failures without their positions -/

namespace Error

/-- The message without the position. -/
def wording : Error → String
  | malformed complaint _ => complaint.message
  | unknownOperator symbol _ => "Unknown operator: " ++ symbol
  | e => e.message

/-- A message is the wording with the position behind it. -/
theorem message_eq_wording {e : Error} {pos : Pos} (h : e.pos? = some pos) :
    e.message = e.wording ++ " (" ++ pos.text ++ ")" := by
  cases e <;> cases h <;> rfl

/-- The failures are of one kind and one wording, wherever they happened. -/
structure SameReport (e e' : Error) : Prop where
  kind : e.kind = e'.kind
  wording : e.wording = e'.wording

theorem sameReport_malformed (complaint : Complaint) (pos pos' : Pos) :
    (malformed complaint pos).SameReport (malformed complaint pos') := ⟨rfl, rfl⟩

end Error

namespace Parser

variable {t t' : Token} {p q : Parser} {w : List TokenKind}

/-! ### One token -/

/-- Two tokens are taken to one state, or each is refused where it stands with the same report. -/
inductive Echo (t t' : Token) : Except Fault Parser → Except Fault Parser → Prop where
  | taken (q : Parser) : Echo t t' (.ok q) (.ok q)
  | refused {f f' : Fault} : f.error.SameReport f'.error → f.error.pos? = some t.pos →
    f'.error.pos? = some t'.pos → Echo t t' (.error f) (.error f')

theorem echo_expected (what : Expectation) (h : t.kind = t'.kind) :
    Echo t t' (.error (.expected what t)) (.error (.expected what t')) :=
  .refused (by simp [Fault.expected, h, Error.sameReport_malformed]) rfl rfl

theorem startOperand_echo (done : List Node) (stack : List Pending) (h : t.kind = t'.kind) :
    Echo t t' (startOperand done stack t) (startOperand done stack t') := by
  unfold startOperand
  rw [h]
  split
  case h_10 => exact .refused (by simp [Fault.unexpected, h, Error.sameReport_malformed]) rfl rfl
  all_goals exact .taken _

theorem settle_echo (done : List Node) (n : Node) (stack : List Pending) (h : t.kind = t'.kind) :
    Echo t t' (settle done t n stack) (settle done t' n stack) := by
  induction stack generalizing n with
  | nil =>
    simp only [settle, h]
    split
    · exact .taken _
    · exact echo_expected _ h
  | cons pending stack ih =>
    cases pending with
    | operand left c => exact ih (.join c left n)
    | no test yes => exact ih (.ifElse test yes n)
    | body params => exact ih (.lambda params n)
    | group =>
      simp only [settle, h]
      split
      · exact .taken _
      · exact echo_expected _ h
    | item list items =>
      simp only [settle, h]
      split
      · split
        · exact .taken _
        · split
          · exact .taken _
          · exact echo_expected _ h
      · exact echo_expected _ h
    | test =>
      simp only [settle, h]
      split
      · exact .taken _
      · exact .taken _
      · exact echo_expected _ h
    | yes test =>
      by_cases helse : t'.kind = keyword .elseWord
      · simp only [settle, h, helse]
        exact .taken _
      · rw [settle_yes (h ▸ helse), settle_yes helse]
        exact ih (.ifThen test n)

theorem continueWith_echo (done : List Node) (stack : List Pending) (n : Node)
    (h : t.kind = t'.kind) :
    Echo t t' (continueWith done stack n t) (continueWith done stack n t') := by
  unfold continueWith
  rw [h]
  split
  · exact .taken _
  · split
    · exact .refused ⟨rfl, rfl⟩ rfl rfl
    · exact .taken _
  · exact settle_echo done n stack h

theorem itemOrCloser_echo (done : List Node) (stack : List Pending) (list : Listed)
    (items : List Node) (h : t.kind = t'.kind) :
    Echo t t' (itemOrCloser done stack list items t) (itemOrCloser done stack list items t') := by
  unfold itemOrCloser
  rw [h]
  split
  · split
    · exact .taken _
    · exact startOperand_echo done _ h
  · exact startOperand_echo done _ h

theorem paramOrCloser_echo (done : List Node) (stack : List Pending) (names : List String)
    (h : t.kind = t'.kind) :
    Echo t t' (paramOrCloser done stack names t) (paramOrCloser done stack names t') := by
  unfold paramOrCloser
  rw [h]
  split
  · exact .taken _
  · exact .taken _
  · exact .refused (by simp [Fault.expectedName, h, Error.sameReport_malformed]) rfl rfl

/-- The reaction to a token depends on the kind of the token; its position is that of the failure. -/
theorem feed_echo (p : Parser) (h : t.kind = t'.kind) : Echo t t' (p.feed t) (p.feed t') := by
  obtain ⟨done, stack, expecting⟩ := p
  cases expecting with
  | programItem | operand => exact startOperand_echo done stack h
  | firstItem list => exact itemOrCloser_echo done stack list [] h
  | laterItem list items => exact itemOrCloser_echo done stack list items h
  | continuation n => exact continueWith_echo done stack n h
  | firstParam => exact paramOrCloser_echo done stack [] h
  | laterParam names => exact paramOrCloser_echo done stack names h
  | paramsOpen =>
    simp only [feed, h]
    split
    · exact .taken _
    · exact echo_expected _ h
  | paramEnd names =>
    simp only [feed, h]
    split
    · exact .taken _
    · exact .taken _
    · exact echo_expected _ h

/-- What is taken once is taken wherever it stands. -/
theorem feed_eq_ok (h : p.feed t = .ok q) (hkind : t.kind = t'.kind) : p.feed t' = .ok q := by
  have echo := p.feed_echo hkind
  rw [h] at echo
  generalize p.feed t' = r at echo ⊢
  cases echo
  rfl

/-- What is refused once is refused wherever it stands. -/
theorem feed_eq_error {f : Fault} (h : p.feed t = .error f) (hkind : t.kind = t'.kind) :
    ∃ f', p.feed t' = .error f' ∧ f.error.SameReport f'.error ∧ f.error.pos? = some t.pos ∧
      f'.error.pos? = some t'.pos := by
  have echo := p.feed_echo hkind
  rw [h] at echo
  generalize p.feed t' = r at echo ⊢
  cases echo with
  | refused same hpos hpos' => exact ⟨_, rfl, same, hpos, hpos'⟩

/-! ### All tokens -/

/-- Nothing behind a refused token is looked at. -/
theorem Takes.readAll_refused (h : Takes p w q) {tokens : List Token}
    (ht : tokens.map Token.kind = w) {f : Fault} (hf : q.feed t = .error f) (rest : List Token)
    (ending : Ending) : p.readAll (tokens ++ t :: rest) ending = .error f.error := by
  rw [h.readAll_append ht]
  simp only [readAll, hf]

/-- The ways in which tokens with their ending are read: one of them is refused behind others that
are taken; all are taken, and the input ends; or all are taken, and the tokens end with a failure. -/
inductive Reading (p : Parser) (tokens : List Token) : Ending → Except Error Node → Prop where
  | refused {before after : List Token} {t : Token} {q : Parser} {f : Fault} {ending : Ending} :
    tokens = before ++ t :: after → Takes p (before.map Token.kind) q → q.feed t = .error f →
      Reading p tokens ending (.error f.error)
  | finished {q : Parser} (pos : Pos) : Takes p (tokens.map Token.kind) q →
    Reading p tokens (.finished pos) (q.finish pos)
  | failed {q : Parser} (e : Error) : Takes p (tokens.map Token.kind) q →
    Reading p tokens (.failed e) (.error e)

theorem reading_readAll (p : Parser) (tokens : List Token) (ending : Ending) :
    p.Reading tokens ending (p.readAll tokens ending) := by
  induction tokens generalizing p with
  | nil =>
    cases ending with
    | finished pos => exact .finished pos (.nil p)
    | failed e => exact .failed e (.nil p)
  | cons t tokens ih =>
    simp only [readAll]
    cases hp : p.feed t with
    | error f =>
      have parts : t :: tokens = [] ++ t :: tokens := rfl
      exact .refused parts (.nil p) hp
    | ok q =>
      have first {w : List TokenKind} {q' : Parser} (h : Takes q w q') : Takes p (t.kind :: w) q' :=
        .cons (fun t' ht' => feed_eq_ok hp ht'.symm) h
      have rest := ih q
      simp only
      generalize q.readAll tokens ending = r at rest ⊢
      cases rest with
      | @refused before after t' _ _ _ htokens htakes hf =>
        have parts : t :: tokens = (t :: before) ++ t' :: after := by simp [htokens]
        exact .refused parts (first htakes) hf
      | finished pos htakes => exact .finished pos (first htakes)
      | failed e htakes => exact .failed e (first htakes)

/-- Where the input ends shows in a failure only, as its position. -/
theorem finish_cases (p : Parser) : (∃ tree, ∀ pos, p.finish pos = .ok tree) ∨
    ∃ complaint, ∀ pos, p.finish pos = .error (.malformed complaint pos) := by
  obtain ⟨done, stack, expecting⟩ := p
  cases expecting with
  | programItem => exact .inl ⟨_, fun _ => rfl⟩
  | continuation n =>
    simp only [finish]
    cases settleEnd done n stack with
    | ok items => exact .inl ⟨_, fun _ => rfl⟩
    | error what => exact .inr ⟨_, fun _ => rfl⟩
  | _ => exact .inr ⟨_, fun _ => rfl⟩

end Parser

end ScopeLang
