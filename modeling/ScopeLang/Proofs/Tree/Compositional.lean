import ScopeLang.Proofs.Token.Joined
import ScopeLang.Proofs.Tree.OnTop
import ScopeLang.Proofs.Tree.Phrasing

/-!
# Programs put together

At the end of the input the reader settles what is still open just as it does in front of a
semicolon or a closing mark: only an `else` could go to a conditional that lacks one. So a program
that is put in front of another one, or into brackets, is read to the trees to which it is read
alone, however much of it is open where it ends.

## Main definitions

* `Parser.behind` — a reader behind other items of the program.
* `Parser.Completes` — what open phrases make of an expression.
* `Parser.ReadTo` — what the reader has come to at the end of a program.

## Main statements

* `Parser.exists_readTo_of_parse` — a program is taken up to such a state.
* `programs_compose` — programs one behind the other, and a program in brackets.
-/

namespace ScopeLang

open TokenKind (mark keyword)

namespace Parser

variable {p q r : Parser} {done : List Node} {σ π : List Pending} {n m : Node} {t : Token}
  {w : List TokenKind}

/-! ### Behind other items of the program -/

/-- The same reader with further items finished before. -/
def behind (p : Parser) (before : List Node) : Parser := ⟨p.done ++ before, p.stack, p.expecting⟩

theorem startOperand_behind (done before : List Node) (σ : List Pending) (t : Token) :
    startOperand (done ++ before) σ t = (startOperand done σ t).map (·.behind before) := by
  unfold startOperand
  split <;> rfl

theorem settle_behind (done before : List Node) (t : Token) (n : Node) (σ : List Pending) :
    settle (done ++ before) t n σ = (settle done t n σ).map (·.behind before) := by
  induction σ generalizing n with
  | nil =>
    simp only [settle]
    split <;> rfl
  | cons x σ ih =>
    cases x with
    | operand | no | body => exact ih _
    | group | test =>
      simp only [settle]
      split <;> rfl
    | yes test =>
      simp only [settle]
      split
      · rfl
      · exact ih _
    | item list items =>
      simp only [settle]
      split
      · split
        · rfl
        · split <;> rfl
      · rfl

theorem continueWith_behind (done before : List Node) (σ : List Pending) (n : Node) (t : Token) :
    continueWith (done ++ before) σ n t = (continueWith done σ n t).map (·.behind before) := by
  unfold continueWith
  split
  · rfl
  · split <;> rfl
  · exact settle_behind done before t n σ

theorem itemOrCloser_behind (done before : List Node) (σ : List Pending) (l : Listed)
    (items : List Node) (t : Token) : itemOrCloser (done ++ before) σ l items t =
      (itemOrCloser done σ l items t).map (·.behind before) := by
  unfold itemOrCloser
  split
  · split
    · rfl
    · exact startOperand_behind ..
  · exact startOperand_behind ..

theorem paramOrCloser_behind (done before : List Node) (σ : List Pending) (names : List String)
    (t : Token) : paramOrCloser (done ++ before) σ names t =
      (paramOrCloser done σ names t).map (·.behind before) := by
  unfold paramOrCloser
  split <;> rfl

/-- Which items are finished does not matter to a token. -/
theorem feed_behind (p : Parser) (before : List Node) (t : Token) :
    (p.behind before).feed t = (p.feed t).map (·.behind before) := by
  obtain ⟨done, σ, expecting⟩ := p
  cases expecting with
  | programItem | operand => exact startOperand_behind ..
  | firstItem | laterItem => exact itemOrCloser_behind ..
  | continuation => exact continueWith_behind ..
  | firstParam | laterParam => exact paramOrCloser_behind ..
  | paramsOpen | paramEnd =>
    simp only [behind, feed]
    split <;> rfl

theorem Takes.behind (h : Takes p w q) (before : List Node) :
    Takes (p.behind before) w (q.behind before) := by
  induction h with
  | nil p => exact .nil _
  | cons hk _ ih => exact .cons (fun t ht => by rw [feed_behind, hk t ht]; rfl) ih

/-! ### What is open at the end of a program -/

/-- The open phrases make `m` of the expression `n`, at the end of the input as well as in front of
any token but `else`. -/
structure Completes (π : List Pending) (n m : Node) : Prop where
  settle (done : List Node) (σ : List Pending) (t : Token) : t.kind ≠ keyword .elseWord →
    settle done t n (π ++ σ) = settle done t m σ
  settleEnd (done : List Node) : settleEnd done n π = .ok (m :: done).reverse

theorem Completes.of_open {x : Pending} (h : Completes π n m) {n' : Node}
    (hx : ∀ done σ (t : Token), t.kind ≠ keyword .elseWord →
      Parser.settle done t n' (x :: σ) = Parser.settle done t n σ)
    (hx' : ∀ done, Parser.settleEnd done n' (x :: π) = Parser.settleEnd done n π) :
    Completes (x :: π) n' m where
  settle done σ t ht := (hx done (π ++ σ) t ht).trans (h.settle done σ t ht)
  settleEnd done := (hx' done).trans (h.settleEnd done)

/-- What can end with the input can end in front of a token too. -/
theorem completes_of_settleEnd {items : List Node} (h : settleEnd done n π = .ok items) :
    ∃ m, items = (m :: done).reverse ∧ Completes π n m := by
  induction π generalizing n with
  | nil =>
    cases h
    exact ⟨n, rfl, fun _ _ _ _ => rfl, fun _ => rfl⟩
  | cons x π ih =>
    cases x with
    | operand | no | body =>
      obtain ⟨m, hm, completes⟩ := ih h
      exact ⟨m, hm, completes.of_open (fun _ _ _ _ => rfl) fun _ => rfl⟩
    | yes test =>
      obtain ⟨m, hm, completes⟩ := ih h
      exact ⟨m, hm, completes.of_open (fun _ _ _ ht => settle_yes ht test) fun _ => rfl⟩
    | group | item | test => cases h

/-- What the reader has come to where a program with these items ends: it is at the beginning,
behind a semicolon, or behind an operand with phrases that are still open. -/
inductive ReadTo (items : List Node) (w : List TokenKind) : Parser → Prop where
  | ended : items = [] ∨ w.getLast? = some (mark .semicolon) →
    ReadTo items w ⟨items.reverse, [], .programItem⟩
  | opened {done : List Node} {π : List Pending} {n m : Node} : items = (m :: done).reverse →
    Completes π n m → w.getLast? ≠ some (mark .semicolon) →
      ReadTo items w ⟨done, π, .continuation n⟩

/-- No operand ends with a semicolon. -/
theorem getLast?_callable_ne (u : List TokenKind) (c : Callable) :
    (u ++ c.kinds).getLast? ≠ some (mark .semicolon) := by
  cases c <;> simp [Callable.kinds, List.getLast?_append, List.getLast?_cons]

theorem getLast?_separated {m : Mark} {items : List (List TokenKind)} (h : items ≠ []) :
    (separated m true items).getLast? = some (mark m) := by
  rw [← separated_append h, List.getLast?_concat]

theorem Phrased.readTo {pos : Pos} {items : List Node} (h : p.Phrased w)
    (hf : p.finish pos = .ok (.seq items)) : ReadTo items w p := by
  obtain ⟨done, σ, expecting⟩ := p
  cases expecting with
  | programItem =>
    obtain ⟨rfl, hw⟩ := h
    cases hf
    cases hw with
    | program es =>
      have ended : ReadTo (Phrasing.backward es).reverse
          (separated .semicolon true (es.map Phrasing.kinds))
          ⟨(Phrasing.backward es).reverse.reverse, [], .programItem⟩ := by
        refine .ended ?_
        by_cases hes : es = []
        · exact .inl (by simp [hes])
        · exact .inr (getLast?_separated (by simpa using hes))
      rwa [List.reverse_reverse] at ended
  | continuation n =>
    obtain ⟨c, u, hu, rfl, rfl⟩ := h
    simp only [finish] at hf
    split at hf
    · rename_i hitems
      cases hf
      obtain ⟨m, hm, completes⟩ := completes_of_settleEnd hitems
      exact .opened hm completes (getLast?_callable_ne u c)
    · cases hf
  | _ => cases hf

/-- At the end of a program the reader has come to its items. -/
theorem exists_readTo_of_parse {source : String} {items : List Node}
    (h : parse source = .ok (.seq items)) :
    ∃ q, Takes {} (kindsOf source) q ∧ ReadTo items (kindsOf source) q := by
  obtain ⟨q, pos, htakes, hq⟩ := takes_of_parse h
  have start : Phrased {} [] := ⟨rfl, .program []⟩
  exact ⟨q, htakes, (start.takes htakes).readTo hq⟩

/-! ### Behind a program -/

/-- Behind other items the program ends with all of them. -/
theorem ReadTo.finish_behind {items : List Node} (h : ReadTo items w p) (before : List Node)
    (pos : Pos) : (p.behind before).finish pos = .ok (.seq (before.reverse ++ items)) := by
  cases h with
  | ended => simp [finish, behind]
  | opened hm completes => simp [finish, behind, completes.settleEnd, hm]

/-- A semicolon completes the last item. -/
theorem ReadTo.takes_semicolon {items : List Node} (h : ReadTo items w p) (hitems : items ≠ [])
    (last : w.getLast? ≠ some (mark .semicolon)) :
    Takes p [mark .semicolon] ⟨items.reverse, [], .programItem⟩ := by
  cases h with
  | ended hw => exact absurd hw (not_or.2 ⟨hitems, last⟩)
  | @opened done π n m hm completes =>
    subst hm
    refine .one fun t ht => ?_
    have settles := completes.settle done [] t (by simp [ht])
    rw [List.append_nil] at settles
    simp [feed, continueWith, ht, settles, settle]

/-! ### In brackets -/

/-- Only the first token sees what the reader waited for. -/
theorem Takes.of_feed {p' : Parser} (h : Takes p' w q) (hw : w ≠ [])
    (hp : ∀ t r, p'.feed t = .ok r → p.feed t = .ok r) : Takes p w q := by
  cases h with
  | nil => exact absurd rfl hw
  | cons hk hrest => exact .cons (fun t ht => hp t _ (hk t ht)) hrest

/-- On top of a phrase that is closed by a mark, a program of one item is taken as that item. -/
theorem ReadTo.takes_closer (h : ReadTo [n] w q) (hw : Takes {} w q)
    (last : w.getLast? ≠ some (mark .semicolon)) (hσ : Bare σ) {m : Mark} (hm : m ≠ .openParen)
    (close : ∀ t : Token, t.kind = mark m → settle [] t n σ = .ok r) :
    Takes ⟨[], σ, .programItem⟩ (w ++ [mark m]) r := by
  cases h with
  | ended h => exact absurd h (by simp [last])
  | @opened done π a b hb completes =>
    obtain ⟨rfl, rfl⟩ := List.cons.inj (List.reverse_eq_iff.1 hb.symm)
    refine (hw.onTop rfl (.inl hσ) []).1.trans (.one fun t ht => ?_)
    simp only [onTop, feed]
    rw [continueWith_eq_settle (by simp [ht, hm]) (by simp [ht]),
      completes.settle [] σ t (by simp [ht]), close t ht]

theorem takes_parentheses (h : ReadTo [n] w q) (hw : Takes {} w q)
    (last : w.getLast? ≠ some (mark .semicolon)) :
    Takes {} (mark .openParen :: (w ++ [mark .closeParen])) ⟨[], [], .continuation n⟩ := by
  have inner := h.takes_closer (σ := [.group]) (m := .closeParen) (r := ⟨[], [], .continuation n⟩)
    hw last nofun (by simp) fun t ht => by simp [settle, ht]
  have first := inner.of_feed (p := ⟨[], [.group], .operand⟩) (by simp) fun _ _ h => h
  exact .cons (fun t ht => by simp [feed, startOperand, ht]) first

theorem takes_listed (h : ReadTo [n] w q) (hw : Takes {} w q)
    (last : w.getLast? ≠ some (mark .semicolon)) (l : Listed) :
    Takes ⟨[], [], .firstItem l⟩ (w ++ [mark l.closer]) ⟨[], [], .continuation (l.build [n])⟩ := by
  have inner := h.takes_closer (σ := [.item l []]) (m := l.closer)
    (r := ⟨[], [], .continuation (l.build [n])⟩) hw last nofun (by cases l <;> simp [Listed.closer])
    fun t ht => by simp [settle, ht]
  exact inner.of_feed (by simp) fun t r hr => Enclosing.feed_item_eq hr

end Parser

/-! ### Texts -/

theorem consists_kindsOf {source : String} {tree : Node} (h : parse source = .ok tree) :
    Consists source.toList (kindsOf source) :=
  (consists_iff source _).2 ⟨rfl, (parse_on_demand source).2.1 tree h⟩

/-- A text is read as its tokens are taken. -/
theorem parse_of_takes {source : String} {w : List TokenKind} {q : Parser} {tree : Node}
    (h : Consists source.toList w) (hw : Parser.Takes {} w q)
    (hq : ∀ pos, q.finish pos = .ok tree) : parse source = .ok tree := by
  obtain ⟨hkinds, pos, hpos⟩ := (consists_iff source w).1 h
  rw [parse_eq_readAll, tokensOf, hpos, hw.readAll_eq hkinds, hq]

variable {p q s : String} {ps qs : List Node} {n : Node}

/-- Behind tokens that complete the items of a program stands another one. -/
theorem parse_behind {source : String} {w : List TokenKind}
    (hw : Parser.Takes {} w ⟨ps.reverse, [], .programItem⟩) (hq : parse q = .ok (.seq qs))
    (h : Consists source.toList (w ++ kindsOf q)) : parse source = .ok (.seq (ps ++ qs)) := by
  obtain ⟨r, htakes, hr⟩ := Parser.exists_readTo_of_parse hq
  refine parse_of_takes h (hw.trans (htakes.behind ps.reverse)) fun pos => ?_
  rw [hr.finish_behind, List.reverse_reverse]

theorem parse_semicolon (hp : parse p = .ok (.seq ps)) (hq : parse q = .ok (.seq qs))
    (hps : ps ≠ []) (last : (kindsOf p).getLast? ≠ some (mark .semicolon)) :
    parse (p ++ "\n;\n" ++ q) = .ok (.seq (ps ++ qs)) := by
  obtain ⟨r, htakes, hr⟩ := Parser.exists_readTo_of_parse hp
  refine parse_behind (htakes.trans (hr.takes_semicolon hps last)) hq ?_
  have behind := (Consists.nil.newline (consists_kindsOf hq)).mark .semicolon
  simpa [Mark.char] using (consists_kindsOf hp).newline behind

theorem parse_newline (hp : parse p = .ok (.seq ps)) (hq : parse q = .ok (.seq qs))
    (last : ps = [] ∨ (kindsOf p).getLast? = some (mark .semicolon)) :
    parse (p ++ "\n" ++ q) = .ok (.seq (ps ++ qs)) := by
  obtain ⟨r, htakes, hr⟩ := Parser.exists_readTo_of_parse hp
  cases hr with
  | ended =>
    refine parse_behind htakes hq ?_
    simpa using (consists_kindsOf hp).newline (consists_kindsOf hq)
  | opened hm _ hlast =>
    subst hm
    exact absurd last (by simp [hlast])

section Brackets

variable (h : parse s = .ok (.seq [n])) (last : (kindsOf s).getLast? ≠ some (mark .semicolon))

include h in
/-- A line break and a closing mark behind a program. -/
theorem consists_closed (m : Mark) :
    Consists (s.toList ++ ['\n', m.char]) (kindsOf s ++ [mark m]) :=
  (consists_kindsOf h).newline (Consists.nil.mark m)

include h last

theorem parse_parentheses : parse ("(" ++ s ++ "\n)") = .ok (.seq [n]) := by
  obtain ⟨r, htakes, hr⟩ := Parser.exists_readTo_of_parse h
  refine parse_of_takes ?_ (Parser.takes_parentheses hr htakes last) fun pos => rfl
  simpa [Mark.char] using (consists_closed h .closeParen).mark .openParen

theorem parse_braces : parse ("\x7b" ++ s ++ "\n\x7d") = .ok (.seq [n]) := by
  obtain ⟨r, htakes, hr⟩ := Parser.exists_readTo_of_parse h
  have opening : Parser.Takes {} [mark .openBrace] ⟨[], [], .firstItem .block⟩ :=
    .one fun t ht => by simp [Parser.feed, Parser.startOperand, ht]
  have whole := opening.trans (Parser.takes_listed hr htakes last .block)
  refine parse_of_takes ?_ whole fun pos => rfl
  simpa [Mark.char, Listed.closer] using (consists_closed h .closeBrace).mark .openBrace

theorem parse_arguments : parse ("f(" ++ s ++ "\n)") = .ok (.seq [.call (.var "f") [n]]) := by
  obtain ⟨r, htakes, hr⟩ := Parser.exists_readTo_of_parse h
  have callee : Parser.Takes {} [.name "f"] ⟨[], [], .continuation (.var "f")⟩ :=
    .one fun t ht => by simp [Parser.feed, Parser.startOperand, ht]
  have opening : Parser.Takes ⟨[], [], .continuation (.var "f")⟩ [mark .openParen]
      ⟨[], [], .firstItem (.args (.var "f"))⟩ :=
    .one fun t ht => by simp [Parser.feed, Parser.continueWith, ht]
  have listed := Parser.takes_listed hr htakes last (.args (.var "f"))
  refine parse_of_takes ?_ (callee.trans (opening.trans listed)) fun pos => rfl
  have name : Lexeme ['f'] (.name "f") := lexeme_name (x := "f") (by decide)
  have arguments := (consists_closed h .closeParen).mark .openParen
  have parted : Parted ('(' :: (s.toList ++ ['\n', ')'])) := parted_cons _ (by decide)
  simpa [Mark.char, Listed.closer] using arguments.word name (name.longest parted)

end Brackets

/-- Programs can be put together. Behind a program that has items and does not end with a semicolon,
a line with a semicolon and then another program make a program of the items of both; if there is
nothing to separate, a line break will do. And a program of one item that does not end with a
semicolon, with a line break behind it, is this item again between parentheses and between braces,
and it is the argument between those of a call. -/
theorem programs_compose :
    (∀ (p q : String) (ps qs : List Node), parse p = .ok (.seq ps) → parse q = .ok (.seq qs) →
      (ps ≠ [] → (kindsOf p).getLast? ≠ some (.mark .semicolon) →
        parse (p ++ "\n;\n" ++ q) = .ok (.seq (ps ++ qs))) ∧
      (ps = [] ∨ (kindsOf p).getLast? = some (.mark .semicolon) →
        parse (p ++ "\n" ++ q) = .ok (.seq (ps ++ qs)))) ∧
    ∀ (s : String) (n : Node), parse s = .ok (.seq [n]) →
      (kindsOf s).getLast? ≠ some (.mark .semicolon) →
        parse ("(" ++ s ++ "\n)") = .ok (.seq [n]) ∧
        parse ("\x7b" ++ s ++ "\n\x7d") = .ok (.seq [n]) ∧
        parse ("f(" ++ s ++ "\n)") = .ok (.seq [.call (.var "f") [n]]) :=
  ⟨fun _ _ _ _ hp hq => ⟨parse_semicolon hp hq, parse_newline hp hq⟩,
    fun _ _ h last => ⟨parse_parentheses h last, parse_braces h last, parse_arguments h last⟩⟩

/-- A conditional without `else` and the body of a lambda are open in front of a last comment. -/
theorem programs_compose_open : ∃ n,
    parse "if a then lambda() b #;" = .ok (.seq [n]) ∧
    parse ("if a then lambda() b #;" ++ "\n;\n" ++ "c;") = .ok (.seq [n, .var "c"]) ∧
    parse ("c;" ++ "\n" ++ "if a then lambda() b #;") = .ok (.seq [.var "c", n]) ∧
    parse ("(" ++ "if a then lambda() b #;" ++ "\n)") = .ok (.seq [n]) ∧
    parse ("\x7b" ++ "if a then lambda() b #;" ++ "\n\x7d") = .ok (.seq [n]) ∧
    parse ("f(" ++ "if a then lambda() b #;" ++ "\n)") = .ok (.seq [.call (.var "f") [n]]) := by
  obtain ⟨behind, bracketed⟩ := programs_compose
  have h : parse "if a then lambda() b #;" =
      .ok (.seq [.ifThen (.var "a") (.lambda [] (.var "b"))]) := by cbv
  have h' : parse "c;" = .ok (.seq [.var "c"]) := by cbv
  have kinds : kindsOf "if a then lambda() b #;" = [.keyword .ifWord, .name "a",
    .keyword .thenWord, .keyword .lambdaWord, .mark .openParen, .mark .closeParen, .name "b"] := by
    cbv
  have last : (kindsOf "if a then lambda() b #;").getLast? ≠ some (.mark .semicolon) := by
    simp [kinds]
  have last' : (kindsOf "c;").getLast? = some (.mark .semicolon) := by
    have kinds' : kindsOf "c;" = [.name "c", .mark .semicolon] := by cbv
    simp [kinds']
  have first := (behind _ _ _ _ h h').1 (by simp) last
  have second := (behind _ _ _ _ h' h).2 (.inr last')
  exact ⟨_, h, first, second, bracketed _ _ h last⟩

end ScopeLang
