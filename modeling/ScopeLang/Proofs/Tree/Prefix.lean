import ScopeLang.Proofs.Token.Located
import ScopeLang.Proofs.Tree.OnDemand

/-!
# Failures come at the first possible token

Whatever the reader has taken so far can be completed: every pending phrase that is not open is
closed by its mark, and a test by a branch. So the tokens in front of a refused one begin a program,
while with the refused one they do not, and the failure is reported at the first token that cannot
stand where it stands.

## Main definitions

* `BeginsProgram` — further tokens make a program of these.
* `Blamed` — where a text is refused, and what that says about its tokens.

## Main statements

* `Parser.completable` — every state of the reader can be completed.
* `refused_at_first_impossible_token` — every failure is reported at the first place that no program allows.
-/

namespace ScopeLang

open TokenKind (mark keyword)

namespace Parser

variable {p q : Parser} {w : List TokenKind} {done : List Node} {σ π : List Pending} {n : Node}

/-! ### Completions -/

/-- Behind further tokens the input may end. -/
def Completable (p : Parser) : Prop :=
  ∃ w q tree, Takes p w q ∧ ∀ pos, q.finish pos = .ok tree

theorem Takes.completable (h : Takes p w q) (hq : q.Completable) : p.Completable := by
  obtain ⟨more, r, tree, htakes, hr⟩ := hq
  exact ⟨w ++ more, r, tree, h.trans htakes, hr⟩

theorem takes_true (done : List Node) (σ : List Pending) :
    Takes ⟨done, σ, .operand⟩ [keyword .trueWord] ⟨done, σ, .continuation (.bool true)⟩ :=
  .one fun t ht => by simp [feed, startOperand, ht]

/-- Open phrases on top end with the operand, so the innermost phrase that needs a token of its own
comes next. -/
theorem completable_continuation (hπ : ∀ x ∈ π, x.isOpen = true) (n : Node) :
    Completable ⟨done, π ++ σ, .continuation n⟩ := by
  induction σ generalizing π n with
  | nil =>
    rw [List.append_nil]
    obtain ⟨items, hitems⟩ := settleEnd_open done hπ n
    exact ⟨[], _, .seq items, .nil _, fun pos => by simp [finish, hitems]⟩
  | cons x σ ih =>
    have behind : Continues done (x :: σ) ⟨done, π ++ x :: σ, .continuation n⟩ :=
      ⟨π, n, hπ, rfl⟩
    have closed (n : Node) : Completable ⟨done, σ, .continuation n⟩ := ih (π := []) (by simp) n
    cases x with
    | group =>
      obtain ⟨n', hn'⟩ := behind.takes_of_settle (k := mark .closeParen) (by simp) (by simp) (by simp)
      exact (hn' _ fun t ht => by simp [settle, ht]).completable (closed n')
    | item list items =>
      obtain ⟨n', hn'⟩ := Enclosing.listed_takes_closer (.inr (.listed behind))
      exact hn'.completable (closed n')
    | test =>
      obtain ⟨n', hn'⟩ := behind.takes_of_settle (k := keyword .thenWord) (by simp) (by simp)
        (by simp)
      have branch := hn' ⟨done, .yes n' :: σ, .operand⟩ fun t ht => by simp [settle, ht]
      have whole := branch.trans (takes_true done (.yes n' :: σ))
      exact whole.completable (ih (π := [.yes n']) (by simp [Pending.isOpen]) _)
    | operand | yes | no | body =>
      rw [List.append_cons]
      refine ih (fun x hx => ?_) n
      rcases List.mem_append.1 hx with hx | hx
      · exact hπ x hx
      · rw [List.mem_singleton.1 hx]
        rfl

theorem completable_operand (done : List Node) (σ : List Pending) :
    Completable ⟨done, σ, .operand⟩ :=
  (takes_true done σ).completable (completable_continuation (π := []) (by simp) _)

theorem completable_list {l : Listed} (h : (Enclosing.listed l done σ).Awaits p) :
    p.Completable := by
  obtain ⟨n, hn⟩ := Enclosing.listed_takes_closer (.inl h)
  exact hn.completable (completable_continuation (π := []) (by simp) n)

theorem completable_params
    (h : (Enclosing.params done σ).Awaits p ∨ (Enclosing.params done σ).Behind p) :
    p.Completable := by
  obtain ⟨names, hnames⟩ := Enclosing.params_takes_closer h
  exact hnames.completable (completable_operand done _)

/-- Every state of the reader can be completed. -/
theorem completable (p : Parser) : p.Completable := by
  obtain ⟨done, σ, expecting⟩ := p
  cases expecting with
  | programItem => exact ⟨[], _, _, .nil _, fun _ => rfl⟩
  | operand => exact completable_operand done σ
  | firstItem l => exact completable_list .firstItem
  | laterItem l items => exact completable_list (.laterItem items)
  | continuation n => exact completable_continuation (π := []) (by simp) n
  | paramsOpen =>
    have opening : Takes ⟨done, σ, .paramsOpen⟩ [mark .openParen] ⟨done, σ, .firstParam⟩ :=
      .one fun t ht => by simp [feed, ht]
    exact opening.completable (completable_params (.inl .firstParam))
  | firstParam => exact completable_params (.inl .firstParam)
  | laterParam names => exact completable_params (.inl (.laterParam names))
  | paramEnd names => exact completable_params (.inr (.params names))

end Parser

/-! ### Beginnings of programs -/

/-- Tokens of these kinds, all at one place. -/
def tokensAt (pos : Pos) (w : List TokenKind) : List Token := w.map (⟨·, pos⟩)

@[simp] theorem map_kind_tokensAt (pos : Pos) (w : List TokenKind) :
    (tokensAt pos w).map Token.kind = w := by simp [tokensAt, Function.comp_def]

/-- Further tokens make a program of tokens of these kinds. -/
def BeginsProgram (w : List TokenKind) : Prop :=
  ∃ more tree, ∀ tokens pos, tokens.map Token.kind = w ++ more →
    Parser.readAll {} tokens (.finished pos) = .ok tree

theorem Parser.Takes.beginsProgram {w : List TokenKind} {q : Parser} (h : Takes {} w q) :
    BeginsProgram w := by
  obtain ⟨more, r, tree, htakes, hr⟩ := q.completable
  exact ⟨more, tree, fun tokens pos ht => ((h.trans htakes).readAll_eq ht pos).trans (hr pos)⟩

/-- The grammar says the same: the tokens begin a program if it derives one that begins with them. -/
theorem beginsProgram_iff {w : List TokenKind} :
    BeginsProgram w ↔ ∃ more, Derives .program (w ++ more) := by
  constructor
  · rintro ⟨more, tree, hread⟩
    have start : Parser.Spells {} [] := ⟨rfl, .nil⟩
    have accepted := hread (tokensAt .start (w ++ more)) .start (by simp)
    exact ⟨more, by simpa using start.derives_of_readAll accepted⟩
  · rintro ⟨more, h⟩
    obtain ⟨q, htakes, hq⟩ := Parser.taken_of_derives h .program rfl rfl {} (.program [])
    rcases q.finish_cases with ⟨tree, hfinish⟩ | ⟨complaint, hfinish⟩
    · exact ⟨more, tree, fun tokens pos ht => (htakes.readAll_eq ht pos).trans (hfinish pos)⟩
    · obtain ⟨tree, htree⟩ := Parser.Enclosing.program_finish hq .start
      rw [hfinish] at htree
      cases htree

/-- Behind a refused token there is no program. -/
theorem Parser.Takes.not_beginsProgram {w : List TokenKind} {q : Parser} (h : Takes {} w q)
    {t : Token} {f : Fault} (hf : q.feed t = .error f) : ¬ BeginsProgram (w ++ [t.kind]) := by
  rintro ⟨more, tree, hread⟩
  have accepted := hread (tokensAt t.pos w ++ t :: tokensAt t.pos more) t.pos (by simp)
  rw [h.readAll_refused (map_kind_tokensAt t.pos w) hf] at accepted
  cases accepted

/-! ### What is reported -/

/-- The kinds of the tokens of a text. -/
def kindsOf (source : String) : List TokenKind := (tokensOf source).1.map Token.kind

/-- Where a text is refused, and what that says about its tokens. -/
inductive Blamed (source : String) (e : Error) : Prop where
  /-- One of the tokens is refused, where it stands. The tokens in front of it begin a program, with
  it they do not, and every text that begins with tokens of the same kinds is refused at its token
  with the same report. -/
  | token {k : Nat} {t : Token} : (tokensOf source).1[k]? = some t → StandsAt source t →
    e.pos? = some t.pos → BeginsProgram ((kindsOf source).take k) →
    ¬ BeginsProgram ((kindsOf source).take (k + 1)) →
    (∀ source', (kindsOf source').take (k + 1) = (kindsOf source).take (k + 1) →
      ∃ t' e', (tokensOf source').1[k]? = some t' ∧ StandsAt source' t' ∧
        parse source' = .error e' ∧ e.SameReport e' ∧ e'.pos? = some t'.pos) → Blamed source e
  /-- The text ends where it cannot end, although its tokens begin a program. -/
  | ending {complaint : Complaint} :
    (tokensOf source).2 = .finished (Pos.start.advance source.toList) →
    e = .malformed complaint (Pos.start.advance source.toList) →
    BeginsProgram (kindsOf source) → Blamed source e
  /-- Behind tokens that begin a program there is something that is no token. -/
  | lexical : (tokensOf source).2 = .failed e → HaltsAt source e → BeginsProgram (kindsOf source) →
    Blamed source e

/-- Every text is read by its tokens, each of which stands where it says. -/
theorem located_tokensOf (source : String) :
    (∀ t ∈ (tokensOf source).1, StandsAt source t) ∧
      (∀ pos, (tokensOf source).2 = .finished pos → pos = Pos.start.advance source.toList) ∧
      ∀ e, (tokensOf source).2 = .failed e → HaltsAt source e :=
  TokenStream.located_drain (.ofString source) rfl (.refl _)

/-- A refused token is the first that no program allows, in every text that begins with tokens of
the same kinds. -/
theorem blamed_of_refused {source : String} {before after : List Token} {t : Token} {q : Parser}
    {f : Fault} (htokens : (tokensOf source).1 = before ++ t :: after)
    (htakes : Parser.Takes {} (before.map Token.kind) q) (hf : q.feed t = .error f) :
    Blamed source f.error := by
  have hkinds : kindsOf source = before.map Token.kind ++ t.kind :: after.map Token.kind := by
    simp [kindsOf, htokens]
  have htake : (kindsOf source).take before.length = before.map Token.kind := by
    simp [hkinds]
  have htake' : (kindsOf source).take (before.length + 1) = before.map Token.kind ++ [t.kind] := by
    simp [hkinds, List.take_append, List.take_of_length_le]
  obtain ⟨-, -, -, hpos, -⟩ := Parser.feed_eq_error hf rfl
  refine .token (k := before.length) (t := t) (by simp [htokens])
    ((located_tokensOf source).1 t (by simp [htokens])) hpos (htake ▸ htakes.beginsProgram)
    (htake' ▸ htakes.not_beginsProgram hf) fun source' hsource' => ?_
  rw [htake', kindsOf, ← List.map_take] at hsource'
  obtain ⟨before', last', hparts, hbefore, hlast⟩ := List.map_eq_append_iff.1 hsource'
  obtain ⟨t', rest', rfl, hkind, hrest⟩ := List.map_eq_cons_iff.1 hlast
  obtain rfl := List.map_eq_nil_iff.1 hrest
  have htokens' : (tokensOf source').1 =
      before' ++ t' :: (tokensOf source').1.drop (before.length + 1) := by
    conv => lhs; rw [← List.take_append_drop (before.length + 1) (tokensOf source').1, hparts]
    simp
  have hlength : before'.length = before.length := by simpa using congrArg List.length hbefore
  obtain ⟨f', hf', same, -, hpos'⟩ := Parser.feed_eq_error hf hkind.symm
  refine ⟨t', f'.error, ?_, (located_tokensOf source').1 t' ?_, ?_, same, hpos'⟩
  · rw [htokens', ← hlength]
    simp
  · rw [htokens']
    simp
  · rw [parse_eq_readAll, htokens']
    exact htakes.readAll_refused hbefore hf' _ _

/-- Every failure is reported at the first place that no program allows. -/
theorem refused_at_first_impossible_token {source : String} {e : Error} (h : parse source = .error e) :
    (∃ pos, e.pos? = some pos) ∧ Blamed source e := by
  obtain ⟨-, finished, halts⟩ := located_tokensOf source
  have reading := Parser.reading_readAll {} (tokensOf source).1 (tokensOf source).2
  rw [← parse_eq_readAll, h] at reading
  generalize hending : (tokensOf source).2 = ending at reading
  generalize hr : Except.error e = r at reading
  cases reading with
  | refused htokens htakes hf =>
    cases hr
    obtain ⟨-, -, -, hpos, -⟩ := Parser.feed_eq_error hf rfl
    exact ⟨⟨_, hpos⟩, blamed_of_refused htokens htakes hf⟩
  | @finished q pos htakes =>
    obtain rfl := finished pos hending
    rcases q.finish_cases with ⟨tree, hfinish⟩ | ⟨complaint, hfinish⟩
    · rw [hfinish] at hr
      cases hr
    · rw [hfinish] at hr
      cases hr
      exact ⟨⟨_, rfl⟩, .ending hending rfl htakes.beginsProgram⟩
  | failed e' htakes =>
    cases hr
    have halt := halts e hending
    refine ⟨?_, .lexical hending halt htakes.beginsProgram⟩
    cases halt <;> exact ⟨_, rfl⟩

theorem refused_at_unopened_parenthesis : ∃ e, parse "a )" = .error e ∧
    (∃ pos, e.pos? = some pos) ∧ Blamed "a )" e := by
  have h : parse "a )" = .error (.malformed (.expected (.mark .semicolon)
      (some (.mark .closeParen))) ⟨1, 2⟩) := by cbv
  exact ⟨_, h, refused_at_first_impossible_token h⟩

end ScopeLang
