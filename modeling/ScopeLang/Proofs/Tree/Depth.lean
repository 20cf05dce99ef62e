import ScopeLang.Proofs.Tree.Descent

/-!
# How deep reading goes

A routine is done when it may nest more calls, and make more rounds in each loop, than there are tokens
left: between two nested calls of a routine, and in every round of a loop that is not the last, a token
is taken.

## Main statements

* `Descent.returns_read` — the routines of the phrases are done within such a depth.
* `Descent.returns_program` — and so is that of the program.
-/

namespace ScopeLang.Descent

variable {α β : Type} {x : Descent α} {f : α → Descent β} {count : α → Nat} {n m : Nat}

/-- The routine is done on streams with at most so many tokens. -/
def Returns (n : Nat) (x : Descent α) : Prop :=
  ∀ s : TokenStream, s.unread ≤ n → ∃ r, x s = some r

theorem Returns.bind (hx : x.Returns n) (takes : x.Takes count)
    (hf : ∀ a, count a ≤ n → (f a).Returns (n - count a)) : (x >>= f).Returns n := by
  intro s hs
  obtain ⟨⟨r, s'⟩, hr⟩ := hx s hs
  cases r with
  | error e => exact ⟨(.error e, s'), by simp [Bind.bind, andThen, hr]⟩
  | ok a =>
    have left : s'.unread + count a ≤ s.unread := takes s a s' hr
    obtain ⟨r', hr'⟩ := hf a (by omega) s' (by omega)
    exact ⟨r', by simp [Bind.bind, andThen, hr, hr']⟩

theorem Returns.after (hx : x.Returns n) (takes : x.Takes count)
    (hf : ∀ a, (f a).Returns n) : (x >>= f).Returns n := hx.bind takes.zero fun a _ => hf a

/-- Behind a token, fewer are left. -/
theorem Returns.behind (hx : x.Returns n) (takes : x.Takes fun _ => 1)
    (hf : ∀ m < n, ∀ a, (f a).Returns m) : (x >>= f).Returns n :=
  hx.bind takes fun a some => hf _ (Nat.sub_lt some Nat.one_pos) a

theorem Returns.mono (hx : x.Returns n) (hle : m ≤ n) : x.Returns m :=
  fun s hs => hx s (hs.trans hle)

theorem returns_pure (a : α) : (pure a : Descent α).Returns n := fun _ _ => ⟨_, rfl⟩

theorem returns_fail (e : Error) : (fail e : Descent α).Returns n := fun _ _ => ⟨_, rfl⟩

theorem returns_complain (c : Complaint) : (complain c : Descent α).Returns n := fun _ _ => ⟨_, rfl⟩

theorem returns_peek : peek.Returns n := fun _ _ => ⟨_, rfl⟩

theorem returns_next : next.Returns n := fun _ _ => ⟨_, rfl⟩

theorem returns_atEnd : atEnd.Returns n := returns_peek.after takes_peek fun _ => returns_pure _

theorem returns_sees (what : Expectation) : (sees what).Returns n :=
  returns_peek.after takes_peek fun _ => returns_pure _

theorem returns_accept (what : Expectation) : (accept what).Returns n := by
  refine (returns_sees what).after (takes_sees what) fun seen => ?_
  split
  · exact returns_next.after takes_next fun _ => returns_pure _
  · exact returns_pure _

theorem returns_expect (what : Expectation) : (expect what).Returns n := by
  refine (returns_accept what).after (takes_accept what) fun found => ?_
  split
  · exact returns_pure _
  · exact returns_peek.after takes_peek fun _ => returns_complain _

theorem returns_expectIf (needed : Bool) (what : Expectation) : (expectIf needed what).Returns n := by
  cases needed with
  | true => exact returns_expect what
  | false => exact returns_pure _

theorem returns_variableName : variableName.Returns n := by
  refine returns_next.after takes_next fun t => ?_
  split
  · exact returns_pure _
  · exact returns_fail _
  · exact returns_complain _

theorem returns_literal : literal.Returns n := by
  refine returns_next.after takes_next fun t => ?_
  split
  case h_6 => exact returns_fail _
  case h_7 => exact returns_complain _
  all_goals exact returns_pure _

/-- A loop whose rounds go on only behind a token makes no more rounds than there are tokens, and
one. -/
theorem returns_loop {round : α → Descent (ForInStep α)} (takes : ∀ a, (round a).Takes goesOn)
    {rounds : Nat} (h : ∀ a, (round a).Returns n) (enough : n < rounds) (a : α) :
    (loop round rounds a).Returns n := by
  induction rounds generalizing n a with
  | zero => exact absurd enough (Nat.not_lt_zero n)
  | succ k ih =>
    refine (h a).bind (takes a) fun step some => ?_
    cases step with
    | done b => exact returns_pure b
    | yield b =>
      -- the rounds that remain are still more than the tokens
      have fewer : n - 1 < k := by simp only [goesOn] at some; omega
      exact ih (fun a => (h a).mono (Nat.sub_le n 1)) fewer b

theorem returns_listItem {item : Descent α} (takes : item.Takes fun _ => 1) (h : item.Returns n)
    (stop : Mark) (items : List α) : (listItem stop item items).Returns n := by
  refine (returns_sees _).after (takes_sees _) fun stopped => ?_
  split
  · exact returns_pure _
  · exact h.after takes fun a => returns_pure _

theorem returns_listRound {item : Descent α} (takes : item.Takes fun _ => 1) (h : item.Returns n)
    (stop separator : Mark) (items : List α) : (listRound stop separator item items).Returns n := by
  refine returns_atEnd.after takes_atEnd fun ended => ?_
  split
  · exact returns_pure _
  · refine (returns_sees _).after (takes_sees _) fun stopped => ?_
    split
    · exact returns_pure _
    · exact (returns_expectIf _ _).after (takes_expectIf _ _) fun _ =>
        returns_listItem takes h stop items

/-- The items of a list come behind its opening mark. -/
theorem returns_delimited {item : Descent α} (takes : item.Takes fun _ => 1)
    (h : ∀ m < n, item.Returns m) {rounds : Nat} (enough : n ≤ rounds) (start stop separator : Mark) :
    (delimited rounds start stop separator item).Returns n := by
  refine (returns_expect _).behind (takes_expect _) fun m hm _ => ?_
  have items : (loop (listRound stop separator item) rounds []).Returns m :=
    returns_loop (takes_listRound takes _ _) (returns_listRound takes (h m hm) _ _)
      (hm.trans_le enough) []
  exact items.after (takes_loop (takes_listRound takes _ _) _ _) fun items =>
    (returns_expect _).after (takes_expect _) fun _ => returns_pure _

section

variable {inner : Routine → Descent Node} (takes : ∀ r, (inner r).Takes fun _ => r.least)
  (h : ∀ m < n, ∀ r, (inner r).Returns m) {rounds : Nat} (enough : n < rounds)

include takes h enough

theorem returns_callRound (callee : Node) : (callRound rounds inner callee).Returns n := by
  refine (returns_sees _).after (takes_sees _) fun called => ?_
  split
  · have args := returns_delimited (takes .expression) (fun m hm => h m hm .expression) enough.le
    exact (args _ _ _).after (takes_delimited (takes .expression) _ _ _ _) fun _ => returns_pure _
  · exact returns_pure _

theorem returns_calls (callee : Node) : (calls rounds inner callee).Returns n :=
  returns_loop (takes_callRound takes rounds) (returns_callRound takes h enough) enough callee

theorem returns_block : (block rounds inner).Returns n :=
  (returns_delimited (takes .expression) (fun m hm => h m hm .expression) enough.le _ _ _).after
    (takes_delimited (takes .expression) _ _ _ _) fun _ => returns_pure _

omit enough in
theorem returns_conditional : (conditional inner).Returns n := by
  refine (returns_expect _).behind (takes_expect _) fun m hm _ => ?_
  have part : (inner .expression).Returns m := h m hm .expression
  refine part.after (takes .expression) fun test => (returns_sees _).after (takes_sees _) fun _ => ?_
  refine (returns_expectIf _ _).after (takes_expectIf _ _) fun _ => ?_
  refine part.after (takes .expression) fun yes => (returns_accept _).after (takes_accept _) fun _ => ?_
  split
  · exact part.after (takes .expression) fun _ => returns_pure _
  · exact returns_pure _

theorem returns_function : (function rounds inner).Returns n := by
  have params := returns_delimited takes_variableName (fun m _ => returns_variableName) enough.le
  exact (params _ _ _).behind (takes_delimited takes_variableName _ _ _ _) fun m hm _ =>
    (h m hm .expression).after (takes .expression) fun _ => returns_pure _

theorem returns_primary : (primary rounds inner).Returns n := by
  refine (returns_accept _).bind (takes_accept _) fun opened some => ?_
  cases opened with
  | true =>
    have body := h (n - 1) (Nat.sub_lt some Nat.one_pos) .expression
    exact body.after (takes .expression) fun _ =>
      (returns_expect _).after (takes_expect _) fun _ => returns_pure _
  | false =>
    refine (returns_sees _).after (takes_sees _) fun braced => ?_
    split
    · exact returns_block takes h enough
    · refine (returns_sees _).after (takes_sees _) fun tested => ?_
      split
      · exact returns_conditional takes h
      · refine (returns_accept _).after (takes_accept _) fun abstracted => ?_
        split
        · exact returns_function takes h enough
        · exact returns_literal

theorem returns_atom : (atom rounds inner).Returns n :=
  (returns_primary takes h enough).after (takes_primary takes rounds) fun callee =>
    returns_calls takes h enough callee

theorem returns_climbRound (min : Nat) (left : Node) :
    (climbRound rounds inner min left).Returns n := by
  refine returns_peek.after takes_peek fun t => ?_
  split
  · split
    · exact returns_fail _
    · split
      · exact returns_pure _
      · refine returns_next.after takes_next fun _ => (returns_atom takes h enough).behind
          (takes_atom takes rounds) fun m hm operand => ?_
        exact (h m hm _).after (takes _) fun _ => returns_pure _
  · exact returns_pure _

theorem returns_expression : (expression rounds inner).Returns n := by
  refine (returns_atom takes h enough).behind (takes_atom takes rounds) fun m hm operand => ?_
  exact (h m hm _).after (takes _) fun callee =>
    returns_calls takes (fun l hl => h l (hl.trans hm)) (hm.trans enough) callee

end

/-- Between two nested calls a token is taken. -/
theorem returns_read {depth : Nat} (enough : n < depth) (r : Routine) : (read depth r).Returns n := by
  induction depth generalizing n r with
  | zero => exact absurd enough (Nat.not_lt_zero n)
  | succ k ih =>
    have inner (m : Nat) (hm : m < n) (r : Routine) : (read k r).Returns m :=
      ih (Nat.lt_of_lt_of_le hm (Nat.le_of_lt_succ enough)) r
    cases r with
    | expression => exact returns_expression (takes_read k) inner enough
    | climb left min =>
      exact returns_loop (takes_climbRound (takes_read k) _ min)
        (returns_climbRound (takes_read k) inner enough min) enough left

theorem returns_programRound {depth : Nat} (enough : n < depth) (items : List Node) :
    (programRound depth items).Returns n := by
  refine returns_atEnd.after takes_atEnd fun ended => ?_
  split
  · exact returns_pure _
  · exact (returns_read enough .expression).after (takes_read depth .expression) fun _ =>
      returns_atEnd.after takes_atEnd fun ended =>
        (returns_expectIf _ _).after (takes_expectIf _ _) fun _ => returns_pure _

theorem returns_program {depth : Nat} (enough : n < depth) : (program depth).Returns n :=
  (returns_loop (takes_programRound depth) (returns_programRound enough) enough []).after
    (takes_loop (takes_programRound depth) _ _) fun _ => returns_pure _

end ScopeLang.Descent
