import ScopeLang.Proofs.Tree.Completeness

/-!
# On top of other phrases

The reader works at the top of its stack: a token replaces the phrases there by others, whatever lies
below. There are two exceptions. Behind a complete expression that nothing waits for, the program goes
on with its next item; and an operator may come to join all operands of an expression, so that it
depends on what lies below whether there are more of them. So a phrase is read to the same tree
wherever it stands.

## Main definitions

* `Parser.Step` — what a token does to the stack.
* `Parser.onTop` — a reader on top of other pending phrases.

## Main statements

* `Parser.step_of_feed` — every token that is taken is one of these steps.
* `Parser.Takes.onTop` — what is taken on a stack is taken on top of other phrases too.
-/

namespace ScopeLang

open TokenKind (mark keyword operator)

namespace Parser

variable {p q r : Parser} {done : List Node} {σ π : List Pending} {n : Node} {t : Token}
  {w : List TokenKind} {e : Expecting}

/-- The lowest phrase waits for the operand of a connective. -/
def OperandLast (π : List Pending) : Prop := ∃ left c, π.getLast? = some (.operand left c)

theorem operandLast_append (top : List Pending) (hπ : π ≠ []) :
    OperandLast (top ++ π) ↔ OperandLast π := by
  simp [OperandLast, hπ]

/-- What a token does to the reader. -/
inductive Step (p : Parser) (t : Token) : Parser → Prop where
  /-- The expression is an item of the program. -/
  | item (n : Node) : Step p t ⟨n :: p.done, [], .programItem⟩
  /-- The phrases `π` at the top are replaced, whatever lies below. -/
  | top (π top : List Pending) {σ : List Pending} {e : Expecting} : p.stack = π ++ σ →
    (∀ done σ, feed ⟨done, π ++ σ, p.expecting⟩ t = .ok ⟨done, top ++ σ, e⟩) →
      (OperandLast (π ++ σ) → OperandLast (top ++ σ)) → Step p t ⟨p.done, top ++ σ, e⟩
  /-- All operands are joined, unless there are more of them below. -/
  | lowest {left : Node} {c : Connective} :
    (∀ done σ, Bare σ → feed ⟨done, p.stack ++ σ, p.expecting⟩ t =
      .ok ⟨done, .operand left c :: σ, .operand⟩) → Step p t ⟨p.done, [.operand left c], .operand⟩

/-! ### The steps of the reader -/

/-- Phrases are put on top of the stack. -/
theorem Step.push (top : List Pending) (hp : p = ⟨done, π, e⟩) {e' : Expecting}
    (h : ∀ done σ, feed ⟨done, σ, e⟩ t = .ok ⟨done, top ++ σ, e'⟩) :
    Step p t ⟨done, top ++ π, e'⟩ := by
  subst hp
  refine .top [] top rfl h fun last => ?_
  have hπ : π ≠ [] := by
    rintro rfl
    obtain ⟨_, _, last⟩ := last
    cases last
  exact (operandLast_append top hπ).2 last

theorem step_startOperand (items : List Pending) (hp : p = ⟨done, π, e⟩)
    (hfeed : ∀ done σ q, startOperand done (items ++ σ) t = .ok q → feed ⟨done, σ, e⟩ t = .ok q)
    (h : startOperand done (items ++ π) t = .ok q) : Step p t q := by
  have push (top : List Pending) {e' : Expecting} (hq : q = ⟨done, top ++ π, e'⟩)
      (hstart : ∀ done σ, startOperand done (items ++ σ) t = .ok ⟨done, top ++ σ, e'⟩) :
      Step p t q := by
    subst hq
    exact .push top hp fun done σ => hfeed done σ _ (hstart done σ)
  unfold startOperand at h
  split at h <;> rename_i hk <;> cases h
  · exact push (.group :: items) rfl fun _ _ => by simp [startOperand, hk]
  · exact push items rfl fun _ _ => by simp [startOperand, hk]
  · exact push (.test :: items) rfl fun _ _ => by simp [startOperand, hk]
  all_goals exact push items rfl fun _ _ => by simp [startOperand, hk]

theorem step_itemOrCloser {l : Listed} {items : List Node} (hp : p = ⟨done, π, e⟩)
    (hfeed : ∀ done σ, feed ⟨done, σ, e⟩ t = itemOrCloser done σ l items t)
    (h : itemOrCloser done π l items t = .ok q) : Step p t q := by
  by_cases hclose : t.kind = mark l.closer
  · have closer (done : List Node) (σ : List Pending) :
        itemOrCloser done σ l items t = .ok ⟨done, σ, .continuation (l.build items.reverse)⟩ := by
      simp [itemOrCloser, hclose]
    rw [closer] at h
    cases h
    exact .push [] hp fun done σ => (hfeed done σ).trans (closer done σ)
  · have begins (done : List Node) (σ : List Pending) :
        itemOrCloser done σ l items t = startOperand done (.item l items :: σ) t := by
      unfold itemOrCloser
      split
      · rename_i m hk
        split
        · rename_i hm
          exact absurd (hm ▸ hk) hclose
        · rfl
      · rfl
    rw [begins] at h
    exact step_startOperand [.item l items] hp
      (fun done σ q hq => (hfeed done σ).trans ((begins done σ).trans hq)) h

theorem step_paramOrCloser {names : List String} (hp : p = ⟨done, π, e⟩)
    (hfeed : ∀ done σ, feed ⟨done, σ, e⟩ t = paramOrCloser done σ names t)
    (h : paramOrCloser done π names t = .ok q) : Step p t q := by
  have push (top : List Pending) {e' : Expecting} (hq : q = ⟨done, top ++ π, e'⟩)
      (hparam : ∀ done σ, paramOrCloser done σ names t = .ok ⟨done, top ++ σ, e'⟩) :
      Step p t q := by
    subst hq
    exact .push top hp fun done σ => (hfeed done σ).trans (hparam done σ)
  unfold paramOrCloser at h
  split at h <;> rename_i hk <;> cases h
  · exact push [.body names.reverse] rfl fun _ _ => by simp [paramOrCloser, hk]
  · exact push [] rfl fun _ _ => by simp [paramOrCloser, hk]

/-- A complete expression is an item of the program, or it goes to a phrase `x` that the token continues
or ends, whatever lies below. -/
inductive Settled (done : List Node) (t : Token) (n : Node) : List Pending → Parser → Prop where
  | item {π : List Pending} (m : Node) : Settled done t n π ⟨m :: done, [], .programItem⟩
  | within (opens : List Pending) {below top : List Pending} {x : Pending} {e : Expecting} :
    (∀ left c, x ≠ .operand left c) →
      (∀ done σ, settle done t n (opens ++ x :: σ) = .ok ⟨done, top ++ σ, e⟩) →
        Settled done t n (opens ++ x :: below) ⟨done, top ++ below, e⟩

theorem Settled.through {m : Node} (h : Settled done t m π q) (x : Pending)
    (hx : ∀ done σ, settle done t n (x :: σ) = settle done t m σ) : Settled done t n (x :: π) q := by
  cases h with
  | item k => exact .item k
  | @within opens below top y e hy hsettle =>
    exact .within (x :: opens) hy fun done σ => (hx done _).trans (hsettle done σ)

theorem settled_of_settle (h : settle done t n π = .ok q) : Settled done t n π q := by
  induction π generalizing n with
  | nil =>
    simp only [settle] at h
    split at h <;> cases h
    exact .item n
  | cons x π ih =>
    have here (top : List Pending) {e : Expecting} (hx : ∀ left c, x ≠ .operand left c)
        (hsettle : ∀ done σ, settle done t n (x :: σ) = .ok ⟨done, top ++ σ, e⟩) :
        Settled done t n (x :: π) ⟨done, top ++ π, e⟩ := .within [] hx hsettle
    cases x with
    | operand left c => exact (ih h).through (.operand left c) fun _ _ => rfl
    | no test yes => exact (ih h).through (.no test yes) fun _ _ => rfl
    | body params => exact (ih h).through (.body params) fun _ _ => rfl
    | yes test =>
      by_cases hk : t.kind = keyword .elseWord
      · simp only [settle, hk] at h
        cases h
        exact here [.no test n] (by simp) fun _ _ => by simp [settle, hk]
      · rw [settle_yes hk] at h
        exact (ih h).through (.yes test) fun _ _ => settle_yes hk test
    | group =>
      simp only [settle] at h
      split at h <;> cases h
      rename_i hk
      exact here [] (by simp) fun _ _ => by simp [settle, hk]
    | test =>
      simp only [settle] at h
      split at h <;> cases h <;> rename_i hk <;>
        exact here [.yes n] (by simp) fun _ _ => by simp [settle, hk]
    | item list items =>
      simp only [settle] at h
      split at h
      · rename_i m hk
        split at h
        · rename_i hm
          cases h
          exact here [] (by simp) fun _ _ => by simp [settle, hk, hm]
        · rename_i hm
          split at h <;> cases h
          rename_i hsep
          subst hsep
          exact here [] (by simp) fun _ _ => by simp [settle, hk, hm]
      · cases h

theorem step_settle (hp : p = ⟨done, π, e⟩)
    (hfeed : ∀ done σ, feed ⟨done, σ, e⟩ t = settle done t n σ)
    (h : settle done t n π = .ok q) : Step p t q := by
  subst hp
  cases settled_of_settle h with
  | item m => exact .item m
  | @within opens below top x _ hx hsettle =>
    refine .top (opens ++ [x]) top (by simp) (fun done σ => ?_) fun last => ?_
    · simpa [hfeed] using hsettle done σ
    · have hbelow : below ≠ [] := by
        rintro rfl
        obtain ⟨left, c, last⟩ := last
        exact hx left c (by simpa using last)
      exact (operandLast_append top hbelow).2 ((operandLast_append _ hbelow).1 last)

/-- Operators are joined up to the first phrase that is no operand, or one that binds looser. -/
inductive Reduced (k : Nat) (n : Node) : List Pending → Node × List Pending → Prop where
  | all {π : List Pending} {m : Node} : (∀ σ, Bare σ → reduce k n (π ++ σ) = (m, σ)) →
    Reduced k n π (m, [])
  | upTo (opens : List Pending) {below : List Pending} {x : Pending} {m : Node} :
    (∀ σ, reduce k n (opens ++ x :: σ) = (m, x :: σ)) →
      Reduced k n (opens ++ x :: below) (m, x :: below)

theorem reduced_reduce (k : Nat) (n : Node) (π : List Pending) : Reduced k n π (reduce k n π) := by
  fun_induction reduce k n π with
  | case1 n left op π hk ih =>
    have join (σ : List Pending) : reduce k n (.operand left (.binary op) :: σ) =
        reduce k (.binary op left n) σ := by simp [reduce, hk]
    generalize reduce k (.binary op left n) π = r at ih
    cases ih with
    | all h => exact .all fun σ hσ => (join _).trans (h σ hσ)
    | upTo _ h => exact .upTo (_ :: _) fun σ => (join _).trans (h σ)
  | case2 n left op π hk => exact .upTo [] fun σ => by simp [reduce, hk]
  | case3 n π hπ =>
    cases π with
    | nil =>
      refine .all fun σ hσ => ?_
      rw [List.nil_append, reduce]
      exact fun left op τ => hσ left (.binary op) τ
    | cons x π =>
      refine .upTo [] fun σ => ?_
      rw [List.nil_append, reduce]
      rintro left op τ ⟨⟩
      exact hπ left op π rfl

theorem step_continueWith (hp : p = ⟨done, π, .continuation n⟩)
    (h : continueWith done π n t = .ok q) : Step p t q := by
  unfold continueWith at h
  split at h
  · rename_i hk
    cases h
    exact .push [] hp fun _ _ => by simp [feed, continueWith, hk]
  · rename_i s hk
    split at h
    · cases h
    · rename_i c hc
      cases h
      have push (done : List Node) (σ : List Pending) : feed ⟨done, σ, .continuation n⟩ t =
          .ok ⟨done, .operand (reduce c.precedence n σ).1 c :: (reduce c.precedence n σ).2,
            .operand⟩ := by
        simp [feed, continueWith, hk, hc]
      have reduced := reduced_reduce c.precedence n π
      generalize reduce c.precedence n π = r at reduced
      subst hp
      cases reduced with
      | all hreduce =>
        exact .lowest fun done σ hσ => by rw [push, hreduce σ hσ]
      | @upTo opens below x m hreduce =>
        refine .top (opens ++ [x]) [.operand m c, x] (by simp) (fun done σ => ?_)
          fun last => ?_
        · simp [push, hreduce]
        · simpa [OperandLast] using last
  · rename_i hparen hop
    refine step_settle hp (fun done σ => ?_) h
    exact continueWith_eq_settle hparen fun s hs => hop s hs

/-- Every token that is taken is one of the steps. -/
theorem step_of_feed (h : p.feed t = .ok q) : Step p t q := by
  obtain ⟨done, σ, expecting⟩ := p
  cases expecting with
  | programItem | operand => exact step_startOperand [] rfl (fun _ _ _ hq => hq) h
  | firstItem l => exact step_itemOrCloser rfl (fun _ _ => rfl) h
  | laterItem l items => exact step_itemOrCloser rfl (fun _ _ => rfl) h
  | continuation n => exact step_continueWith rfl h
  | firstParam => exact step_paramOrCloser rfl (fun _ _ => rfl) h
  | laterParam names => exact step_paramOrCloser rfl (fun _ _ => rfl) h
  | paramsOpen =>
    simp only [feed] at h
    split at h <;> cases h
    rename_i hk
    exact .push [] rfl fun _ _ => by simp [feed, hk]
  | paramEnd names =>
    simp only [feed] at h
    split at h <;> cases h <;> rename_i hk
    · exact .push [.body names.reverse] rfl fun _ _ => by simp [feed, hk]
    · exact .push [] rfl fun _ _ => by simp [feed, hk]

/-! ### On top of other phrases -/

/-- The same reader behind other items of the program and on top of other pending phrases. -/
def onTop (p : Parser) (done : List Node) (σ : List Pending) : Parser :=
  ⟨done, p.stack ++ σ, p.expecting⟩

theorem Step.done_suffix (h : Step p t q) : p.done <:+ q.done := by
  cases h with
  | item n => exact List.suffix_cons n p.done
  | top | lowest => exact List.suffix_rfl

theorem Takes.done_suffix (h : Takes p w q) : p.done <:+ q.done := by
  induction h with
  | nil => exact List.suffix_rfl
  | @cons p q r k w hk _ ih => exact (step_of_feed (hk ⟨k, .start⟩ rfl)).done_suffix.trans ih

/-- An operand at the bottom stays there while the program has no further item. -/
theorem Step.operandLast (h : Step p t q) (hdone : q.done = p.done) (last : OperandLast p.stack) :
    OperandLast q.stack := by
  cases h with
  | item n => exact absurd hdone (List.cons_ne_self n p.done)
  | top _ _ hstack _ hlast => exact hlast (hstack ▸ last)
  | lowest => exact ⟨_, _, rfl⟩

theorem Step.onTop (h : Step p t q) (hdone : q.done = p.done) (hσ : Bare σ ∨ ¬ OperandLast q.stack)
    (done : List Node) : (p.onTop done σ).feed t = .ok (q.onTop done σ) := by
  cases h with
  | item n => exact absurd hdone (List.cons_ne_self n p.done)
  | top _ _ hstack hfeed => simp only [Parser.onTop, hstack, List.append_assoc, hfeed]
  | lowest hfeed =>
    rcases hσ with hσ | hσ
    · exact hfeed done σ hσ
    · exact absurd ⟨_, _, rfl⟩ hσ

/-- What is taken on a stack is taken on top of other phrases too, and the program may have other items,
as long as no further item is completed. If the phrases below end with an operand, no operand may be
left at the bottom of the stack. -/
theorem Takes.onTop (h : Takes p w q) (hdone : q.done = p.done)
    (hσ : Bare σ ∨ ¬ OperandLast q.stack) (done : List Node) :
    Takes (p.onTop done σ) w (q.onTop done σ) ∧ (OperandLast p.stack → OperandLast q.stack) := by
  induction h with
  | nil p => exact ⟨.nil _, id⟩
  | @cons p q r k w hk htakes ih =>
    have step := step_of_feed (hk ⟨k, .start⟩ rfl)
    have same : q.done = p.done := by
      have within : q.done <:+ p.done := hdone ▸ htakes.done_suffix
      exact within.eq_of_length_le step.done_suffix.length_le
    obtain ⟨rest, last⟩ := ih (hdone.trans same.symm) hσ
    refine ⟨.cons (fun t ht => ?_) rest, fun h => last (step.operandLast same h)⟩
    exact (step_of_feed (hk t ht)).onTop same (hσ.imp_right fun h h' => h (last h')) done

end Parser

end ScopeLang
