import ScopeLang.Proofs.Tree.Depth

/-!
# Routines that lead the reader

The reader with its stack of pending phrases can be run instead of a routine. A routine leads the
reader from one juncture to another when, run from the one, the reader does what it does when it is run
from the other behind the routine. Such statements are put together as routines are.

## Main definitions

* `Juncture` — a state of the reader, and what the stream must be like there.
* `Descent.Follows` — a routine that leads the reader from one juncture to another.
* `Descent.Lists` — how the reader reads the items of a list.

## Main statements

* `Descent.follows_next`, `Descent.follows_expect`, … — what a request does, the reader does.
* `Descent.follows_loop`, `Descent.follows_delimited` — so it is with loops and lists.
-/

namespace ScopeLang

open ScopeLang.Parser

/-! ### Junctures -/

/-- The next token, or that there is none, is as stated. Nothing is said of what is no token. -/
def TokenStream.Ahead (P : Option TokenKind → Prop) (s : TokenStream) : Prop :=
  ∀ o, s.next.1 = .ok o → P (o.map Token.kind)

theorem TokenStream.next_of_looked {s : TokenStream} {t : Token} (h : s.peek = (.ok (some t), s)) :
    ∃ c, s.next = (.ok (some t), ⟨c, none⟩) ∧ s = ⟨c, some t⟩ := by
  cases s.front with
  | token t' c hnext hpeek =>
    cases h.symm.trans hpeek
    exact ⟨c, hnext, rfl⟩
  | finished _ _ hpeek => cases h.symm.trans hpeek
  | failed _ _ _ hpeek => cases h.symm.trans hpeek

theorem TokenStream.next_of_looked_end {s : TokenStream} (h : s.peek = (.ok none, s)) :
    s.next = (.ok none, s) := by
  cases s.front with
  | token t c _ hpeek => cases h.symm.trans hpeek
  | finished rest hnext hpeek =>
    obtain rfl : s = rest := congrArg Prod.snd (h.symm.trans hpeek)
    exact hnext
  | failed _ _ _ hpeek => cases h.symm.trans hpeek

/-- A state of the reader, and what the stream must be like there. -/
structure Juncture where
  reader : Parser
  fits : TokenStream → Prop

/-- The reader in front of such a token or end. -/
def Parser.facing (p : Parser) (P : Option TokenKind → Prop) : Juncture := ⟨p, TokenStream.Ahead P⟩

/-- The reader in front of anything. -/
def Parser.anyhow (p : Parser) : Juncture := p.facing fun _ => True

/-- The reader in front of such a token or end, which was just looked at. -/
def Parser.lookingAt (p : Parser) (P : Option TokenKind → Prop) (o : Option Token) : Juncture :=
  ⟨p, fun s => s.peek = (.ok o, s) ∧ P (o.map Token.kind)⟩

namespace Parser

variable {p q : Parser} {P Q : Option TokenKind → Prop} {s rest : TokenStream}

theorem run_of_token {t : Token} (h : s.next = (.ok (some t), rest)) : p.run s =
    match p.feed t with
    | .ok p => p.run rest
    | .error fault => (.error fault.error, if fault.taken then rest else rest.putBack t) := by
  rw [run]
  split <;> rename_i hnext <;> cases h.symm.trans hnext
  rfl

theorem run_fed {t : Token} (h : s.next = (.ok (some t), rest)) (ht : p.feed t = .ok q) :
    p.run s = q.run rest := by rw [run_of_token h, ht]

theorem run_refused {t : Token} {fault : Fault} (h : s.next = (.ok (some t), rest))
    (ht : p.feed t = .error fault) :
    p.run s = (.error fault.error, if fault.taken then rest else rest.putBack t) := by
  rw [run_of_token h, ht]

theorem run_of_finished (h : s.next = (.ok none, rest)) : p.run s = (p.finish rest.pos, rest) := by
  rw [run]
  split <;> rename_i hnext <;> cases h.symm.trans hnext
  rfl

theorem run_of_failed {e : Error} (h : s.next = (.error e, rest)) : p.run s = (.error e, rest) := by
  rw [run]
  split <;> rename_i hnext <;> cases h.symm.trans hnext
  rfl

end Parser

/-- On streams that fit, the one reader reads like the other, and they fit there as well. -/
def Juncture.Leads (j k : Juncture) : Prop :=
  ∀ s, j.fits s → k.fits s ∧ j.reader.run s = k.reader.run s

theorem Juncture.Leads.rfl {j : Juncture} : j.Leads j := fun _ fits => ⟨fits, Eq.refl _⟩

theorem Juncture.Leads.trans {i j k : Juncture} (h : i.Leads j) (h' : j.Leads k) : i.Leads k :=
  fun s fits => ⟨(h' s (h s fits).1).1, (h s fits).2.trans (h' s (h s fits).1).2⟩

/-- In front of the same token or end, nothing matters but what the readers make of it. -/
theorem Parser.leads_of_feed {p q : Parser} {P Q : Option TokenKind → Prop} (weaker : ∀ o, P o → Q o)
    (feeds : ∀ t, P (some t.kind) → p.feed t = q.feed t)
    (finishes : P none → ∀ pos, p.finish pos = q.finish pos) : (p.facing P).Leads (q.facing Q) := by
  intro s hs
  refine ⟨fun o ho => weaker _ (hs o ho), ?_⟩
  cases s.front with
  | token t c hnext =>
    have same := feeds t (hs (some t) (congrArg Prod.fst hnext))
    exact (run_of_token hnext).trans (same ▸ (run_of_token hnext).symm)
  | finished rest hnext =>
    have same := finishes (hs none (congrArg Prod.fst hnext)) rest.pos
    exact (run_of_finished hnext).trans (same ▸ (run_of_finished hnext).symm)
  | failed e rest hnext => exact (run_of_failed hnext).trans (run_of_failed hnext).symm

theorem Parser.leads_of_weaker {p : Parser} {P Q : Option TokenKind → Prop}
    (weaker : ∀ o, P o → Q o) : (p.facing P).Leads (p.facing Q) :=
  leads_of_feed weaker (fun _ _ => rfl) fun _ _ => rfl

/-- The reader goes on behind this token, and complains of the lack of it in front of any other. -/
structure Parser.Demands (p : Parser) (P : Option TokenKind → Prop) (what : Expectation)
    (q : Parser) : Prop where
  met : ∀ t, P (some t.kind) → what.isMet t.kind = true → p.feed t = .ok q
  missed : ∀ t, P (some t.kind) → what.isMet t.kind = false → p.feed t = .error (.expected what t)
  missing : P none → ∀ pos, p.finish pos = .error (.malformed (.expected what none) pos)

/-- A token that was seen is not missed. -/
theorem Parser.demands_of_seen {p q : Parser} {P : Option TokenKind → Prop} {what : Expectation}
    (seen : ∀ o, P o → o.any what.isMet = true)
    (met : ∀ t, what.isMet t.kind = true → p.feed t = .ok q) : p.Demands P what q where
  met t _ ht := met t ht
  missed t hP ht := absurd (seen _ hP) (by simp [ht])
  missing hP := nomatch seen _ hP

namespace Descent

variable {α β : Type} {x : Descent α} {f : α → Descent β} {j : Juncture} {k : α → Juncture}
  {l : β → Juncture} {p q : Parser} {P Q : Option TokenKind → Prop} {what : Expectation}

/-- A routine that leads the reader to where it stands behind the result: to run the reader from there
comes to the same as to run it instead of the routine. Where the routine fails, so does the reader. -/
def Follows (j : Juncture) (x : Descent α) (k : α → Juncture) : Prop :=
  ∀ s, j.fits s → ∀ r s', x s = some (r, s') →
    match r with
    | .ok a => (k a).fits s' ∧ j.reader.run s = (k a).reader.run s'
    | .error e => j.reader.run s = (.error e, s')

theorem Follows.bind (hx : Follows j x k) (hf : ∀ a, Follows (k a) (f a) l) :
    Follows j (x >>= f) l := by
  intro s hs r s' h
  rcases bind_eq_some h with ⟨a, s₁, ha, hb⟩ | ⟨e, he, rfl⟩
  · obtain ⟨fits, same⟩ := hx s hs _ _ ha
    have behind := hf a s₁ fits r s' hb
    rw [same]
    exact behind
  · exact hx s hs _ _ he

theorem Follows.behind {i : Juncture} (hx : Follows j x k) (h : i.Leads j) : Follows i x k := by
  intro s hs r s' hr
  obtain ⟨fits, same⟩ := h s hs
  rw [same]
  exact hx s fits r s' hr

theorem Follows.ahead {k' : α → Juncture} (hx : Follows j x k) (h : ∀ a, (k a).Leads (k' a)) :
    Follows j x k' := by
  intro s hs r s' hr
  have reached := hx s hs r s' hr
  cases r with
  | ok a =>
    obtain ⟨fits, same⟩ := h a s' reached.1
    exact ⟨fits, reached.2.trans same⟩
  | error e => exact reached

theorem follows_none : Follows j (fun _ => none) k :=
  fun _ _ r s' h => nomatch (show none = some (r, s') from h)

theorem follows_pure {a : α} (h : j.Leads (k a)) : Follows j (pure a) k := by
  rintro s hs _ _ ⟨⟩
  exact h s hs

/-! ### Requests -/

theorem follows_peek : Follows (p.facing P) peek (p.lookingAt P) := by
  intro s hs r s' h
  cases s.front with
  | token t c hnext hpeek =>
    obtain ⟨rfl, rfl⟩ : .ok (some t) = r ∧ ⟨c, some t⟩ = s' := by simpa [peek, hpeek] using h
    refine ⟨⟨rfl, hs (some t) (congrArg Prod.fst hnext)⟩, ?_⟩
    exact (run_of_token hnext).trans (run_of_token rfl).symm
  | finished rest hnext hpeek again =>
    obtain ⟨rfl, rfl⟩ : .ok none = r ∧ rest = s' := by simpa [peek, hpeek] using h
    refine ⟨⟨by rw [TokenStream.peek, again], hs none (congrArg Prod.fst hnext)⟩, ?_⟩
    exact (run_of_finished hnext).trans (run_of_finished again).symm
  | failed e rest hnext hpeek =>
    obtain ⟨rfl, rfl⟩ : .error e = r ∧ rest = s' := by simpa [peek, hpeek] using h
    exact run_of_failed hnext

/-- What was looked at is what comes next. -/
theorem leads_facing {o : Option Token} (h : P (o.map Token.kind) → Q (o.map Token.kind)) :
    (p.lookingAt P o).Leads (p.facing Q) := by
  rintro s ⟨looked, hP⟩
  refine ⟨fun o' ho' => ?_, rfl⟩
  obtain rfl : o' = o := by
    cases o with
    | some t =>
      obtain ⟨c, hnext, -⟩ := TokenStream.next_of_looked looked
      simpa [hnext] using ho'.symm
    | none => simpa [TokenStream.next_of_looked_end looked] using ho'.symm
  exact h hP

/-- The reader refuses what it looks at, as the routine does. -/
theorem follows_fail_token {t : Token} {e : Error}
    (h : P (some t.kind) → p.feed t = .error ⟨e, false⟩) :
    Follows (p.lookingAt P (some t)) (fail e) k := by
  rintro s ⟨looked, hP⟩ _ _ ⟨⟩
  obtain ⟨c, hnext, rfl⟩ := TokenStream.next_of_looked looked
  exact run_refused hnext (h hP)

theorem follows_complain {o : Option Token} {c : Complaint}
    (htoken : ∀ t, o = some t → P (some t.kind) → p.feed t = .error ⟨.malformed c t.pos, false⟩)
    (hend : o = none → P none → ∀ pos, p.finish pos = .error (.malformed c pos)) :
    Follows (p.lookingAt P o) (complain c) k := by
  rintro s ⟨looked, hP⟩ _ _ ⟨⟩
  cases o with
  | some t =>
    obtain ⟨c, hnext, rfl⟩ := TokenStream.next_of_looked looked
    exact run_refused hnext (htoken t rfl hP)
  | none =>
    have finished := run_of_finished (p := p) (TokenStream.next_of_looked_end looked)
    rw [hend rfl hP] at finished
    exact finished

theorem follows_next_token {t : Token} (h : P (some t.kind) → p.feed t = .ok q) :
    Follows (p.lookingAt P (some t)) next fun _ => q.anyhow := by
  rintro s ⟨looked, hP⟩ r s' hr
  obtain ⟨c, hnext, rfl⟩ := TokenStream.next_of_looked looked
  cases hr
  exact ⟨fun _ _ => trivial, run_fed hnext (h hP)⟩

/-- The reader takes the next token as the routine does. A routine that refuses it has used it up. -/
theorem follows_next {f : Option Token → Descent β} (htoken : ∀ t, P (some t.kind) →
      (∃ q, p.feed t = .ok q ∧ Follows q.anyhow (f (some t)) l) ∨
        ∃ e, p.feed t = .error ⟨e, true⟩ ∧ f (some t) = fail e)
    (hend : P none → ∃ c, f none = complain c ∧ ∀ pos, p.finish pos = .error (.malformed c pos)) :
    Follows (p.facing P) (next >>= f) l := by
  intro s hs r s' h
  cases s.front with
  | token t c hnext =>
    have hr : f (some t) ⟨c, none⟩ = some (r, s') := by
      simpa [Bind.bind, andThen, next, hnext] using h
    rcases htoken t (hs _ (congrArg Prod.fst hnext)) with ⟨q, hq, behind⟩ | ⟨e, he, hfail⟩
    · have same : p.run s = q.run ⟨c, none⟩ := run_fed hnext hq
      have rest := behind _ (fun _ _ => trivial) r s' hr
      cases r with
      | ok a => exact ⟨rest.1, same.trans rest.2⟩
      | error e => exact same.trans rest
    · rw [hfail] at hr
      cases hr
      exact run_refused hnext he
  | finished rest hnext =>
    obtain ⟨c, hc, missing⟩ := hend (hs _ (congrArg Prod.fst hnext))
    have hr : complain c rest = some (r, s') := by
      simpa [Bind.bind, andThen, next, hnext, hc] using h
    cases hr
    have finished := run_of_finished (p := p) hnext
    rw [missing] at finished
    exact finished
  | failed e rest hnext =>
    obtain ⟨rfl, rfl⟩ : .error e = r ∧ rest = s' := by
      simpa [Bind.bind, andThen, next, hnext] using h
    exact run_of_failed hnext

theorem follows_sees : Follows (p.facing P) (sees what) fun b =>
    p.facing fun o => P o ∧ o.any what.isMet = b := by
  refine follows_peek.bind fun o => follows_pure (leads_facing fun hP => ⟨hP, ?_⟩)
  exact Option.any_map

/-- What the routine has seen may be ahead. -/
theorem follows_sees_bind {f : Bool → Descent β}
    (hf : ∀ b, (∃ o, P o ∧ o.any what.isMet = b) →
      Follows (p.facing fun o => P o ∧ o.any what.isMet = b) (f b) l) :
    Follows (p.facing P) (sees what >>= f) l := by
  intro s hs r s' h
  rcases bind_eq_some h with ⟨b, s₁, hb, hrest⟩ | ⟨e, he, rfl⟩
  · obtain ⟨fits, same⟩ := follows_sees s hs _ _ hb
    rcases bind_eq_some hb with ⟨o, s₂, ho, hpure⟩ | ⟨e, -, he⟩
    · obtain ⟨⟨-, hP⟩, -⟩ := follows_peek s hs _ _ ho
      obtain ⟨rfl, rfl⟩ : (o.any fun t => what.isMet t.kind) = b ∧ s₂ = s₁ := by
        simpa [pure] using hpure
      have behind := hf _ ⟨_, hP, Option.any_map⟩ s₂ fits r s' hrest
      rw [same]
      exact behind
    · cases he
  · exact follows_sees s hs _ _ he

theorem follows_atEnd : Follows (p.facing P) atEnd fun
    | true => p.lookingAt P none
    | false => p.facing fun o => P o ∧ o ≠ none := by
  refine follows_peek.bind fun o => follows_pure ?_
  cases o with
  | none => exact .rfl
  | some t => exact leads_facing fun hP => ⟨hP, nofun⟩

theorem follows_accept (h : ∀ t, P (some t.kind) → what.isMet t.kind = true → p.feed t = .ok q) :
    Follows (p.facing P) (accept what) fun
      | true => q.anyhow
      | false => p.facing fun o => P o ∧ o.any what.isMet = false := by
  refine follows_sees.bind fun seen => ?_
  cases seen with
  | true =>
    refine follows_next (fun t ht => .inl ⟨q, h t ht.1 ht.2, ?_⟩) fun hnone => nomatch hnone.2
    exact follows_pure .rfl
  | false => exact follows_pure .rfl

theorem follows_expect (h : p.Demands P what q) :
    Follows (p.facing P) (expect what) fun _ => q.anyhow := by
  refine (follows_accept h.met).bind fun found => ?_
  cases found with
  | true => exact follows_pure .rfl
  | false =>
    refine follows_peek.bind fun o => follows_complain (fun t ht hP => ?_) fun ho hP => ?_
    · subst ht
      exact h.missed t hP.1 hP.2
    · subst ho
      exact h.missing hP.1

/-- Where the reader stands behind a round that goes on, and behind the last one. -/
def behindRound (k k' : α → Juncture) : ForInStep α → Juncture
  | .yield a => k a
  | .done a => k' a

/-- A loop leads from one round to the next, and from the last to its end. -/
theorem follows_loop {round : α → Descent (ForInStep α)} {k' : α → Juncture}
    (h : ∀ a, Follows (k a) (round a) (behindRound k k')) (rounds : Nat) (a : α) :
    Follows (k a) (loop round rounds a) k' := by
  induction rounds generalizing a with
  | zero => exact follows_none
  | succ n ih =>
    refine (h a).bind fun step => ?_
    cases step with
    | yield b => exact ih b
    | done b => exact follows_pure .rfl

/-! ### Lists -/

/-- The list is at its end, or the text is. -/
def Stopped (stop : Mark) (o : Option TokenKind) : Prop := o = none ∨ o = some (.mark stop)

theorem demands_of_stopped {stop : Mark} (feeds : ∀ t, t.kind = .mark stop → p.feed t = .ok q)
    (missing : ∀ pos, p.finish pos = .error (.malformed (.expected (.mark stop) none) pos)) :
    p.Demands (Stopped stop) (.mark stop) q where
  met t _ ht := feeds t (Expectation.isMet_mark.1 ht)
  missed _ hP ht := absurd (Option.some.inj (hP.resolve_left nofun))
    (Expectation.isMet_mark_eq_false.1 ht)
  missing _ := missing

/-- How the reader reads a list: `behind` these items, with `front` ahead, or `later`, behind a further
separator, until the list is closed. Items come last first. -/
structure Lists (stop separator : Mark) (item : Descent α) (behind later : List α → Parser)
    (front : List α → Option TokenKind → Prop) (closed : List α → Parser) : Prop where
  front_nil : ∀ o, front [] o
  closes : ∀ items, (behind items).Demands (Stopped stop) (.mark stop) (closed items.reverse)
  separates : ∀ a items, (behind (a :: items)).Demands
    (fun o => front (a :: items) o ∧ ¬ Stopped stop o) (.mark separator) (later (a :: items))
  feed_later : ∀ items t, t.kind = .mark stop → (later items).feed t = (behind items).feed t
  first : Follows ((behind []).facing fun o => ¬ Stopped stop o) item fun a =>
    (behind [a]).facing (front [a])
  further : ∀ a items, Follows ((later (a :: items)).facing (· ≠ some (.mark stop))) item fun b =>
    (behind (b :: a :: items)).facing (front (b :: a :: items))

section

variable {start stop separator : Mark} {item : Descent α} {behind later : List α → Parser}
  {front : List α → Option TokenKind → Prop} {closed : List α → Parser}

theorem follows_listItem {items : List α}
    (stops : ∀ t, t.kind = .mark stop → p.feed t = (behind items).feed t)
    (reads : Follows (p.facing fun o => P o ∧ o ≠ some (.mark stop)) item fun a =>
      (behind (a :: items)).facing (front (a :: items))) :
    Follows (p.facing P) (listItem stop item items) (behindRound
      (fun items => (behind items).facing (front items))
      (fun items => (behind items).facing (Stopped stop))) := by
  refine follows_sees.bind fun stopped => ?_
  cases stopped with
  | true =>
    have found {o : Option TokenKind} (h : P o ∧ o.any (Expectation.mark stop).isMet = true) :
        o = some (.mark stop) := Expectation.any_isMet_mark.1 h.2
    exact follows_pure (leads_of_feed (fun o ho => .inr (found ho))
      (fun t ht => stops t (Option.some.inj (found ht))) fun hnone => nomatch found hnone)
  | false =>
    have goesOn (o : Option TokenKind) (h : P o ∧ o.any (Expectation.mark stop).isMet = false) :
        P o ∧ o ≠ some (.mark stop) :=
      ⟨h.1, Expectation.any_isMet_mark_eq_false.1 h.2⟩
    exact (reads.behind (leads_of_weaker goesOn)).bind fun a => follows_pure .rfl

theorem follows_listRound (h : Lists stop separator item behind later front closed) (items : List α) :
    Follows ((behind items).facing (front items)) (listRound stop separator item items)
      (behindRound (fun items => (behind items).facing (front items))
        (fun items => (behind items).facing (Stopped stop))) := by
  refine follows_atEnd.bind fun ended => ?_
  cases ended with
  | true => exact follows_pure (leads_facing fun _ => .inl rfl)
  | false =>
  refine follows_sees.bind fun stopped => ?_
  cases stopped with
  | true => exact follows_pure (leads_of_weaker fun o ho => .inr (Expectation.any_isMet_mark.1 ho.2))
  | false =>
    have goesOn {o : Option TokenKind} (h : (front items o ∧ o ≠ none) ∧
        o.any (Expectation.mark stop).isMet = false) : ¬ Stopped stop o := by
      rintro (rfl | rfl)
      · exact h.1.2 rfl
      · exact Expectation.any_isMet_mark_eq_false.1 h.2 rfl
    cases items with
    | nil =>
      have begins : Follows ((behind []).facing fun o => ¬ Stopped stop o)
          (expectIf false (.mark separator)) fun _ => (behind []).facing fun o => ¬ Stopped stop o :=
        follows_pure .rfl
      refine (begins.behind (leads_of_weaker fun o => goesOn)).bind fun _ => ?_
      exact follows_listItem (fun _ _ => rfl) (h.first.behind (leads_of_weaker fun o ho => ho.1))
    | cons a items =>
      have begins := follows_expect (h.separates a items)
      refine (begins.behind (leads_of_weaker fun o ho => ⟨ho.1.1, goesOn ho⟩)).bind fun _ => ?_
      exact follows_listItem (h.feed_later (a :: items))
        ((h.further a items).behind (leads_of_weaker fun o ho => ho.2))

theorem follows_delimited (h : Lists stop separator item behind later front closed)
    (opens : p.Demands P (.mark start) (behind [])) (rounds : Nat) :
    Follows (p.facing P) (delimited rounds start stop separator item) fun items =>
      (closed items).anyhow := by
  refine (follows_expect opens).bind fun _ => ?_
  have items := follows_loop (follows_listRound h) rounds []
  refine (items.behind (leads_of_weaker fun o _ => h.front_nil o)).bind fun items => ?_
  exact (follows_expect (h.closes items)).bind fun _ => follows_pure .rfl

end

end Descent

end ScopeLang
