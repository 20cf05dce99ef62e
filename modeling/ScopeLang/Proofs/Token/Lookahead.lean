import Mathlib.Data.List.Permutation
import ScopeLang.Proofs.Token.Dissection

/-!
# Looking ahead

A stream of tokens can be asked for the next token, for a look at it, and for whether there is one.
Whatever is asked, and in whichever order, the tokens taken are those that plain iteration lists, in
the same order, and the failure that ends them is met once no token is left. Which request meets it
does not matter. A character that starts no token is met again by every later request; behind a text
that is not closed nothing is left.

## Main definitions

* `TokenStream.ask` — a request, the reply to it and the stream behind it.
* `TokenStream.converse` — any number of requests, one after the other.
* `TokenStream.Request.due` — the reply that a list of tokens asks for.

## Main statements

* `TokenStream.ReadsTo.of_read` — what reading a token comes to, and what reading again comes to.
* `TokenStream.Stands.ask` — one request keeps a stream on its list of tokens.
* `requests_follow_tokens` — so does every sequence of requests.
-/

namespace ScopeLang

namespace TokenStream

/-! ### Requests and replies -/

/-- What a stream can be asked. -/
inductive Request where
  /-- The next token, which is taken. -/
  | next
  /-- The next token, which stays. -/
  | peek
  /-- Whether there is no next token. -/
  | atEnd

/-- What a stream replies. -/
inductive Reply where
  /-- The next token, or that there is none. -/
  | token (t : Option Token)
  /-- Whether there is none. -/
  | atEnd (yes : Bool)
  | failure (e : Error)

def Reply.failure? : Reply → Option Error
  | failure e => some e
  | _ => none

/-- The reply of a stream whose next token is this one. -/
def Request.reply : Request → Except Error (Option Token) → Reply
  | _, .error e => .failure e
  | .next, .ok t | .peek, .ok t => .token t
  | .atEnd, .ok t => .atEnd t.isNone

/-- The reply that is due when these tokens are left, and this is how they end. -/
def Request.due (r : Request) : List Token → Ending → Reply
  | t :: _, _ => r.reply (.ok (some t))
  | [], .finished _ => r.reply (.ok none)
  | [], .failed e => r.reply (.error e)

/-- One request: the reply, and the stream behind it. -/
def ask (s : TokenStream) : Request → Reply × TokenStream
  | .next => (match s.next.1 with | .ok t => .token t | .error e => .failure e, s.next.2)
  | .peek => (match s.peek.1 with | .ok t => .token t | .error e => .failure e, s.peek.2)
  | .atEnd => (match s.atEnd.1 with | .ok yes => .atEnd yes | .error e => .failure e, s.atEnd.2)

/-- Requests one after the other: each with its reply, and the stream behind them. -/
def converse (s : TokenStream) : List Request → List (Request × Reply) × TokenStream
  | [] => ([], s)
  | r :: rs => ((r, (s.ask r).1) :: ((s.ask r).2.converse rs).1, ((s.ask r).2.converse rs).2)

/-- How many tokens were taken. -/
def taken (log : List (Request × Reply)) : Nat :=
  log.countP fun | (.next, .token (some _)) => true | _ => false

/-- The failures among the replies. -/
def failures (log : List (Request × Reply)) : List Error :=
  log.filterMap fun entry => entry.2.failure?

@[simp] theorem taken_append (log log' : List (Request × Reply)) :
    taken (log ++ log') = taken log + taken log' := List.countP_append

@[simp] theorem failures_append (log log' : List (Request × Reply)) :
    failures (log ++ log') = failures log ++ failures log' := List.filterMap_append

/-- How many tokens a request takes. -/
def Request.takes : Request → Nat
  | .next => 1
  | _ => 0

@[simp] theorem taken_token (r : Request) (t : Token) :
    taken [(r, r.reply (.ok (some t)))] = r.takes := by
  cases r <;> rfl

@[simp] theorem taken_finished (r : Request) : taken [(r, r.reply (.ok none))] = 0 := by
  cases r <;> rfl

@[simp] theorem taken_failure (r : Request) (e : Error) : taken [(r, r.reply (.error e))] = 0 := by
  cases r <;> rfl

@[simp] theorem failures_ok (r : Request) (t : Option Token) :
    failures [(r, r.reply (.ok t))] = [] := by
  cases r <;> rfl

@[simp] theorem failures_failure (r : Request) (e : Error) :
    failures [(r, r.reply (.error e))] = [e] := by
  cases r <;> rfl

variable {s : TokenStream}

/-- Every request goes by what the next token is. -/
theorem ask_fst (s : TokenStream) (r : Request) : (s.ask r).1 = r.reply s.next.1 := by
  have looked : s.peek.1 = s.next.1 := by
    unfold peek
    split <;> simp_all
  cases r with
  | next => rcases h : s.next.1 with e | t <;> simp [ask, Request.reply, h]
  | peek => rcases h : s.next.1 with e | t <;> simp [ask, Request.reply, looked, h]
  | atEnd =>
    rcases h : s.next.1 with e | t <;> simp [ask, atEnd, Request.reply, looked, h, Except.map]

/-! ### The stream behind a request -/

theorem waiting_next (s : TokenStream) : s.next.2.waiting = none := by
  unfold next
  split <;> rfl

/-- A token that is put back where it was taken comes next again. -/
theorem next_putBack (hs : s.waiting = none) (t : Token) :
    (s.putBack t).next = (.ok (some t), s) := by
  obtain ⟨cursor, waiting⟩ := s
  obtain rfl : waiting = none := hs
  rfl

/-- Behind a request for a token there is the stream without it or, after a mere look, the stream
where it waits. -/
theorem ask_snd_of_token {t : Token} (h : s.next.1 = .ok (some t)) (r : Request) :
    (s.ask r).2 = match r with | .next => s.next.2 | _ => s.next.2.putBack t := by
  have hnext : s.next = (.ok (some t), s.next.2) := by rw [← h]
  have hpeek : s.peek = (.ok (some t), s.next.2.putBack t) := by rw [peek, hnext]
  cases r with
  | next => rfl
  | peek => rw [ask, hpeek]
  | atEnd => rw [ask, atEnd, hpeek]

/-- Where no token is found, looking for one and taking it are the same. -/
theorem ask_snd_of_no_token (h : ∀ t, s.next.1 ≠ .ok (some t)) (r : Request) :
    (s.ask r).2 = s.next.2 := by
  have hpeek : s.peek.2 = s.next.2 := by
    unfold peek
    split
    · rename_i t rest hnext
      exact absurd (congrArg Prod.fst hnext) (h t)
    · rfl
  cases r with
  | next => rfl
  | peek => exact hpeek
  | atEnd => exact hpeek

/-! ### Reading, and reading again -/

/-- What reading a token comes to: a token; nothing, at the end of the text; a character that starts
no token, and reading again comes to the same; or a text that is not closed, at the end of the
text. -/
inductive ReadsTo (c : Cursor) : Except Error (Option Token) × Cursor → Prop where
  | token (t : Token) {b : Cursor} : c.Reads b → ReadsTo c (.ok (some t), b)
  | finished {b : Cursor} : c.Reads b → b.rest = [] → ReadsTo c (.ok none, b)
  | unknown {ch : Char} {b : Cursor} : c.Reads b →
    read b = (.error (.malformed (.unknownCharacter ch) b.pos), b) →
      ReadsTo c (.error (.malformed (.unknownCharacter ch) b.pos), b)
  | unclosed {b : Cursor} : c.Reads b → b.rest = [] →
    ReadsTo c (.error (.malformed .unclosedText b.pos), b)

/-- Where layout was skipped there is none to skip again. -/
theorem skipLayout_skipLayout (c : Cursor) : c.skipLayout.skipLayout = c.skipLayout := by
  obtain ⟨-, -, -, -, past⟩ := Cursor.layout_skipLayoutFrom false c.rest c.pos
  exact Cursor.skipLayoutFrom_layout .nil past _

theorem read_skipLayout (c : Cursor) : read c.skipLayout = read c := by
  rw [read, read, Cursor.scan, Cursor.scan, skipLayout_skipLayout]

theorem ReadsTo.of_read (c : Cursor) : ReadsTo c (read c) := by
  have skipped := c.reads_skipLayout
  have scanned := c.skipLayout.reads_scanHere
  have again := read_skipLayout c
  cases hscan : c.skipLayout.scanHere with
  | token t b =>
    rw [hscan] at scanned
    rw [read, Cursor.scan, hscan]
    cases scanned with
    | token _ hb => exact .token t (skipped.trans hb)
  | finished b =>
    rw [hscan] at scanned
    rw [read, Cursor.scan, hscan]
    cases scanned with
    | finished hend => exact .finished skipped hend
  | unknown ch b =>
    rw [hscan] at scanned
    have hread : read c = (.error (.malformed (.unknownCharacter ch) b.pos), b) := by
      rw [read, Cursor.scan, hscan]
    rw [hread] at again ⊢
    cases scanned with
    | unknown => exact .unknown skipped again
  | unclosed b =>
    rw [hscan] at scanned
    rw [read, Cursor.scan, hscan]
    cases scanned with
    | unclosed _ hb hend => exact .unclosed (skipped.trans hb) hend

/-- At the end of the text nothing is read. -/
theorem read_of_rest_eq_nil {c : Cursor} (h : c.rest = []) : read c = (.ok none, c) := by
  obtain ⟨rest, pos⟩ := c
  obtain rfl : rest = [] := h
  rfl

/-- No request goes back in the text. -/
theorem reads_ask (s : TokenStream) (r : Request) : s.cursor.Reads (s.ask r).2.cursor := by
  have reads : s.cursor.Reads s.next.2.cursor := by
    unfold next
    split
    · exact .refl _
    · have readsTo := ReadsTo.of_read s.cursor
      generalize read s.cursor = result at readsTo ⊢
      cases readsTo with
      | token _ h | finished h | unknown h | unclosed h => exact h
  by_cases h : ∃ t, s.next.1 = .ok (some t)
  · obtain ⟨t, ht⟩ := h
    rw [ask_snd_of_token ht]
    cases r <;> exact reads
  · rw [ask_snd_of_no_token (not_exists.1 h)]
    exact reads

/-! ### What is left of the tokens -/

section Drain

variable {t : Token} {tokens : List Token} {ending : Ending}

theorem drain_of_next_token (h : s.next.1 = .ok (some t)) :
    s.drain = (t :: s.next.2.drain.1, s.next.2.drain.2) := by
  rw [drain]
  split
  · rename_i t' rest hnext
    rw [hnext] at h ⊢
    cases h
    rfl
  · rename_i rest hnext
    rw [hnext] at h
    cases h
  · rename_i e rest hnext
    rw [hnext] at h
    cases h

/-- The first token left is the next one. -/
theorem next_of_drain_cons (h : s.drain = (t :: tokens, ending)) :
    s.next.1 = .ok (some t) ∧ s.next.2.drain = (tokens, ending) := by
  rw [drain] at h
  split at h
  · rename_i t' rest hnext
    simp only [Prod.mk.injEq, List.cons.injEq] at h
    obtain ⟨⟨rfl, rfl⟩, rfl⟩ := h
    rw [hnext]
    exact ⟨rfl, rfl⟩
  · simp at h
  · simp at h

theorem next_of_drain_finished {pos : Pos} (h : s.drain = ([], .finished pos)) :
    s.next.1 = .ok none := by
  rw [drain] at h
  split at h
  · simp at h
  · rename_i rest hnext
    rw [hnext]
  · simp at h

theorem next_of_drain_failed {e : Error} (h : s.drain = ([], .failed e)) : s.next.1 = .error e := by
  rw [drain] at h
  split at h
  · simp at h
  · simp at h
  · rename_i e' rest hnext
    rw [hnext]
    simpa using h

/-- The reply to a request is due to the tokens left. -/
theorem ask_eq_due (s : TokenStream) (r : Request) : (s.ask r).1 = r.due s.drain.1 s.drain.2 := by
  rw [ask_fst]
  rcases h : s.drain with ⟨_ | ⟨t, tokens⟩, pos | e⟩
  · rw [next_of_drain_finished h]
    rfl
  · rw [next_of_drain_failed h]
    rfl
  · rw [(next_of_drain_cons h).1]
    rfl
  · rw [(next_of_drain_cons h).1]
    rfl

/-- A mere look leaves all tokens. -/
theorem drain_putBack (hs : s.waiting = none) (t : Token) :
    (s.putBack t).drain = (t :: s.drain.1, s.drain.2) := by
  have hnext := next_putBack hs t
  rw [drain_of_next_token (congrArg Prod.fst hnext), hnext]

theorem drain_of_waiting (hs : s.waiting = some t) :
    ∃ tokens ending, s.drain = (t :: tokens, ending) := by
  have hnext : s.next.1 = .ok (some t) := by rw [next, hs]
  exact ⟨_, _, drain_of_next_token hnext⟩

end Drain

/-- A stream that its next request for a token does not change is not changed by any request. -/
theorem ask_of_next_eq {result : Except Error (Option Token)} (h : s.next = (result, s))
    (none : ∀ t, result ≠ .ok (some t)) (r : Request) : s.ask r = (r.reply result, s) := by
  refine Prod.ext ?_ ?_
  · rw [ask_fst, h]
  · rw [ask_snd_of_no_token (by rwa [h]), h]

theorem waiting_of_next_eq {result : Except Error (Option Token)} (h : s.next = (result, s)) :
    s.waiting = none := by
  simpa [h] using waiting_next s

theorem next_of_rest_eq_nil (hs : s.waiting = none) (h : s.cursor.rest = []) :
    s.next = (.ok none, s) := by
  obtain ⟨cursor, waiting⟩ := s
  obtain rfl : waiting = none := hs
  simp [next, read_of_rest_eq_nil h]

theorem next_of_waiting_eq_none (hs : s.waiting = none) :
    s.next = ((read s.cursor).1, ⟨(read s.cursor).2, none⟩) := by
  rw [next, hs]

/-- Where no token is found, none was waiting. -/
theorem waiting_of_no_token (h : ∀ t, s.next.1 ≠ .ok (some t)) : s.waiting = none := by
  cases hs : s.waiting with
  | none => rfl
  | some t => exact absurd (by rw [next, hs]) (h t)

/-- Behind the tokens a stream stays at the end of the text. -/
theorem next_next_of_finished (h : s.next.1 = .ok none) : s.next.2.next = (.ok none, s.next.2) := by
  have hs : s.waiting = none := waiting_of_no_token (by simp [h])
  have readsTo := ReadsTo.of_read s.cursor
  rw [next_of_waiting_eq_none hs] at h ⊢
  generalize read s.cursor = result at h readsTo ⊢
  cases readsTo with
  | finished _ hend => exact next_of_rest_eq_nil rfl hend
  | token | unknown | unclosed => simp at h

/-- Which of the two failures it was decides on the stream behind it. -/
theorem next_next_of_failed {e : Error} (h : s.next.1 = .error e) :
    (∃ ch pos, e = .malformed (.unknownCharacter ch) pos ∧ s.next.2.next = (.error e, s.next.2)) ∨
      ∃ pos, e = .malformed .unclosedText pos ∧ s.next.2.next = (.ok none, s.next.2) := by
  have hs : s.waiting = none := waiting_of_no_token (by simp [h])
  have readsTo := ReadsTo.of_read s.cursor
  rw [next_of_waiting_eq_none hs] at h ⊢
  generalize read s.cursor = result at h readsTo ⊢
  cases readsTo with
  | unknown _ again =>
    cases h
    exact .inl ⟨_, _, rfl, by rw [next_of_waiting_eq_none rfl, again]⟩
  | unclosed _ hend =>
    cases h
    exact .inr ⟨_, rfl, next_of_rest_eq_nil rfl hend⟩
  | token | finished => simp at h

theorem drain_of_next_finished (h : s.next = (.ok none, s)) : s.drain = ([], .finished s.pos) := by
  rw [drain]
  split <;> simp_all

theorem drain_next_of_finished {pos : Pos} (h : s.drain = ([], .finished pos)) :
    s.next.2.drain = ([], .finished pos) := by
  have hnext := next_of_drain_finished h
  rw [drain_of_next_finished (next_next_of_finished hnext)]
  rw [drain] at h
  split at h
  · simp at h
  · rename_i rest hrest
    rw [hrest]
    exact h
  · simp at h

/-! ### Any number of requests -/

/-- How a stream stands to a list of tokens after some requests. As long as no failure was reported,
the tokens not taken yet are left. Behind a character that starts no token it does not change any
more; behind a text that is not closed it is at its end. -/
inductive Stands (tokens : List Token) (ending : Ending) (log : List (Request × Reply))
    (s : TokenStream) : Prop where
  | reading : failures log = [] → taken log ≤ tokens.length →
    s.drain = (tokens.drop (taken log), ending) → Stands tokens ending log s
  | stuck {ch : Char} {pos : Pos} : ending = .failed (.malformed (.unknownCharacter ch) pos) →
    taken log = tokens.length → failures log ≠ [] →
      (∀ e ∈ failures log, ending = .failed e) →
        s.next = (.error (.malformed (.unknownCharacter ch) pos), s) → Stands tokens ending log s
  | spent {pos : Pos} : ending = .failed (.malformed .unclosedText pos) →
    taken log = tokens.length → failures log = [.malformed .unclosedText pos] →
      s.next = (.ok none, s) → Stands tokens ending log s

namespace Stands

variable {tokens : List Token} {ending : Ending} {log : List (Request × Reply)}

/-- A request while a token is left takes it, or looks at it. -/
theorem ask_token {t : Token} {rest : List Token} (clean : failures log = [])
    (hleft : tokens.drop (taken log) = t :: rest) (left : s.drain = (t :: rest, ending))
    (r : Request) : Stands tokens ending (log ++ [(r, (s.ask r).1)]) (s.ask r).2 := by
  obtain ⟨token, further⟩ := next_of_drain_cons left
  have more : taken log < tokens.length := by
    rw [← List.drop_eq_nil_iff.not.trans Nat.not_le, hleft]
    exact List.cons_ne_nil t rest
  rw [ask_fst, ask_snd_of_token token, token]
  refine .reading (by simp [clean]) ?_ ?_
  · cases r <;> simp only [taken_append, taken_token, Request.takes] <;> omega
  · cases r with
    | next =>
      have hrest : tokens.drop (taken log + 1) = rest := by
        rw [← List.drop_drop, hleft, List.drop_one, List.tail_cons]
      simpa [Request.takes, hrest] using further
    | peek | atEnd =>
      simpa [Request.takes, hleft, further] using drain_putBack (waiting_next s) t

/-- A request when no token is left meets the end of the tokens. -/
theorem ask_ending (clean : failures log = []) (all : taken log = tokens.length)
    (left : s.drain = ([], ending)) (r : Request) :
    Stands tokens ending (log ++ [(r, (s.ask r).1)]) (s.ask r).2 := by
  cases ending with
  | finished pos =>
    have none := next_of_drain_finished left
    rw [ask_fst, ask_snd_of_no_token (by simp [none]), none]
    refine .reading (by simp [clean]) (by simp [all]) ?_
    simpa [all] using drain_next_of_finished left
  | failed e =>
    have failed := next_of_drain_failed left
    rw [ask_fst, ask_snd_of_no_token (by simp [failed]), failed]
    rcases next_next_of_failed failed with ⟨ch, pos, rfl, again⟩ | ⟨pos, rfl, again⟩
    · exact .stuck rfl (by simp [all]) (by simp) (by simp [clean]) again
    · exact .spent rfl (by simp [all]) (by simp [clean]) again

/-- One request keeps a stream on its list of tokens. -/
theorem ask (h : Stands tokens ending log s) (r : Request) :
    Stands tokens ending (log ++ [(r, (s.ask r).1)]) (s.ask r).2 := by
  cases h with
  | reading clean within left =>
    rcases hleft : tokens.drop (taken log) with _ | ⟨t, rest⟩
    · have all := Nat.le_antisymm within (List.drop_eq_nil_iff.1 hleft)
      exact ask_ending clean all (hleft ▸ left) r
    · exact ask_token clean hleft (hleft ▸ left) r
  | stuck hending all failed only again =>
    rw [ask_of_next_eq again nofun]
    refine .stuck hending (by simp [all]) (by simp) ?_ again
    simpa [or_imp, forall_and, hending] using only
  | spent hending all once again =>
    rw [ask_of_next_eq again nofun]
    exact .spent hending (by simp [all]) (by simp [once]) again

/-- So does any number of requests. -/
theorem converse (h : Stands tokens ending log s) (requests : List Request) :
    Stands tokens ending (log ++ (s.converse requests).1) (s.converse requests).2 := by
  induction requests generalizing log s with
  | nil => simpa [TokenStream.converse] using h
  | cons r requests ih => simpa [TokenStream.converse] using ih (h.ask r)

/-- A token that waits is the next one. -/
theorem waiting (h : Stands tokens ending log s) {t : Token} (hs : s.waiting = some t) :
    tokens[taken log]? = some t := by
  cases h with
  | reading _ _ left =>
    obtain ⟨rest, ending', hdrain⟩ := drain_of_waiting hs
    rw [left, Prod.mk.injEq] at hdrain
    rw [← List.head?_drop, hdrain.1, List.head?_cons]
  | stuck _ _ _ _ again => simp [waiting_of_next_eq again] at hs
  | spent _ _ _ again => simp [waiting_of_next_eq again] at hs

theorem reply (h : Stands tokens ending log s) (clean : failures log = []) :
    taken log ≤ tokens.length ∧ ∀ r, (s.ask r).1 = r.due (tokens.drop (taken log)) ending := by
  cases h with
  | reading _ within left => exact ⟨within, fun r => by rw [ask_eq_due, left]⟩
  | stuck _ _ failed => exact absurd clean failed
  | spent _ _ once => simp [once] at clean

theorem failed (h : Stands tokens ending log s) {e : Error} (he : e ∈ failures log) :
    ending = .failed e ∧ taken log = tokens.length := by
  cases h with
  | reading clean => simp [clean] at he
  | stuck _ all _ only => exact ⟨only e he, all⟩
  | spent hending all once =>
    obtain rfl : e = _ := by simpa [once] using he
    exact ⟨hending, all⟩

/-- Behind a character that starts no token nothing changes any more. -/
theorem stays {ch : Char} {pos : Pos}
    (h : Stands tokens (.failed (.malformed (.unknownCharacter ch) pos)) log s)
    (failed : failures log ≠ []) (r : Request) :
    s.ask r = (.failure (.malformed (.unknownCharacter ch) pos), s) := by
  cases h with
  | reading clean => exact absurd clean failed
  | stuck hending _ _ _ again =>
    cases hending
    rw [ask_of_next_eq again nofun]
    rfl
  | spent hending => cases hending

/-- Behind a text that is not closed the failure is not reported again. -/
theorem ends {pos : Pos} (h : Stands tokens (.failed (.malformed .unclosedText pos)) log s)
    (failed : failures log ≠ []) :
    failures log = [.malformed .unclosedText pos] ∧ ∀ r, s.ask r = (r.reply (.ok none), s) := by
  cases h with
  | reading clean => exact absurd clean failed
  | stuck hending => cases hending
  | spent hending _ once again =>
    cases hending
    exact ⟨once, ask_of_next_eq again nofun⟩

/-- A look at a token makes it wait, and taking it does not. -/
theorem looks (h : Stands tokens ending log s) {t : Token} (ht : tokens[taken log]? = some t) :
    (s.ask .peek).2.waiting = some t ∧ (s.ask .atEnd).2.waiting = some t ∧
      (s.ask .next).2.waiting = none := by
  have within : taken log < tokens.length := (List.getElem?_eq_some_iff.1 ht).1
  cases h with
  | reading _ _ left =>
    rw [List.drop_eq_getElem_cons within, (List.getElem?_eq_some_iff.1 ht).2] at left
    obtain ⟨token, -⟩ := next_of_drain_cons left
    exact ⟨by rw [ask_snd_of_token token]; rfl, by rw [ask_snd_of_token token]; rfl, waiting_next s⟩
  | stuck _ all => exact absurd all within.ne
  | spent _ all => exact absurd all within.ne

end Stands

theorem reads_converse (s : TokenStream) (requests : List Request) :
    s.cursor.Reads (s.converse requests).2.cursor := by
  induction requests generalizing s with
  | nil => exact .refl _
  | cons r requests ih => exact (s.reads_ask r).trans (ih _)

end TokenStream

open TokenStream in
/-- Whatever is asked of the tokens of a text, and in whichever order: as long as no failure was
reported, the reply is due to the tokens not taken yet, those of plain iteration from there on. A
failure is reported only behind all tokens, and it is the one that plain iteration ends with. Behind
a character that starts no token every request reports it again and changes nothing; behind a text
that is not closed it was reported once, and all later requests are told that this is the end. The
position is that of the token that waits, which is the next one; or else it is the one behind the
characters read. -/
theorem requests_follow_tokens (source : String) (requests : List Request) :
    let tokens := (ofString source).drain.1
    let ending := (ofString source).drain.2
    let log := ((ofString source).converse requests).1
    let s := ((ofString source).converse requests).2
    (failures log = [] → taken log ≤ tokens.length ∧
      ∀ r, (s.ask r).1 = r.due (tokens.drop (taken log)) ending) ∧
    (∀ e ∈ failures log, ending = .failed e ∧ taken log = tokens.length) ∧
    (∀ e, ending = .failed e →
      (∃ ch pos, e = .malformed (.unknownCharacter ch) pos ∧
        (failures log ≠ [] → ∀ r, s.ask r = (.failure e, s))) ∨
      ∃ pos, e = .malformed .unclosedText pos ∧
        (failures log ≠ [] → failures log = [e] ∧ ∀ r, s.ask r = (r.reply (.ok none), s))) ∧
    (∀ t, s.waiting = some t → tokens[taken log]? = some t ∧ StandsAt source t ∧ s.pos = t.pos) ∧
    (s.waiting = none → s.pos = s.cursor.pos ∧
      ∃ passed, source.toList = passed ++ s.cursor.rest ∧ s.pos = .behind passed) ∧
    ∀ t, tokens[taken log]? = some t → (s.ask .peek).2.waiting = some t ∧
      (s.ask .atEnd).2.waiting = some t ∧ (s.ask .next).2.waiting = none := by
  intro tokens ending log s
  have begins : Stands tokens ending [] (ofString source) := .reading rfl (Nat.zero_le _) rfl
  have stands : Stands tokens ending log s := begins.converse requests
  obtain ⟨located, -, halts⟩ := @located_drain source (.ofString source) rfl (.refl _)
  refine ⟨stands.reply, fun e => stands.failed, fun e he => ?_, fun t ht => ?_, fun hs => ?_,
    fun t => stands.looks⟩
  · rw [he] at stands
    cases halts e he with
    | unknown => exact .inl ⟨_, _, rfl, stands.stays⟩
    | unclosed => exact .inr ⟨_, rfl, stands.ends⟩
  · have next := stands.waiting ht
    exact ⟨next, located t (List.mem_of_getElem? next), by rw [TokenStream.pos, ht]; rfl⟩
  · have here : s.pos = s.cursor.pos := by rw [TokenStream.pos, hs]; rfl
    obtain ⟨passed, hrest, hpos⟩ := reads_converse (ofString source) requests
    exact ⟨here, passed, hrest, here.trans (hpos.trans (Pos.advance_start passed))⟩

open TokenStream in
/-- A quote that is not closed behind a token: the look at it fails, and then the text is at its
end. -/
theorem requests_follow_tokens_unclosed :
    let s := (ofString "a \"b").converse [.peek, .atEnd, .next, .peek]
    failures s.1 = [.malformed .unclosedText ⟨1, 4⟩] ∧
      ∀ r, s.2.ask r = (r.reply (.ok none), s.2) := by
  intro s
  have failed : failures s.1 ≠ [] := List.cons_ne_nil _ _
  have ending : (ofString "a \"b").drain.2 = .failed (.malformed .unclosedText ⟨1, 4⟩) := by cbv
  have law := requests_follow_tokens "a \"b" [.peek, .atEnd, .next, .peek]
  rcases law.2.2.1 _ ending with ⟨ch, pos, other, -⟩ | ⟨pos, -, once⟩
  · cases other
  · exact once failed

end ScopeLang
