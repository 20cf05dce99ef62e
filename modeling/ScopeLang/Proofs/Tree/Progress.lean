import ScopeLang.Proofs.Token.Rounds
import ScopeLang.Proofs.Tree.Correspondence

/-!
# Reading comes to an end

Whatever the text, the next token is found or missed after finitely many rounds past layout, and a
token that is read takes a character. The routines of the phrases are done when they may nest one call more,
and make one round more in each loop, than there are tokens left: expressions, operands and parameters
take a token when they succeed, and so does every round of a loop that goes on. What they read together
is what the reader reads, so that the reader is just as well done. Behind a program nothing is left.

## Main definitions

* `Descent.Proceeds` — a routine that is done within a depth, and takes tokens when it succeeds.

## Main statements

* `Parser.next_of_run` — where a program was read, the stream is at its end.
* `reading_ends` — finding tokens and reading programs come to an end.
-/

namespace ScopeLang

/-- On streams with fewer tokens than the depth the routine is done; when it succeeds it has taken at
least so many. -/
def Descent.Proceeds {α : Type} (depth : Nat) (x : Descent α) (count : α → Nat) : Prop :=
  ∀ s : TokenStream, s.unread < depth → ∃ r s', x s = some (r, s') ∧
    ∀ a, r = .ok a → s'.unread + count a ≤ s.unread

theorem Descent.Takes.proceeds {α : Type} {depth : Nat} {x : Descent α} {count : α → Nat}
    (takes : x.Takes count) (returns : ∀ n < depth, x.Returns n) : x.Proceeds depth count := by
  intro s hs
  obtain ⟨⟨r, s'⟩, h⟩ := returns s.unread hs s (Nat.le_refl _)
  refine ⟨r, s', h, ?_⟩
  rintro a rfl
  exact takes s a s' h

/-- A program ends where the tokens end. -/
theorem Parser.next_of_run {p : Parser} {s s' : TokenStream} {tree : Node}
    (h : p.run s = (.ok tree, s')) : s'.next = (.ok none, s') := by
  fun_induction run p s with
  | case1 p s e rest hnext => cases h
  | case2 p s rest hnext =>
    obtain rfl : rest = s' := congrArg Prod.snd h
    have again := TokenStream.next_next_of_finished (congrArg Prod.fst hnext)
    rwa [hnext] at again
  | case3 p s t rest hnext q hq ih => exact ih h
  | case4 p s t rest hnext fault hfault => cases h

open Descent in
/-- Looking for a token is done in so many rounds as there are characters left, and one, and a token
that is read takes at least one character. A program is read by routines that call each other no
deeper, and make no more rounds in each loop, than there are tokens left, and one. Within such a depth every
routine is done. If it succeeds, an expression, an operand or a parameter takes at least one token; a
round of the program, of a list, of connectives or of calls fails, is the last, or takes at least one.
When a program was read, to read again on the same stream gives the empty program. -/
theorem reading_ends :
    (∀ c : Cursor, (∀ rounds, c.rest.length < rounds → c.scanWithin rounds = some c.scan) ∧
      ∀ t c', TokenStream.read c = (.ok (some t), c') →
        ∃ passed, passed ≠ [] ∧ c.rest = passed ++ c'.rest) ∧
    (∀ (s : TokenStream) (depth : Nat), s.unread < depth → program depth s = some s.parse) ∧
    (∀ depth : Nat, (read depth .expression).Proceeds depth (fun _ => 1) ∧
      (atom depth (read depth)).Proceeds depth (fun _ => 1) ∧
      variableName.Proceeds depth (fun _ => 1) ∧
      (∀ items, (programRound depth items).Proceeds depth goesOn) ∧
      (∀ stop separator items,
        (listRound stop separator (read depth .expression) items).Proceeds depth goesOn) ∧
      (∀ stop separator names,
        (listRound stop separator variableName names).Proceeds depth goesOn) ∧
      (∀ min left, (climbRound depth (read depth) min left).Proceeds depth goesOn) ∧
      ∀ callee, (callRound depth (read depth) callee).Proceeds depth goesOn) ∧
    ∀ (s s' : TokenStream) (tree : Node), s.parse = (.ok tree, s') →
      s'.parse = (.ok (.seq []), s') := by
  refine ⟨fun c => ⟨fun _ => c.scanWithin_eq, fun t c' => TokenStream.read_passes⟩,
    fun s depth => program_eq_parse, fun depth => ?_, fun s s' tree h => ?_⟩
  · have takes := takes_read depth
    have inner {n : Nat} (hn : n < depth) (m : Nat) (hm : m < n) (r : Routine) :
        (read depth r).Returns m := returns_read (hm.trans hn) r
    have expression := takes .expression
    exact ⟨expression.proceeds fun n hn => returns_read hn .expression,
      (takes_atom takes depth).proceeds fun n hn => returns_atom takes (inner hn) hn,
      takes_variableName.proceeds fun n _ => returns_variableName,
      fun items => (takes_programRound depth items).proceeds fun n hn => returns_programRound hn items,
      fun stop separator items => (takes_listRound expression stop separator items).proceeds
        fun n hn => returns_listRound expression (returns_read hn .expression) stop separator items,
      fun stop separator names => (takes_listRound takes_variableName stop separator names).proceeds
        fun n _ => returns_listRound takes_variableName returns_variableName stop separator names,
      fun min left => (takes_climbRound takes depth min left).proceeds fun n hn =>
        returns_climbRound takes (inner hn) hn min left,
      fun callee => (takes_callRound takes depth callee).proceeds fun n hn =>
        returns_callRound takes (inner hn) hn callee⟩
  · exact Parser.run_of_finished (Parser.next_of_run h)

/-- Arguments that break off behind a separator are read to the end of the text and refused there. -/
theorem reading_ends_behind_separator :
    (TokenStream.ofString "f(a, # b\n").unread < 5 ∧
      Descent.program 5 (.ofString "f(a, # b\n") = some (TokenStream.ofString "f(a, # b\n").parse ∧
      parse "f(a, # b\n" = .error (.malformed .unexpectedEnd ⟨2, 0⟩) := by
  have tokens : (TokenStream.ofString "f(a, # b\n").unread = 4 := by cbv
  have few : (TokenStream.ofString "f(a, # b\n").unread < 5 := by omega
  exact ⟨few, reading_ends.2.1 _ _ few, by cbv⟩

end ScopeLang
