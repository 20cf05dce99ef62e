import Mathlib.Data.Multiset.AddSub
import Mathlib.Data.Prod.Lex
import Mathlib.Logic.Relation
import ScopeLang.Proofs.Scope.Slots
import ScopeLang.Scope.Collect

/-!
# Marking in any order

Marking takes up pending scopes one by one. Here it is a system of turns, in each of which any of the
pending scopes is taken up, so that the order does not matter. Marks are set but never taken back, and
a turn that sets none leaves one scope less pending; so marking ends, on cycles of scopes too. What is
pending or marked stays within reach, and what the start and the marked scopes lead to stays pending
or marked. At the end the marked scopes are therefore the reached ones.

## Main definitions

* `Arena.Reached` — the scopes in use that given handles lead to.
* `Arena.Turn` — taking up one of the pending scopes.

## Main statements

* `Arena.wellFounded_turn` — marking ends, whatever it takes up first.
* `Arena.Underway.of_turn` — what a turn keeps.
* `Arena.mark_eq_true_iff` — the marked slots are those of the reached scopes.
* `Arena.turns_stop_iff` — marking ends with the same marks in any order.
-/

namespace ScopeLang

namespace Arena

variable {ν : Type} {a : Arena ν} {scopeOf : ν → Option ScopeId} {pending start : List ScopeId}
  {marked : Array Bool}

/-! ### What is within reach -/

/-- The scopes in use that the pending handles lead to. -/
inductive Reached (scopeOf : ν → Option ScopeId) (a : Arena ν) (pending : List ScopeId) :
    ScopeId → Prop where
  | start {id : ScopeId} : id ∈ pending → a.Alive id → Reached scopeOf a pending id
  | next {id x : ScopeId} {scope : Scope ν} : Reached scopeOf a pending id →
    a.scope? id = some scope → x ∈ successors scopeOf scope → a.Alive x →
      Reached scopeOf a pending x

theorem Reached.alive {id : ScopeId} (h : Reached scopeOf a pending id) : a.Alive id := by
  cases h <;> assumption

/-- What is reached depends on where each scope leads to, and on nothing else. -/
theorem Reached.congr {b : Arena ν}
    (h : ∀ id, (a.scope? id).map (successors scopeOf) = (b.scope? id).map (successors scopeOf))
    {id : ScopeId} (hid : Reached scopeOf a pending id) : Reached scopeOf b pending id := by
  have scope {x : ScopeId} {s : Scope ν} (hs : a.scope? x = some s) :
      ∃ t, b.scope? x = some t ∧ successors scopeOf t = successors scopeOf s := by
    have same := h x
    rw [hs, Option.map_some] at same
    exact Option.map_eq_some_iff.1 same.symm
  have alive {x : ScopeId} (hx : a.Alive x) : b.Alive x := by
    obtain ⟨s, hs⟩ := hx
    obtain ⟨t, ht, -⟩ := scope hs
    exact ⟨t, ht⟩
  induction hid with
  | start hmem hid => exact .start hmem (alive hid)
  | next _ hs hx halive ih =>
    obtain ⟨t, ht, hsame⟩ := scope hs
    exact ih.next ht (hsame ▸ hx) (alive halive)

/-! ### Marks -/

theorem marked_set_iff {i j : Nat} : (marked.setIfInBounds i true)[j]? = some true ↔
    marked[j]? = some true ∨ i = j ∧ j < marked.size := by
  rw [Array.getElem?_setIfInBounds]
  by_cases hij : i = j <;> by_cases hj : j < marked.size <;> simp [hij, hj]

theorem Alive.marked? {x : ScopeId} (hx : a.Alive x) (hsize : marked.size = a.slots.size) :
    marked[x.index]? = some true ∨ marked[x.index]? = some false := by
  have hi : x.index < marked.size := hsize ▸ hx.index_lt
  rw [Array.getElem?_eq_getElem hi]
  cases marked[x.index] <;> simp

theorem eq_of_marked {m n : Array Bool} (hsize : m.size = n.size)
    (h : ∀ i : Nat, m[i]? = some true ↔ n[i]? = some true) : m = n := by
  refine Array.ext hsize fun i hm hn => ?_
  have same := h i
  simp only [Array.getElem?_eq_getElem hm, Array.getElem?_eq_getElem hn, Option.some.injEq] at same
  exact Bool.eq_iff_iff.2 same

/-! ### Taking up pending scopes -/

/-- A state of marking: the scopes still to be taken up, in no order, and the marks set so far. -/
structure Marking where
  pending : Multiset ScopeId
  marked : Array Bool

/-- One of the pending scopes is taken up. Nothing comes of it if it was freed or is marked; else it
is marked, and the scopes that it leads to are pending. -/
inductive Turn (scopeOf : ν → Option ScopeId) (a : Arena ν) : Marking → Marking → Prop where
  | skip {id : ScopeId} {rest : Multiset ScopeId} {marked : Array Bool} :
    (a.Alive id → marked[id.index]? = some true) → Turn scopeOf a ⟨id ::ₘ rest, marked⟩ ⟨rest, marked⟩
  | visit {id : ScopeId} {rest : Multiset ScopeId} {marked : Array Bool} {scope : Scope ν} :
    a.scope? id = some scope → marked[id.index]? = some false →
      Turn scopeOf a ⟨id ::ₘ rest, marked⟩
        ⟨successors scopeOf scope + rest, marked.setIfInBounds id.index true⟩

theorem Turn.pending_ne_zero {s t : Marking} (h : Turn scopeOf a s t) : s.pending ≠ 0 := by
  cases h <;> exact Multiset.cons_ne_zero

/-! ### Every order comes to an end -/

/-- The marks not set yet, then the pending scopes. -/
def Marking.left (s : Marking) : Nat ×ₗ Nat := toLex (s.marked.count false, s.pending.card)

theorem Turn.left_lt {s t : Marking} (h : Turn scopeOf a s t) : t.left < s.left := by
  rw [Marking.left, Marking.left, Prod.Lex.toLex_lt_toLex]
  cases h with
  | skip => exact .inr ⟨rfl, by simp⟩
  | visit _ hm => exact .inl (count_false_set_lt hm)

theorem wellFounded_turn (scopeOf : ν → Option ScopeId) (a : Arena ν) :
    WellFounded fun t s => Turn scopeOf a s t :=
  Subrelation.wf Turn.left_lt (InvImage.wf Marking.left wellFounded_lt)

/-! ### What marking keeps -/

/-- What is known while scopes are marked that are reached from `start`. -/
structure Underway (scopeOf : ν → Option ScopeId) (a : Arena ν) (start : List ScopeId)
    (s : Marking) : Prop where
  size : s.marked.size = a.slots.size
  within : ∀ x ∈ s.pending, a.Alive x → Reached scopeOf a start x
  reached : ∀ i : Nat, s.marked[i]? = some true →
    ∃ id : ScopeId, id.index = i ∧ Reached scopeOf a start id
  begun : ∀ x ∈ start, a.Alive x → s.marked[x.index]? = some true ∨ x ∈ s.pending
  covered : ∀ {id scope}, a.scope? id = some scope → s.marked[id.index]? = some true →
    ∀ x ∈ successors scopeOf scope, a.Alive x → s.marked[x.index]? = some true ∨ x ∈ s.pending

theorem underway_start (scopeOf : ν → Option ScopeId) (a : Arena ν) (start : List ScopeId) :
    Underway scopeOf a start ⟨start, .replicate a.slots.size false⟩ where
  size := Array.size_replicate
  within x hx := .start hx
  reached i hi := by simp [Array.getElem?_replicate] at hi
  begun x hx _ := .inr hx
  covered _ hm := by simp [Array.getElem?_replicate] at hm

/-- A turn loses nothing that has to be marked. -/
theorem Turn.covers {s t : Marking} (h : Turn scopeOf a s t) (hsize : s.marked.size = a.slots.size)
    {x : ScopeId} (hx : a.Alive x) (hs : s.marked[x.index]? = some true ∨ x ∈ s.pending) :
    t.marked[x.index]? = some true ∨ x ∈ t.pending := by
  cases h with
  | skip hskip =>
    rcases hs with hm | hx'
    · exact .inl hm
    · rcases Multiset.mem_cons.1 hx' with rfl | hx'
      · exact .inl (hskip hx)
      · exact .inr hx'
  | visit _ _ =>
    rcases hs with hm | hx'
    · exact .inl (marked_set_iff.2 (.inl hm))
    · rcases Multiset.mem_cons.1 hx' with rfl | hx'
      · exact .inl (marked_set_iff.2 (.inr ⟨rfl, hsize ▸ hx.index_lt⟩))
      · exact .inr (Multiset.mem_add.2 (.inr hx'))

namespace Underway

theorem of_turn {s t : Marking} (h : Underway scopeOf a start s) (turn : Turn scopeOf a s t) :
    Underway scopeOf a start t := by
  have covers {x} := turn.covers h.size (x := x)
  cases turn with
  | skip hskip =>
    exact { size := h.size
            within := fun x hx => h.within x (Multiset.mem_cons_of_mem hx)
            reached := h.reached
            begun := fun x hx halive => covers halive (h.begun x hx halive)
            covered := fun hs hm x hx halive => covers halive (h.covered hs hm x hx halive) }
  | @visit id rest marked scope hs hm =>
    have here : Reached scopeOf a start id := h.within id (Multiset.mem_cons_self ..) ⟨scope, hs⟩
    refine { size := by simpa using h.size, within := ?within, reached := ?reached,
             begun := fun x hx halive => covers halive (h.begun x hx halive), covered := ?covered }
    case within =>
      intro x hx halive
      rcases Multiset.mem_add.1 hx with hx | hx
      · exact here.next hs hx halive
      · exact h.within x (Multiset.mem_cons_of_mem hx) halive
    case reached =>
      intro i hi
      rcases marked_set_iff.1 hi with hi | ⟨hi, -⟩
      · exact h.reached i hi
      · exact ⟨id, hi, here⟩
    case covered =>
      intro y scope' hs' hy x hx halive
      rcases marked_set_iff.1 hy with hy | ⟨hy, -⟩
      · exact covers halive (h.covered hs' hy x hx halive)
      · -- the scope is the one just taken up, and what it leads to is pending
        obtain rfl : id = y := Alive.eq_of_index_eq ⟨scope, hs⟩ ⟨scope', hs'⟩ hy
        obtain rfl := Option.some.inj (hs.symm.trans hs')
        exact .inr (Multiset.mem_add.2 (.inl hx))

theorem of_turns {s t : Marking} (h : Underway scopeOf a start s)
    (turns : Relation.ReflTransGen (Turn scopeOf a) s t) : Underway scopeOf a start t := by
  induction turns with
  | refl => exact h
  | tail _ turn ih => exact ih.of_turn turn

/-- Marking goes on as long as a scope is pending. -/
theorem exists_turn {s : Marking} (h : Underway scopeOf a start s) (hs : s.pending ≠ 0) :
    ∃ t, Turn scopeOf a s t := by
  obtain ⟨pending, marked⟩ := s
  obtain ⟨id, hid⟩ := Multiset.exists_mem_of_ne_zero hs
  obtain ⟨rest, rfl⟩ := Multiset.exists_cons_of_mem hid
  by_cases halive : a.Alive id
  · rcases halive.marked? h.size with hm | hm
    · exact ⟨_, .skip fun _ => hm⟩
    · obtain ⟨scope, hscope⟩ := halive
      exact ⟨_, .visit hscope hm⟩
  · exact ⟨_, .skip fun h => absurd h halive⟩

/-- When nothing is pending, exactly the reached scopes are marked. -/
theorem marked_iff {s : Marking} (h : Underway scopeOf a start s) (hs : s.pending = 0) {i : Nat} :
    s.marked[i]? = some true ↔ ∃ id : ScopeId, id.index = i ∧ Reached scopeOf a start id := by
  refine ⟨h.reached i, ?_⟩
  rintro ⟨id, rfl, hreach⟩
  have done {x : ScopeId} (hx : s.marked[x.index]? = some true ∨ x ∈ s.pending) :
      s.marked[x.index]? = some true := by simpa [hs] using hx
  induction hreach with
  | start hmem halive => exact done (h.begun _ hmem halive)
  | next _ hscope hx halive ih => exact done (h.covered hscope ih _ hx halive)

end Underway

/-! ### Marking in order -/

/-- What marking does not stop at is skipped. -/
theorem Turn.pass {id : ScopeId} {rest : Multiset ScopeId} (hsize : marked.size = a.slots.size)
    (hno : ∀ scope, a.scope? id = some scope → marked[id.index]? = some false → False) :
    Turn scopeOf a ⟨id ::ₘ rest, marked⟩ ⟨rest, marked⟩ :=
  .skip fun hid => (hid.marked? hsize).resolve_right (hid.elim hno)

theorem turns_of_nextUnmarked_eq_none (hsize : marked.size = a.slots.size)
    (h : a.nextUnmarked marked pending = none) :
    Relation.ReflTransGen (Turn scopeOf a) ⟨pending, marked⟩ ⟨0, marked⟩ := by
  induction pending with
  | nil => exact .refl
  | cons first rest ih =>
    unfold nextUnmarked at h
    split at h
    · cases h
    · rename_i hno
      rw [← Multiset.cons_coe]
      exact (ih h).head (.pass hsize hno)

theorem turns_of_nextUnmarked_eq_some {id : ScopeId} {scope : Scope ν} {rest : List ScopeId}
    (hsize : marked.size = a.slots.size)
    (h : a.nextUnmarked marked pending = some (id, scope, rest)) :
    Relation.ReflTransGen (Turn scopeOf a) ⟨pending, marked⟩
      ⟨(successors scopeOf scope ++ rest : List ScopeId), marked.setIfInBounds id.index true⟩ := by
  induction pending with
  | nil => simp [nextUnmarked] at h
  | cons first others ih =>
    unfold nextUnmarked at h
    split at h
    · rename_i hs hm
      simp only [Option.some.injEq, Prod.mk.injEq] at h
      obtain ⟨rfl, rfl, rfl⟩ := h
      rw [← Multiset.cons_coe, ← Multiset.coe_add]
      exact .single (.visit hs hm)
    · rename_i hno
      rw [← Multiset.cons_coe]
      exact (ih h).head (.pass hsize hno)

theorem turns_mark (hsize : marked.size = a.slots.size) :
    Relation.ReflTransGen (Turn scopeOf a) ⟨pending, marked⟩ ⟨0, a.mark scopeOf pending marked⟩ := by
  fun_induction mark scopeOf a pending marked with
  | case1 pending marked hn => exact turns_of_nextUnmarked_eq_none hsize hn
  | case2 pending marked id scope rest hn ih =>
    exact (turns_of_nextUnmarked_eq_some hsize hn).trans (ih (by simpa using hsize))

theorem underway_mark (scopeOf : ν → Option ScopeId) (a : Arena ν) (start : List ScopeId) :
    Underway scopeOf a start ⟨0, a.mark scopeOf start (.replicate a.slots.size false)⟩ :=
  (underway_start scopeOf a start).of_turns (turns_mark Array.size_replicate)

/-- Exactly the slots of the reached scopes are marked. -/
theorem mark_eq_true_iff {id : ScopeId} (hid : a.Alive id) :
    (a.mark scopeOf start (.replicate a.slots.size false))[id.index]? = some true ↔
      Reached scopeOf a start id := by
  rw [(underway_mark scopeOf a start).marked_iff rfl]
  constructor
  · rintro ⟨x, hx, hreach⟩
    exact hreach.alive.eq_of_index_eq hid hx ▸ hreach
  · intro hreach
    exact ⟨id, rfl, hreach⟩

/-! ### Every order sets the same marks -/

/-- Whatever is taken up first, marking stops when nothing is pending, with the same marks. -/
theorem turns_stop_iff {s : Marking} :
    (Relation.ReflTransGen (Turn scopeOf a) ⟨start, .replicate a.slots.size false⟩ s ∧
        ∀ t, ¬ Turn scopeOf a s t) ↔
      s = ⟨0, a.mark scopeOf start (.replicate a.slots.size false)⟩ := by
  constructor
  · rintro ⟨turns, stuck⟩
    have ends := (underway_start scopeOf a start).of_turns turns
    have mark := underway_mark scopeOf a start
    have nothing : s.pending = 0 := by
      by_contra hs
      obtain ⟨t, turn⟩ := ends.exists_turn hs
      exact stuck t turn
    have same : s.marked = a.mark scopeOf start (.replicate a.slots.size false) :=
      eq_of_marked (ends.size.trans mark.size.symm) fun _ =>
        (ends.marked_iff nothing).trans (mark.marked_iff rfl).symm
    rw [← nothing, ← same]
  · rintro rfl
    exact ⟨turns_mark Array.size_replicate, fun _ turn => turn.pending_ne_zero rfl⟩

end Arena

end ScopeLang
