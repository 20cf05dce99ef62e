import ScopeLang.Proofs.Eval.Effect
import ScopeLang.Proofs.Scope.Course
import ScopeLang.Session

/-!
# The history of an arena

A client makes an environment and then does with it what it likes: it opens scopes, binds names,
gives scopes back, collects and evaluates, with any handles. The history lists the arenas that this
passes through, also those in the middle of an evaluation. At every moment of it the slots are in
order.

## Main definitions

* `Deed`, `State.perform` — what a client does.
* `State.history` — the arenas that a sequence of deeds passes through.

## Main statements

* `State.isChain_history` — from each moment to the next the arena changes in one of the known ways.
* `State.slots_in_order` — what is always true of the slots and the list of free ones.
-/

namespace ScopeLang

variable {κ ω : Type} {host : Host κ ω} {s : State κ ω}

/-- What a client does with an environment. Nothing is asked of the handles. -/
inductive Deed (κ ω : Type) where
  | extend (parent : ScopeId)
  | define (scope : ScopeId) (name : String) (value : Value κ)
  | set (scope : ScopeId) (name : String) (value : Value κ)
  | capture (scope : ScopeId)
  | release (scope : ScopeId)
  | collect (values : List (Value κ))
  | evaluate (calls : CallDepth) (scope : ScopeId) (n : Node)
  | invoke (calls : CallDepth) (f : Value κ) (args : List (Value κ))
  /-- The host changes its own state. -/
  | host (world : ω)

namespace State

/-- The state after a deed. -/
def perform (host : Host κ ω) (s : State κ ω) : Deed κ ω → State κ ω
  | .extend parent => { s with arena := (s.arena.extend parent).2 }
  | .define scope name v => { s with arena := s.arena.define scope name v }
  | .set scope name v => (Action.assignName scope name v s).2
  | .capture scope => { s with arena := s.arena.capture scope }
  | .release scope => { s with arena := s.arena.release scope }
  | .collect values => (s.collect values).2
  | .evaluate calls scope n => (ScopeLang.evaluate host calls scope n s).2
  | .invoke calls f args => (ScopeLang.invoke host calls f args s).2
  | .host world => { s with world }

/-- The arenas from the beginning of a deed on. An evaluation goes through many. -/
def moments (host : Host κ ω) (s : State κ ω) : Deed κ ω → List (Arena (Value κ))
  | .evaluate calls scope n =>
    ((Machine.idle calls s).visit n scope).arenas host (Machine.stops_visit calls s n scope)
  | .invoke calls f args =>
    s.arena ::
      ((Machine.idle calls s).call host f args).arenas host (Machine.stops_call calls s f args)
  | _ => [s.arena]

/-- The arenas that a sequence of deeds passes through, from the first to the last. -/
def history (host : Host κ ω) : State κ ω → List (Deed κ ω) → List (Arena (Value κ))
  | s, [] => [s.arena]
  | s, d :: ds => s.moments host d ++ history host (s.perform host d) ds

end State

/-! ### Histories are chains of changes -/

namespace State

/-- Moments on the way from one arena to another: they begin at the first, and from the last of them
one more change leads to the other. -/
structure Leads (a b : Arena (Value κ)) (moments : List (Arena (Value κ))) : Prop where
  chain : List.IsChain (Arena.Move Value.scope?) moments
  first : moments.head? = some a
  last : ∃ c, moments.getLast? = some c ∧ Arena.Move Value.scope? c b

variable {a b : Arena (Value κ)}

theorem Leads.of_move (h : Arena.Move Value.scope? a b) : Leads a b [a] where
  chain := List.isChain_singleton a
  first := rfl
  last := ⟨a, rfl, h⟩

theorem Leads.of_run {m : Machine κ ω} (h : Machine.Stops host m) :
    Leads m.state.arena (m.run host h).outcome.2.arena (m.arenas host h) where
  chain := Machine.isChain_arenas h
  first := Machine.head?_arenas h
  last := ⟨_, Machine.getLast?_arenas h, .fill (.refl _)⟩

theorem Leads.cons {c : Arena (Value κ)} {moments : List (Arena (Value κ))}
    (h : Leads b c moments) (hab : Arena.Move Value.scope? a b) : Leads a c (a :: moments) where
  chain := by
    refine List.isChain_cons.2 ⟨fun y hy => ?_, h.chain⟩
    obtain rfl : b = y := by simpa [h.first] using hy
    exact hab
  first := rfl
  last := by
    obtain ⟨d, hd, hmove⟩ := h.last
    exact ⟨d, by simp [List.getLast?_cons, hd], hmove⟩

theorem move_assignName (scope : ScopeId) (name : String) (v : Value κ) (s : State κ ω) :
    Arena.Move Value.scope? s.arena (Action.assignName scope name v s).2.arena := by
  simp only [Action.assignName]
  cases h : s.arena.set scope name v with
  | error e => exact .fill (.refl _)
  | ok a => exact .fill (Arena.sameLayout_set h)

theorem leads_moments (host : Host κ ω) (s : State κ ω) (d : Deed κ ω) :
    Leads s.arena (s.perform host d).arena (s.moments host d) := by
  cases d with
  | extend parent => exact .of_move (.open parent (.refl _))
  | define scope name v => exact .of_move (.fill (s.arena.sameLayout_define scope name v))
  | set scope name v => exact .of_move (s.move_assignName scope name v)
  | capture scope => exact .of_move (.fill (s.arena.sameLayout_capture scope))
  | release scope => exact .of_move (.of_release s.arena scope)
  | collect values => exact .of_move (.sweep values)
  | evaluate calls scope n => exact .of_run (Machine.stops_visit calls s n scope)
  | invoke calls f args =>
    have first : (Machine.idle calls s).Affects ((Machine.idle calls s).call host f args) :=
      Machine.affects_call f args
    exact .cons (.of_run (Machine.stops_call calls s f args)) first.arena.move
  | host world => exact .of_move (.fill (.refl _))

theorem head?_history (host : Host κ ω) (s : State κ ω) (ds : List (Deed κ ω)) :
    (s.history host ds).head? = some s.arena := by
  cases ds with
  | nil => rfl
  | cons d ds =>
    rw [history, List.head?_append, (s.leads_moments host d).first]
    rfl

/-- From each moment to the next, the arena changes in one of the known ways. -/
theorem isChain_history (host : Host κ ω) (s : State κ ω) (ds : List (Deed κ ω)) :
    List.IsChain (Arena.Move Value.scope?) (s.history host ds) := by
  induction ds generalizing s with
  | nil => exact List.isChain_singleton _
  | cons d ds ih =>
    obtain ⟨chain, -, c, hc, hmove⟩ := s.leads_moments host d
    refine chain.append (ih _) fun x hx y hy => ?_
    rw [hc] at hx
    rw [head?_history] at hy
    obtain rfl := Option.some.inj hx
    obtain rfl := Option.some.inj hy
    exact hmove

/-- The history of a client begins with the root scope alone. -/
theorem exists_history_eq (host : Host κ ω) (world : ω) (ds : List (Deed κ ω)) :
    ∃ later, history host { world } ds = .new :: later ∧
      List.IsChain (Arena.Move Value.scope?) (.new :: later) := by
  obtain ⟨later, hl⟩ := List.head?_eq_some_iff.1 (head?_history host { world } ds)
  exact ⟨later, hl, hl ▸ isChain_history host { world } ds⟩

theorem tidy_of_mem_history {world : ω} {ds : List (Deed κ ω)} {a : Arena (Value κ)}
    (h : a ∈ history host { world } ds) : a.Tidy := by
  obtain ⟨later, hl, chain⟩ := exists_history_eq host world ds
  exact Arena.tidy_of_mem chain Arena.tidy_new a (hl ▸ h)

theorem rooted_of_mem_history {world : ω} {ds : List (Deed κ ω)} {a : Arena (Value κ)}
    (h : a ∈ history host { world } ds) : a.Rooted := by
  obtain ⟨later, hl, chain⟩ := exists_history_eq host world ds
  exact Arena.rooted_of_mem chain Arena.tidy_new Arena.rooted_new a (hl ▸ h)

/-- Whatever a client does, the slots and the list of free ones stay in order, also in the middle of
an evaluation. -/
theorem slots_in_order (host : Host κ ω) (world : ω) (ds : List (Deed κ ω))
    (past : List (Arena (Value κ))) (a : Arena (Value κ))
    (h : past ++ [a] <+: history host { world } ds) : a.InOrder past := by
  obtain ⟨later, hl⟩ := h
  have chain := isChain_history host { world } ds
  have first := head?_history host { world } ds
  rw [← hl] at chain first
  rw [List.head?_append_of_ne_nil _ (by simp)] at first
  exact Arena.inOrder_of_isChain chain.left_of_append first

/-- A scope is opened inside one that was closed, and one in which a function was created is not
closed. -/
theorem slots_in_order_after_release :
    let host : Host Empty Unit := fun key _ _ => key.elim
    let ds : List (Deed Empty Unit) := [.extend .root, .extend ⟨1, 0⟩, .capture ⟨2, 0⟩,
      .release ⟨1, 0⟩, .release ⟨2, 0⟩, .extend ⟨1, 0⟩]
    let ms := history host { world := () } ds
    ms.dropLast ++ [ms.getLastD .new] <+: ms ∧ (ms.getLastD .new).InOrder ms.dropLast ∧
      (ms.getLastD .new).slots.size = 3 := by
  intro host ds ms
  have nonempty : ms ≠ [] := List.cons_ne_nil _ _
  have all : ms.dropLast ++ [ms.getLastD .new] = ms := by
    rw [List.getLastD_eq_getLast?, List.getLast?_eq_some_getLast nonempty, Option.getD_some,
      List.dropLast_concat_getLast]
  have whole : ms.dropLast ++ [ms.getLastD .new] <+: ms := ⟨[], by rw [List.append_nil, all]⟩
  exact ⟨whole, slots_in_order host () ds _ _ whole, by decide +kernel⟩

end State

end ScopeLang
