import ScopeLang.Proofs.Eval.History
import ScopeLang.Proofs.Eval.Lookup
import ScopeLang.Proofs.Scope.Outward

/-!
# Every scope has an outermost one

A client may use handles for as long as it likes, whether their scopes are still in use or not. When
all handles with which scopes are opened were given out by this very environment, then the way outward
from every handle ends at every moment, also in the middle of an evaluation, unless a slot was emptied
2³² times. An evaluation opens scopes inside those of the functions that it calls, so before one begins
the handles in all values that were handed over must have been given out, too.

## Main definitions

* `Deed.Opens`, `Deed.Hands` — the handles that a deed may open scopes with, and those that it hands
  over in values.
* `State.Proper` — scopes are opened with handles that were given out before.
* `State.Loose` — the state is regular but for handles that were handed over.

## Main statements

* `Machine.Regular.trail` — the machine stays regular in the course of a run.
* `State.Loose.deed`, `State.Loose.history` — and the arena in the course of what a client does.
* `State.regular_of_mem_history` — the arena at every moment of a history.
* `State.chains_end` — the way outward at every moment of a history.
-/

namespace ScopeLang

variable {κ ω : Type} {host : Host κ ω} {kept : ω → ScopeId → Prop} {s : State κ ω}

/-- The handles that a deed may open scopes with, when these were handed over in values before: that
of the scope around, or in an evaluation also those of functions. -/
def Deed.Opens (handed : ScopeId → Prop) : Deed κ ω → ScopeId → Prop
  | .extend parent, x => x = parent
  | .evaluate _ scope _, x => x = scope ∨ handed x
  | .invoke _ f args, x => (∃ v ∈ f :: args, v.scope? = some x) ∨ handed x
  | _, _ => False

/-- The handles that a deed hands over in values. -/
def Deed.Hands (kept : ω → ScopeId → Prop) : Deed κ ω → ScopeId → Prop
  | .define _ _ v, x | .set _ _ v, x => v.scope? = some x
  | .host world, x => kept world x
  | _, _ => False

/-- Every handle that a scope may be opened with led to a scope at an earlier moment, or does so now.
The arenas `past` are those before this state, and the handles `handed` were handed over in values. -/
def State.Proper (host : Host κ ω) (kept : ω → ScopeId → Prop) : (past : List (Arena (Value κ))) →
    (handed : ScopeId → Prop) → State κ ω → List (Deed κ ω) → Prop
  | _, _, _, [] => True
  | past, handed, s, d :: ds =>
    (∀ x, d.Opens handed x → ∃ a ∈ past ++ [s.arena], a.Alive x) ∧
      State.Proper host kept (past ++ s.moments host d) (fun x => handed x ∨ d.Hands kept x)
        (s.perform host d) ds

/-! ### Runs -/

namespace Machine

variable {m : Machine κ ω}

/-- All machines of a run are regular when no generation starts over. -/
theorem Regular.trail (h : m.Regular kept) (honest : ∀ key, HostCall.Honest kept (host key))
    (stops : Stops host m) (rises : List.IsChain Arena.GenLe (m.arenas host stops)) :
    ∀ m' ∈ m.trail host stops, m'.Regular kept := by
  rw [arenas] at rises
  fun_induction Machine.trail host m stops with
  | case1 m stops hd => simpa using h
  | case2 m stops hd ih =>
    obtain ⟨first, rest⟩ := List.isChain_cons.1 rises
    have hle : m.state.arena.GenLe (m.step host).state.arena :=
      first _ (by rw [List.head?_map, head?_trail]; rfl)
    exact List.forall_mem_cons.2 ⟨h, ih (h.step honest hle) rest⟩

/-- What a run keeps and what it comes to. -/
theorem Regular.run (h : m.Regular kept) (honest : ∀ key, HostCall.Honest kept (host key))
    (stops : Stops host m) (rises : List.IsChain Arena.GenLe (m.arenas host stops)) :
    (∀ a ∈ m.arenas host stops, a.Regular Value.scope?) ∧
      (m.run host stops).outcome.2.Regular kept := by
  have all := h.trail honest stops rises
  constructor
  · intro a ha
    obtain ⟨m', hm', rfl⟩ := List.mem_map.1 ha
    exact (all m' hm').state.arena
  · rw [outcome_snd]
    exact (all _ (List.mem_of_getLast? (getLast?_trail stops))).state

end Machine

/-! ### Handles that were handed over -/

open scoped Classical in
/-- The handle of a value, unless it is one that was handed over. -/
noncomputable def Value.ownScope? (handed : ScopeId → Prop) (v : Value κ) : Option ScopeId :=
  v.scope?.filter fun x => ¬ handed x

theorem Value.ownScope?_eq_some {handed : ScopeId → Prop} {v : Value κ} {x : ScopeId} :
    v.ownScope? handed = some x ↔ v.scope? = some x ∧ ¬ handed x := by
  simp [ownScope?, Option.filter_eq_some_iff]

/-- It is enough to know of the handles in values that those not known of were given out. -/
theorem Arena.Regular.of_scopeOf {ν : Type} {a : Arena ν} {scopeOf scopeOf' : ν → Option ScopeId}
    (h : a.Regular scopeOf)
    (known : ∀ v x, scopeOf' v = some x → scopeOf v = some x ∨ a.Issued x) : a.Regular scopeOf' where
  tidy := h.tidy
  grounded := h.grounded
  issued hs hx := by
    rcases List.mem_append.1 hx with hx | hx
    · exact h.issued hs (List.mem_append_left _ hx)
    · obtain ⟨⟨name, v⟩, hb, hv⟩ := List.mem_filterMap.1 hx
      rcases known v _ hv with hv | issued
      · exact h.issued hs (mem_successors_of_bound hb hv)
      · exact issued

namespace State

variable {past : List (Arena (Value κ))} {handed : ScopeId → Prop} {ds : List (Deed κ ω)}

/-- The state is regular, but the handles that were handed over need not have been given out. -/
structure Loose (kept : ω → ScopeId → Prop) (handed : ScopeId → Prop) (s : State κ ω) : Prop where
  arena : s.arena.Regular (Value.ownScope? handed)
  kept : ∀ x, kept s.world x → s.arena.Issued x ∨ handed x

theorem Regular.loose (h : s.Regular kept) (handed : ScopeId → Prop) : s.Loose kept handed :=
  ⟨h.arena.of_scopeOf fun _ _ hv => .inl (Value.ownScope?_eq_some.1 hv).1, fun x hx =>
    .inl (h.kept x hx)⟩

namespace Loose

/-- When the handles that were handed over were given out, nothing is loose. -/
theorem regular (h : s.Loose kept handed) (issued : ∀ x, handed x → s.arena.Issued x) :
    s.Regular kept := by
  refine ⟨h.arena.of_scopeOf fun v x hv => ?_, fun x hx => (h.kept x hx).elim id (issued x)⟩
  by_cases hx : handed x
  · exact .inr (issued x hx)
  · exact .inl (Value.ownScope?_eq_some.2 ⟨hv, hx⟩)

theorem mono (h : s.Loose kept handed) {handed' : ScopeId → Prop}
    (more : ∀ x, handed x → handed' x) : s.Loose kept handed' := by
  refine ⟨h.arena.of_scopeOf fun v x hv => .inl ?_, fun x hx => (h.kept x hx).imp_right (more x)⟩
  obtain ⟨hv, hx⟩ := Value.ownScope?_eq_some.1 hv
  exact Value.ownScope?_eq_some.2 ⟨hv, fun hx' => hx (more x hx')⟩

/-- A value may be bound when its handle was handed over. -/
theorem define (h : s.Loose kept handed) (scope : ScopeId) (name : String) {v : Value κ}
    (hv : ∀ x, v.scope? = some x → handed x) :
    Loose kept handed { s with arena := s.arena.define scope name v } := by
  refine ⟨h.arena.define scope name fun x hx => ?_, fun x hx => (h.kept x hx).imp_left .update⟩
  obtain ⟨hx, new⟩ := Value.ownScope?_eq_some.1 hx
  exact absurd (hv x hx) new

theorem assignName (h : s.Loose kept handed) (scope : ScopeId) (name : String) {v : Value κ}
    (hv : ∀ x, v.scope? = some x → handed x) :
    (Action.assignName scope name v s).2.Loose kept handed := by
  simp only [Action.assignName]
  cases hset : s.arena.set scope name v with
  | error e => exact h
  | ok a =>
    obtain ⟨target, rfl⟩ := Arena.define_of_set hset
    exact h.define target name hv

/-- A deed that opens scopes with handles that were given out keeps the arena regular throughout, but
for the handles that are handed over. -/
theorem deed (h : s.Loose kept handed) (honest : ∀ key, HostCall.Honest kept (host key))
    (d : Deed κ ω) (issued : ∀ x, d.Opens handed x → s.arena.Issued x)
    (rises : List.IsChain Arena.GenLe (s.moments host d ++ [(s.perform host d).arena])) :
    (∀ a ∈ s.moments host d, a.Regular (Value.ownScope? handed)) ∧
      (s.perform host d).Loose kept fun x => handed x ∨ d.Hands kept x := by
  have now : ∀ a ∈ [s.arena], a.Regular (Value.ownScope? handed) := by simpa using h.arena
  have more : s.Loose kept fun x => handed x ∨ d.Hands kept x := h.mono fun _ => .inl
  have run {m : Machine κ ω} (start : m.Regular kept) (stops : Machine.Stops host m)
      (rises : List.IsChain Arena.GenLe (m.arenas host stops)) :
      (∀ a ∈ m.arenas host stops, a.Regular (Value.ownScope? handed)) ∧
        (m.run host stops).outcome.2.Loose kept fun x => handed x ∨ d.Hands kept x := by
    obtain ⟨regular, next⟩ := start.run honest stops rises
    refine ⟨fun a ha => (regular a ha).of_scopeOf fun v x hv => .inl ?_, next.loose _⟩
    exact (Value.ownScope?_eq_some.1 hv).1
  cases d with
  | extend parent =>
    refine ⟨now, more.arena.extend (issued parent rfl), fun x hx => (more.kept x hx).imp_left ?_⟩
    exact h.arena.tidy.issued_extend parent
  | define scope name v => exact ⟨now, more.define scope name fun _ => .inr⟩
  | set scope name v => exact ⟨now, more.assignName scope name fun _ => .inr⟩
  | capture scope =>
    exact ⟨now, more.arena.capture scope, fun x hx => (more.kept x hx).imp_left .update⟩
  | release scope =>
    have hle := (List.isChain_cons_cons.1 rises).1
    exact ⟨now, more.arena.release hle, fun x hx => (more.kept x hx).imp_left (.release hle)⟩
  | collect values =>
    have hle : s.arena.GenLe (s.collect values).2.arena := (List.isChain_cons_cons.1 rises).1
    refine ⟨now, more.arena.shrink (h.arena.tidy.collect values) (fun _ => .collect hle) ?_,
      fun x hx => (more.kept x hx).imp_left (.collect hle)⟩
    exact fun _ _ hx => (Arena.scope?_collect.1 hx).1
  | evaluate calls scope n =>
    have start := Machine.waiting_idle (h.regular fun x hx => issued x (.inr hx)) calls
    exact run (start.visit n (issued scope (.inl rfl))) _ rises.left_of_append
  | invoke calls f args =>
    have start := Machine.waiting_idle (h.regular fun x hx => issued x (.inr hx)) calls
    have values : ∀ v ∈ f :: args, v.IssuedIn s.arena := fun v hv x hx =>
      issued x (.inl ⟨v, hv, hx⟩)
    obtain ⟨hf, hargs⟩ := List.forall_mem_cons.1 values
    obtain ⟨regular, next⟩ :=
      run (start.call honest hf hargs) _ (List.isChain_cons.1 rises.left_of_append).2
    exact ⟨List.forall_mem_cons.2 ⟨h.arena, regular⟩, next⟩
  | host world => exact ⟨now, more.arena, fun x hx => .inr (.inr hx)⟩

/-- So does everything that a client does in this way. -/
theorem history (h : s.Loose kept handed) (honest : ∀ key, HostCall.Honest kept (host key))
    (given : ∀ a ∈ past, ∀ x, a.Alive x → s.arena.Issued x)
    (proper : Proper host kept past handed s ds)
    (rises : List.IsChain Arena.GenLe (s.history host ds)) :
    ∀ a ∈ s.history host ds, ∃ scopeOf, a.Regular scopeOf := by
  induction ds generalizing s past handed with
  | nil => exact fun a ha => ⟨_, List.mem_singleton.1 ha ▸ h.arena⟩
  | cons d ds ih =>
    obtain ⟨opens, proper⟩ := proper
    have issued : ∀ x, d.Opens handed x → s.arena.Issued x := by
      intro x hx
      obtain ⟨a, ha, alive⟩ := opens x hx
      rcases List.mem_append.1 ha with ha | ha
      · exact given a ha x alive
      · exact .inl (List.mem_singleton.1 ha ▸ alive)
    obtain ⟨rest, hrest⟩ := List.head?_eq_some_iff.1 (head?_history host (s.perform host d) ds)
    have split : s.moments host d ++ (s.perform host d).history host ds =
        s.moments host d ++ [(s.perform host d).arena] ++ rest := by simp [hrest]
    have moves := isChain_history host s (d :: ds)
    rw [State.history] at rises moves ⊢
    have later := rises.right_of_append
    rw [split] at rises moves
    obtain ⟨regular, next⟩ := h.deed honest d issued rises.left_of_append
    have still (x) : ∀ a ∈ s.moments host d, a.Issued x → (s.perform host d).arena.Issued x :=
      Arena.issued_of_mem moves.left_of_append rises.left_of_append fun a ha => (regular a ha).tidy
    have first : s.arena ∈ s.moments host d := List.mem_of_head? (s.leads_moments host d).first
    refine List.forall_mem_append.2 ⟨fun a ha => ⟨_, regular a ha⟩,
      ih next (fun a ha x alive => ?_) proper later⟩
    rcases List.mem_append.1 ha with ha | ha
    · exact still x _ first (given a ha x alive)
    · exact still x a ha (.inl alive)

end Loose

/-- No generation starts over when no slot is emptied 2³² times. -/
theorem isChain_genLe_history {world : ω} {ds : List (Deed κ ω)}
    (few : ∀ i, Arena.frees i (history host { world } ds) < 2 ^ 32) :
    List.IsChain Arena.GenLe (history host { world } ds) := by
  obtain ⟨later, hl, moves⟩ := exists_history_eq host world ds
  rw [hl] at few ⊢
  exact Arena.isChain_genLe moves Arena.tidy_new fun i => by simpa using few i

theorem regular_of_mem_history (honest : ∀ key, HostCall.Honest kept (host key)) {world : ω}
    {ds : List (Deed κ ω)} (proper : Proper host kept [] (kept world) { world } ds)
    (few : ∀ i, Arena.frees i (history host { world } ds) < 2 ^ 32) {a : Arena (Value κ)}
    (h : a ∈ history host { world } ds) : ∃ scopeOf, a.Regular scopeOf := by
  have start : ({ world } : State κ ω).Loose kept (kept world) := ⟨.new, fun _ => .inr⟩
  exact start.history honest (by simp) proper (isChain_genLe_history few) a h

/-- Take a client who opens scopes only with handles that were given out, whether their scopes are in
use or not, and a host that makes up no handles. As long as no slot is emptied 2³² times, the way
outward from any handle ends at every moment, and so does every look-up. -/
theorem chains_end (honest : ∀ key, HostCall.Honest kept (host key)) (world : ω)
    (ds : List (Deed κ ω)) (proper : Proper host kept [] (kept world) { world } ds)
    (few : ∀ i, Arena.frees i (history host { world } ds) < 2 ^ 32)
    (past : List (Arena (Value κ))) (a : Arena (Value κ))
    (h : past ++ [a] <+: history host { world } ds) (id : ScopeId) : a.EndsOutward past id := by
  have mem : a ∈ history host { world } ds := h.subset (by simp)
  obtain ⟨scopeOf, regular⟩ := regular_of_mem_history honest proper few mem
  refine regular.endsOutward (rooted_of_mem_history mem) (fun x hx => ?_) id
  have moves := isChain_history host { world } ds
  have first := head?_history host { world } ds
  obtain ⟨rest, hrest⟩ := h
  rw [← hrest] at moves first
  rw [List.head?_append_of_ne_nil _ (by simp)] at first
  exact Arena.exists_alive_of_issued moves.left_of_append first hx

/-- The slot of a scope that was given back is used again by a scope further inside. -/
theorem chains_end_in_reused_slot :
    let host : Host Empty Unit := fun key _ _ => key.elim
    let kept : Unit → ScopeId → Prop := fun _ _ => False
    let ds : List (Deed Empty Unit) :=
      [.extend .root, .extend ⟨1, 0⟩, .release ⟨1, 0⟩, .extend ⟨2, 0⟩]
    let ms := history host { world := () } ds
    let a := ms.getLastD .new
    (∀ key, HostCall.Honest kept (host key)) ∧
      Proper host kept [] (kept ()) { world := () } ds ∧
        (∀ i, Arena.frees i ms < 2 ^ 32) ∧ ms.dropLast ++ [a] <+: ms ∧
          a.Outward ⟨1, 1⟩ [⟨1, 1⟩, ⟨2, 0⟩, ⟨1, 0⟩] ∧ a.EndsOutward ms.dropLast ⟨1, 1⟩ := by
  intro host kept ds ms a
  have honest : ∀ key, HostCall.Honest kept (host key) := fun key => key.elim
  have proper : Proper host kept [] (kept ()) { world := () } ds := by
    refine ⟨?_, ?_, fun _ => False.elim, ?_, trivial⟩ <;> rintro x rfl <;>
      exact ⟨_, List.mem_concat_self, _, rfl⟩
  have few : ∀ i, Arena.frees i ms < 2 ^ 32 := fun i =>
    (Arena.frees_le_length i ms).trans_lt (by decide)
  have whole : ms.dropLast ++ [a] <+: ms := ⟨[], rfl⟩
  have outward : a.Outward ⟨1, 1⟩ [⟨1, 1⟩, ⟨2, 0⟩, ⟨1, 0⟩] := ⟨rfl, by simp; decide, by simp; decide⟩
  exact ⟨honest, proper, few, whole, outward,
    chains_end honest () ds proper few _ a whole ⟨1, 1⟩⟩

end State

end ScopeLang
