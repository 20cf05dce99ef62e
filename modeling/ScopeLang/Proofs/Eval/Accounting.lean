import ScopeLang.Proofs.Eval.History
import ScopeLang.Proofs.Eval.Limit

/-!
# Evaluation accounts for its scopes and calls

Throughout an evaluation, the scopes that were in use before stay so, and every other scope in use is
captured or belongs to a call under way. The depth that is counted is that of the calls under way on
top of the depth before. Each step keeps this account, whether the evaluation goes well or fails, so at
the end, when no call is under way, all that is left are captured scopes, and the depth is as before.

## Main definitions

* `Arena.Accounted` — the account of the scopes.
* `Machine.Accounts` — the account of the scopes and of the calls of a machine.

## Main statements

* `Arena.Effect.accounted`, `CallDepth.Effect.counted` — each step keeps the account.
* `evaluation_accounted` — for whole evaluations.
-/

namespace ScopeLang

variable {κ ω : Type} {host : Host κ ω} {s : State κ ω}

/-! ### The scopes -/

namespace Arena

variable {ν : Type} {a b c : Arena ν} {calls outer : List ScopeId} {x : ScopeId}

/-- What has become of the arena `a` when so many calls are under way: its scopes are in use, those of
the calls are new and inside other ones, and all other new ones are captured. -/
structure Accounted (a : Arena ν) (calls : List ScopeId) (b : Arena ν) : Prop where
  grows : a.Grows b
  distinct : calls.Nodup
  opened : ∀ x ∈ calls, ¬ a.Alive x ∧ ∃ scope, b.scope? x = some scope ∧ scope.parent ≠ none
  rest : ∀ x scope, b.scope? x = some scope → ¬ a.Alive x → scope.captured = true ∨ x ∈ calls

/-- A scope that stays in use when it is closed is captured, or inside no other. -/
theorem captured_of_release {scope : Scope ν} (h : (a.release x).scope? x = some scope) :
    scope.captured = true ∨ scope.parent = none := by
  have hs := scope?_of_release h
  by_cases stays : (scope.captured || scope.parent.isNone) = true
  · simpa using stays
  · simp only [release, hs, if_neg stays, scope?_vacate, if_true, reduceCtorEq] at h

namespace Accounted

theorem refl (a : Arena ν) : Accounted a [] a where
  grows := .refl a
  distinct := List.nodup_nil
  opened := nofun
  rest _ scope hs hx := absurd ⟨scope, hs⟩ hx

/-- A change that opens and closes no scope. -/
theorem fill (h : Accounted a calls b) (hbc : b.Grows c) (back : ∀ x, c.Alive x → b.Alive x) :
    Accounted a calls c where
  grows := h.grows.trans hbc
  distinct := h.distinct
  opened x hx := by
    obtain ⟨hnew, scope, hs, hp⟩ := h.opened x hx
    obtain ⟨scope', hs', hp', -⟩ := hbc x scope hs
    exact ⟨hnew, scope', hs', hp' ▸ hp⟩
  rest x scope' hs' hnew := by
    obtain ⟨scope, hs⟩ := back x ⟨scope', hs'⟩
    obtain ⟨_, hs'', -, hc⟩ := hbc x scope hs
    obtain rfl := Option.some.inj (hs'.symm.trans hs'')
    exact (h.rest x scope hs hnew).imp_left hc

/-- A call opens its scope. -/
theorem enter (h : Accounted a calls b) (tidy : b.Tidy) (parent : ScopeId) :
    Accounted a ((b.extend parent).1 :: calls) (b.extend parent).2 := by
  have grows := tidy.grows_extend parent
  have unused : ¬ b.Alive (b.extend parent).1 :=
    scope?_eq_none_iff.1 (tidy.scope?_extend_self parent)
  refine { grows := h.grows.trans grows, distinct := ?distinct, opened := ?opened, rest := ?rest }
  case distinct =>
    refine List.nodup_cons.2 ⟨fun hmem => ?_, h.distinct⟩
    obtain ⟨-, scope, hs, -⟩ := h.opened _ hmem
    exact unused ⟨scope, hs⟩
  case opened =>
    have new : (b.extend parent).2.scope? (b.extend parent).1 = some { parent := some parent } := by
      rw [tidy.scope?_extend, if_pos rfl]
    refine List.forall_mem_cons.2 ⟨⟨?_, _, new, by simp⟩, fun x hx => ?_⟩
    · exact fun hx => unused (h.grows.alive hx)
    · obtain ⟨hnew, scope, hs, hp⟩ := h.opened x hx
      obtain ⟨scope', hs', hp', -⟩ := grows x scope hs
      exact ⟨hnew, scope', hs', hp' ▸ hp⟩
  case rest =>
    intro x scope hs hnew
    rcases tidy.scope?_of_extend hs with hs | ⟨rfl, -⟩
    · exact (h.rest x scope hs hnew).imp_right (List.mem_cons_of_mem _)
    · exact .inr List.mem_cons_self

/-- When a call ends, its scope is closed or captured. -/
theorem leave (h : Accounted a (x :: outer) b) : Accounted a outer (b.release x) := by
  obtain ⟨hx, distinct⟩ := List.nodup_cons.1 h.distinct
  obtain ⟨⟨hnew, scope, hs, hp⟩, opened⟩ := List.forall_mem_cons.1 h.opened
  refine { grows := h.grows.release hnew, distinct := distinct, opened := ?opened, rest := ?rest }
  case opened =>
    intro y hy
    obtain ⟨hnew, scope, hs, hp⟩ := opened y hy
    have other : y ≠ x := by
      rintro rfl
      exact hx hy
    exact ⟨hnew, scope, (scope?_release_of_ne ⟨scope, hs⟩ other).trans hs, hp⟩
  case rest =>
    intro y scope' hs' hnew
    have before := scope?_of_release hs'
    by_cases hy : y = x
    · subst hy
      obtain rfl := Option.some.inj (hs.symm.trans before)
      exact .inl ((captured_of_release hs').resolve_right hp)
    · exact (h.rest y scope' before hnew).imp_right fun hmem => (List.mem_cons.1 hmem).resolve_left hy

end Accounted

end Arena

/-- To bind parameters opens and closes no scope. -/
theorem grows_bindParams (a : Arena (Value κ)) (id : ScopeId) (params : List String)
    (args : List (Value κ)) : a.Grows (bindParams a id params args) ∧
      ∀ x, (bindParams a id params args).Alive x → a.Alive x := by
  refine bindParams_induction (P := fun b => a.Grows b ∧ ∀ x, b.Alive x → a.Alive x) params
    ⟨.refl a, fun _ hx => hx⟩ ?_
  rintro b name v - ⟨grows, back⟩
  exact ⟨grows.trans (b.grows_define id name v), fun x hx => back x (Arena.alive_update.1 hx)⟩

/-- A step keeps the account of the scopes. -/
theorem Arena.Effect.accounted {a b c : Arena (Value κ)} {calls calls' : List ScopeId}
    (h : Effect calls b calls' c) (tidy : b.Tidy) (hb : Accounted a calls b) :
    Accounted a calls' c := by
  cases h with
  | rest => exact hb
  | @assign _ scope name v hset =>
    obtain ⟨target, rfl⟩ := define_of_set hset
    exact hb.fill (b.grows_define target name v) fun _ => alive_update.1
  | capture scope => exact hb.fill (b.grows_capture scope) fun _ => alive_update.1
  | enter parent params args =>
    obtain ⟨grows, back⟩ := grows_bindParams (b.extend parent).2 (b.extend parent).1 params args
    exact (hb.enter tidy parent).fill grows back
  | leave hc =>
    subst hc
    exact hb.leave

/-! ### The calls -/

/-- A step keeps the depth that of the calls under way, and within its limit. -/
theorem CallDepth.Effect.counted {c d d' : CallDepth} {calls calls' : List ScopeId}
    (h : Effect calls d calls' d') (hd : d.depth = c.depth + calls.length) :
    d'.depth = c.depth + calls'.length ∧ d'.limit = d.limit ∧
      (d.depth ≤ d.limit → d'.depth ≤ d.limit) := by
  cases h with
  | rest => exact ⟨hd, rfl, id⟩
  | enter room =>
    refine ⟨?_, rfl, fun _ => room⟩
    simp only [CallDepth.enter, List.length_cons]
    omega
  | leave hc =>
    subst hc
    rw [List.length_cons] at hd
    have less : d.leave.depth = d.depth - 1 := rfl
    refine ⟨?_, rfl, fun within => ?_⟩ <;> omega

namespace Machine

/-- The account of an evaluation that began with the arena `a` and at the depth `c`. -/
structure Accounts (a : Arena (Value κ)) (c : CallDepth) (m : Machine κ ω) : Prop where
  tidy : m.state.arena.Tidy
  scopes : a.Accounted m.callScopes m.state.arena
  depth : m.calls.depth = c.depth + m.callScopes.length
  limit : m.calls.limit = c.limit
  within : c.depth ≤ c.limit → m.calls.depth ≤ c.limit

variable {a : Arena (Value κ)} {c : CallDepth} {m m' : Machine κ ω}

theorem Accounts.step (h : m.Accounts a c) : (m.step host).Accounts a c := by
  obtain ⟨arena, calls⟩ := step_affects host m
  obtain ⟨depth, limit, within⟩ := calls.counted h.depth
  rw [h.limit] at limit within
  exact { tidy := arena.move.tidy h.tidy
          scopes := arena.accounted h.tidy h.scopes
          depth := depth
          limit := limit
          within := fun room => within (h.within room) }

theorem accounts_visit (tidy : s.arena.Tidy) (calls : CallDepth) (n : Node) (scope : ScopeId) :
    ((idle calls s).visit n scope).Accounts s.arena calls where
  tidy := tidy
  scopes := .refl s.arena
  depth := rfl
  limit := rfl
  within room := room

theorem accounts_of_reaches (tidy : s.arena.Tidy) (calls : CallDepth) {n : Node} {scope : ScopeId}
    (h : Reaches host ((idle calls s).visit n scope) m) : m.Accounts s.arena calls :=
  h.keeps (accounts_visit tidy calls n scope) fun _ => Accounts.step

end Machine

/-- The account of a whole evaluation, whatever it comes to. The scopes in use stay so, in the same
place, and are at most captured; new scopes are left only if they are captured; the depth is in the
end what it was, and on the way it is within the limit and never taken below zero. -/
theorem evaluation_accounted {world : ω} {ds : List (Deed κ ω)}
    (hs : s.arena ∈ State.history host { world } ds) (calls : CallDepth) (scope : ScopeId) (n : Node) :
    let r := evaluate host calls scope n s
    s.arena.Grows r.2.arena ∧
    (∀ x new, r.2.arena.scope? x = some new → ¬ s.arena.Alive x → new.captured = true) ∧
    (Machine.finish host calls scope n s).calls = calls ∧
    ∀ m, Machine.Reaches host ((Machine.idle calls s).visit n scope) m →
      m.calls.limit = calls.limit ∧ (calls.depth ≤ calls.limit → m.calls.depth ≤ calls.limit) ∧
      ∀ v x frames, m.control = .give v → m.frames = .leave x :: frames → 0 < m.calls.depth := by
  intro r
  have tidy := State.tidy_of_mem_history hs
  have ends := Machine.accounts_of_reaches tidy calls (Machine.reaches_eval host _ n scope)
  rw [← evaluate_eq_eval] at ends
  refine ⟨ends.scopes.grows, fun x new hx hnew => ?_, Machine.calls_finish calls, fun m hm => ?_⟩
  · exact (ends.scopes.rest x new hx hnew).resolve_right List.not_mem_nil
  · have way := Machine.accounts_of_reaches tidy calls hm
    refine ⟨way.limit, way.within, fun v x frames _ hframes => ?_⟩
    have depth := way.depth
    simp only [Machine.callScopes, hframes, List.filterMap_cons, Frame.callScope?, List.length_cons]
      at depth
    omega

/-- A function that makes a function: the scope of its call is left, and so is the one around it, which
is captured now. -/
theorem evaluation_accounted_inner_function :
    let host : Host Empty Unit := fun key _ _ => key.elim
    let s : State Empty Unit := State.perform host { world := () } (.extend .root)
    let n : Node := .call (.lambda [] (.lambda [] (.bool true))) []
    let r := evaluate host ⟨0, 1⟩ ⟨1, 0⟩ n s
    s.arena ∈ State.history host { world := () } [.extend .root] ∧
      ¬ s.arena.Alive ⟨2, 0⟩ ∧ (∃ new, r.2.arena.scope? ⟨2, 0⟩ = some new ∧ new.captured = true) ∧
      s.arena.Grows r.2.arena ∧ (Machine.finish host ⟨0, 1⟩ ⟨1, 0⟩ n s).calls = ⟨0, 1⟩ := by
  intro host s n r
  have known : s.arena ∈ State.history host { world := () } [.extend .root] := by
    simp [s, State.history, State.perform]
  have unused : ¬ s.arena.Alive ⟨2, 0⟩ := Arena.scope?_eq_none_iff.1 rfl
  have left : r.2.arena.scope? ⟨2, 0⟩ = some { parent := some ⟨1, 0⟩, captured := true } := by
    simp only [r, evaluate_eq_eval]
    rfl
  obtain ⟨grows, captured, depth, -⟩ := evaluation_accounted known ⟨0, 1⟩ ⟨1, 0⟩ n
  exact ⟨known, unused, ⟨_, left, captured _ _ left unused⟩, grows, depth⟩

end ScopeLang
