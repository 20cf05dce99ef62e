import ScopeLang.Proofs.Eval.History
import ScopeLang.Proofs.Eval.Limit
import ScopeLang.Proofs.Scope.Apart

/-!
# Evaluation keeps to what it can reach

Two environments that differ only in the names bound in scopes out of reach of the scope in which a
tree is evaluated are left by the evaluation alike and with the same outcome. What it can reach grows
as it goes on: calls open scopes, and closures are bound in scopes around. But all that it carries
and binds comes from scopes within reach, so the scopes that were out of reach at the start stay so.

## Main definitions

* `State.EqualExcept` — environments that differ in the names bound in hidden scopes only.
* `isolation` — evaluations in two such environments side by side.

## Main statements

* `evaluation_isolated` — evaluation neither reads nor changes scopes out of its reach.
-/

namespace ScopeLang

variable {κ ω : Type} {host : Host κ ω} {hidden : ScopeId → Prop}

/-- The environments differ in nothing but the names bound in hidden scopes. -/
structure State.EqualExcept (hidden : ScopeId → Prop) (s t : State κ ω) : Prop where
  arena : s.arena.EqualExcept hidden t.arena
  fresh : s.fresh = t.fresh
  world : s.world = t.world

namespace Arena

variable {a b a₀ b₀ : Arena (Value κ)} {id : ScopeId}

/-- A name seen from a scope that is not hidden has no value that leads to a hidden one. -/
theorem EqualExcept.scope_of_get (h : EqualExcept hidden a b) (ha : Secluded Value.scope? hidden a)
    (hid : ¬ hidden id) {name : String} {v : Value κ} (hget : a.get id name = .ok v) :
    ∀ x, v.scope? = some x → ¬ hidden x := by
  intro x hx
  obtain ⟨target, scope, hlookup, hs, hmem⟩ := bound_of_get hget
  exact ha.closed ((h.lookup ha hid name).2 target hlookup) hs (mem_successors_of_bound hmem hx)

/-- Parameters are bound in the same way in both arenas. -/
theorem Apart.bindParams (h : Apart Value.scope? hidden a₀ b₀ a b) (hid : ¬ hidden id)
    (params : List String) {args : List (Value κ)}
    (hargs : ∀ v ∈ args, ∀ x, v.scope? = some x → ¬ hidden x) :
    Apart Value.scope? hidden a₀ b₀ (bindParams a id params args)
      (bindParams b id params args) := by
  induction params generalizing a b args with
  | nil => exact h
  | cons p ps ih =>
    cases args with
    | nil => exact ih (h.define hid p (by simp [Value.scope?])) hargs
    | cons v vs =>
      obtain ⟨hv, hvs⟩ := List.forall_mem_cons.1 hargs
      exact ih (h.define hid p hv) hvs

end Arena

/-- A call opens the same scope in both environments. -/
theorem State.openCall_apart {a₀ b₀ : Arena (Value κ)} {s t : State κ ω}
    (h : Arena.Apart Value.scope? hidden a₀ b₀ s.arena t.arena) {f : Closure} (hf : ¬ hidden f.scope)
    {args : List (Value κ)} (hargs : ∀ v ∈ args, ∀ x, v.scope? = some x → ¬ hidden x) :
    (t.openCall f args).1 = (s.openCall f args).1 ∧ ¬ hidden (s.openCall f args).1 ∧
      Arena.Apart Value.scope? hidden a₀ b₀ (s.openCall f args).2.arena
        (t.openCall f args).2.arena := by
  obtain ⟨hnew, hno, opened⟩ := h.extend hf
  simp only [openCall, hnew]
  exact ⟨trivial, hno, opened.bindParams hno f.params hargs⟩

/-- Evaluations side by side in arenas that are equal except for hidden scopes. Closures hold the
same scopes, none of them hidden. -/
def isolation (κ ω : Type) (hidden : ScopeId → Prop) (a₀ b₀ : Arena (Value κ)) :
    Correspondence κ ω where
  Stage := Unit
  le _ _ := True
  refl _ := trivial
  trans _ _ := trivial
  state _ s t := Arena.Apart Value.scope? hidden a₀ b₀ s.arena t.arena ∧ s.fresh = t.fresh ∧
    s.world = t.world
  scope _ x y := x = y ∧ ¬ hidden x
  handle _ x y := x = y ∧ ¬ hidden x
  scope_mono _ h := h
  handle_mono _ h := h

section

variable {a₀ b₀ : Arena (Value κ)}

theorem isolation_respects (hh : ∀ key, HostCall.ReturnsGiven (host key)) :
    (isolation κ ω hidden a₀ b₀).Respects host host where
  read := by
    rintro p x _ ⟨rfl, hx⟩ name s t ⟨h, hfresh, hworld⟩
    refine ⟨p, trivial, ⟨h, hfresh, hworld⟩, ?_⟩
    simp only [Action.readName, h.equal.get h.secluded hx]
    cases hget : s.arena.get x name with
    | error e => exact .error e
    | ok v =>
      exact .ok (Value.Rel.eq_and_iff.2 ⟨rfl, h.equal.scope_of_get h.secluded hx hget⟩)
  assign := by
    rintro p x _ v w ⟨rfl, hx⟩ hv name s t ⟨h, hfresh, hworld⟩
    obtain ⟨rfl, hno⟩ := Value.Rel.eq_and_iff.1 hv
    simp only [Action.assignName]
    rcases h.set hx name hno with ⟨a, b, ha, hb, hab⟩ | ⟨e, ha, hb⟩
    · rw [ha, hb]
      exact ⟨p, trivial, ⟨hab, hfresh, hworld⟩, .ok hv⟩
    · rw [ha, hb]
      exact ⟨p, trivial, ⟨h, hfresh, hworld⟩, .error e⟩
  create := by
    rintro p x _ ⟨rfl, hx⟩ params body s t ⟨h, hfresh, hworld⟩
    refine ⟨p, trivial, ⟨h.capture hx, congrArg (· + 1) hfresh, hworld⟩, .ok ?_⟩
    exact .closure hfresh rfl rfl ⟨rfl, hx⟩
  host := by
    rintro p vs ws hvs f s t ⟨h, hfresh, hworld⟩
    obtain ⟨rfl, hno⟩ := Value.Rel.forall₂_eq_and_iff.1 hvs
    have given := hh f.key vs s.world
    simp only [Action.callHost, ← hworld]
    refine ⟨p, trivial, ⟨h, hfresh, rfl⟩, ?_⟩
    cases hr : (host f.key vs s.world).1 with
    | error e => exact .error e
    | ok v =>
      refine .ok (Value.Rel.eq_and_iff.2 ⟨rfl, ?_⟩)
      cases v with
      | closure g => exact hno _ (given g hr)
      | _ => simp [Value.scope?]

/-- Calls open and close the same scopes, none of them hidden. -/
theorem isolation_calls (hh : ∀ key, HostCall.ReturnsGiven (host key)) (limit k : Nat) :
    (isolation κ ω hidden a₀ b₀).Calls (callClosure host limit k) (callClosure host limit k) := by
  induction k with
  | zero => exact fun _ _ _ _ _ _ _ => .fail _
  | succ k ih =>
    intro p f g vs ws hf hvs s t ⟨h, hfresh, hworld⟩
    obtain ⟨hfg, hscope⟩ := Value.Rel.eq_and_iff.1 hf
    obtain rfl : f = g := by simpa using hfg
    obtain ⟨rfl, hargs⟩ := Value.Rel.forall₂_eq_and_iff.1 hvs
    obtain ⟨hnew, hno, opened⟩ := State.openCall_apart h (hscope _ rfl) hargs
    simp only [callClosure, hnew]
    obtain ⟨q, -, ⟨hbody, hfresh', hworld'⟩, hr⟩ := (isolation_respects hh).evalWith ih f.body
      (p := p) ⟨rfl, hno⟩ (s.openCall f vs).2 (t.openCall f vs).2 ⟨opened, hfresh, hworld⟩
    exact ⟨q, trivial, ⟨hbody.release hno, hfresh', hworld'⟩, hr⟩

end

/-- Evaluation neither reads nor changes scopes out of its reach: in two environments that differ in
names bound there only, it comes to the same result, output and call depth. Afterwards the
environments differ in nothing else again, and the scopes out of reach are as they were. -/
theorem evaluation_isolated (hh : ∀ key, HostCall.ReturnsGiven (host key)) {s t : State κ ω}
    {world : ω} {ds : List (Deed κ ω)} (hs : s.arena ∈ State.history host { world } ds)
    {scope : ScopeId} (h : s.EqualExcept (s.arena.OutOfReach Value.scope? scope) t)
    (calls : CallDepth) (n : Node) :
    let r := evaluate host calls scope n s
    let r' := evaluate host calls scope n t
    r'.1 = r.1 ∧
      (Machine.finish host calls scope n t).calls = (Machine.finish host calls scope n s).calls ∧
      r.2.EqualExcept (s.arena.OutOfReach Value.scope? scope) r'.2 ∧
      ∀ id, s.arena.OutOfReach Value.scope? scope id →
        r.2.arena.scope? id = s.arena.scope? id ∧ r'.2.arena.scope? id = t.arena.scope? id := by
  intro r r'
  have tidy : s.arena.Tidy := State.tidy_of_mem_history hs
  have start : Arena.Apart Value.scope? (s.arena.OutOfReach Value.scope? scope) s.arena t.arena
      s.arena t.arena :=
    ⟨h.arena, Arena.secluded_outOfReach tidy scope, fun _ _ => rfl, fun _ _ => rfl⟩
  obtain ⟨_, -, ⟨apart, hfresh, hworld⟩, hr⟩ := (isolation_respects hh).evalWith
    (isolation_calls hh calls.limit calls.remaining) n
    (p := ()) ⟨rfl, Arena.not_outOfReach_self _ scope⟩ s t ⟨start, h.fresh, h.world⟩
  simp only [r, r', evaluate_eq_eval, eval, Machine.calls_finish]
  refine ⟨?result, trivial, ⟨apart.equal, hfresh, hworld⟩, fun id hid => ?kept⟩
  case kept => exact ⟨apart.left id hid, apart.right id hid⟩
  case result =>
    generalize (evalWith _ _ _ _ s).1 = u, (evalWith _ _ _ _ t).1 = v at hr ⊢
    cases hr with
    | ok hv => rw [(Value.Rel.eq_and_iff.1 hv).1]
    | error e => rfl

/-- The root scope does not lead to a scope inside it that no function was created in. -/
theorem evaluation_isolated_inside :
    let host : Host Empty Unit := fun key _ _ => key.elim
    let s : State Empty Unit := State.perform host { world := () } (.extend .root)
    let t : State Empty Unit := s.perform host (.define ⟨1, 0⟩ "n" (.bool true))
    let n : Node := .assign (.var "n") (.bool false)
    (∀ key, HostCall.ReturnsGiven (host key)) ∧
      s.arena ∈ State.history host { world := () } [.extend .root] ∧
      s.EqualExcept (s.arena.OutOfReach Value.scope? .root) t ∧
      (evaluate host ⟨0, 1⟩ .root n t).1 = (evaluate host ⟨0, 1⟩ .root n s).1 ∧
      (evaluate host ⟨0, 1⟩ .root n t).2.arena.scope? ⟨1, 0⟩ =
        some { bindings := [("n", .bool true)], parent := some .root } := by
  intro host s t n
  have given : ∀ key, HostCall.ReturnsGiven (host key) := fun key => key.elim
  have known : s.arena ∈ State.history host { world := () } [.extend .root] := by
    simp [s, State.history, State.perform]
  have only {x : ScopeId} (hx : s.arena.Reached Value.scope? [.root] x) : x = .root := by
    induction hx with
    | start hmem => exact List.mem_singleton.1 hmem
    | next _ hs hx _ ih =>
      have empty : s.arena.scope? .root = some {} := rfl
      rw [ih, empty] at hs
      cases hs
      simp [Arena.successors] at hx
  have inside : s.arena.OutOfReach Value.scope? .root ⟨1, 0⟩ :=
    ⟨⟨{ parent := some .root }, rfl⟩, fun hx => absurd (only hx) (by decide)⟩
  have equal : s.EqualExcept (s.arena.OutOfReach Value.scope? .root) t :=
    ⟨s.arena.equalExcept_define inside "n" (.bool true), rfl, rfl⟩
  obtain ⟨result, -, -, kept⟩ := evaluation_isolated given known equal ⟨0, 1⟩ n
  exact ⟨given, known, equal, result, (kept ⟨1, 0⟩ inside).2⟩

end ScopeLang
