import ScopeLang.Proofs.Eval.History
import ScopeLang.Proofs.Scope.Stale

/-!
# Functions over stale scopes

The host may keep a function longer than the scope that the function was created in. A call of it
still opens a scope inside that one, but what lives in its slot by now is out of sight: throughout
the call, exactly the parameters are seen from the scope of the call.

## Main statements

* `Arena.Effect.keepsNames` — no step of a call binds new names in its scope.
* `Machine.keepsNames_of_reaches` — all scopes keep their names while an evaluation lasts.
* `invoke_closure` — a call evaluates the body of the function in the scope that it opens.
* `State.stale_until_wrapped` — when a handle leads to a scope, and what it does when it is stale.
-/

namespace ScopeLang

variable {κ ω : Type} {host : Host κ ω}

/-! ### The scope of a call -/

namespace Arena

variable {a b : Arena (Value κ)} {id x parent : ScopeId} {names : List String}
  {calls calls' : List ScopeId}

theorem Binds.bindParams_self (h : a.Binds x parent names) (params : List String)
    (args : List (Value κ)) : (bindParams a x params args).Binds x parent (params ++ names) := by
  induction params generalizing a names args with
  | nil => exact h
  | cons p ps ih =>
    have same (name : String) : name ∈ p :: ps ++ names ↔ name ∈ ps ++ p :: names := by grind
    cases args with
    | nil => exact (ih (h.define_self p _) []).congr same
    | cons v vs => exact (ih (h.define_self p v) vs).congr same

/-- A step neither closes a scope whose call is not its own nor binds new names in it, unless it is
inside no other. -/
theorem Effect.keepsNames (h : Effect calls a calls' b) (ha : a.Tidy) (hx : a.Alive x)
    (hcalls : x ∉ calls) : a.KeepsNames b x ∧ x ∉ calls' := by
  cases h with
  | rest => exact ⟨.refl hx, hcalls⟩
  | assign hset => exact ⟨.set hx hset, hcalls⟩
  | capture scope => exact ⟨.capture hx scope, hcalls⟩
  | enter p params args =>
    have other : x ≠ (a.extend p).1 := by
      rintro rfl
      exact scope?_eq_none_iff.1 (ha.scope?_extend_self p) hx
    refine ⟨?_, by simp [other, hcalls]⟩
    refine bindParams_induction (P := fun b => a.KeepsNames b x) params (.extend hx ha p)
      fun b name v _ kept => ?_
    exact kept.trans (.define_of_ne kept.alive_right other name v)
  | leave hc =>
    obtain ⟨other, houter⟩ : x ≠ _ ∧ x ∉ _ := by simpa [hc] using hcalls
    exact ⟨.release hx other, houter⟩

end Arena

namespace Machine

variable {m m' : Machine κ ω} {x parent : ScopeId} {names : List String}

/-- Scopes that belong to no call under way keep their names while the machine runs. -/
theorem keepsNames_of_reaches (h : Reaches host m m') (tidy : m.state.arena.Tidy)
    (hx : m.state.arena.Alive x) (hcalls : x ∉ m.callScopes) :
    m.state.arena.KeepsNames m'.state.arena x := by
  have all := h.keeps
    (P := fun m' => m'.state.arena.Tidy ∧ m.state.arena.KeepsNames m'.state.arena x ∧
      x ∉ m'.callScopes) ⟨tidy, .refl hx, hcalls⟩ fun m' ⟨tidy, names, hcalls⟩ => by
        obtain ⟨next, hcalls⟩ := (step_effect host m').keepsNames tidy names.alive_right hcalls
        exact ⟨(step_effect host m').move.tidy tidy, names.trans next, hcalls⟩
  exact all.2.1

/-- A scope in use whose call is not part of a run is there with the same names throughout it. -/
theorem binds_of_mem_arenas (h : Stops host m) (ha : m.state.arena.Tidy)
    (hx : m.state.arena.Binds x parent names) (hcalls : x ∉ m.callScopes) :
    ∀ b ∈ m.arenas host h, b.Binds x parent names := by
  intro b hb
  obtain ⟨m', hm', rfl⟩ := List.mem_map.1 hb
  exact hx.of_keepsNames (keepsNames_of_reaches (reaches_of_mem_trail h m' hm') ha hx.alive hcalls)

end Machine

/-- A call evaluates the body of the function in a scope opened for it, which is closed then. -/
theorem invoke_closure (host : Host κ ω) {calls : CallDepth} (room : calls.depth < calls.limit)
    (f : Closure) (args : List (Value κ)) (s : State κ ω) :
    let x := (s.openCall f args).1
    let body := evaluate host calls.enter x f.body (s.openCall f args).2
    invoke host calls (.closure f) args s = (body.1, body.2.closeCall x) := by
  have more : calls.remaining = calls.enter.remaining + 1 := by
    simp only [CallDepth.remaining, CallDepth.enter]
    omega
  simp only [invoke_eq_apply, evaluate_eq_eval, apply, applyWith, more]
  rfl

namespace State

theorem openCall_binds {s : State κ ω} (h : s.arena.Tidy) (f : Closure) (args : List (Value κ)) :
    (s.openCall f args).2.arena.Binds (s.openCall f args).1 f.scope f.params := by
  have bound := (Arena.Binds.extend_self h f.scope).bindParams_self f.params args
  rw [List.append_nil] at bound
  exact bound

theorem openCall_move (s : State κ ω) (f : Closure) (args : List (Value κ)) :
    Arena.Move Value.scope? s.arena (s.openCall f args).2.arena :=
  .open f.scope (Arena.sameLayout_bindParams _ _ _ _)

/-- To open a call empties no slot. -/
theorem occupied_openCall {s : State κ ω} (h : s.arena.Tidy) (f : Closure) (args : List (Value κ))
    {i : Nat} (ho : s.arena.occupied i = true) : (s.openCall f args).2.arena.occupied i = true := by
  have opened : (s.arena.extend f.scope).2.SameLayout (s.openCall f args).2.arena :=
    Arena.sameLayout_bindParams _ _ _ _
  rw [opened.occupied_eq]
  exact h.occupied_extend f.scope ho

/-- Of the names around the function nothing is seen in a call of it. The arenas `past` are those from
a moment on at which the handle of the function led to a scope. -/
structure CallConfined (host : Host κ ω) (past : List (Arena (Value κ))) (s : State κ ω)
    (calls : CallDepth) (f : Closure) (args : List (Value κ)) : Prop where
  /-- The body is evaluated in the scope opened for the call. -/
  result :
    let x := (s.openCall f args).1
    let body := evaluate host calls.enter x f.body (s.openCall f args).2
    invoke host calls (.closure f) args s = (body.1, body.2.closeCall x)
  /-- Exactly the parameters are seen from this scope. -/
  start : ∀ name : String, (s.openCall f args).2.arena.lookup (s.openCall f args).1 name =
    if name ∈ f.params then some (s.openCall f args).1 else none
  /-- This stays so while the body is evaluated. -/
  during :
    let x := (s.openCall f args).1
    let m := (Machine.idle calls.enter (s.openCall f args).2).visit f.body x
    ∀ (run : List (Arena (Value κ))) (b : Arena (Value κ)),
      run ++ [b] <+: m.arenas host (Machine.stops_visit _ _ _ _) →
        Arena.frees f.scope.index (past ++ (run ++ [b])) < 2 ^ 32 →
          ∀ name : String, b.lookup x name = if name ∈ f.params then some x else none

section

variable {a : Arena (Value κ)} {later : List (Arena (Value κ))} {s : State κ ω} {f : Closure}

theorem callConfined (chain : List.IsChain (Arena.Move Value.scope?) (a :: later)) (ha : a.Tidy)
    (issued : a.Alive f.scope) (freed : 0 < Arena.frees f.scope.index (a :: later))
    (few : Arena.frees f.scope.index (a :: later) < 2 ^ 32) (hs : s.arena = later.getLastD a)
    {calls : CallDepth} (room : calls.depth < calls.limit) (args : List (Value κ)) :
    CallConfined host (a :: later) s calls f args := by
  have tidy : s.arena.Tidy := hs ▸ Arena.tidy_of_mem chain ha _ List.getLastD_mem_cons
  have binds := openCall_binds tidy f args
  have opened : Arena.Move Value.scope? (later.getLastD a) (s.openCall f args).2.arena :=
    hs ▸ openCall_move s f args
  refine ⟨invoke_closure host room f args s, ?start, ?during⟩
  case start =>
    have alone : List.IsChain (Arena.Move Value.scope?) ([] ++ [(s.openCall f args).2.arena]) :=
      List.isChain_singleton _
    have same : Arena.frees f.scope.index (a :: later ++ [(s.openCall f args).2.arena]) =
        Arena.frees f.scope.index (a :: later) :=
      Arena.frees_concat fun ho => occupied_openCall tidy f args (hs ▸ ho)
    refine binds.lookup (Arena.not_alive_append chain ha issued freed alone ?_ (same.trans_lt few))
    rintro c ⟨⟩
    exact opened
  case during =>
    -- the scope stays inside the one of the function, and that one stays stale
    intro x m run b ⟨rest, hrest⟩ few
    have stops : Machine.Stops host m := Machine.stops_visit _ _ _ _
    have first := Machine.head?_arenas stops
    have steps := Machine.isChain_arenas stops
    have kept : b.Binds x f.scope f.params :=
      Machine.binds_of_mem_arenas stops (opened.tidy (hs ▸ tidy)) binds List.not_mem_nil b
        (hrest ▸ by simp)
    rw [← hrest] at first steps
    rw [List.head?_append_of_ne_nil _ (by simp)] at first
    refine kept.lookup
      (Arena.not_alive_append chain ha issued freed steps.left_of_append (fun c hc => ?_) few)
    obtain rfl := Option.some.inj (first.symm.trans hc)
    exact opened

end

/-- Take a handle that leads to a scope, as it does when it is issued. It does so later exactly when
its slot is occupied and was emptied a multiple of 2³² times since. In between nothing is seen or
changed through the handle, and a function over it sees its parameters only. -/
theorem stale_until_wrapped (host : Host κ ω) (world : ω) (ds : List (Deed κ ω))
    (a : Arena (Value κ)) (later : List (Arena (Value κ))) (h : ScopeId)
    (hist : a :: later <:+: history host { world } ds) (issued : a.Alive h) :
    let c := later.getLastD a
    (c.Alive h ↔ c.occupied h.index = true ∧ 2 ^ 32 ∣ Arena.frees h.index (a :: later)) ∧
      (0 < Arena.frees h.index (a :: later) → Arena.frees h.index (a :: later) < 2 ^ 32 →
        c.Inert h ∧ ∀ (s : State κ ω) (f : Closure) (args : List (Value κ)) (calls : CallDepth),
          s.arena = c → f.scope = h → calls.depth < calls.limit →
            CallConfined host (a :: later) s calls f args) := by
  have ha : a.Tidy := tidy_of_mem_history (hist.subset List.mem_cons_self)
  obtain ⟨before, after, hl⟩ := hist
  have chain := isChain_history host { world } ds
  rw [← hl] at chain
  replace chain := chain.left_of_append.right_of_append
  refine ⟨Arena.alive_getLastD_iff chain ha issued, fun freed few => ⟨?_, ?_⟩⟩
  · exact Arena.inert_of_not_alive (Arena.not_alive_getLastD chain ha issued freed few)
  · rintro s f args calls hs rfl room
    exact callConfined chain ha issued freed few hs room args

/-- Another scope lives in the slot by now. -/
theorem stale_after_reuse :
    let host : Host Empty Unit := fun key _ _ => key.elim
    let h : ScopeId := ⟨1, 0⟩
    let a : Arena (Value Empty) := (Arena.new.extend .root).2
    let b := a.release h
    let c := (b.extend .root).2
    let f : Closure := ⟨0, ["x"], .var "y", h⟩
    [a, b, c] <:+: history host { world := () } [.extend .root, .release h, .extend .root] ∧
      a.Alive h ∧ Arena.frees h.index [a, b, c] = 1 ∧ c.occupied h.index = true ∧ ¬ c.Alive h ∧
      c.Inert h ∧ CallConfined host [a, b, c] { arena := c, world := () } { limit := 1 } f [] := by
  intro host h a b c f
  have hist : [a, b, c] <:+: history host { world := () } [.extend .root, .release h, .extend .root] :=
    ⟨[.new], [], rfl⟩
  have issued : a.Alive h := ⟨_, rfl⟩
  have once : Arena.frees h.index [a, b, c] = 1 := rfl
  obtain ⟨alive_iff, stale⟩ := stale_until_wrapped host () _ a [b, c] h hist issued
  obtain ⟨inert, confined⟩ := stale (by decide) (by decide)
  refine ⟨hist, issued, once, rfl, ?_, inert, confined _ f [] _ rfl rfl (by decide)⟩
  rw [once] at alive_iff
  exact fun alive => absurd (alive_iff.1 alive).2 (by decide)

end State

end ScopeLang
