import ScopeLang.Proofs.Eval.Stale
import ScopeLang.Proofs.Eval.Termination
import ScopeLang.Proofs.Scope.Collected

/-!
# Evaluation does not rebind names

A name is looked up each time it is used, along scopes that other calls may change in between. Still it
keeps referring to the same binding: an evaluation adds no name to a scope that was there before, with
the exception of the root, and brings no stale handle on the way back to life. Collecting does not do
so either.

## Main definitions

* `State.Occurs` — the states that come about while a client is at work.
* `Arena.Stable` — a scope that binds the same names, and from which names refer to the same.

## Main statements

* `Arena.Regular.stable` — names refer to the same when all scopes keep their names.
* `State.Occurs.regular`, `State.Occurs.rooted` — what is known of the states that come about.
* `names_stable` — names refer to the same after every evaluation and every collection.
-/

namespace ScopeLang

variable {κ ω : Type} {host : Host κ ω} {kept : ω → ScopeId → Prop} {s : State κ ω}

namespace Machine

variable {m m' : Machine κ ω}

/-- What every change of an arena keeps is kept while the machine runs. -/
theorem Reaches.of_move {P : Arena (Value κ) → Prop} (h : Reaches host m m')
    (move : ∀ a b, Arena.Move Value.scope? a b → P a → P b) (start : P m.state.arena) :
    P m'.state.arena :=
  h.keeps (P := fun m => P m.state.arena) start fun m => move _ _ (step_effect host m).move

/-- No generation starts over on the way. -/
theorem Steady.genLe (h : m.Steady host) (hm : Reaches host m m') :
    m.state.arena.GenLe m'.state.arena := by
  induction hm with
  | refl => exact fun i => UInt32.le_refl _
  | step hd _ ih =>
    intro i
    exact UInt32.le_trans (h _ (.refl _) i) (ih (fun m' hm' => h m' (.step hd hm')) i)

end Machine

/-! ### The states that come about -/

/-- The states that come about while a client is at work, also in the middle of its evaluations and
calls. -/
inductive State.Occurs (host : Host κ ω) (kept : ω → ScopeId → Prop) : State κ ω → Prop where
  | rest {s : State κ ω} : s.Reachable host kept → Occurs host kept s
  | evaluating {s : State κ ω} {calls : CallDepth} {scope : ScopeId} {n : Node} {m : Machine κ ω} :
    s.Reachable host kept → s.arena.Issued scope →
      ((Machine.idle calls s).visit n scope).Steady host →
        Machine.Reaches host ((Machine.idle calls s).visit n scope) m → Occurs host kept m.state
  | calling {s : State κ ω} {calls : CallDepth} {f : Value κ} {args : List (Value κ)}
    {m : Machine κ ω} : s.Reachable host kept → f.IssuedIn s.arena →
      (∀ v ∈ args, v.IssuedIn s.arena) → ((Machine.idle calls s).call host f args).Steady host →
        Machine.Reaches host ((Machine.idle calls s).call host f args) m → Occurs host kept m.state

namespace State

theorem Occurs.regular (honest : ∀ key, HostCall.Honest kept (host key))
    (h : s.Occurs host kept) : s.Regular kept := by
  cases h with
  | rest hs => exact hs.regular honest
  | @evaluating s calls scope n m hs hscope steady hm =>
    have start := (Machine.waiting_idle (hs.regular honest) calls).visit n hscope
    exact (start.reaches honest steady hm).state
  | @calling s calls f args m hs hf hargs steady hm =>
    have start := (Machine.waiting_idle (hs.regular honest) calls).call honest hf hargs
    exact (start.reaches honest steady hm).state

section

variable {P : Arena (Value κ) → Prop}

theorem Reachable.of_move (h : s.Reachable host kept) (new : P .new)
    (move : ∀ a b, Arena.Move Value.scope? a b → P a → P b) : P s.arena := by
  induction h with
  | new => exact new
  | extend _ _ ih => exact move _ _ (.open _ (.refl _)) ih
  | define _ _ ih => exact move _ _ (.fill (Arena.sameLayout_define _ _ _ _)) ih
  | set _ _ ih => exact move _ _ (move_assignName _ _ _ _) ih
  | collect values _ _ ih => exact move _ _ (.sweep values) ih
  | @evaluate s scope calls n _ _ _ ih =>
    rw [evaluate_eq_eval]
    exact (Machine.reaches_eval host (Machine.idle calls s) n scope).of_move move ih
  | @invoke s f args calls _ _ _ _ ih =>
    have first : (Machine.idle calls s).Affects ((Machine.idle calls s).call host f args) :=
      Machine.affects_call f args
    rw [invoke_eq_apply]
    exact (Machine.reaches_apply host _ f args).of_move move (move _ _ first.arena.move ih)
  | host _ _ ih => exact ih

/-- What every change of an arena keeps holds whatever a client does. -/
theorem Occurs.of_move (h : s.Occurs host kept) (new : P .new)
    (move : ∀ a b, Arena.Move Value.scope? a b → P a → P b) : P s.arena := by
  cases h with
  | rest hs => exact hs.of_move new move
  | evaluating hs _ _ hm => exact hm.of_move move (hs.of_move new move)
  | @calling s calls f args m hs _ _ _ hm =>
    have first : (Machine.idle calls s).Affects ((Machine.idle calls s).call host f args) :=
      Machine.affects_call f args
    exact hm.of_move move (move _ _ first.arena.move (hs.of_move new move))

end

theorem Occurs.rooted (h : s.Occurs host kept) : s.arena.Rooted :=
  (h.of_move (P := fun a => a.Tidy ∧ a.Rooted) ⟨Arena.tidy_new, Arena.rooted_new⟩
    fun _ _ move ⟨tidy, rooted⟩ => ⟨move.tidy tidy, move.rooted tidy rooted⟩).2

end State

/-! ### What names refer to -/

namespace Arena

variable {ν : Type} {a b : Arena ν} {scopeOf : ν → Option ScopeId} {x : ScopeId}

/-- The scope is still in use. It binds the names that it did, and if it is not the root no others;
and the names seen from it refer to the same scopes. -/
structure Stable (a b : Arena ν) (x : ScopeId) : Prop where
  names : ∃ scope scope', a.scope? x = some scope ∧ b.scope? x = some scope' ∧
    (∀ name, scope.bindings.binds name = true → scope'.bindings.binds name = true) ∧
    (x ≠ .root → ∀ name, scope'.bindings.binds name = scope.bindings.binds name)
  refers : ∀ name : String, Refers (a.lookup x name) (b.lookup x name)

/-- A handle that was given out and is stale stays so when no generation starts over. -/
theorem Issued.not_alive (hx : a.Issued x) (stale : ¬ a.Alive x) (h : a.GenLe b) : ¬ b.Alive x := by
  intro hb
  have older : x.generation < a.generation x.index := hx.resolve_left stale
  have now : x.generation = b.generation x.index := hb.generation_eq
  have hle := h x.index
  grind

/-- When all scopes in use keep their names and stale handles stay so, names refer to the same. -/
theorem Regular.stable (h : a.Regular scopeOf) (rooted : a.Rooted)
    (kept : ∀ y, a.Alive y → a.KeepsNames b y) (hle : a.GenLe b) (hx : a.Alive x) :
    a.Stable b x := by
  have outward (y : ScopeId) (scope : Scope ν) (p : ScopeId) (_ : a.Issued y)
      (hs : a.scope? y = some scope) (hp : scope.parent = some p) : a.Issued p :=
    h.issued hs (mem_successors_of_parent hp)
  have stale (y : ScopeId) (hy : a.Issued y) (gone : ¬ a.Alive y) : ¬ b.Alive y :=
    hy.not_alive gone hle
  have grounded : b.Grounded x := by
    refine (h.grounded x).transfer outward (fun y scope hy hs => ?_) (.inl hx)
    have alive : a.Alive y := not_not.1 fun gone => stale y hy gone ⟨scope, hs⟩
    obtain ⟨scope₀, scope', hs₀, hs', keeps⟩ := kept y alive
    obtain rfl := Option.some.inj (hs.symm.trans hs')
    exact ⟨scope₀, hs₀, keeps.parent.symm⟩
  refine ⟨?names, fun name => ?refers⟩
  case names =>
    obtain ⟨scope, scope', hs, hs', keeps⟩ := kept x hx
    refine ⟨scope, scope', hs, hs', keeps.names, fun hroot name => ?_⟩
    have inside : scope.parent ≠ none := fun hp => hroot (rooted.only (by simp [around, hs, hp]))
    exact Bool.eq_iff_iff.2 ⟨keeps.only inside name, keeps.names name⟩
  case refers =>
    obtain ⟨found, hfound, refers⟩ := ((h.grounded x).search name).stable outward kept stale
      (fun y => rooted.only) (.inl hx)
    rwa [hfound.unique (grounded.search name)] at refers

/-- Nothing changes in a scope that survives, nor in what is seen from it. -/
theorem stable_collect {values : List ν} (hx : (a.collect scopeOf values).2.Alive x) :
    a.Stable (a.collect scopeOf values).2 x where
  names := by
    obtain ⟨scope, hs⟩ := hx
    exact ⟨scope, scope, (scope?_collect.1 hs).1, hs, fun _ => id, fun _ _ => rfl⟩
  refers name := by
    rw [lookup_collect hx name]
    exact .refl _

end Arena

/-- Every scope in use binds after an evaluation the names that it did before, and only the root may
bind others. So what a name refers to stays the same, except that a name which referred to nothing may
have come to be bound in the root. Nothing changes in the scopes that survive when others are
collected. -/
theorem names_stable (honest : ∀ key, HostCall.Honest kept (host key)) (hs : s.Occurs host kept) :
    (∀ calls scope n, ((Machine.idle calls s).visit n scope).Steady host →
      ∀ x, s.arena.Alive x → s.arena.Stable (evaluate host calls scope n s).2.arena x) ∧
    ∀ values x, (s.collect values).2.arena.Alive x → s.arena.Stable (s.collect values).2.arena x := by
  refine ⟨fun calls scope n steady x hx => ?_, fun values x hx => Arena.stable_collect hx⟩
  have regular := (hs.regular honest).arena
  have ends := Machine.reaches_eval host (Machine.idle calls s) n scope
  rw [← evaluate_eq_eval] at ends
  refine regular.stable hs.rooted (fun y hy => ?_) (steady.genLe ends) hx
  exact Machine.keepsNames_of_reaches ends regular.tidy hy List.not_mem_nil

/-- A name that nothing bound comes to be bound in the root, and is seen from a scope inside it. -/
theorem names_stable_new_global :
    let host : Host Empty Unit := fun key _ _ => key.elim
    let around : State Empty Unit := { world := (), arena := (Arena.new.extend .root).2 }
    let s := { around with arena := around.arena.define ⟨1, 0⟩ "n" (.bool true) }
    let program : Node := .assign (.var "m") (.bool false)
    let b := (evaluate host ⟨0, 1⟩ .root program s).2.arena
    (∀ key, HostCall.Honest (fun _ _ => False) (host key)) ∧ s.Occurs host (fun _ _ => False) ∧
      ((Machine.idle ⟨0, 1⟩ s).visit program .root).Steady host ∧ s.arena.Alive ⟨1, 0⟩ ∧
      s.arena.Stable b ⟨1, 0⟩ ∧ b.lookup ⟨1, 0⟩ "n" = some ⟨1, 0⟩ ∧
      s.arena.lookup ⟨1, 0⟩ "m" = none ∧ b.lookup ⟨1, 0⟩ "m" = some .root := by
  intro host around s program b
  have honest : ∀ key, HostCall.Honest (fun _ _ => False) (host key) := fun key => key.elim
  have opened : around.Reachable host (fun _ _ => False) :=
    .extend (.new fun _ => id) (.inl ⟨{}, rfl⟩)
  have occurs : s.Occurs host (fun _ _ => False) := .rest (.define opened (.of_scope?_eq_none rfl))
  have steady : ((Machine.idle ⟨0, 1⟩ s).visit program .root).Steady host :=
    Machine.steady_of_endsSteadily 4 (by decide)
  have alive : s.arena.Alive ⟨1, 0⟩ := ⟨_, rfl⟩
  have stable := (names_stable honest occurs).1 ⟨0, 1⟩ .root program steady ⟨1, 0⟩ alive
  have bound : b.lookup ⟨1, 0⟩ "m" = some .root := by
    simp only [b, evaluate_eq_eval]
    rfl
  exact ⟨honest, occurs, steady, alive, stable, (stable.refers "n").found _ rfl, rfl, bound⟩

end ScopeLang
