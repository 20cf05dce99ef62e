import ScopeLang.Proofs.Eval.Custody
import ScopeLang.Proofs.Eval.Renaming

/-!
# Evaluation that gives nothing back

The reference for evaluation opens every scope in a slot of its own and closes none. It is compared
with evaluation as it is: a stage is an arena of the latter with a renaming of its handles. A scope
that is closed with its call leaves the renaming, which nothing notices, since nothing holds it.

## Main definitions

* `callKeeping`, `evalKeeping` — calls and evaluation without giving scopes back.
* `HostCall.Blind` — a function of the host that does not look at the scopes of closures.

## Main statements

* `eval_evalKeeping` — both evaluations agree up to a renaming of handles.
-/

namespace ScopeLang

variable {κ ω : Type}

/-! ### The reference -/

/-- Opens the scope of a call in a slot of its own. -/
def State.openFresh (f : Closure) (args : List (Value κ)) (s : State κ ω) : ScopeId × State κ ω :=
  match s.arena.allocate f.scope with
  | (scope, arena) => (scope, { s with arena := bindParams arena scope f.params args })

/-- Calls a closure when so many more calls may be nested; the scope of the call stays. -/
def callKeeping (host : Host κ ω) (limit : Nat) : (remaining : Nat) → Caller κ ω
  | 0, _, _ => .fail (.depthExceeded limit)
  | n + 1, f, args => fun s =>
    match s.openFresh f args with
    | (scope, s) => evalWith host (callKeeping host limit n) scope f.body s

/-- Evaluates a tree in a scope; the scopes of calls stay. -/
def evalKeeping (host : Host κ ω) (calls : CallDepth) (scope : ScopeId) (n : Node) :
    Action κ ω (Value κ) :=
  evalWith host (callKeeping host calls.limit calls.remaining) scope n

/-! ### What the host may do -/

/-- One value without a closure, or the arguments at one place. -/
inductive Handed (args args' : List (Value κ)) : Value κ → Value κ → Prop where
  | plain {v : Value κ} : v.scope? = none → Handed args args' v v
  | given {v w : Value κ} (i : Nat) : args[i]? = some v → args'[i]? = some w → Handed args args' v w

/-- The function returns a value without a closure or one of its arguments, and which one does not
depend on the scopes that closures among its arguments hold. -/
def HostCall.Blind (alike : ω → ω → Prop) (call : HostCall κ ω) : Prop :=
  ∀ args args' world world', List.Forall₂ (Value.Rel fun _ _ => True) args args' →
    alike world world' → alike (call args world).2 (call args' world').2 ∧
      Agree (Handed args args') (call args world).1 (call args' world').1

theorem Handed.rel {R : ScopeId → ScopeId → Prop} {args args' : List (Value κ)} {v w : Value κ}
    (h : Handed args args' v w) (hargs : List.Forall₂ (Value.Rel R) args args') : v.Rel R w := by
  cases h with
  | plain h => exact .of_scope?_eq_none h
  | given i hv hw =>
    obtain ⟨hi, rfl⟩ := List.getElem?_eq_some_iff.1 hv
    obtain ⟨hj, rfl⟩ := List.getElem?_eq_some_iff.1 hw
    exact hargs.get hi hj

/-! ### Both evaluations side by side -/

namespace Arena.Renamed

variable {R : ScopeId → ScopeId → Prop} {a b : Arena (Value κ)}

/-- The same handles, and those of two new scopes. -/
theorem extend (h : Renamed R a b) (ha : a.Tidy) {p q : ScopeId} (hpq : R p q) :
    Renamed (fun x y => R x y ∨ x = (a.extend p).1 ∧ y = (b.allocate q).1) (a.extend p).2
      (b.allocate q).2 := by
  have left {x y} (hxy : R x y) : x ≠ (a.extend p).1 := by
    rintro rfl
    obtain ⟨s, -, hs, -⟩ := h.scope hxy
    simp [ha.scope?_extend_self] at hs
  have right {x y} (hxy : R x y) : y ≠ (b.allocate q).1 := by
    rintro rfl
    obtain ⟨-, t, -, ht, -⟩ := h.scope hxy
    simp [scope?_allocate_self] at ht
  refine { left_unique := ?left, right_unique := ?right, root := .inl h.root, scope := ?scope }
  case left =>
    rintro x x' y (hx | ⟨rfl, rfl⟩) (hx' | ⟨rfl, hy⟩)
    · exact h.left_unique hx hx'
    · exact absurd hy (right hx)
    · exact absurd rfl (right hx')
    · rfl
  case right =>
    rintro x y y' (hy | ⟨rfl, rfl⟩) (hy' | ⟨hx, rfl⟩)
    · exact h.right_unique hy hy'
    · exact absurd hx (left hy)
    · exact absurd rfl (left hy')
    · rfl
  case scope =>
    rintro x y (hxy | ⟨rfl, rfl⟩)
    · obtain ⟨s, t, hs, ht, hst⟩ := h.scope hxy
      refine ⟨s, t, ?_, ?_, hst.mono fun _ _ => .inl⟩
      · rw [ha.scope?_extend, if_neg (left hxy), hs]
      · rw [scope?_allocate, if_neg (right hxy), ht]
    · refine ⟨_, _, by rw [ha.scope?_extend, if_pos rfl], by rw [scope?_allocate, if_pos rfl], ?_⟩
      exact ⟨.some (.inl hpq), .nil⟩

end Arena.Renamed

/-- A call of related closures opens related scopes. -/
theorem State.openCall_renamed {R : ScopeId → ScopeId → Prop} {s t : State κ ω}
    (h : s.arena.Renamed R t.arena) (tidy : s.arena.Tidy) {f g : Closure}
    (hparams : f.params = g.params) (hscope : R f.scope g.scope) {vs ws : List (Value κ)}
    (hargs : List.Forall₂ (Value.Rel R) vs ws) :
    (s.openCall f vs).2.arena.Renamed
      (fun u v => R u v ∨ u = (s.openCall f vs).1 ∧ v = (t.openFresh g ws).1)
      (t.openFresh g ws).2.arena := by
  simp only [openCall, openFresh, ← hparams]
  apply (h.extend tidy hscope).bindParams (.inr ⟨rfl, rfl⟩) f.params
  exact hargs.imp fun _ _ hv => hv.mono fun _ _ => .inl

/-- Evaluation beside its reference. A stage is an arena with a renaming of its handles to those of
the reference; closures hold related handles that outlive their calls. -/
def keeping (κ : Type) {ω : Type} (alike : ω → ω → Prop) : Correspondence κ ω where
  Stage := Arena (Value κ) × (ScopeId → ScopeId → Prop)
  le p q := p.1.Grows q.1 ∧ ∀ x y, p.2 x y → q.2 x y
  refl p := ⟨.refl p.1, fun _ _ h => h⟩
  trans h h' := ⟨h.1.trans h'.1, fun x y hxy => h'.2 x y (h.2 x y hxy)⟩
  state p s t := s.arena = p.1 ∧ p.1.Sound Value.scope? ∧ p.1.Renamed p.2 t.arena ∧
    s.fresh = t.fresh ∧ alike s.world t.world
  scope p x y := p.2 x y
  handle p x y := p.2 x y ∧ p.1.Held x
  scope_mono h hxy := h.2 _ _ hxy
  handle_mono h hxy := ⟨h.2 _ _ hxy.1, h.1.held hxy.2⟩

section

variable {alike : ω → ω → Prop} {p : (keeping κ alike).Stage}

theorem keeping_value_rel {v w : Value κ} (h : (keeping κ alike).value p v w) : v.Rel p.2 w :=
  Value.Rel.mono (fun _ _ hxy => hxy.1) h

theorem heldIn_of_keeping {v w : Value κ} (h : (keeping κ alike).value p v w) : v.HeldIn p.1 := by
  intro x hx
  cases h with
  | closure _ _ _ hs =>
    obtain rfl := Option.some.inj hx
    exact hs.2
  | _ => simp [Value.scope?] at hx

theorem heldIn_of_keeping_mem {vs ws : List (Value κ)}
    (h : List.Forall₂ ((keeping κ alike).value p) vs ws) : ∀ v ∈ vs, v.HeldIn p.1 := by
  induction h with
  | nil => simp
  | cons hv _ ih => exact List.forall_mem_cons.2 ⟨heldIn_of_keeping hv, ih⟩

end

theorem keeping_respects {alike : ω → ω → Prop} {host : Host κ ω}
    (hh : ∀ key, HostCall.Blind alike (host key)) : (keeping κ alike).Respects host host where
  read := by
    rintro ⟨a, R⟩ x y hxy name s t ⟨rfl, hs, hR, hfresh, hworld⟩
    refine ⟨(s.arena, R), Correspondence.refl _ _, ⟨rfl, hs, hR, hfresh, hworld⟩, ?_⟩
    refine (hR.get_agree hxy (hs.grounded (hR.alive hxy)) name).imp fun v w hv hvw => ?_
    exact hvw.restrict fun u hu => hs.held_of_get hv hu
  assign := by
    rintro ⟨a, R⟩ x y v w hxy hv name s t ⟨rfl, hs, hR, hfresh, hworld⟩
    have hset := hR.set_agree hxy (hs.grounded (hR.alive hxy)) name (keeping_value_rel hv)
    simp only [Action.assignName]
    generalize s.arena.set x name v = r, t.arena.set y name w = r' at hset ⊢
    cases hset with
    | error e =>
      exact ⟨(s.arena, R), Correspondence.refl _ _, ⟨rfl, hs, hR, hfresh, hworld⟩, .error e⟩
    | ok h =>
      obtain ⟨u, rfl, hR'⟩ := h
      have later : (keeping κ alike).le (s.arena, R) (s.arena.define u name v, R) :=
        ⟨s.arena.grows_define u name v, fun _ _ h => h⟩
      refine ⟨_, later, ⟨rfl, hs.define u name (heldIn_of_keeping hv), hR', hfresh, hworld⟩, ?_⟩
      exact .ok (Correspondence.value_mono later hv)
  create := by
    rintro ⟨a, R⟩ x y hxy params body s t ⟨rfl, hs, hR, hfresh, hworld⟩
    refine ⟨(s.arena.capture x, R), ⟨s.arena.grows_capture x, fun _ _ h => h⟩,
      ⟨rfl, hs.capture x, hR.capture hxy, congrArg (· + 1) hfresh, hworld⟩, .ok ?_⟩
    exact .closure hfresh rfl rfl ⟨hxy, Arena.held_capture (hR.alive hxy)⟩
  host := by
    rintro ⟨a, R⟩ vs ws hvs f s t ⟨rfl, hs, hR, hfresh, hworld⟩
    obtain ⟨hworld', hr⟩ := hh f.key vs ws s.world t.world
      (hvs.imp fun _ _ hv => Value.Rel.mono (fun _ _ _ => trivial) hv) hworld
    refine ⟨(s.arena, R), Correspondence.refl _ _, ⟨rfl, hs, hR, hfresh, hworld'⟩, ?_⟩
    exact hr.imp fun v w _ hvw => hvw.rel hvs

/-- Calls agree although the scope of the call is closed in one evaluation only. -/
theorem keeping_calls {alike : ω → ω → Prop} {host : Host κ ω}
    (hh : ∀ key, HostCall.Blind alike (host key)) (limit k : Nat) :
    (keeping κ alike).Calls (callClosure host limit k) (callKeeping host limit k) := by
  induction k with
  | zero => exact fun _ _ _ _ _ _ _ => .fail _
  | succ k ih =>
    rintro ⟨a, R⟩ f g vs ws hf hvs s t ⟨rfl, hs, hR, hfresh, hworld⟩
    have hheld : s.arena.Held f.scope := heldIn_of_keeping hf _ rfl
    have hargs : List.Forall₂ (Value.Rel R) vs ws := hvs.imp fun _ _ => keeping_value_rel
    obtain ⟨hparams, hbody, hscope⟩ :
        f.params = g.params ∧ f.body = g.body ∧ R f.scope g.scope := by
      cases hf with
      | closure _ hp hb hs => exact ⟨hp, hb, hs.1⟩
    obtain ⟨hopen, grows, hnew, halive⟩ :=
      State.openCall_sound hs hheld (heldIn_of_keeping_mem hvs)
    have opened := State.openCall_renamed hR hs.tidy hparams hscope hargs
    let x := (s.openCall f vs).1
    simp only [callClosure, callKeeping, ← hbody]
    obtain ⟨⟨b, R'⟩, ⟨hb, hRR'⟩, ⟨harena, hsound, hR', hfresh', hworld'⟩, hr⟩ :=
      (keeping_respects hh).evalWith ih f.body (p := ((s.openCall f vs).2.arena, _)) (x := x)
        (.inr ⟨rfl, rfl⟩) (s.openCall f vs).2 (t.openFresh g ws).2
        ⟨rfl, hopen, opened, hfresh, hworld⟩
    subst harena
    -- the reference keeps the scope of the call, so the renaming forgets it
    have kept := (grows.trans hb).release hnew
    have closed := hR'.restrict (hsound.release x) fun _ _ => Arena.scope?_of_release
    refine ⟨(_, fun u v => R' u v ∧ Arena.Alive _ u), ⟨kept, fun u v huv => ?_⟩,
      ⟨rfl, hsound.release x, closed, hfresh', hworld'⟩, ?_⟩
    · exact ⟨hRR' u v (.inl huv), kept.alive (hR.alive huv)⟩
    · refine hr.imp fun v w _ hvw => hvw.mono fun u u' hu => ?_
      have held := hu.2.release x
      exact ⟨⟨hu.1, held.alive⟩, held⟩

/-- Evaluation and its reference lead from related states to related states, and agree. -/
theorem eval_evalKeeping {alike : ω → ω → Prop} {host : Host κ ω}
    (hh : ∀ key, HostCall.Blind alike (host key)) (calls : CallDepth) (n : Node)
    {p : (keeping κ alike).Stage} {x y : ScopeId} (hxy : p.2 x y) :
    (keeping κ alike).Related (keeping κ alike).value p (eval host calls x n)
      (evalKeeping host calls y n) :=
  (keeping_respects hh).evalWith (keeping_calls hh calls.limit calls.remaining) n hxy

end ScopeLang
