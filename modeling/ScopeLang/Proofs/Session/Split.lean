import ScopeLang.Proofs.Eval.Matching
import ScopeLang.Proofs.Session.Unobservable

/-!
# One program in several inputs

Whether the parts of a program are evaluated one after the other or all at once makes no difference.
Between the parts the session gives scopes back, so the parts come to use other slots than the whole
does; but the reference, which never gives a scope back, evaluates the parts and the whole alike, and
both sessions are renamings of it.

## Main definitions

* `Session.Attained` — the sessions that a client can come to.

## Main statements

* `evalWith_seq_append` — a sequence is evaluated part by part.
* `Session.split_unobservable` — a program split in two, and the whole of it.
-/

namespace ScopeLang

/-! ### Sequences -/

section

variable {κ ω : Type} (host : Host κ ω) (call : Caller κ ω) (scope : ScopeId) {p q : List Node}

theorem evalSeq_append (last : Value κ) (p q : List Node) :
    evalSeq host call scope last (p ++ q) =
      evalSeq host call scope last p >>= fun v => evalSeq host call scope v q := by
  induction p generalizing last with
  | nil => simp only [List.nil_append, evalSeq, pure_bind]
  | cons n ns ih => simp only [List.cons_append, evalSeq, ih, bind_assoc]

/-- Of the first part only the changes matter to the second. -/
theorem evalWith_seq_append (hq : q ≠ []) : evalWith host call scope (.seq (p ++ q)) =
    evalWith host call scope (.seq p) >>= fun _ => evalWith host call scope (.seq q) := by
  obtain ⟨n, ns, rfl⟩ := List.exists_cons_of_ne_nil hq
  simp only [evalWith, evalSeq_append, evalSeq]

theorem evalWith_seq_append_of_error (hq : q ≠ []) {s s' : State κ ω} {e : Error}
    (h : evalWith host call scope (.seq p) s = (.error e, s')) :
    evalWith host call scope (.seq (p ++ q)) s = (.error e, s') := by
  rw [evalWith_seq_append host call scope hq, Action.bind_apply, h]

theorem evalWith_seq_append_of_ok (hq : q ≠ []) {s s' : State κ ω} {v : Value κ}
    (h : evalWith host call scope (.seq p) s = (.ok v, s')) :
    evalWith host call scope (.seq (p ++ q)) s = evalWith host call scope (.seq q) s' := by
  rw [evalWith_seq_append host call scope hq, Action.bind_apply, h]

end

/-! ### Sessions -/

namespace Session

variable {ε ω : Type} {alike : ω → ω → Prop} {added : Extension ε ω} {s t : Session ε ω}
  {R : ScopeId → ScopeId → Prop} {p q : List Node}

/-- The sessions that commands lead to, whatever comes of them, while the host changes its own state
as it likes. -/
inductive Attained (alike : ω → ω → Prop) (added : Extension ε ω) : Session ε ω → Prop where
  | new (settings : Settings) {world : World ω} :
    alike world.extra world.extra → Attained alike added (.new settings world)
  | perform {s : Session ε ω} (c : Command ε) :
    Attained alike added s → Attained alike added (s.perform added c).2
  | host {s : Session ε ω} {world : World ω} : alike world.extra world.extra →
    Attained alike added s → Attained alike added { s with state := { s.state with world } }

theorem Attained.exists_alike (hhost : ∀ key, HostCall.Blind alike (added key))
    (h : Attained alike added s) : ∃ R t, s.Alike alike R t := by
  induction h with
  | new settings hw => exact ⟨_, _, alike_new settings hw⟩
  | perform c _ ih =>
    obtain ⟨R, t, h⟩ := ih
    obtain ⟨R', h', -⟩ := perform_alike hhost h c
    exact ⟨R', _, h'⟩
  | @host s world hw _ ih =>
    obtain ⟨R, t, hsettings, harena, hs, hR, hfresh, -⟩ := ih
    exact ⟨R, { t with state := { t.state with world } },
      hsettings, harena, hs, hR, hfresh, rfl, rfl, hw⟩

/-- After an evaluation nothing is in use without need. -/
theorem evaluateNode_swept (n : Node) :
    (s.evaluateNode added n).2.state.arena.Swept (s.evaluateNode added n).1 := by
  rw [evaluateNode_eq]
  exact Arena.alive_collect_iff_reached.1

/-- The reference evaluates a sequence part by part. -/
theorem evaluateNodeKeeping_append (hq : q ≠ []) {v : Value (Builtin ε)}
    (h : (t.evaluateNodeKeeping added (.seq p)).1 = .ok v) :
    t.evaluateNodeKeeping added (.seq (p ++ q)) =
      (t.evaluateNodeKeeping added (.seq p)).2.evaluateNodeKeeping added (.seq q) := by
  simp only [evaluateNodeKeeping, evalKeeping] at h ⊢
  cases hp : evalWith (Builtin.run added) _ .root (.seq p) t.state with
  | mk r state =>
    obtain rfl : r = .ok v := by simpa only [hp] using h
    rw [evalWith_seq_append_of_ok _ _ _ hq hp]
    rfl

/-- What fails part of the way fails in the same way as a whole. -/
theorem evaluateNode_append_of_error (hq : q ≠ []) {e : Error} {s' : Session ε ω}
    (h : s.evaluateNode added (.seq p) = (.error e, s')) :
    s.evaluateNode added (.seq (p ++ q)) = (.error e, s') := by
  rw [evaluateNode_eq] at h ⊢
  cases hp : eval (Builtin.run added) s.calls .root (.seq p) s.state with
  | mk r state =>
    rw [hp] at h
    obtain rfl : r = .error e := congrArg Prod.fst h
    have whole : eval (Builtin.run added) s.calls .root (.seq (p ++ q)) s.state = (.error e, state) :=
      evalWith_seq_append_of_error _ _ _ hq hp
    rw [whole, h]

/-- Two sessions that are alike to one reference after an evaluation. -/
theorem Alike.meet {R R' : ScopeId → ScopeId → Prop} {u : Session ε ω} {r r' r'' : Outcome ε}
    (h : s.Alike alike R u) (h' : t.Alike alike R' u) (hr : Agree (Value.Rel R) r r'')
    (hr' : Agree (Value.Rel R') r' r'') : Indistinguishable (some r, s) (some r', t) (Meet R R') := by
  obtain ⟨-, -, -, hR, -, hworld⟩ := h
  obtain ⟨-, -, -, hR', -, hworld'⟩ := h'
  have both := hR.meet hR'
  obtain ⟨b, c, hb, hc, hbc⟩ := both.scope both.root
  exact ⟨both, .some (hr.meet hr'), hworld.sink.trans hworld'.sink.symm, b, c, hb, hc, hbc.bindings⟩

/-- A program whose first part fails does as the first part. Otherwise the second part, evaluated
after the first one, cannot be told from the whole; and then the same scopes are in use, up to a
renaming of handles. -/
theorem split_unobservable (hhost : ∀ key, HostCall.Blind alike (added key))
    (h : Attained alike added s) (p q : List Node) (hq : q ≠ []) :
    (∀ e s', s.evaluateNode added (.seq p) = (.error e, s') →
      s.evaluateNode added (.seq (p ++ q)) = (.error e, s')) ∧
    ∀ v s', s.evaluateNode added (.seq p) = (.ok v, s') →
      let split := s'.perform added (.node (.seq q))
      let whole := s.perform added (.node (.seq (p ++ q)))
      ∃ R, Indistinguishable split whole R ∧
        split.2.state.arena.Matched R whole.2.state.arena ∧
        split.2.state.arena.liveCount = whole.2.state.arena.liveCount := by
  refine ⟨fun e s' => evaluateNode_append_of_error hq, fun v s' hv => ?_⟩
  obtain ⟨R, t, hst⟩ := h.exists_alike hhost
  obtain ⟨R₁, first, hfirst⟩ := evaluateNode_alike hhost hst (.seq p)
  obtain ⟨R₂, second, hsecond⟩ := evaluateNode_alike hhost first (.seq q)
  obtain ⟨R₃, whole, hwhole⟩ := evaluateNode_alike hhost hst (.seq (p ++ q))
  rw [hv] at hfirst second hsecond
  -- the reference comes to one state by both ways
  obtain ⟨w, hw⟩ := hfirst.exists_ok
  rw [evaluateNodeKeeping_append hq hw] at whole hwhole
  have matched := Arena.Renamed.matched second.state.2.2.1 whole.state.2.2.1 hsecond hwhole
    (evaluateNode_swept _) (evaluateNode_swept _)
  exact ⟨_, second.meet whole hsecond hwhole, matched, matched.liveCount_eq⟩

/-- The closure that the first part comes to is bound, and the second part calls and loses it. -/
theorem split_unobservable_after_echo :
    let inner : Node := .call (.lambda ["n"] (.lambda [] (.var "n"))) [.bool true]
    let p : List Node := [.assign (.var "f") (.call (.var "same") [inner])]
    let q : List Node := [.assign (.var "g") (.call (.var "f") []), .assign (.var "f") (.bool false)]
    let s : Session Unit Unit := (new {} { extra := () } : Session Unit Unit).define "same" ()
    let first := s.evaluateNode Extension.echo (.seq p)
    (∀ key, HostCall.Blind Eq (Extension.echo key)) ∧ Attained Eq Extension.echo s ∧ q ≠ [] ∧
      (∃ v, first.1 = .ok v) ∧
      ∃ R, Indistinguishable (first.2.perform Extension.echo (.node (.seq q)))
        (s.perform Extension.echo (.node (.seq (p ++ q)))) R := by
  intro inner p q s first
  have attained : Attained Eq Extension.echo s := .perform (.define "same" ()) (.new {} rfl)
  have nonempty : q ≠ [] := List.cons_ne_nil _ _
  have succeeds : first.1.isOk = true := by
    simp only [first, evaluateNode_eq]
    decide +kernel
  obtain ⟨v, hv⟩ : ∃ v, first.1 = .ok v := by
    cases hr : first.1 with
    | ok v => exact ⟨v, rfl⟩
    | error e => simp [hr, Except.isOk, Except.toBool] at succeeds
  obtain ⟨-, parts⟩ := split_unobservable Extension.echo_blind attained p q nonempty
  obtain ⟨R, same, -⟩ := parts v first.2 (Prod.ext hv rfl)
  exact ⟨Extension.echo_blind, attained, nonempty, ⟨v, hv⟩, R, same⟩

end Session

end ScopeLang
