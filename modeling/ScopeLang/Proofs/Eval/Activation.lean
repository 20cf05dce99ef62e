import ScopeLang.Eval.Machine

/-!
# Evaluations inside an evaluation

From the moment the machine begins with a tree to the moment it has its value, it goes through other
evaluations: of parts of the tree, and of the bodies of closures that are called on the way. The
former are smaller trees at the same depth. The latter may be any trees, but they are evaluated one
call deeper, and all calls that were entered and left since then have given their depth back.

## Main definitions

* `Node.size` — the number of nodes of a tree.
* `Machine.Inside` — the machines from the beginning of an evaluation until its value is there.

## Main statements

* `Machine.Inside.lex` — the calls left and the size of the tree decrease lexicographically.
-/

namespace ScopeLang

variable {κ ω : Type} {host : Host κ ω}

mutual

/-- The number of nodes of a tree. -/
def Node.size : Node → Nat
  | .number _ | .text _ | .bool _ | .var _ => 1
  | .assign target value => target.size + value.size + 1
  | .binary _ left right => left.size + right.size + 1
  | .ifThen test yes => test.size + yes.size + 1
  | .ifElse test yes no => test.size + yes.size + no.size + 1
  | .lambda _ body => body.size + 1
  | .call callee args => callee.size + Node.sizeAll args + 1
  | .seq items => Node.sizeAll items + 1

def Node.sizeAll : List Node → Nat
  | [] => 0
  | n :: ns => n.size + Node.sizeAll ns

end

theorem Node.size_le_sizeAll {n : Node} {ns : List Node} (h : n ∈ ns) :
    n.size ≤ Node.sizeAll ns := by
  induction ns with
  | nil => simp at h
  | cons m ns ih =>
    rw [Node.sizeAll]
    rcases List.mem_cons.1 h with rfl | h
    · omega
    · have := ih h
      omega

/-- The trees that are still to be evaluated. -/
def Frame.nodes : Frame κ → List Node
  | .right _ n _ => [n]
  | .branch yes no _ => yes :: no.toList
  | .callee rest _ | .arg _ _ rest _ | .item rest _ => rest
  | .assign _ _ | .operate _ _ | .leave _ => []

namespace Machine

variable {a m : Machine κ ω} {k l : Nat}

/-- The value of an evaluation that began with machine `a` is there. -/
def Returned (a m : Machine κ ω) : Prop := m.frames = a.frames ∧ ∃ r, m.control = .give r

/-- The machines after `a` until its value is there. -/
inductive Inside (host : Host κ ω) (a : Machine κ ω) : Machine κ ω → Prop where
  | first : Inside host a (a.step host)
  | next {m : Machine κ ω} : Inside host a m → ¬ Returned a m → Inside host a (m.step host)

/-- Pending work inside `l` calls; outside all of them the trees are smaller than `k`. -/
inductive Above (k : Nat) : Nat → List (Frame κ) → Prop where
  | nil : Above k 0 []
  | leave {l : Nat} {scope : ScopeId} {fs : List (Frame κ)} :
    Above k l fs → Above k (l + 1) (.leave scope :: fs)
  | frame {l : Nat} {f : Frame κ} {fs : List (Frame κ)} : (∀ scope, f ≠ .leave scope) →
    (l = 0 → ∀ n ∈ f.nodes, n.size < k) → Above k l fs → Above k l (f :: fs)

/-- The machine works `l` calls inside the evaluation that began with `a`, on top of its pending
work. -/
structure Within (k : Nat) (a m : Machine κ ω) (l : Nat) : Prop where
  frames : ∃ fs, m.frames = fs ++ a.frames ∧ Above k l fs
  depth : m.calls.depth = a.calls.depth + l
  limit : m.calls.limit = a.calls.limit
  room : 0 < l → a.calls.depth < a.calls.limit

/-- Outside all calls since `a` the tree that is evaluated is smaller than `k`. -/
def Bounded (k : Nat) (a m : Machine κ ω) : Prop :=
  ∃ l, Within k a m l ∧ ∀ n scope, m.control = .eval n scope → l = 0 → n.size < k

theorem within_self (a : Machine κ ω) : Within k a a 0 :=
  ⟨⟨[], rfl, .nil⟩, rfl, rfl, fun h => absurd h (Nat.lt_irrefl 0)⟩

namespace Within

theorem perform (h : Within k a m l) (x : Action κ ω (Value κ)) : Bounded k a (m.perform x) :=
  ⟨l, ⟨h.frames, h.depth, h.limit, h.room⟩, fun _ _ hc => nomatch hc⟩

theorem visit (h : Within k a m l) {n : Node} (hn : l = 0 → n.size < k) (scope : ScopeId) :
    Bounded k a (m.visit n scope) := by
  refine ⟨l, ⟨h.frames, h.depth, h.limit, h.room⟩, fun n' scope' hc => ?_⟩
  cases hc
  exact hn

theorem push (h : Within k a m l) {f : Frame κ} (hf : ∀ scope, f ≠ .leave scope)
    (hn : l = 0 → ∀ n ∈ f.nodes, n.size < k) : Within k a (m.push f) l := by
  obtain ⟨fs, hfs, above⟩ := h.frames
  exact ⟨⟨f :: fs, by simp [Machine.push, hfs], .frame hf hn above⟩, h.depth, h.limit, h.room⟩

/-- To evaluate a part of a tree while other parts wait. -/
theorem visitUnder (h : Within k a m l) {f : Frame κ} (hf : ∀ scope, f ≠ .leave scope) {n : Node}
    (hn : l = 0 → ∀ n' ∈ n :: f.nodes, n'.size < k) (scope : ScopeId) :
    Bounded k a ((m.push f).visit n scope) := by
  have waiting : Within k a (m.push f) l := by
    apply h.push hf
    intro hl n' hmem
    exact hn hl n' (List.mem_cons_of_mem n hmem)
  exact waiting.visit (fun hl => hn hl n List.mem_cons_self) scope

theorem visitItems (h : Within k a m l) (last : Value κ) {items : List Node}
    (hn : l = 0 → ∀ n ∈ items, n.size < k) (scope : ScopeId) :
    Bounded k a (m.visitItems last items scope) := by
  cases items with
  | nil => exact h.perform (pure last)
  | cons n ns => exact h.visitUnder (by simp) hn scope

/-- A call is entered only if there is room for it, and leaves less room. -/
theorem call (h : Within k a m l) (f : Value κ) (args : List (Value κ)) :
    Bounded k a (m.call host f args) := by
  cases f with
  | closure c =>
    by_cases room : m.calls.depth < m.calls.limit
    · obtain ⟨fs, hfs, above⟩ := h.frames
      have hd := h.depth
      have hl := h.limit
      have entered : Within k a (m.call host (.closure c) args) (l + 1) := by
        simp only [Machine.call, room, if_true]
        refine { frames := ?frames, depth := ?depth, limit := hl, room := ?room }
        case frames => exact ⟨_ :: fs, by rw [hfs]; rfl, .leave above⟩
        case depth =>
          simp only [CallDepth.enter]
          omega
        case room =>
          intro _
          omega
      exact ⟨l + 1, entered, fun _ _ _ hl => absurd hl (Nat.succ_ne_zero l)⟩
    · simp only [Machine.call, room, if_false]
      exact h.perform _
  | builtin | number | text | bool =>
    simp only [Machine.call]
    exact h.perform _

theorem visitArgs (h : Within k a m l) (f : Value κ) (done : List (Value κ)) {args : List Node}
    (hn : l = 0 → ∀ n ∈ args, n.size < k) (scope : ScopeId) :
    Bounded k a (m.visitArgs host f done args scope) := by
  cases args with
  | nil => exact h.call _ _
  | cons n ns => exact h.visitUnder (by simp) hn scope

/-- Beginning with a tree leads to smaller ones. -/
theorem begin (h : Within k a m l) {n : Node} (hn : l = 0 → n.size ≤ k) (scope : ScopeId) :
    Bounded k a (m.begin n scope) := by
  cases n with
  | number | text | bool | var | lambda =>
    simp only [Machine.begin]
    exact h.perform _
  | assign target value =>
    simp only [Machine.begin]
    cases target.name? with
    | none => exact h.perform _
    | some x =>
      refine h.visitUnder (by simp) (fun hl => ?_) scope
      have := hn hl
      simp only [Node.size] at this
      simp only [Frame.nodes, List.forall_mem_singleton]
      omega
  | binary op left right =>
    refine h.visitUnder (by simp) (fun hl => ?_) scope
    have := hn hl
    simp only [Node.size] at this
    suffices left.size < k ∧ right.size < k by simpa [Frame.nodes] using this
    omega
  | ifThen test yes =>
    refine h.visitUnder (by simp) (fun hl => ?_) scope
    have := hn hl
    simp only [Node.size] at this
    suffices test.size < k ∧ yes.size < k by simpa [Frame.nodes] using this
    omega
  | ifElse test yes no =>
    refine h.visitUnder (by simp) (fun hl => ?_) scope
    have := hn hl
    simp only [Node.size] at this
    suffices test.size < k ∧ yes.size < k ∧ no.size < k by simpa [Frame.nodes] using this
    omega
  | call callee args =>
    refine h.visitUnder (by simp) (fun hl n hmem => ?_) scope
    have := hn hl
    rw [Node.size] at this
    rcases List.mem_cons.1 hmem with rfl | hmem
    · omega
    · have hle : n.size ≤ Node.sizeAll args := Node.size_le_sizeAll hmem
      omega
  | seq items =>
    refine h.visitItems _ (fun hl n hmem => ?_) scope
    have hle := Node.size_le_sizeAll hmem
    have := hn hl
    rw [Node.size] at this
    omega

/-- To use a value leads to trees that were pending, or into a call. -/
theorem useValue (h : Within k a m l) {f : Frame κ} (hf : ∀ scope, f ≠ .leave scope)
    (hn : l = 0 → ∀ n ∈ f.nodes, n.size < k) (v : Value κ) :
    Bounded k a (m.useValue host v f) := by
  cases f with
  | assign | operate =>
    simp only [Machine.useValue]
    exact h.perform _
  | right op right scope =>
    exact h.visitUnder (f := .operate op v) (by simp) hn scope
  | branch yes no scope =>
    simp only [Machine.useValue]
    split
    · exact h.visit (fun hl => hn hl yes (by simp [Frame.nodes])) scope
    · cases no with
      | some n => exact h.visit (fun hl => hn hl n (by simp [Frame.nodes])) scope
      | none => exact h.perform _
  | callee args scope => exact h.visitArgs v [] hn scope
  | arg f done rest scope => exact h.visitArgs f (v :: done) hn scope
  | item rest scope => exact h.visitItems v hn scope
  | leave scope => exact absurd rfl (hf scope)

end Within

/-- A step inside an evaluation keeps to its bounds. -/
theorem Bounded.step (h : Bounded k a m) (going : ¬ Returned a m) : Bounded k a (m.step host) := by
  obtain ⟨l, ⟨⟨fs, hfs, above⟩, hdepth, hlimit, hroom⟩, hcontrol⟩ := h
  obtain ⟨control, frames, calls, s⟩ := m
  obtain rfl : frames = fs ++ a.frames := hfs
  cases control with
  | eval n scope =>
    exact Within.begin ⟨⟨fs, rfl, above⟩, hdepth, hlimit, hroom⟩
      (fun hl => Nat.le_of_lt (hcontrol n scope rfl hl)) scope
  | give r =>
    cases above with
    | nil => exact absurd ⟨rfl, r, rfl⟩ going
    | @leave l scope fs above =>
      -- the call at the top ends with a value or an error and gives its depth back
      have left : Bounded k a (leaveCall ⟨.give r, fs ++ a.frames, calls, s⟩ scope) := by
        refine ⟨l, ⟨⟨fs, rfl, above⟩, ?_, hlimit, fun _ => hroom (Nat.succ_pos l)⟩,
          fun _ _ hc => nomatch hc⟩
        simp only [leaveCall, CallDepth.leave] at hdepth ⊢
        omega
      cases r <;> exact left
    | @frame l f fs hf hn above =>
      have rest : Within k a ⟨.give r, fs ++ a.frames, calls, s⟩ l :=
        ⟨⟨fs, rfl, above⟩, hdepth, hlimit, hroom⟩
      cases r with
      | ok v => exact rest.useValue hf hn v
      | error e =>
        cases f with
        | leave scope => exact absurd rfl (hf scope)
        | _ => exact ⟨l, rest, fun _ _ hc => nomatch hc⟩

variable {n : Node} {scope : ScopeId}

theorem Inside.bounded (h : Inside host a m) (ha : a.control = .eval n scope) :
    Bounded n.size a m := by
  induction h with
  | first =>
    rw [Machine.step, ha]
    exact (within_self a).begin (fun _ => Nat.le_refl _) scope
  | next _ going ih => exact ih.step going

/-- Every evaluation inside an evaluation has fewer calls left, or as many and a smaller tree. -/
theorem Inside.lex (h : Inside host a m) (ha : a.control = .eval n scope) {n' : Node}
    {scope' : ScopeId} (hm : m.control = .eval n' scope') :
    Prod.Lex (· < ·) (· < ·) (m.calls.remaining, n'.size) (a.calls.remaining, n.size) := by
  obtain ⟨l, ⟨-, hdepth, hlimit, hroom⟩, hcontrol⟩ := h.bounded ha
  simp only [CallDepth.remaining, hdepth, hlimit]
  rcases Nat.eq_zero_or_pos l with rfl | hl
  · exact .right _ (hcontrol n' scope' hm rfl)
  · have := hroom hl
    exact .left _ _ (by omega)

end Machine

end ScopeLang
