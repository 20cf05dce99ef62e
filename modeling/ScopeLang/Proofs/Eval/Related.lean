import Mathlib.Data.List.Forall2
import ScopeLang.Eval.Basic

/-!
# Evaluations side by side

Two evaluations of one tree are compared by relating the states they pass through. What counts as
related changes as they go on, so the relation depends on a stage, and later stages relate at least
the handles that earlier ones did. If the basic actions and the calls keep states and values
related, so does evaluation as a whole: this is the only induction over trees that comparisons need.

## Main definitions

* `Value.Rel` — values that differ at most in the scopes that closures hold.
* `Correspondence` — stages with the states and handles that they relate.
* `Correspondence.Related` — actions that lead from related states to related states and results.

## Main statements

* `Correspondence.Respects.evalWith` — evaluation leads from related states to related ones.
-/

namespace ScopeLang

variable {κ ω : Type}

/-! ### Values -/

/-- Values that agree up to the scopes that closures hold; those are related by `R`. -/
inductive Value.Rel (R : ScopeId → ScopeId → Prop) : Value κ → Value κ → Prop where
  | number (x : Float) : Rel R (.number x) (.number x)
  | text (s : String) : Rel R (.text s) (.text s)
  | bool (b : Bool) : Rel R (.bool b) (.bool b)
  | builtin (f : HostFunction κ) : Rel R (.builtin f) (.builtin f)
  | closure {f g : Closure} : f.identity = g.identity → f.params = g.params → f.body = g.body →
    R f.scope g.scope → Rel R (.closure f) (.closure g)

/-- Outcomes that are the same error, or values that `P` relates. -/
inductive Agree {α β : Type} (P : α → β → Prop) : Except Error α → Except Error β → Prop where
  | ok {a : α} {b : β} : P a b → Agree P (.ok a) (.ok b)
  | error (e : Error) : Agree P (.error e) (.error e)

theorem Agree.imp {α β : Type} {P Q : α → β → Prop} {r : Except Error α} {r' : Except Error β}
    (h : Agree P r r') (hPQ : ∀ a b, r = .ok a → P a b → Q a b) : Agree Q r r' := by
  cases h with
  | ok h => exact .ok (hPQ _ _ rfl h)
  | error e => exact .error e

namespace Value.Rel

variable {R R' : ScopeId → ScopeId → Prop} {v w v' w' : Value κ}

theorem mono (hR : ∀ x y, R x y → R' x y) (h : Rel R v w) : Rel R' v w := by
  cases h with
  | closure hi hp hb hs => exact .closure hi hp hb (hR _ _ hs)
  | _ => constructor

/-- A value without a closure is related to itself. -/
theorem of_scope?_eq_none (h : v.scope? = none) : Rel R v v := by
  cases v with
  | closure f => simp [scope?] at h
  | _ => constructor

/-- Values that differ in nothing, where the scopes that closures hold have a property. -/
theorem eq_and_iff {P : ScopeId → Prop} :
    Rel (fun x y => x = y ∧ P x) v w ↔ v = w ∧ ∀ x, v.scope? = some x → P x := by
  constructor
  · intro h
    cases h with
    | @closure f g hi hp hb hs =>
      obtain ⟨heq, hx⟩ := hs
      obtain ⟨i, ps, b, x⟩ := f
      obtain ⟨j, qs, c, y⟩ := g
      simp only at hi hp hb heq hx
      subst hi hp hb heq
      exact ⟨rfl, fun z hz => Option.some.inj hz ▸ hx⟩
    | _ => exact ⟨rfl, nofun⟩
  · rintro ⟨rfl, h⟩
    cases v with
    | closure f => exact .closure rfl rfl rfl ⟨rfl, h _ rfl⟩
    | _ => constructor

theorem forall₂_eq_and_iff {P : ScopeId → Prop} {vs ws : List (Value κ)} :
    List.Forall₂ (Rel fun x y => x = y ∧ P x) vs ws ↔
      vs = ws ∧ ∀ v ∈ vs, ∀ x, v.scope? = some x → P x := by
  induction vs generalizing ws with
  | nil => cases ws <;> simp
  | cons v vs ih =>
    cases ws with
    | nil => simp
    | cons w ws =>
      simp only [List.forall₂_cons, eq_and_iff, ih]
      grind

theorem countsAsTrue_eq (h : Rel R v w) : v.countsAsTrue = w.countsAsTrue := by
  cases h <;> rfl

theorem display_eq (h : Rel R v w) : v.display = w.display := by
  cases h with
  | closure _ hp => simp [display, hp]
  | _ => rfl

theorem describe_eq (h : Rel R v w) : v.describe = w.describe := by
  cases h with
  | closure _ hp => simp [describe, typeName, quoted, display, hp]
  | _ => rfl

theorem asNumber_eq (h : Rel R v w) : v.asNumber = w.asNumber := by
  have same := h.describe_eq
  cases h with
  | closure => simpa [asNumber] using same
  | _ => rfl

theorem asDivisor_eq (h : Rel R v w) : v.asDivisor = w.asDivisor := by
  simp only [asDivisor, h.asNumber_eq]

theorem same_eq (h : Rel R v w) (h' : Rel R v' w') : v.same v' = w.same w' := by
  cases h <;> cases h' <;> simp_all [same]

end Value.Rel

namespace BinaryOp

variable {R : ScopeId → ScopeId → Prop} {v w v' w' : Value κ}

theorem onNumbers_agree {f : Float → Float → Value κ} (hf : ∀ x y, (f x y).scope? = none)
    (h : v.Rel R w) (h' : v'.Rel R w') :
    Agree (Value.Rel R) (onNumbers f v v') (onNumbers f w w') := by
  unfold onNumbers
  rw [h.asNumber_eq, h'.asNumber_eq]
  cases w.asNumber with
  | error e => exact .error e
  | ok x =>
    cases w'.asNumber with
    | error e => exact .error e
    | ok y => exact .ok (.of_scope?_eq_none (hf x y))

theorem onDivision_agree (f : Float → Float → Float) (h : v.Rel R w) (h' : v'.Rel R w') :
    Agree (Value.Rel R) (onDivision f v v') (onDivision f w w') := by
  unfold onDivision
  rw [h.asNumber_eq, h'.asDivisor_eq]
  cases w.asNumber with
  | error e => exact .error e
  | ok x =>
    cases w'.asDivisor with
    | error e => exact .error e
    | ok y => exact .ok (.number _)

/-- Operators do not tell related values apart. -/
theorem apply_agree (op : BinaryOp) (h : v.Rel R w) (h' : v'.Rel R w') :
    Agree (Value.Rel R) (op.apply v v') (op.apply w w') := by
  cases op with
  | or | and =>
    simp only [apply, h.countsAsTrue_eq]
    cases w.countsAsTrue <;> exact .ok ‹_›
  | equal | notEqual =>
    simp only [apply, h.same_eq h']
    exact .ok (.bool _)
  | divide | modulo => exact onDivision_agree _ h h'
  | _ => exact onNumbers_agree (fun _ _ => rfl) h h'

end BinaryOp

/-! ### Correspondences -/

/-- Stages of two evaluations, and what each stage relates: states, the scopes in which trees may be
evaluated, and the scopes that closures may hold. -/
structure Correspondence (κ ω : Type) where
  Stage : Type
  le : Stage → Stage → Prop
  refl : ∀ p, le p p
  trans : ∀ {p q r}, le p q → le q r → le p r
  state : Stage → State κ ω → State κ ω → Prop
  scope : Stage → ScopeId → ScopeId → Prop
  handle : Stage → ScopeId → ScopeId → Prop
  scope_mono : ∀ {p q x y}, le p q → scope p x y → scope q x y
  handle_mono : ∀ {p q x y}, le p q → handle p x y → handle q x y

namespace Correspondence

variable {S : Correspondence κ ω} {p q : S.Stage}

/-- The values that a stage relates. -/
def value (S : Correspondence κ ω) (p : S.Stage) : Value κ → Value κ → Prop :=
  Value.Rel (S.handle p)

theorem value_mono (h : S.le p q) {v w : Value κ} (hv : S.value p v w) : S.value q v w :=
  hv.mono fun _ _ => S.handle_mono h

/-- Actions that lead from related states to states related at a later stage, with outcomes that
agree there. -/
def Related (S : Correspondence κ ω) {α β : Type} (P : S.Stage → α → β → Prop) (p : S.Stage)
    (x : Action κ ω α) (y : Action κ ω β) : Prop :=
  ∀ s t, S.state p s t →
    ∃ q, S.le p q ∧ S.state q (x s).2 (y t).2 ∧ Agree (P q) (x s).1 (y t).1

namespace Related

variable {α β γ δ : Type} {P : S.Stage → α → β → Prop} {Q : S.Stage → γ → δ → Prop}

theorem ofExcept {r : Except Error α} {r' : Except Error β} (h : Agree (P p) r r') :
    S.Related P p (.ofExcept r) (.ofExcept r') :=
  fun _ _ hst => ⟨p, S.refl p, hst, h⟩

theorem pure {a : α} {b : β} (h : P p a b) :
    S.Related P p (Pure.pure a : Action κ ω α) (Pure.pure b : Action κ ω β) :=
  ofExcept (.ok h)

theorem fail (e : Error) : S.Related P p (.fail e) (.fail e) :=
  fun _ _ hst => ⟨p, S.refl p, hst, .error e⟩

/-- One action after another; the second starts at the stage that the first one reached. -/
theorem bind {x : Action κ ω α} {y : Action κ ω β} {f : α → Action κ ω γ} {g : β → Action κ ω δ}
    (h : S.Related P p x y)
    (hfg : ∀ q a b, S.le p q → P q a b → S.Related Q q (f a) (g b)) :
    S.Related Q p (x >>= f) (y >>= g) := by
  intro s t hst
  obtain ⟨q, hpq, hst', hr⟩ := h s t hst
  simp only [Action.bind_apply]
  cases hx : x s with
  | mk r s' =>
    cases hy : y t with
    | mk r' t' =>
      simp only [hx, hy] at hst' hr
      cases hr with
      | error e => exact ⟨q, hpq, hst', .error e⟩
      | ok hab =>
        obtain ⟨q', hqq', hst'', hr'⟩ := hfg q _ _ hpq hab s' t' hst'
        exact ⟨q', S.trans hpq hqq', hst'', hr'⟩

end Related

/-- Calls of related closures with related arguments are related. -/
def Calls (S : Correspondence κ ω) (call call' : Caller κ ω) : Prop :=
  ∀ p f g vs ws, S.value p (.closure f) (.closure g) → List.Forall₂ (S.value p) vs ws →
    S.Related S.value p (call f vs) (call' g ws)

/-- The basic actions keep what a stage relates. -/
structure Respects (S : Correspondence κ ω) (host host' : Host κ ω) : Prop where
  read : ∀ {p x y}, S.scope p x y → ∀ name,
    S.Related S.value p (.readName x name) (.readName y name)
  assign : ∀ {p x y v w}, S.scope p x y → S.value p v w → ∀ name,
    S.Related S.value p (.assignName x name v) (.assignName y name w)
  create : ∀ {p x y}, S.scope p x y → ∀ params body,
    S.Related S.value p (.makeClosure x params body) (.makeClosure y params body)
  host : ∀ {p vs ws}, List.Forall₂ (S.value p) vs ws → ∀ f,
    S.Related S.value p (.callHost host f vs) (.callHost host' f ws)

namespace Respects

variable {host host' : Host κ ω} {call call' : Caller κ ω}

theorem applyWith (h : S.Respects host host') (hc : S.Calls call call') {v w : Value κ}
    (hv : S.value p v w) {vs ws : List (Value κ)} (hvs : List.Forall₂ (S.value p) vs ws) :
    S.Related S.value p (applyWith host call v vs) (applyWith host' call' w ws) := by
  have said := hv.describe_eq
  cases hv with
  | closure hi hp hb hs => exact hc p _ _ vs ws (.closure hi hp hb hs) hvs
  | builtin f => exact h.host hvs f
  | _ => exact .fail _

mutual

/-- Evaluation leads from related states to related states and outcomes. -/
theorem evalWith (h : S.Respects host host') (hc : S.Calls call call') {x y : ScopeId} :
    (n : Node) → {p : S.Stage} → S.scope p x y →
      S.Related S.value p (evalWith host call x n) (evalWith host' call' y n)
  | .number _, _, _ | .text _, _, _ | .bool _, _, _ => by
    simp only [ScopeLang.evalWith]
    exact .pure (by constructor)
  | .var name, _, hxy => h.read hxy name
  | .lambda params body, _, hxy => h.create hxy params body
  | .assign target value, _, hxy => by
    simp only [ScopeLang.evalWith]
    cases target.name? with
    | none => exact .fail _
    | some name =>
      refine (h.evalWith hc value hxy).bind fun q v w hpq hv => ?_
      exact h.assign (S.scope_mono hpq hxy) hv name
  | .binary op left right, _, hxy => by
    simp only [ScopeLang.evalWith]
    refine (h.evalWith hc left hxy).bind fun q v w hpq hv => ?_
    refine (h.evalWith hc right (S.scope_mono hpq hxy)).bind fun r v' w' hqr hv' => ?_
    exact .ofExcept (op.apply_agree (value_mono hqr hv) hv')
  | .ifThen test yes, _, hxy => by
    simp only [ScopeLang.evalWith]
    refine (h.evalWith hc test hxy).bind fun q v w hpq hv => ?_
    rw [hv.countsAsTrue_eq]
    cases w.countsAsTrue with
    | true => exact h.evalWith hc yes (S.scope_mono hpq hxy)
    | false => exact .pure (.bool false)
  | .ifElse test yes no, _, hxy => by
    simp only [ScopeLang.evalWith]
    refine (h.evalWith hc test hxy).bind fun q v w hpq hv => ?_
    rw [hv.countsAsTrue_eq]
    cases w.countsAsTrue with
    | true => exact h.evalWith hc yes (S.scope_mono hpq hxy)
    | false => exact h.evalWith hc no (S.scope_mono hpq hxy)
  | .call callee args, _, hxy => by
    simp only [ScopeLang.evalWith]
    refine (h.evalWith hc callee hxy).bind fun q v w hpq hv => ?_
    refine (h.evalAll hc args (S.scope_mono hpq hxy)).bind fun r vs ws hqr hvs => ?_
    exact h.applyWith hc (value_mono hqr hv) hvs
  | .seq items, _, hxy => by
    simp only [ScopeLang.evalWith]
    exact h.evalSeq hc items hxy (.bool false)

theorem evalAll (h : S.Respects host host') (hc : S.Calls call call') {x y : ScopeId} :
    (ns : List Node) → {p : S.Stage} → S.scope p x y →
      S.Related (fun q => List.Forall₂ (S.value q)) p (evalAll host call x ns)
        (evalAll host' call' y ns)
  | [], _, _ => by
    simp only [ScopeLang.evalAll]
    exact .pure .nil
  | n :: ns, _, hxy => by
    simp only [ScopeLang.evalAll]
    refine (h.evalWith hc n hxy).bind fun q v w hpq hv => ?_
    refine (h.evalAll hc ns (S.scope_mono hpq hxy)).bind fun r vs ws hqr hvs => ?_
    exact .pure (.cons (value_mono hqr hv) hvs)

theorem evalSeq (h : S.Respects host host') (hc : S.Calls call call') {x y : ScopeId} :
    (ns : List Node) → {p : S.Stage} → S.scope p x y → {last last' : Value κ} →
      S.value p last last' →
      S.Related S.value p (evalSeq host call x last ns) (evalSeq host' call' y last' ns)
  | [], _, _, _, _, hlast => by
    simp only [ScopeLang.evalSeq]
    exact .pure hlast
  | n :: ns, _, hxy, _, _, _ => by
    simp only [ScopeLang.evalSeq]
    refine (h.evalWith hc n hxy).bind fun q v w hpq hv => ?_
    exact h.evalSeq hc ns (S.scope_mono hpq hxy) hv

end

end Respects

end Correspondence

end ScopeLang
