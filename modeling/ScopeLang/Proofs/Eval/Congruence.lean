import ScopeLang.Eval.Basic

/-!
# Relations that evaluation keeps

Two evaluations of one tree, perhaps with different hosts, are put together from the same basic
actions in the same way. So a relation between actions that holds of the basic actions and goes with
binding one to another holds of evaluations too, if it holds of the calls that they make.

## Main definitions

* `Action.Congruence` — a relation between actions of that kind.

## Main statements

* `Action.Congruence.evalWith` — it holds of evaluations.
-/

namespace ScopeLang

variable {κ ω ω' : Type}

/-- A relation between actions that holds of the basic actions of evaluation and goes with binding. -/
structure Action.Congruence (host : Host κ ω) (host' : Host κ ω') where
  Rel : ∀ {α : Type}, Action κ ω α → Action κ ω' α → Prop
  pure : ∀ {α : Type} (a : α), Rel (Pure.pure a) (Pure.pure a)
  bind : ∀ {α β : Type} {x : Action κ ω α} {x' : Action κ ω' α} {f : α → Action κ ω β}
    {f' : α → Action κ ω' β}, Rel x x' → (∀ a, Rel (f a) (f' a)) → Rel (x >>= f) (x' >>= f')
  read : ∀ scope name, Rel (.readName scope name) (.readName scope name)
  assign : ∀ scope name v, Rel (.assignName scope name v) (.assignName scope name v)
  create : ∀ scope params body,
    Rel (.makeClosure scope params body) (.makeClosure scope params body)
  operate : ∀ (op : BinaryOp) (v w : Value κ),
    Rel (.ofExcept (op.apply v w)) (.ofExcept (op.apply v w))
  invalidTarget : ∀ {α : Type} target, Rel (.fail (.invalidTarget target) : Action κ ω α)
    (.fail (.invalidTarget target))
  notCallable : ∀ {α : Type} found, Rel (.fail (.notCallable found) : Action κ ω α)
    (.fail (.notCallable found))
  callHost : ∀ f args, Rel (.callHost host f args) (.callHost host' f args)

namespace Action.Congruence

variable {host : Host κ ω} {host' : Host κ ω'} {C : Congruence host host'} {call : Caller κ ω}
  {call' : Caller κ ω'}

/-- The relation holds of calls of closures. -/
def Calls (C : Congruence host host') (call : Caller κ ω) (call' : Caller κ ω') : Prop :=
  ∀ f args, C.Rel (call f args) (call' f args)

theorem Calls.applyWith (hc : C.Calls call call') (f : Value κ) (args : List (Value κ)) :
    C.Rel (applyWith host call f args) (applyWith host' call' f args) := by
  cases f with
  | closure f => exact hc f args
  | builtin f => exact C.callHost f args
  | number | text | bool => exact C.notCallable _

mutual

/-- The relation holds of evaluations if it holds of calls. -/
theorem evalWith (hc : C.Calls call call') (scope : ScopeId) :
    (n : Node) → C.Rel (evalWith host call scope n) (evalWith host' call' scope n)
  | .number _ | .text _ | .bool _ => by
    simp only [ScopeLang.evalWith]
    exact C.pure _
  | .var name => by
    simp only [ScopeLang.evalWith]
    exact C.read scope name
  | .lambda params body => by
    simp only [ScopeLang.evalWith]
    exact C.create scope params body
  | .assign target value => by
    simp only [ScopeLang.evalWith]
    cases target.name? with
    | none => exact C.invalidTarget _
    | some name => exact C.bind (evalWith hc scope value) fun v => C.assign scope name v
  | .binary op left right => by
    simp only [ScopeLang.evalWith]
    refine C.bind (evalWith hc scope left) fun v => ?_
    exact C.bind (evalWith hc scope right) fun w => C.operate op v w
  | .ifThen test yes => by
    simp only [ScopeLang.evalWith]
    refine C.bind (evalWith hc scope test) fun v => ?_
    cases v.countsAsTrue with
    | true => exact evalWith hc scope yes
    | false => exact C.pure _
  | .ifElse test yes no => by
    simp only [ScopeLang.evalWith]
    refine C.bind (evalWith hc scope test) fun v => ?_
    cases v.countsAsTrue with
    | true => exact evalWith hc scope yes
    | false => exact evalWith hc scope no
  | .call callee args => by
    simp only [ScopeLang.evalWith]
    refine C.bind (evalWith hc scope callee) fun f => ?_
    exact C.bind (evalAll hc scope args) fun vs => hc.applyWith f vs
  | .seq items => by
    simp only [ScopeLang.evalWith]
    exact evalSeq hc scope items _

theorem evalAll (hc : C.Calls call call') (scope : ScopeId) :
    (ns : List Node) → C.Rel (evalAll host call scope ns) (evalAll host' call' scope ns)
  | [] => by
    simp only [ScopeLang.evalAll]
    exact C.pure _
  | n :: ns => by
    simp only [ScopeLang.evalAll]
    refine C.bind (evalWith hc scope n) fun v => ?_
    exact C.bind (evalAll hc scope ns) fun vs => C.pure _

theorem evalSeq (hc : C.Calls call call') (scope : ScopeId) :
    (ns : List Node) → (last : Value κ) →
      C.Rel (evalSeq host call scope last ns) (evalSeq host' call' scope last ns)
  | [], last => by
    simp only [ScopeLang.evalSeq]
    exact C.pure last
  | n :: ns, _ => by
    simp only [ScopeLang.evalSeq]
    exact C.bind (evalWith hc scope n) fun v => evalSeq hc scope ns v

end

end Action.Congruence

end ScopeLang
