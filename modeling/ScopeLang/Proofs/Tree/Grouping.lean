import Mathlib.Data.List.Induction
import Mathlib.Order.WithBot
import ScopeLang.Tree.Operator

/-!
# Grouping by precedence

A sequence of operands with connectives between them can be grouped by twos in many ways. Grouped by
precedence, a binary operator has on its left what binds at least as tight as itself and on its right
what binds tighter; an assignment has on its left what binds tighter and on its right anything. There is
exactly one such grouping: operands can be attached one after the other, each at the one place on the
right edge where it belongs.

## Main definitions

* `Grouping`, `Grouping.inorder` — operands grouped by twos, and what they read from left to right.
* `Grouping.ByPrecedence` — the groupings that respect precedence.
* `Grouping.attach`, `Grouping.ofInorder` — how to come by one.

## Main statements

* `Grouping.byPrecedence_ofInorder` — there is one for every sequence.
* `Grouping.ofInorder_inorder` — and there is no other.
-/

namespace ScopeLang

/-- Operands with connectives between them, grouped by twos. -/
inductive Grouping (α : Type) where
  | operand (a : α)
  | join (c : Connective) (left right : Grouping α)

namespace Grouping

variable {α : Type}

/-- From left to right: the first operand, and each connective with the operand behind it. -/
def inorder : Grouping α → α × List (Connective × α)
  | operand a => (a, [])
  | join c l r => (l.inorder.1, l.inorder.2 ++ (c, r.inorder.1) :: r.inorder.2)

/-- How tight a grouping binds: like its connective, and operands tightest. -/
def level : Grouping α → WithTop Nat
  | operand _ => ⊤
  | join c _ _ => .some c.precedence

/-- Precedence is respected, and operators of one precedence are grouped to the left, assignments to the
right. -/
def ByPrecedence : Grouping α → Prop
  | operand _ => True
  | join .assign l r => l.ByPrecedence ∧ r.ByPrecedence ∧ .some Connective.assign.precedence < l.level
  | join (.binary op) l r => l.ByPrecedence ∧ r.ByPrecedence ∧
    .some op.precedence ≤ l.level ∧ .some op.precedence < r.level

end Grouping

theorem BinaryOp.one_lt_precedence (op : BinaryOp) : 1 < op.precedence := by cases op <;> decide

namespace Connective

theorem precedence_pos (c : Connective) : 0 < c.precedence := by
  cases c with
  | assign => decide
  | binary op => exact Nat.lt_trans Nat.zero_lt_one op.one_lt_precedence

/-- Does the connective take the operand between it and the next one for itself? -/
def joinsBefore : Connective → Connective → Bool
  | assign, _ => false
  | binary op, next => next.precedence ≤ op.precedence

end Connective

namespace Grouping

variable {α : Type} {T l r : Grouping α} {c d : Connective} {a b : α} {p : Nat}

/-- A further operand behind a grouping. It is joined with what stands on the right edge, from where the
connectives bind tighter. -/
def attach (c : Connective) (b : α) : Grouping α → Grouping α
  | operand a => join c (operand a) (operand b)
  | join d l r =>
    if d.joinsBefore c then join c (join d l r) (operand b) else join d l (r.attach c b)

/-- Operands attached one after the other. -/
def ofInorder (first : α) (rest : List (Connective × α)) : Grouping α :=
  rest.foldl (fun T x => T.attach x.1 x.2) (operand first)

theorem inorder_attach (T : Grouping α) (c : Connective) (b : α) :
    (T.attach c b).inorder = (T.inorder.1, T.inorder.2 ++ [(c, b)]) := by
  induction T with
  | operand a => rfl
  | join d l r _ ih =>
    rw [attach]
    split
    · rfl
    · simp [inorder, ih]

theorem inorder_ofInorder (first : α) (rest : List (Connective × α)) :
    (ofInorder first rest).inorder = (first, rest) := by
  induction rest using List.reverseRecOn with
  | nil => rfl
  | append_singleton rest x ih =>
    rw [ofInorder, List.foldl_append]
    exact (inorder_attach _ x.1 x.2).trans (by rw [← ofInorder, ih])

theorem some_lt_level_join : .some p < (join c l r).level ↔ p < c.precedence := WithTop.coe_lt_coe

theorem some_le_level_join : .some p ≤ (join c l r).level ↔ p ≤ c.precedence := WithTop.coe_le_coe

theorem some_lt_level_attach (hT : .some p < T.level) (hc : p < c.precedence) :
    .some p < (T.attach c b).level := by
  cases T with
  | operand a => exact some_lt_level_join.2 hc
  | join d l r =>
    rw [attach]
    split
    · exact some_lt_level_join.2 hc
    · exact some_lt_level_join.2 (some_lt_level_join.1 hT)

/-- Attaching respects precedence. -/
theorem ByPrecedence.attach (h : T.ByPrecedence) (c : Connective) (b : α) :
    (T.attach c b).ByPrecedence := by
  induction T with
  | operand a => cases c <;> exact ⟨trivial, trivial, by simp [level]⟩
  | join d l r _ ih =>
    rw [Grouping.attach]
    split
    · rename_i hbefore
      cases d with
      | assign => cases hbefore
      | binary op =>
        have hle : c.precedence ≤ op.precedence := of_decide_eq_true hbefore
        cases c with
        | assign => exact ⟨h, trivial, some_lt_level_join.2 op.one_lt_precedence⟩
        | binary op' => exact ⟨h, trivial, some_le_level_join.2 hle, by simp [level]⟩
    · rename_i hbefore
      cases d with
      | assign => exact ⟨h.1, ih h.2.1, h.2.2⟩
      | binary op =>
        have hlt : op.precedence < c.precedence := by
          simpa [Connective.joinsBefore] using hbefore
        exact ⟨h.1, ih h.2.1, h.2.2.1, some_lt_level_attach h.2.2.2 hlt⟩

/-- Every sequence can be grouped by precedence. -/
theorem byPrecedence_ofInorder (first : α) (rest : List (Connective × α)) :
    (ofInorder first rest).ByPrecedence := by
  induction rest using List.reverseRecOn with
  | nil => trivial
  | append_singleton rest x ih =>
    rw [ofInorder, List.foldl_append]
    exact ih.attach x.1 x.2

/-! ### No other grouping -/

/-- No connective binds looser than the one at the top. -/
theorem ByPrecedence.lt_precedence (h : T.ByPrecedence) (hp : .some p < T.level) :
    ∀ x ∈ T.inorder.2, p < x.1.precedence := by
  induction T with
  | operand a => exact nofun
  | join c l r ihl ihr =>
    have hc : p < c.precedence := some_lt_level_join.1 hp
    cases c with
    | assign =>
      obtain rfl : p = 0 := by simpa [Connective.precedence] using hc
      exact fun x _ => x.1.precedence_pos
    | binary op =>
      obtain ⟨hl, hr, hlevel, hlevel'⟩ := h
      have below : (WithTop.some p) < .some op.precedence := WithTop.coe_lt_coe.2 hc
      intro x hx
      rcases List.mem_append.1 hx with hx | hx
      · exact ihl hl (below.trans_le hlevel) x hx
      · rcases List.mem_cons.1 hx with rfl | hx
        · exact hc
        · exact ihr hr (below.trans hlevel') x hx

/-- What binds tighter on the left is joined by a connective behind it. -/
theorem attach_of_lt_level (h : (join c T r).ByPrecedence) :
    T.attach c b = join c T (operand b) := by
  cases T with
  | operand a => rfl
  | join d l' r' =>
    refine if_pos ?_
    cases c with
    | assign =>
      have hd : 1 < d.precedence := some_lt_level_join.1 h.2.2
      cases d with
      | assign => exact absurd hd (by decide)
      | binary op => exact decide_eq_true hd.le
    | binary op =>
      have hd : op.precedence ≤ d.precedence := some_le_level_join.1 h.2.2.1
      cases d with
      | assign => exact absurd (op.one_lt_precedence.trans_le hd) (by decide)
      | binary op' => exact decide_eq_true hd

/-- Operands behind connectives that bind tighter belong to the right side. -/
theorem foldl_attach_join {rest : List (Connective × α)}
    (h : ∀ x ∈ rest, c.joinsBefore x.1 = false) (l r : Grouping α) :
    rest.foldl (fun T x => T.attach x.1 x.2) (join c l r) =
      join c l (rest.foldl (fun T x => T.attach x.1 x.2) r) := by
  induction rest generalizing r with
  | nil => rfl
  | cons x rest ih =>
    obtain ⟨hx, hrest⟩ := List.forall_mem_cons.1 h
    have first : (join c l r).attach x.1 x.2 = join c l (r.attach x.1 x.2) := by
      simp [attach, hx]
    rw [List.foldl_cons, first, ih hrest, List.foldl_cons]

/-- A grouping by precedence is determined by what it reads from left to right. -/
theorem ofInorder_inorder (h : T.ByPrecedence) : ofInorder T.inorder.1 T.inorder.2 = T := by
  induction T with
  | operand a => rfl
  | join c l r ihl ihr =>
    have hl : l.ByPrecedence := by cases c <;> exact h.1
    have hr : r.ByPrecedence := by cases c <;> exact h.2.1
    have right : ∀ x ∈ r.inorder.2, c.joinsBefore x.1 = false := by
      cases c with
      | assign => exact fun _ _ => rfl
      | binary op =>
        intro x hx
        exact decide_eq_false (Nat.not_le_of_lt (hr.lt_precedence h.2.2.2 x hx))
    calc ofInorder l.inorder.1 (l.inorder.2 ++ (c, r.inorder.1) :: r.inorder.2)
        = r.inorder.2.foldl (fun T x => T.attach x.1 x.2)
            ((ofInorder l.inorder.1 l.inorder.2).attach c r.inorder.1) := by
          simp [ofInorder]
      _ = r.inorder.2.foldl (fun T x => T.attach x.1 x.2) (join c l (operand r.inorder.1)) := by
          rw [ihl hl, attach_of_lt_level h]
      _ = join c l (ofInorder r.inorder.1 r.inorder.2) := foldl_attach_join right l _
      _ = join c l r := by rw [ihr hr]

end Grouping

end ScopeLang
