import ScopeLang.Tree.Node

/-!
# Trees with other names for parameters

A parameter `x` of one function gets the name `y`, in the list of parameters and wherever the body
means that parameter. To follow how such trees are evaluated, more trees are compared: in each, `x`
may be spelled `y` from the outside in, and every function that has a parameter `x` decides anew
whether it is spelled `y` in its body.

## Main definitions

* `Node.RenamesParam` — one parameter of one function in a tree gets another name.
* `Node.PartRenamed` — what becomes of a part of the tree then.
* `Node.Respelled` — trees that differ in how `x` is spelled.

## Main statements

* `RenamesParam.respelled` — to give a parameter another name is to spell it differently.
-/

namespace ScopeLang

/-- How a name is spelled on the other side, where `m` says whether `x` is spelled `y` there. -/
def respell (x y : String) (m : Bool) (name : String) : String :=
  if m = true ∧ name = x then y else name

section

variable {x y name other : String} {m : Bool}

@[simp] theorem respell_false : respell x y false name = name := by simp [respell]

theorem respell_of_ne (h : name ≠ x) : respell x y m name = name := by simp [respell, h]

/-- Different names stay different, as long as `y` is none of them. -/
theorem respell_inj (h : name ≠ y) (h' : other ≠ y) :
    respell x y m name = respell x y m other ↔ name = other := by
  unfold respell
  grind

theorem map_respell_false (names : List String) : names.map (respell x y false) = names := by
  simp [funext fun name => @respell_false x y name]

theorem map_respell_of_not_mem {names : List String} (h : x ∉ names) :
    names.map (respell x y m) = names := by
  have same : ∀ name ∈ names, respell x y m name = id name := fun name hmem =>
    respell_of_ne fun heq => h (heq ▸ hmem)
  rw [List.map_congr_left same, List.map_id]

end

namespace Node

mutual

/-- All names in a tree. -/
def names : Node → List String
  | .number _ | .text _ | .bool _ => []
  | .var name => [name]
  | .assign target value => target.names ++ value.names
  | .binary _ left right => left.names ++ right.names
  | .ifThen test yes => test.names ++ yes.names
  | .ifElse test yes no => test.names ++ yes.names ++ no.names
  | .lambda params body => params ++ body.names
  | .call callee args => callee.names ++ namesAll args
  | .seq items => namesAll items

def namesAll : List Node → List String
  | [] => []
  | n :: ns => n.names ++ namesAll ns

end

mutual

/-- The tree with `y` for `x`, except in functions that have a parameter `x` of their own. -/
def rename (x y : String) : Node → Node
  | .number a => .number a
  | .text s => .text s
  | .bool b => .bool b
  | .var name => .var (respell x y true name)
  | .assign target value => .assign (target.rename x y) (value.rename x y)
  | .binary op left right => .binary op (left.rename x y) (right.rename x y)
  | .ifThen test yes => .ifThen (test.rename x y) (yes.rename x y)
  | .ifElse test yes no => .ifElse (test.rename x y) (yes.rename x y) (no.rename x y)
  | .lambda params body =>
    if x ∈ params then .lambda params body else .lambda params (body.rename x y)
  | .call callee args => .call (callee.rename x y) (renameAll x y args)
  | .seq items => .seq (renameAll x y items)

def renameAll (x y : String) : List Node → List Node
  | [] => []
  | n :: ns => n.rename x y :: renameAll x y ns

end

/-- The trees are the same but for one function. Its parameter `x` is called `y` in the second tree:
each time it is listed, and wherever it is meant in the body. -/
inductive RenamesParam (x y : String) : Node → Node → Prop where
  | here {params : List String} {body : Node} : x ∈ params →
    RenamesParam x y (.lambda params body)
      (.lambda (params.map (respell x y true)) (body.rename x y))
  | body {params : List String} {n n' : Node} : RenamesParam x y n n' →
    RenamesParam x y (.lambda params n) (.lambda params n')
  | target {n n' value : Node} : RenamesParam x y n n' →
    RenamesParam x y (.assign n value) (.assign n' value)
  | value {target n n' : Node} : RenamesParam x y n n' →
    RenamesParam x y (.assign target n) (.assign target n')
  | left {op : BinaryOp} {n n' right : Node} : RenamesParam x y n n' →
    RenamesParam x y (.binary op n right) (.binary op n' right)
  | right {op : BinaryOp} {left n n' : Node} : RenamesParam x y n n' →
    RenamesParam x y (.binary op left n) (.binary op left n')
  | testThen {n n' yes : Node} : RenamesParam x y n n' →
    RenamesParam x y (.ifThen n yes) (.ifThen n' yes)
  | yesThen {test n n' : Node} : RenamesParam x y n n' →
    RenamesParam x y (.ifThen test n) (.ifThen test n')
  | testElse {n n' yes no : Node} : RenamesParam x y n n' →
    RenamesParam x y (.ifElse n yes no) (.ifElse n' yes no)
  | yesElse {test n n' no : Node} : RenamesParam x y n n' →
    RenamesParam x y (.ifElse test n no) (.ifElse test n' no)
  | no {test yes n n' : Node} : RenamesParam x y n n' →
    RenamesParam x y (.ifElse test yes n) (.ifElse test yes n')
  | callee {n n' : Node} {args : List Node} : RenamesParam x y n n' →
    RenamesParam x y (.call n args) (.call n' args)
  | arg {callee n n' : Node} {before after : List Node} : RenamesParam x y n n' →
    RenamesParam x y (.call callee (before ++ n :: after)) (.call callee (before ++ n' :: after))
  | item {n n' : Node} {before after : List Node} : RenamesParam x y n n' →
    RenamesParam x y (.seq (before ++ n :: after)) (.seq (before ++ n' :: after))

/-- What becomes of a part of a tree when a parameter `x` of a function gets the name `y`. -/
inductive PartRenamed (x y : String) : Node → Node → Prop where
  /-- The function is somewhere else. -/
  | apart (n : Node) : PartRenamed x y n n
  /-- The function is in the part. -/
  | around {n n' : Node} : RenamesParam x y n n' → PartRenamed x y n n'
  /-- The part is in the body of the function. -/
  | within (n : Node) : PartRenamed x y n (n.rename x y)

mutual

/-- The trees differ in how `x` is spelled: in the second one it is spelled `y` if `m` holds. A
function with a parameter `x` decides anew how it is spelled in its body, but all functions must
come from the renaming of one parameter. No name in the first tree is spelled `y`. -/
inductive Respelled (x y : String) : Bool → Node → Node → Prop where
  | number {m : Bool} (a : Float) : Respelled x y m (.number a) (.number a)
  | text {m : Bool} (s : String) : Respelled x y m (.text s) (.text s)
  | bool {m : Bool} (b : Bool) : Respelled x y m (.bool b) (.bool b)
  | var {m : Bool} {name : String} : name ≠ y →
    Respelled x y m (.var name) (.var (respell x y m name))
  | assign {m : Bool} {target target' value value' : Node} : Respelled x y m target target' →
    Respelled x y m value value' → Respelled x y m (.assign target value) (.assign target' value')
  | binary {m : Bool} {left left' right right' : Node} (op : BinaryOp) :
    Respelled x y m left left' → Respelled x y m right right' →
      Respelled x y m (.binary op left right) (.binary op left' right')
  | ifThen {m : Bool} {test test' yes yes' : Node} : Respelled x y m test test' →
    Respelled x y m yes yes' → Respelled x y m (.ifThen test yes) (.ifThen test' yes')
  | ifElse {m : Bool} {test test' yes yes' no no' : Node} : Respelled x y m test test' →
    Respelled x y m yes yes' → Respelled x y m no no' →
      Respelled x y m (.ifElse test yes no) (.ifElse test' yes' no')
  | lambda {m m' : Bool} {params : List String} {body body' : Node} : y ∉ params →
    (x ∉ params → m' = m) → Respelled x y m' body body' →
      PartRenamed x y (.lambda params body) (.lambda (params.map (respell x y m')) body') →
        Respelled x y m (.lambda params body) (.lambda (params.map (respell x y m')) body')
  | call {m : Bool} {callee callee' : Node} {args args' : List Node} :
    Respelled x y m callee callee' → RespelledAll x y m args args' →
      Respelled x y m (.call callee args) (.call callee' args')
  | seq {m : Bool} {items items' : List Node} : RespelledAll x y m items items' →
    Respelled x y m (.seq items) (.seq items')

/-- Trees that differ in how `x` is spelled, one by one. -/
inductive RespelledAll (x y : String) : Bool → List Node → List Node → Prop where
  | nil {m : Bool} : RespelledAll x y m [] []
  | cons {m : Bool} {n n' : Node} {ns ns' : List Node} : Respelled x y m n n' →
    RespelledAll x y m ns ns' → RespelledAll x y m (n :: ns) (n' :: ns')

end

variable {x y : String}

/-- A function whose parameters have the same names on both sides. -/
theorem Respelled.lambda_of_map_eq {m m' : Bool} {params : List String} {body body' : Node}
    (hsame : params.map (respell x y m') = params) (hy : y ∉ params) (hx : x ∉ params → m' = m)
    (hbody : Respelled x y m' body body')
    (hpart : PartRenamed x y (.lambda params body) (.lambda params body')) :
    Respelled x y m (.lambda params body) (.lambda params body') := by
  have h : Respelled x y m (.lambda params body) (.lambda (params.map (respell x y m')) body') :=
    .lambda hy hx hbody (by rwa [hsame])
  rwa [hsame] at h

mutual

/-- A tree without `y` is spelled like itself. -/
theorem respelled_self : (n : Node) → y ∉ n.names → Respelled x y false n n
  | .number a, _ => .number a
  | .text s, _ => .text s
  | .bool b, _ => .bool b
  | .var name, h => by
    have hname : name ≠ y := by rintro rfl; simp [names] at h
    simpa using Respelled.var (x := x) (m := false) hname
  | .assign target value, h => by
    simp only [names, List.mem_append, not_or] at h
    exact .assign (respelled_self target h.1) (respelled_self value h.2)
  | .binary op left right, h => by
    simp only [names, List.mem_append, not_or] at h
    exact .binary op (respelled_self left h.1) (respelled_self right h.2)
  | .ifThen test yes, h => by
    simp only [names, List.mem_append, not_or] at h
    exact .ifThen (respelled_self test h.1) (respelled_self yes h.2)
  | .ifElse test yes no, h => by
    simp only [names, List.mem_append, not_or] at h
    exact .ifElse (respelled_self test h.1.1) (respelled_self yes h.1.2) (respelled_self no h.2)
  | .lambda params body, h => by
    simp only [names, List.mem_append, not_or] at h
    exact .lambda_of_map_eq (map_respell_false params) h.1 (fun _ => rfl) (respelled_self body h.2)
      (.apart _)
  | .call callee args, h => by
    simp only [names, List.mem_append, not_or] at h
    exact .call (respelled_self callee h.1) (respelledAll_self args h.2)
  | .seq items, h => .seq (respelledAll_self items h)

theorem respelledAll_self : (ns : List Node) → y ∉ namesAll ns → RespelledAll x y false ns ns
  | [], _ => .nil
  | n :: ns, h => by
    simp only [namesAll, List.mem_append, not_or] at h
    exact .cons (respelled_self n h.1) (respelledAll_self ns h.2)

end

mutual

/-- To put `y` for `x` in a tree without `y` is to spell `x` differently. -/
theorem respelled_rename : (n : Node) → y ∉ n.names → Respelled x y true n (n.rename x y)
  | .number a, _ => .number a
  | .text s, _ => .text s
  | .bool b, _ => .bool b
  | .var name, h => .var (by rintro rfl; simp [names] at h)
  | .assign target value, h => by
    simp only [names, List.mem_append, not_or] at h
    exact .assign (respelled_rename target h.1) (respelled_rename value h.2)
  | .binary op left right, h => by
    simp only [names, List.mem_append, not_or] at h
    exact .binary op (respelled_rename left h.1) (respelled_rename right h.2)
  | .ifThen test yes, h => by
    simp only [names, List.mem_append, not_or] at h
    exact .ifThen (respelled_rename test h.1) (respelled_rename yes h.2)
  | .ifElse test yes no, h => by
    simp only [names, List.mem_append, not_or] at h
    exact .ifElse (respelled_rename test h.1.1) (respelled_rename yes h.1.2)
      (respelled_rename no h.2)
  | .lambda params body, h => by
    simp only [names, List.mem_append, not_or] at h
    have part : PartRenamed x y (.lambda params body) ((Node.lambda params body).rename x y) :=
      .within _
    by_cases hx : x ∈ params
    · -- The inner parameter is spelled as before, and so is all that its body means by it.
      simp only [rename, if_pos hx] at part ⊢
      exact .lambda_of_map_eq (map_respell_false params) h.1 (absurd hx) (respelled_self body h.2)
        part
    · simp only [rename, if_neg hx] at part ⊢
      exact .lambda_of_map_eq (map_respell_of_not_mem hx) h.1 (fun _ => rfl)
        (respelled_rename body h.2) part
  | .call callee args, h => by
    simp only [names, List.mem_append, not_or] at h
    exact .call (respelled_rename callee h.1) (respelledAll_rename args h.2)
  | .seq items, h => .seq (respelledAll_rename items h)

theorem respelledAll_rename : (ns : List Node) → y ∉ namesAll ns →
    RespelledAll x y true ns (renameAll x y ns)
  | [], _ => .nil
  | n :: ns, h => by
    simp only [namesAll, List.mem_append, not_or] at h
    exact .cons (respelled_rename n h.1) (respelledAll_rename ns h.2)

end

theorem namesAll_append (ns ms : List Node) :
    namesAll (ns ++ ms) = namesAll ns ++ namesAll ms := by
  induction ns with
  | nil => rfl
  | cons n ns ih => simp [namesAll, ih]

theorem RespelledAll.append {m : Bool} {ns ns' ms ms' : List Node} (h : RespelledAll x y m ns ns')
    (h' : RespelledAll x y m ms ms') : RespelledAll x y m (ns ++ ms) (ns' ++ ms') := by
  induction ns generalizing ns' with
  | nil =>
    cases h
    exact h'
  | cons n ns ih =>
    cases h with
    | cons hn hns => exact .cons hn (ih hns)

/-- To give a parameter another name is to spell it differently. -/
theorem RenamesParam.respelled {n n' : Node} (h : n.RenamesParam x y n') (hy : y ∉ n.names) :
    Respelled x y false n n' := by
  induction h with simp only [names, namesAll, namesAll_append, List.mem_append, not_or] at hy
  | here hx => exact .lambda hy.1 (absurd hx) (respelled_rename _ hy.2) (.around (.here hx))
  | body h ih =>
    exact .lambda_of_map_eq (map_respell_false _) hy.1 (fun _ => rfl) (ih hy.2) (.around (.body h))
  | target _ ih => exact .assign (ih hy.1) (respelled_self _ hy.2)
  | value _ ih => exact .assign (respelled_self _ hy.1) (ih hy.2)
  | left _ ih => exact .binary _ (ih hy.1) (respelled_self _ hy.2)
  | right _ ih => exact .binary _ (respelled_self _ hy.1) (ih hy.2)
  | testThen _ ih => exact .ifThen (ih hy.1) (respelled_self _ hy.2)
  | yesThen _ ih => exact .ifThen (respelled_self _ hy.1) (ih hy.2)
  | testElse _ ih => exact .ifElse (ih hy.1.1) (respelled_self _ hy.1.2) (respelled_self _ hy.2)
  | yesElse _ ih => exact .ifElse (respelled_self _ hy.1.1) (ih hy.1.2) (respelled_self _ hy.2)
  | no _ ih => exact .ifElse (respelled_self _ hy.1.1) (respelled_self _ hy.1.2) (ih hy.2)
  | callee _ ih => exact .call (ih hy.1) (respelledAll_self _ hy.2)
  | arg _ ih =>
    exact .call (respelled_self _ hy.1)
      (.append (respelledAll_self _ hy.2.1) (.cons (ih hy.2.2.1) (respelledAll_self _ hy.2.2.2)))
  | item _ ih =>
    exact .seq (.append (respelledAll_self _ hy.1) (.cons (ih hy.2.1) (respelledAll_self _ hy.2.2)))

end Node

end ScopeLang
