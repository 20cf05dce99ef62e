import Mathlib.Data.List.Basic
import ScopeLang.Proofs.Tree.Completeness
import ScopeLang.Proofs.Tree.Wording

/-!
# Trees that are read as they were printed

Assignments, conditionals and lambdas are printed with nothing around them, so their text takes all
that may follow it. A tree is faithful if no such text stands where something follows that it would
take. Behind the text of a faithful tree the reader has the last operand of the tree, and on its
stack the phrases around it; what ends the expression puts the tree together again.

## Main definitions

* `Node.isClosed`, `Node.endsOpen` — trees that take nothing that follows, and trees that take an
  `else`.
* `Node.isFaithful` — each part of the tree can stand where it is printed.
* `Node.pendings`, `Node.tip` — the tree as it lies on the stack behind its text.

## Main statements

* `Node.isRead_of_isFaithful` — a faithful tree is read as itself wherever it may stand.
* `parse_print_of_isFaithful` — the text of a faithful tree is the program of this tree.
-/

namespace ScopeLang

open TokenKind (mark keyword operator)
open ScopeLang.Parser

/-! ### Faithful trees -/

/-- The character is written between quotes as it is, or with a backslash only. -/
def Text.isShown (c : Char) : Bool := c == '"' || c == '\\' || Text.escape c == [c]

/-- The word of a tree is printed as a token that stands for it. -/
def TokenKind.isShown : TokenKind → Bool
  | number x => Decimal.isFiniteNonneg x
  | text s => s.toList.all Text.isShown
  | name x => isName x
  | keyword _ | mark _ | operator _ => true

namespace Node

/-- Does the text of the tree end by itself? -/
def isClosed : Node → Bool
  | number _ | text _ | bool _ | var _ | binary _ _ _ | call _ _ | seq _ => true
  | assign _ _ | ifThen _ _ | ifElse _ _ _ | lambda _ _ => false

/-- Does the text of the tree end within a conditional that lacks an `else`? -/
def endsOpen : Node → Bool
  | ifThen _ _ => true
  | ifElse _ _ n => n.endsOpen
  | lambda _ b => b.endsOpen
  | assign _ v => v.endsOpen
  | number _ | text _ | bool _ | var _ | binary _ _ _ | call _ _ | seq _ => false

def isAssign : Node → Bool
  | assign _ _ => true
  | _ => false

mutual

/-- Each part of the tree is printed where its text is read as this part. -/
def isPlaced : Node → Bool
  | number _ | text _ | bool _ | var _ => true
  | assign t v => t.isClosed && t.isPlaced && v.isPlaced
  | binary _ l r => l.isClosed && l.isPlaced && !r.isAssign && r.isPlaced
  | ifThen c y => c.isPlaced && y.isPlaced
  | ifElse c y n => c.isPlaced && !y.endsOpen && y.isPlaced && n.isPlaced
  | lambda _ b => b.isPlaced
  | call f as => f.isClosed && f.isPlaced && arePlaced as
  | seq xs => decide (2 ≤ xs.length) && arePlaced xs

def arePlaced : List Node → Bool
  | [] => true
  | n :: ns => n.isPlaced && arePlaced ns

end

/-- The tree can be printed so that it is read again. -/
def isFaithful (n : Node) : Bool := n.words.all TokenKind.isShown && n.isPlaced

end Node

theorem Text.toList_quote {s : String} (shown : s.toList.all isShown = true) :
    (quote s).toList = (TokenKind.text s).written := by
  have same (c : Char) (hc : isShown c = true) : escape c = guarded c := by
    by_cases hquote : c = '"' ∨ c = '\\'
    · rcases hquote with rfl | rfl <;> rfl
    · rw [guarded, if_neg hquote]
      rw [not_or] at hquote
      simpa [isShown, hquote] using hc
  rw [quote, String.toList_ofList, TokenKind.written,
    List.flatMap_congr fun c hc => same c (List.all_eq_true.1 shown c hc)]

theorem Rereading.same_reads {k : TokenKind} (shown : k.isShown = true) : same.Reads k := by
  cases k with
  | number x => exact Decimal.lexeme_plain shown
  | text s =>
    have lexeme : Lexeme (TokenKind.text s).written (.text s) := lexeme_written rfl
    rwa [← Text.toList_quote shown] at lexeme
  | name x => exact shown
  | keyword | mark | operator => trivial

namespace Node

variable {n : Node} {done : List Node} {σ : List Pending}

/-! ### A tree on the stack -/

/-- What lies on the stack behind the text of a tree, innermost first. -/
def pendings : Node → List Pending
  | assign t v => v.pendings ++ [.operand t .assign]
  | ifThen c y => y.pendings ++ [.yes c]
  | ifElse c y n => n.pendings ++ [.no c y]
  | lambda ps b => b.pendings ++ [.body ps]
  | _ => []

/-- The last operand of a tree. -/
def tip : Node → Node
  | assign _ v => v.tip
  | ifThen _ y => y.tip
  | ifElse _ _ n => n.tip
  | lambda _ b => b.tip
  | n => n

theorem pendings_of_isClosed (h : n.isClosed = true) : n.pendings = [] := by
  cases n <;> first | rfl | cases h

theorem tip_of_isClosed (h : n.isClosed = true) : n.tip = n := by
  cases n <;> first | rfl | cases h

theorem isAssign_of_isClosed (h : n.isClosed = true) : n.isAssign = false := by
  cases n <;> first | rfl | cases h

theorem isOpen_pendings (n : Node) : ∀ x ∈ n.pendings, x.isOpen = true := by
  fun_induction pendings n with
  | case1 t v ih => simpa [Pending.isOpen, or_imp, forall_and] using ih
  | case2 c y ih => simpa [Pending.isOpen, or_imp, forall_and] using ih
  | case3 c y n ih => simpa [Pending.isOpen, or_imp, forall_and] using ih
  | case4 ps b ih => simpa [Pending.isOpen, or_imp, forall_and] using ih
  | case5 => simp

/-- What ends the expression puts the tree together, unless it is an `else` that belongs to the
tree. -/
theorem settle_pendings {t : Token} (n : Node)
    (h : t.kind = keyword .elseWord → n.endsOpen = false) :
    settle done t n.tip (n.pendings ++ σ) = settle done t n σ := by
  fun_induction pendings n generalizing σ with
  | case1 a v ih =>
    rw [tip, List.append_assoc, ih h]
    rfl
  | case2 c y ih =>
    have other : t.kind ≠ keyword .elseWord := fun ht => by simpa [endsOpen] using h ht
    rw [tip, List.append_assoc, ih fun ht => absurd ht other, List.singleton_append, settle_yes other]
  | case3 c y n ih =>
    rw [tip, List.append_assoc, ih h]
    rfl
  | case4 ps b ih =>
    rw [tip, List.append_assoc, ih h]
    rfl
  | case5 n => cases n <;> simp_all [tip]

theorem settleEnd_pendings (n : Node) :
    settleEnd done n.tip (n.pendings ++ σ) = settleEnd done n σ := by
  fun_induction pendings n generalizing σ with
  | case1 t v ih | case2 c y ih | case3 c y n ih | case4 ps b ih =>
    rw [tip, List.append_assoc, ih]
    rfl
  | case5 n => cases n <;> simp_all [tip]

/-- A token that continues no expression hands the whole tree to what waits for it. -/
theorem feed_pendings {t : Token} (n : Node) (hparen : t.kind ≠ mark .openParen)
    (hop : ∀ s, t.kind ≠ operator s) (helse : t.kind = keyword .elseWord → n.endsOpen = false) :
    feed ⟨done, n.pendings ++ σ, .continuation n.tip⟩ t = settle done t n σ :=
  (continueWith_eq_settle hparen hop).trans (settle_pendings n helse)

/-! ### Reading trees -/

/-- The tokens of the tree are read as the tree, wherever it stands. An assignment does not stand behind
an operator, which would bind tighter. -/
def IsRead (n : Node) : Prop := ∀ done σ, (n.isAssign = true → ∀ m, reduce 1 m σ = (m, σ)) →
  Takes ⟨done, σ, .operand⟩ (n.kinds .same) ⟨done, n.pendings ++ σ, .continuation n.tip⟩

namespace IsRead

theorem closed (h : n.IsRead) (hn : n.isClosed = true) (done : List Node) (σ : List Pending) :
    Takes ⟨done, σ, .operand⟩ (n.kinds .same) ⟨done, σ, .continuation n⟩ := by
  have whole := h done σ (by simp [isAssign_of_isClosed hn])
  rwa [pendings_of_isClosed hn, tip_of_isClosed hn] at whole

/-- The tree and a token that ends it. -/
theorem ended (h : n.IsRead) (bare : Bare σ) {k : TokenKind} (hparen : k ≠ mark .openParen)
    (hop : ∀ s, k ≠ operator s) (helse : k = keyword .elseWord → n.endsOpen = false) {q : Parser}
    (hq : ∀ t : Token, t.kind = k → settle done t n σ = .ok q) :
    Takes ⟨done, σ, .operand⟩ (n.kinds .same ++ [k]) q := by
  refine (h done σ fun _ m => ?_).trans (.one fun t ht => ?_)
  · rw [reduce]
    exact fun left op τ => bare left (.binary op) τ
  · rw [feed_pendings n (ht ▸ hparen) (fun s => ht ▸ hop s) (ht ▸ helse), hq t ht]

end IsRead

/-- Further items of a list. -/
theorem takes_kindsTail {l : Listed} {ns : List Node} (read : ∀ m ∈ ns, m.IsRead) (n : Node)
    (items : List Node) :
    Takes ⟨done, n.pendings ++ .item l items :: σ, .continuation n.tip⟩
      (kindsTail .same l.separator ns ++ [mark l.closer])
      ⟨done, σ, .continuation (l.build ((n :: items).reverse ++ ns))⟩ := by
  induction ns generalizing n items with
  | nil =>
    refine .one fun t ht => ?_
    rw [feed_pendings n (by cases l <;> simp [ht, Listed.closer]) (by simp [ht]) (by simp [ht])]
    simp [settle, ht]
  | cons m ns ih =>
    obtain ⟨hm, hns⟩ := List.forall_mem_cons.1 read
    have item : Takes ⟨done, σ, .laterItem l (n :: items)⟩ (m.kinds .same)
        ⟨done, m.pendings ++ .item l (n :: items) :: σ, .continuation m.tip⟩ :=
      (hm done _ fun _ k => by simp [reduce]).elsewhere
        ⟨m.pendings, m.tip, isOpen_pendings m, rfl⟩ fun _ _ => Enclosing.feed_item_eq
    have further := item.trans (ih hns m (n :: items))
    rw [← List.append_assoc] at further
    have separates (t : Token) (ht : t.kind = mark l.separator) :
        feed ⟨done, n.pendings ++ .item l items :: σ, .continuation n.tip⟩ t =
          .ok ⟨done, σ, .laterItem l (n :: items)⟩ := by
      rw [feed_pendings n (by cases l <;> simp [ht, Listed.separator]) (by simp [ht]) (by simp [ht])]
      cases l <;> simp [settle, ht, Listed.separator, Listed.closer]
    simpa [kindsTail] using Takes.cons separates further

/-- A list behind its opening mark. -/
theorem takes_kindsList {l : Listed} {ns : List Node} (read : ∀ n ∈ ns, n.IsRead) (done : List Node)
    (σ : List Pending) : Takes ⟨done, σ, .firstItem l⟩
      (kindsList .same l.separator ns ++ [mark l.closer]) ⟨done, σ, .continuation (l.build ns)⟩ := by
  cases ns with
  | nil => exact .one fun t ht => by simp [feed, itemOrCloser, ht]
  | cons n ns =>
    obtain ⟨hn, hns⟩ := List.forall_mem_cons.1 read
    have item : Takes ⟨done, σ, .firstItem l⟩ (n.kinds .same)
        ⟨done, n.pendings ++ .item l [] :: σ, .continuation n.tip⟩ :=
      (hn done _ fun _ k => by simp [reduce]).elsewhere
        ⟨n.pendings, n.tip, isOpen_pendings n, rfl⟩ fun _ _ => Enclosing.feed_item_eq
    simpa [kindsList] using item.trans (takes_kindsTail hns n [])

/-- Parameters behind the opening mark or a comma. -/
theorem takes_kindsNames (ps names : List String) (done : List Node) (σ : List Pending) :
    Takes ⟨done, σ, .laterParam names⟩ (kindsNames ps ++ [mark .closeParen])
      ⟨done, .body (names.reverse ++ ps) :: σ, .operand⟩ := by
  induction ps generalizing names with
  | nil => exact .one fun t ht => by simp [feed, paramOrCloser, ht]
  | cons x ps ih =>
    have param (t : Token) (ht : t.kind = .name x) : feed ⟨done, σ, .laterParam names⟩ t =
        .ok ⟨done, σ, .paramEnd (x :: names)⟩ := by simp [feed, paramOrCloser, ht]
    cases ps with
    | nil => exact .cons param (.one fun t ht => by simp [feed, ht])
    | cons y ps =>
      have further : Takes ⟨done, σ, .paramEnd (x :: names)⟩ (mark .comma :: _) _ :=
        .cons (fun t ht => by simp [feed, ht]) (ih (x :: names))
      simpa [kindsNames] using Takes.cons param further

/-- Behind the opening mark of the parameters the first one may come at once. -/
theorem takes_params (ps : List String) (done : List Node) (σ : List Pending) :
    Takes ⟨done, σ, .firstParam⟩ (kindsNames ps ++ [mark .closeParen])
      ⟨done, .body ps :: σ, .operand⟩ := by
  have later := takes_kindsNames ps [] done σ
  generalize kindsNames ps ++ [mark .closeParen] = w at later ⊢
  cases later with
  | cons hk rest => exact .cons hk rest

/-! ### Faithful trees are read -/

variable {c t v y l r : Node} {k : TokenKind}

theorem isRead_literal (hn : n.isClosed = true) (hkinds : n.kinds .same = [k])
    (h : ∀ done σ, ∀ t : Token, t.kind = k →
      startOperand done σ t = .ok ⟨done, σ, .continuation n⟩) : n.IsRead := fun done σ _ => by
  rw [pendings_of_isClosed hn, tip_of_isClosed hn, hkinds]
  exact .one (h done σ)

theorem isRead_assign (ht : t.IsRead) (closed : t.isClosed = true) (hv : v.IsRead) :
    (assign t v).IsRead := fun done σ bare => by
  have stays : reduce Connective.assign.precedence t σ = (t, σ) := bare rfl t
  have connective (k : Token) (hk : k.kind = operator Connective.assign.symbol) :
      feed ⟨done, σ, .continuation t⟩ k = .ok ⟨done, .operand t .assign :: σ, .operand⟩ := by
    simp [feed, continueWith, hk, Connective.ofSymbol?_symbol, stays]
  have value := hv done (.operand t .assign :: σ) fun _ m => by simp [reduce]
  have whole := (ht.closed closed done σ).trans (.cons connective value)
  simpa [kinds, pendings, tip] using whole

theorem isRead_binary (op : BinaryOp) (hl : l.IsRead) (closed : l.isClosed = true) (hr : r.IsRead)
    (other : r.isAssign = false) : (binary op l r).IsRead := fun done σ _ => by
  have opens (t : Token) (ht : t.kind = mark .openParen) :
      feed ⟨done, σ, .operand⟩ t = .ok ⟨done, .group :: σ, .operand⟩ := by
    simp [feed, startOperand, ht]
  have connective (t : Token) (ht : t.kind = operator op.symbol) :
      feed ⟨done, .group :: σ, .continuation l⟩ t =
        .ok ⟨done, .operand l (.binary op) :: .group :: σ, .operand⟩ := by
    have same : Connective.ofSymbol? op.symbol = some (.binary op) :=
      Connective.ofSymbol?_symbol (.binary op)
    simp [feed, continueWith, ht, same, reduce]
  have closes (t : Token) (ht : t.kind = mark .closeParen) :
      feed ⟨done, r.pendings ++ .operand l (.binary op) :: .group :: σ, .continuation r.tip⟩ t =
        .ok ⟨done, σ, .continuation (binary op l r)⟩ := by
    rw [feed_pendings r (by simp [ht]) (by simp [ht]) (by simp [ht])]
    simp [settle, ht, join]
  have right := hr done (.operand l (.binary op) :: .group :: σ) (by simp [other])
  have left := hl.closed closed done (.group :: σ)
  have whole := Takes.cons opens (left.trans (.cons connective (right.trans (.one closes))))
  simpa [kinds, pendings, tip] using whole

/-- A conditional up to its first branch. -/
theorem takes_test (hc : c.IsRead) (done : List Node) (σ : List Pending) :
    Takes ⟨done, σ, .operand⟩ (keyword .ifWord :: (c.kinds .same ++ [keyword .thenWord]))
      ⟨done, .yes c :: σ, .operand⟩ := by
  have opens (t : Token) (ht : t.kind = keyword .ifWord) :
      feed ⟨done, σ, .operand⟩ t = .ok ⟨done, .test :: σ, .operand⟩ := by
    simp [feed, startOperand, ht]
  refine .cons opens (hc.ended (by simp [Bare]) (by simp) (by simp) (by simp) fun t ht => ?_)
  simp [settle, ht]

theorem isRead_ifThen (hc : c.IsRead) (hy : y.IsRead) : (ifThen c y).IsRead := fun done σ _ => by
  have yes := hy done (.yes c :: σ) fun _ m => by simp [reduce]
  simpa [kinds, pendings, tip] using (takes_test hc done σ).trans yes

/-- The first branch does not take the `else`. -/
theorem isRead_ifElse (hc : c.IsRead) (hy : y.IsRead) (other : y.endsOpen = false) (hn : n.IsRead) :
    (ifElse c y n).IsRead := fun done σ _ => by
  have yes : Takes ⟨done, .yes c :: σ, .operand⟩ (y.kinds .same ++ [keyword .elseWord])
      ⟨done, .no c y :: σ, .operand⟩ :=
    hy.ended (by simp [Bare]) (by simp) (by simp) (fun _ => other) fun t ht => by simp [settle, ht]
  have no := hn done (.no c y :: σ) fun _ m => by simp [reduce]
  simpa [kinds, pendings, tip] using (takes_test hc done σ).trans (yes.trans no)

theorem isRead_lambda (ps : List String) (hn : n.IsRead) :
    (lambda ps n).IsRead := fun done σ _ => by
  have word (t : Token) (ht : t.kind = keyword .lambdaWord) :
      feed ⟨done, σ, .operand⟩ t = .ok ⟨done, σ, .paramsOpen⟩ := by simp [feed, startOperand, ht]
  have opens (t : Token) (ht : t.kind = mark .openParen) :
      feed ⟨done, σ, .paramsOpen⟩ t = .ok ⟨done, σ, .firstParam⟩ := by simp [feed, ht]
  have body := hn done (.body ps :: σ) fun _ m => by simp [reduce]
  have whole := Takes.cons word (.cons opens ((takes_params ps done σ).trans body))
  simpa [kinds, pendings, tip] using whole

theorem isRead_call {f : Node} {as : List Node} (hf : f.IsRead) (closed : f.isClosed = true)
    (has : ∀ n ∈ as, n.IsRead) : (call f as).IsRead := fun done σ _ => by
  have opens (t : Token) (ht : t.kind = mark .openParen) :
      feed ⟨done, σ, .continuation f⟩ t = .ok ⟨done, σ, .firstItem (.args f)⟩ := by
    simp [feed, continueWith, ht]
  have args : Takes ⟨done, σ, .firstItem (.args f)⟩ (kindsList .same .comma as ++ [mark .closeParen])
      ⟨done, σ, .continuation (.call f as)⟩ := takes_kindsList has done σ
  have whole := (hf.closed closed done σ).trans (.cons opens args)
  simpa [kinds, pendings, tip] using whole

theorem isRead_seq {xs : List Node} (hxs : ∀ n ∈ xs, n.IsRead) (two : 2 ≤ xs.length) :
    (seq xs).IsRead := fun done σ _ => by
  have stays : block xs = seq xs := by
    match xs, two with
    | _ :: _ :: _, _ => rfl
  have opens (t : Token) (ht : t.kind = mark .openBrace) :
      feed ⟨done, σ, .operand⟩ t = .ok ⟨done, σ, .firstItem .block⟩ := by
    simp [feed, startOperand, ht]
  have items : Takes ⟨done, σ, .firstItem .block⟩ (kindsList .same .semicolon xs ++ [mark .closeBrace])
      ⟨done, σ, .continuation (block xs)⟩ := takes_kindsList hxs done σ
  rw [stays] at items
  simpa [kinds, pendings, tip] using Takes.cons opens items

mutual

/-- A tree whose parts are placed where they can be read is read wherever it stands. -/
theorem isRead_of_isPlaced : (n : Node) → n.isPlaced = true → n.IsRead
  | number x, _ => isRead_literal (k := .number x) rfl rfl fun _ _ t ht => by simp [startOperand, ht]
  | text s, _ => isRead_literal (k := .text s) rfl rfl fun _ _ t ht => by simp [startOperand, ht]
  | var x, _ => isRead_literal rfl rfl fun _ _ t ht => by simp [startOperand, ht]
  | bool b, _ => isRead_literal rfl rfl fun _ _ t ht => by cases b <;> simp_all [startOperand]
  | assign t v, h => by
    simp only [isPlaced, Bool.and_eq_true] at h
    exact isRead_assign (isRead_of_isPlaced t h.1.2) h.1.1 (isRead_of_isPlaced v h.2)
  | binary op l r, h => by
    simp only [isPlaced, Bool.and_eq_true, Bool.not_eq_true'] at h
    exact isRead_binary op (isRead_of_isPlaced l h.1.1.2) h.1.1.1 (isRead_of_isPlaced r h.2) h.1.2
  | ifThen c y, h => by
    simp only [isPlaced, Bool.and_eq_true] at h
    exact isRead_ifThen (isRead_of_isPlaced c h.1) (isRead_of_isPlaced y h.2)
  | ifElse c y n, h => by
    simp only [isPlaced, Bool.and_eq_true, Bool.not_eq_true'] at h
    exact isRead_ifElse (isRead_of_isPlaced c h.1.1.1) (isRead_of_isPlaced y h.1.2) h.1.1.2
      (isRead_of_isPlaced n h.2)
  | lambda ps b, h => isRead_lambda ps (isRead_of_isPlaced b h)
  | call f as, h => by
    simp only [isPlaced, Bool.and_eq_true] at h
    exact isRead_call (isRead_of_isPlaced f h.1.2) h.1.1 (isRead_of_arePlaced as h.2)
  | seq xs, h => by
    simp only [isPlaced, Bool.and_eq_true, decide_eq_true_eq] at h
    exact isRead_seq (isRead_of_arePlaced xs h.2) h.1

theorem isRead_of_arePlaced : (ns : List Node) → arePlaced ns = true → ∀ n ∈ ns, n.IsRead
  | [], _ => nofun
  | n :: ns, h => by
    simp only [arePlaced, Bool.and_eq_true] at h
    exact List.forall_mem_cons.2 ⟨isRead_of_isPlaced n h.1, isRead_of_arePlaced ns h.2⟩

end

end Node

/-- The text of a faithful tree is the program that consists of this tree. -/
theorem parse_print_of_isFaithful {n : Node} (faithful : n.isFaithful = true) :
    parse n.print = .ok (.seq [n]) := by
  rw [Node.isFaithful, Bool.and_eq_true, List.all_eq_true] at faithful
  obtain ⟨tokens, pos, htokens, hdrain⟩ :=
    Node.lexes_print fun k hk => Rereading.same_reads (faithful.1 k hk)
  have takes := (n.isRead_of_isPlaced faithful.2 [] [] fun _ m => by simp [reduce]).elsewhere
    (p := {}) ⟨n.pendings, n.tip, n.isOpen_pendings, rfl⟩ fun _ _ h => h
  rw [parse, TokenStream.parse, run_fst, hdrain, takes.readAll_eq htokens]
  simp only [finish, Node.settleEnd_pendings]
  rfl

/-- A function with a conditional in it, whose first branch is called twice. -/
theorem parse_print_of_isFaithful_function :
    parse "f = lambda(x, y?) if (x <= 0.5) then g(\"\\\"#\\\\\")(x) else {y?; lambda() false}" =
      .ok (.seq [.assign (.var "f") (.lambda ["x", "y?"] (.ifElse
        (.binary .lessEqual (.var "x") (.number 0.5))
        (.call (.call (.var "g") [.text "\"#\\"]) [.var "x"])
        (.seq [.var "y?", .lambda [] (.bool false)])))]) := by
  let n : Node := .assign (.var "f") (.lambda ["x", "y?"] (.ifElse
        (.binary .lessEqual (.var "x") (.number 0.5))
        (.call (.call (.var "g") [.text "\"#\\"]) [.var "x"])
        (.seq [.var "y?", .lambda [] (.bool false)])))
  have whole := parse_print_of_isFaithful (n := n) (by decide +kernel)
  have text : n.print =
      "f = lambda(x, y?) if (x <= 0.5) then g(\"\\\"#\\\\\")(x) else {y?; lambda() false}" := by
    decide +kernel
  rwa [text] at whole

end ScopeLang
