import ScopeLang.Proofs.Tree.Words

/-!
# Programs are printed as programs

A tree that was read is printed as a program, though perhaps as that of another tree: an assignment,
a conditional or a lambda takes what follows it, and infinity is printed as a name. The text is a
program nevertheless, because each phrase is printed as a phrase of the same grammar, which does not
care who takes what. Every word of the tree comes from the source, so it is printed as a word.

## Main definitions

* `TokenKind.CanOccur` — a text can have such a token.
* `Rereading.printed` — how numbers and texts are read again.
* `Node.Within` — the parts of a tree.

## Main statements

* `Node.derives_kinds` — every tree is printed as an expression.
* `parse_print_of_within` — every part of a program is printed as a program.
-/

namespace ScopeLang

open TokenKind (mark keyword operator)
open Decimal (magnitude isNegative plain)

/-! ### The words of a source -/

/-- A text can have such a token: no number has a sign. -/
def TokenKind.CanOccur : TokenKind → Prop
  | number x => isNegative x = false ∧ magnitude x ≠ .undefined
  | name x => isName x = true
  | text _ | keyword _ | mark _ | operator _ => True

theorem Lexeme.canOccur {l : List Char} {k : TokenKind} (h : Lexeme l k) : k.CanOccur := by
  cases h with
  | whole | decimal => exact Decimal.isNonneg_ofDigits _ _
  | name start parts word =>
    simp only [TokenKind.CanOccur, isName, String.toList_ofList, word]
    simpa [isNamePart, start] using parts
  | text | keyword | mark | operator => trivial

theorem Dissection.Of.canOccur {before text : List Char} {d : Dissection} (h : d.Of before text) :
    ∀ p ∈ d.pieces, p.token.kind.CanOccur := by
  induction h with
  | done => exact nofun
  | piece _ lexeme _ _ _ ih => exact List.forall_mem_cons.2 ⟨lexeme.canOccur, ih⟩

theorem canOccur_of_drain {source : String} {tokens : List Token} {ending : Ending}
    (h : (TokenStream.ofString source).drain = (tokens, ending)) :
    ∀ k ∈ tokens.map Token.kind, k.CanOccur := by
  have begins : (TokenStream.ofString source).cursor.pos = .behind [] := rfl
  obtain ⟨d, hd, hdrain⟩ := TokenStream.dissects_drain (.ofString source) rfl begins
  rw [h, Prod.mk.injEq] at hdrain
  rw [hdrain.1]
  simpa using hd.canOccur

/-- The words of a program can occur in a text, since they do so in its source. -/
theorem canOccur_of_parse {source : String} {tree : Node} (h : parse source = .ok tree) :
    ∀ k ∈ tree.words, k.CanOccur := fun k hk => by
  obtain ⟨tokens, pos, hdrain, hwords⟩ := words_of_parse h
  rw [hwords] at hk
  rcases mem_of_mem_saidAll hk with hk | rfl
  · exact canOccur_of_drain hdrain k hk
  · trivial

/-! ### Printed words -/

namespace Text

/-- What is read for the text of a character between quotes: an escape loses its backslash. -/
def reread (c : Char) : List Char :=
  match escape c with
  | '\\' :: cs => cs
  | cs => cs

end Text

/-- Infinity is read as a name, and texts without the backslashes of their escapes. -/
def Rereading.printed : Rereading where
  number x := if magnitude x = .infinite then .name "inf" else .number x
  text s := .text (String.ofList (s.toList.flatMap Text.reread))

/-- Characters that are neither quotes nor backslashes stand for themselves. -/
theorem Escaped.append {l body content : List Char} (hl : ∀ c ∈ l, c ≠ '\\' ∧ c ≠ '"')
    (h : Escaped false body content) : Escaped false (l ++ body) (l ++ content) := by
  induction l with
  | nil => exact h
  | cons c l ih =>
    obtain ⟨hc, hl⟩ := List.forall_mem_cons.1 hl
    exact .plain hc.1 hc.2 (ih hl)

namespace Text

theorem plain_of_mem_toDigits {n : Nat} : ∀ c ∈ Nat.toDigits 16 n, c ≠ '\\' ∧ c ≠ '"' := by
  have digit : ∀ d < 16, Nat.digitChar d ≠ '\\' ∧ Nat.digitChar d ≠ '"' := by decide
  induction n using Nat.strongRecOn with
  | ind n ih =>
    rw [Nat.toDigits_eq_if (by decide)]
    split
    · rename_i hn
      simp [digit n hn]
    · rename_i hn
      have last := digit (n % 16) (Nat.mod_lt n (by decide))
      simpa [or_imp, forall_and, last] using ih (n / 16) (by omega)

/-- A character is printed as itself, or as a backslash and what follows it. -/
theorem escape_cases (c : Char) : escape c = [c] ∧ c ≠ '\\' ∧ c ≠ '"' ∨
    ∃ x cs, escape c = '\\' :: x :: cs ∧ ∀ d ∈ cs, d ≠ '\\' ∧ d ≠ '"' := by
  fun_cases escape c with
  | case7 c hquote hslash =>
    exact .inl ⟨by simp_all, hslash, hquote⟩
  | case8 c =>
    refine .inr ⟨'u', _, rfl, ?_⟩
    simpa [or_imp, forall_and] using plain_of_mem_toDigits
  | _ => exact .inr ⟨_, [], rfl, nofun⟩

/-- Each character is printed so that it neither ends the text nor takes the character behind it. -/
theorem escaped_escape (c : Char) {body content : List Char} (h : Escaped false body content) :
    Escaped false (escape c ++ body) (reread c ++ content) := by
  obtain ⟨hc, hslash, hquote⟩ | ⟨x, cs, hc, hcs⟩ := escape_cases c
  · have same : reread c = [c] := by simp [reread, hc, hslash]
    rw [hc, same]
    exact .plain hslash hquote h
  · have bare : reread c = x :: cs := by simp [reread, hc]
    rw [hc, bare]
    exact .backslash (.taken (h.append hcs))

theorem escaped_quote (content : List Char) :
    Escaped false (content.flatMap escape) (content.flatMap reread) := by
  induction content with
  | nil => exact .nil
  | cons c content ih => exact escaped_escape c ih

end Text

/-- A word that can occur is printed as a word. -/
theorem Rereading.printed_reads {k : TokenKind} (h : k.CanOccur) : printed.Reads k := by
  cases k with
  | number x =>
    obtain ⟨sign, defined⟩ := h
    cases hx : magnitude x with
    | undefined => exact absurd hx defined
    | infinite =>
      have text : plain x = "inf" := by simp [plain, Decimal.render, sign, hx]
      have name : printed.number x = .name "inf" := by simp [printed, hx]
      simp only [Reads, text, name]
      exact lexeme_name (by decide)
    | finite m e =>
      have number : printed.number x = .number x := by simp [printed, hx]
      simp only [Reads, number]
      exact Decimal.lexeme_plain (by simp [Decimal.isFiniteNonneg, sign, hx])
  | text s =>
    have lexeme := Lexeme.text (Text.escaped_quote s.toList)
    simpa [Reads, Text.quote, printed] using lexeme
  | name x => exact h
  | keyword | mark | operator => trivial

/-! ### Printed phrases -/

/-- An expression before arguments is an expression: they belong to its last operand. -/
theorem Derives.callLast {v w : List TokenKind} (hv : Derives .expression v)
    (hw : Derives .arguments w) :
    Derives .expression (v ++ mark .openParen :: (w ++ [mark .closeParen])) := by
  -- an expression ends with an atom, and that is what is called
  cases hv with
  | atom hv => exact .atom (hv.call hw)
  | operator c hv hatom => simpa using hv.operator c (hatom.call hw)

theorem derives_kindsNames (ps : List String) {u : List TokenKind} (h : Leads .name .comma u) :
    Derives .params (u ++ Node.kindsNames ps) := by
  induction ps generalizing u with
  | nil => simpa [Node.kindsNames] using h.list
  | cons x ps ih =>
    have param : Derives (.items .name .comma) (u ++ [.name x]) := h.items_append (.name x)
    cases ps with
    | nil => exact .items param
    | cons y ps => simpa [Node.kindsNames] using ih (.items param)

/-- Numbers and texts are read again as operands. -/
structure Rereading.Derived (W : Rereading) : Prop where
  number (x : Float) : Derives .primary [W.number x]
  text (s : String) : Derives .primary [W.text s]

theorem Rereading.printed_derived : printed.Derived where
  number x := by
    simp only [printed]
    split
    · exact .var "inf"
    · exact .number x
  text s := .text _

namespace Node

variable {W : Rereading}

mutual

/-- Every tree is printed as an expression, wherever its parts come to belong. -/
theorem derives_kinds (hW : W.Derived) : (n : Node) → Derives .expression (n.kinds W)
  | number x => .atom (.primary (hW.number x))
  | text s => .atom (.primary (hW.text s))
  | bool true => .atom (.primary .trueWord)
  | bool false => .atom (.primary .falseWord)
  | var x => .atom (.primary (.var x))
  | assign t v => (t.derives_kinds hW).join .assign (v.derives_kinds hW)
  | binary op l r => by
    have joined := (l.derives_kinds hW).join (.binary op) (r.derives_kinds hW)
    simpa [kinds, Connective.symbol] using Derives.atom (.primary (.group joined))
  | ifThen c y =>
    .atom (.primary (.ifThen (c.derives_kinds hW) (.thenBranch (y.derives_kinds hW))))
  | ifElse c y n => by
    have yes := Derives.thenBranch (y.derives_kinds hW)
    exact .atom (.primary (.ifElse (c.derives_kinds hW) yes (n.derives_kinds hW)))
  | lambda ps b => .atom (.primary (.lambda (derives_kindsNames ps .nil) (b.derives_kinds hW)))
  | call f as => (f.derives_kinds hW).callLast (derives_kindsList hW .comma as)
  | seq xs => .atom (.primary (.block (derives_kindsList hW .semicolon xs)))

theorem derives_kindsList (hW : W.Derived) (m : Mark) :
    (ns : List Node) → Derives (.list .expression m) (kindsList W m ns)
  | [] => .empty
  | n :: ns => .items (derives_kindsTail hW m ns (.one (n.derives_kinds hW)))

theorem derives_kindsTail (hW : W.Derived) (m : Mark) : (ns : List Node) → ∀ {w : List TokenKind},
    Derives (.items .expression m) w → Derives (.items .expression m) (w ++ kindsTail W m ns)
  | [], w, h => by simpa [kindsTail] using h
  | n :: ns, w, h => by
    have more := derives_kindsTail hW m ns (h.more (n.derives_kinds hW))
    simpa [kindsTail] using more

end

/-! ### Parts of a tree -/

/-- The trees directly below a tree. -/
def parts : Node → List Node
  | number _ | text _ | bool _ | var _ => []
  | assign l r | binary _ l r | ifThen l r => [l, r]
  | ifElse c y n => [c, y, n]
  | lambda _ b => [b]
  | call f as => f :: as
  | seq xs => xs

/-- The tree is the other one or stands somewhere in it. -/
inductive Within : Node → Node → Prop where
  | refl (n : Node) : Within n n
  | part {k m n : Node} : m ∈ n.parts → Within k m → Within k n

/-- A part says nothing that the tree does not say. -/
theorem mem_words_of_mem_parts {k : TokenKind} {m n : Node} (hm : m ∈ n.parts) (hk : k ∈ m.words) :
    k ∈ n.words := by
  have all {ns : List Node} (hm : m ∈ ns) : k ∈ wordsAll ns := by
    rw [wordsAll_eq_flatMap]
    exact List.mem_flatMap.2 ⟨m, hm, hk⟩
  cases n with
  | number | text | bool | var => cases hm
  | assign | binary | ifThen | ifElse | lambda =>
    simp only [parts, List.mem_cons, List.not_mem_nil, or_false] at hm
    simp only [words, List.mem_append, List.mem_cons]
    grind
  | call f as =>
    rcases List.mem_cons.1 hm with rfl | hm
    · exact List.mem_append_left _ hk
    · exact List.mem_append_right _ (all hm)
  | seq xs => exact all hm

theorem Within.mem_words {k : TokenKind} {m n : Node} (h : m.Within n) (hk : k ∈ m.words) :
    k ∈ n.words := by
  induction h with
  | refl => exact hk
  | part hm _ ih => exact mem_words_of_mem_parts hm ih

end Node

/-- Tokens that form a program are read as one. -/
theorem exists_parse_of_derives {source : String} {tokens : List Token} {pos : Pos}
    (hdrain : (TokenStream.ofString source).drain = (tokens, .finished pos))
    (h : Derives .program (tokens.map Token.kind)) : ∃ tree, parse source = .ok tree := by
  obtain ⟨q, htakes, hq⟩ := Parser.taken_of_derives h .program rfl rfl {} (.program [])
  obtain ⟨tree, htree⟩ := Parser.Enclosing.program_finish hq pos
  refine ⟨tree, ?_⟩
  rw [parse, TokenStream.parse, Parser.run_fst, hdrain, htakes.readAll_eq rfl, htree]

/-- The text of a program, and of every tree in it, is a program. -/
theorem parse_print_of_within {source : String} {program n : Node}
    (h : parse source = .ok program) (hn : n.Within program) :
    ∃ tree, parse n.print = .ok tree := by
  have reads : ∀ k ∈ n.words, Rereading.printed.Reads k := fun k hk =>
    Rereading.printed_reads (canOccur_of_parse h k (hn.mem_words hk))
  obtain ⟨tokens, pos, htokens, hdrain⟩ := Node.lexes_print reads
  refine exists_parse_of_derives hdrain ?_
  rw [htokens]
  exact .items (.one (n.derives_kinds Rereading.printed_derived))

/-- The printed conditional loses its parentheses, so that the `else` goes to the inner one, and the
called function takes its arguments into its body. -/
theorem parse_print_of_within_moved_else :
    let f : Node := .lambda ["x"] (.var "x")
    let n : Node := .ifElse (.var "a") (.ifThen (.var "b") (.call f [.text "\"\n"])) (.var "c")
    parse "if a then (if b then (lambda(x) x)(\"\\\"\n\")) else c" = .ok (.seq [n]) ∧
      n.Within (.seq [n]) ∧
        ∃ tree, parse "if a then if b then lambda(x) x(\"\\\"\\n\") else c" = .ok tree := by
  intro f n
  have read : parse "if a then (if b then (lambda(x) x)(\"\\\"\n\")) else c" =
      .ok (.seq [n]) := by cbv
  have inside : n.Within (.seq [n]) := .part List.mem_cons_self (.refl n)
  have text : n.print = "if a then if b then lambda(x) x(\"\\\"\\n\") else c" := by decide +kernel
  exact ⟨read, inside, text ▸ parse_print_of_within read inside⟩

end ScopeLang
