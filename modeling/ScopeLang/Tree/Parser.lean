import ScopeLang.Token.Stream
import ScopeLang.Tree.Node

/-!
# Reading trees

The reader takes one token at a time and never goes back. What it has read and not yet used lies on
a stack of pending phrases, so that the nesting of a program is limited by nothing but the length of
its text.

    program    = [ expression { ";" expression } [ ";" ] ]
    expression = operand { connective operand }
    operand    = primary { "(" [ expression { "," expression } [ "," ] ] ")" }
    primary    = number | text | name | "true" | "false" | "(" expression ")"
               | "{" [ expression { ";" expression } [ ";" ] ] "}"
               | "if" expression ( "then" expression | block-first expression )
                   [ "else" expression ]
               | "lambda" "(" [ name { "," name } [ "," ] ] ")" expression

Conditionals and lambdas reach as far as they can; an `else` belongs to the nearest conditional that
lacks one.

## Main definitions

* `Parser.feed`, `Parser.finish` — the reader's reaction to a token and to the end of the input.
* `Parser.run` — reads a stream of tokens as a program; `Parser.readAll` does so for a list of
  tokens.
* `parse` — reads a source text as a program.
-/

namespace ScopeLang

/-- What a list of expressions between brackets belongs to. -/
inductive Listed where
  | block
  | args (callee : Node)

namespace Listed

def separator : Listed → Mark
  | block => .semicolon
  | args _ => .comma

def closer : Listed → Mark
  | block => .closeBrace
  | args _ => .closeParen

/-- The tree of the finished list. -/
def build : Listed → List Node → Node
  | block, items => .block items
  | args callee, items => .call callee items

end Listed

/-- A phrase that waits for the expression being read. Finished items of a list come last first. -/
inductive Pending where
  /-- The right operand of a connective. -/
  | operand (left : Node) (c : Connective)
  /-- The inside of a pair of parentheses. -/
  | group
  /-- An item of a list. -/
  | item (list : Listed) (done : List Node)
  /-- The test of a conditional. -/
  | test
  /-- The branch taken when the test holds. -/
  | yes (test : Node)
  /-- The branch taken otherwise. -/
  | no (test yes : Node)
  /-- The body of a lambda. -/
  | body (params : List String)

/-- What the reader waits for. -/
inductive Expecting where
  /-- An expression of the program, or the end of the input. -/
  | programItem
  /-- The beginning of an expression or operand. -/
  | operand
  /-- The first item of a list that was just opened, or its closing mark. -/
  | firstItem (list : Listed)
  /-- A further item of a list behind a separator, or its closing mark. -/
  | laterItem (list : Listed) (done : List Node)
  /-- What continues or ends an expression whose last operand so far is `node`. -/
  | continuation (node : Node)
  /-- The opening mark of a parameter list. -/
  | paramsOpen
  /-- The first parameter, or the closing mark. -/
  | firstParam
  /-- A further parameter behind a comma, or the closing mark. -/
  | laterParam (names : List String)
  /-- A comma or the closing mark behind a parameter. -/
  | paramEnd (names : List String)

/-- The state of the reader: the finished expressions of the program (last first), the pending
phrases (innermost first) and what must come next. -/
structure Parser where
  done : List Node := []
  stack : List Pending := []
  expecting : Expecting := .programItem

/-- A token that cannot stand where it stands. Some complaints use the token up. -/
structure Fault where
  error : Error
  taken : Bool

namespace Fault

/-- The token at fault is none of those that can start an operand; it is used up. -/
def unexpected (t : Token) : Fault := ⟨.malformed (.unexpected t.kind) t.pos, true⟩

/-- Something else is missing in front of the token. -/
def expected (what : Expectation) (t : Token) : Fault :=
  ⟨.malformed (.expected what (some t.kind)) t.pos, false⟩

def expectedMark (m : Mark) (t : Token) : Fault := expected (.mark m) t

/-- A parameter is missing where the token stands; it is used up. -/
def expectedName (t : Token) : Fault :=
  ⟨.malformed (.expected .variableName (some t.kind)) t.pos, true⟩

/-- The operator is none of the language's. -/
def unknownOperator (symbol : String) (t : Token) : Fault := ⟨.unknownOperator symbol t.pos, false⟩

end Fault

namespace Parser

/-- Begins an operand with the token. -/
def startOperand (done : List Node) (stack : List Pending) (t : Token) : Except Fault Parser :=
  match t.kind with
  | .mark .openParen => .ok ⟨done, .group :: stack, .operand⟩
  | .mark .openBrace => .ok ⟨done, stack, .firstItem .block⟩
  | .keyword .ifWord => .ok ⟨done, .test :: stack, .operand⟩
  | .keyword .lambdaWord => .ok ⟨done, stack, .paramsOpen⟩
  | .keyword .trueWord => .ok ⟨done, stack, .continuation (.bool true)⟩
  | .keyword .falseWord => .ok ⟨done, stack, .continuation (.bool false)⟩
  | .number x => .ok ⟨done, stack, .continuation (.number x)⟩
  | .text s => .ok ⟨done, stack, .continuation (.text s)⟩
  | .name x => .ok ⟨done, stack, .continuation (.var x)⟩
  | _ => .error (.unexpected t)

/-- Joins the operand with the pending operators that bind at least as tight as a connective of
precedence `p` that follows it. Pending assignments wait, since they group to the right. -/
def reduce (p : Nat) : Node → List Pending → Node × List Pending
  | n, .operand left (.binary op) :: stack =>
    if p ≤ op.precedence then reduce p (.binary op left n) stack
    else (n, .operand left (.binary op) :: stack)
  | n, stack => (n, stack)

/-- Hands a complete expression to the phrases that wait for it, up to the one that the token
continues or ends. -/
def settle (done : List Node) (t : Token) : Node → List Pending → Except Fault Parser
  | n, [] =>
    match t.kind with
    | .mark .semicolon => .ok ⟨n :: done, [], .programItem⟩
    | _ => .error (.expectedMark .semicolon t)
  | n, .operand left c :: stack => settle done t (.join c left n) stack
  | n, .group :: stack =>
    match t.kind with
    | .mark .closeParen => .ok ⟨done, stack, .continuation n⟩
    | _ => .error (.expectedMark .closeParen t)
  | n, .item list items :: stack =>
    match t.kind with
    | .mark m =>
      if m = list.closer then .ok ⟨done, stack, .continuation (list.build (n :: items).reverse)⟩
      else if m = list.separator then .ok ⟨done, stack, .laterItem list (n :: items)⟩
      else .error (.expectedMark list.separator t)
    | _ => .error (.expectedMark list.separator t)
  | n, .test :: stack =>
    match t.kind with
    | .keyword .thenWord => .ok ⟨done, .yes n :: stack, .operand⟩
    | .mark .openBrace => .ok ⟨done, .yes n :: stack, .firstItem .block⟩
    | _ => .error (.expected (.keyword .thenWord) t)
  | n, .yes test :: stack =>
    match t.kind with
    | .keyword .elseWord => .ok ⟨done, .no test n :: stack, .operand⟩
    | _ => settle done t (.ifThen test n) stack
  | n, .no test yes :: stack => settle done t (.ifElse test yes n) stack
  | n, .body params :: stack => settle done t (.lambda params n) stack

/-- Continues or ends an expression behind the operand `n`. -/
def continueWith (done : List Node) (stack : List Pending) (n : Node) (t : Token) :
    Except Fault Parser :=
  match t.kind with
  | .mark .openParen => .ok ⟨done, stack, .firstItem (.args n)⟩
  | .operator symbol =>
    match Connective.ofSymbol? symbol with
    | none => .error (.unknownOperator symbol t)
    | some c =>
      let (left, stack) := reduce c.precedence n stack
      .ok ⟨done, .operand left c :: stack, .operand⟩
  | _ => settle done t n stack

/-- Reads an item of a list or the mark that closes it. -/
def itemOrCloser (done : List Node) (stack : List Pending) (list : Listed) (items : List Node)
    (t : Token) : Except Fault Parser :=
  match t.kind with
  | .mark m =>
    if m = list.closer then .ok ⟨done, stack, .continuation (list.build items.reverse)⟩
    else startOperand done (.item list items :: stack) t
  | _ => startOperand done (.item list items :: stack) t

/-- Reads a parameter or the mark that closes the parameters. -/
def paramOrCloser (done : List Node) (stack : List Pending) (names : List String) (t : Token) :
    Except Fault Parser :=
  match t.kind with
  | .mark .closeParen => .ok ⟨done, .body names.reverse :: stack, .operand⟩
  | .name x => .ok ⟨done, stack, .paramEnd (x :: names)⟩
  | _ => .error (.expectedName t)

/-- The reader behind one more token. -/
def feed (p : Parser) (t : Token) : Except Fault Parser :=
  match p.expecting with
  | .programItem | .operand => startOperand p.done p.stack t
  | .firstItem list => itemOrCloser p.done p.stack list [] t
  | .laterItem list items => itemOrCloser p.done p.stack list items t
  | .continuation n => continueWith p.done p.stack n t
  | .paramsOpen =>
    match t.kind with
    | .mark .openParen => .ok ⟨p.done, p.stack, .firstParam⟩
    | _ => .error (.expectedMark .openParen t)
  | .firstParam => paramOrCloser p.done p.stack [] t
  | .laterParam names => paramOrCloser p.done p.stack names t
  | .paramEnd names =>
    match t.kind with
    | .mark .closeParen => .ok ⟨p.done, .body names.reverse :: p.stack, .operand⟩
    | .mark .comma => .ok ⟨p.done, p.stack, .laterParam names⟩
    | _ => .error (.expectedMark .comma t)

/-- Hands a complete expression to the phrases that wait for it, with nothing left to read: the
items of the program, or what is missing. -/
def settleEnd (done : List Node) : Node → List Pending → Except Expectation (List Node)
  | n, [] => .ok (n :: done).reverse
  | n, .operand left c :: stack => settleEnd done (.join c left n) stack
  | _, .group :: _ => .error (.mark .closeParen)
  | _, .item list _ :: _ => .error (.mark list.closer)
  | _, .test :: _ => .error (.keyword .thenWord)
  | n, .yes test :: stack => settleEnd done (.ifThen test n) stack
  | n, .no test yes :: stack => settleEnd done (.ifElse test yes n) stack
  | n, .body params :: stack => settleEnd done (.lambda params n) stack

/-- The program, when the input ends at `pos`. -/
def finish (p : Parser) (pos : Pos) : Except Error Node :=
  let missing (what : Expectation) : Except Error Node :=
    .error (.malformed (.expected what none) pos)
  match p.expecting with
  | .programItem => .ok (.seq p.done.reverse)
  | .operand | .laterItem _ _ => .error (.malformed .unexpectedEnd pos)
  | .firstItem list => missing (.mark list.closer)
  | .continuation n =>
    match settleEnd p.done n p.stack with
    | .ok items => .ok (.seq items)
    | .error what => missing what
  | .paramsOpen => missing (.mark .openParen)
  | .firstParam | .paramEnd _ => missing (.mark .closeParen)
  | .laterParam _ => missing .variableName

/-- Reads a list of tokens and its ending as the rest of a program. -/
def readAll (p : Parser) : List Token → Ending → Except Error Node
  | [], .finished pos => p.finish pos
  | [], .failed e => .error e
  | t :: tokens, ending =>
    match p.feed t with
    | .ok p => p.readAll tokens ending
    | .error fault => .error fault.error

/-- Reads the rest of a stream as the rest of a program. The stream that remains can be read on. -/
def run (p : Parser) (s : TokenStream) : Except Error Node × TokenStream :=
  match _h : s.next with
  | (.error e, rest) => (.error e, rest)
  | (.ok none, rest) => (p.finish rest.pos, rest)
  | (.ok (some t), rest) =>
    match p.feed t with
    | .ok p => p.run rest
    | .error fault => (.error fault.error, if fault.taken then rest else rest.putBack t)
termination_by s.size
decreasing_by exact TokenStream.size_next_lt _h

/-- Of a stream, only its tokens and its ending matter. -/
theorem run_fst (p : Parser) (s : TokenStream) : (p.run s).1 = p.readAll s.drain.1 s.drain.2 := by
  fun_induction run p s with
  | case1 p s e rest h => rw [TokenStream.drain, h]; rfl
  | case2 p s rest h => rw [TokenStream.drain, h]; rfl
  | case3 p s t rest h p' hp ih => rw [TokenStream.drain, h]; simp only [readAll, hp, ih]
  | case4 p s t rest h fault hp => rw [TokenStream.drain, h]; simp only [readAll, hp]

end Parser

/-- Reads a stream as a program. -/
def TokenStream.parse (s : TokenStream) : Except Error Node × TokenStream := Parser.run {} s

/-- Reads a source text as a program. -/
def parse (source : String) : Except Error Node := (TokenStream.ofString source).parse.1

end ScopeLang
