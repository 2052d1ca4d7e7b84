import LogEngine.Lib.Strings

namespace LogEngine.Query
open Lib

/-- `Node` and its four implementations. A blank query has no node. -/
inductive Node where
  | and (left right : Node)
  | or (left right : Node)
  | term (token : String)
  | field (field value : String)
  deriving DecidableEq

/-- The errors of `Parse`. The last one never leaves `parse`: the recursion below is
bounded, and the bound that `parse` gives is large enough for every token list. -/
inductive ParseError where
  | unexpectedToken (token : String) (pos : Nat)
  | unexpectedEnd
  | unexpectedOperator (token : String)
  | expectedClose
  | outOfFuel
  deriving DecidableEq

def lex (query : String) : List String :=
  fields (replaceRune ')' " ) " (replaceRune '(' " ( " query))

/-- The last three lines of `parseAtom`. -/
def leaf (tok : String) : Node :=
  if containsRune tok ':' then .field (splitAtRune ':' tok).1 (splitAtRune ':' tok).2
  else .term (toLower tok)

abbrev ParseResult := Except ParseError (Node × List String)

/- The parser's state is the list of tokens from `pos` on. The loops of `parseOr` and
`parseAnd` carry the left operand. -/
mutual

def parseOr : Nat → List String → ParseResult
  | 0, _ => .error .outOfFuel
  | n + 1, ts =>
    match parseAnd n ts with
    | .error err => .error err
    | .ok (left, rest) => parseOrLoop n left rest

def parseOrLoop : Nat → Node → List String → ParseResult
  | 0, _, _ => .error .outOfFuel
  | n + 1, left, ts =>
    if ts.head? = some "OR" then
      match parseAnd n ts.tail with
      | .error err => .error err
      | .ok (right, rest) => parseOrLoop n (.or left right) rest
    else .ok (left, ts)

def parseAnd : Nat → List String → ParseResult
  | 0, _ => .error .outOfFuel
  | n + 1, ts =>
    match parseAtom n ts with
    | .error err => .error err
    | .ok (left, rest) => parseAndLoop n left rest

def parseAndLoop : Nat → Node → List String → ParseResult
  | 0, _, _ => .error .outOfFuel
  | n + 1, left, ts =>
    if ts.head? = some "AND" then
      match parseAtom n ts.tail with
      | .error err => .error err
      | .ok (right, rest) => parseAndLoop n (.and left right) rest
    else .ok (left, ts)

def parseAtom : Nat → List String → ParseResult
  | 0, _ => .error .outOfFuel
  | _ + 1, [] => .error .unexpectedEnd
  | n + 1, tok :: ts =>
    if tok = "AND" ∨ tok = "OR" then .error (.unexpectedOperator tok)
    else if tok = "(" then
      match parseOr n ts with
      | .error err => .error err
      | .ok (node, rest) =>
        if rest.head? = some ")" then .ok (node, rest.tail) else .error .expectedClose
    else .ok (leaf tok, ts)

end

/-- `Parse`. The answer `none` is the nil node of a blank query. -/
def parse (query : String) : Except ParseError (Option Node) :=
  let query := trimSpace query
  if query = "" then .ok none
  else
    let tokens := lex query
    match parseOr (4 * tokens.length + 4) tokens with
    | .error err => .error err
    | .ok (node, []) => .ok (some node)
    | .ok (_, tok :: rest) => .error (.unexpectedToken tok (tokens.length - (rest.length + 1)))

end LogEngine.Query
