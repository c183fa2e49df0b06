import Calculator.Number.Style
import Calculator.Operator
import Calculator.Text.Json

/-!
# Tokens

The words of an expression, in infix and in postfix order alike. A name is a function unless it
starts with a sigil: `$NAME` refers to the value bound to `NAME`, and the key `#NAME` is the name
itself. Tokens hold names without their sigil.
-/

namespace Calculator

/-- A parenthesis or the comma between arguments. -/
inductive Punct where
  | leftParen
  | rightParen
  | comma
  deriving DecidableEq, Repr

namespace Punct

def symbol : Punct → Char
  | leftParen => '('
  | rightParen => ')'
  | comma => ','

/-- The English name of a punctuation mark, as JSON shows it. -/
def name : Punct → String
  | leftParen => "LeftParen"
  | rightParen => "RightParen"
  | comma => "Comma"

end Punct

/-- A word of an expression. -/
inductive Token where
  | number (value : Float)
  | operator (op : Operator)
  | punct (mark : Punct)
  /-- `NAME`, the name of a function. -/
  | function (name : String)
  /-- `$NAME`, the value bound to a name. -/
  | reference (name : String)
  /-- `#NAME`, a name as a value. -/
  | key (name : String)
  deriving DecidableEq, Repr

namespace Token

def text : Token → String
  | number x => plainNumber x
  | operator op => String.singleton op.symbol
  | punct mark => String.singleton mark.symbol
  | function name => name
  | reference name => "$" ++ name
  | key name => "#" ++ name

/-- The texts of tokens, joined by spaces. -/
def line (tokens : List Token) : String := " ".intercalate (tokens.map text)

/-- The JSON form of a token: its kind and what it holds. -/
def json : Token → String
  | number x => Json.object [("Number", jsonNumber x)]
  | operator op => Json.object [("Operator", Json.string op.name)]
  | punct mark => Json.object [("Punct", Json.string mark.name)]
  | function name => identifier "Function" name
  | reference name => identifier "Variable" name
  | key name => identifier "Key" name
where
  identifier (kind name : String) : String :=
    Json.object [("Ident", Json.object [(kind, Json.string name)])]

/-- Whether a token is a function, reference or key with the empty name. -/
def isUnnamed : Token → Bool
  | function name | reference name | key name => name == ""
  | _ => false

def isPunct : Token → Bool
  | punct _ => true
  | _ => false

/-- Whether a token stands for a value by itself. -/
def isOperand : Token → Bool
  | number _ | reference _ | key _ => true
  | _ => false

/-- The token written with a single character. -/
def ofSymbol? : Char → Option Token
  | '(' => some (punct .leftParen)
  | ')' => some (punct .rightParen)
  | ',' => some (punct .comma)
  | c => (Operator.ofSymbol? c).map operator

end Token

end Calculator
