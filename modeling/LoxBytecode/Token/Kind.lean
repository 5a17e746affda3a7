/-!
# Kinds of token

Every token has one of forty kinds: eleven single punctuation marks, eight
marks that an equals sign may extend, three kinds of literal and name, sixteen
keywords, and the two kinds for faulty text and for the end of the text.
-/

namespace LoxBytecode.Token

/-- What sort of token a piece of text is. -/
inductive Kind where
  | leftParen
  | rightParen
  | leftBrace
  | rightBrace
  | comma
  | dot
  | minus
  | plus
  | semicolon
  | slash
  | star
  | bang
  | bangEqual
  | equal
  | equalEqual
  | greater
  | greaterEqual
  | less
  | lessEqual
  | identifier
  | string
  | number
  | andWord
  | classWord
  | elseWord
  | falseWord
  | forWord
  | funWord
  | ifWord
  | nilWord
  | orWord
  | printWord
  | returnWord
  | superWord
  | thisWord
  | trueWord
  | varWord
  | whileWord
  | error
  | eof
  deriving DecidableEq, Repr

namespace Kind

/-- Every kind, in the order of their codes. -/
def all : List Kind :=
  [leftParen, rightParen, leftBrace, rightBrace, comma, dot, minus, plus, semicolon, slash, star,
    bang, bangEqual, equal, equalEqual, greater, greaterEqual, less, lessEqual,
    identifier, string, number,
    andWord, classWord, elseWord, falseWord, forWord, funWord, ifWord, nilWord, orWord, printWord,
    returnWord, superWord, thisWord, trueWord, varWord, whileWord,
    error, eof]

/-- The name of a kind, as listings show it. -/
def name : Kind → String
  | leftParen => "LEFT_PAREN"
  | rightParen => "RIGHT_PAREN"
  | leftBrace => "LEFT_BRACE"
  | rightBrace => "RIGHT_BRACE"
  | comma => "COMMA"
  | dot => "DOT"
  | minus => "MINUS"
  | plus => "PLUS"
  | semicolon => "SEMICOLON"
  | slash => "SLASH"
  | star => "STAR"
  | bang => "BANG"
  | bangEqual => "BANG_EQUAL"
  | equal => "EQUAL"
  | equalEqual => "EQUAL_EQUAL"
  | greater => "GREATER"
  | greaterEqual => "GREATER_EQUAL"
  | less => "LESS"
  | lessEqual => "LESS_EQUAL"
  | identifier => "IDENTIFIER"
  | string => "STRING"
  | number => "NUMBER"
  | andWord => "AND"
  | classWord => "CLASS"
  | elseWord => "ELSE"
  | falseWord => "FALSE"
  | forWord => "FOR"
  | funWord => "FUN"
  | ifWord => "IF"
  | nilWord => "NIL"
  | orWord => "OR"
  | printWord => "PRINT"
  | returnWord => "RETURN"
  | superWord => "SUPER"
  | thisWord => "THIS"
  | trueWord => "TRUE"
  | varWord => "VAR"
  | whileWord => "WHILE"
  | error => "ERROR"
  | eof => "EOF"

/-- The number of a kind, counted from one in the order of `all`. -/
def code (kind : Kind) : Nat := all.idxOf kind + 1

def keywords : List (String × Kind) :=
  [("and", andWord), ("class", classWord), ("else", elseWord), ("false", falseWord),
    ("for", forWord), ("fun", funWord), ("if", ifWord), ("nil", nilWord), ("or", orWord),
    ("print", printWord), ("return", returnWord), ("super", superWord), ("this", thisWord),
    ("true", trueWord), ("var", varWord), ("while", whileWord)]

/-- The kind of a word: that of the keyword it equals, or else `identifier`. -/
def ofWord (word : List Char) : Kind :=
  (keywords.lookup (String.ofList word)).getD identifier

/-- The kind of a punctuation mark that always stands alone. -/
def ofMark? : Char → Option Kind
  | '(' => some leftParen
  | ')' => some rightParen
  | '{' => some leftBrace
  | '}' => some rightBrace
  | ';' => some semicolon
  | ',' => some comma
  | '.' => some dot
  | '-' => some minus
  | '+' => some plus
  | '/' => some slash
  | '*' => some star
  | _ => none

/-- The two kinds of a punctuation mark that an equals sign may follow: alone,
and together with it. -/
def ofExtensibleMark? : Char → Option (Kind × Kind)
  | '!' => some (bang, bangEqual)
  | '=' => some (equal, equalEqual)
  | '<' => some (less, lessEqual)
  | '>' => some (greater, greaterEqual)
  | _ => none

end Kind

end LoxBytecode.Token
