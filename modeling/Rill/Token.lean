import Rill.Text.Bytes

/-!
# Tokens

A token is a kind, its literal text and the byte offset at which it starts. The literal of a string
token is the text between the quotes; every other kind is spelled exactly as its literal.
-/

namespace Rill

/-- What a token stands for. -/
inductive TokenKind where
  /-- A character that starts no token. -/
  | illegal
  /-- The end of the source. -/
  | eof
  /-- A name that is no keyword. -/
  | ident
  /-- A whole number. -/
  | int
  /-- A number of 32 bits, such as `1.5f`. -/
  | float
  /-- A number of 64 bits, such as `1.5` or `1.5d`. -/
  | double
  /-- A text in double quotes. -/
  | string
  /-- The operator `=`. -/
  | assign
  /-- The operator `+`. -/
  | plus
  /-- The operator `-`. -/
  | minus
  /-- The operator `!`. -/
  | bang
  /-- The operator `*`. -/
  | asterisk
  /-- The operator `/`. -/
  | slash
  /-- The operator `+=`. -/
  | plusEq
  /-- The operator `-=`. -/
  | minusEq
  /-- The operator `*=`. -/
  | asteriskEq
  /-- The operator `/=`. -/
  | slashEq
  /-- The operator `<`. -/
  | lt
  /-- The operator `<=`. -/
  | ltEq
  /-- The operator `>`. -/
  | gt
  /-- The operator `>=`. -/
  | gtEq
  /-- The operator `==`. -/
  | eq
  /-- The operator `!=`. -/
  | notEq
  /-- The operator `&&`. -/
  | and
  /-- The operator `||`. -/
  | or
  /-- The operator `.`. -/
  | period
  /-- The mark `,`. -/
  | comma
  /-- The mark `;`. -/
  | semicolon
  /-- The mark `:`. -/
  | colon
  /-- An opening parenthesis. -/
  | lparen
  /-- A closing parenthesis. -/
  | rparen
  /-- An opening brace. -/
  | lbrace
  /-- A closing brace. -/
  | rbrace
  /-- An opening bracket. -/
  | lbracket
  /-- A closing bracket. -/
  | rbracket
  /-- The keyword `fn`. -/
  | function
  /-- The keyword `let`. -/
  | let_
  /-- The keyword `true`. -/
  | true_
  /-- The keyword `false`. -/
  | false_
  /-- The keyword `if`. -/
  | if_
  /-- The keyword `elif`. -/
  | elif
  /-- The keyword `else`. -/
  | else_
  /-- The keyword `return`. -/
  | return_
  /-- The keyword `for`. -/
  | for_
  /-- The keyword `break`. -/
  | break_
  deriving DecidableEq, Repr, Inhabited

namespace TokenKind

/-- The name of a kind, as messages show it. -/
def name : TokenKind → String
  | illegal => "ILLEGAL"
  | eof => "EOF"
  | ident => "IDENT"
  | int => "INT"
  | float => "FLOAT"
  | double => "DOUBLE"
  | string => "STRING"
  | assign => "="
  | plus => "+"
  | minus => "-"
  | bang => "!"
  | asterisk => "*"
  | slash => "/"
  | plusEq => "+="
  | minusEq => "-="
  | asteriskEq => "*="
  | slashEq => "/="
  | lt => "<"
  | ltEq => "<="
  | gt => ">"
  | gtEq => ">="
  | eq => "=="
  | notEq => "!="
  | and => "&&"
  | or => "||"
  | period => "."
  | comma => ","
  | semicolon => ";"
  | colon => ":"
  | lparen => "("
  | rparen => ")"
  | lbrace => "\x7b"
  | rbrace => "\x7d"
  | lbracket => "["
  | rbracket => "]"
  | function => "FUNCTION"
  | let_ => "LET"
  | true_ => "TRUE"
  | false_ => "FALSE"
  | if_ => "IF"
  | elif => "ELIF"
  | else_ => "ELSE"
  | return_ => "RETURN"
  | for_ => "FOR"
  | break_ => "BREAK"

/-- The words that are no names. -/
def keywords : List (Bytes × TokenKind) :=
  [(text "fn", function), (text "let", let_), (text "true", true_), (text "false", false_),
    (text "if", if_), (text "elif", elif), (text "else", else_), (text "return", return_),
    (text "for", for_), (text "break", break_)]

/-- The kind of a word: a keyword, or else a name. -/
def ofWord (word : Bytes) : TokenKind :=
  (keywords.lookup word).getD ident

end TokenKind

/-- A token of a source. -/
structure Token where
  /-- What the token stands for. -/
  kind : TokenKind
  /-- The text of the token; for a string, the text between the quotes. -/
  literal : Bytes
  /-- The byte offset at which the token starts. -/
  pos : Nat
  deriving DecidableEq, Repr, Inhabited

end Rill
