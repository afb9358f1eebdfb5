import Graft.Span

/-!
# Tokens

The words of the language: reserved words, marks, numbers and names.
-/

namespace Graft

/-- The reserved words. -/
inductive Keyword where
  | useWord
  | fnWord
  | letWord
  | constWord
  | ifWord
  | elseWord
  | forWord
  | whileWord
  | inWord
  | returnWord
  | trueWord
  | falseWord
  deriving DecidableEq, Repr

namespace Keyword

/-- How the word is written. -/
def text : Keyword → String
  | .useWord => "use"
  | .fnWord => "fn"
  | .letWord => "let"
  | .constWord => "const"
  | .ifWord => "if"
  | .elseWord => "else"
  | .forWord => "for"
  | .whileWord => "while"
  | .inWord => "in"
  | .returnWord => "return"
  | .trueWord => "true"
  | .falseWord => "false"

def all : List Keyword :=
  [.useWord, .fnWord, .letWord, .constWord, .ifWord, .elseWord, .forWord, .whileWord, .inWord,
    .returnWord, .trueWord, .falseWord]

/-- The reserved word that is written so, if there is one. -/
def ofText? (s : String) : Option Keyword := all.find? fun k => k.text == s

theorem mem_all (k : Keyword) : k ∈ all := by cases k <;> decide

end Keyword

/-- The marks: brackets, separators and operators. -/
inductive Symbol where
  | openParen
  | closeParen
  | openBrace
  | closeBrace
  | openBracket
  | closeBracket
  | comma
  | semicolon
  | dot
  | dotDot
  | atSign
  | assign
  | equal
  | notEqual
  | bang
  | less
  | lessEqual
  | greater
  | greaterEqual
  | plus
  | minus
  | star
  | starStar
  | slash
  | percent
  | andAnd
  | orOr
  deriving DecidableEq, Repr

/-- How the mark is written. -/
def Symbol.text : Symbol → String
  | .openParen => "("
  | .closeParen => ")"
  | .openBrace => "\x7b"
  | .closeBrace => "\x7d"
  | .openBracket => "["
  | .closeBracket => "]"
  | .comma => ","
  | .semicolon => ";"
  | .dot => "."
  | .dotDot => ".."
  | .atSign => "@"
  | .assign => "="
  | .equal => "=="
  | .notEqual => "!="
  | .bang => "!"
  | .less => "<"
  | .lessEqual => "<="
  | .greater => ">"
  | .greaterEqual => ">="
  | .plus => "+"
  | .minus => "-"
  | .star => "*"
  | .starStar => "**"
  | .slash => "/"
  | .percent => "%"
  | .andAnd => "&&"
  | .orOr => "||"

inductive Token where
  | word (k : Keyword)
  | mark (s : Symbol)
  | number (x : Float)
  | name (text : String)
  deriving Repr

/-- How a report speaks of a token. -/
def Token.description : Token → String
  | .word k => "'" ++ k.text ++ "'"
  | .mark s => "'" ++ s.text ++ "'"
  | .number _ => "number literal"
  | .name _ => "identifier"

/-- A token and its place. -/
structure Lexeme where
  token : Token
  span : Span
  deriving Repr

end Graft
