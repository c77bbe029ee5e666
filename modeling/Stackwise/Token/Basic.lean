/-! Tokens of the source language: their kinds, the names by which messages call them, and
the values that scanning a text produces. -/
namespace Stackwise

/-- The kinds of token.  A name directly before `(` has the kind `fnName`, any other name `ident`.
The kinds `blockComment` and `unknown` name text that never becomes a token of a scan. -/
inductive TokenKind where
  | kwExit | kwPrint | kwLet | kwIf | kwElse | kwWhile | kwFor | kwFn | kwReturn | kwBreak
  | kwContinue | kwString
  | intLit | stringLit | ident | fnName
  | semi | comma | dot | openParen | closeParen | openCurly | closeCurly
  | eq | gt | lt | plus | minus | star | slash | and | or
  | blockComment | unknown
deriving DecidableEq, Repr

namespace TokenKind

def name : TokenKind → String
  | kwExit => "exit"
  | kwPrint => "print"
  | kwLet => "let"
  | kwIf => "if"
  | kwElse => "else"
  | kwWhile => "while"
  | kwFor => "for"
  | kwFn => "fn"
  | kwReturn => "return"
  | kwBreak => "break"
  | kwContinue => "continue"
  | kwString => "string"
  | intLit => "int_lit"
  | stringLit => "string_lit"
  | ident => "ident"
  | fnName => "fname"
  | semi => "semi"
  | comma => "comma"
  | dot => "dot"
  | openParen => "open_paren"
  | closeParen => "close_paren"
  | openCurly => "open_curly"
  | closeCurly => "close_curly"
  | eq => "eq"
  | gt => "gt"
  | lt => "lt"
  | plus => "plus"
  | minus => "minus"
  | star => "star"
  | slash => "fslash"
  | and => "and"
  | or => "or"
  | blockComment => "block_comment"
  | unknown => "error"

def all : List TokenKind :=
  [kwExit, kwPrint, kwLet, kwIf, kwElse, kwWhile, kwFor, kwFn, kwReturn, kwBreak, kwContinue,
    kwString, intLit, stringLit, ident, fnName, semi, comma, dot, openParen, closeParen, openCurly,
    closeCurly, eq, gt, lt, plus, minus, star, slash, and, or, blockComment, unknown]

def keywords : List TokenKind :=
  [kwExit, kwPrint, kwLet, kwIf, kwElse, kwWhile, kwFor, kwFn, kwReturn, kwBreak, kwContinue,
    kwString]

/-- The keyword that a whole word spells. -/
def keyword? (word : String) : Option TokenKind :=
  keywords.find? fun k => k.name == word

def ofName? (name : String) : Option TokenKind :=
  all.find? fun k => k.name == name

end TokenKind

/-- A token: its kind, the text of a literal or a name, and the line on which it ends. -/
structure Token where
  kind : TokenKind
  literal : Option String
  line : Nat
deriving DecidableEq, Repr

end Stackwise
