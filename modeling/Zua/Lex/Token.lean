import Mathlib.Tactic

/-!
# Tokens

The token type of `lex.zig`, its keyword table and its error set, together with the byte
classes both lexers test for.
-/

namespace Zua.Lex

@[simp] def ch (c : Char) : UInt8 := UInt8.ofNat c.toNat

@[simp] def isDigit (c : UInt8) : Bool := ch '0' ≤ c && c ≤ ch '9'

@[simp] def isAlpha (c : UInt8) : Bool :=
  (ch 'a' ≤ c && c ≤ ch 'z') || (ch 'A' ≤ c && c ≤ ch 'Z')

@[simp] def isNewline (c : UInt8) : Bool := c == ch '\n' || c == ch '\r'

inductive Token.Id
  | keywordAnd | keywordBreak | keywordDo | keywordElse | keywordElseif | keywordEnd
  | keywordFalse | keywordFor | keywordFunction | keywordIf | keywordIn | keywordLocal
  | keywordNil | keywordNot | keywordOr | keywordRepeat | keywordReturn | keywordThen
  | keywordTrue | keywordUntil | keywordWhile
  | singleChar
  | concat | ellipsis | eq | ge | le | ne | number | name | string | eof
  deriving DecidableEq, Repr, Inhabited

structure Token where
  id : Token.Id
  start : Nat
  stop : Nat
  lineNumber : Nat
  char : Option UInt8
  deriving DecidableEq, Repr, Inhabited

def bytes (s : String) : List UInt8 := s.toList.map ch

namespace Token

def isChar (token : Token) (expected : UInt8) : Bool :=
  token.id == .singleChar && token.char == some expected

def keywordMapping : List (List UInt8 × Id) :=
  [(bytes "and", .keywordAnd), (bytes "break", .keywordBreak), (bytes "do", .keywordDo),
   (bytes "else", .keywordElse), (bytes "elseif", .keywordElseif), (bytes "end", .keywordEnd),
   (bytes "false", .keywordFalse), (bytes "for", .keywordFor),
   (bytes "function", .keywordFunction), (bytes "if", .keywordIf), (bytes "in", .keywordIn),
   (bytes "local", .keywordLocal), (bytes "nil", .keywordNil), (bytes "not", .keywordNot),
   (bytes "or", .keywordOr), (bytes "repeat", .keywordRepeat),
   (bytes "return", .keywordReturn), (bytes "then", .keywordThen), (bytes "true", .keywordTrue),
   (bytes "until", .keywordUntil), (bytes "while", .keywordWhile)]

def idFromName (name : List UInt8) : Option Id := keywordMapping.lookup name

def slice (buffer : List UInt8) (token : Token) : List UInt8 :=
  (buffer.take token.stop).drop token.start

end Token

inductive LexError
  | unfinishedString
  | unfinishedLongComment
  | unfinishedLongString
  | invalidLongStringDelimiter
  | malformedNumber
  | escapeSequenceTooLarge
  | chunkHasTooManyLines
  | lexicalElementTooLong
  deriving DecidableEq, Repr, Inhabited

structure LexErrorContext where
  token : Token
  err : LexError
  deriving DecidableEq, Repr, Inhabited

end Zua.Lex
