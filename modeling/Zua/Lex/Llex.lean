import Zua.Lex.Token

/-!
# The lexer of PUC Lua

`llex.c` in the C locale with `LUA_COMPAT_LSTR` undefined. A `LexState` keeps the unread input
with the current character at its head, so `EOZ` is the empty list; the growth check of `save`,
which concerns elements of 2^63 bytes, is left out, and the `int` that counts the `=` of a long
bracket has no width. `luaO_str2d` is a parameter: it only decides whether a numeral is malformed.
-/

set_option linter.unusedVariables false

namespace Zua.Llex
open Zua.Lex

def FIRST_RESERVED : Nat := 257

def luaX_tokens : List (List UInt8) :=
  [bytes "and", bytes "break", bytes "do", bytes "else", bytes "elseif",
   bytes "end", bytes "false", bytes "for", bytes "function", bytes "if",
   bytes "in", bytes "local", bytes "nil", bytes "not", bytes "or", bytes "repeat",
   bytes "return", bytes "then", bytes "true", bytes "until", bytes "while",
   bytes "..", bytes "...", bytes "==", bytes ">=", bytes "<=", bytes "~=",
   bytes "<number>", bytes "<name>", bytes "<string>", bytes "<eof>"]

def NUM_RESERVED : Nat := 21

def TK_CONCAT : Nat := FIRST_RESERVED + 21
def TK_DOTS : Nat := FIRST_RESERVED + 22
def TK_EQ : Nat := FIRST_RESERVED + 23
def TK_GE : Nat := FIRST_RESERVED + 24
def TK_LE : Nat := FIRST_RESERVED + 25
def TK_NE : Nat := FIRST_RESERVED + 26
def TK_NUMBER : Nat := FIRST_RESERVED + 27
def TK_NAME : Nat := FIRST_RESERVED + 28
def TK_STRING : Nat := FIRST_RESERVED + 29
def TK_EOS : Nat := FIRST_RESERVED + 30

def MAX_INT : Nat := 2 ^ 31 - 1 - 2

structure LexState where
  rest : List UInt8
  linenumber : Nat := 1
  buff : List UInt8 := []
  deriving DecidableEq, Repr

namespace LexState

def current (ls : LexState) : Option UInt8 := ls.rest.head?

def next (ls : LexState) : LexState := { ls with rest := ls.rest.tail }

def save (ls : LexState) (c : UInt8) : LexState := { ls with buff := ls.buff ++ [c] }

/-- At `EOZ` this saves the byte `(char)-1`. -/
def saveAndNext (ls : LexState) : LexState := (ls.save (ls.current.getD 0xff)).next

def currIsNewline (ls : LexState) : Bool :=
  ls.current == some (ch '\n') || ls.current == some (ch '\r')

def resetbuffer (ls : LexState) : LexState := { ls with buff := [] }

def inclinenumber (ls : LexState) : Except String LexState :=
  let old := ls.current
  let ls := ls.next
  let ls := if ls.currIsNewline && ls.current != old then ls.next else ls
  let ls := { ls with linenumber := ls.linenumber + 1 }
  if MAX_INT ≤ ls.linenumber then .error "chunk has too many lines" else .ok ls

@[simp] theorem rest_next (ls : LexState) : ls.next.rest = ls.rest.tail := rfl
@[simp] theorem linenumber_next (ls : LexState) : ls.next.linenumber = ls.linenumber := rfl
@[simp] theorem buff_next (ls : LexState) : ls.next.buff = ls.buff := rfl
@[simp] theorem rest_save (ls : LexState) (c : UInt8) : (ls.save c).rest = ls.rest := rfl
@[simp] theorem linenumber_save (ls : LexState) (c : UInt8) :
    (ls.save c).linenumber = ls.linenumber := rfl
@[simp] theorem buff_save (ls : LexState) (c : UInt8) : (ls.save c).buff = ls.buff ++ [c] := rfl
@[simp] theorem rest_saveAndNext (ls : LexState) : ls.saveAndNext.rest = ls.rest.tail := rfl
@[simp] theorem linenumber_saveAndNext (ls : LexState) :
    ls.saveAndNext.linenumber = ls.linenumber := rfl
@[simp] theorem rest_resetbuffer (ls : LexState) : ls.resetbuffer.rest = ls.rest := rfl
@[simp] theorem linenumber_resetbuffer (ls : LexState) :
    ls.resetbuffer.linenumber = ls.linenumber := rfl

theorem current_of_rest {ls : LexState} {c : UInt8} {rest : List UInt8}
    (h : ls.rest = c :: rest) : ls.current = some c := by simp [current, h]

theorem buff_saveAndNext {ls : LexState} {c : UInt8} {rest : List UInt8}
    (h : ls.rest = c :: rest) : ls.saveAndNext.buff = ls.buff ++ [c] := by
  simp [saveAndNext, current, h]

/-- `strchr` also finds the terminating NUL of `set`. -/
def checkNext (ls : LexState) (set : List UInt8) : Bool × LexState :=
  match ls.current with
  | some c => if c ∈ set ∨ c = 0 then (true, ls.saveAndNext) else (false, ls)
  | none => (false, ls)

def skipSepLoop (ls : LexState) (count : Int) : Int × LexState :=
  if h : ls.current = some (ch '=') then skipSepLoop ls.saveAndNext (count + 1) else (count, ls)
termination_by ls.rest.length
decreasing_by
  cases hr : ls.rest with
  | nil => simp [current, hr] at h
  | cons c rest => simp [saveAndNext, save, next, hr]

def skipSep (ls : LexState) : Int × LexState :=
  let s := ls.current
  let (count, ls) := skipSepLoop ls.saveAndNext 0
  (if ls.current = s then count else -count - 1, ls)

end LexState

open LexState

theorem Except.ite_error_eq_ok {ε α : Type} {p : Prop} [Decidable p] {e : ε} {a b : α} :
    (if p then Except.error e else Except.ok a) = .ok b ↔ ¬p ∧ a = b := by
  split <;> simp_all

theorem length_rest_next {ls : LexState} {c : UInt8} (h : ls.current = some c) :
    ls.next.rest.length < ls.rest.length := by
  cases hr : ls.rest with
  | nil => simp [current, hr] at h
  | cons d rest => simp [next, hr]

theorem length_rest_skipSepLoop (ls : LexState) (count : Int) :
    (skipSepLoop ls count).2.rest.length ≤ ls.rest.length := by
  fun_induction skipSepLoop ls count with
  | case1 ls count h ih => exact ih.trans (by simp [saveAndNext, save, next])
  | case2 ls count h => exact le_rfl

theorem length_rest_skipSep {ls : LexState} {c : UInt8} (h : ls.current = some c) :
    (skipSep ls).2.rest.length < ls.rest.length := by
  have bound := length_rest_skipSepLoop ls.saveAndNext 0
  cases hr : ls.rest with
  | nil => simp [current, hr] at h
  | cons d rest => simp [skipSep, saveAndNext, save, next, hr] at bound ⊢; omega

theorem length_rest_inclinenumber {ls ls' : LexState} {c : UInt8} (h : ls.current = some c)
    (ok : ls.inclinenumber = .ok ls') : ls'.rest.length < ls.rest.length := by
  cases hr : ls.rest with
  | nil => simp [current, hr] at h
  | cons d rest =>
      simp only [inclinenumber, Except.ite_error_eq_ok] at ok
      rw [← ok.2]
      split <;> simp [next, hr]

def readLongStringLoop (seminfo : Bool) (sep : Int) (ls : LexState) : Except String LexState :=
  match h : ls.current with
  | none => .error (if seminfo then "unfinished long string" else "unfinished long comment")
  | some c =>
      if c = ch ']' then
        if (skipSep ls).1 = sep then .ok (skipSep ls).2.saveAndNext
        else readLongStringLoop seminfo sep (skipSep ls).2
      else if c = ch '\n' ∨ c = ch '\r' then
        match hi : (ls.save (ch '\n')).inclinenumber with
        | .error msg => .error msg
        | .ok ls' => readLongStringLoop seminfo sep (if seminfo then ls' else ls'.resetbuffer)
      else readLongStringLoop seminfo sep (if seminfo then ls.saveAndNext else ls.next)
termination_by ls.rest.length
decreasing_by
  · exact length_rest_skipSep h
  · have := length_rest_inclinenumber (c := c) (by simpa [save, current] using h) hi
    simpa [apply_ite rest, resetbuffer, save] using this
  · cases hr : ls.rest with
    | nil => simp [current, hr] at h
    | cons d rest => cases seminfo <;> simp [saveAndNext, save, next, hr]

def readLongString (seminfo : Bool) (sep : Int) (ls : LexState) : Except String LexState :=
  let ls := ls.saveAndNext
  if ls.currIsNewline then
    match ls.inclinenumber with
    | .error msg => .error msg
    | .ok ls => readLongStringLoop seminfo sep ls
  else readLongStringLoop seminfo sep ls

def longStringValue (sep : Int) (ls : LexState) : List UInt8 :=
  (ls.buff.drop (2 + sep.toNat)).take (ls.buff.length - 2 * (2 + sep.toNat))

/-- The `do` loop over the digits of `\ddd`; `left` counts `i` down from 3. -/
def readEscape : Nat → LexState → Nat → Nat × LexState
  | 0, ls, n => (n, ls)
  | left + 1, ls, n =>
      let n := 10 * n + (ls.current.getD 0xff - ch '0').toNat
      if left ≠ 0 ∧ ls.next.current.any isDigit then readEscape left ls.next n else (n, ls.next)

theorem length_rest_readEscape (left : Nat) (ls : LexState) (n : Nat) :
    (readEscape left ls n).2.rest.length ≤ ls.rest.length := by
  induction left generalizing ls n with
  | zero => exact le_rfl
  | succ left ih =>
      rw [readEscape]
      have step : ls.next.rest.length ≤ ls.rest.length := by simp [next]
      split
      · exact (ih _ _).trans step
      · exact step

def namedEscape (c : UInt8) : Option UInt8 :=
  if c = ch 'a' then some 0x07
  else if c = ch 'b' then some 0x08
  else if c = ch 'f' then some 0x0c
  else if c = ch 'n' then some (ch '\n')
  else if c = ch 'r' then some (ch '\r')
  else if c = ch 't' then some (ch '\t')
  else if c = ch 'v' then some 0x0b
  else none

def readStringLoop (del : UInt8) (ls : LexState) : Except String LexState :=
  match h : ls.current with
  | none => .error "unfinished string"
  | some c =>
      if c = del then .ok ls
      else if c = ch '\n' ∨ c = ch '\r' then .error "unfinished string"
      else if c = ch '\\' then
        match h' : ls.next.current with
        | none => readStringLoop del ls.next
        | some d =>
            match namedEscape d with
            | some e => readStringLoop del (ls.next.save e).next
            | none =>
                if d = ch '\n' ∨ d = ch '\r' then
                  match hi : (ls.next.save (ch '\n')).inclinenumber with
                  | .error msg => .error msg
                  | .ok ls' => readStringLoop del ls'
                else if ¬isDigit d then readStringLoop del ls.next.saveAndNext
                else if 255 < (readEscape 3 ls.next 0).1 then .error "escape sequence too large"
                else readStringLoop del
                  ((readEscape 3 ls.next 0).2.save (UInt8.ofNat (readEscape 3 ls.next 0).1))
      else readStringLoop del ls.saveAndNext
termination_by ls.rest.length
decreasing_by
  all_goals have step := length_rest_next h
  · exact step
  · exact lt_of_le_of_lt (by simp [next, save]) step
  · have := length_rest_inclinenumber (c := d) (by simpa [save, current] using h') hi
    exact lt_trans (by simpa [save] using this) step
  · exact lt_of_le_of_lt (by simp [saveAndNext, next, save]) step
  · exact lt_of_le_of_lt (by simpa [save] using length_rest_readEscape 3 ls.next 0) step
  · exact step

def readString (del : UInt8) (ls : LexState) : Except String LexState :=
  (readStringLoop del ls.saveAndNext).map saveAndNext

def stringValue (ls : LexState) : List UInt8 := (ls.buff.drop 1).take (ls.buff.length - 2)

def saveWhile (p : UInt8 → Bool) (ls : LexState) : LexState :=
  match h : ls.current with
  | some c => if p c then saveWhile p ls.saveAndNext else ls
  | none => ls
termination_by ls.rest.length
decreasing_by exact length_rest_next h

def isAlnum_ (c : UInt8) : Bool := isAlpha c || isDigit c || c == ch '_'

/-- In the C locale the decimal point is `.`, so `trydecpoint` only repeats the failed attempt. -/
def readNumeral (str2d : List UInt8 → Bool) (ls : LexState) : Except String LexState :=
  let ls := saveWhile (fun c => isDigit c || c == ch '.') ls.saveAndNext
  let (found, ls) := ls.checkNext (bytes "Ee")
  let ls := if found then (ls.checkNext (bytes "+-")).2 else ls
  let ls := (saveWhile isAlnum_ ls).save 0
  if str2d ls.buff then .ok ls else .error "malformed number"

def skipLine (ls : LexState) : LexState :=
  if h : ls.current = none ∨ ls.currIsNewline then ls else skipLine ls.next
termination_by ls.rest.length
decreasing_by
  cases hc : ls.current with
  | none => simp [hc] at h
  | some c => exact length_rest_next hc

/-- A token of `llex` with its `seminfo`. `start` is the input at the token's first character. -/
structure Lexeme where
  token : Nat
  ts : Option (List UInt8) := none
  start : List UInt8
  ls : LexState
  deriving DecidableEq, Repr

def reserved (name : List UInt8) : Nat :=
  let i := (luaX_tokens.take NUM_RESERVED).idxOf name
  if i < NUM_RESERVED then i + 1 else 0

def withEq (ls : LexState) (c : UInt8) (compound : Nat) : Lexeme :=
  if ls.next.current = some (ch '=') then
    { token := compound, start := ls.rest, ls := ls.next.next }
  else { token := c.toNat, start := ls.rest, ls := ls.next }

def identifierLexeme (ls : LexState) : Lexeme :=
  let ls' := saveWhile isAlnum_ ls.saveAndNext
  let ts := ls'.buff
  if 0 < reserved ts then
    { token := reserved ts - 1 + FIRST_RESERVED, start := ls.rest, ls := ls' }
  else { token := TK_NAME, ts := some ts, start := ls.rest, ls := ls' }

def dotLexeme (str2d : List UInt8 → Bool) (ls : LexState) : Except String Lexeme :=
  let (second, ls') := ls.saveAndNext.checkNext (bytes ".")
  if second then
    let (third, ls') := ls'.checkNext (bytes ".")
    .ok { token := if third then TK_DOTS else TK_CONCAT, start := ls.rest, ls := ls' }
  else if ls'.current.any isDigit then
    (readNumeral str2d ls').map fun ls' => { token := TK_NUMBER, start := ls.rest, ls := ls' }
  else .ok { token := (ch '.').toNat, start := ls.rest, ls := ls' }

theorem length_rest_skipLine (ls : LexState) : (skipLine ls).rest.length ≤ ls.rest.length := by
  fun_induction skipLine ls with
  | case1 ls h => exact le_rfl
  | case2 ls h ih => exact ih.trans (by simp [next])

theorem length_rest_readLongStringLoop {seminfo : Bool} {sep : Int} {ls ls' : LexState}
    (ok : readLongStringLoop seminfo sep ls = .ok ls') : ls'.rest.length ≤ ls.rest.length := by
  fun_induction readLongStringLoop seminfo sep ls with
  | case1 ls h => contradiction
  | case2 ls hs hc =>
      cases ok
      have := length_rest_skipSep hc
      simp only [saveAndNext, save, next, List.length_tail]
      omega
  | case3 ls hs hc ih => exact (ih ok).trans (length_rest_skipSep hc).le
  | case4 ls c h _ _ msg hi => contradiction
  | case5 ls c h _ _ ls₁ hi ih =>
      have := length_rest_inclinenumber (c := c) (by simpa [save, current] using h) hi
      refine (ih ok).trans ?_
      simpa [apply_ite rest, resetbuffer, save] using this.le
  | case6 ls c h _ _ ih =>
      refine (ih ok).trans ?_
      cases seminfo <;> simp [saveAndNext, save, next]

theorem length_rest_readLongString {seminfo : Bool} {sep : Int} {ls ls' : LexState}
    (ok : readLongString seminfo sep ls = .ok ls') : ls'.rest.length ≤ ls.rest.length := by
  have step : ls.saveAndNext.rest.length ≤ ls.rest.length := by simp [saveAndNext, save, next]
  unfold readLongString at ok
  simp only at ok
  split at ok
  · split at ok
    · contradiction
    · rename_i nl _ ls₁ hi
      cases hc : ls.saveAndNext.current with
      | none => simp [currIsNewline, hc] at nl
      | some c =>
          have := length_rest_inclinenumber hc hi
          have := length_rest_readLongStringLoop ok
          omega
  · exact (length_rest_readLongStringLoop ok).trans step

def llexLoop (str2d : List UInt8 → Bool) (ls : LexState) : Except String Lexeme :=
  match h : ls.current with
  | none => .ok { token := TK_EOS, start := ls.rest, ls }
  | some c =>
      if c = ch '\n' ∨ c = ch '\r' then
        match hi : ls.inclinenumber with
        | .error msg => .error msg
        | .ok ls' => llexLoop str2d ls'
      else if c = ch '-' then
        if ls.next.current ≠ some (ch '-') then
          .ok { token := c.toNat, start := ls.rest, ls := ls.next }
        else
          let comment := ls.next.next
          if comment.current = some (ch '[') then
            let sep := (skipSep comment).1
            let ls' := (skipSep comment).2.resetbuffer
            if 0 ≤ sep then
              match hl : readLongString false sep ls' with
              | .error msg => .error msg
              | .ok ls'' => llexLoop str2d ls''.resetbuffer
            else llexLoop str2d (skipLine ls')
          else llexLoop str2d (skipLine comment)
      else if c = ch '[' then
        let sep := (skipSep ls).1
        if 0 ≤ sep then
          (readLongString true sep (skipSep ls).2).map fun ls' =>
            { token := TK_STRING, ts := some (longStringValue sep ls'), start := ls.rest, ls := ls' }
        else if sep = -1 then .ok { token := c.toNat, start := ls.rest, ls := (skipSep ls).2 }
        else .error "invalid long string delimiter"
      else if c = ch '=' then .ok (withEq ls c TK_EQ)
      else if c = ch '<' then .ok (withEq ls c TK_LE)
      else if c = ch '>' then .ok (withEq ls c TK_GE)
      else if c = ch '~' then .ok (withEq ls c TK_NE)
      else if c = ch '"' ∨ c = ch '\'' then
        (readString c ls).map fun ls' =>
          { token := TK_STRING, ts := some (stringValue ls'), start := ls.rest, ls := ls' }
      else if c = ch '.' then dotLexeme str2d ls
      else if c = ch ' ' ∨ c = ch '\t' ∨ c = 0x0b ∨ c = 0x0c then llexLoop str2d ls.next
      else if isDigit c then
        (readNumeral str2d ls).map fun ls' =>
          { token := TK_NUMBER, start := ls.rest, ls := ls' }
      else if isAlpha c ∨ c = ch '_' then .ok (identifierLexeme ls)
      else .ok { token := c.toNat, start := ls.rest, ls := ls.next }
termination_by ls.rest.length
decreasing_by
  all_goals have first := length_rest_next h
  all_goals have second : ls.next.next.rest.length ≤ ls.next.rest.length := by simp [next]
  · exact length_rest_inclinenumber h hi
  · have dirty := @length_rest_skipSep ls.next.next _ ‹_›
    have long := length_rest_readLongString hl
    exact lt_of_le_of_lt (long.trans (dirty.le.trans second)) first
  · have dirty := @length_rest_skipSep ls.next.next _ ‹_›
    have line := length_rest_skipLine (skipSep ls.next.next).2.resetbuffer
    exact lt_of_le_of_lt (line.trans (dirty.le.trans second)) first
  · exact lt_of_le_of_lt ((length_rest_skipLine ls.next.next).trans second) first
  · exact first

theorem length_rest_saveAndNext {ls : LexState} {c : UInt8} (h : ls.current = some c) :
    ls.saveAndNext.rest.length < ls.rest.length :=
  length_rest_next h

theorem length_rest_saveWhile (p : UInt8 → Bool) (ls : LexState) :
    (saveWhile p ls).rest.length ≤ ls.rest.length := by
  fun_induction saveWhile p ls with
  | case1 ls c h _ ih => exact ih.trans (length_rest_saveAndNext h).le
  | case2 ls c h _ => exact le_rfl
  | case3 ls h => exact le_rfl

theorem length_rest_checkNext (ls : LexState) (set : List UInt8) :
    (ls.checkNext set).2.rest.length ≤ ls.rest.length := by
  unfold checkNext
  split
  · split
    · simp
    · exact le_rfl
  · exact le_rfl

theorem length_rest_readNumeral {str2d : List UInt8 → Bool} {ls ls' : LexState}
    (ok : readNumeral str2d ls = .ok ls') : ls'.rest.length ≤ ls.saveAndNext.rest.length := by
  simp only [readNumeral] at ok
  have digits := length_rest_saveWhile (fun c => isDigit c || c == ch '.') ls.saveAndNext
  have exponent := length_rest_checkNext
    (saveWhile (fun c => isDigit c || c == ch '.') ls.saveAndNext) (bytes "Ee")
  have sign := length_rest_checkNext (checkNext
    (saveWhile (fun c => isDigit c || c == ch '.') ls.saveAndNext) (bytes "Ee")).2 (bytes "+-")
  split at ok
  all_goals
    split at ok
    · cases ok
      refine (length_rest_saveWhile isAlnum_ _).trans ?_
      omega
    · contradiction

theorem length_rest_readStringLoop {del : UInt8} {ls ls' : LexState}
    (ok : readStringLoop del ls = .ok ls') : ls'.rest.length ≤ ls.rest.length := by
  fun_induction readStringLoop del ls with
  | case1 ls h => contradiction
  | case2 ls h => cases ok; exact le_rfl
  | case3 ls c h _ _ => contradiction
  | case4 ls _ h _ _ ih => exact (ih ok).trans (length_rest_next h).le
  | case5 ls d hd e _ h _ _ ih => exact (ih ok).trans (by simp; omega)
  | case6 ls d hd _ _ msg hi h => contradiction
  | case7 ls d hd _ _ ls₁ hi h _ _ ih =>
      have count := length_rest_inclinenumber (c := d) (by simpa [save, current] using hd) hi
      have step := length_rest_next h
      simp only [rest_save] at count
      exact (ih ok).trans (by omega)
  | case8 ls d hd _ _ _ h _ _ ih => exact (ih ok).trans (by simp; omega)
  | case9 ls d hd _ _ _ _ h => contradiction
  | case10 ls d hd _ _ _ _ h _ _ ih =>
      refine (ih ok).trans ?_
      exact (length_rest_readEscape 3 ls.next 0).trans (length_rest_next h).le
  | case11 ls c h _ _ _ ih => exact (ih ok).trans (length_rest_saveAndNext h).le

theorem length_rest_dotLexeme {str2d : List UInt8 → Bool} {ls : LexState} {lexeme : Lexeme}
    {c : UInt8} (h : ls.current = some c) (ok : dotLexeme str2d ls = .ok lexeme) :
    lexeme.ls.rest.length < ls.rest.length := by
  have first := length_rest_saveAndNext h
  have second := length_rest_checkNext ls.saveAndNext (bytes ".")
  have third := length_rest_checkNext (ls.saveAndNext.checkNext (bytes ".")).2 (bytes ".")
  simp only [dotLexeme] at ok
  split at ok
  · cases ok
    exact lt_of_le_of_lt (third.trans second) first
  · split at ok
    · cases hn : readNumeral str2d (ls.saveAndNext.checkNext (bytes ".")).2 with
      | error msg => simp [hn, Except.map] at ok
      | ok ls' =>
          simp only [hn, Except.map, Except.ok.injEq] at ok
          subst ok
          have numeral := length_rest_readNumeral hn
          have step : (ls.saveAndNext.checkNext (bytes ".")).2.saveAndNext.rest.length ≤
              (ls.saveAndNext.checkNext (bytes ".")).2.rest.length := by simp
          simp only
          omega
    · cases ok
      exact lt_of_le_of_lt second first

theorem length_rest_withEq {ls : LexState} {c : UInt8} (d : UInt8) (compound : Nat)
    (h : ls.current = some c) : (withEq ls d compound).ls.rest.length < ls.rest.length := by
  have first := length_rest_next h
  unfold withEq
  split
  · exact lt_of_le_of_lt (by simp) first
  · exact first

theorem length_rest_llexLoop {str2d : List UInt8 → Bool} {ls : LexState} {lexeme : Lexeme}
    (ok : llexLoop str2d ls = .ok lexeme) (more : lexeme.token ≠ TK_EOS) :
    lexeme.ls.rest.length < ls.rest.length := by
  fun_induction llexLoop str2d ls with
  | case1 ls h => cases ok; contradiction
  | case2 ls c h _ msg hi => contradiction
  | case3 ls c h _ ls' hi ih => exact (ih ok).trans (length_rest_inclinenumber h hi)
  | case4 ls _ h _ => cases ok; exact length_rest_next h
  | case5 ls _ comment _ sep ls' _ msg hl => contradiction
  | case6 ls _ comment hb sep ls' _ ls'' hl =>
      rename_i h _ ih
      have dirty := length_rest_skipSep hb
      have long := length_rest_readLongString hl
      have first := length_rest_next h
      have second : comment.rest.length ≤ ls.next.rest.length := by simp [comment]
      have rest := ih ok
      simp only [rest_resetbuffer, ls'] at rest long
      omega
  | case7 ls _ comment hb sep ls' _ =>
      rename_i h _ ih
      have dirty := length_rest_skipSep hb
      have line := length_rest_skipLine ls'
      have first := length_rest_next h
      have second : comment.rest.length ≤ ls.next.rest.length := by simp [comment]
      have rest := ih ok
      simp only [rest_resetbuffer, ls'] at rest line
      omega
  | case8 ls _ comment hb =>
      rename_i h _ ih
      have line := length_rest_skipLine comment
      have first := length_rest_next h
      have second : comment.rest.length ≤ ls.next.rest.length := by simp [comment]
      have rest := ih ok
      omega
  | case9 ls sep _ h =>
      cases hl : readLongString true sep (skipSep ls).2 with
      | error msg => simp [hl, Except.map] at ok
      | ok ls' =>
          simp only [hl, Except.map, Except.ok.injEq] at ok
          subst ok
          exact lt_of_le_of_lt (length_rest_readLongString hl) (length_rest_skipSep h)
  | case10 ls sep _ _ h => cases ok; exact length_rest_skipSep h
  | case11 ls sep _ _ h => contradiction
  | case12 ls h => cases ok; exact length_rest_withEq _ _ h
  | case13 ls h => cases ok; exact length_rest_withEq _ _ h
  | case14 ls h => cases ok; exact length_rest_withEq _ _ h
  | case15 ls h => cases ok; exact length_rest_withEq _ _ h
  | case16 ls c h =>
      cases hl : readStringLoop c ls.saveAndNext with
      | error msg => simp [readString, hl, Except.map] at ok
      | ok ls' =>
          simp only [readString, hl, Except.map, Except.ok.injEq] at ok
          subst ok
          have string := length_rest_readStringLoop hl
          have first := length_rest_saveAndNext h
          simp only [rest_saveAndNext, List.length_tail] at string first ⊢
          omega
  | case17 ls h => exact length_rest_dotLexeme h ok
  | case18 ls c h _ _ _ _ _ _ _ _ _ _ ih => exact (ih ok).trans (length_rest_next h)
  | case19 ls c h =>
      cases hn : readNumeral str2d ls with
      | error msg => simp [hn, Except.map] at ok
      | ok ls' =>
          simp only [hn, Except.map, Except.ok.injEq] at ok
          subst ok
          exact lt_of_le_of_lt (length_rest_readNumeral hn) (length_rest_saveAndNext h)
  | case20 ls c h =>
      have name := length_rest_saveWhile isAlnum_ ls.saveAndNext
      have first := length_rest_saveAndNext h
      simp only [identifierLexeme] at ok
      split at ok <;> cases ok <;> exact lt_of_le_of_lt name first
  | case21 ls c h => cases ok; exact length_rest_next h

def llex (str2d : List UInt8 → Bool) (ls : LexState) : Except String Lexeme :=
  llexLoop str2d ls.resetbuffer

end Zua.Llex
