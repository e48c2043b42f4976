import Zua.Lex.Lexer
import Zua.Lex.Llex

/-!
# The two lexers side by side

Each nested scanning loop of `llex.c` is simulated by the state of `Lexer.next` it corresponds to:
`readStringLoop` by `stringLiteral`, `readLongStringLoop` by `longString` and `longComment`,
`skipLine` by `shortComment`, and the outer loop by `start`. Where the C code consumes a run of
bytes at once, the automaton takes one step for each of them.
-/

namespace Zua.Lex
open Zua.Llex Zua.Llex.LexState

def LexError.message : LexError → String
  | .unfinishedString => "unfinished string"
  | .unfinishedLongComment => "unfinished long comment"
  | .unfinishedLongString => "unfinished long string"
  | .invalidLongStringDelimiter => "invalid long string delimiter"
  | .malformedNumber => "malformed number"
  | .escapeSequenceTooLarge => "escape sequence too large"
  | .chunkHasTooManyLines => "chunk has too many lines"
  | .lexicalElementTooLong => "lexical element too long"

namespace Lexer

/-! ## One step of the loop -/

theorem getElem?_of_drop {buffer rest : List UInt8} {i : Nat} {c : UInt8}
    (h : buffer.drop i = c :: rest) : buffer[i]? = some c := by
  rw [← List.head?_drop, h, List.head?_cons]

theorem lt_of_drop {buffer rest : List UInt8} {i : Nat} {c : UInt8}
    (h : buffer.drop i = c :: rest) : i < buffer.length :=
  (List.getElem?_eq_some_iff.mp (getElem?_of_drop h)).1

theorem drop_succ {buffer rest : List UInt8} {i : Nat} {c : UInt8}
    (h : buffer.drop i = c :: rest) : buffer.drop (i + 1) = rest := by
  rw [← List.tail_drop, h, List.tail_cons]

structure Defaults (lexer : Lexer) : Prop where
  compat : lexer.checkNextBugCompat = true
  lines : lexer.maxLines = MAX_INT
  fits : lexer.buffer.length ≤ lexer.maxLexicalElementSize

variable {self self' : Lexer} {v v' : Vars} {c : UInt8} {rest : List UInt8}

theorem Defaults.at (defaults : Defaults self) (i n : Nat) :
    Defaults { self with index := i, lineNumber := n } :=
  ⟨defaults.compat, defaults.lines, defaults.fits⟩

theorem loop_eq (fits : self.buffer.length ≤ self.maxLexicalElementSize)
    (start : v.result.start ≤ self.index) (h : self.buffer.drop self.index = c :: rest) :
    self.loop v = match self.step v c with
      | .cont self' v' => loop { self' with index := self'.index + 1 } v'
      | flow => flow.outcome := by
  have bound := lt_of_drop h
  have here := getElem?_of_drop h
  rw [loop]
  split
  · simp_all
  · rename_i d hd
    obtain rfl : d = c := by simpa [hd] using here
    rw [if_neg (by omega), if_neg (by omega)]
    cases self.step v d <;> rfl

theorem loop_cont (fits : self.buffer.length ≤ self.maxLexicalElementSize)
    (start : v.result.start ≤ self.index) (h : self.buffer.drop self.index = c :: rest)
    (hs : self.step v c = .cont self' v') :
    self.loop v = loop { self' with index := self'.index + 1 } v' := by
  rw [loop_eq fits start h, hs]

theorem loop_done (fits : self.buffer.length ≤ self.maxLexicalElementSize)
    (start : v.result.start ≤ self.index) (h : self.buffer.drop self.index = c :: rest)
    (hs : self.step v c = .done self' v') : self.loop v = self'.finalize v' := by
  rw [loop_eq fits start h, hs]
  rfl

theorem loop_fail {err : LexError} (fits : self.buffer.length ≤ self.maxLexicalElementSize)
    (start : v.result.start ≤ self.index) (h : self.buffer.drop self.index = c :: rest)
    (hs : self.step v c = .fail self' err) : self.loop v = .error self' err := by
  rw [loop_eq fits start h, hs]
  rfl

theorem loop_end (h : self.buffer.drop self.index = []) : self.loop v = (self.atEnd v).outcome := by
  have : self.buffer[self.index]? = none := by rw [← List.head?_drop, h, List.head?_nil]
  rw [loop]
  split
  · rfl
  · simp_all

theorem step_start (h : v.state = .start) : self.step v c = self.stepStart v c := by
  simp only [step, h]

theorem step_identifier (h : v.state = .identifier) :
    self.step v c = self.stepIdentifier v c := by
  simp only [step, h]

theorem step_stringLiteral (h : v.state = .stringLiteral) :
    self.step v c = self.stepStringLiteral v c := by
  simp only [step, h]

theorem step_backslash (h : v.state = .stringLiteralBackslash) :
    self.step v c = self.stepStringLiteralBackslash v c := by
  simp only [step, h]

theorem step_lineEndings (h : v.state = .stringLiteralBackslashLineEndings) :
    self.step v c = self.stepStringLiteralBackslashLineEndings v c := by
  simp only [step, h]

/-! ## Line endings -/

/-- Both lexers stand at the same byte with the same line number, and the line ending that
`next` remembers does not pair with the byte they stand at. -/
structure Sync (lexer : Lexer) (v : Vars) (ls : LexState) : Prop where
  rest : lexer.buffer.drop lexer.index = ls.rest
  bound : lexer.index ≤ lexer.buffer.length
  line : lexer.lineNumber = ls.linenumber
  start : v.result.start ≤ lexer.index
  last : ∀ l, v.lastLineEndingIndex = some l → l < lexer.index ∧
    ∃ d, lexer.buffer[l]? = some d ∧ isNewline d ∧
      (l + 1 = lexer.index → ∀ c, lexer.buffer[lexer.index]? = some c → isNewline c → d = c)

variable {ls ls' : LexState} {w : Vars}

theorem rest_of_current (h : ls.current = some c) : ∃ rest, ls.rest = c :: rest := by
  cases hr : ls.rest with
  | nil => simp [current, hr] at h
  | cons d rest => exact ⟨rest, by simpa [current, hr] using h⟩

theorem rest_of_current_none (h : ls.current = none) : ls.rest = [] := by
  simpa [current] using h

theorem Sync.index_end (sync : Sync self v ls) (hr : ls.rest = []) :
    self.index = self.buffer.length :=
  le_antisymm sync.bound (List.drop_eq_nil_iff.mp (sync.rest.trans hr))

theorem Sync.advance (v' : Vars) (ls' : LexState) (sync : Sync self v ls) (hr : ls.rest = c :: rest)
    (rest' : ls'.rest = rest) (line : ls'.linenumber = ls.linenumber)
    (start : v'.result.start ≤ self.index + 1)
    (last : v'.lastLineEndingIndex = v.lastLineEndingIndex) :
    Sync { self with index := self.index + 1 } v' ls' where
  rest := by rw [rest']; exact drop_succ (sync.rest.trans hr)
  bound := lt_of_drop (sync.rest.trans hr)
  line := by rw [line]; exact sync.line
  start := start
  last := by
    intro l hl
    obtain ⟨below, d, hd, newline, -⟩ := sync.last l (last ▸ hl)
    exact ⟨by simp only; omega, d, hd, newline, fun here => by simp only at here; omega⟩

theorem Sync.congr (sync : Sync self v ls) (rest' : ls'.rest = ls.rest)
    (line : ls'.linenumber = ls.linenumber) (start : v'.result.start ≤ self.index)
    (last : v'.lastLineEndingIndex = v.lastLineEndingIndex) : Sync self v' ls' where
  rest := by rw [rest']; exact sync.rest
  bound := sync.bound
  line := by rw [line]; exact sync.line
  start := start
  last := by rw [last]; exact sync.last

/-- What `inclinenumber` leaves of the input after the line ending `c`. -/
def afterBreak (c : UInt8) (rest : List UInt8) : List UInt8 :=
  if rest.head?.any (fun d => isNewline d && d != c) then rest.tail else rest

theorem inclinenumber_eq (hr : ls.rest = c :: rest) :
    ls.inclinenumber = if MAX_INT ≤ ls.linenumber + 1 then .error "chunk has too many lines"
      else .ok { ls with rest := afterBreak c rest, linenumber := ls.linenumber + 1 } := by
  have pair : (ls.next.currIsNewline && ls.next.current != ls.current) =
      rest.head?.any (fun d => isNewline d && d != c) := by
    cases rest <;> simp [currIsNewline, current, hr, bne]
  simp only [inclinenumber, pair, afterBreak]
  split <;> simp [LexState.next, hr]

theorem incrementLineNumber_fresh (sync : Sync self v ls) (hr : ls.rest = c :: rest)
    (newline : isNewline c) (last : w.lastLineEndingIndex = v.lastLineEndingIndex) :
    self.incrementLineNumber w =
      if self.maxLines ≤ self.lineNumber + 1 then
        reportLexError { self with lineNumber := self.lineNumber + 1 } .chunkHasTooManyLines
          { id := .eof, start := self.index, stop := self.index,
            lineNumber := self.lineNumber + 1, char := none } .eof
      else .cont { self with lineNumber := self.lineNumber + 1 }
        { w with lastLineEndingIndex := some self.index,
                 result := { w.result with lineNumber := self.lineNumber + 1 } } := by
  have here := getElem?_of_drop (sync.rest.trans hr)
  have pair : self.currentIndexFormsLineEndingPair w.lastLineEndingIndex = some false := by
    rw [last]
    cases hl : v.lastLineEndingIndex with
    | none => rfl
    | some l =>
        obtain ⟨below, d, hd, newline', agree⟩ := sync.last l hl
        by_cases adjacent : l + 1 = self.index
        · have : d = c := agree adjacent c here newline
          subst this
          have hl' : l = self.index - 1 := by omega
          simp only [currentIndexFormsLineEndingPair, here, hd, newline, ← hl']
          simp
          omega
        · simp only [currentIndexFormsLineEndingPair]
          rw [if_neg (by omega), if_pos (by omega)]
  simp only [incrementLineNumber, pair]
  rfl

theorem incrementLineNumber_pair {d : UInt8} (positive : self.index ≠ 0)
    (last : w.lastLineEndingIndex = some (self.index - 1))
    (prev : self.buffer[self.index - 1]? = some c) (here : self.buffer[self.index]? = some d)
    (newline : isNewline c) (newline' : isNewline d) (different : d ≠ c)
    (lines : self.lineNumber < self.maxLines) :
    self.incrementLineNumber w = .cont self
      { w with lastLineEndingIndex := none,
               result := { w.result with lineNumber := self.lineNumber } } := by
  have pair : self.currentIndexFormsLineEndingPair w.lastLineEndingIndex = some true := by
    simp only [last, currentIndexFormsLineEndingPair, prev, here, newline, newline', positive]
    simpa using different.symm
  simp only [incrementLineNumber, pair, if_true]
  rw [if_neg (by omega)]

def Fails (outcome : Outcome) (msg : String) : Prop :=
  ∃ lexer err, outcome = .error lexer err ∧ err.message = msg

theorem fails_step {err : LexError} {t : Token} {id : Token.Id} (defaults : Defaults self)
    (sync : Sync self v ls) (hr : ls.rest = c :: rest)
    (hs : self.step v c = self.reportLexError err t id) : Fails (self.loop v) err.message :=
  ⟨_, _, loop_fail defaults.fits sync.start (sync.rest.trans hr) hs, rfl⟩

theorem fails_end {err : LexError} {t : Token} {id : Token.Id} (sync : Sync self v ls)
    (hr : ls.rest = []) (h : self.atEnd v = self.reportLexError err t id) :
    Fails (self.loop v) err.message :=
  ⟨_, _, (loop_end (sync.rest.trans hr)).trans (congrArg Flow.outcome h), rfl⟩

theorem Sync.stepBreak (w : Vars) (ls' : LexState) (sync : Sync self v ls)
    (hr : ls.rest = c :: rest) (newline : isNewline c)
    (single : rest.head?.any (fun d => isNewline d && d != c) = false)
    (last : w.lastLineEndingIndex = some self.index) (start : w.result.start ≤ self.index + 1)
    (rest' : ls'.rest = rest) :
    Sync { self with index := self.index + 1, lineNumber := ls'.linenumber } w ls' where
  rest := by rw [rest']; exact drop_succ (sync.rest.trans hr)
  bound := lt_of_drop (sync.rest.trans hr)
  line := rfl
  start := start
  last := by
    intro l hl
    obtain rfl : self.index = l := by simpa [last] using hl
    refine ⟨Nat.lt_succ_self _, c, getElem?_of_drop (sync.rest.trans hr), newline, ?_⟩
    intro _ d hd newline'
    have head : rest.head? = some d := by
      rw [← drop_succ (sync.rest.trans hr), List.head?_drop]
      exact hd
    rw [head, Option.any_some, newline', Bool.true_and, bne_eq_false_iff_eq] at single
    exact single.symm

theorem Sync.stepPair (w : Vars) (ls' : LexState) {d : UInt8} (sync : Sync self v ls)
    (hr : ls.rest = c :: d :: rest)
    (last : w.lastLineEndingIndex = none) (start : w.result.start ≤ self.index + 2)
    (rest' : ls'.rest = rest) :
    Sync { self with index := self.index + 2, lineNumber := ls'.linenumber } w ls' where
  rest := by rw [rest']; exact drop_succ (drop_succ (sync.rest.trans hr))
  bound := lt_of_drop (drop_succ (sync.rest.trans hr))
  line := rfl
  start := start
  last := by simp [last]

theorem cons_of_pair (h : rest.head?.any (fun d => isNewline d && d != c) = true) :
    ∃ d rest', rest = d :: rest' ∧ isNewline d ∧ d ≠ c := by
  cases rest with
  | nil => simp at h
  | cons d rest' =>
      rw [List.head?_cons, Option.any_some, Bool.and_eq_true, bne_iff_ne] at h
      exact ⟨d, rest', rfl, h⟩

def counted (w : Vars) (last : Option Nat) (lineNumber : Nat) : Vars :=
  { w with lastLineEndingIndex := last, result := { w.result with lineNumber } }

/-- A line ending, single or paired, is passed over as `inclinenumber` does. `P` is what the caller
needs of the variables afterwards; it says how the second byte of a pair is handled. -/
theorem loop_lineBreak (P : Nat → Vars → Prop) (defaults : Defaults self) (sync : Sync self v ls)
    (hr : ls.rest = c :: rest) (newline : isNewline c)
    (first : self.step v c = self.incrementLineNumber w)
    (last : w.lastLineEndingIndex = v.lastLineEndingIndex)
    (start : w.result.start ≤ self.index + 1)
    (one : ∀ l n, P (self.index + 1) (counted w l n))
    (second : ∀ (lexer : Lexer) (l : Option Nat) (n : Nat) (d : UInt8), isNewline d →
      d ≠ c → lexer.index = self.index + 1 →
      ∃ w', lexer.step (counted w l n) d = lexer.incrementLineNumber w' ∧
        w'.lastLineEndingIndex = l ∧ w'.result.start ≤ self.index + 2 ∧
        ∀ l n, P (self.index + 2) (counted w' l n)) :
    match ls.inclinenumber with
    | .error msg => Fails (self.loop v) msg
    | .ok ls' => ∃ i w', self.loop v =
          loop { self with index := i, lineNumber := ls'.linenumber } w' ∧
        Sync { self with index := i, lineNumber := ls'.linenumber } w' ls' ∧ P i w' := by
  have fits := defaults.fits
  have line := sync.line
  have here := sync.rest.trans hr
  have fresh := first.trans (incrementLineNumber_fresh sync hr newline last)
  rw [inclinenumber_eq hr]
  by_cases many : MAX_INT ≤ ls.linenumber + 1
  · rw [if_pos (by rw [defaults.lines, line]; exact many)] at fresh
    simp only [if_pos many]
    exact ⟨_, _, loop_fail fits sync.start here fresh, rfl⟩
  · rw [if_neg (by rw [defaults.lines, line]; exact many)] at fresh
    simp only [if_neg many]
    have once := loop_cont fits sync.start here fresh
    by_cases pair : rest.head?.any (fun d => isNewline d && d != c) = true
    · obtain ⟨d, rest, rfl, newline', different⟩ := cons_of_pair pair
      obtain ⟨w', hs, hl, hw, hP⟩ := second
        { self with index := self.index + 1, lineNumber := self.lineNumber + 1 }
        (some self.index) (self.lineNumber + 1) d newline' different rfl
      have paired := @incrementLineNumber_pair
        { self with index := self.index + 1, lineNumber := self.lineNumber + 1 } c w' d
        (Nat.succ_ne_zero _) hl (getElem?_of_drop here) (getElem?_of_drop (drop_succ here))
        newline newline' different (by rw [defaults.lines]; simp only; omega)
      have twice := @loop_cont
        { self with index := self.index + 1, lineNumber := self.lineNumber + 1 } _
        (counted w (some self.index) (self.lineNumber + 1)) _ _ _ fits start (drop_succ here)
        (hs.trans paired)
      rw [line] at once twice
      refine ⟨self.index + 2, counted w' none (ls.linenumber + 1), once.trans twice,
        sync.stepPair (counted w' none (ls.linenumber + 1))
          { ls with rest := afterBreak c (d :: rest), linenumber := ls.linenumber + 1 }
          hr rfl hw ?_, hP _ _⟩
      simp only [afterBreak, pair]
      rfl
    · rw [line] at once
      refine ⟨self.index + 1, counted w (some self.index) (ls.linenumber + 1), once,
        sync.stepBreak (counted w (some self.index) (ls.linenumber + 1))
          { ls with rest := afterBreak c rest, linenumber := ls.linenumber + 1 }
          hr newline (by simpa using pair) rfl start ?_, one _ _⟩
      simp only [afterBreak, pair]
      rfl

structure AtStart (index : Nat) (v : Vars) : Prop where
  state : v.state = .start
  start : v.result.start = index
  id : v.result.id = .eof

theorem loop_startBreak (defaults : Defaults self) (sync : Sync self v ls)
    (hr : ls.rest = c :: rest) (newline : isNewline c) (id : v.result.id = .eof)
    (first : self.step v c = self.incrementLineNumber (self.restart v)) :
    match ls.inclinenumber with
    | .error msg => Fails (self.loop v) msg
    | .ok ls' => ∃ i w, self.loop v = loop { self with index := i, lineNumber := ls'.linenumber } w ∧
        Sync { self with index := i, lineNumber := ls'.linenumber } w ls' ∧ AtStart i w := by
  refine loop_lineBreak AtStart defaults sync hr newline first rfl le_rfl
    (fun l n => ⟨rfl, rfl, id⟩) ?_
  intro lexer l n d newline' _ index
  refine ⟨lexer.restart (counted (self.restart v) l n), ?_, rfl, ?_, fun l n => ⟨rfl, ?_, id⟩⟩
  · rw [isNewline, Bool.or_eq_true, beq_iff_eq, beq_iff_eq] at newline'
    simp only [step, counted, restart, stepStart, newline', if_true]
  · simp [restart, index]
  · simp [counted, restart, index]

structure InLong (state : State) (level start : Nat) (id : Token.Id) (v : Vars) : Prop where
  state : v.state = state
  level : v.expectedStringLevel = level
  start : v.result.start = start
  id : v.result.id = id

theorem loop_longBreak {state : State} {level start : Nat} {id : Token.Id}
    (defaults : Defaults self) (sync : Sync self v ls)
    (hr : ls.rest = c :: rest) (newline : isNewline c)
    (long : InLong state level start id w) (hstate : state = .longString ∨ state = .longComment)
    (first : self.step v c = self.incrementLineNumber w)
    (last : w.lastLineEndingIndex = v.lastLineEndingIndex)
    (bound : w.result.start ≤ self.index) :
    match ls.inclinenumber with
    | .error msg => Fails (self.loop v) msg
    | .ok ls' => ∃ i w, self.loop v = loop { self with index := i, lineNumber := ls'.linenumber } w ∧
        Sync { self with index := i, lineNumber := ls'.linenumber } w ls' ∧
        InLong state level start id w := by
  refine loop_lineBreak (fun _ => InLong state level start id) defaults sync hr newline first last
    (by omega) (fun l n => ⟨long.state, long.level, long.start, long.id⟩) ?_
  intro lexer l n d newline' _ index
  refine ⟨counted w l n, ?_, rfl, ?_, fun l n => ⟨long.state, long.level, long.start, long.id⟩⟩
  · have other : d ≠ ch ']' := by rintro rfl; simp at newline'
    have : (counted w l n).state = state := long.state
    rcases hstate with rfl | rfl <;>
      simp only [step, this, stepLong, other, if_false, maybeIncrementLineNumber, newline', if_true]
  · simp only [counted]; omega

theorem loop_plain (w : Vars) (ls' : LexState) (defaults : Defaults self) (sync : Sync self v ls)
    (hr : ls.rest = c :: rest) (hs : self.step v c = .cont self w)
    (rest' : ls'.rest = rest) (line : ls'.linenumber = ls.linenumber)
    (start : w.result.start ≤ self.index + 1)
    (last : w.lastLineEndingIndex = v.lastLineEndingIndex) :
    self.loop v = loop { self with index := self.index + 1 } w ∧
      Sync { self with index := self.index + 1 } w ls' :=
  ⟨loop_cont defaults.fits sync.start (sync.rest.trans hr) hs,
    sync.advance w ls' hr rest' line start last⟩

end Lexer

end Zua.Lex
