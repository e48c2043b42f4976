import Zua.Lex.Token

/-!
# The lexer of `lex.zig`

`Lexer.next` is one loop over the buffer around a 22-state switch. `step` is one pass through
that switch, with one definition for each state, `loop` is the `while` with its `else` branch,
and `trap` stands for a failed safety check: an index underflow, a failed assertion or an
`unreachable`.
-/

namespace Zua.Lex

structure Lexer where
  chunkName : List UInt8 := []
  buffer : List UInt8
  index : Nat := 0
  lineNumber : Nat := 1
  errorContext : Option LexErrorContext := none
  checkNextBugCompat : Bool := true
  longStrNestingCompat : Bool := false
  maxLines : Nat := 2 ^ 31 - 1 - 2
  maxLexicalElementSize : Nat := (2 ^ 64 - 1 - 2) / 2
  deriving DecidableEq, Repr

inductive State
  | start
  | identifier
  | stringLiteral
  | stringLiteralBackslash
  | stringLiteralBackslashLineEndings
  | dash
  | dot
  | concat
  | commentStart
  | shortComment
  | longCommentStart
  | longComment
  | longCommentPossibleEnd
  | longStringStart
  | longString
  | longStringPossibleEnd
  | number
  | numberExponentStart
  | numberExponent
  | numberHexStart
  | numberHex
  | compoundEqual
  deriving DecidableEq, Repr

/-- The local variables of `next`; what the source leaves `undefined` starts as zero. -/
structure Vars where
  result : Token
  state : State := .start
  stringDelim : UInt8 := 0
  stringLevel : Nat := 0
  expectedStringLevel : Nat := 0
  stringEscapeN : Nat := 0
  stringEscapeI : Nat := 0
  stringEscapeLineEnding : UInt8 := 0
  lastLineEndingIndex : Option Nat := none
  numberIsFloat : Bool := false
  numberStartingChar : UInt8 := 0
  numberExponentSignedChar : Option UInt8 := none
  numberIsNullTerminated : Bool := false
  deriving DecidableEq, Repr

inductive Flow
  | cont (self : Lexer) (v : Vars)
  | done (self : Lexer) (v : Vars)
  | fail (self : Lexer) (err : LexError)
  | trap
  deriving DecidableEq, Repr

inductive Outcome
  | token (self : Lexer) (token : Token)
  | error (self : Lexer) (err : LexError)
  | trap
  deriving DecidableEq, Repr

namespace Lexer

def init (buffer chunkName : List UInt8) : Lexer := { buffer, chunkName }

def reportLexError (self : Lexer) (err : LexError) (unfinished : Token) (id : Token.Id) : Flow :=
  .fail { self with errorContext := some {
    token := { id, start := unfinished.start, stop := self.index,
               lineNumber := self.lineNumber, char := none }
    err } } err

def reportLexErrorInc (self : Lexer) (err : LexError) (unfinished : Token) (id : Token.Id) :
    Flow :=
  reportLexError { self with index := self.index + 1 } err unfinished id

/-- `none` when one of the two assertions fails or `index - 1` underflows. -/
def currentIndexFormsLineEndingPair (self : Lexer) : Option Nat → Option Bool
  | none => some false
  | some last =>
      if self.index = 0 then none
      else if last ≠ self.index - 1 then some false
      else match self.buffer[self.index]?, self.buffer[last]? with
        | some cur, some prev =>
            if isNewline cur && isNewline prev then some (prev != cur) else none
        | _, _ => none

def incrementLineNumber (self : Lexer) (v : Vars) : Flow :=
  match self.currentIndexFormsLineEndingPair v.lastLineEndingIndex with
  | none => .trap
  | some pair =>
      let lineNumber := if pair then self.lineNumber else self.lineNumber + 1
      let last := if pair then none else some self.index
      let self := { self with lineNumber }
      if self.maxLines ≤ self.lineNumber then
        self.reportLexError .chunkHasTooManyLines
          { id := .eof, start := self.index, stop := self.index,
            lineNumber := self.lineNumber, char := none } .eof
      else
        .cont self { v with
          lastLineEndingIndex := last, result := { v.result with lineNumber := self.lineNumber } }

def maybeIncrementLineNumber (self : Lexer) (v : Vars) (c : UInt8) : Flow :=
  if isNewline c then self.incrementLineNumber v
  else .cont self { v with result := { v.result with lineNumber := self.lineNumber } }

def restart (self : Lexer) (v : Vars) : Vars :=
  { v with state := .start, result := { v.result with start := self.index + 1 } }

def finish (self : Lexer) (v : Vars) (id : Token.Id) : Flow :=
  .done self { v with result := { v.result with id } }

def finishInc (self : Lexer) (v : Vars) (id : Token.Id) : Flow :=
  finish { self with index := self.index + 1 } v id

def backtrack (self : Lexer) (v : Vars) : Flow :=
  if self.index = 0 then .trap
  else .cont { self with index := self.index - 1 } { v with state := .stringLiteral }

def stepStart (self : Lexer) (v : Vars) (c : UInt8) : Flow :=
  if c = ch '\n' ∨ c = ch '\r' then self.incrementLineNumber (self.restart v)
  else if c = ch ' ' ∨ c = ch '\t' ∨ c = 0x0b ∨ c = 0x0c then .cont self (self.restart v)
  else if c = ch '-' then .cont self { v with state := .dash }
  else if isAlpha c ∨ c = ch '_' then
    .cont self { v with state := .identifier, result := { v.result with id := .name } }
  else if isDigit c then
    .cont self { v with state := .number, numberStartingChar := c,
                        numberIsNullTerminated :=
                          if self.checkNextBugCompat then false else v.numberIsNullTerminated }
  else if c = ch '"' ∨ c = ch '\'' then
    .cont self { v with state := .stringLiteral, stringDelim := c,
                        result := { v.result with id := .string } }
  else if c = ch '.' then .cont self { v with state := .dot }
  else if c = ch '>' ∨ c = ch '<' ∨ c = ch '~' ∨ c = ch '=' then
    .cont self { v with state := .compoundEqual }
  else if c = ch '[' then .cont self { v with state := .longStringStart, expectedStringLevel := 0 }
  else self.finishInc v .singleChar

def identifierId (self : Lexer) (v : Vars) : Token.Id :=
  (Token.idFromName ((self.buffer.take self.index).drop v.result.start)).getD v.result.id

def stepIdentifier (self : Lexer) (v : Vars) (c : UInt8) : Flow :=
  if isAlpha c ∨ c = ch '_' ∨ isDigit c then .cont self v
  else self.finish v (self.identifierId v)

def stepStringLiteral (self : Lexer) (v : Vars) (c : UInt8) : Flow :=
  if c = ch '\\' then
    .cont self { v with state := .stringLiteralBackslash, stringEscapeI := 0, stringEscapeN := 0 }
  else if c = ch '"' ∨ c = ch '\'' then
    if c = v.stringDelim then self.finishInc v v.result.id else .cont self v
  else if c = ch '\n' ∨ c = ch '\r' then self.reportLexError .unfinishedString v.result .string
  else .cont self v

def stepStringLiteralBackslash (self : Lexer) (v : Vars) (c : UInt8) : Flow :=
  if isDigit c then
    let v := { v with stringEscapeN := 10 * v.stringEscapeN + (c - ch '0').toNat,
                      stringEscapeI := v.stringEscapeI + 1 }
    if v.stringEscapeI = 3 then
      if 255 < v.stringEscapeN then
        self.reportLexErrorInc .escapeSequenceTooLarge v.result .string
      else .cont self { v with state := .stringLiteral }
    else .cont self v
  else if c = ch '\r' ∨ c = ch '\n' then
    if 0 < v.stringEscapeI then self.reportLexError .unfinishedString v.result .string
    else self.incrementLineNumber
      { v with state := .stringLiteralBackslashLineEndings, stringEscapeLineEnding := c }
  else if 0 < v.stringEscapeI then self.backtrack v
  else .cont self { v with state := .stringLiteral }

def stepStringLiteralBackslashLineEndings (self : Lexer) (v : Vars) (c : UInt8) : Flow :=
  if c = ch '\r' ∨ c = ch '\n' then
    if c = v.stringEscapeLineEnding then self.reportLexError .unfinishedString v.result .string
    else self.incrementLineNumber { v with state := .stringLiteral }
  else self.backtrack v

def stepDash (self : Lexer) (v : Vars) (c : UInt8) : Flow :=
  if c = ch '-' then .cont self { v with state := .commentStart }
  else self.finish v .singleChar

def stepCommentStart (self : Lexer) (v : Vars) (c : UInt8) : Flow :=
  if c = ch '[' then
    .cont self { v with state := .longCommentStart, expectedStringLevel := 0 }
  else if c = ch '\r' ∨ c = ch '\n' then self.incrementLineNumber (self.restart v)
  else .cont self { v with state := .shortComment }

def stepLongStart (self : Lexer) (v : Vars) (c : UInt8) : Flow :=
  if c = ch '=' then .cont self { v with expectedStringLevel := v.expectedStringLevel + 1 }
  else if c = ch '[' then
    .cont self { v with
      state := if v.state = .longCommentStart then .longComment else .longString }
  else if v.state = .longCommentStart then
    if c = ch '\n' ∨ c = ch '\r' then self.incrementLineNumber (self.restart v)
    else .cont self { v with state := .shortComment }
  else if 0 < v.expectedStringLevel then
    self.reportLexError .invalidLongStringDelimiter v.result .string
  else self.finish v .singleChar

def stepLong (self : Lexer) (v : Vars) (c : UInt8) : Flow :=
  if c = ch ']' then
    .cont self { v with
      state := if v.state = .longComment then .longCommentPossibleEnd else .longStringPossibleEnd
      stringLevel := 0 }
  else self.maybeIncrementLineNumber v c

def stepLongPossibleEnd (self : Lexer) (v : Vars) (c : UInt8) : Flow :=
  if c = ch ']' then
    if v.stringLevel = v.expectedStringLevel then
      if v.state = .longCommentPossibleEnd then .cont self (self.restart v)
      else self.finishInc v .string
    else .cont self { v with stringLevel := 0 }
  else if c = ch '=' then .cont self { v with stringLevel := v.stringLevel + 1 }
  else
    self.maybeIncrementLineNumber { v with
      state := if v.state = .longCommentPossibleEnd then .longComment else .longString } c

def stepShortComment (self : Lexer) (v : Vars) (c : UInt8) : Flow :=
  if c = ch '\n' ∨ c = ch '\r' then self.incrementLineNumber (self.restart v)
  else .cont self v

def stepDot (self : Lexer) (v : Vars) (c : UInt8) : Flow :=
  if c = ch '.' then .cont self { v with state := .concat }
  else if isDigit c then
    .cont self { v with state := .number, numberStartingChar := ch '.', numberIsFloat := true,
                        numberIsNullTerminated :=
                          if self.checkNextBugCompat then false else v.numberIsNullTerminated }
  else if self.checkNextBugCompat ∧ c = 0 then .cont self { v with state := .concat }
  else self.finish v .singleChar

def stepConcat (self : Lexer) (v : Vars) (c : UInt8) : Flow :=
  if c = ch '.' then self.finishInc v .ellipsis
  else if self.checkNextBugCompat ∧ c = 0 then self.finishInc v .ellipsis
  else self.finish v .concat

def stepNumber (self : Lexer) (v : Vars) (c : UInt8) : Flow :=
  if isDigit c then .cont self v
  else if c = ch '.' then
    if v.numberIsFloat then self.reportLexErrorInc .malformedNumber v.result .number
    else .cont self { v with numberIsFloat := true }
  else if c = ch 'x' ∨ c = ch 'X' then
    if v.numberStartingChar ≠ ch '0' then
      self.reportLexErrorInc .malformedNumber v.result .number
    else .cont self { v with state := .numberHexStart }
  else if c = ch 'e' ∨ c = ch 'E' then
    .cont self { v with state := .numberExponentStart, numberExponentSignedChar := none }
  else if isAlpha c then self.reportLexErrorInc .malformedNumber v.result .number
  else if c = ch '_' then self.reportLexErrorInc .malformedNumber v.result .number
  else if self.checkNextBugCompat ∧ c = 0 then
    .cont self { v with state := .numberExponentStart, numberExponentSignedChar := none,
                        numberIsNullTerminated := true }
  else self.finish v .number

def isHexDigit (c : UInt8) : Bool :=
  isDigit c || (ch 'a' ≤ c && c ≤ ch 'f') || (ch 'A' ≤ c && c ≤ ch 'F')

def stepNumberHex (self : Lexer) (v : Vars) (c : UInt8) : Flow :=
  if isHexDigit c then .cont self { v with state := .numberHex }
  else if isAlpha c then self.reportLexErrorInc .malformedNumber v.result .number
  else if c = ch '_' then self.reportLexErrorInc .malformedNumber v.result .number
  else self.finish v .number

def stepNumberExponentStart (self : Lexer) (v : Vars) (c : UInt8) : Flow :=
  if self.checkNextBugCompat ∧ v.numberIsNullTerminated then
    if c = 0 ∨ c = ch '-' ∨ c = ch '+' ∨ isDigit c ∨ isAlpha c ∨ c = ch '_' then
      .cont self { v with state := .numberExponent }
    else self.finish v .number
  else if isDigit c then .cont self { v with state := .numberExponent }
  else if c = ch '-' ∨ c = ch '+' then
    if v.numberExponentSignedChar.isSome then
      self.reportLexErrorInc .malformedNumber v.result .number
    else .cont self { v with numberExponentSignedChar := some c }
  else self.reportLexErrorInc .malformedNumber v.result .number

def stepNumberExponent (self : Lexer) (v : Vars) (c : UInt8) : Flow :=
  if self.checkNextBugCompat ∧ v.numberIsNullTerminated then
    if isDigit c ∨ isAlpha c ∨ c = ch '_' then .cont self v
    else self.finish v .number
  else if isDigit c then .cont self v
  else if isAlpha c ∨ c = ch '_' then self.reportLexError .malformedNumber v.result .number
  else self.finish v .number

def stepCompoundEqual (self : Lexer) (v : Vars) (c : UInt8) : Flow :=
  if c = ch '=' then
    if self.index = 0 then .trap
    else match self.buffer[self.index - 1]? with
      | some prev =>
          if prev = ch '>' then self.finishInc v .ge
          else if prev = ch '<' then self.finishInc v .le
          else if prev = ch '~' then self.finishInc v .ne
          else if prev = ch '=' then self.finishInc v .eq
          else .trap
      | none => .trap
  else self.finish v .singleChar

def step (self : Lexer) (v : Vars) (c : UInt8) : Flow :=
  match v.state with
  | .start => self.stepStart v c
  | .identifier => self.stepIdentifier v c
  | .stringLiteral => self.stepStringLiteral v c
  | .stringLiteralBackslash => self.stepStringLiteralBackslash v c
  | .stringLiteralBackslashLineEndings => self.stepStringLiteralBackslashLineEndings v c
  | .dash => self.stepDash v c
  | .commentStart => self.stepCommentStart v c
  | .longStringStart | .longCommentStart => self.stepLongStart v c
  | .longString | .longComment => self.stepLong v c
  | .longStringPossibleEnd | .longCommentPossibleEnd => self.stepLongPossibleEnd v c
  | .shortComment => self.stepShortComment v c
  | .dot => self.stepDot v c
  | .concat => self.stepConcat v c
  | .number => self.stepNumber v c
  | .numberHexStart | .numberHex => self.stepNumberHex v c
  | .numberExponentStart => self.stepNumberExponentStart v c
  | .numberExponent => self.stepNumberExponent v c
  | .compoundEqual => self.stepCompoundEqual v c

def atEnd (self : Lexer) (v : Vars) : Flow :=
  if self.index ≠ self.buffer.length then .trap
  else match v.state with
  | .start => .done self v
  | .identifier => self.finish v (self.identifierId v)
  | .dot | .dash | .compoundEqual => self.finish v .singleChar
  | .concat => self.finish v .concat
  | .numberExponent | .numberHex | .number => self.finish v .number
  | .commentStart | .shortComment | .longCommentStart =>
      .done self { v with result := { v.result with start := self.index } }
  | .longStringStart =>
      if 0 < v.expectedStringLevel then
        self.reportLexError .invalidLongStringDelimiter v.result .string
      else self.finish v .singleChar
  | .longCommentPossibleEnd | .longComment =>
      self.reportLexError .unfinishedLongComment v.result .eof
  | .longStringPossibleEnd | .longString =>
      self.reportLexError .unfinishedLongString v.result .eof
  | .stringLiteral | .stringLiteralBackslash | .stringLiteralBackslashLineEndings =>
      self.reportLexError .unfinishedString v.result .eof
  | .numberHexStart | .numberExponentStart =>
      if self.checkNextBugCompat ∧ v.numberIsNullTerminated then self.finish v .number
      else self.reportLexError .malformedNumber v.result .number

def finalize (self : Lexer) (v : Vars) : Outcome :=
  if v.result.id = .singleChar then
    match self.buffer[v.result.start]? with
    | some c => .token self { v.result with char := some c, stop := self.index }
    | none => .trap
  else .token self { v.result with stop := self.index }

def backtracks : State → Bool
  | .stringLiteralBackslash | .stringLiteralBackslashLineEndings => true
  | _ => false

def Advances (self : Lexer) (v : Vars) (self' : Lexer) (v' : Vars) : Prop :=
  ∃ index lineNumber, self' = { self with index, lineNumber } ∧
    (index = self.index ∨ self.index ≠ 0 ∧ index = self.index - 1 ∧ backtracks v.state = true ∧
      v'.state = .stringLiteral)

theorem incrementLineNumber_cont {self self' : Lexer} {v v' : Vars}
    (h : self.incrementLineNumber v = .cont self' v') :
    ∃ lineNumber last, self' = { self with lineNumber } ∧
      v' = { v with lastLineEndingIndex := last, result := { v.result with lineNumber } } := by
  unfold incrementLineNumber at h
  cases hp : self.currentIndexFormsLineEndingPair v.lastLineEndingIndex with
  | none => simp [hp] at h
  | some pair =>
      simp only [hp, reportLexError] at h
      by_cases many : self.maxLines ≤ if pair then self.lineNumber else self.lineNumber + 1
      · simp [many] at h
      · simp only [many, if_false, Flow.cont.injEq] at h
        exact ⟨_, _, h.1.symm, h.2.symm⟩

theorem maybeIncrementLineNumber_cont {self self' : Lexer} {v v' : Vars} {c : UInt8}
    (h : self.maybeIncrementLineNumber v c = .cont self' v') :
    ∃ lineNumber last, self' = { self with lineNumber } ∧
      v' = { v with lastLineEndingIndex := last, result := { v.result with lineNumber } } := by
  unfold maybeIncrementLineNumber at h
  split at h
  · exact incrementLineNumber_cont h
  · simp only [Flow.cont.injEq] at h
    exact ⟨self.lineNumber, v.lastLineEndingIndex, h.1.symm, h.2.symm⟩

theorem step_cont {self self' : Lexer} {v v' : Vars} {c : UInt8}
    (h : self.step v c = .cont self' v') : Advances self v self' v' := by
  have line (w : Vars) (hw : self.incrementLineNumber w = .cont self' v') :
      Advances self v self' v' := by
    obtain ⟨n, last, rfl, rfl⟩ := incrementLineNumber_cont hw
    exact ⟨self.index, n, rfl, .inl rfl⟩
  have maybeLine (w : Vars) (hw : self.maybeIncrementLineNumber w c = .cont self' v') :
      Advances self v self' v' := by
    obtain ⟨n, last, rfl, rfl⟩ := maybeIncrementLineNumber_cont hw
    exact ⟨self.index, n, rfl, .inl rfl⟩
  have same (w : Vars) (hw : Flow.cont self w = .cont self' v') : Advances self v self' v' := by
    simp only [Flow.cont.injEq] at hw
    exact ⟨self.index, self.lineNumber, hw.1.symm, .inl rfl⟩
  cases hs : v.state <;> simp only [step, hs] at h
  all_goals simp only [stepStart, stepIdentifier, stepStringLiteral, stepStringLiteralBackslash,
    stepStringLiteralBackslashLineEndings, stepDash, stepCommentStart, stepLongStart, stepLong,
    stepLongPossibleEnd, stepShortComment, stepDot, stepConcat, stepNumber, stepNumberHex,
    stepNumberExponentStart, stepNumberExponent, stepCompoundEqual, backtrack, finish, finishInc,
    reportLexError, reportLexErrorInc] at h
  all_goals repeat' split at h
  all_goals first
    | contradiction
    | exact line _ h
    | exact maybeLine _ h
    | exact same _ h
    | simp only [Flow.cont.injEq] at h
      exact ⟨self.index - 1, self.lineNumber, h.1.symm,
        .inr ⟨‹_›, rfl, by simp [backtracks, hs], by rw [← h.2]⟩⟩

theorem incrementLineNumber_done {self self' : Lexer} {v v' : Vars} :
    self.incrementLineNumber v ≠ .done self' v' := by
  intro h
  simp only [incrementLineNumber, reportLexError] at h
  split at h
  · contradiction
  · repeat' split at h
    all_goals contradiction

theorem step_done {self self' : Lexer} {v v' : Vars} {c : UInt8}
    (h : self.step v c = .done self' v') : self' = self ∨ self' = { self with index := self.index + 1 } := by
  cases hs : v.state <;> simp only [step, hs] at h
  all_goals simp only [stepStart, stepIdentifier, stepStringLiteral, stepStringLiteralBackslash,
    stepStringLiteralBackslashLineEndings, stepDash, stepCommentStart, stepLongStart, stepLong,
    stepLongPossibleEnd, stepShortComment, stepDot, stepConcat, stepNumber, stepNumberHex,
    stepNumberExponentStart, stepNumberExponent, stepCompoundEqual, backtrack, finish, finishInc,
    reportLexError, reportLexErrorInc, maybeIncrementLineNumber] at h
  all_goals repeat' split at h
  all_goals first
    | contradiction
    | exact (incrementLineNumber_done h).elim
    | cases h; exact .inl rfl
    | cases h; exact .inr rfl

end Lexer

def Flow.outcome : Flow → Outcome
  | .cont _ _ | .trap => .trap
  | .done self v => self.finalize v
  | .fail self err => .error self err

namespace Lexer

set_option linter.unusedVariables false in
def loop (self : Lexer) (v : Vars) : Outcome :=
  match h : self.buffer[self.index]? with
  | none => (self.atEnd v).outcome
  | some c =>
      if self.index < v.result.start then .trap
      else if self.maxLexicalElementSize ≤ self.index - v.result.start then
        (self.reportLexError .lexicalElementTooLong v.result .eof).outcome
      else match hs : self.step v c with
        | .cont self' v' => loop { self' with index := self'.index + 1 } v'
        | flow => flow.outcome
termination_by 2 * (self.buffer.length - self.index) + (backtracks v.state).toNat
decreasing_by
  have bound : self.index < self.buffer.length := (List.getElem?_eq_some_iff.mp h).1
  obtain ⟨index, lineNumber, rfl, rfl | ⟨-, rfl, back, next⟩⟩ := step_cont hs
  · have := (backtracks v'.state).toNat_le
    simp only
    omega
  · have none : backtracks v'.state = false := by rw [next]; rfl
    simp only [back, none, Bool.toNat_true, Bool.toNat_false]
    omega

def next (self : Lexer) : Outcome :=
  self.loop { result := { id := .eof, start := self.index, stop := 0,
                          lineNumber := self.lineNumber, char := none } }

-- the variables at the start of a call
def entry (self : Lexer) : Vars :=
  { result := { id := .eof, start := self.index, stop := 0, lineNumber := self.lineNumber, char := none } }

-- the copy has the default limits
def lookahead (self : Lexer) : Outcome :=
  { chunkName := self.chunkName, buffer := self.buffer, index := self.index, lineNumber := self.lineNumber,
    checkNextBugCompat := self.checkNextBugCompat, longStrNestingCompat := self.longStrNestingCompat : Lexer }.next

/-! ## One turn of the loop -/

section turn

variable (self : Lexer) {self' : Lexer} {v v' : Vars} {c : UInt8}

theorem turn_trap (here : self.buffer[self.index]? = some c) (before : self.index < v.result.start) :
    self.loop v = .trap := by
  rw [loop]
  split
  · rename_i none
    cases none.symm.trans here
  · rw [if_pos before]

theorem turn_long (here : self.buffer[self.index]? = some c) (after : ¬self.index < v.result.start)
    (long : self.maxLexicalElementSize ≤ self.index - v.result.start) :
    self.loop v = (self.reportLexError .lexicalElementTooLong v.result .eof).outcome := by
  rw [loop]
  split
  · rename_i none
    cases none.symm.trans here
  · rw [if_neg after, if_pos long]

theorem turn_cont (here : self.buffer[self.index]? = some c) (after : ¬self.index < v.result.start)
    (short : ¬self.maxLexicalElementSize ≤ self.index - v.result.start) (cont : self.step v c = .cont self' v') :
    self.loop v = loop { self' with index := self'.index + 1 } v' := by
  rw [loop]
  split
  · rename_i none
    cases none.symm.trans here
  · rename_i c' here'
    cases here.symm.trans here'
    rw [if_neg after, if_neg short, cont]

theorem turn_ends {flow : Flow} (here : self.buffer[self.index]? = some c) (after : ¬self.index < v.result.start)
    (short : ¬self.maxLexicalElementSize ≤ self.index - v.result.start) (step : self.step v c = flow)
    (notCont : ∀ self' v', flow ≠ .cont self' v') : self.loop v = flow.outcome := by
  rw [loop]
  split
  · rename_i none
    cases none.symm.trans here
  · rename_i c' here'
    cases here.symm.trans here'
    rw [if_neg after, if_neg short, step]
    cases flow with
    | cont self' v' => exact (notCont self' v' rfl).elim
    | done | fail | trap => rfl

end turn

theorem finalize_token {self self' : Lexer} {v : Vars} {token : Token}
    (h : self.finalize v = .token self' token) : self' = self := by
  unfold finalize at h
  split at h
  · split at h
    · cases h; rfl
    · contradiction
  · cases h; rfl

theorem atEnd_token {self self' : Lexer} {v : Vars} {token : Token}
    (h : (self.atEnd v).outcome = .token self' token) : self' = self := by
  unfold atEnd at h
  repeat' split at h
  all_goals first
    | exact finalize_token h
    | contradiction

theorem loop_token {self self' : Lexer} {v : Vars} {token : Token}
    (h : self.loop v = .token self' token) (bound : self.index ≤ self.buffer.length) :
    ∃ index lineNumber, self' = { self with index, lineNumber } ∧ index ≤ self.buffer.length := by
  fun_induction loop self v with
  | case1 self v here => exact ⟨self.index, self.lineNumber, atEnd_token h, bound⟩
  | case2 self v c here before => contradiction
  | case3 self v c here before long => contradiction
  | case4 self v c here before long lexer w hs ih =>
      have inside := (List.getElem?_eq_some_iff.mp here).1
      obtain ⟨index, lineNumber, rfl, position⟩ := step_cont hs
      exact ih h (by simp only; omega)
  | case5 self v c here before long notCont =>
      have inside := (List.getElem?_eq_some_iff.mp here).1
      cases hs : self.step v c with
      | cont lexer w => exact (notCont _ _ hs).elim
      | fail lexer err => rw [hs] at h; contradiction
      | trap => rw [hs] at h; contradiction
      | done lexer w =>
          rw [hs] at h
          obtain rfl := finalize_token h
          rcases step_done hs with rfl | rfl
          · exact ⟨self'.index, self'.lineNumber, rfl, bound⟩
          · exact ⟨self.index + 1, self.lineNumber, rfl, inside⟩

-- `next` never goes back, and only the index and the line number change
theorem loop_forward {self self' : Lexer} {v : Vars} {token : Token} (h : self.loop v = .token self' token) :
    ∃ index lineNumber, self' = { self with index, lineNumber } ∧ self.index ≤ index := by
  fun_induction loop self v with
  | case1 self v here => exact ⟨self.index, self.lineNumber, atEnd_token h, le_rfl⟩
  | case2 self v c here before => contradiction
  | case3 self v c here before long => contradiction
  | case4 self v c here before long lexer w hs ih =>
      obtain ⟨index, lineNumber, rfl, position⟩ := step_cont hs
      obtain ⟨index', lineNumber', rfl, le⟩ := ih h
      exact ⟨index', lineNumber', rfl, by simp only at le; omega⟩
  | case5 self v c here before long notCont =>
      cases hs : self.step v c with
      | cont lexer w => exact (notCont _ _ hs).elim
      | fail lexer err => rw [hs] at h; contradiction
      | trap => rw [hs] at h; contradiction
      | done lexer w =>
          rw [hs] at h
          obtain rfl := finalize_token h
          rcases step_done hs with rfl | rfl
          · exact ⟨self'.index, self'.lineNumber, rfl, le_rfl⟩
          · exact ⟨self.index + 1, self.lineNumber, rfl, Nat.le_succ _⟩

theorem stepStart_done {self self' : Lexer} {v v' : Vars} {c : UInt8} (h : self.stepStart v c = .done self' v') :
    self' = { self with index := self.index + 1 } := by
  simp only [stepStart, finishInc, finish] at h
  repeat' split at h
  all_goals first
    | contradiction
    | exact (incrementLineNumber_done h).elim
    | cases h; rfl

-- a token that is not the end of the buffer takes at least one byte
theorem next_progress {self self' : Lexer} {token : Token} (h : self.next = .token self' token)
    (some : token.id ≠ .eof) : self.index < self'.index := by
  unfold next loop at h
  split at h
  · -- at the end of the buffer
    unfold atEnd at h
    split at h
    · contradiction
    · simp only [Flow.outcome, finalize, if_neg (show ¬(Token.Id.eof = Token.Id.singleChar) by decide)] at h
      cases h
      exact (some rfl).elim
  · split at h
    · contradiction
    · split at h
      · contradiction
      · split at h
        · rename_i lexer w hs
          obtain ⟨index, lineNumber, rfl, rfl | ⟨-, -, back, -⟩⟩ := step_cont hs
          · obtain ⟨index', lineNumber', rfl, le⟩ := loop_forward h
            exact le
          · cases back
        · rename_i c _ _ _ notCont
          cases hs : self.step _ c with
          | cont lexer w => exact (notCont _ _ hs).elim
          | fail lexer err => rw [hs] at h; contradiction
          | trap => rw [hs] at h; contradiction
          | done lexer w =>
              rw [hs] at h
              obtain rfl := finalize_token h
              rw [stepStart_done hs]
              exact Nat.lt_succ_self _

/-- The lexers that calls of `next` on a buffer go through. -/
inductive Reaches (buffer chunkName : List UInt8) : Lexer → Prop
  | init : Reaches buffer chunkName (Lexer.init buffer chunkName)
  | next {self self' : Lexer} {token : Token} : Reaches buffer chunkName self →
      self.next = .token self' token → Reaches buffer chunkName self'

theorem Reaches.position {buffer chunkName : List UInt8} {lexer : Lexer}
    (reaches : Reaches buffer chunkName lexer) : ∃ index lineNumber,
      lexer = { Lexer.init buffer chunkName with index, lineNumber } ∧ index ≤ buffer.length := by
  induction reaches with
  | init => exact ⟨0, 1, rfl, Nat.zero_le _⟩
  | next _ called ih =>
      obtain ⟨index, lineNumber, rfl, bound⟩ := ih
      obtain ⟨index', lineNumber', rfl, bound'⟩ := loop_token called bound
      exact ⟨index', lineNumber', rfl, bound'⟩

end Lexer

end Zua.Lex
