import Zua.Lex.Lexer

/-!
# Lookahead

A call passes over sizes of elements and over line numbers that do not depend on the limits of the lexer. The first of
them that reaches a limit ends the call, and `lookahead` has limits of its own.
-/

namespace Zua.Lex

-- what a call of `next` returns
inductive Result
  | token (token : Token)
  | error (err : LexError)
  | trap
  deriving DecidableEq, Repr

def Outcome.result : Outcome → Result
  | .token _ t => .token t
  | .error _ err => .error err
  | .trap => .trap

structure Limits where
  maxLines : Nat
  maxLexicalElementSize : Nat
  deriving DecidableEq, Repr

def Limits.default : Limits := ⟨2 ^ 31 - 1 - 2, (2 ^ 64 - 1 - 2) / 2⟩

-- what is compared to a limit
inductive Mark
  | size (n : Nat)
  | line (n : Nat)
  deriving DecidableEq, Repr

def Mark.reaches (limits : Limits) : Mark → Option LexError
  | .size n => if limits.maxLexicalElementSize ≤ n then some .lexicalElementTooLong else none
  | .line n => if limits.maxLines ≤ n then some .chunkHasTooManyLines else none

def firstReached (limits : Limits) (marks : List Mark) : Option LexError := marks.findSome? (Mark.reaches limits)

namespace Lexer

def limits (self : Lexer) : Limits := ⟨self.maxLines, self.maxLexicalElementSize⟩

-- the error context is never read
def within (self : Lexer) (limits : Limits) (context : Option LexErrorContext) : Lexer :=
  { self with maxLines := limits.maxLines, maxLexicalElementSize := limits.maxLexicalElementSize,
              errorContext := context }

-- a line number that one step cannot reach
def unlimited (self : Lexer) : Lexer := { self with maxLines := self.lineNumber + 2 }

-- the states in which a line ending is passed over
def countsLine (v : Vars) (c : UInt8) : Bool :=
  isNewline c && match v.state with
    | .start | .commentStart | .longCommentStart | .longComment | .longCommentPossibleEnd | .shortComment
    | .longString | .longStringPossibleEnd | .stringLiteralBackslashLineEndings => true
    | .stringLiteralBackslash => v.stringEscapeI == 0
    | _ => false

theorem unlimited_cont {self self' : Lexer} {v v' : Vars} {c : UInt8} (h : self.unlimited.step v c = .cont self' v') :
    ∃ index lineNumber maxLines, self' = { self with index, lineNumber, maxLines } ∧
      (index = self.index ∨ self.index ≠ 0 ∧ index = self.index - 1 ∧ backtracks v.state = true ∧
        v'.state = .stringLiteral) := by
  obtain ⟨index, lineNumber, rfl, moves⟩ := step_cont h
  exact ⟨index, lineNumber, self.lineNumber + 2, rfl, moves⟩

-- the marks that a call of `loop` passes, and what it returns when none of them reaches a limit
set_option linter.unusedVariables false in
def scan (self : Lexer) (v : Vars) : List Mark × Result :=
  match h : self.buffer[self.index]? with
  | none => ([], (self.atEnd v).outcome.result)
  | some c =>
      if self.index < v.result.start then ([], .trap)
      else match hs : self.unlimited.step v c with
        | .cont self' v' =>
            let rest := scan { self' with index := self'.index + 1 } v'
            (.size (self.index - v.result.start) ::
              ((if countsLine v c then [.line self'.lineNumber] else []) ++ rest.1), rest.2)
        | flow => ([.size (self.index - v.result.start)], flow.outcome.result)
termination_by 2 * (self.buffer.length - self.index) + (backtracks v.state).toNat
decreasing_by
  have bound : self.index < self.buffer.length := (List.getElem?_eq_some_iff.mp h).1
  obtain ⟨index, lineNumber, _, rfl, rfl | ⟨-, rfl, back, next⟩⟩ := unlimited_cont hs
  · have := (backtracks v'.state).toNat_le
    simp only
    omega
  · have none : backtracks v'.state = false := by rw [next]; rfl
    simp only [back, none, Bool.toNat_true, Bool.toNat_false]
    omega

/-! ## One step -/

def limitError : LexError → Bool
  | .chunkHasTooManyLines | .lexicalElementTooLong => true
  | _ => false

-- the step under the limits, and the one that reaches none
inductive Limited (limits : Limits) (context : Option LexErrorContext) (counts : Bool) : Flow → Flow → Prop
  | cont (self : Lexer) {v : Vars} : (counts = true → self.lineNumber < limits.maxLines) →
      Limited limits context counts (.cont (self.within limits context) v) (.cont self v)
  | line {self lexer : Lexer} {v : Vars} : counts = true → limits.maxLines ≤ self.lineNumber →
      Limited limits context counts (.fail lexer .chunkHasTooManyLines) (.cont self v)
  | done (self : Lexer) {v : Vars} : Limited limits context counts (.done (self.within limits context) v) (.done self v)
  | fail {self lexer : Lexer} {err : LexError} : limitError err = false →
      Limited limits context counts (.fail lexer err) (.fail self err)
  | trap : Limited limits context counts .trap .trap

theorem Limited.ite {limits : Limits} {context : Option LexErrorContext} {counts : Bool} {p : Prop} [Decidable p] {A A' B B' : Flow}
    (yes : p → Limited limits context counts A B) (no : ¬p → Limited limits context counts A' B') :
    Limited limits context counts (if p then A else A') (if p then B else B') := by
  split
  · exact yes ‹_›
  · exact no ‹_›

theorem Limited.plain {limits : Limits} {context : Option LexErrorContext} {counts : Bool} (self : Lexer) (v : Vars) (none : counts = false) :
    Limited limits context counts (.cont (self.within limits context) v) (.cont self.unlimited v) := by
  refine .cont self.unlimited fun h => ?_
  rw [none] at h
  cases h

theorem Limited.finish {limits : Limits} {context : Option LexErrorContext} {counts : Bool} (self : Lexer) (v : Vars) (id : Token.Id) :
    Limited limits context counts ((self.within limits context).finish v id) (self.unlimited.finish v id) :=
  .done self.unlimited

theorem Limited.finishInc {limits : Limits} {context : Option LexErrorContext} {counts : Bool} (self : Lexer) (v : Vars) (id : Token.Id) :
    Limited limits context counts ((self.within limits context).finishInc v id) (self.unlimited.finishInc v id) :=
  .done { self.unlimited with index := self.index + 1 }

theorem incrementLineNumber_limited (self : Lexer) (limits : Limits) (context : Option LexErrorContext) (v : Vars) :
    Limited limits context true ((self.within limits context).incrementLineNumber v) (self.unlimited.incrementLineNumber v) := by
  have same : (self.within limits context).currentIndexFormsLineEndingPair v.lastLineEndingIndex =
      self.unlimited.currentIndexFormsLineEndingPair v.lastLineEndingIndex := rfl
  unfold incrementLineNumber
  rw [same]
  cases self.unlimited.currentIndexFormsLineEndingPair v.lastLineEndingIndex with
  | none => exact .trap
  | some pair =>
      let n := if pair then self.lineNumber else self.lineNumber + 1
      have small : ¬self.lineNumber + 2 ≤ n := by
        unfold n
        split <;> omega
      show Limited limits context true (if limits.maxLines ≤ n then _ else _) (if self.lineNumber + 2 ≤ n then _ else _)
      rw [if_neg small]
      split
      · exact .line rfl ‹_›
      · exact .cont { self.unlimited with lineNumber := n } fun _ => Nat.lt_of_not_le ‹_›

theorem step_limited (self : Lexer) (limits : Limits) (context : Option LexErrorContext) (v : Vars) (c : UInt8) :
    Limited limits context (countsLine v c) ((self.within limits context).step v c) (self.unlimited.step v c) := by
  have line (w : Vars) (counts : countsLine v c = true) : Limited limits context (countsLine v c)
      ((self.within limits context).incrementLineNumber w) (self.unlimited.incrementLineNumber w) := by
    rw [counts]
    exact incrementLineNumber_limited self limits context w
  have plain (self : Lexer) (w : Vars) (none : countsLine v c = false) : Limited limits context (countsLine v c)
      (.cont (self.within limits context) w) (.cont self.unlimited w) := .plain self w none
  have newline : isNewline c = true ↔ c = ch '\n' ∨ c = ch '\r' := by simp
  unfold countsLine at *
  unfold step
  cases hs : v.state <;> rw [hs] at line plain <;> dsimp only at line plain ⊢
  case stringLiteralBackslash =>
    unfold stepStringLiteralBackslash
    dsimp only
    refine Limited.ite (fun digit => ?_) fun _ => ?_
    · have inside : isNewline c = false := by
        by_contra other
        rcases newline.mp ((Bool.not_eq_false _).mp other) with rfl | rfl
        · cases digit
        · cases digit
      repeat' refine Limited.ite (fun _ => ?_) (fun _ => ?_)
      all_goals first
        | exact .fail rfl
        | exact plain self _ (by rw [inside]; rfl)
    · refine Limited.ite (fun ending => ?_) fun other => ?_
      · refine Limited.ite (fun _ => .fail rfl) fun first => line _ ?_
        rw [newline.mpr ending.symm, beq_iff_eq.mpr (Nat.eq_zero_of_not_pos first)]
        rfl
      · have inside : isNewline c = false := by
          by_contra wrong
          exact other (newline.mp ((Bool.not_eq_false _).mp wrong)).symm
        repeat' refine Limited.ite (fun _ => ?_) (fun _ => ?_)
        all_goals first
          | exact .trap
          | exact plain self _ (by rw [inside]; rfl)
          | exact plain { self with index := self.index - 1 } _ (by rw [inside]; rfl)
  case compoundEqual =>
    refine Limited.ite (fun _ => Limited.ite (fun _ => .trap) fun _ => ?_) fun _ => .finish self _ _
    have before : (self.within limits context).buffer[(self.within limits context).index - 1]? = self.buffer[self.index - 1]? := rfl
    have before' : self.unlimited.buffer[self.unlimited.index - 1]? = self.buffer[self.index - 1]? := rfl
    rw [before, before']
    cases self.buffer[self.index - 1]? with
    | none => exact .trap
    | some prev =>
        repeat' refine Limited.ite (fun _ => ?_) (fun _ => ?_)
        all_goals first
          | exact .finishInc self _ _
          | exact .trap
  all_goals
    repeat' refine Limited.ite (fun _ => ?_) (fun _ => ?_)
    all_goals first
      | exact .finish self _ _
      | exact .finishInc self _ _
      | exact .fail rfl
      | exact .trap
      | exact line _ (by grind)
      | exact plain self _ (by grind)
      | exact plain self _ (by simp_all)
      | exact plain { self with index := self.index - 1 } _ (by grind)

/-! ## The first mark that reaches a limit -/

theorem finalize_limited (self : Lexer) (limits : Limits) (context : Option LexErrorContext) (v : Vars) :
    ((self.within limits context).finalize v).result = (self.finalize v).result := by
  have byte : (self.within limits context).buffer[v.result.start]? = self.buffer[v.result.start]? := rfl
  unfold finalize
  rw [byte]
  split
  · cases self.buffer[v.result.start]? <;> rfl
  · rfl

theorem finalize_limitError {self : Lexer} {v : Vars} {err : LexError} : (self.finalize v).result ≠ .error err := by
  unfold finalize
  split
  · cases self.buffer[v.result.start]? <;> exact fun h => by cases h
  · exact fun h => by cases h

-- what ends a call is the same under other limits
inductive Ends (limits : Limits) (context : Option LexErrorContext) : Flow → Flow → Prop
  | done (self : Lexer) {v : Vars} : Ends limits context (.done (self.within limits context) v) (.done self v)
  | fail {self lexer : Lexer} {err : LexError} : limitError err = false → Ends limits context (.fail lexer err) (.fail self err)
  | trap : Ends limits context .trap .trap

theorem Ends.result {limits : Limits} {context : Option LexErrorContext} {A B : Flow} (ends : Ends limits context A B) :
    A.outcome.result = B.outcome.result ∧ ∀ err, B.outcome.result = .error err → limitError err = false := by
  cases ends with
  | done => exact ⟨finalize_limited _ _ _ _, fun err h => (finalize_limitError h).elim⟩
  | fail small =>
      refine ⟨rfl, fun err h => ?_⟩
      cases h
      exact small
  | trap => exact ⟨rfl, fun err h => by cases h⟩

theorem Ends.notCont {limits : Limits} {context : Option LexErrorContext} {A B : Flow} (ends : Ends limits context A B) : ∀ self v, A ≠ .cont self v := by
  intro self v h
  cases ends <;> cases h

theorem Limited.ends {limits : Limits} {context : Option LexErrorContext} {counts : Bool} {A B : Flow} (limited : Limited limits context counts A B)
    (notCont : ∀ self v, B ≠ .cont self v) : Ends limits context A B := by
  cases limited with
  | cont | line => exact (notCont _ _ rfl).elim
  | done => exact .done _
  | fail small => exact .fail small
  | trap => exact .trap

theorem atEnd_ends (self : Lexer) (limits : Limits) (context : Option LexErrorContext) (v : Vars) :
    Ends limits context ((self.within limits context).atEnd v) (self.atEnd v) := by
  have here : (self.within limits context).index = self.index := rfl
  have bytes : (self.within limits context).buffer = self.buffer := rfl
  have compat : (self.within limits context).checkNextBugCompat = self.checkNextBugCompat := rfl
  unfold atEnd
  rw [here, bytes]
  split
  · exact .trap
  · cases v.state <;> dsimp only
    case longStringStart =>
      split
      · exact .fail rfl
      · exact .done self
    case numberHexStart =>
      rw [compat]
      split
      · exact .done self
      · exact .fail rfl
    case numberExponentStart =>
      rw [compat]
      split
      · exact .done self
      · exact .fail rfl
    all_goals first
      | exact .done self
      | exact .fail rfl

theorem firstReached_short {limits : Limits} {n : Nat} {marks : List Mark} (short : ¬limits.maxLexicalElementSize ≤ n) :
    firstReached limits (.size n :: marks) = firstReached limits marks := by
  simp only [firstReached, List.findSome?_cons, Mark.reaches, if_neg short]

theorem firstReached_long {limits : Limits} {n : Nat} {marks : List Mark} (long : limits.maxLexicalElementSize ≤ n) :
    firstReached limits (.size n :: marks) = some .lexicalElementTooLong := by
  simp only [firstReached, List.findSome?_cons, Mark.reaches, if_pos long]

theorem firstReached_few {limits : Limits} {n : Nat} {marks : List Mark} (few : n < limits.maxLines) :
    firstReached limits (.line n :: marks) = firstReached limits marks := by
  simp only [firstReached, List.findSome?_cons, Mark.reaches, if_neg (Nat.not_le_of_lt few)]

theorem firstReached_many {limits : Limits} {n : Nat} {marks : List Mark} (many : limits.maxLines ≤ n) :
    firstReached limits (.line n :: marks) = some .chunkHasTooManyLines := by
  simp only [firstReached, List.findSome?_cons, Mark.reaches, if_pos many]

theorem firstReached_limitError {limits : Limits} {marks : List Mark} {err : LexError}
    (h : firstReached limits marks = some err) : limitError err = true := by
  obtain ⟨mark, -, reaches⟩ := List.exists_of_findSome?_eq_some h
  cases mark with
  | size n =>
      obtain ⟨-, same⟩ := Option.ite_none_right_eq_some.mp reaches
      cases same
      rfl
  | line n =>
      obtain ⟨-, same⟩ := Option.ite_none_right_eq_some.mp reaches
      cases same
      rfl

/-- The first mark that reaches a limit decides a call; without one the limits do not matter. -/
theorem loop_scan (limits : Limits) (context : Option LexErrorContext) (self : Lexer) (v : Vars) :
    ((self.within limits context).loop v).result =
        ((firstReached limits (self.scan v).1).map Result.error).getD (self.scan v).2 ∧
      ∀ err, (self.scan v).2 = .error err → limitError err = false := by
  fun_induction scan self v with
  | case1 self v here =>
      have ends := (atEnd_ends self limits context v).result
      refine ⟨?_, ends.2⟩
      rw [loop]
      split
      · exact ends.1
      · rename_i c found
        cases found.symm.trans here
  | case2 self v c here before =>
      rw [turn_trap (self.within limits context) here before]
      exact ⟨rfl, fun err h => by cases h⟩
  | case3 self v c here after self' v' cont rest ih =>
      obtain ⟨same, clean⟩ := ih
      refine ⟨?_, clean⟩
      by_cases long : limits.maxLexicalElementSize ≤ self.index - v.result.start
      · rw [turn_long (self.within limits context) here after long, firstReached_long long]
        rfl
      rw [firstReached_short long]
      have limited := step_limited self limits context v c
      rw [cont] at limited
      cases hs : (self.within limits context).step v c with
      | cont lexer w =>
          rw [turn_cont (self.within limits context) here after long hs]
          rw [hs] at limited
          cases limited with
          | cont _ few =>
              refine same.trans ?_
              by_cases counts : countsLine v c = true
              · rw [if_pos counts, List.singleton_append, firstReached_few (few counts)]
              · rw [if_neg counts, List.nil_append]
      | fail lexer err =>
          rw [turn_ends (self.within limits context) here after long hs fun _ _ h => by cases h]
          rw [hs] at limited
          cases limited with
          | line counts many =>
              rw [if_pos counts, List.singleton_append, firstReached_many many]
              rfl
      | done lexer w =>
          rw [hs] at limited
          cases limited
      | trap =>
          rw [hs] at limited
          cases limited
  | case4 self v c here after notCont =>
      have limited := step_limited self limits context v c
      have ends : Ends limits context ((self.within limits context).step v c) (self.unlimited.step v c) :=
        limited.ends notCont
      refine ⟨?_, ends.result.2⟩
      by_cases long : limits.maxLexicalElementSize ≤ self.index - v.result.start
      · rw [turn_long (self.within limits context) here after long, firstReached_long long]
        rfl
      rw [firstReached_short long, turn_ends (self.within limits context) here after long rfl ends.notCont]
      exact ends.result.1

-- what a call passes on its way to the next token
def marks (self : Lexer) : List Mark := (self.scan self.entry).1

theorem next_scan (self : Lexer) (limits : Limits) (context : Option LexErrorContext) : (self.within limits context).next.result =
    ((firstReached limits self.marks).map Result.error).getD (self.scan self.entry).2 :=
  (loop_scan limits context self self.entry).1

end Lexer

end Zua.Lex
