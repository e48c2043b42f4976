import Zua.Lex.Sync

/-!
# Long brackets and comments in the two lexers

`skip_sep` reads a run of `=` at once where `next` counts them one byte at a time. A bracket that
does not close is read again from the byte after the run, so `next` may forget that it stood in a
possible end.
-/

namespace Zua.Lex.Lexer
open Zua.Llex Zua.Llex.LexState

variable {self self' : Lexer} {v v' w : Vars} {c : UInt8} {rest : List UInt8} {ls ls' : LexState}
variable {seminfo : Bool} {level start : Nat} {id : Token.Id}

def insideState : Bool → State
  | true => .longString
  | false => .longComment

def endState : Bool → State
  | true => .longStringPossibleEnd
  | false => .longCommentPossibleEnd

def startState : Bool → State
  | true => .longStringStart
  | false => .longCommentStart

theorem step_inside (h : v.state = insideState seminfo) : self.step v c = self.stepLong v c := by
  cases seminfo <;> simp only [insideState] at h <;> simp only [step, h]

theorem step_possibleEnd (h : v.state = endState seminfo) :
    self.step v c = self.stepLongPossibleEnd v c := by
  cases seminfo <;> simp only [endState] at h <;> simp only [step, h]

theorem step_opening (h : v.state = startState seminfo) :
    self.step v c = self.stepLongStart v c := by
  cases seminfo <;> simp only [startState] at h <;> simp only [step, h]

theorem skipSepLoop_ge (ls : LexState) (count : Int) : count ≤ (skipSepLoop ls count).1 := by
  fun_induction skipSepLoop ls count with
  | case1 ls count h ih => omega
  | case2 ls count h => exact le_rfl

theorem skipSepLoop_current (ls : LexState) (count : Int) :
    (skipSepLoop ls count).2.current ≠ some (ch '=') := by
  fun_induction skipSepLoop ls count with
  | case1 ls count h ih => exact ih
  | case2 ls count h => exact h

theorem loop_closingRun (count : Int) (defaults : Defaults self) (sync : Sync self v ls)
    (long : InLong (endState seminfo) level start id v) (same : (v.stringLevel : Int) = count) :
    ∃ i w, self.loop v = loop { self with index := i } w ∧
      Sync { self with index := i } w (skipSepLoop ls count).2 ∧
      InLong (endState seminfo) level start id w ∧
      (w.stringLevel : Int) = (skipSepLoop ls count).1 := by
  fun_induction skipSepLoop ls count generalizing self v with
  | case1 ls count h ih =>
      obtain ⟨rest, hr⟩ := rest_of_current h
      have cont : self.step v (ch '=') =
          .cont self { v with stringLevel := v.stringLevel + 1 } := by
        rw [step_possibleEnd long.state]
        rfl
      obtain ⟨run, sync'⟩ := loop_plain { v with stringLevel := v.stringLevel + 1 } ls.saveAndNext
        defaults sync hr cont (by simp [hr]) rfl (sync.start.trans (Nat.le_succ _)) rfl
      obtain ⟨i, w, run', result⟩ := ih (defaults.at _ _) sync'
        ⟨long.state, long.level, long.start, long.id⟩ (by push_cast; omega)
      exact ⟨i, w, run.trans run', result⟩
  | case2 ls count h => exact ⟨self.index, v, rfl, sync, long, same⟩

theorem loop_openingRun (count : Int) (defaults : Defaults self) (sync : Sync self v ls)
    (state : v.state = startState seminfo) (same : (v.expectedStringLevel : Int) = count) :
    ∃ i w, self.loop v = loop { self with index := i } w ∧
      Sync { self with index := i } w (skipSepLoop ls count).2 ∧
      w.state = startState seminfo ∧ w.result = v.result ∧
      (w.expectedStringLevel : Int) = (skipSepLoop ls count).1 := by
  fun_induction skipSepLoop ls count generalizing self v with
  | case1 ls count h ih =>
      obtain ⟨rest, hr⟩ := rest_of_current h
      have cont : self.step v (ch '=') =
          .cont self { v with expectedStringLevel := v.expectedStringLevel + 1 } := by
        rw [step_opening state]
        rfl
      obtain ⟨run, sync'⟩ := loop_plain { v with expectedStringLevel := v.expectedStringLevel + 1 }
        ls.saveAndNext defaults sync hr cont (by simp [hr]) rfl (sync.start.trans (Nat.le_succ _)) rfl
      obtain ⟨i, w, run', result⟩ := ih (defaults.at _ _) sync' state (by push_cast; omega)
      exact ⟨i, w, run.trans run', result⟩
  | case2 ls count h => exact ⟨self.index, v, rfl, sync, state, rfl, same⟩

theorem loop_congr (defaults : Defaults self) (sync : Sync self v ls)
    (start : w.result.start ≤ self.index)
    (step : ∀ c rest, ls.rest = c :: rest → self.step v c = self.step w c)
    (atEnd : ls.rest = [] → (self.atEnd v).outcome = (self.atEnd w).outcome) : self.loop v = self.loop w := by
  cases hr : ls.rest with
  | nil =>
      have here := sync.rest.trans hr
      rw [loop_end here, loop_end here, atEnd hr]
  | cons c rest =>
      have here := sync.rest.trans hr
      rw [loop_eq defaults.fits sync.start here, loop_eq defaults.fits start here, step c rest hr]

theorem loop_notEnd (defaults : Defaults self) (sync : Sync self v ls)
    (long : InLong (endState seminfo) level start id v) (run : ls.current ≠ some (ch '='))
    (differs : ls.current = some (ch ']') → v.stringLevel ≠ level) :
    self.loop v = self.loop { v with state := insideState seminfo } := by
  obtain ⟨state, rfl, -, -⟩ := long
  refine loop_congr defaults sync sync.start ?_ ?_
  · intro c rest hr
    rw [current_of_rest hr] at run differs
    have other : c ≠ ch '=' := fun h => run (congrArg some h)
    rw [step_possibleEnd state, @step_inside _ { v with state := insideState seminfo } _ seminfo rfl, stepLongPossibleEnd, stepLong]
    by_cases bracket : c = ch ']'
    · have open_ := differs (congrArg some bracket)
      simp only [bracket, open_, if_true, if_false]
      cases seminfo <;> simp only [endState] at state <;> simp [insideState, ← state]
    · simp only [bracket, other, if_false]
      cases seminfo <;> simp only [endState] at state <;> simp [insideState, state]
  · intro hr
    cases seminfo <;> simp only [endState] at state <;> simp only [insideState, atEnd, state]

def AtClose (self : Lexer) (seminfo : Bool) (level start : Nat) (id : Token.Id) (outcome : Outcome) :
    Except String LexState → Prop
  | .error msg => Fails outcome msg
  | .ok ls' => ∃ i w ls₁, outcome = loop { self with index := i, lineNumber := ls'.linenumber } w ∧
      Sync { self with index := i, lineNumber := ls'.linenumber } w ls₁ ∧
      ls₁.current = some (ch ']') ∧ ls' = ls₁.saveAndNext ∧
      InLong (endState seminfo) level start id w ∧ w.stringLevel = level

theorem loop_closingBracket (defaults : Defaults self) (sync : Sync self v ls)
    (long : InLong (insideState seminfo) level start id v) (hc : ls.current = some (ch ']')) :
    ∃ i w, self.loop v = loop { self with index := i } w ∧
      Sync { self with index := i } w (skipSep ls).2 ∧
      InLong (endState seminfo) level start id w ∧
      ((skipSep ls).1 = level ↔ (skipSep ls).2.current = some (ch ']') ∧ w.stringLevel = level) := by
  obtain ⟨rest, hr⟩ := rest_of_current hc
  have cont : self.step v (ch ']') =
      .cont self { v with state := endState seminfo, stringLevel := 0 } := by
    rw [step_inside long.state, stepLong]
    cases seminfo <;> simp [endState, long.state, insideState]
  obtain ⟨run, sync'⟩ := loop_plain { v with state := endState seminfo, stringLevel := 0 }
    ls.saveAndNext defaults sync hr cont (by simp [hr]) rfl (sync.start.trans (Nat.le_succ _)) rfl
  obtain ⟨i, w, run', sync'', long', count⟩ := loop_closingRun 0 (defaults.at _ _) sync'
    ⟨rfl, long.level, long.start, long.id⟩ rfl
  refine ⟨i, w, run.trans run', sync'', long', ?_⟩
  simp only [skipSep, hc, ← count]
  split
  · rename_i closes
    simp [closes]
  · rename_i closes
    simp only [closes, false_and, iff_false]
    omega

theorem loop_insideBreak (defaults : Defaults self) (sync : Sync self v ls)
    (long : InLong (insideState seminfo) level start id v) (hc : ls.current = some c)
    (bracket : c ≠ ch ']') (newline : c = ch '\n' ∨ c = ch '\r') :
    match ls.inclinenumber with
    | .error msg => Fails (self.loop v) msg
    | .ok ls' => ∃ i w, self.loop v = loop { self with index := i, lineNumber := ls'.linenumber } w ∧
        Sync { self with index := i, lineNumber := ls'.linenumber } w ls' ∧
        InLong (insideState seminfo) level start id w := by
  obtain ⟨rest, hr⟩ := rest_of_current hc
  have isBreak : isNewline c = true := by rcases newline with rfl | rfl <;> simp
  have first : self.step v c = self.incrementLineNumber v := by
    rw [step_inside long.state, stepLong, if_neg bracket, maybeIncrementLineNumber, if_pos isBreak]
  exact loop_longBreak defaults sync hr isBreak long (by cases seminfo <;> simp [insideState]) first
    rfl sync.start

theorem loop_inside (defaults : Defaults self) (sync : Sync self v ls)
    (long : InLong (insideState seminfo) level start id v) :
    AtClose self seminfo level start id (self.loop v) (readLongStringLoop seminfo level ls) := by
  fun_induction readLongStringLoop seminfo level ls generalizing self v with
  | case1 ls hc =>
      have hr := rest_of_current_none hc
      cases seminfo with
      | true =>
          have fail : self.atEnd v = self.reportLexError .unfinishedLongString v.result .eof := by
            simp only [atEnd, sync.index_end hr, long.state, insideState, ne_eq, not_true_eq_false,
              if_false]
          exact fails_end sync hr fail
      | false =>
          have fail : self.atEnd v = self.reportLexError .unfinishedLongComment v.result .eof := by
            simp only [atEnd, sync.index_end hr, long.state, insideState, ne_eq, not_true_eq_false,
              if_false]
          exact fails_end sync hr fail
  | case2 ls hs hc =>
      obtain ⟨i, w, run, sync', long', closes⟩ := loop_closingBracket defaults sync long hc
      have line : self.lineNumber = (skipSep ls).2.linenumber := sync'.line
      refine ⟨i, w, (skipSep ls).2, ?_, ?_, (closes.mp hs).1, rfl, long', (closes.mp hs).2⟩
      · rw [run, linenumber_saveAndNext, ← line]
      · rw [linenumber_saveAndNext, ← line]
        exact sync'
  | case3 ls hs hc ih =>
      obtain ⟨i, w, run, sync', long', closes⟩ := loop_closingBracket defaults sync long hc
      rw [run, loop_notEnd (defaults.at _ _) sync' long' (skipSepLoop_current _ _)
        (fun bracket same => hs (closes.mpr ⟨bracket, same⟩))]
      exact ih (defaults.at _ _) (sync'.congr rfl rfl sync'.start rfl)
        ⟨rfl, long'.level, long'.start, long'.id⟩
  | case4 ls c hc bracket newline msg hi =>
      have saved : Sync self v (ls.save (ch '\n')) := sync.congr rfl rfl sync.start rfl
      have passed := loop_insideBreak defaults saved long hc bracket newline
      rw [hi] at passed
      exact passed
  | case5 ls c hc bracket newline ls₁ hi ih =>
      have saved : Sync self v (ls.save (ch '\n')) := sync.congr rfl rfl sync.start rfl
      have passed := loop_insideBreak defaults saved long hc bracket newline
      rw [hi] at passed
      obtain ⟨i, w, run, sync', long'⟩ := passed
      rw [run]
      refine ih (defaults.at _ _) (sync'.congr ?_ ?_ sync'.start rfl) long' <;>
        cases seminfo <;> rfl
  | case6 ls c hc bracket newline ih =>
      obtain ⟨rest, hr⟩ := rest_of_current hc
      have cont : self.step v c =
          .cont self { v with result := { v.result with lineNumber := self.lineNumber } } := by
        have other : isNewline c = false := by simpa using newline
        simp only [step_inside long.state, stepLong, bracket, maybeIncrementLineNumber, other,
          if_false, Bool.false_eq_true]
      obtain ⟨run, sync'⟩ := loop_plain { v with result := { v.result with lineNumber := self.lineNumber } }
        (if seminfo then ls.saveAndNext else ls.next) defaults sync hr cont
        (by cases seminfo <;> simp [hr]) (by cases seminfo <;> rfl) (sync.start.trans (Nat.le_succ _)) rfl
      rw [run]
      exact ih (defaults.at _ _) sync' ⟨long.state, long.level, long.start, long.id⟩

theorem loop_readLongString (defaults : Defaults self) (sync : Sync self v ls)
    (state : v.state = startState seminfo) (hc : ls.current = some (ch '[')) :
    AtClose self seminfo v.expectedStringLevel v.result.start v.result.id (self.loop v)
      (readLongString seminfo v.expectedStringLevel ls) := by
  obtain ⟨rest, hr⟩ := rest_of_current hc
  have cont : self.step v (ch '[') = .cont self { v with state := insideState seminfo } := by
    rw [step_opening state, stepLongStart]
    cases seminfo <;> simp [insideState, state, startState]
  obtain ⟨run, sync'⟩ := loop_plain { v with state := insideState seminfo } ls.saveAndNext defaults
    sync hr cont (by simp [hr]) rfl (sync.start.trans (Nat.le_succ _)) rfl
  have long : InLong (insideState seminfo) v.expectedStringLevel v.result.start v.result.id
      { v with state := insideState seminfo } := ⟨rfl, rfl, rfl, rfl⟩
  rw [run, readLongString]
  split
  · rename_i newline
    cases hd : ls.saveAndNext.current with
    | none => simp [currIsNewline, hd] at newline
    | some d =>
        have newline' : d = ch '\n' ∨ d = ch '\r' := by simpa [currIsNewline, hd] using newline
        have passed := loop_insideBreak (defaults.at _ _) sync' long hd
          (by rintro rfl; simp at newline') newline'
        split
        · rename_i msg hi
          rw [hi] at passed
          exact passed
        · rename_i ls₁ hi
          rw [hi] at passed
          obtain ⟨i, w, run', sync'', long'⟩ := passed
          rw [run']
          exact loop_inside (defaults.at _ _) sync'' long'
  · exact loop_inside (defaults.at _ _) sync' long

/-! ## Comments -/

structure InComment (v : Vars) (ls : LexState) : Prop where
  id : v.result.id = .eof
  state : v.state = .shortComment ∨ v.state = .commentStart ∧ ls.current ≠ some (ch '[') ∨
    v.state = .longCommentStart ∧ ls.current ≠ some (ch '[') ∧ ls.current ≠ some (ch '=')

theorem loop_asShort (defaults : Defaults self) (sync : Sync self v ls) (comment : InComment v ls) :
    self.loop v = self.loop { v with state := .shortComment } := by
  refine loop_congr defaults sync sync.start ?_ ?_
  · intro c rest hr
    have state := comment.state
    simp only [current_of_rest hr, ne_eq, Option.some.injEq] at state
    rcases state with state | ⟨state, bracket⟩ | ⟨state, bracket, equals⟩
    · congr 1
      rw [← state]
    · simp only [step, state, stepCommentStart, bracket, stepShortComment, restart, if_false,
        or_comm (a := c = ch '\n')]
    · simp only [step, state, stepLongStart, bracket, equals, stepShortComment, restart, if_false,
        if_true]
  · intro hr
    have last := sync.index_end hr
    rcases comment.state with state | ⟨state, -⟩ | ⟨state, -⟩ <;>
      simp only [atEnd, last, state, ne_eq, not_true_eq_false, if_false] <;> rfl

theorem loop_comment (defaults : Defaults self) (sync : Sync self v ls) (comment : InComment v ls) :
    ∃ i w, self.loop v = loop { self with index := i } w ∧
      Sync { self with index := i } w (skipLine ls) ∧ AtStart i w := by
  rw [loop_asShort defaults sync comment]
  replace sync : Sync self { v with state := .shortComment } ls := sync.congr rfl rfl sync.start rfl
  have id := comment.id
  clear comment
  fun_induction skipLine ls generalizing self v with
  | case1 ls h =>
      let w : Vars := { v with state := .start, result := { v.result with start := self.index } }
      refine ⟨self.index, w, ?_, sync.congr rfl rfl le_rfl rfl, ⟨rfl, rfl, id⟩⟩
      refine loop_congr defaults sync le_rfl ?_ ?_
      · intro c rest hr
        have newline : c = ch '\n' ∨ c = ch '\r' := by
          simpa [currIsNewline, current_of_rest hr] using h
        simp only [step, stepShortComment, stepStart, newline, if_true, restart, w]
      · intro hr
        simp only [atEnd, sync.index_end hr, ne_eq, not_true_eq_false, if_false, w]
        rfl
  | case2 ls h ih =>
      cases hr : ls.rest with
      | nil => simp [current, hr] at h
      | cons c rest =>
          have newline : ¬(c = ch '\n' ∨ c = ch '\r') := by
            simpa [currIsNewline, current_of_rest hr] using h
          have cont : self.step { v with state := .shortComment } c =
              .cont self { v with state := .shortComment } := by
            simp only [step, stepShortComment, newline, if_false]
          obtain ⟨run, sync'⟩ := loop_plain _ ls.next defaults sync hr cont (by simp [hr]) rfl
            (sync.start.trans (Nat.le_succ _)) rfl
          rw [run]
          exact ih (defaults.at _ _) sync' id

end Zua.Lex.Lexer
