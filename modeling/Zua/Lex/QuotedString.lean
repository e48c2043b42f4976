import Zua.Lex.Sync

/-!
# Quoted strings in the two lexers

The three string states of `next` simulate `readStringLoop`. Digits and escaped line endings are
the two places where `next` reads one byte too far and steps back.
-/

namespace Zua.Lex.Lexer
open Zua.Llex Zua.Llex.LexState

variable {self self' : Lexer} {v v' w : Vars} {c : UInt8} {rest : List UInt8} {ls ls' : LexState}

structure InString (state : State) (del : UInt8) (start : Nat) (v : Vars) : Prop where
  state : v.state = state
  delim : v.stringDelim = del
  start : v.result.start = start
  id : v.result.id = .string

def Closes (self : Lexer) (start : Nat) : Except String LexState → Outcome → Prop
  | .error msg, outcome => Fails outcome msg
  | .ok ls', outcome => ∃ i tok,
      outcome = .token { self with index := i, lineNumber := ls'.linenumber } tok ∧
      i ≤ self.buffer.length ∧ self.buffer.drop i = ls'.rest ∧
      tok.id = .string ∧ tok.start = start ∧ start ≤ i ∧ tok.stop = i

theorem backtrack_loop (h : self.buffer.drop self.index = c :: rest)
    (fits : self.buffer.length ≤ self.maxLexicalElementSize)
    (start : v.result.start ≤ self.index) (positive : self.index ≠ 0)
    (hs : self.step v c = self.backtrack v) :
    self.loop v = self.loop { v with state := .stringLiteral } := by
  rw [loop_cont fits start h (hs.trans (if_neg positive))]
  congr
  exact Nat.sub_add_cancel (Nat.pos_of_ne_zero positive)

theorem loop_string_end (sync : Sync self v ls) (hr : ls.rest = [])
    (state : v.state = .stringLiteralBackslash ∨ v.state = .stringLiteralBackslashLineEndings) :
    self.loop v = self.loop { v with state := .stringLiteral } := by
  rw [loop_end (sync.rest.trans hr), loop_end (sync.rest.trans hr)]
  rcases state with state | state <;> simp only [atEnd, state]

theorem loop_escape_end (defaults : Defaults self) (sync : Sync self v ls)
    (state : v.state = .stringLiteralBackslash) (some : 0 < v.stringEscapeI)
    (positive : self.index ≠ 0) (stop : ls.current.any isDigit = false) :
    self.loop v = self.loop { v with state := .stringLiteral } := by
  cases hr : ls.rest with
  | nil => exact loop_string_end sync hr (.inl state)
  | cons c rest =>
      have nondigit : isDigit c = false := by simpa [current, hr] using stop
      have here := sync.rest.trans hr
      by_cases newline : c = ch '\r' ∨ c = ch '\n'
      · have other : c ≠ ch '\\' ∧ ¬(c = ch '"' ∨ c = ch '\'') := by
          rcases newline with rfl | rfl <;> simp
        have fail : self.step v c = self.reportLexError .unfinishedString v.result .string := by
          simp only [step, state, stepStringLiteralBackslash, nondigit, newline, some, if_true]
          simp
        have fail' : self.step { v with state := .stringLiteral } c =
            self.reportLexError .unfinishedString v.result .string := by
          simp only [step, stepStringLiteral, other, or_comm.mp newline, if_true, if_false]
        rw [loop_fail defaults.fits sync.start here fail, loop_fail defaults.fits (v := { v with
          state := .stringLiteral }) sync.start here fail']
      · refine backtrack_loop here defaults.fits sync.start positive ?_
        simp only [step, state, stepStringLiteralBackslash, nondigit, newline, some, if_true]
        simp

theorem loop_lineEndings_end (defaults : Defaults self) (sync : Sync self v ls)
    (state : v.state = .stringLiteralBackslashLineEndings) (positive : self.index ≠ 0)
    (single : ls.current.any (fun d => isNewline d && d != v.stringEscapeLineEnding) = false) :
    self.loop v = self.loop { v with state := .stringLiteral } := by
  cases hr : ls.rest with
  | nil => exact loop_string_end sync hr (.inr state)
  | cons c rest =>
      have here := sync.rest.trans hr
      by_cases newline : c = ch '\r' ∨ c = ch '\n'
      · have same : c = v.stringEscapeLineEnding := by
          rw [current, hr, List.head?_cons, Option.any_some, isNewline] at single
          rcases newline with rfl | rfl <;> simpa using single
        have other : c ≠ ch '\\' ∧ ¬(c = ch '"' ∨ c = ch '\'') := by
          rcases newline with rfl | rfl <;> simp
        have fail : self.step v c = self.reportLexError .unfinishedString v.result .string := by
          simp only [step, state, stepStringLiteralBackslashLineEndings, newline, ← same, if_true]
        have fail' : self.step { v with state := .stringLiteral } c =
            self.reportLexError .unfinishedString v.result .string := by
          simp only [step, stepStringLiteral, other, or_comm.mp newline, if_true, if_false]
        rw [loop_fail defaults.fits sync.start here fail,
          loop_fail (v := { v with state := .stringLiteral }) defaults.fits sync.start here fail']
      · refine backtrack_loop here defaults.fits sync.start positive ?_
        simp only [step, state, stepStringLiteralBackslashLineEndings, newline, if_false]

theorem digit_toNat (digit : isDigit c = true) : (c - ch '0').toNat < 10 := by
  simp only [isDigit, Bool.and_eq_true, decide_eq_true_eq] at digit
  rw [UInt8.toNat_sub_of_le _ _ digit.1]
  have := UInt8.le_iff_toNat_le.mp digit.2
  simp at this ⊢
  omega

theorem loop_escape (left : Nat) {del : UInt8} {start : Nat} (defaults : Defaults self)
    (sync : Sync self v ls) (inside : InString .stringLiteralBackslash del start v)
    (count : v.stringEscapeI + (left + 1) = 3) (small : v.stringEscapeN < 10 ^ v.stringEscapeI)
    (digit : ls.current.any isDigit = true) :
    if 255 < (readEscape (left + 1) ls v.stringEscapeN).1 then
      Fails (self.loop v) "escape sequence too large"
    else ∃ i w, self.loop v = loop { self with index := i } w ∧
      Sync { self with index := i } w (readEscape (left + 1) ls v.stringEscapeN).2 ∧
      InString .stringLiteral del start w := by
  induction left generalizing self v ls with
  | zero =>
      cases hr : ls.rest with
      | nil => simp [current, hr] at digit
      | cons c rest =>
          have hc : isDigit c = true := by simpa [current, hr] using digit
          have here := sync.rest.trans hr
          have value : readEscape 1 ls v.stringEscapeN =
              (10 * v.stringEscapeN + (c - ch '0').toNat, ls.next) := by
            simp [readEscape, current, hr]
          have last : v.stringEscapeI + 1 = 3 := by omega
          rw [value]
          split
          · rename_i large
            have fail : self.step v c = self.reportLexErrorInc .escapeSequenceTooLarge v.result .string := by
              simp only [step_backslash inside.state, stepStringLiteralBackslash, hc, if_true, last,
                large]
            exact ⟨_, _, loop_fail defaults.fits sync.start here fail, rfl⟩
          · rename_i large
            have cont : self.step v c = .cont self { v with
                stringEscapeN := 10 * v.stringEscapeN + (c - ch '0').toNat,
                stringEscapeI := v.stringEscapeI + 1, state := .stringLiteral } := by
              simp only [step_backslash inside.state, stepStringLiteralBackslash, hc, if_true, last,
                large, if_false]
            exact ⟨self.index + 1, _, loop_cont defaults.fits sync.start here cont,
              sync.advance _ _ hr (by simp [hr]) rfl (sync.start.trans (Nat.le_succ _)) rfl,
              ⟨rfl, inside.delim, inside.start, inside.id⟩⟩
  | succ left ih =>
      cases hr : ls.rest with
      | nil => simp [current, hr] at digit
      | cons c rest =>
          have hc : isDigit c = true := by simpa [current, hr] using digit
          have here := sync.rest.trans hr
          have ten := digit_toNat hc
          have notLast : ¬v.stringEscapeI + 1 = 3 := by omega
          let w := { v with stringEscapeN := 10 * v.stringEscapeN + (c - ch '0').toNat,
                            stringEscapeI := v.stringEscapeI + 1 }
          have once : self.loop v = loop { self with index := self.index + 1 } w := by
            refine loop_cont defaults.fits sync.start here ?_
            simp only [step_backslash inside.state, stepStringLiteralBackslash, hc, if_true, notLast,
              if_false, w]
          have sync' : Sync { self with index := self.index + 1 } w ls.next :=
            sync.advance _ _ hr (by simp [hr]) rfl (sync.start.trans (Nat.le_succ _)) rfl
          have inside' : InString .stringLiteralBackslash del start w :=
            ⟨inside.state, inside.delim, inside.start, inside.id⟩
          have small' : w.stringEscapeN < 10 ^ w.stringEscapeI := by
            simp only [w, pow_succ]
            omega
          have value : readEscape (left + 1 + 1) ls v.stringEscapeN =
              if ls.next.current.any isDigit then readEscape (left + 1) ls.next w.stringEscapeN
              else (w.stringEscapeN, ls.next) := by
            simp [readEscape, current, hr, w]
          rw [value, once]
          by_cases more : ls.next.current.any isDigit = true
          · simp only [more, if_true]
            exact ih ⟨defaults.compat, defaults.lines, defaults.fits⟩ sync' inside'
              (by simp only [w]; omega) small' more
          · have two : w.stringEscapeN < 100 := by
              refine small'.trans_le ?_
              calc 10 ^ w.stringEscapeI ≤ 10 ^ 2 := Nat.pow_le_pow_right (by decide) (by simp only [w]; omega)
                _ = 100 := by decide
            simp only [more]
            rw [if_neg (by simp; omega)]
            refine ⟨self.index + 1, { w with state := .stringLiteral },
              loop_escape_end ⟨defaults.compat, defaults.lines, defaults.fits⟩ sync' inside'.state
                (Nat.succ_pos _) (Nat.succ_ne_zero _) (by simpa using more),
              sync'.congr rfl rfl sync'.start rfl, ⟨rfl, inside.delim, inside.start, inside.id⟩⟩

theorem step_string_other {del : UInt8} {start : Nat} (inside : InString .stringLiteral del start v)
    (other : c ≠ del) (newline : ¬(c = ch '\n' ∨ c = ch '\r')) (escape : c ≠ ch '\\') :
    self.step v c = .cont self v := by
  simp only [step_stringLiteral inside.state, stepStringLiteral, newline, escape, inside.delim, other,
    if_false]
  split <;> rfl

theorem loop_backslash {del : UInt8} {start : Nat} (defaults : Defaults self)
    (sync : Sync self v ls) (inside : InString .stringLiteral del start v)
    (hc : ls.current = some (ch '\\')) :
    ∃ w, self.loop v = loop { self with index := self.index + 1 } w ∧
      Sync { self with index := self.index + 1 } w ls.next ∧
      InString .stringLiteralBackslash del start w ∧ w.stringEscapeI = 0 ∧ w.stringEscapeN = 0 := by
  obtain ⟨rest, hr⟩ := rest_of_current hc
  refine ⟨{ v with state := .stringLiteralBackslash, stringEscapeI := 0, stringEscapeN := 0 },
    loop_cont defaults.fits sync.start (sync.rest.trans hr) ?_,
    sync.advance _ _ hr (by simp [hr]) rfl (sync.start.trans (Nat.le_succ _)) rfl,
    ⟨rfl, inside.delim, inside.start, inside.id⟩, rfl, rfl⟩
  simp only [step_stringLiteral inside.state, stepStringLiteral, if_true]

theorem namedEscape_plain {d e : UInt8} (h : namedEscape d = some e) :
    isDigit d = false ∧ ¬(d = ch '\r' ∨ d = ch '\n') := by
  unfold namedEscape at h
  split_ifs at h <;> simp_all

theorem afterBreak_eq_self (h : afterBreak c rest = rest) :
    rest.head?.any (fun d => isNewline d && d != c) = false := by
  by_contra pair
  obtain ⟨d, rest', rfl, -, -⟩ := cons_of_pair (by simpa using pair)
  rw [afterBreak, if_pos (by simpa using pair), List.tail_cons] at h
  exact List.cons_ne_self d rest' h.symm

theorem loop_escapedBreak {del : UInt8} {start : Nat} (defaults : Defaults self)
    (sync : Sync self v ls) (inside : InString .stringLiteralBackslash del start v)
    (zero : v.stringEscapeI = 0) (hr : ls.rest = c :: rest) (newline : c = ch '\n' ∨ c = ch '\r') :
    match ls.inclinenumber with
    | .error msg => Fails (self.loop v) msg
    | .ok ls' => ∃ i w, self.loop v = loop { self with index := i, lineNumber := ls'.linenumber } w ∧
        Sync { self with index := i, lineNumber := ls'.linenumber } w ls' ∧
        InString .stringLiteral del start w := by
  have isBreak : isNewline c = true := by rcases newline with rfl | rfl <;> simp
  have nondigit : isDigit c = false := by rcases newline with rfl | rfl <;> simp
  let w := { v with state := .stringLiteralBackslashLineEndings, stringEscapeLineEnding := c }
  have first : self.step v c = self.incrementLineNumber w := by
    simp only [step_backslash inside.state, stepStringLiteralBackslash, nondigit, or_comm.mp newline,
      zero, if_true, lt_irrefl, if_false, Bool.false_eq_true, w]
  have passed := @loop_lineBreak self v c rest ls w
    (fun i w => i = self.index + 1 ∧ InString .stringLiteralBackslashLineEndings del start w ∧
      w.stringEscapeLineEnding = c ∨ InString .stringLiteral del start w)
    defaults sync hr isBreak first rfl (sync.start.trans (Nat.le_succ _))
    (fun l n => .inl ⟨rfl, ⟨rfl, inside.delim, inside.start, inside.id⟩, rfl⟩) (by
      intro lexer l n d newline' different index
      refine ⟨{ counted w l n with state := .stringLiteral }, ?_, rfl,
        sync.start.trans (by omega), fun l n => .inr ⟨rfl, inside.delim, inside.start, inside.id⟩⟩
      have newline'' : d = ch '\r' ∨ d = ch '\n' := by simpa [or_comm] using newline'
      have other : d ≠ (counted w l n).stringEscapeLineEnding := different
      simp only [step_lineEndings (v := counted w l n) rfl, stepStringLiteralBackslashLineEndings,
        newline'', other, if_true, if_false])
  have count := inclinenumber_eq hr
  cases hi : ls.inclinenumber with
  | error msg => simpa only [hi] using passed
  | ok ls' =>
      simp only [hi] at passed ⊢
      obtain ⟨i, w', run, sync', ⟨rfl, lineEndings, ending⟩ | inside'⟩ := passed
      · have single : afterBreak c rest = rest := by
          rw [hi] at count
          split at count
          · contradiction
          · cases count
            exact sync'.rest.symm.trans (drop_succ (sync.rest.trans hr))
        have rest' : ls'.rest = rest := sync'.rest.symm.trans (drop_succ (sync.rest.trans hr))
        rw [run, loop_lineEndings_end (defaults.at _ _) sync' lineEndings.state (Nat.succ_ne_zero _)
          (by rw [current, rest', ending]; exact afterBreak_eq_self single)]
        exact ⟨_, _, rfl, sync'.congr rfl rfl sync'.start rfl,
          ⟨rfl, lineEndings.delim, lineEndings.start, lineEndings.id⟩⟩
      · exact ⟨i, w', run, sync', inside'⟩

theorem loop_escapedByte {del : UInt8} {start : Nat} (ls' : LexState) (defaults : Defaults self)
    (sync : Sync self v ls) (inside : InString .stringLiteral del start v)
    (hc : ls.current = some (ch '\\')) (hd : ls.next.current = some c)
    (nondigit : isDigit c = false) (newline : ¬(c = ch '\r' ∨ c = ch '\n'))
    (rest' : ls'.rest = ls.rest.tail.tail) (line : ls'.linenumber = ls.linenumber) :
    ∃ w, self.loop v = loop { self with index := self.index + 2 } w ∧
      Sync { self with index := self.index + 2 } w ls' ∧ InString .stringLiteral del start w := by
  obtain ⟨w, once, sync', inside', zero, -⟩ := loop_backslash defaults sync inside hc
  obtain ⟨rest, hr⟩ := rest_of_current hd
  have cont : step { self with index := self.index + 1 } w c =
      .cont { self with index := self.index + 1 } { w with state := .stringLiteral } := by
    simp only [step_backslash inside'.state, stepStringLiteralBackslash, nondigit, newline, zero,
      lt_irrefl, if_false, Bool.false_eq_true]
  have plain := loop_plain { w with state := .stringLiteral } ls' (defaults.at _ _) sync' hr cont
    (by rw [rest', ← rest_next, hr, List.tail_cons])
    line (sync'.start.trans (Nat.le_succ _)) rfl
  exact ⟨_, once.trans plain.1, plain.2, ⟨rfl, inside'.delim, inside'.start, inside'.id⟩⟩

theorem loop_stringLiteral {del : UInt8} {start : Nat} (quote : del = ch '"' ∨ del = ch '\'')
    (defaults : Defaults self) (sync : Sync self v ls)
    (inside : InString .stringLiteral del start v) :
    Closes self start ((readStringLoop del ls).map saveAndNext) (self.loop v) := by
  fun_induction readStringLoop del ls generalizing self v with
  | case1 ls hc =>
      have hr := rest_of_current_none hc
      have fail : self.atEnd v = self.reportLexError .unfinishedString v.result .eof := by
        simp only [atEnd, sync.index_end hr, inside.state, ne_eq, not_true_eq_false, if_false]
      exact fails_end sync hr fail
  | case2 ls hc =>
      obtain ⟨rest, hr⟩ := rest_of_current hc
      have here := sync.rest.trans hr
      have notEscape : del ≠ ch '\\' := by rcases quote with rfl | rfl <;> simp
      have done : self.step v del =
          .done { self with index := self.index + 1 }
            { v with result := { v.result with id := .string } } := by
        simp only [step_stringLiteral inside.state, stepStringLiteral, notEscape, quote,
          inside.delim, if_true, if_false, finishInc, finish, inside.id]
      refine ⟨self.index + 1, { v.result with id := .string, stop := self.index + 1 },
        (loop_done defaults.fits sync.start here done).trans ?_, lt_of_drop here,
        (drop_succ here).trans (by simp [hr]), rfl, inside.start, ?_, rfl⟩
      swap
      · rw [← inside.start]
        exact sync.start.trans (Nat.le_succ _)
      · simp [finalize, sync.line]
  | case3 ls c hc other newline =>
      obtain ⟨rest, hr⟩ := rest_of_current hc
      have plain : c ≠ ch '\\' ∧ ¬(c = ch '"' ∨ c = ch '\'') := by
        rcases newline with rfl | rfl <;> simp
      have fail : self.step v c = self.reportLexError .unfinishedString v.result .string := by
        simp only [step_stringLiteral inside.state, stepStringLiteral, plain, newline, if_true,
          if_false]
      exact fails_step defaults sync hr fail
  | case4 ls hd hc _ _ ih =>
      obtain ⟨w, once, sync', inside', -, -⟩ := loop_backslash defaults sync inside hc
      rw [once, loop_string_end sync' (rest_of_current_none hd) (.inl inside'.state)]
      exact ih (defaults.at _ _) (sync'.congr rfl rfl sync'.start rfl)
        ⟨rfl, inside'.delim, inside'.start, inside'.id⟩
  | case5 ls d hd e named hc _ _ ih =>
      have plain := namedEscape_plain named
      obtain ⟨w, run, sync', inside'⟩ := loop_escapedByte (ls.next.save e).next defaults sync inside
        hc hd plain.1 plain.2 rfl rfl
      rw [run]
      exact ih (defaults.at _ _) sync' inside'
  | case6 ls d hd _ newline msg hi hc _ _ =>
      obtain ⟨w, once, sync', inside', zero, -⟩ := loop_backslash defaults sync inside hc
      obtain ⟨rest, hr⟩ := rest_of_current hd
      have saved : Sync _ w (ls.next.save (ch '\n')) := sync'.congr rfl rfl sync'.start rfl
      have passed := loop_escapedBreak (defaults.at _ _) saved inside' zero hr newline
      rw [hi] at passed
      rw [once]
      exact passed
  | case7 ls d hd _ newline ls' hi hc _ _ ih =>
      obtain ⟨w, once, sync', inside', zero, -⟩ := loop_backslash defaults sync inside hc
      obtain ⟨rest, hr⟩ := rest_of_current hd
      have saved : Sync _ w (ls.next.save (ch '\n')) := sync'.congr rfl rfl sync'.start rfl
      have passed := loop_escapedBreak (defaults.at _ _) saved inside' zero hr newline
      rw [hi] at passed
      obtain ⟨i, w', run, sync'', inside''⟩ := passed
      rw [once, run]
      exact ih (defaults.at _ _) sync'' inside''
  | case8 ls d hd _ newline nondigit hc _ _ ih =>
      obtain ⟨w, run, sync', inside'⟩ := loop_escapedByte ls.next.saveAndNext defaults sync inside
        hc hd (by simpa using nondigit) (fun h => newline h.symm) rfl rfl
      rw [run]
      exact ih (defaults.at _ _) sync' inside'
  | case9 ls d hd _ newline digit large hc _ _ =>
      obtain ⟨w, once, sync', inside', zero, empty⟩ := loop_backslash defaults sync inside hc
      have escape := loop_escape 2 (defaults.at _ _) sync' inside' (by rw [zero])
        (by simp [zero, empty]) (by simpa [hd] using digit)
      rw [empty, if_pos large] at escape
      rw [once]
      exact escape
  | case10 ls d hd _ newline digit small hc _ _ ih =>
      obtain ⟨w, once, sync', inside', zero, empty⟩ := loop_backslash defaults sync inside hc
      have escape := loop_escape 2 (defaults.at _ _) sync' inside' (by rw [zero])
        (by simp [zero, empty]) (by simpa [hd] using digit)
      rw [empty, if_neg small] at escape
      obtain ⟨i, w', run, sync'', inside''⟩ := escape
      rw [once, run]
      exact ih (defaults.at _ _) (sync''.congr rfl rfl sync''.start rfl) inside''
  | case11 ls c hc other newline escape ih => 
      obtain ⟨rest, hr⟩ := rest_of_current hc
      have plain := loop_plain v ls.saveAndNext defaults sync hr
        (step_string_other inside other newline escape) (by simp [hr]) rfl
        (sync.start.trans (Nat.le_succ _)) rfl
      rw [plain.1]
      exact ih (defaults.at _ _) plain.2 inside

end Zua.Lex.Lexer
