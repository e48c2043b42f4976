import Zua.Lex.QuotedString
import Zua.Lex.LongBracket

/-!
# The two lexers agree

`loop_start` puts the scanning loops together by induction on the outer loop of `llex`: it is about
one call of `next`. `run_agrees` is about all calls up to the first error or the end of the input.
-/

namespace Zua.Lex
open Zua.Llex Zua.Llex.LexState

def Token.Id.code : Token.Id → Nat
  | .singleChar => 0
  | .keywordAnd => FIRST_RESERVED
  | .keywordBreak => FIRST_RESERVED + 1
  | .keywordDo => FIRST_RESERVED + 2
  | .keywordElse => FIRST_RESERVED + 3
  | .keywordElseif => FIRST_RESERVED + 4
  | .keywordEnd => FIRST_RESERVED + 5
  | .keywordFalse => FIRST_RESERVED + 6
  | .keywordFor => FIRST_RESERVED + 7
  | .keywordFunction => FIRST_RESERVED + 8
  | .keywordIf => FIRST_RESERVED + 9
  | .keywordIn => FIRST_RESERVED + 10
  | .keywordLocal => FIRST_RESERVED + 11
  | .keywordNil => FIRST_RESERVED + 12
  | .keywordNot => FIRST_RESERVED + 13
  | .keywordOr => FIRST_RESERVED + 14
  | .keywordRepeat => FIRST_RESERVED + 15
  | .keywordReturn => FIRST_RESERVED + 16
  | .keywordThen => FIRST_RESERVED + 17
  | .keywordTrue => FIRST_RESERVED + 18
  | .keywordUntil => FIRST_RESERVED + 19
  | .keywordWhile => FIRST_RESERVED + 20
  | .concat => TK_CONCAT
  | .ellipsis => TK_DOTS
  | .eq => TK_EQ
  | .ge => TK_GE
  | .le => TK_LE
  | .ne => TK_NE
  | .number => TK_NUMBER
  | .name => TK_NAME
  | .string => TK_STRING
  | .eof => TK_EOS

def Token.code (token : Token) : Nat :=
  if token.id = .singleChar then (token.char.getD 0).toNat else token.id.code

namespace Lexer

variable {self self' : Lexer} {v v' w : Vars} {c : UInt8} {rest : List UInt8} {ls ls' : LexState}

/-! ## Reserved words -/

theorem lookup_zip {α β : Type} [BEq α] [LawfulBEq α] (a : α) (keys : List α) (values : List β)
    (same : keys.length = values.length) :
    (keys.zip values).lookup a = values[keys.idxOf a]? := by
  induction keys generalizing values with
  | nil => cases values <;> simp_all
  | cons key keys ih =>
      cases values with
      | nil => simp at same
      | cons value values =>
          rw [List.zip_cons_cons, List.lookup_cons, List.idxOf_cons]
          by_cases h : a = key
          · simp [h]
          · have h' : (key == a) = false := by simpa using Ne.symm h
            have h'' : (a == key) = false := by simpa using h
            rw [h', h'', ih values (by simpa using same)]
            rfl

def keywordIds : List Token.Id := Token.keywordMapping.map Prod.snd

theorem keywordMapping_zip :
    Token.keywordMapping = (luaX_tokens.take NUM_RESERVED).zip keywordIds := by decide

theorem idFromName_eq (name : List UInt8) :
    Token.idFromName name = keywordIds[(luaX_tokens.take NUM_RESERVED).idxOf name]? := by
  rw [Token.idFromName, keywordMapping_zip]
  exact lookup_zip name _ _ (by decide)

theorem code_identifier (name : List UInt8) :
    ((Token.idFromName name).getD .name) ≠ .singleChar ∧
      ((Token.idFromName name).getD .name).code =
        if 0 < reserved name then reserved name - 1 + FIRST_RESERVED else TK_NAME := by
  rw [idFromName_eq, reserved]
  generalize (luaX_tokens.take NUM_RESERVED).idxOf name = i
  by_cases small : i < NUM_RESERVED
  · have codes : ∀ i < NUM_RESERVED, (keywordIds[i]?.getD .name) ≠ .singleChar ∧
        (keywordIds[i]?.getD .name).code = i + FIRST_RESERVED := by decide
    simpa [small] using codes i small
  · have past : keywordIds[i]? = none := List.getElem?_eq_none (by
      rw [show keywordIds.length = NUM_RESERVED by decide]
      omega)
    simp [small, past, Token.Id.code]

/-! ## One call -/

def Agrees (self : Lexer) (outcome : Outcome) : Except String Lexeme → Prop
  | .error msg => Fails outcome msg
  | .ok lexeme => ∃ i token,
      outcome = .token { self with index := i, lineNumber := lexeme.ls.linenumber } token ∧
      i ≤ self.buffer.length ∧ self.buffer.drop i = lexeme.ls.rest ∧ token.code = lexeme.token ∧
      token.start ≤ i ∧ self.buffer.drop token.start = lexeme.start ∧ token.stop = i

/-- The call went through `read_numeral`, the only place that makes a number or rejects one. -/
def entersReadNumeral : Except String Lexeme → Bool
  | .ok lexeme => lexeme.token == TK_NUMBER
  | .error msg => msg == "malformed number"

structure Covers (lexer : Lexer) (start : Nat) (lexeme : Lexeme) : Prop where
  bound : lexer.index ≤ lexer.buffer.length
  rest : lexer.buffer.drop lexer.index = lexeme.ls.rest
  line : lexer.lineNumber = lexeme.ls.linenumber
  le : start ≤ lexer.index
  first : lexer.buffer.drop start = lexeme.start

theorem agrees_id {lexeme : Lexeme} (covers : Covers self v.result.start lexeme) (id : v.result.id ≠ .singleChar)
    (code : v.result.id.code = lexeme.token) : Agrees self (self.finalize v) (.ok lexeme) := by
  refine ⟨self.index, { v.result with stop := self.index }, ?_, covers.bound, covers.rest, ?_,
    covers.le, covers.first, rfl⟩
  · rw [finalize, if_neg id, ← covers.line]
  · rw [Token.code, if_neg id, code]

theorem agrees_char {lexeme : Lexeme} (covers : Covers self v.result.start lexeme) (id : v.result.id = .singleChar)
    (first : lexeme.start = c :: rest) (code : lexeme.token = c.toNat) :
    Agrees self (self.finalize v) (.ok lexeme) := by
  have here := getElem?_of_drop (covers.first.trans first)
  refine ⟨self.index, { v.result with char := some c, stop := self.index }, ?_, covers.bound,
    covers.rest, ?_, covers.le, covers.first, rfl⟩
  · rw [finalize, if_pos id, here, ← covers.line]
  · rw [Token.code, if_pos id, code]
    rfl

theorem Sync.covers (sync : Sync self v ls) {lexeme : Lexeme} (ls' : lexeme.ls = ls)
    (start : self.buffer.drop v.result.start = lexeme.start) : Covers self v.result.start lexeme where
  bound := sync.bound
  rest := by rw [ls']; exact sync.rest
  line := by rw [ls']; exact sync.line
  le := sync.start
  first := start

theorem AtStart.start_rest (between : AtStart self.index v) (sync : Sync self v ls) :
    self.buffer.drop v.result.start = ls.rest := by
  rw [between.start]
  exact sync.rest

theorem take_succ (h : self.buffer.drop self.index = c :: rest)
    (start : v.result.start ≤ self.index) :
    (self.buffer.take (self.index + 1)).drop v.result.start =
      (self.buffer.take self.index).drop v.result.start ++ [c] := by
  have bound := lt_of_drop h
  rw [List.take_add_one, getElem?_of_drop h, Option.toList_some, List.drop_append_of_le_length]
  simp only [List.length_take]
  omega

theorem loop_identifier (defaults : Defaults self) (sync : Sync self v ls)
    (state : v.state = .identifier)
    (name : ls.buff = (self.buffer.take self.index).drop v.result.start) :
    ∃ i, self.loop v = finalize { self with index := i }
        { v with result := { v.result with id := identifierId { self with index := i } v } } ∧
      Sync { self with index := i } v (saveWhile isAlnum_ ls) ∧
      (saveWhile isAlnum_ ls).buff = (self.buffer.take i).drop v.result.start := by
  fun_induction saveWhile isAlnum_ ls generalizing self with
  | case1 ls c hc more ih =>
      obtain ⟨rest, hr⟩ := rest_of_current hc
      have here := sync.rest.trans hr
      have cont : self.step v c = .cont self v := by
        have more' : isAlpha c ∨ c = ch '_' ∨ isDigit c := by
          simp only [isAlnum_, Bool.or_eq_true, beq_iff_eq] at more
          tauto
        rw [step_identifier state, stepIdentifier, if_pos more']
      obtain ⟨run, sync'⟩ := loop_plain v ls.saveAndNext defaults sync hr cont (by simp [hr]) rfl
        (sync.start.trans (Nat.le_succ _)) rfl
      rw [run]
      exact ih (defaults.at _ _) sync'
        (by rw [buff_saveAndNext hr, name]; exact (take_succ here sync.start).symm)
  | case2 ls c hc stop =>
      obtain ⟨rest, hr⟩ := rest_of_current hc
      refine ⟨self.index, loop_done defaults.fits sync.start (sync.rest.trans hr) ?_, sync, name⟩
      have stop' : ¬(isAlpha c ∨ c = ch '_' ∨ isDigit c) := by
        simp only [isAlnum_, Bool.or_eq_true, beq_iff_eq] at stop
        tauto
      rw [step_identifier state, stepIdentifier, if_neg stop', finish]
  | case3 ls hc =>
      have hr := rest_of_current_none hc
      have fin : self.atEnd v = self.finish v (self.identifierId v) := by
        rw [atEnd, if_neg (not_not_intro (sync.index_end hr)), state]
      refine ⟨self.index, ?_, sync, name⟩
      rw [loop_end (sync.rest.trans hr), fin]
      rfl

theorem identifierLexeme_token (ls : LexState) :
    (identifierLexeme ls).token =
        (let name := (saveWhile isAlnum_ ls.saveAndNext).buff
        if 0 < reserved name then reserved name - 1 + FIRST_RESERVED else TK_NAME) ∧
      (identifierLexeme ls).start = ls.rest ∧
      (identifierLexeme ls).ls = saveWhile isAlnum_ ls.saveAndNext := by
  simp only [identifierLexeme]
  split <;> exact ⟨rfl, rfl, rfl⟩

theorem agrees_identifier (defaults : Defaults self) (sync : Sync self v ls)
    (between : AtStart self.index v) (empty : ls.buff = []) (hr : ls.rest = c :: rest)
    (first : self.step v c = .cont self
      { v with state := .identifier, result := { v.result with id := .name } }) :
    Agrees self (self.loop v) (.ok (identifierLexeme ls)) := by
  have here := sync.rest.trans hr
  let w : Vars := { v with state := .identifier, result := { v.result with id := .name } }
  obtain ⟨run, sync'⟩ := loop_plain w ls.saveAndNext defaults sync hr first (by simp [hr]) rfl
    (sync.start.trans (Nat.le_succ _)) rfl
  obtain ⟨i, run', sync'', name⟩ := loop_identifier (v := w) (defaults.at _ _) sync' rfl (by
    rw [buff_saveAndNext hr, empty]
    refine Eq.trans ?_ (take_succ here sync.start).symm
    rw [between.start, List.drop_of_length_le (by simp)])
  have id : identifierId { self with index := i } w =
      (Token.idFromName (saveWhile isAlnum_ ls.saveAndNext).buff).getD .name := by rw [name]; rfl
  obtain ⟨token, start, final⟩ := identifierLexeme_token ls
  obtain ⟨single, code⟩ := code_identifier (saveWhile isAlnum_ ls.saveAndNext).buff
  rw [run, run', id]
  refine agrees_id (sync''.covers final ?_) single (code.trans token.symm)
  rw [start]
  exact between.start_rest sync

/-! ### Operators -/

theorem step_dash (h : v.state = .dash) : self.step v c = self.stepDash v c := by
  simp only [step, h]

theorem step_dot (h : v.state = .dot) : self.step v c = self.stepDot v c := by
  simp only [step, h]

theorem step_concat (h : v.state = .concat) : self.step v c = self.stepConcat v c := by
  simp only [step, h]

theorem step_compoundEqual (h : v.state = .compoundEqual) :
    self.step v c = self.stepCompoundEqual v c := by
  simp only [step, h]

theorem loop_finish (id : Token.Id) (defaults : Defaults self) (sync : Sync self v ls)
    (step : ∀ c, ls.current = some c → self.step v c = self.finish v id)
    (atEnd : self.index = self.buffer.length → self.atEnd v = self.finish v id) :
    self.loop v = self.finalize { v with result := { v.result with id } } := by
  cases hr : ls.rest with
  | nil =>
      rw [loop_end (sync.rest.trans hr), atEnd (sync.index_end hr)]
      rfl
  | cons c rest =>
      exact loop_done defaults.fits sync.start (sync.rest.trans hr) (step c (current_of_rest hr))

theorem agrees_withEq (id : Token.Id) (compound : Nat) (defaults : Defaults self)
    (sync : Sync self v ls) (between : AtStart self.index v) (hr : ls.rest = c :: rest)
    (operator : (c = ch '>' ∧ id = .ge) ∨ (c = ch '<' ∧ id = .le) ∨ (c = ch '~' ∧ id = .ne) ∨
      (c = ch '=' ∧ id = .eq)) (code : id.code = compound) :
    Agrees self (self.loop v) (.ok (withEq ls c compound)) := by
  have here := sync.rest.trans hr
  let w : Vars := { v with state := .compoundEqual }
  have first : self.step v c = .cont self w := by
    rw [step_start between.state]
    rcases operator with ⟨rfl, -⟩ | ⟨rfl, -⟩ | ⟨rfl, -⟩ | ⟨rfl, -⟩ <;> rfl
  obtain ⟨run, sync'⟩ := loop_plain w ls.next defaults sync hr first (by simp [hr]) rfl
    (sync.start.trans (Nat.le_succ _)) rfl
  rw [run, withEq]
  split
  · rename_i equals
    obtain ⟨rest', hr'⟩ := rest_of_current equals
    have done : step { self with index := self.index + 1 } w (ch '=') =
        .done { self with index := self.index + 2 } { w with result := { w.result with id } } := by
      rw [step_compoundEqual rfl, stepCompoundEqual, if_pos rfl, if_neg (Nat.succ_ne_zero _)]
      simp only [Nat.add_sub_cancel, getElem?_of_drop here]
      rcases operator with ⟨rfl, rfl⟩ | ⟨rfl, rfl⟩ | ⟨rfl, rfl⟩ | ⟨rfl, rfl⟩ <;> rfl
    rw [loop_done (defaults.at _ _).fits sync'.start (sync'.rest.trans hr') done]
    have sync'' := sync'.advance { w with result := { w.result with id } } ls.next.next hr' (by rw [rest_next, hr', List.tail_cons]) rfl (sync'.start.trans (Nat.le_succ _)) rfl
    refine agrees_id (sync''.covers rfl (between.start_rest sync)) ?_ code
    rcases operator with ⟨-, rfl⟩ | ⟨-, rfl⟩ | ⟨-, rfl⟩ | ⟨-, rfl⟩ <;> simp
  · rename_i other
    rw [loop_finish .singleChar (defaults.at _ _) sync' ?_ ?_]
    · exact agrees_char (sync'.covers rfl (between.start_rest sync)) rfl
        hr rfl
    · intro d hd
      have other' : d ≠ ch '=' := by rintro rfl; exact other hd
      rw [step_compoundEqual rfl, stepCompoundEqual, if_neg other']
    · intro last
      rw [atEnd, if_neg (not_not_intro last)]

theorem checkNext_dot (ls : LexState) :
    ls.checkNext (bytes ".") =
      if ls.current = some (ch '.') ∨ ls.current = some 0 then (true, ls.saveAndNext)
      else (false, ls) := by
  have set : bytes "." = [ch '.'] := by decide
  rw [checkNext, set]
  cases ls.current with
  | none => simp
  | some c => simp only [List.mem_singleton, Option.some.injEq]

theorem entersReadNumeral_map (str2d : List UInt8 → Bool) (ls : LexState) (f : LexState → Lexeme)
    (number : ∀ ls, (f ls).token = TK_NUMBER) :
    entersReadNumeral ((readNumeral str2d ls).map f) = true := by
  cases h : readNumeral str2d ls with
  | ok ls' => simp [Except.map, entersReadNumeral, number]
  | error msg =>
      simp only [readNumeral] at h
      split_ifs at h <;> cases h <;> rfl

theorem agrees_concat (defaults : Defaults self) (sync : Sync self v ls) (state : v.state = .concat)
    (start : List UInt8) (first : self.buffer.drop v.result.start = start) :
    Agrees self (self.loop v) (.ok
      { token := if (ls.checkNext (bytes ".")).1 then TK_DOTS else TK_CONCAT, start,
        ls := (ls.checkNext (bytes ".")).2 }) := by
  rw [checkNext_dot]
  by_cases dot : ls.current = some (ch '.') ∨ ls.current = some 0
  · rw [if_pos dot]
    cases hr : ls.rest with
    | nil => simp [current, hr] at dot
    | cons c rest =>
        have hc : c = ch '.' ∨ c = 0 := by simpa [current_of_rest hr] using dot
        have done : self.step v c = .done { self with index := self.index + 1 }
            { v with result := { v.result with id := .ellipsis } } := by
          rw [step_concat state, stepConcat]
          rcases hc with rfl | rfl
          · rfl
          · rw [if_neg (by decide), if_pos ⟨defaults.compat, rfl⟩]
            rfl
        have sync' := sync.advance v ls.saveAndNext hr (by simp [hr]) rfl
          (sync.start.trans (Nat.le_succ _)) rfl
        rw [loop_done defaults.fits sync.start (sync.rest.trans hr) done]
        exact agrees_id (sync'.covers rfl first) (by simp) rfl
  · rw [if_neg dot]
    rw [loop_finish .concat defaults sync ?_ ?_]
    · exact agrees_id (sync.covers rfl first) (by simp) rfl
    · intro c hc
      have other : c ≠ ch '.' ∧ c ≠ 0 := by simpa [hc] using dot
      simp only [step_concat state, stepConcat, other, and_false, if_false]
    · intro last
      rw [atEnd, if_neg (not_not_intro last), state]

/-! ### Numerals -/

def inNumeral : State → Bool
  | .number | .numberExponentStart | .numberExponent | .numberHexStart | .numberHex => true
  | _ => false

def Numeral (outcome : Outcome) : Prop :=
  ∀ lexer token, outcome = .token lexer token → token.id = .number

theorem step_numeral (numeral : inNumeral v.state = true) :
    (∃ v', self.step v c = .cont self v' ∧ inNumeral v'.state = true) ∨
      (∃ self' v', self.step v c = .done self' v' ∧ v'.result.id = .number) ∨
      ∃ self' err, self.step v c = .fail self' err := by
  cases state : v.state <;> simp only [state, inNumeral, Bool.false_eq_true] at numeral
  all_goals
    simp only [step, state, stepNumber, stepNumberExponentStart, stepNumberExponent, stepNumberHex,
      finish, reportLexErrorInc, reportLexError]
    repeat' split
  all_goals simp [state, inNumeral]

theorem numeral_finalize (number : v.result.id = .number) : Numeral (self.finalize v) := by
  intro lexer token result
  rw [finalize, if_neg (by simp [number])] at result
  cases result
  exact number

theorem numeral_atEnd (numeral : inNumeral v.state = true) : Numeral (self.atEnd v).outcome := by
  cases state : v.state <;> simp only [state, inNumeral, Bool.false_eq_true] at numeral
  all_goals
    simp only [atEnd, state]
    repeat' split
  all_goals first
    | exact numeral_finalize rfl
    | intro _ _ result
      cases result

theorem loop_numeral (numeral : inNumeral v.state = true) : Numeral (self.loop v) := by
  fun_induction loop self v with
  | case1 self v h => exact numeral_atEnd numeral
  | case2 self v c h before =>
      intro _ _ result
      cases result
  | case3 self v c h before long =>
      intro _ _ result
      cases result
  | case4 self v c h before long self' v' hs ih =>
      obtain ⟨w, cont, state⟩ | ⟨_, _, done, -⟩ | ⟨_, _, fail⟩ := @step_numeral self v c numeral
      · cases hs.symm.trans cont
        exact ih state
      · cases hs.symm.trans done
      · cases hs.symm.trans fail
  | case5 self v c h before long notCont =>
      obtain ⟨w, cont, -⟩ | ⟨_, _, done, number⟩ | ⟨_, _, fail⟩ :=
        @step_numeral self v c numeral
      · exact (notCont _ _ cont).elim
      · rw [done]
        exact numeral_finalize number
      · rw [fail]
        intro _ _ result
        cases result

/-- What a call of `llex` says about a call of `next`: a numeral only has to stay one. -/
def Relates (self : Lexer) (outcome : Outcome) (result : Except String Lexeme) : Prop :=
  Agrees self outcome result ∨ entersReadNumeral result = true ∧ Numeral outcome

theorem relates_dot (str2d : List UInt8 → Bool) (defaults : Defaults self) (sync : Sync self v ls)
    (between : AtStart self.index v) (hr : ls.rest = ch '.' :: rest) :
    Relates self (self.loop v) (dotLexeme str2d ls) := by
  let w : Vars := { v with state := .dot }
  have first : self.step v (ch '.') = .cont self w := by
    rw [step_start between.state]
    rfl
  obtain ⟨run, sync'⟩ := loop_plain w ls.saveAndNext defaults sync hr first (by simp [hr]) rfl
    (sync.start.trans (Nat.le_succ _)) rfl
  have start := between.start_rest sync
  simp only [dotLexeme, checkNext_dot ls.saveAndNext]
  rw [run]
  by_cases dot : ls.saveAndNext.current = some (ch '.') ∨ ls.saveAndNext.current = some 0
  · simp only [if_pos dot, if_true]
    obtain ⟨d, hc, hd⟩ : ∃ d, ls.saveAndNext.current = some d ∧ (d = ch '.' ∨ d = 0) := by
      rcases dot with h | h
      exacts [⟨_, h, .inl rfl⟩, ⟨_, h, .inr rfl⟩]
    obtain ⟨rest', hr'⟩ := rest_of_current hc
    have second : step { self with index := self.index + 1 } w d =
        .cont { self with index := self.index + 1 } { w with state := .concat } := by
      rw [step_dot rfl, stepDot]
      rcases hd with rfl | rfl
      · rfl
      · rw [if_neg (by decide), if_neg (by decide), if_pos ⟨defaults.compat, rfl⟩]
    obtain ⟨run', sync''⟩ := loop_plain { w with state := .concat } ls.saveAndNext.saveAndNext
      (defaults.at _ _) sync' hr' second (by rw [rest_saveAndNext, hr', List.tail_cons]) rfl
      (sync'.start.trans (Nat.le_succ _)) rfl
    rw [run']
    exact .inl (agrees_concat (defaults.at _ _) sync'' rfl _ start)
  · simp only [if_neg dot, if_false, Bool.false_eq_true]
    by_cases digit : ls.saveAndNext.current.any isDigit = true
    · rw [if_pos digit]
      refine .inr ⟨entersReadNumeral_map str2d _ _ (fun _ => rfl), ?_⟩
      cases hr' : ls.saveAndNext.rest with
      | nil => rw [current, hr'] at digit; contradiction
      | cons d rest' =>
          rw [current_of_rest hr', Option.any_some] at digit
          rw [current_of_rest hr', Option.some.injEq] at dot
          have number : step { self with index := self.index + 1 } w d =
              .cont { self with index := self.index + 1 }
                { w with state := .number, numberStartingChar := ch '.', numberIsFloat := true,
                         numberIsNullTerminated := false } := by
            rw [step_dot rfl, stepDot, if_neg (fun h => dot (.inl h)), if_pos digit]
            simp only [defaults.compat, if_true]
          rw [loop_cont (defaults.at _ _).fits sync'.start (sync'.rest.trans hr') number]
          exact loop_numeral rfl
    · rw [if_neg digit, loop_finish .singleChar (defaults.at _ _) sync' ?_ ?_]
      · exact .inl (agrees_char (sync'.covers rfl start) rfl hr rfl)
      · intro d hd
        have other : d ≠ ch '.' ∧ d ≠ 0 := by simpa [hd] using dot
        have nondigit : ¬isDigit d = true := by simpa [hd] using digit
        simp only [step_dot (v := w) rfl, stepDot, other, nondigit, and_false, if_false, Bool.false_eq_true]
      · intro last
        rw [atEnd, if_neg (not_not_intro last)]

theorem agrees_quoted (defaults : Defaults self) (sync : Sync self v ls)
    (between : AtStart self.index v) (hr : ls.rest = c :: rest) (quote : c = ch '"' ∨ c = ch '\'') :
    Agrees self (self.loop v) ((readString c ls).map fun ls' =>
      { token := TK_STRING, ts := some (stringValue ls'), start := ls.rest, ls := ls' }) := by
  let w : Vars := { v with state := .stringLiteral, stringDelim := c,
                           result := { v.result with id := .string } }
  have first : self.step v c = .cont self w := by
    rw [step_start between.state]
    rcases quote with rfl | rfl <;> rfl
  obtain ⟨run, sync'⟩ := loop_plain w ls.saveAndNext defaults sync hr first (by simp [hr]) rfl
    (sync.start.trans (Nat.le_succ _)) rfl
  have closes := loop_stringLiteral quote (defaults.at _ _) sync' ⟨rfl, rfl, rfl, rfl⟩
  rw [run, readString]
  cases hl : (readStringLoop c ls.saveAndNext).map saveAndNext with
  | error msg =>
      rw [hl] at closes
      exact closes
  | ok ls' =>
      rw [hl] at closes
      obtain ⟨i, token, result, bound, rest', id, start, le, stop⟩ := closes
      refine ⟨i, token, result, bound, rest', ?_, ?_, ?_, stop⟩
      · rw [Token.code, id]
        rfl
      · rw [start]
        exact le
      · rw [start]
        exact between.start_rest sync

theorem skipSep_bracket (hc : ls.current = some (ch '[')) :
    (skipSep ls).2 = (skipSepLoop ls.saveAndNext 0).2 ∧
      (skipSep ls).1 = if (skipSep ls).2.current = some (ch '[') then (skipSepLoop ls.saveAndNext 0).1
        else -(skipSepLoop ls.saveAndNext 0).1 - 1 := by
  simp only [skipSep, hc]
  exact ⟨trivial, trivial⟩

theorem loop_opening (seminfo : Bool) (defaults : Defaults self) (sync : Sync self v ls)
    (hr : ls.rest = ch '[' :: rest) (first : self.step v (ch '[') = .cont self
      { v with state := startState seminfo, expectedStringLevel := 0 }) :
    ∃ i w, self.loop v = loop { self with index := i } w ∧
      Sync { self with index := i } w (skipSep ls).2 ∧ w.state = startState seminfo ∧
      w.result = v.result ∧ (skipSep ls).2.current ≠ some (ch '=') ∧
      (skipSep ls).1 = if (skipSep ls).2.current = some (ch '[') then (w.expectedStringLevel : Int)
        else -(w.expectedStringLevel : Int) - 1 := by
  obtain ⟨final, count⟩ := skipSep_bracket (current_of_rest hr)
  obtain ⟨run, sync'⟩ := loop_plain { v with state := startState seminfo, expectedStringLevel := 0 }
    ls.saveAndNext defaults sync hr first (by simp [hr]) rfl (sync.start.trans (Nat.le_succ _)) rfl
  obtain ⟨i, w, run', sync'', state, result, level⟩ := loop_openingRun 0 (defaults.at _ _)
    sync' rfl rfl
  refine ⟨i, w, run.trans run', ?_, state, result, ?_, ?_⟩
  · rw [final]
    exact sync''
  · rw [final]
    exact skipSepLoop_current _ _
  · rw [level]
    exact count

theorem agrees_bracket (defaults : Defaults self) (sync : Sync self v ls)
    (between : AtStart self.index v) (hr : ls.rest = ch '[' :: rest) :
    Agrees self (self.loop v)
      (if 0 ≤ (skipSep ls).1 then
        (readLongString true (skipSep ls).1 (skipSep ls).2).map fun ls' =>
          { token := TK_STRING, ts := some (longStringValue (skipSep ls).1 ls'), start := ls.rest,
            ls := ls' }
      else if (skipSep ls).1 = -1 then
        .ok { token := (ch '[').toNat, start := ls.rest, ls := (skipSep ls).2 }
      else .error "invalid long string delimiter") := by
  obtain ⟨i, w, run, sync', state, result, equals, level⟩ := loop_opening true defaults
    sync hr (by rw [step_start between.state]; rfl)
  have first := between.start_rest sync
  rw [← result] at first
  rw [run]
  by_cases bracket : (skipSep ls).2.current = some (ch '[')
  · rw [if_pos bracket] at level
    rw [if_pos (by omega), level]
    have closes := loop_readLongString (defaults.at _ _) sync' state bracket
    cases hl : readLongString true w.expectedStringLevel (skipSep ls).2 with
    | error msg =>
        rw [hl] at closes
        exact closes
    | ok ls' =>
        rw [hl] at closes
        obtain ⟨j, w', ls₁, run', sync'', hc, rfl, long, close⟩ := closes
        obtain ⟨rest', hr'⟩ := rest_of_current hc
        have done : step { self with index := j, lineNumber := ls₁.saveAndNext.linenumber } w' (ch ']') =
            .done { self with index := j + 1, lineNumber := ls₁.saveAndNext.linenumber }
              { w' with result := { w'.result with id := .string } } := by
          rw [step_possibleEnd long.state, stepLongPossibleEnd, if_pos rfl,
            if_pos (close.trans long.level.symm), if_neg (by rw [long.state]; decide)]
          rfl
        have sync₁ := sync''.advance w' ls₁.saveAndNext hr' (by simp [hr']) rfl
          (sync''.start.trans (Nat.le_succ _)) rfl
        rw [run', loop_done (defaults.at _ _).fits sync''.start (sync''.rest.trans hr') done]
        refine agrees_id (sync₁.covers rfl ?_) (by simp) rfl
        rw [long.start]
        exact first
  · rw [if_neg bracket] at level
    rw [if_neg (by omega)]
    by_cases zero : w.expectedStringLevel = 0
    · rw [if_pos (by omega), loop_finish .singleChar (defaults.at _ _) sync' ?_ ?_]
      · exact agrees_char (sync'.covers rfl first) rfl hr rfl
      · intro c hc
        rw [hc, ne_eq, Option.some.injEq] at equals
        rw [hc, Option.some.injEq] at bracket
        simp only [step_opening state, stepLongStart, bracket, equals, state, startState, zero,
          lt_irrefl, if_false, reduceCtorEq]
      · intro last
        rw [atEnd, if_neg (not_not_intro last), state]
        simp only [startState, zero, lt_irrefl, if_false]
    · rw [if_neg (by omega)]
      cases hr' : (skipSep ls).2.rest with
      | nil =>
          have fail : atEnd { self with index := i } w =
              reportLexError { self with index := i } .invalidLongStringDelimiter w.result .string := by
            rw [atEnd, if_neg (not_not_intro (sync'.index_end hr')), state]
            simp only [startState, Nat.pos_of_ne_zero zero, if_true]
          exact fails_end sync' hr' fail
      | cons c rest' =>
          have hc := current_of_rest hr'
          rw [hc, ne_eq, Option.some.injEq] at equals
          rw [hc, Option.some.injEq] at bracket
          have fail : step { self with index := i } w c =
              reportLexError { self with index := i } .invalidLongStringDelimiter w.result .string := by
            simp only [step_opening state, stepLongStart, bracket, equals, state, startState,
              Nat.pos_of_ne_zero zero, if_true, if_false, reduceCtorEq]
          exact fails_step (defaults.at _ _) sync' hr' fail

theorem buff_inclinenumber (ok : ls.inclinenumber = .ok ls') : ls'.buff = ls.buff := by
  simp only [inclinenumber, Except.ite_error_eq_ok] at ok
  rw [← ok.2]
  split <;> rfl

theorem buff_skipLine (ls : LexState) : (skipLine ls).buff = ls.buff := by
  fun_induction skipLine ls with
  | case1 ls h => rfl
  | case2 ls h ih => exact ih

theorem loop_dashes (defaults : Defaults self) (sync : Sync self v ls)
    (between : AtStart self.index v) (hc : ls.current = some (ch '-'))
    (hd : ls.next.current = some (ch '-')) :
    ∃ w, self.loop v = loop { self with index := self.index + 2 } w ∧
      Sync { self with index := self.index + 2 } w ls.next.next ∧ w.state = .commentStart ∧
      w.result.id = .eof := by
  obtain ⟨rest, hr⟩ := rest_of_current hc
  obtain ⟨rest', hr'⟩ := rest_of_current hd
  have first : self.step v (ch '-') = .cont self { v with state := .dash } := by
    rw [step_start between.state]
    rfl
  obtain ⟨run, sync'⟩ := loop_plain { v with state := .dash } ls.next defaults sync hr first
    (by simp [hr]) rfl (sync.start.trans (Nat.le_succ _)) rfl
  have second : step { self with index := self.index + 1 } { v with state := .dash } (ch '-') =
      .cont { self with index := self.index + 1 } { v with state := .commentStart } := by
    rw [step_dash rfl]
    rfl
  obtain ⟨run', sync''⟩ := loop_plain { v with state := .commentStart } ls.next.next (defaults.at _ _)
    sync' hr' second (by rw [rest_next, hr', List.tail_cons]) rfl (sync'.start.trans (Nat.le_succ _)) rfl
  exact ⟨_, run.trans run', sync'', rfl, between.id⟩

theorem loop_commentBracket (defaults : Defaults self) (sync : Sync self v ls)
    (state : v.state = .commentStart) (hc : ls.current = some (ch '[')) :
    ∃ i w, self.loop v = loop { self with index := i } w ∧
      Sync { self with index := i } w (skipSep ls).2 ∧ w.state = .longCommentStart ∧
      w.result = v.result ∧ (skipSep ls).2.current ≠ some (ch '=') ∧
      (skipSep ls).1 = if (skipSep ls).2.current = some (ch '[') then (w.expectedStringLevel : Int)
        else -(w.expectedStringLevel : Int) - 1 := by
  obtain ⟨rest, hr⟩ := rest_of_current hc
  exact loop_opening false defaults sync hr (by simp only [step, state]; rfl)

theorem loop_longComment (defaults : Defaults self) (sync : Sync self v ls)
    (between : AtStart self.index v) (hc : ls.current = some (ch '-'))
    (hd : ls.next.current = some (ch '-')) (bracket : ls.next.next.current = some (ch '['))
    (long : 0 ≤ (skipSep ls.next.next).1) :
    match readLongString false (skipSep ls.next.next).1 (skipSep ls.next.next).2.resetbuffer with
    | .error msg => Fails (self.loop v) msg
    | .ok ls' => ∃ i w, self.loop v = loop { self with index := i, lineNumber := ls'.linenumber } w ∧
        Sync { self with index := i, lineNumber := ls'.linenumber } w ls' ∧ AtStart i w := by
  obtain ⟨w, run, sync', state, id⟩ := loop_dashes defaults sync between hc hd
  obtain ⟨i, w', run', sync'', state', result, equals, level⟩ :=
    loop_commentBracket (defaults.at _ _) sync' state bracket
  by_cases second : (skipSep ls.next.next).2.current = some (ch '[')
  · rw [if_pos second] at level
    have reset : Sync _ w' (skipSep ls.next.next).2.resetbuffer :=
      sync''.congr rfl rfl sync''.start rfl
    have closes := @loop_readLongString _ _ _ false (defaults.at _ _) reset state' second
    rw [run, run', level]
    cases hl : readLongString false w'.expectedStringLevel (skipSep ls.next.next).2.resetbuffer with
    | error msg =>
        rw [hl] at closes
        exact closes
    | ok ls' =>
        rw [hl] at closes
        obtain ⟨j, x, ls₁, run₁, sync₁, hc₁, rfl, inLong, close⟩ := closes
        obtain ⟨rest', hr'⟩ := rest_of_current hc₁
        have cont : step { self with index := j, lineNumber := ls₁.saveAndNext.linenumber } x (ch ']') =
            .cont { self with index := j, lineNumber := ls₁.saveAndNext.linenumber }
              (restart { self with index := j } x) := by
          rw [step_possibleEnd inLong.state, stepLongPossibleEnd, if_pos rfl,
            if_pos (close.trans inLong.level.symm), if_pos (by rw [inLong.state]; rfl)]
          rfl
        obtain ⟨run₂, sync₂⟩ := loop_plain _ ls₁.saveAndNext (defaults.at _ _) sync₁ hr' cont
          (by simp [hr']) rfl le_rfl rfl
        exact ⟨j + 1, _, run₁.trans run₂, sync₂, ⟨rfl, rfl, by rw [← id, ← result]; exact inLong.id⟩⟩
  · rw [if_neg second] at level
    omega

theorem loop_shortComment (defaults : Defaults self) (sync : Sync self v ls)
    (between : AtStart self.index v) (hc : ls.current = some (ch '-'))
    (hd : ls.next.current = some (ch '-')) (rest' : LexState)
    (short : ls.next.next.current ≠ some (ch '[') ∧ rest' = ls.next.next ∨
      ls.next.next.current = some (ch '[') ∧ (skipSep ls.next.next).1 < 0 ∧
        rest' = (skipSep ls.next.next).2.resetbuffer) :
    ∃ i w, self.loop v = loop { self with index := i } w ∧
      Sync { self with index := i } w (skipLine rest') ∧ AtStart i w := by
  obtain ⟨w, run, sync', state, id⟩ := loop_dashes defaults sync between hc hd
  rw [run]
  rcases short with ⟨plain, rfl⟩ | ⟨bracket, negative, rfl⟩
  · exact loop_comment (defaults.at _ _) sync' ⟨id, .inr (.inl ⟨state, plain⟩)⟩
  · obtain ⟨i, w', run', sync'', state', result, equals, level⟩ :=
      loop_commentBracket (defaults.at _ _) sync' state bracket
    have second : (skipSep ls.next.next).2.current ≠ some (ch '[') := by
      intro second
      rw [if_pos second] at level
      omega
    have reset : Sync _ w' (skipSep ls.next.next).2.resetbuffer :=
      sync''.congr rfl rfl sync''.start rfl
    rw [run']
    exact loop_comment (defaults.at _ _) reset
      ⟨by rw [result]; exact id, .inr (.inr ⟨state', second, equals⟩)⟩

theorem loop_start (str2d : List UInt8 → Bool) (defaults : Defaults self) (sync : Sync self v ls)
    (between : AtStart self.index v) (empty : ls.buff = []) :
    Relates self (self.loop v) (llexLoop str2d ls) := by
  fun_induction llexLoop str2d ls generalizing self v with
  | case1 ls hc =>
      have hr := rest_of_current_none hc
      have done : self.atEnd v = .done self v := by
        rw [atEnd, if_neg (not_not_intro (sync.index_end hr)), between.state]
      rw [loop_end (sync.rest.trans hr), done]
      exact .inl (agrees_id (sync.covers rfl (between.start_rest sync)) (by simp [between.id])
        (by rw [between.id]; rfl))
  | case2 ls c hc newline msg hi =>
      obtain ⟨rest, hr⟩ := rest_of_current hc
      have passed := loop_startBreak defaults sync hr (by simpa using newline) between.id
        (by rw [step_start between.state, stepStart, if_pos newline])
      rw [hi] at passed
      exact .inl passed
  | case3 ls c hc newline ls' hi ih =>
      obtain ⟨rest, hr⟩ := rest_of_current hc
      have passed := loop_startBreak defaults sync hr (by simpa using newline) between.id
        (by rw [step_start between.state, stepStart, if_pos newline])
      rw [hi] at passed
      obtain ⟨i, w, run, sync', between'⟩ := passed
      rw [run]
      exact ih (defaults.at _ _) sync' between' ((buff_inclinenumber hi).trans empty)
  | case4 ls other hc newline =>
      obtain ⟨rest, hr⟩ := rest_of_current hc
      have first : self.step v (ch '-') = .cont self { v with state := .dash } := by
        rw [step_start between.state]
        rfl
      obtain ⟨run, sync'⟩ := loop_plain { v with state := .dash } ls.next defaults sync hr first
        (by simp [hr]) rfl (sync.start.trans (Nat.le_succ _)) rfl
      rw [run, loop_finish .singleChar (defaults.at _ _) sync' ?_ ?_]
      · exact .inl (agrees_char (sync'.covers rfl (between.start_rest sync)) rfl hr rfl)
      · intro d hd
        have single : d ≠ ch '-' := by rintro rfl; exact other hd
        rw [step_dash rfl, stepDash, if_neg single]
      · intro last
        rw [atEnd, if_neg (not_not_intro last)]
  | case5 ls dash comment bracket sep ls' long msg hl =>
      have passed := loop_longComment defaults sync between ‹_› (not_not.mp dash) bracket long
      rw [show readLongString false _ _ = .error msg from hl] at passed
      exact .inl passed
  | case6 ls dash comment bracket sep ls' long ls'' hl =>
      rename_i ih
      have passed := loop_longComment defaults sync between ‹_› (not_not.mp dash) bracket long
      rw [show readLongString false _ _ = .ok ls'' from hl] at passed
      obtain ⟨i, w, run, sync', between'⟩ := passed
      rw [run]
      exact ih (defaults.at _ _) (sync'.congr rfl rfl sync'.start rfl) between' rfl
  | case7 ls dash comment bracket sep ls' long =>
      rename_i ih
      obtain ⟨i, w, run, sync', between'⟩ := loop_shortComment defaults sync between ‹_›
        (not_not.mp dash) ls' (.inr ⟨bracket, not_le.mp long, rfl⟩)
      rw [run]
      exact ih (defaults.at _ _) sync' between' (buff_skipLine _)
  | case8 ls dash comment bracket =>
      rename_i ih
      obtain ⟨i, w, run, sync', between'⟩ := loop_shortComment defaults sync between ‹_›
        (not_not.mp dash) comment (.inl ⟨bracket, rfl⟩)
      rw [run]
      exact ih (defaults.at _ _) sync' between' ((buff_skipLine _).trans empty)
  | case9 ls sep long hc =>
      obtain ⟨rest, hr⟩ := rest_of_current hc
      have agrees := agrees_bracket defaults sync between hr
      rw [if_pos long] at agrees
      exact .inl agrees
  | case10 ls sep long minus hc =>
      obtain ⟨rest, hr⟩ := rest_of_current hc
      have agrees := agrees_bracket defaults sync between hr
      rw [if_neg long, if_pos minus] at agrees
      exact .inl agrees
  | case11 ls sep long minus hc =>
      obtain ⟨rest, hr⟩ := rest_of_current hc
      have agrees := agrees_bracket defaults sync between hr
      rw [if_neg long, if_neg minus] at agrees
      exact .inl agrees
  | case12 ls hc =>
      obtain ⟨rest, hr⟩ := rest_of_current hc
      exact .inl (agrees_withEq .eq TK_EQ defaults sync between hr (by simp) rfl)
  | case13 ls hc =>
      obtain ⟨rest, hr⟩ := rest_of_current hc
      exact .inl (agrees_withEq .le TK_LE defaults sync between hr (by simp) rfl)
  | case14 ls hc =>
      obtain ⟨rest, hr⟩ := rest_of_current hc
      exact .inl (agrees_withEq .ge TK_GE defaults sync between hr (by simp) rfl)
  | case15 ls hc =>
      obtain ⟨rest, hr⟩ := rest_of_current hc
      exact .inl (agrees_withEq .ne TK_NE defaults sync between hr (by simp) rfl)
  | case16 ls c hc _ _ _ _ _ _ _ quote =>
      obtain ⟨rest, hr⟩ := rest_of_current hc
      exact .inl (agrees_quoted defaults sync between hr quote)
  | case17 ls hc =>
      obtain ⟨rest, hr⟩ := rest_of_current hc
      exact relates_dot str2d defaults sync between hr
  | case18 ls c hc newline _ _ _ _ _ _ _ _ space ih =>
      obtain ⟨rest, hr⟩ := rest_of_current hc
      have cont : self.step v c = .cont self (self.restart v) := by
        rw [step_start between.state, stepStart, if_neg newline, if_pos space]
      obtain ⟨run, sync'⟩ := loop_plain _ ls.next defaults sync hr cont (by simp [hr]) rfl le_rfl rfl
      rw [run]
      exact ih (defaults.at _ _) sync' ⟨rfl, rfl, between.id⟩ empty
  | case19 ls c hc newline dash _ _ _ _ _ _ _ space digit =>
      obtain ⟨rest, hr⟩ := rest_of_current hc
      refine .inr ⟨entersReadNumeral_map str2d _ _ (fun _ => rfl), ?_⟩
      have number : self.step v c = .cont self { v with
          state := .number, numberStartingChar := c, numberIsNullTerminated := false } := by
        have alpha : ¬(isAlpha c ∨ c = ch '_') := by
          simp only [isDigit, isAlpha, ch, Bool.and_eq_true, Bool.or_eq_true, decide_eq_true_eq,
            UInt8.le_iff_toNat_le, ← UInt8.toNat_inj] at digit ⊢
          simp at digit ⊢
          omega
        rw [step_start between.state, stepStart, if_neg newline, if_neg space, if_neg dash,
          if_neg alpha, if_pos digit]
        simp only [defaults.compat, if_true]
      rw [loop_cont defaults.fits sync.start (sync.rest.trans hr) number]
      exact loop_numeral rfl
  | case20 ls c hc newline dash bracket eq lt gt tilde quote dot space digit alpha =>
      obtain ⟨rest, hr⟩ := rest_of_current hc
      refine .inl (agrees_identifier defaults sync between empty hr ?_)
      rw [step_start between.state, stepStart, if_neg newline, if_neg space, if_neg dash, if_pos alpha]
  | case21 ls c hc newline dash bracket eq lt gt tilde quote dot space digit alpha =>
      obtain ⟨rest, hr⟩ := rest_of_current hc
      have done : self.step v c = .done { self with index := self.index + 1 }
          { v with result := { v.result with id := .singleChar } } := by
        have compound : ¬(c = ch '>' ∨ c = ch '<' ∨ c = ch '~' ∨ c = ch '=') := by tauto
        rw [step_start between.state, stepStart, if_neg newline, if_neg space, if_neg dash,
          if_neg alpha, if_neg digit, if_neg quote, if_neg dot, if_neg compound, if_neg bracket]
        rfl
      have sync' := sync.advance v ls.next hr (by simp [hr]) rfl
        (sync.start.trans (Nat.le_succ _)) rfl
      rw [loop_done defaults.fits sync.start (sync.rest.trans hr) done]
      exact .inl (agrees_char (sync'.covers rfl (between.start_rest sync)) rfl hr rfl)

end Lexer

/-! ## All calls -/

inductive Event
  | token (code start stop : Nat)
  | error (msg : String)
  | trap
  deriving DecidableEq, Repr

def Event.isNumeral : Event → Bool
  | .token code _ _ => code == TK_NUMBER
  | .error msg => msg == "malformed number"
  | .trap => false

def Event.isLast : Event → Bool
  | .token code _ _ => code == TK_EOS
  | .error _ => true
  | .trap => false

def Lexer.run : Nat → Lexer → List Event
  | 0, _ => []
  | n + 1, self =>
      match self.next with
      | .token self' token =>
          .token token.code token.start token.stop ::
            if token.id = .eof then [] else Lexer.run n self'
      | .error _ err => [.error err.message]
      | .trap => [.trap]

def llexRun (str2d : List UInt8 → Bool) (size : Nat) : Nat → LexState → List Event
  | 0, _ => []
  | n + 1, ls =>
      match llex str2d ls with
      | .ok lexeme =>
          .token lexeme.token (size - lexeme.start.length) (size - lexeme.ls.rest.length) ::
            if lexeme.token = TK_EOS then [] else llexRun str2d size n lexeme.ls
      | .error msg => [.error msg]

namespace Lexer

variable {self : Lexer} {v : Vars} {ls : LexState}

theorem code_eof (token : Token) : token.code = TK_EOS ↔ token.id = .eof := by
  unfold Token.code
  split
  · rename_i single
    have := (token.char.getD 0).toNat_lt
    simp only [single, TK_EOS, FIRST_RESERVED, reduceCtorEq, iff_false]
    omega
  · cases token.id <;> simp_all [Token.Id.code, TK_EOS, FIRST_RESERVED, TK_CONCAT, TK_DOTS, TK_EQ,
      TK_GE, TK_LE, TK_NE, TK_NUMBER, TK_NAME, TK_STRING]

theorem next_relates (str2d : List UInt8 → Bool) (defaults : Defaults self)
    (bound : self.index ≤ self.buffer.length) (rest : self.buffer.drop self.index = ls.rest)
    (line : self.lineNumber = ls.linenumber) : Relates self self.next (llex str2d ls) := by
  apply loop_start str2d defaults
  · exact ⟨rest, bound, line, le_rfl, fun _ h => by cases h⟩
  · exact ⟨rfl, rfl, rfl⟩
  · rfl

theorem run_agrees (str2d : List UInt8 → Bool) (n : Nat) (defaults : Defaults self)
    (bound : self.index ≤ self.buffer.length) (rest : self.buffer.drop self.index = ls.rest)
    (line : self.lineNumber = ls.linenumber)
    (numeral : ∀ e ∈ llexRun str2d self.buffer.length n ls, e.isNumeral = false) :
    self.run n = llexRun str2d self.buffer.length n ls := by
  induction n generalizing self ls with
  | zero => rfl
  | succ n ih =>
      rw [run, llexRun]
      rw [llexRun] at numeral
      cases hl : llex str2d ls with
      | error msg =>
          rw [hl] at numeral
          have free := numeral _ List.mem_cons_self
          have agrees := (next_relates str2d defaults bound rest line).resolve_right (by
            rw [hl]
            exact fun h => Bool.false_ne_true (free.symm.trans h.1))
          rw [hl] at agrees
          obtain ⟨lexer, err, result, rfl⟩ := agrees
          rw [result]
      | ok lexeme =>
          rw [hl] at numeral
          have free := numeral _ List.mem_cons_self
          have agrees := (next_relates str2d defaults bound rest line).resolve_right (by
            rw [hl]
            exact fun h => Bool.false_ne_true (free.symm.trans h.1))
          rw [hl] at agrees
          obtain ⟨i, token, result, bound', rest', code, le, start, stop⟩ := agrees
          have startLength : token.start = self.buffer.length - lexeme.start.length := by
            rw [← start, List.length_drop]
            omega
          have stopLength : token.stop = self.buffer.length - lexeme.ls.rest.length := by
            rw [← rest', List.length_drop]
            omega
          have last : (token.id = .eof) = (lexeme.token = TK_EOS) := by
            rw [← code, code_eof]
          simp only [result, code, startLength, stopLength, last]
          split
          · rfl
          · rename_i more
            simp only [if_neg more] at numeral
            rw [ih (defaults.at _ _) bound' rest' rfl
              (fun e he => numeral e (List.mem_cons_of_mem _ he))]

theorem llexRun_last (str2d : List UInt8 → Bool) (size n : Nat) (ls : LexState) (long : ls.rest.length < n) :
    ∃ e, (llexRun str2d size n ls).getLast? = some e ∧ e.isLast = true := by
  induction n generalizing ls with
  | zero => omega
  | succ n ih =>
      rw [llexRun]
      cases hl : llex str2d ls with
      | error msg => exact ⟨.error msg, rfl, rfl⟩
      | ok lexeme =>
          by_cases last : lexeme.token = TK_EOS
          · simp only [if_pos last]
            exact ⟨_, rfl, by simpa [Event.isLast] using last⟩
          · have shorter := length_rest_llexLoop hl last
            obtain ⟨e, he, isLast⟩ := ih lexeme.ls (by simp at shorter; omega)
            simp only [if_neg last]
            exact ⟨e, by rw [List.getLast?_cons, he]; rfl, isLast⟩

end Lexer

/-- On every buffer that makes `llex` read no numeral the two lexers go through the same tokens over
the same bytes, up to the end of the input or to the same error. -/
theorem lexer_agrees_with_llex (str2d : List UInt8 → Bool) (buffer chunkName : List UInt8)
    (fits : buffer.length ≤ (Lexer.init buffer chunkName).maxLexicalElementSize)
    (numeral : ∀ e ∈ llexRun str2d buffer.length (buffer.length + 1) { rest := buffer },
      e.isNumeral = false) :
    (Lexer.init buffer chunkName).run (buffer.length + 1) =
        llexRun str2d buffer.length (buffer.length + 1) { rest := buffer } ∧
      ∃ e, (llexRun str2d buffer.length (buffer.length + 1) { rest := buffer }).getLast? = some e ∧
        e.isLast = true :=
  ⟨@Lexer.run_agrees (Lexer.init buffer chunkName) _ str2d _ ⟨rfl, rfl, fits⟩ (Nat.zero_le _) rfl
    rfl numeral, Lexer.llexRun_last str2d _ _ _ (Nat.lt_succ_self _)⟩

theorem lexer_agrees_with_llex_sample :
    let buffer := bytes ".\x00[=[\r\n]]]=]~=--[=x\nand'\\999"
    (Lexer.init buffer []).run (buffer.length + 1) =
      [.token TK_CONCAT 0 2, .token TK_STRING 2 12, .token TK_NE 12 14,
       .token FIRST_RESERVED 20 23, .error "escape sequence too large"] := by
  have h := lexer_agrees_with_llex (fun _ => true) (bytes ".\x00[=[\r\n]]]=]~=--[=x\nand'\\999") []
    (by decide) (by decide +kernel)
  refine h.1.trans ?_
  decide +kernel

end Zua.Lex
