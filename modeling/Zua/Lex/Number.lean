import Zua.Lex.Agreement
import Zua.Base.Float64

/-!
# Number tokens

The states of `Lexer.next` that read a numeral, against the run of bytes that `read_numeral` takes and
the numerals that a number may be written as. The byte `x` is let through after any run of digits and
points that starts with a zero, and a byte has to follow it only at the end of the buffer.
-/

namespace Zua.Lex
open Zua.Llex

def isMantissa (c : UInt8) : Bool := isDigit c || c == ch '.'
def isExponent (c : UInt8) : Bool := c == ch 'e' || c == ch 'E'
def isSign (c : UInt8) : Bool := c == ch '-' || c == ch '+'
def isHexMark (c : UInt8) : Bool := c == ch 'x' || c == ch 'X'

def mantissa (bytes : List UInt8) : List UInt8 := bytes.takeWhile isMantissa
def suffix (bytes : List UInt8) : List UInt8 := bytes.dropWhile isMantissa

def points (bytes : List UInt8) : Nat := (mantissa bytes).count (ch '.')

def dropSign : List UInt8 → List UInt8
  | c :: rest => if isSign c then rest else c :: rest
  | [] => []

def takeSign : List UInt8 → List UInt8
  | c :: _ => if isSign c then [c] else []
  | [] => []

def suffixRun : List UInt8 → List UInt8
  | c :: rest =>
      if isExponent c then c :: (takeSign rest ++ (dropSign rest).takeWhile isAlnum_)
      else (c :: rest).takeWhile isAlnum_
  | [] => []

-- the bytes that `read_numeral` saves
def numeralRun (rest : List UInt8) : List UInt8 := mantissa rest ++ suffixRun (suffix rest)

def startsNumeral : List UInt8 → Bool
  | c :: rest => isDigit c || (c == ch '.' && (rest.head?.any isDigit))
  | [] => false

def exponentDigits : List UInt8 → Bool
  | c :: rest => isExponent c && !(dropSign rest).isEmpty && (dropSign rest).all isDigit
  | [] => true

def isDecimal (run : List UInt8) : Bool :=
  decide (points run ≤ 1) && (mantissa run).any isDigit && exponentDigits (suffix run)

def isHexadecimal : List UInt8 → Bool
  | zero :: mark :: digits =>
      zero == ch '0' && isHexMark mark && !digits.isEmpty && digits.all Lexer.isHexDigit
  | _ => false

-- what the state `number_hex` accepts; `more` says that a byte follows the run
def hexLike (run : List UInt8) (more : Bool) : Bool :=
  run.head? == some (ch '0') && decide (points run ≤ 1) &&
    match suffix run with
    | mark :: digits => isHexMark mark && digits.all Lexer.isHexDigit && (!digits.isEmpty || more)
    | [] => false

def slips (run : List UInt8) (more : Bool) : Bool := hexLike run more && !isHexadecimal run

theorem isAlnum_of_isHexDigit {c : UInt8} (h : Lexer.isHexDigit c = true) : isAlnum_ c = true := by
  simp only [Lexer.isHexDigit, isDigit, isAlnum_, isAlpha, Bool.or_eq_true, Bool.and_eq_true,
    decide_eq_true_eq, UInt8.le_iff_toNat_le, ch] at h ⊢
  simp at h ⊢
  omega

theorem isAlnum_iff {c : UInt8} : isAlnum_ c = true ↔ isDigit c = true ∨ isAlpha c = true ∨ c = ch '_' := by
  simp only [isAlnum_, Bool.or_eq_true, beq_iff_eq]
  tauto

-- what may follow the digits and points of a numeral, `zero` when the first of them is a zero
def suffixAccepted (zero : Bool) : List UInt8 → Bool
  | c :: rest =>
      if isHexMark c then
        zero && ((rest.takeWhile isAlnum_).all Lexer.isHexDigit &&
          (!(rest.takeWhile isAlnum_).isEmpty || !rest.isEmpty))
      else if isExponent c then
        !((dropSign rest).takeWhile isAlnum_).isEmpty && ((dropSign rest).takeWhile isAlnum_).all isDigit
      else !isAlnum_ c
  | [] => true

namespace Lexer
variable {c : UInt8}

theorem hexMark_exclusive (mark : isHexMark c = true) : isDigit c = false ∧ (c == ch '.') = false ∧
    isExponent c = false ∧ isAlnum_ c = true := by
  simp only [isHexMark, Bool.or_eq_true, beq_iff_eq] at mark
  rcases mark with rfl | rfl <;> decide

theorem exponent_exclusive (exponent : isExponent c = true) : isDigit c = false ∧ (c == ch '.') = false := by
  simp only [isExponent, Bool.or_eq_true, beq_iff_eq] at exponent
  rcases exponent with rfl | rfl <;> decide

end Lexer

/-! ## Runs -/

section Runs
variable {rest : List UInt8} {c : UInt8}

theorem suffix_head (h : suffix rest = c :: rest') : isMantissa c = false := by
  have := List.head?_dropWhile_not isMantissa rest
  rw [show rest.dropWhile isMantissa = c :: rest' from h] at this
  simpa using this

theorem mantissa_append_suffix (rest : List UInt8) : mantissa rest ++ suffix rest = rest :=
  List.takeWhile_append_dropWhile

theorem mantissa_all (rest : List UInt8) : ∀ c ∈ mantissa rest, isMantissa c = true :=
  List.all_eq_true.mp List.all_takeWhile

theorem suffixRun_head (h : isMantissa c = false) :
    (suffixRun (c :: rest)).head?.all (fun d => !isMantissa d) = true := by
  rw [suffixRun]
  split_ifs
  · simp [h]
  · rw [List.takeWhile_cons]
    split_ifs
    · simp [h]
    · rfl

theorem mantissa_append {front back : List UInt8} (all : ∀ c ∈ front, isMantissa c = true)
    (stop : back.head?.all (fun d => !isMantissa d) = true) :
    mantissa (front ++ back) = front ∧ suffix (front ++ back) = back := by
  have none : back.takeWhile isMantissa = [] ∧ back.dropWhile isMantissa = back := by
    cases back with
    | nil => exact ⟨rfl, rfl⟩
    | cons d back =>
        have other : isMantissa d = false := by simpa using stop
        exact ⟨List.takeWhile_cons_of_neg (by simp [other]), List.dropWhile_cons_of_neg (by simp [other])⟩
  constructor
  · rw [mantissa, List.takeWhile_append_of_pos all, none.1, List.append_nil]
  · rw [suffix, List.dropWhile_append_of_pos all, none.2]

theorem numeralRun_split (rest : List UInt8) :
    mantissa (numeralRun rest) = mantissa rest ∧ suffix (numeralRun rest) = suffixRun (suffix rest) := by
  apply mantissa_append (mantissa_all rest)
  cases h : suffix rest with
  | nil => rfl
  | cons c rest' => exact suffixRun_head (suffix_head h)

theorem points_numeralRun (rest : List UInt8) : points (numeralRun rest) = points rest := by
  rw [points, points, (numeralRun_split rest).1]

theorem takeSign_append (rest : List UInt8) :
    dropSign (takeSign rest ++ (dropSign rest).takeWhile isAlnum_) = (dropSign rest).takeWhile isAlnum_ := by
  cases rest with
  | nil => rfl
  | cons c rest =>
      by_cases sign : isSign c = true
      · simp only [takeSign, dropSign, sign, if_true, List.singleton_append]
      · rw [takeSign, dropSign, if_neg sign, if_neg sign, List.nil_append, List.takeWhile_cons]
        split
        · exact if_neg sign
        · rfl

theorem takeSign_dropSign (rest : List UInt8) : takeSign rest ++ dropSign rest = rest := by
  cases rest with
  | nil => rfl
  | cons c rest =>
      rw [takeSign, dropSign]
      split_ifs <;> rfl

theorem suffixRun_initial (rest : List UInt8) : suffixRun rest <+: rest := by
  cases rest with
  | nil => exact List.prefix_rfl
  | cons c rest =>
      rw [suffixRun]
      split_ifs
      · rw [List.cons_prefix_cons]
        refine ⟨rfl, ?_⟩
        conv_rhs => rw [← takeSign_dropSign rest]
        exact (List.prefix_append_right_inj _).mpr (List.takeWhile_prefix _)
      · exact List.takeWhile_prefix _

theorem numeralRun_initial (rest : List UInt8) : numeralRun rest <+: rest := by
  conv_rhs => rw [← mantissa_append_suffix rest]
  exact (List.prefix_append_right_inj _).mpr (suffixRun_initial _)

theorem mantissa_digit (h : startsNumeral rest = true) : (mantissa rest).any isDigit = true := by
  cases rest with
  | nil => cases h
  | cons c rest =>
      rw [startsNumeral, Bool.or_eq_true, Bool.and_eq_true] at h
      rcases h with digit | ⟨dot, digit⟩
      · have inside : isMantissa c = true := by simp only [isMantissa, digit, Bool.true_or]
        rw [mantissa, List.takeWhile_cons_of_pos inside, List.any_cons, digit, Bool.true_or]
      · have inside : isMantissa c = true := by simp only [isMantissa, dot, Bool.or_true]
        cases rest with
        | nil => cases digit
        | cons d rest =>
            have digit : isDigit d = true := digit
            have inside' : isMantissa d = true := by simp only [isMantissa, digit, Bool.true_or]
            rw [mantissa, List.takeWhile_cons_of_pos inside, List.takeWhile_cons_of_pos inside',
              List.any_cons, List.any_cons, digit, Bool.true_or, Bool.or_true]

theorem numeralRun_head (h : startsNumeral rest = true) : (numeralRun rest).head? = rest.head? := by
  have some := mantissa_digit h
  rw [numeralRun]
  conv_rhs => rw [← mantissa_append_suffix rest]
  cases front : mantissa rest with
  | nil => rw [front] at some; cases some
  | cons c front => rfl

def follows (rest : List UInt8) : Bool := decide ((numeralRun rest).length < rest.length)

theorem follows_eq (rest : List UInt8) :
    follows rest = decide ((suffixRun (suffix rest)).length < (suffix rest).length) := by
  have length := congrArg List.length (mantissa_append_suffix rest)
  rw [List.length_append] at length
  rw [follows, numeralRun, List.length_append, decide_eq_decide]
  omega

theorem accepted_iff (h : startsNumeral rest = true) :
    (decide (points rest ≤ 1) && suffixAccepted (rest.head? == some (ch '0')) (suffix rest)) =
      (isDecimal (numeralRun rest) || hexLike (numeralRun rest) (follows rest)) := by
  rw [isDecimal, hexLike, points_numeralRun, (numeralRun_split rest).1, (numeralRun_split rest).2,
    mantissa_digit h, numeralRun_head h, follows_eq, Bool.and_true]
  cases back : suffix rest with
  | nil => simp [suffixAccepted, suffixRun, exponentDigits]
  | cons c rest' =>
      rw [suffixAccepted, suffixRun]
      by_cases mark : isHexMark c = true
      · obtain ⟨-, -, exponent, alnum⟩ := Lexer.hexMark_exclusive mark
        have more : (!(rest'.takeWhile isAlnum_).isEmpty || !rest'.isEmpty) =
            (!(rest'.takeWhile isAlnum_).isEmpty ||
              decide ((rest'.takeWhile isAlnum_).length + 1 < rest'.length + 1)) := by
          cases run : rest'.takeWhile isAlnum_ with
          | nil => cases rest' <;> simp
          | cons d run => rfl
        simp only [mark, exponent, if_true, Bool.false_eq_true, if_false,
          List.takeWhile_cons_of_pos alnum, exponentDigits, Bool.false_and, Bool.and_false, Bool.false_or,
          Bool.true_and, List.length_cons, more]
        ac_rfl
      · have notMark := Bool.eq_false_of_not_eq_true mark
        by_cases exponent : isExponent c = true
        · simp [mark, exponent, exponentDigits, takeSign_append]
        · by_cases alnum : isAlnum_ c = true
          · simp [mark, exponent, alnum, List.takeWhile_cons_of_pos alnum, exponentDigits]
          · simp [mark, exponent, alnum, List.takeWhile_cons_of_neg alnum, exponentDigits]

end Runs

namespace Lexer

/-! ## The states of a numeral -/

def tokenAt (self : Lexer) (v : Vars) (n : Nat) : Outcome :=
  .token { self with index := self.index + n }
    { v.result with id := .number, stop := self.index + n }

def Malformed (outcome : Outcome) : Prop := ∃ self, outcome = .error self .malformedNumber

-- the outcome of a numeral with `n` bytes left that is accepted or not
def Reads (self : Lexer) (v : Vars) (n : Nat) (accepted : Bool) (outcome : Outcome) : Prop :=
  if accepted then outcome = self.tokenAt v n else Malformed outcome

structure Plain (lexer : Lexer) (v : Vars) : Prop where
  compat : lexer.checkNextBugCompat = false
  fits : lexer.buffer.length ≤ lexer.maxLexicalElementSize
  start : v.result.start ≤ lexer.index
  inside : lexer.index ≤ lexer.buffer.length

variable {self : Lexer} {v w : Vars} {c : UInt8} {rest : List UInt8}

theorem Plain.advance (plain : Plain self v) (h : self.buffer.drop self.index = c :: rest)
    (result : w.result = v.result) : Plain { self with index := self.index + 1 } w where
  compat := plain.compat
  fits := plain.fits
  start := by rw [result]; exact plain.start.trans (Nat.le_succ _)
  inside := lt_of_drop h

theorem Reads.next {n : Nat} {accepted : Bool} {outcome : Outcome} (result : w.result = v.result)
    (h : Reads { self with index := self.index + 1 } w n accepted outcome) :
    Reads self v (n + 1) accepted outcome := by
  unfold Reads tokenAt at *
  rw [result] at h
  simpa only [Nat.add_assoc, Nat.add_comm 1 n] using h

theorem finalize_number : finalize self { v with result := { v.result with id := .number } } =
    self.tokenAt v 0 := by
  simp [finalize, tokenAt]

theorem reads_done (plain : Plain self v) (h : self.buffer.drop self.index = c :: rest)
    (hs : self.step v c = self.finish v .number) : Reads self v 0 true (self.loop v) := by
  rw [loop_done plain.fits plain.start h hs]
  exact finalize_number

theorem reads_malformed {n : Nat} {lexer : Lexer} (plain : Plain self v)
    (h : self.buffer.drop self.index = c :: rest)
    (hs : self.step v c = .fail lexer .malformedNumber) : Reads self v n false (self.loop v) :=
  ⟨lexer, loop_fail plain.fits plain.start h hs⟩

theorem reads_cont {n : Nat} {accepted : Bool} (plain : Plain self v)
    (h : self.buffer.drop self.index = c :: rest) (hs : self.step v c = .cont self w)
    (result : w.result = v.result)
    (ih : Reads { self with index := self.index + 1 } w n accepted
      (loop { self with index := self.index + 1 } w)) : Reads self v (n + 1) accepted (self.loop v) := by
  rw [loop_cont plain.fits plain.start h hs]
  exact ih.next result

theorem reads_end {accepted : Bool} (plain : Plain self v) (h : self.buffer.drop self.index = [])
    (numeral : if accepted then v.state = .numberExponent ∨ v.state = .numberHex ∨ v.state = .number
      else v.state = .numberHexStart ∨ v.state = .numberExponentStart) :
    Reads self v 0 accepted (self.loop v) := by
  have last : self.index = self.buffer.length :=
    Nat.le_antisymm plain.inside (List.drop_eq_nil_iff.mp h)
  rw [loop_end h, atEnd, if_neg (not_not_intro last)]
  cases accepted with
  | true =>
      rcases numeral with state | state | state
      all_goals
        rw [state]
        exact finalize_number
  | false =>
      rcases numeral with state | state
      all_goals
        simp only [state, plain.compat, Bool.false_eq_true, false_and, if_false]
        exact ⟨_, rfl⟩

theorem reads_hex (plain : Plain self v) (state : v.state = .numberHexStart ∨ v.state = .numberHex)
    (h : self.buffer.drop self.index = rest) :
    Reads self v (rest.takeWhile isAlnum_).length
      ((rest.takeWhile isAlnum_).all isHexDigit &&
        (decide (v.state = .numberHex) || !(rest.takeWhile isAlnum_).isEmpty || !rest.isEmpty))
      (self.loop v) := by
  have step : ∀ c, self.step v c = self.stepNumberHex v c := by
    rcases state with state | state <;> simp only [Lexer.step, state, implies_true]
  induction rest generalizing self v with
  | nil =>
      apply reads_end plain h
      rcases state with state | state <;> simp [state]
  | cons c rest ih =>
      by_cases hex : isHexDigit c = true
      · have cont : self.step v c = .cont self { v with state := .numberHex } := by
          rw [step, stepNumberHex, if_pos hex]
        rw [List.takeWhile_cons_of_pos (isAlnum_of_isHexDigit hex)]
        have tail := ih (plain.advance (w := { v with state := .numberHex }) h rfl) (.inr rfl)
          (drop_succ h) fun _ => rfl
        simpa [hex] using reads_cont plain h cont rfl tail
      · by_cases alnum : isAlnum_ c = true
        · rw [List.takeWhile_cons_of_pos alnum]
          have fail : ∃ lexer, self.step v c = .fail lexer .malformedNumber := by
            rw [step, stepNumberHex, if_neg hex]
            rcases isAlnum_iff.mp alnum with digit | alpha | under
            · exact (hex (by simp only [isHexDigit, digit, Bool.true_or])).elim
            · exact ⟨_, if_pos alpha⟩
            · rw [if_pos under, ite_self]
              exact ⟨_, rfl⟩
          obtain ⟨lexer, fail⟩ := fail
          simpa [hex] using reads_malformed plain h fail
        · have done : self.step v c = self.finish v .number := by
            rw [isAlnum_iff, not_or, not_or] at alnum
            rw [step, stepNumberHex, if_neg hex, if_neg alnum.2.1, if_neg alnum.2.2]
          rw [List.takeWhile_cons_of_neg alnum]
          simpa using reads_done plain h done

theorem reads_exponent (plain : Plain self v) (state : v.state = .numberExponent)
    (h : self.buffer.drop self.index = rest) :
    Reads self v (rest.takeWhile isAlnum_).length ((rest.takeWhile isAlnum_).all isDigit)
      (self.loop v) := by
  induction rest generalizing self with
  | nil => exact reads_end plain h (.inl state)
  | cons c rest ih =>
      have step : self.step v c = if isDigit c then .cont self v
          else if isAlpha c ∨ c = ch '_' then self.reportLexError .malformedNumber v.result .number
          else self.finish v .number := by
        simp only [Lexer.step, state, stepNumberExponent, plain.compat, Bool.false_eq_true, false_and,
          if_false]
      by_cases digit : isDigit c = true
      · rw [if_pos digit] at step
        rw [List.takeWhile_cons_of_pos (isAlnum_iff.mpr (.inl digit)), List.all_cons, digit, Bool.true_and]
        exact reads_cont plain h step rfl (ih (plain.advance h rfl) (drop_succ h))
      · rw [if_neg digit] at step
        by_cases alnum : isAlnum_ c = true
        · have alpha := (isAlnum_iff.mp alnum).resolve_left digit
          rw [if_pos alpha] at step
          rw [List.takeWhile_cons_of_pos alnum, List.all_cons, Bool.eq_false_of_not_eq_true digit]
          exact reads_malformed plain h step
        · have other : ¬(isAlpha c = true ∨ c = ch '_') := fun alpha => alnum (isAlnum_iff.mpr (.inr alpha))
          rw [if_neg other] at step
          rw [List.takeWhile_cons_of_neg alnum]
          exact reads_done plain h step

theorem isAlnum_of_isSign (h : isSign c = true) : isAlnum_ c = false ∧ isDigit c = false := by
  simp only [isSign, Bool.or_eq_true, beq_iff_eq] at h
  rcases h with rfl | rfl <;> decide

theorem step_exponentStart (plain : Plain self v) (state : v.state = .numberExponentStart) :
    self.step v c = if isDigit c then .cont self { v with state := .numberExponent }
      else if isSign c then
        if v.numberExponentSignedChar.isSome then
          self.reportLexErrorInc .malformedNumber v.result .number
        else .cont self { v with numberExponentSignedChar := some c }
      else self.reportLexErrorInc .malformedNumber v.result .number := by
  simp only [Lexer.step, state, stepNumberExponentStart, plain.compat, Bool.false_eq_true, false_and,
    if_false, isSign, Bool.or_eq_true, beq_iff_eq]

-- after the sign, or where none stands
theorem reads_exponentDigits (plain : Plain self v) (state : v.state = .numberExponentStart)
    (h : self.buffer.drop self.index = rest)
    (unsigned : v.numberExponentSignedChar.isSome = true ∨ takeSign rest = []) :
    Reads self v (rest.takeWhile isAlnum_).length
      (!(rest.takeWhile isAlnum_).isEmpty && (rest.takeWhile isAlnum_).all isDigit) (self.loop v) := by
  cases rest with
  | nil => exact reads_end plain h (.inr state)
  | cons c rest =>
      have step := step_exponentStart (c := c) plain state
      by_cases digit : isDigit c = true
      · rw [if_pos digit] at step
        rw [List.takeWhile_cons_of_pos (isAlnum_iff.mpr (.inl digit)), List.all_cons, digit, Bool.true_and]
        exact reads_cont plain h step rfl (reads_exponent (plain.advance h rfl) rfl (drop_succ h))
      · have fail : self.step v c = self.reportLexErrorInc .malformedNumber v.result .number := by
          rw [step, if_neg digit]
          split
          · rename_i sign
            rcases unsigned with signed | none
            · rw [if_pos signed]
            · simp [takeSign, sign] at none
          · rfl
        have rejected : (!((c :: rest).takeWhile isAlnum_).isEmpty &&
            ((c :: rest).takeWhile isAlnum_).all isDigit) = false := by
          rw [List.takeWhile_cons]
          split
          · rw [List.all_cons, Bool.eq_false_of_not_eq_true digit, Bool.false_and, Bool.and_false]
          · rfl
        rw [rejected]
        exact reads_malformed plain h fail

theorem reads_exponentStart (plain : Plain self v) (state : v.state = .numberExponentStart)
    (unsigned : v.numberExponentSignedChar = none) (h : self.buffer.drop self.index = rest) :
    Reads self v (takeSign rest ++ (dropSign rest).takeWhile isAlnum_).length
      (!((dropSign rest).takeWhile isAlnum_).isEmpty && ((dropSign rest).takeWhile isAlnum_).all isDigit)
      (self.loop v) := by
  cases rest with
  | nil => exact reads_exponentDigits plain state h (.inr rfl)
  | cons c rest =>
      by_cases sign : isSign c = true
      · have step := step_exponentStart (c := c) plain state
        rw [if_neg (Bool.not_eq_true _ ▸ (isAlnum_of_isSign sign).2), if_pos sign, unsigned] at step
        rw [takeSign, dropSign, if_pos sign, if_pos sign, List.singleton_append, List.length_cons]
        exact reads_cont plain h step rfl
          (reads_exponentDigits (plain.advance h rfl) state (drop_succ h) (.inl rfl))
      · have none : takeSign (c :: rest) = [] := if_neg sign
        rw [none, show dropSign (c :: rest) = c :: rest from if_neg sign, List.nil_append]
        exact reads_exponentDigits plain state h (.inr none)

theorem step_number (plain : Plain self v) (state : v.state = .number) :
    self.step v c = if isDigit c then .cont self v
      else if c == ch '.' then
        if v.numberIsFloat then self.reportLexErrorInc .malformedNumber v.result .number
        else .cont self { v with numberIsFloat := true }
      else if isHexMark c then
        if v.numberStartingChar ≠ ch '0' then
          self.reportLexErrorInc .malformedNumber v.result .number
        else .cont self { v with state := .numberHexStart }
      else if isExponent c then
        .cont self { v with state := .numberExponentStart, numberExponentSignedChar := none }
      else if isAlnum_ c then self.reportLexErrorInc .malformedNumber v.result .number
      else self.finish v .number := by
  simp only [Lexer.step, state, stepNumber, plain.compat, Bool.false_eq_true, false_and, if_false,
    isHexMark, isExponent, Bool.or_eq_true, beq_iff_eq]
  split
  · rfl
  · rename_i digit
    have alnum : (isAlnum_ c = true) ↔ isAlpha c = true ∨ c = ch '_' := by
      rw [isAlnum_iff]
      exact or_iff_right digit
    simp only [alnum, ite_or]

theorem reads_suffix (plain : Plain self v) (state : v.state = .number)
    (stop : rest.head?.all (fun c => !isMantissa c) = true) (h : self.buffer.drop self.index = rest) :
    Reads self v (suffixRun rest).length (suffixAccepted (v.numberStartingChar == ch '0') rest)
      (self.loop v) := by
  cases rest with
  | nil => exact reads_end plain h (.inr (.inr state))
  | cons c rest =>
      have step := step_number (c := c) plain state
      have other : isDigit c = false ∧ (c == ch '.') = false := by
        simpa only [List.head?_cons, Option.all_some, isMantissa, Bool.not_or, Bool.and_eq_true,
          Bool.not_eq_true'] using stop
      simp only [other, Bool.false_eq_true, if_false] at step
      rw [suffixRun, suffixAccepted]
      by_cases mark : isHexMark c = true
      · obtain ⟨-, -, exponent, alnum⟩ := hexMark_exclusive mark
        simp only [mark, exponent, if_true, Bool.false_eq_true, if_false] at step ⊢
        rw [List.takeWhile_cons_of_pos alnum]
        by_cases zero : v.numberStartingChar = ch '0'
        · rw [if_neg (not_not_intro zero)] at step
          have tail := reads_hex (plain.advance (w := { v with state := .numberHexStart }) h rfl) (.inl rfl)
            (drop_succ h)
          rw [zero, beq_self_eq_true, Bool.true_and]
          exact reads_cont plain h step rfl tail
        · rw [if_pos zero] at step
          rw [beq_eq_false_iff_ne.mpr zero, Bool.false_and]
          exact reads_malformed plain h step
      · simp only [mark] at step ⊢
        by_cases exponent : isExponent c = true
        · simp only [exponent, if_true] at step ⊢
          refine reads_cont plain h step rfl ?_
          exact reads_exponentStart (plain.advance h rfl) rfl rfl (drop_succ h)
        · simp only [exponent] at step ⊢
          by_cases alnum : isAlnum_ c = true
          · simp only [alnum, if_true, Bool.not_true] at step ⊢
            exact reads_malformed plain h step
          · simp only [alnum] at step
            rw [List.takeWhile_cons_of_neg alnum, Bool.eq_false_of_not_eq_true alnum]
            exact reads_done plain h step

theorem reads_number (plain : Plain self v) (state : v.state = .number)
    (h : self.buffer.drop self.index = rest) :
    Reads self v (numeralRun rest).length
      (decide (v.numberIsFloat.toNat + points rest ≤ 1) &&
        suffixAccepted (v.numberStartingChar == ch '0') (suffix rest)) (self.loop v) := by
  induction rest generalizing self v with
  | nil =>
      have none : ([] : List UInt8).head?.all (fun c => !isMantissa c) = true := rfl
      have := reads_suffix plain state none h
      have low := v.numberIsFloat.toNat_le
      simpa [points, mantissa, suffix, numeralRun, suffixRun, suffixAccepted, low] using this
  | cons c rest ih =>
      have step := step_number (c := c) plain state
      by_cases digit : isDigit c = true
      · rw [if_pos digit] at step
        have inside : isMantissa c = true := by simp only [isMantissa, digit, Bool.true_or]
        have dot : c ≠ ch '.' := by
          rintro rfl
          revert digit
          decide
        have split : mantissa (c :: rest) = c :: mantissa rest ∧ suffix (c :: rest) = suffix rest :=
          ⟨List.takeWhile_cons_of_pos inside, List.dropWhile_cons_of_pos inside⟩
        have same : points (c :: rest) = points rest := by
          rw [points, split.1, List.count_cons_of_ne dot, points]
        rw [same, numeralRun, split.1, split.2]
        exact reads_cont plain h step rfl (ih (plain.advance h rfl) state (drop_succ h))
      · rw [if_neg digit] at step
        by_cases dot : (c == ch '.') = true
        · rw [if_pos dot] at step
          have inside : isMantissa c = true := by simp only [isMantissa, dot, Bool.or_true]
          have split : mantissa (c :: rest) = c :: mantissa rest ∧ suffix (c :: rest) = suffix rest :=
            ⟨List.takeWhile_cons_of_pos inside, List.dropWhile_cons_of_pos inside⟩
          have more : points (c :: rest) = points rest + 1 := by
            rw [points, split.1, beq_iff_eq.mp dot, List.count_cons_self, points]
          rw [more, numeralRun, split.1, split.2]
          by_cases float : v.numberIsFloat = true
          · rw [if_pos float] at step
            rw [float, decide_eq_false (by simp), Bool.false_and]
            exact reads_malformed plain h step
          · rw [if_neg float] at step
            have tail := ih (plain.advance (w := { v with numberIsFloat := true }) h rfl) state (drop_succ h)
            simp only [Bool.eq_false_of_not_eq_true float, Bool.toNat_false, Bool.toNat_true, Nat.zero_add,
              Nat.add_comm 1] at tail ⊢
            exact reads_cont plain h step rfl tail
        · have outside : isMantissa c = false := by
            simp only [isMantissa, Bool.eq_false_of_not_eq_true digit, Bool.eq_false_of_not_eq_true dot,
              Bool.or_false]
          have split : mantissa (c :: rest) = [] ∧ suffix (c :: rest) = c :: rest :=
            ⟨List.takeWhile_cons_of_neg (by simp [outside]), List.dropWhile_cons_of_neg (by simp [outside])⟩
          have none : points (c :: rest) = 0 := by rw [points, split.1, List.count_nil]
          have low := v.numberIsFloat.toNat_le
          rw [none, numeralRun, split.1, split.2, List.nil_append, decide_eq_true (by omega), Bool.true_and]
          exact reads_suffix plain state (by simp [outside]) h

/-! ## Where a numeral starts -/

theorem digit_exclusive (digit : isDigit c = true) :
    (c ≠ ch '\n' ∧ c ≠ ch '\r') ∧ (c ≠ ch ' ' ∧ c ≠ ch '\t' ∧ c ≠ 0x0b ∧ c ≠ 0x0c) ∧ c ≠ ch '-' ∧
      isAlpha c = false ∧ c ≠ ch '_' := by
  simp only [isDigit, isAlpha, Bool.and_eq_true, decide_eq_true_eq, UInt8.le_iff_toNat_le, ch,
    ← UInt8.toNat_inj, ne_eq, Bool.or_eq_false_iff, Bool.and_eq_false_iff, decide_eq_false_iff_not] at digit ⊢
  simp at digit ⊢
  omega

theorem reads_start (plain : Plain self v) (state : v.state = .start) (float : v.numberIsFloat = false)
    (h : self.buffer.drop self.index = rest) (numeral : startsNumeral rest = true) :
    Reads self v (numeralRun rest).length (isDecimal (numeralRun rest) || hexLike (numeralRun rest) (follows rest))
      (self.loop v) := by
  rw [← accepted_iff numeral]
  cases rest with
  | nil => cases numeral
  | cons c rest =>
      by_cases digit : isDigit c = true
      · have inside : isMantissa c = true := by simp only [isMantissa, digit, Bool.true_or]
        have dot : c ≠ ch '.' := by
          rintro rfl
          revert digit
          decide
        have split : mantissa (c :: rest) = c :: mantissa rest ∧ suffix (c :: rest) = suffix rest :=
          ⟨List.takeWhile_cons_of_pos inside, List.dropWhile_cons_of_pos inside⟩
        have same : points (c :: rest) = points rest := by
          rw [points, split.1, List.count_cons_of_ne dot, points]
        have step : self.step v c = .cont self { v with state := .number, numberStartingChar := c } := by
          obtain ⟨line, blank, dash, alpha, under⟩ := digit_exclusive digit
          rw [step_start state, stepStart]
          simp only [line, blank, dash, alpha, under, digit, plain.compat, or_self, if_false, if_true,
            Bool.false_eq_true]
        rw [same, numeralRun, split.1, split.2]
        have tail := reads_number (plain.advance (w := { v with state := .number, numberStartingChar := c }) h rfl)
          rfl (drop_succ h)
        have none : v.numberIsFloat.toNat = 0 := by rw [float, Bool.toNat_false]
        simp only [none, Nat.zero_add] at tail
        exact reads_cont plain h step rfl tail
      · have point : (c == ch '.' && rest.head?.any isDigit) = true := by
          rw [startsNumeral, Bool.or_eq_true] at numeral
          exact numeral.resolve_left digit
        rw [Bool.and_eq_true, beq_iff_eq] at point
        obtain ⟨rfl, next⟩ := point
        cases rest with
        | nil => cases next
        | cons d rest =>
            have digit' : isDigit d = true := next
            have inside : isMantissa d = true := by simp only [isMantissa, digit', Bool.true_or]
            have dot : d ≠ ch '.' := by
              rintro rfl
              revert digit'
              decide
            have split : mantissa (ch '.' :: d :: rest) = ch '.' :: d :: mantissa rest ∧
                suffix (ch '.' :: d :: rest) = suffix rest := by
              constructor
              · rw [mantissa, List.takeWhile_cons_of_pos (by decide), List.takeWhile_cons_of_pos inside]
                rfl
              · rw [suffix, List.dropWhile_cons_of_pos (by decide), List.dropWhile_cons_of_pos inside]
                rfl
            have one : points (ch '.' :: d :: rest) = 1 + points rest := by
              rw [points, split.1, List.count_cons_self, List.count_cons_of_ne dot, Nat.add_comm, points]
            have first : self.step v (ch '.') = .cont self { v with state := .dot } := by
              rw [step_start state]
              rfl
            have second : step { self with index := self.index + 1 } { v with state := .dot } d =
                .cont { self with index := self.index + 1 } { v with
                  state := .number, numberStartingChar := ch '.', numberIsFloat := true } := by
              simp only [Lexer.step, stepDot, dot, digit', plain.compat, if_false, if_true, Bool.false_eq_true]
            rw [one, numeralRun, split.1, split.2]
            have plain' := plain.advance (w := { v with state := .dot }) h rfl
            have here := drop_succ h
            have tail := reads_number (plain'.advance (w := { v with
              state := .number, numberStartingChar := ch '.', numberIsFloat := true }) here rfl) rfl (drop_succ here)
            simp only [Bool.toNat_true] at tail
            exact reads_cont plain h first rfl (reads_cont plain' here second rfl tail)

-- the passes through the loop that the call of `loop` on the first lexer and variables makes
inductive Visits : Lexer → Vars → Lexer → Vars → Prop
  | here (self : Lexer) (v : Vars) : Visits self v self v
  | step {self self' lexer : Lexer} {v v' w : Vars} {c : UInt8} : self.buffer[self.index]? = some c →
      ¬self.index < v.result.start → ¬self.maxLexicalElementSize ≤ self.index - v.result.start →
      self.step v c = .cont self' v' → Visits { self' with index := self'.index + 1 } v' lexer w →
      Visits self v lexer w

theorem Visits.loop_eq {lexer : Lexer} (visits : Visits self v lexer w) : self.loop v = lexer.loop w := by
  induction visits with
  | here => rfl
  | step here start fits cont _ ih =>
      rw [← ih, loop]
      split
      · rename_i none
        rw [here] at none
        cases none
      · rename_i c' here'
        cases here.symm.trans here'
        rw [if_neg start, if_neg fits]
        split
        · rename_i cont'
          cases cont.symm.trans cont'
          rfl
        · rename_i other
          exact (other _ _ cont).elim

-- what holds of the variables until a token is finished
structure Fresh (lexer : Lexer) (v : Vars) : Prop where
  id : v.result.id ≠ .number
  float : inNumeral v.state = false → v.numberIsFloat = false
  atStart : v.state = .start → v.result.start = lexer.index
  start : v.result.start ≤ lexer.index

-- the same facts about the variables that the next pass starts with
structure Kept (lexer : Lexer) (w : Vars) : Prop where
  id : w.result.id ≠ .number
  float : inNumeral w.state = false → w.numberIsFloat = false
  atStart : w.state = .start → w.result.start = lexer.index + 1
  start : w.result.start ≤ lexer.index + 1

theorem Fresh.step {lexer : Lexer} (fresh : Fresh self v) (cont : self.step v c = .cont lexer w) :
    Fresh { lexer with index := lexer.index + 1 } w := by
  obtain ⟨id, float, atStart, start⟩ := fresh
  have line (u : Vars) (hu : self.incrementLineNumber u = .cont lexer w) (kept : Kept self u) :
      Fresh { lexer with index := lexer.index + 1 } w := by
    obtain ⟨n, last, rfl, rfl⟩ := incrementLineNumber_cont hu
    exact ⟨kept.id, kept.float, kept.atStart, kept.start⟩
  have same (u : Vars) (hu : Flow.cont self u = .cont lexer w) (kept : Kept self u) :
      Fresh { lexer with index := lexer.index + 1 } w := by
    cases hu
    exact ⟨kept.id, kept.float, kept.atStart, kept.start⟩
  have later : v.result.start ≤ self.index + 1 := start.trans (Nat.le_succ _)
  cases hs : v.state <;> simp only [Lexer.step, hs] at cont <;>
    simp only [hs, inNumeral, forall_const, reduceCtorEq, false_implies] at float atStart
  all_goals simp only [stepStart, stepIdentifier, stepStringLiteral, stepStringLiteralBackslash,
    stepStringLiteralBackslashLineEndings, stepDash, stepCommentStart, stepLongStart, stepLong,
    stepLongPossibleEnd, stepShortComment, stepDot, stepConcat, stepNumber, stepNumberHex,
    stepNumberExponentStart, stepNumberExponent, stepCompoundEqual, maybeIncrementLineNumber, backtrack,
    finish, finishInc, reportLexError, reportLexErrorInc] at cont
  all_goals repeat' split at cont
  all_goals first
    | contradiction
    | exact line _ cont ⟨id, fun _ => float, by simp [restart, hs], by first | exact later | exact le_rfl⟩
    | exact same _ cont ⟨by first | exact id | simp, by first | exact fun _ => float | simp [inNumeral, hs],
        by simp [restart, hs], by first | exact later | exact le_rfl⟩
    | cases cont
      exact ⟨id, fun _ => float, by simp, by simp only; omega⟩

theorem Visits.fresh {lexer : Lexer} (visits : Visits self v lexer w) (fresh : Fresh self v) : Fresh lexer w := by
  induction visits with
  | here => exact fresh
  | step _ _ _ cont _ ih => exact ih (fresh.step cont)

theorem Visits.settings {lexer : Lexer} (visits : Visits self v lexer w) :
    ∃ index lineNumber, lexer = { self with index, lineNumber } := by
  induction visits with
  | here self v => exact ⟨self.index, self.lineNumber, rfl⟩
  | step _ _ _ cont _ ih =>
      obtain ⟨index, lineNumber, rfl, -⟩ := step_cont cont
      obtain ⟨index', lineNumber', rfl⟩ := ih
      exact ⟨index', lineNumber', rfl⟩

theorem step_digit {lexer : Lexer} (outside : inNumeral v.state = false)
    (cont : self.step v c = .cont lexer w) (inside : inNumeral w.state = true) :
    isDigit c = true ∧ (v.state = .start ∨ v.state = .dot) := by
  have line (u : Vars) (hu : self.incrementLineNumber u = .cont lexer w) (same : inNumeral u.state = false) :
      False := by
    obtain ⟨n, last, -, rfl⟩ := incrementLineNumber_cont hu
    simp [same] at inside
  have same (self' : Lexer) (u : Vars) (hu : Flow.cont self' u = .cont lexer w)
      (same : inNumeral u.state = false) : False := by
    cases hu
    simp [same] at inside
  cases hs : v.state <;> simp only [hs, inNumeral, Bool.true_eq_false] at outside <;>
    simp only [Lexer.step, hs] at cont
  all_goals simp only [stepStart, stepIdentifier, stepStringLiteral, stepStringLiteralBackslash,
    stepStringLiteralBackslashLineEndings, stepDash, stepCommentStart, stepLongStart, stepLong,
    stepLongPossibleEnd, stepShortComment, stepDot, stepConcat, stepCompoundEqual, maybeIncrementLineNumber,
    backtrack, finish, finishInc, reportLexError, reportLexErrorInc] at cont
  all_goals repeat' split at cont
  all_goals first
    | contradiction
    | refine (line _ cont ?_).elim
      simp [restart, hs, inNumeral]
    | refine (same _ _ cont ?_).elim
      simp [restart, hs, inNumeral]
      done
    | exact ⟨‹isDigit c = true›, by simp⟩

theorem step_toDot {lexer : Lexer} (cont : self.step v c = .cont lexer w) (dot : w.state = .dot) :
    c = ch '.' ∧ v.state = .start ∧ lexer = self := by
  have line (u : Vars) (hu : self.incrementLineNumber u = .cont lexer w) (other : u.state ≠ .dot) : False := by
    obtain ⟨n, last, -, rfl⟩ := incrementLineNumber_cont hu
    exact other dot
  have same (self' : Lexer) (u : Vars) (hu : Flow.cont self' u = .cont lexer w) (other : u.state ≠ .dot) :
      False := by
    cases hu
    exact other dot
  cases hs : v.state <;> simp only [Lexer.step, hs] at cont
  all_goals simp only [stepStart, stepIdentifier, stepStringLiteral, stepStringLiteralBackslash,
    stepStringLiteralBackslashLineEndings, stepDash, stepCommentStart, stepLongStart, stepLong,
    stepLongPossibleEnd, stepShortComment, stepDot, stepConcat, stepNumber, stepNumberHex,
    stepNumberExponentStart, stepNumberExponent, stepCompoundEqual, maybeIncrementLineNumber, backtrack,
    finish, finishInc, reportLexError, reportLexErrorInc] at cont
  all_goals repeat' split at cont
  all_goals first
    | contradiction
    | refine (line _ cont ?_).elim
      simp [restart, hs]
    | refine (same _ _ cont ?_).elim
      simp [restart, hs]
      done
    | cases cont
      exact ⟨‹_›, rfl, rfl⟩

theorem idFromName_ne_number (name : List UInt8) : Token.idFromName name ≠ some .number := by
  rw [idFromName_eq]
  intro found
  have member := List.mem_of_getElem? found
  revert member
  decide

theorem identifierId_ne_number (id : v.result.id ≠ .number) : self.identifierId v ≠ .number := by
  rw [identifierId]
  cases h : Token.idFromName ((self.buffer.take self.index).drop v.result.start) with
  | none => exact id
  | some keyword =>
      intro number
      rw [Option.getD_some] at number
      exact idFromName_ne_number _ (number ▸ h)

theorem finalize_id {lexer : Lexer} {token : Token} (h : self.finalize v = .token lexer token) :
    token.id = v.result.id := by
  unfold finalize at h
  split at h
  · split at h
    · cases h
      rfl
    · cases h
  · cases h
    rfl

theorem step_done_id {lexer : Lexer} (outside : inNumeral v.state = false) (id : v.result.id ≠ .number)
    (done : self.step v c = .done lexer w) : w.result.id ≠ .number := by
  have name : self.identifierId v ≠ .number := identifierId_ne_number id
  cases hs : v.state <;> simp only [hs, inNumeral, Bool.true_eq_false] at outside <;>
    simp only [Lexer.step, hs] at done
  all_goals simp only [stepStart, stepIdentifier, stepStringLiteral, stepStringLiteralBackslash,
    stepStringLiteralBackslashLineEndings, stepDash, stepCommentStart, stepLongStart, stepLong,
    stepLongPossibleEnd, stepShortComment, stepDot, stepConcat, stepCompoundEqual, maybeIncrementLineNumber,
    backtrack, finish, finishInc, reportLexError, reportLexErrorInc] at done
  all_goals repeat' split at done
  all_goals first
    | contradiction
    | exact (incrementLineNumber_done done).elim
    | cases done
      first
        | exact id
        | exact name
        | simp

theorem atEnd_id {lexer : Lexer} {token : Token} (outside : inNumeral v.state = false)
    (id : v.result.id ≠ .number) (h : (self.atEnd v).outcome = .token lexer token) : token.id ≠ .number := by
  have name : self.identifierId v ≠ .number := identifierId_ne_number id
  unfold atEnd at h
  split at h
  · cases h
  · cases hs : v.state <;> simp only [hs, inNumeral, Bool.true_eq_false] at outside <;> simp only [hs] at h
    all_goals repeat' split at h
    all_goals first
      | cases h
        done
      | rw [finalize_id h]
        first
          | exact id
          | exact name
          | simp

theorem loop_visits {lexer : Lexer} {token : Token} (fresh : Fresh self v) (outside : inNumeral v.state = false)
    (h : self.loop v = .token lexer token) (number : token.id = .number) :
    (v.state = .dot ∧ (self.buffer.drop self.index).head?.any isDigit = true) ∨
      ∃ lexer w, Visits self v lexer w ∧ w.state = .start ∧
        startsNumeral (lexer.buffer.drop lexer.index) = true := by
  fun_induction loop self v with
  | case1 self v here => exact (atEnd_id outside fresh.id h number).elim
  | case2 self v c here before => cases h
  | case3 self v c here before long => cases h
  | case4 self v c here before long self' v' cont ih =>
      have head : (self.buffer.drop self.index).head? = some c := by rw [List.head?_drop, here]
      by_cases inside : inNumeral v'.state = true
      · obtain ⟨digit, start | dot⟩ := step_digit outside cont inside
        · refine .inr ⟨self, v, .here self v, start, ?_⟩
          cases hr : self.buffer.drop self.index with
          | nil => rw [hr] at head; cases head
          | cons d rest =>
              rw [hr] at head
              cases head
              rw [startsNumeral, digit, Bool.true_or]
        · exact .inl ⟨dot, by rw [head]; exact digit⟩
      · rcases ih (fresh.step cont) (Bool.eq_false_of_not_eq_true inside) h with ⟨dot, digit⟩ | ⟨l, w, visits, found⟩
        · obtain ⟨rfl, start, rfl⟩ := step_toDot cont dot
          refine .inr ⟨self', v, .here self' v, start, ?_⟩
          cases hr : self'.buffer.drop self'.index with
          | nil => rw [hr] at head; cases head
          | cons d rest =>
              rw [hr] at head
              cases head
              rw [drop_succ hr] at digit
              rw [startsNumeral, digit, Bool.and_true, beq_self_eq_true, Bool.or_true]
        · exact .inr ⟨l, w, .step here before long cont visits, found⟩
  | case5 self v c here before long notCont =>
      cases hs : self.step v c with
      | cont l w => exact (notCont _ _ hs).elim
      | fail l err => rw [hs] at h; cases h
      | trap => rw [hs] at h; cases h
      | done l w =>
          rw [hs] at h
          exact (step_done_id outside fresh.id hs ((finalize_id h).symm.trans number)).elim

end Lexer

/-! ## The value of a number token -/

inductive ParseIntError
  | invalidCharacter
  | overflow
  deriving DecidableEq, Repr

def charToDigit (c : UInt8) : Option Nat :=
  if isDigit c then some (c - ch '0').toNat
  else if ch 'a' ≤ c && c ≤ ch 'f' then some ((c - ch 'a').toNat + 10)
  else if ch 'A' ≤ c && c ≤ ch 'F' then some ((c - ch 'A').toNat + 10)
  else none

-- `std.fmt.parseUnsigned(u64, buf, 16)`, where an underscore between two digits is skipped
def accumulate (acc : Nat) (c : UInt8) : Except ParseIntError Nat :=
  match charToDigit c with
  | some digit => if 16 * acc + digit < 2 ^ 64 then .ok (16 * acc + digit) else .error .overflow
  | none => .error .invalidCharacter

def parseUnsigned (buf : List UInt8) : Except ParseIntError Nat :=
  if buf.isEmpty || buf.head? == some (ch '_') || buf.getLast? == some (ch '_') then
    .error .invalidCharacter
  else (buf.filter (· != ch '_')).foldlM accumulate 0

inductive NumberFault
  | unreachable
  | outOfBounds
  deriving DecidableEq, Repr

def parseNumber (parseFloat : List UInt8 → Option F64) (source : List UInt8) : Except NumberFault F64 :=
  match parseFloat source with
  | some number => .ok number
  | none =>
      match source with
      | zero :: mark :: digits =>
          if zero = ch '0' ∧ (mark = ch 'x' ∨ mark = ch 'X') then
            match parseUnsigned digits with
            | .ok number => .ok (F64.floatFromInt number)
            | .error .invalidCharacter => .error .unreachable
            | .error .overflow => .ok F64.inf
          else .ok F64.nan
      | [zero] => if zero = ch '0' then .error .outOfBounds else .ok F64.nan
      | [] => .error .outOfBounds

-- what is relied on of `std.fmt.parseFloat`, which reads `nan` only where the text says so
structure ParseFloat (parseFloat : List UInt8 → Option F64) : Prop where
  decimal : ∀ source, isDecimal source = true → (parseFloat source).isSome = true
  number : ∀ source n, source.head?.any isMantissa = true → parseFloat source = some n → n.isNan = false

def Small (result : Except ParseIntError Nat) : Prop :=
  match result with
  | .ok n => n < 2 ^ 64
  | .error err => err = .overflow

theorem accumulate_small {acc : Nat} {c : UInt8} (hex : Lexer.isHexDigit c = true) : Small (accumulate acc c) := by
  have some : ∃ digit, charToDigit c = some digit := by
    simp only [Lexer.isHexDigit, Bool.or_eq_true] at hex
    unfold charToDigit
    split_ifs with digit lower upper
    · exact ⟨_, rfl⟩
    · exact ⟨_, rfl⟩
    · exact ⟨_, rfl⟩
    · exact (hex.elim (·.elim digit lower) upper).elim
  obtain ⟨digit, hd⟩ := some
  rw [accumulate, hd]
  simp only
  split_ifs with small
  · exact small
  · rfl

theorem foldlM_small {digits : List UInt8} (hex : ∀ c ∈ digits, Lexer.isHexDigit c = true) {acc : Nat}
    (small : acc < 2 ^ 64) : Small (digits.foldlM accumulate acc) := by
  induction digits generalizing acc with
  | nil => exact small
  | cons c digits ih =>
      have first : Small (accumulate acc c) := accumulate_small (hex c List.mem_cons_self)
      rw [List.foldlM_cons]
      cases h : accumulate acc c with
      | error err => rw [h] at first; exact first
      | ok n =>
          rw [h] at first
          exact ih (fun d member => hex d (List.mem_cons_of_mem c member)) first

theorem parseUnsigned_small {digits : List UInt8} (some : digits.isEmpty = false)
    (hex : digits.all Lexer.isHexDigit = true) : Small (parseUnsigned digits) := by
  rw [List.all_eq_true] at hex
  have plain : ∀ c ∈ digits, c ≠ ch '_' := by
    rintro c member rfl
    exact absurd (hex _ member) (by decide)
  have first : (digits.head? == Option.some (ch '_')) = false := by
    rw [beq_eq_false_iff_ne]
    exact fun h => plain _ (List.mem_of_mem_head? h) rfl
  have last : (digits.getLast? == Option.some (ch '_')) = false := by
    rw [beq_eq_false_iff_ne]
    exact fun h => plain _ (List.mem_of_getLast? h) rfl
  rw [parseUnsigned, some, first, last, if_neg (by decide)]
  exact foldlM_small (fun c member => hex c (List.mem_of_mem_filter member)) (by decide)

theorem parseNumber_number {parseFloat : List UInt8 → Option F64} (std : ParseFloat parseFloat)
    {text : List UInt8} (form : isDecimal text = true ∨ isHexadecimal text = true) :
    ∃ n, parseNumber parseFloat text = .ok n ∧ n.isNan = false := by
  have head : text.head?.any isMantissa = true := by
    rcases form with decimal | hex
    · rw [isDecimal, Bool.and_eq_true, Bool.and_eq_true] at decimal
      cases text with
      | nil => exact absurd decimal.1.2 (by decide)
      | cons c text =>
          by_contra outside
          have none : mantissa (c :: text) = [] := List.takeWhile_cons_of_neg outside
          rw [none] at decimal
          exact absurd decimal.1.2 (by decide)
    · match text with
      | zero :: mark :: digits =>
          simp only [isHexadecimal, Bool.and_eq_true, beq_iff_eq] at hex
          rw [List.head?_cons, hex.1.1.1]
          decide
  unfold parseNumber
  cases parsed : parseFloat text with
  | some n => exact ⟨n, rfl, std.number text n head parsed⟩
  | none =>
      rcases form with decimal | hex
      · have accepted := std.decimal text decimal
        rw [parsed] at accepted
        cases accepted
      · match text with
        | zero :: mark :: digits =>
            simp only [isHexadecimal, isHexMark, Bool.and_eq_true, Bool.or_eq_true, beq_iff_eq,
              Bool.not_eq_true'] at hex
            have small := parseUnsigned_small hex.1.2 hex.2
            simp only [if_pos hex.1.1]
            cases value : parseUnsigned digits with
            | ok n =>
                rw [value] at small
                exact ⟨_, rfl, F64.floatFromInt_finite small⟩
            | error err =>
                rw [value] at small
                obtain rfl : err = .overflow := small
                exact ⟨_, rfl, rfl⟩

namespace Lexer

/-! ## The numerals of a call -/

-- a call of `next` comes to a token that starts as a numeral, with `rest` before it
def NumeralAt (self : Lexer) (rest : List UInt8) : Prop :=
  ∃ lexer w, Visits self self.entry lexer w ∧ w.state = .start ∧
    lexer.buffer.drop lexer.index = rest ∧ startsNumeral rest = true

structure NumbersWellFormed (parseFloat : List UInt8 → Option F64) (lexer : Lexer) : Prop where
  token : ∀ lexer' token, lexer.next = .token lexer' token → token.id = .number →
    (isDecimal (token.slice lexer.buffer) = true ∨ isHexadecimal (token.slice lexer.buffer) = true) ∧
      token.slice lexer.buffer = numeralRun (lexer.buffer.drop token.start)
  malformed : ∀ rest, NumeralAt lexer rest →
    ¬(isDecimal (numeralRun rest) = true ∨ isHexadecimal (numeralRun rest) = true) →
    ∃ lexer', lexer.next = .error lexer' .malformedNumber
  value : ∀ lexer' token, lexer.next = .token lexer' token → token.id = .number →
    ∃ n, parseNumber parseFloat (token.slice lexer.buffer) = .ok n ∧ n.isNan = false

theorem fresh_entry (self : Lexer) : Fresh self self.entry :=
  ⟨by simp [entry], fun _ => rfl, fun _ => rfl, le_rfl⟩

theorem hexLike_not_decimal {run : List UInt8} {more : Bool} (h : hexLike run more = true) :
    isDecimal run = false := by
  rw [hexLike] at h
  rw [isDecimal]
  cases back : suffix run with
  | nil => simp [back] at h
  | cons c digits =>
      simp only [back, Bool.and_eq_true] at h
      rw [exponentDigits, (hexMark_exclusive h.2.1.1).2.2.1]
      simp only [Bool.false_and, Bool.and_false]

theorem next_numeral (compat : self.checkNextBugCompat = false)
    (fits : self.buffer.length ≤ self.maxLexicalElementSize) (numeral : NumeralAt self rest) :
    ∃ start, self.buffer.drop start = rest ∧
      if isDecimal (numeralRun rest) || hexLike (numeralRun rest) (follows rest) then
        ∃ lexer token, self.next = .token lexer token ∧ token.id = .number ∧ token.start = start ∧
          token.slice self.buffer = numeralRun rest
      else ∃ lexer, self.next = .error lexer .malformedNumber := by
  obtain ⟨lexer, w, visits, state, here, starts⟩ := numeral
  have fresh := visits.fresh self.fresh_entry
  have same := visits.loop_eq
  obtain ⟨index, lineNumber, rfl⟩ := visits.settings
  have inside : index ≤ self.buffer.length := by
    by_contra outside
    rw [List.drop_eq_nil_of_le (Nat.le_of_not_le outside)] at here
    rw [← here] at starts
    cases starts
  have plain : Plain { self with index, lineNumber } w := ⟨compat, fits, fresh.start, inside⟩
  have reads := reads_start plain state (fresh.float (by rw [state]; rfl)) here starts
  refine ⟨index, here, ?_⟩
  unfold Reads at reads
  rw [show self.next = _ from same]
  split_ifs at reads ⊢
  · refine ⟨_, _, reads, rfl, fresh.atStart state, ?_⟩
    have first : w.result.start = index := fresh.atStart state
    rw [Token.slice, first, List.drop_take, Nat.add_sub_cancel_left, here]
    exact (List.prefix_iff_eq_take.mp (numeralRun_initial rest)).symm
  · exact reads

theorem numeral_of_token {lexer : Lexer} {token : Token} (h : self.next = .token lexer token)
    (number : token.id = .number) : ∃ rest, NumeralAt self rest := by
  rcases loop_visits self.fresh_entry rfl h number with ⟨dot, -⟩ | ⟨l, w, visits, state, starts⟩
  · cases dot
  · exact ⟨_, l, w, visits, state, rfl, starts⟩

theorem numbers_wellFormed_iff {parseFloat : List UInt8 → Option F64} (std : ParseFloat parseFloat)
    {self : Lexer} (compat : self.checkNextBugCompat = false)
    (fits : self.buffer.length ≤ self.maxLexicalElementSize) :
    NumbersWellFormed parseFloat self ↔
      ∀ rest, NumeralAt self rest → slips (numeralRun rest) (follows rest) = false := by
  constructor
  · intro formed rest numeral
    obtain ⟨start, here, outcome⟩ := next_numeral compat fits numeral
    by_contra slipped
    rw [Bool.not_eq_false, slips, Bool.and_eq_true, Bool.not_eq_true'] at slipped
    rw [slipped.1, Bool.or_true, if_pos rfl] at outcome
    obtain ⟨lexer, token, called, number, -, text⟩ := outcome
    have form := (formed.token lexer token called number).1
    rw [text, hexLike_not_decimal slipped.1, slipped.2] at form
    exact form.elim Bool.false_ne_true Bool.false_ne_true
  · intro clean
    have accepted {rest : List UInt8} (numeral : NumeralAt self rest)
        (accept : (isDecimal (numeralRun rest) || hexLike (numeralRun rest) (follows rest)) = true) :
        isDecimal (numeralRun rest) = true ∨ isHexadecimal (numeralRun rest) = true := by
      rw [Bool.or_eq_true] at accept
      refine accept.imp_right fun hex => ?_
      have honest := clean rest numeral
      rwa [slips, hex, Bool.true_and, Bool.not_eq_false'] at honest
    have form : ∀ lexer' token, self.next = .token lexer' token → token.id = .number →
        (isDecimal (token.slice self.buffer) = true ∨ isHexadecimal (token.slice self.buffer) = true) ∧
          token.slice self.buffer = numeralRun (self.buffer.drop token.start) := by
      intro lexer' token called number
      obtain ⟨rest, numeral⟩ := numeral_of_token called number
      obtain ⟨start, here, outcome⟩ := next_numeral compat fits numeral
      split_ifs at outcome with accept
      · obtain ⟨_, _, called', -, first, text⟩ := outcome
        cases called.symm.trans called'
        rw [text, first, here]
        exact ⟨accepted numeral accept, rfl⟩
      · obtain ⟨_, failed⟩ := outcome
        cases called.symm.trans failed
    refine ⟨form, ?_, fun lexer' token called number => parseNumber_number std (form _ _ called number).1⟩
    intro rest numeral bad
    obtain ⟨start, here, outcome⟩ := next_numeral compat fits numeral
    split_ifs at outcome with accept
    · exact (bad (accepted numeral accept)).elim
    · exact outcome

def strict (buffer : List UInt8) : Lexer := { Lexer.init buffer [] with checkNextBugCompat := false }

def parseOne (source : List UInt8) : Option F64 := if isDecimal source then some F64.one else none

theorem parseOne_accepts : ParseFloat parseOne where
  decimal source h := by rw [parseOne, if_pos h]; rfl
  number source n _ h := by
    unfold parseOne at h
    split_ifs at h
    cases h
    rfl

theorem numbers_wellFormed_one :
    NumbersWellFormed parseOne (strict (bytes "1")) := by
  refine (numbers_wellFormed_iff parseOne_accepts rfl (by decide)).mpr ?_
  rintro rest ⟨lexer, w, visits, state, rfl, -⟩
  cases visits with
  | here => decide
  | step here _ _ cont visits =>
      cases here
      cases cont
      cases visits with
      | here => cases state
      | step here => cases here

-- the byte after `0x` is looked for only at the end of the buffer
theorem hexMark_accepted : ¬NumbersWellFormed parseOne (strict (bytes "0x ")) := by
  intro formed
  have numeral : NumeralAt (strict (bytes "0x ")) (bytes "0x ") :=
    ⟨_, _, .here _ _, rfl, rfl, by decide⟩
  obtain ⟨start, -, lexer, token, called, number, -, text⟩ := next_numeral rfl (by decide) numeral
  have form := (formed.token lexer token called number).1
  rw [text] at form
  exact absurd form (by decide)

end Lexer

end Zua.Lex
