import Zua.Lex.Agreement

/-!
# Decoding string tokens

`parseString` of `parse_literal.zig`. A failed safety check is a `Panic`; the destination buffer only
matters through its length.
-/

namespace Zua.Lex
open Zua.Llex Zua.Llex.LexState

inductive Panic
  | assertion
  | outOfBounds
  | overflow
  | unreachable
  deriving DecidableEq, Repr

namespace ParseString

inductive State
  | normal
  | escaped
  | escapedNumerals
  | escapedLineEndings
  deriving DecidableEq, Repr

structure Vars where
  written : List UInt8 := []
  stringEscapeN : UInt8 := 0
  stringEscapeI : Nat := 0
  state : State := .normal
  deriving DecidableEq, Repr

def write (dest : Nat) (v : Vars) (c : UInt8) : Except Panic Vars :=
  if v.written.length < dest then .ok { v with written := v.written ++ [c] }
  else .error .outOfBounds

def writeTo (dest : Nat) (v : Vars) (c : UInt8) (state : State) : Except Panic Vars :=
  (write dest v c).map fun v => { v with state }

def addDigit (n c : UInt8) : Except Panic UInt8 :=
  if 10 * n.toNat + (c - ch '0').toNat < 256 then .ok (10 * n + (c - ch '0')) else .error .overflow

def step (dest : Nat) (v : Vars) (c : UInt8) : Except Panic (Vars × Bool) :=
  match v.state with
  | .normal =>
      if c = ch '\r' then (write dest v (ch '\n')).map (·, true)
      else if c = ch '\\' then .ok ({ v with state := .escaped }, true)
      else (write dest v c).map (·, true)
  | .escaped =>
      if isDigit c then
        .ok ({ v with stringEscapeN := c - ch '0', stringEscapeI := 1, state := .escapedNumerals }, true)
      else if c = ch '\r' ∨ c = ch '\n' then
        (writeTo dest v (ch '\n') .escapedLineEndings).map (·, true)
      else (writeTo dest v ((namedEscape c).getD c) .normal).map (·, true)
  | .escapedNumerals =>
      if isDigit c then
        match addDigit v.stringEscapeN c with
        | .error panic => .error panic
        | .ok n =>
            let v := { v with stringEscapeN := n, stringEscapeI := v.stringEscapeI + 1 }
            if v.stringEscapeI = 3 then (writeTo dest v n .normal).map (·, true) else .ok (v, true)
      else (writeTo dest v v.stringEscapeN .normal).map (·, false)
  | .escapedLineEndings =>
      if c = ch '\r' ∨ c = ch '\n' then .ok ({ v with state := .normal }, true)
      else .ok ({ v with state := .normal }, false)

theorem step_keep {dest : Nat} {v v' : Vars} {c : UInt8} (h : step dest v c = .ok (v', false)) :
    v.state ≠ .normal ∧ v'.state = .normal := by
  cases hs : v.state <;> simp only [step, hs] at h
  all_goals
    repeat' split at h
  all_goals simp_all [writeTo, write, Except.map]
  all_goals grind

set_option linter.unusedVariables false in
def loop (dest : Nat) (v : Vars) (source : List UInt8) : Except Panic (List UInt8) :=
  match source with
  | [] =>
      match v.state with
      | .escapedNumerals => (write dest v v.stringEscapeN).map Vars.written
      | .normal | .escapedLineEndings => .ok v.written
      | .escaped => .error .unreachable
  | c :: rest =>
      match hs : step dest v c with
      | .error panic => .error panic
      | .ok (v', true) => loop dest v' rest
      | .ok (v', false) => loop dest v' (c :: rest)
termination_by 2 * source.length + (if v.state = .normal then 0 else 1)
decreasing_by
  · simp only [List.length_cons]
    split <;> split <;> omega
  · obtain ⟨before, after⟩ := step_keep hs
    simp [before, after]

def countSep : List UInt8 → Nat
  | [] => 0
  | c :: rest => if c = ch '=' then countSep rest + 1 else 0

end ParseString

open ParseString

def delimiter (source : List UInt8) : Except Panic (Nat × Bool) :=
  match source with
  | [] => .error .outOfBounds
  | c :: rest =>
      if c = ch '\'' ∨ c = ch '"' then .ok (1, false)
      else if c = ch '[' then
        let numSep := countSep rest
        match source[1 + numSep]? with
        | none => .error .outOfBounds
        | some d =>
            if d ≠ ch '[' then .error .assertion
            else match source[2 + numSep]? with
              | none => .error .outOfBounds
              | some e => .ok (2 + numSep, e == ch '\r' || e == ch '\n')
      else .error .unreachable

def parseString (sourceRaw : List UInt8) (dest : Nat) : Except Panic (List UInt8) :=
  if dest < sourceRaw.length then .error .assertion
  else match delimiter sourceRaw with
    | .error panic => .error panic
    | .ok (delimLen, skipFirstChar) =>
        if sourceRaw.length < 2 * delimLen then .error .outOfBounds
        else
          let source := (sourceRaw.take (sourceRaw.length - delimLen)).drop delimLen
          if skipFirstChar then
            if source = [] then .error .outOfBounds else ParseString.loop dest {} source.tail
          else ParseString.loop dest {} source

namespace ParseString

/-! ## Quoted strings -/

variable {dest : Nat} {v v' : Vars} {c : UInt8} {rest : List UInt8} {ls ls' : LexState} {del : UInt8}

theorem loop_next (h : step dest v c = .ok (v', true)) :
    loop dest v (c :: rest) = loop dest v' rest := by
  rw [loop]
  split <;> simp_all

theorem loop_keep (h : step dest v c = .ok (v', false)) :
    loop dest v (c :: rest) = loop dest v' (c :: rest) := by
  rw [loop]
  split <;> simp_all

theorem write_ok (room : v.written.length < dest) :
    write dest v c = .ok { v with written := v.written ++ [c] } := if_pos room

theorem loop_normal_byte (normal : v.state = .normal) (room : v.written.length < dest)
    (escape : c ≠ ch '\\') :
    loop dest v (c :: rest) = loop dest
      { v with written := v.written ++ [if c = ch '\r' then ch '\n' else c] } rest := by
  refine loop_next ?_
  simp only [step, normal, escape, write_ok room]
  split <;> rfl

theorem loop_escape (normal : v.state = .normal) :
    loop dest v (ch '\\' :: rest) = loop dest { v with state := .escaped } rest := by
  refine loop_next ?_
  simp only [step, normal]
  rfl

theorem readEscape_ge (left : Nat) (ls : LexState) (n : Nat) : n ≤ (readEscape left ls n).1 := by
  induction left generalizing ls n with
  | zero => exact le_rfl
  | succ left ih =>
      rw [readEscape]
      split
      · exact le_trans (by omega) (ih ls.next _)
      · simp only
        omega

theorem loop_numerals_end (numerals : v.state = .escapedNumerals) (room : v.written.length < dest)
    (stop : rest.head?.any isDigit = false) :
    loop dest v rest =
      loop dest { v with written := v.written ++ [v.stringEscapeN], state := .normal } rest := by
  cases rest with
  | nil => simp only [loop, numerals, write_ok room, Except.map]
  | cons c rest =>
      have nondigit : ¬isDigit c = true := by simpa using stop
      refine loop_keep ?_
      simp only [step, numerals, nondigit, writeTo, write_ok room, Except.map]
      rfl

def moreDigits (left : Nat) (ls : LexState) (n : Nat) : Nat × LexState :=
  if left ≠ 0 ∧ ls.current.any isDigit then readEscape left ls n else (n, ls)

theorem readEscape_succ (left : Nat) (hr : ls.rest = c :: rest) (n : Nat) :
    readEscape (left + 1) ls n = moreDigits left ls.next (10 * n + (c - ch '0').toNat) := by
  simp only [readEscape, moreDigits, current_of_rest hr, Option.getD_some]

theorem moreDigits_ge (left : Nat) (ls : LexState) (n : Nat) : n ≤ (moreDigits left ls n).1 := by
  unfold moreDigits
  split
  · exact readEscape_ge left ls n
  · exact le_rfl

theorem buff_readEscape (left : Nat) (ls : LexState) (n : Nat) :
    (readEscape left ls n).2.buff = ls.buff := by
  induction left generalizing ls n with
  | zero => rfl
  | succ left ih =>
      rw [readEscape]
      split
      · exact ih ls.next _
      · rfl

theorem buff_moreDigits (left : Nat) (ls : LexState) (n : Nat) :
    (moreDigits left ls n).2.buff = ls.buff := by
  unfold moreDigits
  split
  · exact buff_readEscape left ls n
  · rfl

theorem addDigit_ok {n : UInt8} (small : 10 * n.toNat + (c - ch '0').toNat ≤ 255) :
    ∃ m, addDigit n c = .ok m ∧ m.toNat = 10 * n.toNat + (c - ch '0').toNat := by
  refine ⟨10 * n + (c - ch '0'), if_pos (by omega), ?_⟩
  rw [UInt8.toNat_add, UInt8.toNat_mul]
  change (10 * n.toNat % 256 + (c - ch '0').toNat) % 256 = _
  omega

theorem loop_noDigit {left : Nat} (numerals : v.state = .escapedNumerals)
    (room : v.written.length < dest) (body : List UInt8)
    (hb : (moreDigits left ls v.stringEscapeN.toNat).2.rest = body ++ del :: rest)
    (digit : ¬ls.current.any isDigit = true) :
    ∃ digits w, ls.rest = digits ++ (body ++ del :: rest) ∧
      loop dest v (digits ++ body) = loop dest w body ∧ w.state = .normal ∧
      w.written = v.written ++ [UInt8.ofNat (moreDigits left ls v.stringEscapeN.toNat).1] := by
  have more : moreDigits left ls v.stringEscapeN.toNat = (v.stringEscapeN.toNat, ls) :=
    if_neg (fun h => digit h.2)
  rw [more] at hb ⊢
  refine ⟨[], _, hb, loop_numerals_end numerals room ?_, rfl, by rw [UInt8.ofNat_toNat]⟩
  cases body with
  | nil => rfl
  | cons d body =>
      rw [current, hb] at digit
      exact Bool.eq_false_iff.mpr digit

theorem loop_moreDigits (dest left : Nat) (numerals : v.state = .escapedNumerals)
    (count : v.stringEscapeI + (left + 1) = 3) (room : v.written.length < dest)
    (small : (moreDigits (left + 1) ls v.stringEscapeN.toNat).1 ≤ 255) (body : List UInt8)
    (hb : (moreDigits (left + 1) ls v.stringEscapeN.toNat).2.rest = body ++ del :: rest) :
    ∃ digits w, ls.rest = digits ++ (body ++ del :: rest) ∧
      loop dest v (digits ++ body) = loop dest w body ∧ w.state = .normal ∧
      w.written = v.written ++ [UInt8.ofNat (moreDigits (left + 1) ls v.stringEscapeN.toNat).1] := by
  induction left generalizing v ls with
  | zero =>
      by_cases digit : ls.current.any isDigit = true
      · cases hr : ls.rest with
        | nil => rw [current, hr] at digit; contradiction
        | cons c rest₀ =>
            have hc : isDigit c = true := by simpa [current_of_rest hr] using digit
            have more : moreDigits 1 ls v.stringEscapeN.toNat =
                (10 * v.stringEscapeN.toNat + (c - ch '0').toNat, ls.next) := by
              rw [moreDigits, if_pos ⟨by decide, digit⟩, readEscape_succ 0 hr]
              rfl
            rw [more] at small hb ⊢
            obtain ⟨m, add, value⟩ := addDigit_ok small
            refine ⟨[c], { v with written := v.written ++ [m], stringEscapeN := m, stringEscapeI := 3,
                                  state := .normal }, ?_, loop_next ?_, rfl, ?_⟩
            · rw [← hb, rest_next, hr]
              rfl
            · have last : v.stringEscapeI + 1 = 3 := by omega
              simp only [step, numerals, hc, if_true, add, last, writeTo]
              rw [write_ok (by exact room)]
              rfl
            · rw [← value, UInt8.ofNat_toNat]
      · exact loop_noDigit numerals room body hb digit
  | succ left ih =>
      by_cases digit : ls.current.any isDigit = true
      · cases hr : ls.rest with
        | nil => rw [current, hr] at digit; contradiction
        | cons c rest₀ =>
            have hc : isDigit c = true := by simpa [current_of_rest hr] using digit
            have more : moreDigits (left + 2) ls v.stringEscapeN.toNat =
                moreDigits (left + 1) ls.next (10 * v.stringEscapeN.toNat + (c - ch '0').toNat) := by
              rw [moreDigits, if_pos ⟨by omega, digit⟩, readEscape_succ _ hr]
            rw [more] at small hb ⊢
            obtain ⟨m, add, value⟩ :=
              addDigit_ok (c := c) ((moreDigits_ge (left + 1) ls.next _).trans small)
            rw [← value] at small hb ⊢
            let w : Vars := { v with stringEscapeN := m, stringEscapeI := v.stringEscapeI + 1 }
            obtain ⟨digits, x, split, run, normal, written⟩ :=
              ih (v := w) numerals (by simp only [w]; omega) room small hb
            refine ⟨c :: digits, x, ?_, (loop_next ?_).trans run, normal, written⟩
            · rw [List.cons_append, ← split, rest_next, hr]
              rfl
            · have notLast : ¬v.stringEscapeI + 1 = 3 := by omega
              simp only [step, numerals, hc, if_true, add, notLast, if_false, w]
      · exact loop_noDigit numerals room body hb digit

def Decodes (del : UInt8) (ls ls' : LexState) : Prop :=
  ∃ body value rest, ls.rest = body ++ del :: rest ∧ ls'.rest = del :: rest ∧
    ls'.buff = ls.buff ++ value ∧ value.length ≤ body.length ∧
    body.head?.any isNewline = false ∧
    ∀ dest v, v.state = .normal → v.written.length + body.length ≤ dest →
      loop dest v body = .ok (v.written ++ value)

theorem decodes_escapedByte (ls₁ : LexState) (hc : ls.current = some (ch '\\'))
    (hd : ls.next.current = some c) (nondigit : isDigit c = false)
    (newline : ¬(c = ch '\r' ∨ c = ch '\n')) (hr₁ : ls₁.rest = ls.next.next.rest)
    (buff₁ : ls₁.buff = ls.buff ++ [(namedEscape c).getD c]) (decodes : Decodes del ls₁ ls') :
    Decodes del ls ls' := by
  obtain ⟨rest₀, hr⟩ := Lexer.rest_of_current hc
  obtain ⟨rest₁, hn⟩ := Lexer.rest_of_current hd
  obtain ⟨body, value, rest, hb, hl, buff, le, -, decode⟩ := decodes
  have split : ls.rest = ch '\\' :: c :: (body ++ del :: rest) := by
    rw [rest_next, hr, List.tail_cons] at hn
    rw [hr, hn, ← hb, hr₁, rest_next, rest_next, hr, hn]
    rfl
  refine ⟨ch '\\' :: c :: body, (namedEscape c).getD c :: value, rest, split, hl, ?_, ?_, rfl, ?_⟩
  · rw [buff, buff₁, List.append_assoc]
    rfl
  · simp only [List.length_cons]
    omega
  · intro dest v normal room
    simp only [List.length_cons] at room
    have write : step dest { v with state := .escaped } c = .ok
        ({ v with written := v.written ++ [(namedEscape c).getD c], state := .normal }, true) := by
      simp only [step, nondigit, newline, writeTo, if_false, Bool.false_eq_true]
      rw [write_ok (by simp only; omega)]
      rfl
    rw [loop_escape normal, loop_next write, decode]
    · simp
    · rfl
    · simp only [List.length_append, List.length_singleton]
      omega

theorem loop_lineEndings_end (lineEndings : v.state = .escapedLineEndings)
    (head : rest.head?.any isNewline = false) :
    loop dest v rest = loop dest { v with state := .normal } rest := by
  cases rest with
  | nil => simp only [loop, lineEndings]
  | cons c rest =>
      have other : ¬(c = ch '\r' ∨ c = ch '\n') := by simpa [or_comm] using head
      refine loop_keep ?_
      simp only [step, lineEndings, other, if_false]

theorem decodes_escapedBreak {ls₁ : LexState} (hc : ls.current = some (ch '\\'))
    (hd : ls.next.current = some c) (newline : c = ch '\n' ∨ c = ch '\r')
    (hi : (ls.next.save (ch '\n')).inclinenumber = .ok ls₁) (decodes : Decodes del ls₁ ls') :
    Decodes del ls ls' := by
  obtain ⟨rest₀, hr⟩ := Lexer.rest_of_current hc
  obtain ⟨rest₁, hn⟩ := Lexer.rest_of_current hd
  obtain ⟨body, value, rest, hb, hl, buff, le, head, decode⟩ := decodes
  have hn' : (ls.next.save (ch '\n')).rest = c :: rest₁ := hn
  rw [Lexer.inclinenumber_eq hn', Except.ite_error_eq_ok] at hi
  obtain ⟨-, rfl⟩ := hi
  replace hr : ls.rest = ch '\\' :: c :: rest₁ := by rw [hr, ← hn, rest_next, hr, List.tail_cons]
  have nondigit : isDigit c = false := by rcases newline with rfl | rfl <;> decide
  have first (dest : Nat) (v : Vars) (normal : v.state = .normal) (room : v.written.length < dest)
      (more : List UInt8) :
      loop dest v (ch '\\' :: c :: more) =
        loop dest { v with written := v.written ++ [ch '\n'], state := .escapedLineEndings } more := by
    rw [loop_escape normal]
    refine loop_next ?_
    simp only [step, nondigit, or_comm.mp newline, if_true, if_false, Bool.false_eq_true, writeTo]
    rw [write_ok (by exact room)]
    rfl
  by_cases pair : rest₁.head?.any (fun d => isNewline d && d != c) = true
  · obtain ⟨d, rest₂, rfl, newline', -⟩ := Lexer.cons_of_pair pair
    simp only [Lexer.afterBreak, pair, if_true, List.tail_cons] at hb
    refine ⟨ch '\\' :: c :: d :: body, ch '\n' :: value, rest, by rw [hr, hb]; rfl, hl, ?_, ?_, rfl, ?_⟩
    · rw [buff, buff_save, List.append_assoc]
      rfl
    · simp only [List.length_cons]
      omega
    · intro dest v normal room
      simp only [List.length_cons] at room
      have second : step dest { v with written := v.written ++ [ch '\n'], state := .escapedLineEndings } d =
          .ok ({ v with written := v.written ++ [ch '\n'], state := .normal }, true) := by
        have newline'' : d = ch '\r' ∨ d = ch '\n' := by simpa [or_comm] using newline'
        simp only [step, newline'', if_true]
      rw [first dest v normal (by omega), loop_next second, decode]
      · simp
      · rfl
      · simp only [List.length_append, List.length_singleton]
        omega
  · simp only [Lexer.afterBreak, pair, if_false, Bool.false_eq_true] at hb
    refine ⟨ch '\\' :: c :: body, ch '\n' :: value, rest, by rw [hr, hb]; rfl, hl, ?_, ?_, rfl, ?_⟩
    · rw [buff, buff_save, List.append_assoc]
      rfl
    · simp only [List.length_cons]
      omega
    · intro dest v normal room
      simp only [List.length_cons] at room
      rw [first dest v normal (by omega), loop_lineEndings_end rfl head, decode]
      · simp
      · rfl
      · simp only [List.length_append, List.length_singleton]
        omega

theorem decodes_escapedDigits (hc : ls.current = some (ch '\\')) (hd : ls.next.current = some c)
    (digit : isDigit c = true) (small : (readEscape 3 ls.next 0).1 ≤ 255)
    (decodes : Decodes del
      ((readEscape 3 ls.next 0).2.save (UInt8.ofNat (readEscape 3 ls.next 0).1)) ls') :
    Decodes del ls ls' := by
  obtain ⟨rest₀, hr⟩ := Lexer.rest_of_current hc
  obtain ⟨rest₁, hn⟩ := Lexer.rest_of_current hd
  obtain ⟨body, value, rest, hb, hl, buff, le, head, decode⟩ := decodes
  have first : readEscape 3 ls.next 0 = moreDigits 2 ls.next.next (c - ch '0').toNat := by
    rw [readEscape_succ 2 hn, Nat.mul_zero, Nat.zero_add]
  rw [first] at small hb buff
  rw [rest_save] at hb
  have start (dest : Nat) (v : Vars) (normal : v.state = .normal) (more : List UInt8) :
      loop dest v (ch '\\' :: c :: more) = loop dest
        { v with stringEscapeN := c - ch '0', stringEscapeI := 1, state := .escapedNumerals } more := by
    rw [loop_escape normal]
    refine loop_next ?_
    simp only [step, digit, if_true]
  -- which bytes are the digits does not depend on what was written before
  obtain ⟨digits, -, split, -, -, -⟩ := loop_moreDigits 1 1
    (v := { stringEscapeN := c - ch '0', stringEscapeI := 1, state := .escapedNumerals }) rfl rfl
    Nat.one_pos small body hb
  have hr' : ls.rest = (ch '\\' :: c :: (digits ++ body)) ++ del :: rest := by
    have tail : rest₀ = c :: rest₁ := by rw [← hn, rest_next, hr, List.tail_cons]
    have tail' : rest₁ = digits ++ (body ++ del :: rest) := by
      rw [← split, rest_next, hn, List.tail_cons]
    rw [hr, tail, tail']
    simp
  refine ⟨ch '\\' :: c :: (digits ++ body),
    UInt8.ofNat (moreDigits 2 ls.next.next (c - ch '0').toNat).1 :: value, rest, hr', hl, ?_, ?_, rfl, ?_⟩
  · rw [buff, buff_save, List.append_assoc, buff_moreDigits]
    rfl
  · simp only [List.length_cons, List.length_append]
    omega
  · intro dest v normal room
    simp only [List.length_cons, List.length_append] at room
    obtain ⟨digits', w, split', run, normal', written⟩ := loop_moreDigits dest 1
      (v := { v with stringEscapeN := c - ch '0', stringEscapeI := 1, state := .escapedNumerals }) rfl
      rfl (by simp only; omega) small body hb
    obtain rfl : digits = digits' := List.append_cancel_right (split.symm.trans split')
    rw [start dest v normal, run, decode dest w normal', written]
    · simp
    · rw [written]
      simp only [List.length_append, List.length_singleton]
      omega

theorem decodes_readStringLoop (ok : readStringLoop del ls = .ok ls') : Decodes del ls ls' := by
  fun_induction readStringLoop del ls with
  | case1 ls h => contradiction
  | case2 ls h => 
      cases ok
      obtain ⟨rest, hr⟩ := Lexer.rest_of_current h
      refine ⟨[], [], rest, hr, hr, by simp, le_rfl, rfl, ?_⟩
      intro dest v normal _
      simp only [loop, normal, List.append_nil]
  | case3 ls c h _ _ => contradiction
  | case4 ls hn h _ _ ih => 
      obtain ⟨body, value, rest, hr, -⟩ := ih ok
      rw [Lexer.rest_of_current_none hn] at hr
      simp at hr
  | case5 ls d hd e named h _ _ ih =>
      obtain ⟨nondigit, newline⟩ := Lexer.namedEscape_plain named
      refine decodes_escapedByte (ls.next.save e).next h hd nondigit newline rfl ?_ (ih ok)
      rw [named]
      rfl
  | case6 ls d hd _ _ msg hi h => contradiction
  | case7 ls d hd named newline ls₁ hi h _ _ ih => exact decodes_escapedBreak h hd newline hi (ih ok)
  | case8 ls d hd named newline nondigit h _ _ ih =>
      refine decodes_escapedByte ls.next.saveAndNext h hd (by simpa using nondigit)
        (fun h => newline h.symm) rfl ?_ (ih ok)
      rw [named, saveAndNext, hd]
      rfl
  | case9 ls d hd _ _ _ _ h => contradiction
  | case10 ls d hd _ newline digit small h _ _ ih =>
      exact decodes_escapedDigits h hd (by simpa using digit) (not_lt.mp small) (ih ok)
  | case11 ls c h other newline escape ih => 
      obtain ⟨rest₀, hr⟩ := Lexer.rest_of_current h
      obtain ⟨body, value, rest, hb, hl, buff, le, -, decode⟩ := ih ok
      rw [rest_saveAndNext, hr, List.tail_cons] at hb
      refine ⟨c :: body, c :: value, rest, by rw [hr, hb]; rfl, hl, ?_, by simpa using le, ?_, ?_⟩
      · rw [buff, buff_saveAndNext hr]; simp
      · simpa using newline
      · intro dest v normal room
        have notReturn : c ≠ ch '\r' := fun h => newline (.inr h)
        rw [List.length_cons] at room
        rw [loop_normal_byte normal (by omega) escape, if_neg notReturn, decode]
        · simp
        · exact normal
        · simp; omega

end ParseString

/-! ## Tokens -/

def ReadsString (ls : LexState) (lexeme : Lexeme) : Prop :=
  (∃ c rest, ls.rest = c :: rest ∧ (c = ch '"' ∨ c = ch '\'') ∧ readString c ls = .ok lexeme.ls ∧
    lexeme.ts = some (stringValue lexeme.ls)) ∨
  (∃ rest, ls.rest = ch '[' :: rest ∧ 0 ≤ (skipSep ls).1 ∧
    readLongString true (skipSep ls).1 (skipSep ls).2 = .ok lexeme.ls ∧
    lexeme.ts = some (longStringValue (skipSep ls).1 lexeme.ls))

theorem toNat_ne_string (c : UInt8) : c.toNat ≠ TK_STRING := by
  have := c.toNat_lt
  simp only [TK_STRING, FIRST_RESERVED]
  omega

theorem withEq_ne_string (ls : LexState) (c : UInt8) {compound : Nat} (h : compound ≠ TK_STRING) :
    (withEq ls c compound).token ≠ TK_STRING := by
  unfold withEq
  split
  · exact h
  · exact toNat_ne_string c

theorem identifier_ne_string (ls : LexState) : (identifierLexeme ls).token ≠ TK_STRING := by
  rw [(Lexer.identifierLexeme_token ls).1]
  have bound : reserved (saveWhile isAlnum_ ls.saveAndNext).buff ≤ NUM_RESERVED := by
    simp only [reserved]
    split <;> omega
  simp only [NUM_RESERVED, TK_STRING, TK_NAME, FIRST_RESERVED] at bound ⊢
  split <;> omega

theorem dot_ne_string {str2d : List UInt8 → Bool} {ls : LexState} {lexeme : Lexeme}
    (ok : dotLexeme str2d ls = .ok lexeme) : lexeme.token ≠ TK_STRING := by
  simp only [dotLexeme] at ok
  split at ok
  · cases ok
    simp only
    split <;> decide
  · split at ok
    · cases hn : readNumeral str2d (ls.saveAndNext.checkNext (bytes ".")).2 with
      | error msg => simp [hn, Except.map] at ok
      | ok ls' =>
          simp only [hn, Except.map, Except.ok.injEq] at ok
          subst ok
          exact (by decide : TK_NUMBER ≠ TK_STRING)
    · cases ok
      exact toNat_ne_string _

theorem llexLoop_string {str2d : List UInt8 → Bool} {ls : LexState} {lexeme : Lexeme}
    (ok : llexLoop str2d ls = .ok lexeme) (string : lexeme.token = TK_STRING) (empty : ls.buff = []) :
    ∃ ls₀, ls₀.rest = lexeme.start ∧ ls₀.buff = [] ∧ ReadsString ls₀ lexeme := by
  fun_induction llexLoop str2d ls with
  | case1 ls h => cases ok; exact absurd string (by decide : TK_EOS ≠ TK_STRING)
  | case2 ls c h _ msg hi => contradiction
  | case3 ls c h _ ls' hi ih => exact ih ok ((Lexer.buff_inclinenumber hi).trans empty)
  | case4 ls _ h _ => cases ok; exact absurd string (toNat_ne_string _)
  | case5 ls _ comment _ sep ls' _ msg hl => contradiction
  | case6 ls _ comment hb sep ls' _ ls'' hl =>
      rename_i h _ ih
      exact ih ok rfl
  | case7 ls _ comment hb sep ls' _ =>
      rename_i h _ ih
      exact ih ok (Lexer.buff_skipLine _)
  | case8 ls _ comment hb =>
      rename_i h _ ih
      exact ih ok ((Lexer.buff_skipLine _).trans empty)
  | case9 ls sep long h =>
      obtain ⟨rest, hr⟩ := Lexer.rest_of_current h
      cases hl : readLongString true sep (skipSep ls).2 with
      | error msg => simp [hl, Except.map] at ok
      | ok ls' =>
          simp only [hl, Except.map, Except.ok.injEq] at ok
          subst ok
          exact ⟨ls, rfl, empty, .inr ⟨rest, hr, long, hl, rfl⟩⟩
  | case10 ls sep _ _ h => cases ok; exact absurd string (toNat_ne_string _)
  | case11 ls sep _ _ h => contradiction
  | case12 ls h => cases ok; exact absurd string (withEq_ne_string _ _ (by decide))
  | case13 ls h => cases ok; exact absurd string (withEq_ne_string _ _ (by decide))
  | case14 ls h => cases ok; exact absurd string (withEq_ne_string _ _ (by decide))
  | case15 ls h => cases ok; exact absurd string (withEq_ne_string _ _ (by decide))
  | case16 ls c h _ _ _ _ _ _ _ quote =>
      obtain ⟨rest, hr⟩ := Lexer.rest_of_current h
      cases hl : readString c ls with
      | error msg => simp [hl, Except.map] at ok
      | ok ls' =>
          simp only [hl, Except.map, Except.ok.injEq] at ok
          subst ok
          exact ⟨ls, rfl, empty, .inl ⟨c, rest, hr, quote, hl, rfl⟩⟩
  | case17 ls h => exact absurd string (dot_ne_string ok)
  | case18 ls c h _ _ _ _ _ _ _ _ _ _ ih => exact ih ok empty
  | case19 ls c h =>
      cases hn : readNumeral str2d ls with
      | error msg => simp [hn, Except.map] at ok
      | ok ls' =>
          simp only [hn, Except.map, Except.ok.injEq] at ok
          subst ok
          exact absurd string (by decide : TK_NUMBER ≠ TK_STRING)
  | case20 ls c h => cases ok; exact absurd string (identifier_ne_string ls)
  | case21 ls c h => cases ok; exact absurd string (toNat_ne_string c)

theorem Lexer.next_string (str2d : List UInt8 → Bool) {self self' : Lexer} {token : Token}
    (defaults : Lexer.Defaults self) (bound : self.index ≤ self.buffer.length)
    (next : self.next = .token self' token) (string : token.id = .string) :
    ∃ lexeme ls₀, llex str2d { rest := self.buffer.drop self.index, linenumber := self.lineNumber } =
        .ok lexeme ∧ lexeme.token = TK_STRING ∧ token.start ≤ token.stop ∧
      token.stop ≤ self.buffer.length ∧ lexeme.start = self.buffer.drop token.start ∧
      lexeme.ls.rest = self.buffer.drop token.stop ∧
      ls₀.rest = self.buffer.drop token.start ∧ ls₀.buff = [] ∧ ReadsString ls₀ lexeme := by
  have relates := @Lexer.next_relates self
    { rest := self.buffer.drop self.index, linenumber := self.lineNumber } str2d defaults bound rfl rfl
  rw [next] at relates
  rcases relates with agrees | ⟨-, numeral⟩
  · cases hl : llex str2d { rest := self.buffer.drop self.index, linenumber := self.lineNumber } with
    | error msg =>
        rw [hl] at agrees
        obtain ⟨_, _, result, -⟩ := agrees
        contradiction
    | ok lexeme =>
        rw [hl] at agrees
        obtain ⟨i, token', result, bound', rest, code, le, start, rfl⟩ := agrees
        cases result
        have code' : lexeme.token = TK_STRING := by
          rw [← code, Token.code, if_neg (by simp [string]), string]
          rfl
        obtain ⟨ls₀, hr, empty, reads⟩ := llexLoop_string hl code' rfl
        exact ⟨lexeme, ls₀, rfl, code', le, bound', start.symm, rest.symm, hr.trans start.symm, empty,
          reads⟩
  · have := numeral _ _ rfl
    rw [string] at this
    contradiction

theorem Lexer.Reaches.defaults {buffer chunkName : List UInt8} {lexer : Lexer}
    (reaches : Reaches buffer chunkName lexer)
    (fits : buffer.length ≤ (Lexer.init buffer chunkName).maxLexicalElementSize) :
    Lexer.Defaults lexer ∧ lexer.index ≤ lexer.buffer.length ∧ lexer.buffer = buffer := by
  obtain ⟨index, lineNumber, rfl, bound⟩ := reaches.position
  exact ⟨⟨rfl, rfl, fits⟩, bound, rfl⟩

theorem Token.slice_eq {buffer body : List UInt8} {token : Token} (le : token.start ≤ token.stop)
    (bound : token.stop ≤ buffer.length)
    (h : buffer.drop token.start = body ++ buffer.drop token.stop) : token.slice buffer = body := by
  have split : token.slice buffer ++ buffer.drop token.stop = buffer.drop token.start := by
    rw [Token.slice, ← List.drop_append_of_le_length (by rw [List.length_take]; omega),
      List.take_append_drop]
  exact List.append_cancel_right (split.trans h)

theorem parseString_quote {c : UInt8} {body : List UInt8} {dest : Nat}
    (quote : c = ch '"' ∨ c = ch '\'') (room : body.length + 2 ≤ dest) :
    parseString (c :: body ++ [c]) dest = ParseString.loop dest {} body := by
  have len : (c :: body ++ [c]).length = body.length + 2 := by simp
  have delim : delimiter (c :: body ++ [c]) = .ok (1, false) := by
    simp only [delimiter, List.cons_append, or_comm.mp quote, if_true]
  have inner : ((c :: body ++ [c]).take (body.length + 2 - 1)).drop 1 = body := by
    simp
  simp only [parseString, delim, len, inner, Bool.false_eq_true, if_false]
  rw [if_neg (by omega), if_neg (by omega)]

/-- Every quoted string token is decoded without a failed check, and to the string that `llex` makes
of the same bytes. -/
theorem parseString_quoted (str2d : List UInt8 → Bool) {buffer chunkName : List UInt8}
    {self self' : Lexer} {token : Token} (reaches : Lexer.Reaches buffer chunkName self)
    (fits : buffer.length ≤ (Lexer.init buffer chunkName).maxLexicalElementSize)
    (next : self.next = .token self' token) (string : token.id = .string) {c : UInt8}
    (first : (token.slice buffer).head? = some c) (quote : c = ch '"' ∨ c = ch '\'') :
    ∃ value lexeme,
      parseString (token.slice buffer) (token.slice buffer).length = .ok value ∧
      value.length ≤ (token.slice buffer).length ∧
      llex str2d { rest := buffer.drop self.index, linenumber := self.lineNumber } = .ok lexeme ∧
      lexeme.token = TK_STRING ∧ lexeme.start = buffer.drop token.start ∧
      lexeme.ls.rest = buffer.drop token.stop ∧ lexeme.ts = some value := by
  obtain ⟨defaults, bound, rfl⟩ := reaches.defaults fits
  obtain ⟨lexeme, ls₀, ok, code, le, bound', start, rest, start₀, empty, reads⟩ :=
    Lexer.next_string str2d defaults bound next string
  rcases reads with ⟨d, rest₀, hr, quote', read, ts⟩ | ⟨rest₀, hr, -⟩
  · obtain ⟨ls', hl, final⟩ : ∃ ls', readStringLoop d ls₀.saveAndNext = .ok ls' ∧
        lexeme.ls = ls'.saveAndNext := by
      cases hl : readStringLoop d ls₀.saveAndNext with
      | error msg => simp [readString, hl, Except.map] at read
      | ok ls' => exact ⟨ls', rfl, by simpa [readString, hl, Except.map] using read.symm⟩
    obtain ⟨body, value, rest', hb, hl', buff, short, -, decode⟩ := decodes_readStringLoop hl
    rw [rest_saveAndNext, hr, List.tail_cons] at hb
    have body_eq : token.slice self.buffer = d :: body ++ [d] := by
      refine Token.slice_eq le bound' ?_
      rw [← start₀, hr, hb, ← rest, final, rest_saveAndNext, hl']
      simp
    have value_eq : stringValue lexeme.ls = value := by
      rw [stringValue, final, buff_saveAndNext hl', buff, buff_saveAndNext hr, empty]
      simp
    refine ⟨value, lexeme, ?_, ?_, ok, code, start, rest, ts.trans (congrArg some value_eq)⟩
    · rw [body_eq, parseString_quote quote' (by simp), decode _ _ rfl]
      · rfl
      · simp only [List.cons_append, List.length_cons, List.length_append, List.length_nil]
        omega
    · rw [body_eq]
      simp only [List.cons_append, List.length_cons, List.length_append]
      omega
  · have head : self.buffer[token.start]? = some (ch '[') := by
      rw [← List.head?_drop, ← start₀, hr, List.head?_cons]
    rw [Token.slice, List.head?_drop, List.getElem?_take] at first
    split at first
    · rw [head] at first
      rcases quote with rfl | rfl <;> simp at first
    · contradiction

theorem parseString_quoted_sample :
    let buffer := bytes "'\\\r\n\\9x\\0651'"
    parseString buffer 13 = .ok [10, 9, 120, 65, 49] ∧
      ∃ lexeme, llex (fun _ => true) { rest := buffer } = .ok lexeme ∧
        lexeme.ts = some [10, 9, 120, 65, 49] := by
  intro buffer
  obtain ⟨value, lexeme, parsed, -, called, -, -, -, ts⟩ :=
    @parseString_quoted (fun _ => true) buffer [] (Lexer.init buffer [])
      { Lexer.init buffer [] with index := 13, lineNumber := 2 }
      { id := .string, start := 0, stop := 13, lineNumber := 2, char := none }
      .init (by decide) (by decide +kernel) rfl (ch '\'') (by decide) (.inr rfl)
  have decoded : parseString buffer 13 = .ok [10, 9, 120, 65, 49] := by decide +kernel
  cases decoded.symm.trans parsed
  exact ⟨decoded, lexeme, called, ts⟩

end Zua.Lex
