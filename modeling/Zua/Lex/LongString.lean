import Zua.Lex.ParseLiteral

/-!
# Long strings

`read_long_string` keeps the bytes between the brackets as they are, up to line breaks. `parseString`
notes that a string is long but decodes it like a quoted one, so the two agree only on bodies in
which that makes no difference.
-/

namespace Zua.Lex
open Zua.Llex Zua.Llex.LexState

theorem length_afterBreak (c : UInt8) (rest : List UInt8) :
    (Lexer.afterBreak c rest).length ≤ rest.length := by
  unfold Lexer.afterBreak
  split <;> simp

/-- Every line break, of one byte or of two different ones, becomes one LF. -/
def normalizeBreaks : List UInt8 → List UInt8
  | [] => []
  | c :: rest =>
      if isNewline c then ch '\n' :: normalizeBreaks (Lexer.afterBreak c rest)
      else c :: normalizeBreaks rest
termination_by body => body.length
decreasing_by
  · exact Nat.lt_succ_of_le (length_afterBreak c rest)
  · exact Nat.lt_succ_self _

def dropBreak : List UInt8 → List UInt8
  | c :: rest => if isNewline c then Lexer.afterBreak c rest else c :: rest
  | [] => []

def rawValue (body : List UInt8) : List UInt8 := normalizeBreaks (dropBreak body)

def opens (level : Nat) : List UInt8 := ch '[' :: List.replicate level (ch '=') ++ [ch '[']

def closes (level : Nat) : List UInt8 := ch ']' :: List.replicate level (ch '=') ++ [ch ']']

def longBracket (level : Nat) (body : List UInt8) : List UInt8 := opens level ++ body ++ closes level

theorem length_opens (level : Nat) : (opens level).length = 2 + level := by
  simp [opens]
  omega

theorem length_closes (level : Nat) : (closes level).length = 2 + level := by
  simp [closes]
  omega

variable {c : UInt8} {rest : List UInt8} {ls ls' : LexState}

theorem normalizeBreaks_newline (newline : isNewline c = true) (rest : List UInt8) :
    normalizeBreaks (c :: rest) = ch '\n' :: normalizeBreaks (Lexer.afterBreak c rest) := by
  rw [normalizeBreaks, if_pos newline]

theorem normalizeBreaks_other (other : isNewline c = false) (rest : List UInt8) :
    normalizeBreaks (c :: rest) = c :: normalizeBreaks rest := by
  rw [normalizeBreaks, if_neg (Bool.not_eq_true _ ▸ other)]

/-! ## What `read_long_string` builds -/

theorem skipSepLoop_run (ls : LexState) (count : Int) :
    ∃ m : Nat, ls.rest = List.replicate m (ch '=') ++ (skipSepLoop ls count).2.rest ∧
      (skipSepLoop ls count).1 = count + m ∧
      (skipSepLoop ls count).2.buff = ls.buff ++ List.replicate m (ch '=') := by
  fun_induction skipSepLoop ls count with
  | case1 ls count h ih =>
      obtain ⟨rest, hr⟩ := Lexer.rest_of_current h
      obtain ⟨m, run, counted, buff⟩ := ih
      refine ⟨m + 1, ?_, by rw [counted]; push_cast; ring, ?_⟩
      · rw [List.replicate_succ, List.cons_append, ← run, rest_saveAndNext, hr, List.tail_cons]
      · rw [buff, buff_saveAndNext hr, List.replicate_succ, List.append_assoc]
        rfl
  | case2 ls count h => exact ⟨0, rfl, by simp, by simp⟩

theorem skipSep_run (hr : ls.rest = c :: rest) :
    ∃ m : Nat, ls.rest = (c :: List.replicate m (ch '=')) ++ (skipSep ls).2.rest ∧
      (skipSep ls).1 = (if (skipSep ls).2.current = some c then (m : Int) else -m - 1) ∧
      (skipSep ls).2.buff = ls.buff ++ c :: List.replicate m (ch '=') := by
  obtain ⟨m, run, counted, buff⟩ := skipSepLoop_run ls.saveAndNext 0
  refine ⟨m, ?_, ?_, ?_⟩
  · simp only [skipSep]
    rw [List.cons_append, ← run, rest_saveAndNext, hr, List.tail_cons]
  · simp only [skipSep, counted, current_of_rest hr, Int.zero_add]
  · simp only [skipSep]
    rw [buff, buff_saveAndNext hr, List.append_assoc]
    rfl

theorem normalizeBreaks_append {front : List UInt8} (plain : ∀ c ∈ front, isNewline c = false)
    (rest : List UInt8) : normalizeBreaks (front ++ rest) = front ++ normalizeBreaks rest := by
  induction front with
  | nil => rfl
  | cons c front ih =>
      rw [List.cons_append, normalizeBreaks_other (plain c List.mem_cons_self),
        ih (fun d hd => plain d (List.mem_cons_of_mem _ hd))]
      rfl

theorem afterBreak_split {body tail : List UInt8} (h : Lexer.afterBreak c rest = body ++ tail) :
    ∃ front, rest = front ++ tail ∧ Lexer.afterBreak c front = body := by
  by_cases pair : rest.head?.any (fun d => isNewline d && d != c) = true
  · obtain ⟨d, rest', rfl, newline, different⟩ := Lexer.cons_of_pair pair
    rw [Lexer.afterBreak, if_pos pair, List.tail_cons] at h
    refine ⟨d :: body, by rw [h]; rfl, ?_⟩
    rw [Lexer.afterBreak, if_pos (by simpa using pair), List.tail_cons]
  · rw [Lexer.afterBreak, if_neg pair] at h
    refine ⟨body, h, ?_⟩
    cases body with
    | nil => rfl
    | cons d body =>
        rw [h] at pair
        exact if_neg pair

theorem readLongStringLoop_value {level : Nat} (ok : readLongStringLoop true level ls = .ok ls') :
    ∃ body, ls.rest = body ++ closes level ++ ls'.rest ∧
      ls'.buff = ls.buff ++ normalizeBreaks body ++ closes level := by
  fun_induction readLongStringLoop true level ls with
  | case1 ls h => contradiction
  | case2 ls hs h =>
      cases ok
      obtain ⟨rest, hr⟩ := Lexer.rest_of_current h
      obtain ⟨m, run, counted, buff⟩ := skipSep_run hr
      have close : (skipSep ls).2.current = some (ch ']') := by
        by_contra other
        rw [if_neg other] at counted
        omega
      rw [if_pos close, hs, Nat.cast_inj] at counted
      obtain ⟨rest', hr'⟩ := Lexer.rest_of_current close
      refine ⟨[], ?_, ?_⟩
      · rw [run, hr', rest_saveAndNext, hr', counted, closes]
        simp
      · rw [buff_saveAndNext hr', buff, counted, closes, normalizeBreaks]
        simp
  | case3 ls hs h ih =>
      obtain ⟨rest, hr⟩ := Lexer.rest_of_current h
      obtain ⟨m, run, -, buff⟩ := skipSep_run hr
      obtain ⟨body, hb, value⟩ := ih ok
      refine ⟨(ch ']' :: List.replicate m (ch '=')) ++ body, ?_, ?_⟩
      · rw [run, hb]
        simp only [List.append_assoc]
      · have plain : ∀ c ∈ ch ']' :: List.replicate m (ch '='), isNewline c = false := by
          intro c hc
          rcases List.mem_cons.mp hc with rfl | hc
          · rfl
          · rw [List.eq_of_mem_replicate hc]
            rfl
        rw [value, buff, normalizeBreaks_append plain]
        simp only [List.append_assoc]
  | case4 ls c h _ _ msg hi => contradiction
  | case5 ls c h bracket newline ls₁ hi ih =>
      obtain ⟨rest, hr⟩ := Lexer.rest_of_current h
      obtain ⟨body, hb, value⟩ := ih ok
      have hr' : (ls.save (ch '\n')).rest = c :: rest := hr
      rw [Lexer.inclinenumber_eq hr', Except.ite_error_eq_ok] at hi
      obtain ⟨-, rfl⟩ := hi
      replace hb : Lexer.afterBreak c rest = body ++ (closes level ++ ls'.rest) := by
        rw [← List.append_assoc]
        exact hb
      obtain ⟨front, split, after⟩ := afterBreak_split hb
      refine ⟨c :: front, by rw [hr, split]; simp, ?_⟩
      rw [normalizeBreaks_newline (by simpa using newline), after]
      replace value : ls'.buff = ls.buff ++ [ch '\n'] ++ normalizeBreaks body ++ closes level := value
      rw [value]
      simp
  | case6 ls c h bracket newline ih =>
      obtain ⟨rest, hr⟩ := Lexer.rest_of_current h
      obtain ⟨body, hb, value⟩ := ih ok
      replace hb : rest = body ++ closes level ++ ls'.rest := by
        rw [← hb]
        exact (congrArg List.tail hr).symm
      replace value : ls'.buff = ls.saveAndNext.buff ++ normalizeBreaks body ++ closes level := value
      refine ⟨c :: body, by rw [hr, hb]; rfl, ?_⟩
      rw [value, buff_saveAndNext hr, normalizeBreaks_other (by simpa using newline)]
      simp

theorem readLongString_value {level : Nat} (hr : ls.rest = ch '[' :: rest)
    (ok : readLongString true level ls = .ok ls') :
    ∃ body, rest = body ++ closes level ++ ls'.rest ∧
      ls'.buff = ls.buff ++ ch '[' :: rawValue body ++ closes level := by
  have rest₁ : ls.saveAndNext.rest = rest := by rw [rest_saveAndNext, hr, List.tail_cons]
  simp only [readLongString] at ok
  split at ok
  · rename_i newline
    cases hrest : rest with
    | nil =>
        rw [currIsNewline, current, rest₁, hrest] at newline
        contradiction
    | cons c rest' =>
        rw [hrest] at rest₁
        have isBreak : isNewline c = true := by
          simpa [currIsNewline, current_of_rest rest₁] using newline
        rw [Lexer.inclinenumber_eq rest₁] at ok
        split at ok
        · contradiction
        · rename_i ls₁ hi
          rw [Except.ite_error_eq_ok] at hi
          obtain ⟨-, rfl⟩ := hi
          obtain ⟨body, hb, value⟩ := readLongStringLoop_value ok
          rw [List.append_assoc] at hb
          obtain ⟨front, split, after⟩ := afterBreak_split hb
          refine ⟨c :: front, by rw [split]; simp, ?_⟩
          rw [value, rawValue, dropBreak, if_pos isBreak, after, buff_saveAndNext hr]
          simp
  · rename_i newline
    obtain ⟨body, hb, value⟩ := readLongStringLoop_value ok
    rw [rest₁] at hb
    refine ⟨body, hb, ?_⟩
    have same : dropBreak body = body := by
      cases body with
      | nil => rfl
      | cons c body =>
          have other : ¬isNewline c = true := by
            rw [currIsNewline, current, rest₁, hb] at newline
            simpa using newline
          rw [dropBreak, if_neg other]
    rw [value, rawValue, same, buff_saveAndNext hr]
    simp

theorem readsString_long {lexeme : Lexeme} (hr : ls.rest = ch '[' :: rest) (empty : ls.buff = [])
    (long : 0 ≤ (skipSep ls).1) (ok : readLongString true (skipSep ls).1 (skipSep ls).2 = .ok lexeme.ls)
    (ts : lexeme.ts = some (longStringValue (skipSep ls).1 lexeme.ls)) :
    ∃ level body, ls.rest = longBracket level body ++ lexeme.ls.rest ∧
      lexeme.ts = some (rawValue body) := by
  obtain ⟨m, run, counted, buff⟩ := skipSep_run hr
  have second : (skipSep ls).2.current = some (ch '[') := by
    by_contra other
    rw [if_neg other] at counted
    omega
  obtain ⟨rest', hr'⟩ := Lexer.rest_of_current second
  rw [if_pos second] at counted
  rw [counted] at ok ts
  obtain ⟨body, hb, value⟩ := readLongString_value hr' ok
  refine ⟨m, body, ?_, ?_⟩
  · rw [run, hr', hb, longBracket, opens]
    simp
  · rw [ts, longStringValue, value, buff, empty]
    have whole : [] ++ ch '[' :: List.replicate m (ch '=') ++ ch '[' :: rawValue body ++ closes m =
        opens m ++ (rawValue body ++ closes m) := by simp [opens]
    rw [whole, Int.toNat_natCast, ← length_opens, List.drop_left, List.length_append,
      List.length_append, length_opens, length_closes,
      show 2 + m + ((rawValue body).length + (2 + m)) - 2 * (2 + m) = (rawValue body).length by omega,
      List.take_left]

/-! ## What `parseString` makes of it -/

structure Plain (body : List UInt8) : Prop where
  backslash : ch '\\' ∉ body
  crlf : ¬[ch '\r', ch '\n'] <:+: body
  lfcr : ¬[ch '\n', ch '\r'] <:+: body

theorem countSep_replicate (level : Nat) (rest : List UInt8) :
    ParseString.countSep (List.replicate level (ch '=') ++ ch '[' :: rest) = level := by
  induction level with
  | zero => rfl
  | succ level ih => rw [List.replicate_succ, List.cons_append, ParseString.countSep, if_pos rfl, ih]

theorem delimiter_longBracket (level : Nat) (body : List UInt8) :
    delimiter (longBracket level body) = .ok (2 + level, body.head?.any isNewline) := by
  have shape : longBracket level body =
      ch '[' :: (List.replicate level (ch '=') ++ ch '[' :: (body ++ closes level)) := by
    simp [longBracket, opens]
  have second : (longBracket level body)[1 + level]? = some (ch '[') := by
    rw [shape, Nat.add_comm, List.getElem?_cons_succ, List.getElem?_append_right (by simp)]
    simp
  have first : (longBracket level body)[2 + level]? = (body ++ closes level).head? := by
    rw [longBracket, List.append_assoc, List.getElem?_append_right (by rw [length_opens]),
      length_opens, Nat.sub_self, List.head?_eq_getElem?]
  have count : ParseString.countSep (List.replicate level (ch '=') ++
      ch '[' :: (body ++ closes level)) = level := countSep_replicate level _
  rw [delimiter.eq_def, shape]
  simp only
  rw [if_neg (by decide), if_pos trivial, count, ← shape, second, first]
  cases body with
  | nil => rfl
  | cons c body => simp [Bool.or_comm]

theorem parseString_longBracket (level : Nat) (body : List UInt8) {dest : Nat}
    (room : (longBracket level body).length ≤ dest) :
    parseString (longBracket level body) dest =
      ParseString.loop dest {} (if body.head?.any isNewline then body.tail else body) := by
  have length : (longBracket level body).length = (2 + level) + body.length + (2 + level) := by
    rw [longBracket, List.length_append, List.length_append, length_opens, length_closes]
  have inner : ((longBracket level body).take
      ((longBracket level body).length - (2 + level))).drop (2 + level) = body := by
    rw [length, Nat.add_sub_cancel, longBracket, ← length_opens level, ← List.length_append,
      List.take_left, List.drop_left]
  simp only [parseString, delimiter_longBracket, inner]
  rw [if_neg (by omega), if_neg (by omega)]
  by_cases newline : body.head?.any isNewline = true
  · have nonempty : body ≠ [] := by rintro rfl; contradiction
    rw [if_pos newline, if_pos newline, if_neg nonempty]
  · rw [if_neg newline, if_neg newline]

theorem infix_pair_cons {d e : UInt8} :
    [d, e] <:+: c :: rest ↔ (c = d ∧ rest.head? = some e) ∨ [d, e] <:+: rest := by
  rw [List.infix_cons_iff, List.cons_prefix_cons]
  cases rest with
  | nil => simp
  | cons b rest => simp [eq_comm (a := d), eq_comm (a := e)]

theorem plain_cons : Plain (c :: rest) ↔ c ≠ ch '\\' ∧
    ¬(isNewline c = true ∧ rest.head?.any (fun d => isNewline d && d != c) = true) ∧ Plain rest := by
  have pair : (isNewline c = true ∧ rest.head?.any (fun d => isNewline d && d != c) = true) ↔
      (c = ch '\r' ∧ rest.head? = some (ch '\n')) ∨ (c = ch '\n' ∧ rest.head? = some (ch '\r')) := by
    cases rest with
    | nil => simp
    | cons d rest =>
        simp only [isNewline, List.head?_cons, Option.any_some, Bool.and_eq_true, Bool.or_eq_true,
          beq_iff_eq, bne_iff_ne, Option.some.injEq]
        constructor
        · rintro ⟨rfl | rfl, rfl | rfl, different⟩ <;> simp_all
        · rintro (⟨rfl, rfl⟩ | ⟨rfl, rfl⟩) <;> simp
  rw [pair]
  constructor
  · rintro ⟨backslash, crlf, lfcr⟩
    rw [infix_pair_cons] at crlf lfcr
    rw [List.mem_cons] at backslash
    tauto
  · rintro ⟨backslash, pair, plain⟩
    obtain ⟨backslash', crlf, lfcr⟩ := plain
    refine ⟨?_, ?_, ?_⟩
    · rw [List.mem_cons]
      tauto
    · rw [infix_pair_cons]
      tauto
    · rw [infix_pair_cons]
      tauto

namespace ParseString

variable {dest : Nat} {v v' : Vars} {source : List UInt8} {out : List UInt8}

theorem map_write {α : Type} {f : Vars → α} {b : UInt8} {a : α} :
    (write dest v b).map f = .ok a ↔
      v.written.length < dest ∧ f { v with written := v.written ++ [b] } = a := by
  unfold write
  split <;> simp_all [Except.map]

theorem map_writeTo {α : Type} {f : Vars → α} {b : UInt8} {state : State} {a : α} :
    (writeTo dest v b state).map f = .ok a ↔
      v.written.length < dest ∧ f { v with written := v.written ++ [b], state } = a := by
  unfold writeTo write
  split <;> simp_all [Except.map]

inductive Passed (c : UInt8) (v v' : Vars) : Bool → Prop
  | plain : v.state = .normal → c ≠ ch '\\' →
      v' = { v with written := v.written ++ [if c = ch '\r' then ch '\n' else c] } → Passed c v v' true
  | backslash : v.state = .normal → c = ch '\\' → v' = { v with state := .escaped } → Passed c v v' true
  | firstDigit : v.state = .escaped → isDigit c = true → v'.state = .escapedNumerals →
      v'.written = v.written → Passed c v v' true
  | escapedBreak : v.state = .escaped → isNewline c = true →
      v' = { v with written := v.written ++ [ch '\n'], state := .escapedLineEndings } →
      Passed c v v' true
  | escaped (b : UInt8) : v.state = .escaped → isNewline c = false →
      v' = { v with written := v.written ++ [b], state := .normal } → Passed c v v' true
  | digit : v.state = .escapedNumerals → isDigit c = true → v'.state = .escapedNumerals →
      v'.written = v.written → Passed c v v' true
  | lastDigit (b : UInt8) : v.state = .escapedNumerals → isDigit c = true → v'.state = .normal →
      v'.written = v.written ++ [b] → Passed c v v' true
  | endDigits (b : UInt8) : v.state = .escapedNumerals → v'.state = .normal →
      v'.written = v.written ++ [b] → Passed c v v' false
  | endBreak (keep : Bool) : v.state = .escapedLineEndings → v'.state = .normal →
      v'.written = v.written → Passed c v v' keep

theorem step_passed {keep : Bool} (h : step dest v c = .ok (v', keep)) : Passed c v v' keep := by
  cases hs : v.state with
  | normal =>
      simp only [step, hs] at h
      split at h
      · rename_i hc
        rw [map_write, Prod.mk.injEq] at h
        obtain ⟨-, rfl, rfl⟩ := h
        exact .plain hs (by rw [hc]; decide) (by rw [if_pos hc])
      · rename_i hc
        split at h
        · cases h
          exact .backslash hs ‹_› rfl
        · rw [map_write, Prod.mk.injEq] at h
          obtain ⟨-, rfl, rfl⟩ := h
          exact .plain hs ‹_› (by rw [if_neg hc])
  | escaped =>
      simp only [step, hs] at h
      split at h
      · cases h
        exact .firstDigit hs ‹_› rfl rfl
      · split at h
        · rename_i newline
          rw [map_writeTo, Prod.mk.injEq] at h
          obtain ⟨-, rfl, rfl⟩ := h
          exact .escapedBreak hs (by simpa [or_comm] using newline) rfl
        · rename_i newline
          rw [map_writeTo, Prod.mk.injEq] at h
          obtain ⟨-, rfl, rfl⟩ := h
          exact .escaped _ hs (by simpa [and_comm] using newline) rfl
  | escapedNumerals =>
      simp only [step, hs] at h
      split at h
      · rename_i digit
        split at h
        · contradiction
        · split at h
          · rw [map_writeTo, Prod.mk.injEq] at h
            obtain ⟨-, rfl, rfl⟩ := h
            exact .lastDigit _ hs digit rfl rfl
          · cases h
            exact .digit hs digit rfl rfl
      · rw [map_writeTo, Prod.mk.injEq] at h
        obtain ⟨-, rfl, rfl⟩ := h
        exact .endDigits _ hs rfl rfl
  | escapedLineEndings =>
      simp only [step, hs] at h
      split at h <;> cases h <;> exact .endBreak _ hs rfl rfl

theorem Passed.written {keep : Bool} (passed : Passed c v v' keep) : v.written <+: v'.written := by
  cases passed with
  | plain _ _ h => subst h; exact List.prefix_append _ _
  | backslash _ _ h => subst h; exact List.prefix_rfl
  | firstDigit _ _ _ h => rw [h]
  | escapedBreak _ _ h => subst h; exact List.prefix_append _ _
  | escaped _ _ _ h => subst h; exact List.prefix_append _ _
  | digit _ _ _ h => rw [h]
  | lastDigit _ _ _ _ h => rw [h]; exact List.prefix_append _ _
  | endDigits _ _ _ h => rw [h]; exact List.prefix_append _ _
  | endBreak _ _ _ h => rw [h]

theorem loop_written (h : loop dest v source = .ok out) : v.written <+: out := by
  fun_induction loop dest v source with
  | case1 v state =>
      rw [map_write] at h
      rw [← h.2]
      exact List.prefix_append _ _
  | case2 v state => cases h; exact List.prefix_rfl
  | case3 v state => cases h; exact List.prefix_rfl
  | case4 v state => contradiction
  | case5 v c rest panic hs => contradiction
  | case6 v c rest v' hs ih => exact (step_passed hs).written.trans (ih h)
  | case7 v c rest v' hs ih => exact (step_passed hs).written.trans (ih h)

theorem loop_cons_ok (h : loop dest v (c :: source) = .ok out) :
    ∃ v' keep, Passed c v v' keep ∧ loop dest v' (if keep then source else c :: source) = .ok out := by
  rw [loop] at h
  split at h
  · contradiction
  · exact ⟨_, true, step_passed ‹_›, h⟩
  · exact ⟨_, false, step_passed ‹_›, h⟩

theorem loop_break (normal : v.state = .normal) (newline : isNewline c = true)
    (h : loop dest v (c :: source) = .ok out) : ∃ v', v'.state = .normal ∧
      v'.written = v.written ++ [ch '\n'] ∧ loop dest v' source = .ok out := by
  obtain ⟨v', keep, passed, rest⟩ := loop_cons_ok h
  cases passed with
  | plain _ _ hv =>
      refine ⟨v', by rw [hv]; exact normal, ?_, rest⟩
      rw [hv]
      rcases (by simpa using newline : c = 10 ∨ c = 13) with rfl | rfl <;> rfl
  | backslash _ hc => subst hc; contradiction
  | firstDigit hs | escapedBreak hs | escaped _ hs | digit hs | lastDigit _ hs | endDigits _ hs
  | endBreak _ hs => rw [normal] at hs; contradiction

theorem loop_ahead {front : List UInt8} {k : Nat} (normal : v.state = .normal)
    (written : v.written = front ++ List.replicate (k + 1) (ch '\n')) :
    loop dest v source ≠ .ok (front ++ normalizeBreaks source) := by
  intro h
  fun_induction normalizeBreaks source generalizing v front k with
  | case1 =>
      simp only [loop, normal, Except.ok.injEq, List.append_nil] at h
      simp [h] at written
  | case2 c rest newline ih =>
      obtain ⟨v', normal', written', h'⟩ := loop_break normal newline h
      have one : v'.written = (front ++ [ch '\n']) ++ List.replicate (k + 1) (ch '\n') := by
        rw [written', written]
        simp [← List.replicate_succ', List.replicate_succ]
      by_cases pair : rest.head?.any (fun d => isNewline d && d != c) = true
      · obtain ⟨d, rest, rfl, newline', -⟩ := Lexer.cons_of_pair pair
        obtain ⟨v'', normal'', written'', h''⟩ := loop_break normal' newline' h'
        rw [Lexer.afterBreak, if_pos pair, List.tail_cons] at ih h''
        refine @ih v'' (front ++ [ch '\n']) (k + 1) normal'' ?_ (by simpa using h'')
        rw [written'', one, List.append_assoc, ← List.replicate_succ']
      · rw [Lexer.afterBreak, if_neg pair] at ih h'
        exact @ih v' (front ++ [ch '\n']) k normal' one (by simpa using h')
  | case3 c rest other ih =>
      have extends_ := loop_written h
      rw [written, List.replicate_succ, List.prefix_append_right_inj, List.cons_prefix_cons] at extends_
      rw [← extends_.1] at other
      exact other rfl

/-- How much of the raw value has to be outstanding for the decoder never to catch up. -/
def owes : State → Nat
  | .normal | .escaped | .escapedLineEndings => 1
  | .escapedNumerals => 2

theorem owed_cons {written owed tail : List UInt8} {b : UInt8} (some : 0 < owed.length)
    (h : written ++ [b] <+: written ++ (owed ++ tail)) : ∃ owed', owed = b :: owed' := by
  cases owed with
  | nil => contradiction
  | cons a owed =>
      rw [List.prefix_append_right_inj, List.cons_append, List.cons_prefix_cons] at h
      exact ⟨owed, by rw [h.1]⟩

theorem not_newline_of_digit (digit : isDigit c = true) : isNewline c = false := by
  rw [Bool.eq_false_iff]
  intro newline
  rcases (by simpa using newline : c = 10 ∨ c = 13) with rfl | rfl <;> contradiction

/-- Once less is written than the raw value has, and no line break of it, the two stay different. -/
theorem loop_behind {owed : List UInt8} (state : v.state ≠ .escapedLineEndings)
    (owing : owes v.state ≤ owed.length) (plain : ∀ c ∈ owed, isNewline c = false) :
    loop dest v source ≠ .ok (v.written ++ (owed ++ normalizeBreaks source)) := by
  intro h
  fun_induction loop dest v source generalizing owed with
  | case1 v numerals =>
      rw [map_write] at h
      have same := congrArg List.length h.2
      simp only [numerals, owes] at owing
      simp [normalizeBreaks] at same
      omega
  | case2 v normal =>
      cases owed with
      | nil => simp [normal, owes] at owing
      | cons a owed => simp at h
  | case3 v lineEndings => exact state lineEndings
  | case4 v escaped => contradiction
  | case5 v c rest panic hs => contradiction
  | case6 v c rest v' hs ih =>
      have wrote {b : UInt8} (hv : v'.written = v.written ++ [b]) :
          ∃ owed', owed = b :: owed' :=
        owed_cons (lt_of_lt_of_le (by cases v.state <;> decide) owing) (hv ▸ loop_written h)
      -- the byte `c` joins what is owed, and a byte that is written leaves it
      have later {owed' : List UInt8} (other : isNewline c = false)
          (state' : v'.state ≠ .escapedLineEndings) (owing' : owes v'.state ≤ (owed' ++ [c]).length)
          (plain' : ∀ d ∈ owed', isNewline d = false)
          (same : v.written ++ (owed ++ [c]) = v'.written ++ (owed' ++ [c])) : False := by
        refine @ih (owed' ++ [c]) state' owing' ?_ ?_
        · intro d hd
          rcases List.mem_append.mp hd with hd | hd
          · exact plain' d hd
          · rw [List.mem_singleton.mp hd]
            exact other
        · rw [normalizeBreaks_other other] at h
          rw [h, ← List.append_assoc v'.written, ← same]
          simp
      cases step_passed hs with
      | plain normal escape hv =>
          obtain ⟨owed', rfl⟩ := wrote (by rw [hv])
          have other : isNewline c = false := by
            have first := plain _ List.mem_cons_self
            rw [Bool.eq_false_iff]
            intro newline
            rcases (by simpa using newline : c = 10 ∨ c = 13) with rfl | rfl <;> contradiction
          have notReturn : c ≠ ch '\r' := by rintro rfl; contradiction
          rw [if_neg notReturn] at hv plain later
          refine later other (by rw [hv]; exact state) (by rw [hv]; simp [normal, owes])
            (fun d hd => plain d (List.mem_cons_of_mem _ hd)) (by rw [hv]; simp)
      | backslash normal hc hv =>
          refine later (by rw [hc]; rfl) (by rw [hv]; simp) (by rw [hv]; simp [owes]) plain (by rw [hv])
      | firstDigit escaped digit numerals hw =>
          rw [escaped] at owing
          refine later (not_newline_of_digit digit) (by rw [numerals]; decide) ?_ plain (by rw [hw])
          rw [numerals, List.length_append]
          exact Nat.add_le_add_right owing 1
      | escapedBreak escaped newline hv =>
          obtain ⟨owed', rfl⟩ := wrote (by rw [hv])
          have := plain _ List.mem_cons_self
          contradiction
      | escaped b escaped other hv =>
          obtain ⟨owed', rfl⟩ := wrote (by rw [hv])
          refine later other (by rw [hv]; simp) (by rw [hv]; simp [owes])
            (fun d hd => plain d (List.mem_cons_of_mem _ hd)) (by rw [hv]; simp)
      | digit numerals digit numerals' hw =>
          refine later (not_newline_of_digit digit) (by rw [numerals']; decide) ?_ plain (by rw [hw])
          rw [numerals] at owing
          rw [numerals', List.length_append]
          exact owing.trans (Nat.le_succ _)
      | lastDigit b numerals digit normal hw =>
          obtain ⟨owed', rfl⟩ := wrote hw
          refine later (not_newline_of_digit digit) (by rw [normal]; decide) (by rw [normal]; simp [owes])
            (fun d hd => plain d (List.mem_cons_of_mem _ hd)) (by rw [hw]; simp)
      | endBreak _ lineEndings => exact state lineEndings
  | case7 v c rest v' hs ih =>
      cases step_passed hs with
      | endDigits b numerals normal hw =>
          rw [numerals] at owing
          obtain ⟨owed', rfl⟩ := owed_cons (lt_of_lt_of_le (by decide) owing) (hw ▸ loop_written h)
          refine @ih owed' (by rw [normal]; decide) (by rw [normal]; exact Nat.le_of_succ_le_succ owing)
            (fun d hd => plain d (List.mem_cons_of_mem _ hd)) ?_
          rw [h, hw]
          simp
      | endBreak _ lineEndings => exact state lineEndings

theorem loop_eq_iff (normal : v.state = .normal) (room : v.written.length + source.length ≤ dest) :
    loop dest v source = .ok (v.written ++ normalizeBreaks source) ↔ Plain source := by
  induction source generalizing v with
  | nil =>
      have plain : Plain [] := ⟨by simp, by simp, by simp⟩
      simp [loop, normal, normalizeBreaks, plain]
  | cons c rest ih =>
      rw [List.length_cons] at room
      by_cases escape : c = ch '\\'
      · subst escape
        refine iff_of_false ?_ (fun h => (plain_cons.mp h).1 rfl)
        rw [loop_escape normal, normalizeBreaks_other rfl]
        exact @loop_behind dest { v with state := .escaped } rest [ch '\\'] (by simp) le_rfl (by simp)
      · have once := @loop_normal_byte dest v c rest normal (by omega) escape
        by_cases newline : isNewline c = true
        · have feed : (if c = ch '\r' then ch '\n' else c) = ch '\n' := by
            rcases (by simpa using newline : c = 10 ∨ c = 13) with rfl | rfl <;> rfl
          rw [once, feed, normalizeBreaks_newline newline]
          by_cases pair : rest.head?.any (fun d => isNewline d && d != c) = true
          · refine iff_of_false ?_ (fun h => (plain_cons.mp h).2.1 ⟨newline, pair⟩)
            obtain ⟨d, rest, rfl, newline', -⟩ := Lexer.cons_of_pair pair
            rw [Lexer.afterBreak, if_pos pair, List.tail_cons]
            intro h
            obtain ⟨w, normal', written, h'⟩ := loop_break (by exact normal) newline' h
            exact @loop_ahead dest w rest (v.written ++ [ch '\n']) 0 normal' written (by simpa using h')
          · rw [Lexer.afterBreak, if_neg pair, plain_cons]
            simp only [escape, pair, Bool.false_eq_true, and_false, not_false_eq_true, true_and, ne_eq]
            rw [← @ih { v with written := v.written ++ [ch '\n'] } normal (by simp; omega)]
            simp
        · have other : isNewline c = false := by simpa using newline
          have notReturn : c ≠ ch '\r' := by rintro rfl; contradiction
          rw [once, if_neg notReturn, normalizeBreaks_other other, plain_cons]
          simp only [escape, newline, Bool.false_eq_true, false_and, not_false_eq_true, true_and, ne_eq]
          rw [← @ih { v with written := v.written ++ [c] } normal (by simp; omega)]
          simp

end ParseString

theorem parseString_longBracket_iff (level : Nat) (body : List UInt8) :
    parseString (longBracket level body) (longBracket level body).length = .ok (rawValue body) ↔
      Plain body := by
  have length : body.length ≤ (longBracket level body).length := by
    simp [longBracket]
    omega
  rw [parseString_longBracket level body le_rfl]
  cases body with
  | nil => exact @ParseString.loop_eq_iff (longBracket level []).length {} [] rfl (Nat.zero_le _)
  | cons c body =>
      rw [List.length_cons] at length
      by_cases newline : isNewline c = true
      · rw [List.head?_cons, Option.any_some, if_pos newline, List.tail_cons, rawValue, dropBreak,
          if_pos newline]
        by_cases pair : body.head?.any (fun d => isNewline d && d != c) = true
        · refine iff_of_false ?_ (fun h => (plain_cons.mp h).2.1 ⟨newline, pair⟩)
          obtain ⟨d, body, rfl, newline', -⟩ := Lexer.cons_of_pair pair
          rw [Lexer.afterBreak, if_pos pair, List.tail_cons]
          intro h
          obtain ⟨w, normal, written, h'⟩ := ParseString.loop_break rfl newline' h
          exact @ParseString.loop_ahead _ w body [] 0 normal written h'
        · have escape : c ≠ ch '\\' := by rintro rfl; contradiction
          rw [Lexer.afterBreak, if_neg pair, plain_cons]
          simp only [escape, pair, Bool.false_eq_true, and_false, not_false_eq_true, true_and, ne_eq]
          exact @ParseString.loop_eq_iff (longBracket level (c :: body)).length {} body rfl
            (by simp; omega)
      · rw [List.head?_cons, Option.any_some, if_neg newline, rawValue, dropBreak, if_neg newline]
        exact @ParseString.loop_eq_iff _ {} (c :: body) rfl (by simpa using length)

/-! ## Tokens -/

/-- A long string token has the brackets it should have, and `parseString` gives the value of
`read_long_string` exactly when its body has no backslash, no CRLF and no LFCR. -/
theorem parseString_long_iff (str2d : List UInt8 → Bool) {buffer chunkName : List UInt8}
    {self self' : Lexer} {token : Token} (reaches : Lexer.Reaches buffer chunkName self)
    (fits : buffer.length ≤ (Lexer.init buffer chunkName).maxLexicalElementSize)
    (next : self.next = .token self' token) (string : token.id = .string)
    (first : (token.slice buffer).head? = some (ch '[')) :
    ∃ level body lexeme, token.slice buffer = longBracket level body ∧
      llex str2d { rest := buffer.drop self.index, linenumber := self.lineNumber } = .ok lexeme ∧
      lexeme.start = buffer.drop token.start ∧ lexeme.ls.rest = buffer.drop token.stop ∧
      lexeme.ts = some (rawValue body) ∧
      (parseString (token.slice buffer) (token.slice buffer).length = .ok (rawValue body) ↔
        Plain body) := by
  obtain ⟨defaults, bound, rfl⟩ := reaches.defaults fits
  obtain ⟨lexeme, ls₀, ok, code, le, bound', start, rest, start₀, empty, reads⟩ :=
    Lexer.next_string str2d defaults bound next string
  rcases reads with ⟨d, rest₀, hr, quote, -⟩ | ⟨rest₀, hr, long, read, ts⟩
  · have head : self.buffer[token.start]? = some d := by
      rw [← List.head?_drop, ← start₀, hr, List.head?_cons]
    rw [Token.slice, List.head?_drop, List.getElem?_take] at first
    split at first
    · rw [head] at first
      rcases quote with rfl | rfl <;> simp at first
    · contradiction
  · obtain ⟨level, body, whole, value⟩ := readsString_long hr empty long read ts
    have slice : token.slice self.buffer = longBracket level body := by
      refine Token.slice_eq le bound' ?_
      rw [← start₀, ← rest, whole]
    refine ⟨level, body, lexeme, slice, ok, start, rest, value, ?_⟩
    rw [slice]
    exact parseString_longBracket_iff level body

theorem parseString_long_iff_sample :
    let buffer := bytes "[=[\nx]]\r]=]"
    ∃ level body, buffer = longBracket level body ∧
      (parseString buffer 11 = .ok (rawValue body) ↔ Plain body) := by
  intro buffer
  obtain ⟨level, body, -, slice, -, -, -, -, iff⟩ :=
    @parseString_long_iff (fun _ => true) buffer [] (Lexer.init buffer [])
      { Lexer.init buffer [] with index := 11, lineNumber := 3 }
      { id := .string, start := 0, stop := 11, lineNumber := 3, char := none }
      .init (by decide) (by decide +kernel) rfl (by decide)
  exact ⟨level, body, slice, iff⟩

theorem parseString_long_backslash :
    ¬∀ (buffer : List UInt8) (self self' : Lexer) (token : Token) (level : Nat) (body : List UInt8),
      Lexer.Reaches buffer [] self →
      buffer.length ≤ (Lexer.init buffer []).maxLexicalElementSize →
      self.next = .token self' token → token.id = .string →
      token.slice buffer = longBracket level body →
      parseString (token.slice buffer) (token.slice buffer).length = .ok (rawValue body) := by
  intro h
  have bad := h (bytes "[[\\]]") (Lexer.init (bytes "[[\\]]") [])
    { Lexer.init (bytes "[[\\]]") [] with index := 5 }
    { id := .string, start := 0, stop := 5, lineNumber := 1, char := none } 0 [ch '\\']
    .init (by decide) (by decide +kernel) rfl (by decide)
  have panics : parseString (bytes "[[\\]]") 5 = .error .unreachable := by decide +kernel
  cases panics.symm.trans bad

end Zua.Lex
