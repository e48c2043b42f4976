import Zua.Lex.Tiling

/-!
# Line numbers

The lexer counts line breaks with the index of the last line ending, which is local to a call. A token never ends
between the two bytes of a pair, so every call starts with the count of all bytes before it.
-/

namespace Zua.Lex

-- a carriage return and a line feed next to each other are one break
def breaks : List UInt8 → Nat
  | [] => 0
  | [c] => if isNewline c then 1 else 0
  | c :: d :: rest =>
      if isNewline c then
        if isNewline d ∧ c ≠ d then breaks rest + 1 else breaks (d :: rest) + 1
      else breaks (d :: rest)

-- the breaks so far and the line ending before, when it may be the first of a pair
def tally (count : Nat × Option UInt8) (c : UInt8) : Nat × Option UInt8 :=
  if isNewline c then
    if count.2.any (· != c) then (count.1, none) else (count.1 + 1, some c)
  else (count.1, none)

theorem tally_plain (count : Nat × Option UInt8) {c : UInt8} (plain : isNewline c = false) :
    tally count c = (count.1, none) := by
  unfold tally
  rw [plain]
  rfl

theorem tally_first (n : Nat) {c : UInt8} (newline : isNewline c = true) : tally (n, none) c = (n + 1, some c) := by
  unfold tally
  rw [newline]
  rfl

-- a byte that does not complete a pair is counted as after any other byte
theorem tally_unpaired (n : Nat) {c d : UInt8} (other : ¬(isNewline d = true ∧ c ≠ d)) :
    tally (n, some c) d = tally (n, none) d := by
  unfold tally
  by_cases newline : isNewline d = true
  · obtain rfl : c = d := not_not.mp fun different => other ⟨newline, different⟩
    simp
  · rw [if_neg newline, if_neg newline]

theorem foldl_tally (l : List UInt8) (n : Nat) : (l.foldl tally (n, none)).1 = n + breaks l := by
  induction l using breaks.induct generalizing n with
  | case1 => rfl
  | case2 c newline =>
      rw [List.foldl_cons, tally_first n newline, breaks, if_pos newline]
      rfl
  | case3 c plain =>
      rw [List.foldl_cons, tally_plain _ ((Bool.not_eq_true _).mp plain), breaks, if_neg plain]
      rfl
  | case4 c d rest newline pair ih =>
      have second : tally (n + 1, some c) d = (n + 1, none) := by
        unfold tally
        rw [if_pos pair.1, if_pos (by simpa using pair.2)]
      rw [List.foldl_cons, List.foldl_cons, tally_first n newline, second, ih, breaks, if_pos newline, if_pos pair]
      omega
  | case5 c d rest newline alone ih =>
      rw [List.foldl_cons, tally_first n newline, List.foldl_cons, tally_unpaired _ alone, ← List.foldl_cons, ih, breaks,
        if_pos newline, if_neg alone]
      omega
  | case6 c d rest plain ih =>
      rw [List.foldl_cons, tally_plain _ ((Bool.not_eq_true _).mp plain), ih, breaks, if_neg plain]

namespace Lexer

/-! ## What one step does to the line number -/

-- the states whose tokens end before the byte that ends them
def endsBefore : State → Bool
  | .identifier | .dash | .longStringStart | .dot | .concat | .number | .numberExponentStart | .numberExponent
  | .numberHexStart | .numberHex | .compoundEqual => true
  | _ => false

inductive Moves (self : Lexer) (v : Vars) (c : UInt8) : Flow → Prop
  | byte {w : Vars} : isNewline c = false → w.lastLineEndingIndex = v.lastLineEndingIndex →
      w.result.lineNumber = v.result.lineNumber ∨ w.result.lineNumber = self.lineNumber → Moves self v c (.cont self w)
  | line {w : Vars} : isNewline c = true → w.lastLineEndingIndex = v.lastLineEndingIndex →
      endsBefore w.state = false → Moves self v c (self.incrementLineNumber w)
  | back {w : Vars} : self.index ≠ 0 → w.lastLineEndingIndex = v.lastLineEndingIndex →
      w.result.lineNumber = v.result.lineNumber → endsBefore w.state = false →
      Moves self v c (.cont { self with index := self.index - 1 } w)
  | finish {w : Vars} : endsBefore v.state = true → w.result.lineNumber = v.result.lineNumber →
      Moves self v c (.done self w)
  | finishInc {w : Vars} : isNewline c = false → w.result.lineNumber = v.result.lineNumber →
      Moves self v c (.done { self with index := self.index + 1 } w)
  | fail {err : LexError} {token : Token} {id : Token.Id} : err ≠ .chunkHasTooManyLines →
      Moves self v c (self.reportLexError err token id)
  | failInc {err : LexError} {token : Token} {id : Token.Id} : err ≠ .chunkHasTooManyLines →
      Moves self v c (self.reportLexErrorInc err token id)
  | trap : Moves self v c .trap

theorem Moves.ite {self : Lexer} {v : Vars} {c : UInt8} {p : Prop} [Decidable p] {A B : Flow}
    (yes : p → Moves self v c A) (no : ¬p → Moves self v c B) : Moves self v c (if p then A else B) := by
  split
  · exact yes ‹_›
  · exact no ‹_›

theorem Moves.maybe {self : Lexer} {v w : Vars} {c : UInt8} (last : w.lastLineEndingIndex = v.lastLineEndingIndex)
    (after : endsBefore w.state = false) : Moves self v c (self.maybeIncrementLineNumber w c) := by
  unfold maybeIncrementLineNumber
  refine .ite (fun newline => .line newline last after) fun plain => ?_
  exact .byte ((Bool.not_eq_true _).mp plain) last (.inr rfl)

theorem step_plain (self : Lexer) (v : Vars) {c : UInt8} (plain : isNewline c = false) :
    Moves self v c (self.step v c) := by
  have other : ¬(c = ch '\n' ∨ c = ch '\r') := fun h => by
    rw [newline_of h] at plain
    cases plain
  unfold step
  cases hs : v.state <;> dsimp only
  case compoundEqual =>
    unfold stepCompoundEqual
    refine .ite (fun _ => .ite (fun _ => .trap) fun _ => ?_) fun _ => .finish (by rw [hs]; rfl) rfl
    cases self.buffer[self.index - 1]? with
    | none => exact .trap
    | some prev =>
        dsimp only
        repeat' refine .ite (fun _ => .finishInc plain rfl) fun _ => ?_
        exact .trap
  all_goals first
    | unfold stepStart
    | unfold stepIdentifier
    | unfold stepStringLiteral
    | unfold stepStringLiteralBackslash
    | unfold stepStringLiteralBackslashLineEndings
    | unfold stepDash
    | unfold stepCommentStart
    | unfold stepLongStart
    | unfold stepLong
    | unfold stepLongPossibleEnd
    | unfold stepShortComment
    | unfold stepDot
    | unfold stepConcat
    | unfold stepNumber
    | unfold stepNumberHex
    | unfold stepNumberExponentStart
    | unfold stepNumberExponent
  all_goals try unfold backtrack
  all_goals repeat' refine .ite (fun _ => ?_) fun _ => ?_
  all_goals first
    | exact .byte plain rfl (.inl rfl)
    | exact .byte plain rfl (.inr rfl)
    | exact .finish (by rw [hs]; rfl) rfl
    | exact .finishInc plain rfl
    | exact .fail LexError.noConfusion
    | exact .failInc LexError.noConfusion
    | exact .trap
    | exact .back ‹_› rfl rfl rfl
    | exact (other ‹_›).elim
    | exact (other (Or.symm ‹_›)).elim
    | exact absurd hs ‹_›
    | exact Bool.noConfusion (plain.symm.trans ‹_›)

theorem step_newline (self : Lexer) (v : Vars) {c : UInt8} (newline : isNewline c = true) :
    Moves self v c (self.step v c) := by
  have either : c = ch '\n' ∨ c = ch '\r' := by simpa using newline
  unfold step
  cases hs : v.state <;> dsimp only
  case compoundEqual =>
    unfold stepCompoundEqual
    rcases either with rfl | rfl
    all_goals exact .ite (fun h => absurd h (by decide)) fun _ => .finish (by rw [hs]; rfl) rfl
  all_goals first
    | unfold stepStart
    | unfold stepIdentifier
    | unfold stepStringLiteral
    | unfold stepStringLiteralBackslash
    | unfold stepStringLiteralBackslashLineEndings
    | unfold stepDash
    | unfold stepCommentStart
    | unfold stepLongStart
    | unfold stepLong
    | unfold stepLongPossibleEnd
    | unfold stepShortComment
    | unfold stepDot
    | unfold stepConcat
    | unfold stepNumber
    | unfold stepNumberHex
    | unfold stepNumberExponentStart
    | unfold stepNumberExponent
  all_goals rcases either with rfl | rfl
  -- the tests of the byte are decided
  all_goals repeat' first
    | refine .ite (fun h => absurd h (by decide)) fun _ => ?_
    | refine .ite (fun h => absurd h.2 (by decide)) fun _ => ?_
    | refine .ite (fun _ => ?_) fun h => absurd (by decide) h
    | refine .ite (fun _ => ?_) fun _ => ?_
  all_goals first
    | exact .line newline rfl rfl
    | exact .line newline rfl (by rw [hs]; rfl)
    | exact .finish (by rw [hs]; rfl) rfl
    | exact .fail LexError.noConfusion
    | exact .failInc LexError.noConfusion
    | exact absurd hs ‹_›

theorem step_moves (self : Lexer) (v : Vars) (c : UInt8) : Moves self v c (self.step v c) := by
  cases kind : isNewline c with
  | true => exact step_newline self v kind
  | false => exact step_plain self v kind

/-! ## The count -/

-- the breaks before `i`, and the line ending there that waits for its pair
def count (self : Lexer) (i : Nat) : Nat × Option UInt8 := (self.buffer.take i).foldl tally (0, none)

theorem count_breaks (self : Lexer) (i : Nat) : (self.count i).1 = breaks (self.buffer.take i) := by
  rw [count, foldl_tally, Nat.zero_add]

theorem count_succ {self : Lexer} {i : Nat} {c : UInt8} (here : self.buffer[i]? = some c) :
    self.count (i + 1) = tally (self.count i) c := by
  rw [count, List.take_add_one, here, List.foldl_append]
  rfl

-- no line ending before `i` made the line number reach the limit
def Below (self : Lexer) (i : Nat) : Prop :=
  ∀ j < i, ∀ c, self.buffer[j]? = some c → isNewline c = true → 1 + breaks (self.buffer.take (j + 1)) < self.maxLines

theorem Below.succ {self : Lexer} {i : Nat} {c : UInt8} (below : self.Below i) (here : self.buffer[i]? = some c)
    (next : isNewline c = true → 1 + breaks (self.buffer.take (i + 1)) < self.maxLines) : self.Below (i + 1) := by
  intro j less d found newline
  rcases Nat.lt_succ_iff_lt_or_eq.mp less with before | rfl
  · exact below j before d found newline
  · cases here.symm.trans found
    exact next newline

end Lexer

open Lexer

structure Lined (lexer : Lexer) (v : Vars) : Prop where
  line : lexer.lineNumber = 1 + (lexer.count lexer.index).1
  result : v.result.lineNumber = lexer.lineNumber
  pending : lexer.index < lexer.buffer.length → ∀ b, (lexer.count lexer.index).2 = some b ↔
    ∃ i, v.lastLineEndingIndex = some i ∧ i + 1 = lexer.index ∧ lexer.buffer[i]? = some b
  settled : endsBefore v.state = true → (lexer.count lexer.index).2 = none
  below : lexer.Below lexer.index

-- the lexer between two calls
structure Between (lexer : Lexer) : Prop where
  line : lexer.lineNumber = 1 + (lexer.count lexer.index).1
  settled : lexer.index < lexer.buffer.length → (lexer.count lexer.index).2 = none
  below : lexer.Below lexer.index

/-- The line ending at `i` is the first with which the line number reaches the limit. -/
structure FirstOver (lexer : Lexer) (i : Nat) : Prop where
  ending : ∃ c, lexer.buffer[i]? = some c ∧ isNewline c = true
  reached : lexer.maxLines ≤ 1 + breaks (lexer.buffer.take (i + 1))
  first : lexer.Below i

-- an error at a byte may have passed over it
def Failed (self : Lexer) (index : Nat) (err : LexError) : Prop :=
  if err = .chunkHasTooManyLines then FirstOver self index else self.Below (index - 1)

def Flow.Lined (self : Lexer) : Flow → Prop
  | .cont lexer v => Lex.Lined { lexer with index := lexer.index + 1 } v
  | .done lexer v => Between lexer ∧ v.result.lineNumber = lexer.lineNumber
  | .fail lexer err => Failed self lexer.index err
  | .trap => True

variable {self : Lexer} {v w : Vars} {c : UInt8}

theorem Lexer.Below.mono {i j : Nat} (below : self.Below j) (le : i ≤ j) : self.Below i :=
  fun k less => below k (less.trans_le le)

theorem Failed.other {index : Nat} {err : LexError} (other : err ≠ .chunkHasTooManyLines)
    (below : self.Below (index - 1)) : Failed self index err := by
  unfold Failed
  rw [if_neg other]
  exact below

theorem Failed.of {index lineNumber i : Nat} {err : LexError} (failed : Failed { self with index, lineNumber } i err) :
    Failed self i err := by
  unfold Failed at failed ⊢
  split at failed
  · rw [if_pos ‹_›]
    exact ⟨failed.ending, failed.reached, failed.first⟩
  · rw [if_neg ‹_›]
    exact failed

theorem Lined.plain (lined : Lined self v) (here : self.buffer[self.index]? = some c) (plain : isNewline c = false) :
    self.lineNumber = 1 + (self.count (self.index + 1)).1 ∧ (self.count (self.index + 1)).2 = none ∧
      self.Below (self.index + 1) := by
  rw [count_succ here, tally_plain _ plain]
  refine ⟨lined.line, rfl, lined.below.succ here fun newline => ?_⟩
  cases plain.symm.trans newline

theorem Lined.pair (lined : Lined self v) (here : self.buffer[self.index]? = some c) (newline : isNewline c = true)
    (last : ∀ i, v.lastLineEndingIndex = some i → i < self.index ∧ ∃ b, self.buffer[i]? = some b ∧ isNewline b = true) :
    self.currentIndexFormsLineEndingPair v.lastLineEndingIndex =
      some ((self.count self.index).2.any (· != c)) := by
  have inside := (List.getElem?_eq_some_iff.mp here).1
  have pending := lined.pending inside
  cases hl : v.lastLineEndingIndex with
  | none =>
      rw [hl] at pending
      cases hc : (self.count self.index).2 with
      | none => rfl
      | some b =>
          obtain ⟨i, wrong, -⟩ := (pending b).mp hc
          cases wrong
  | some i =>
      obtain ⟨less, b, byte, ends⟩ := last i hl
      rw [hl] at pending
      unfold currentIndexFormsLineEndingPair
      dsimp only
      rw [if_neg (Nat.ne_zero_of_lt less)]
      by_cases before : i = self.index - 1
      · have waits := (pending b).mpr ⟨i, rfl, by omega, byte⟩
        rw [if_neg (not_not_intro before), here, byte, waits]
        dsimp only
        rw [newline, ends]
        rfl
      · rw [if_pos before]
        cases hc : (self.count self.index).2 with
        | none => rfl
        | some d =>
            obtain ⟨j, same, next, -⟩ := (pending d).mp hc
            cases same
            omega

theorem Lined.increment (lined : Lined self v) (here : self.buffer[self.index]? = some c) (newline : isNewline c = true)
    (last : ∀ i, v.lastLineEndingIndex = some i → i < self.index ∧ ∃ b, self.buffer[i]? = some b ∧ isNewline b = true)
    (same : w.lastLineEndingIndex = v.lastLineEndingIndex) (after : endsBefore w.state = false) :
    (self.incrementLineNumber w).Lined self := by
  have counted : self.count (self.index + 1) = tally (self.count self.index) c := count_succ here
  unfold tally at counted
  rw [if_pos newline] at counted
  -- the new line number and last line ending agree with the count
  have next (n : Nat) (i : Option Nat) (line : n = 1 + (self.count (self.index + 1)).1)
      (pending : ∀ b, (self.count (self.index + 1)).2 = some b ↔
        ∃ j, i = some j ∧ j + 1 = self.index + 1 ∧ self.buffer[j]? = some b) (few : ¬self.maxLines ≤ n) :
      Flow.Lined self (.cont { self with lineNumber := n }
        { w with lastLineEndingIndex := i, result := { w.result with lineNumber := n } }) := by
    refine ⟨line, rfl, fun _ => pending, fun ends => Bool.noConfusion (after.symm.trans ends), ?_⟩
    refine lined.below.succ here fun _ => ?_
    rw [← count_breaks, ← line]
    exact Nat.lt_of_not_le few
  have stop (n : Nat) (token : Token) (line : n = 1 + (self.count (self.index + 1)).1) (many : self.maxLines ≤ n) :
      (({ self with lineNumber := n } : Lexer).reportLexError .chunkHasTooManyLines token .eof).Lined self := by
    show Failed _ _ .chunkHasTooManyLines
    unfold Failed
    rw [if_pos rfl]
    rw [count_breaks] at line
    exact ⟨⟨c, here, newline⟩, line ▸ many, lined.below⟩
  unfold incrementLineNumber
  rw [same, lined.pair here newline last]
  cases pair : (self.count self.index).2.any (· != c) with
  | true =>
      rw [pair, if_pos rfl] at counted
      have line : self.lineNumber = 1 + (self.count (self.index + 1)).1 := by rw [counted, lined.line]
      simp only [if_true]
      split
      · exact stop _ _ line ‹_›
      · refine next _ _ line (fun b => ?_) ‹_›
        rw [counted]
        exact iff_of_false (fun h => by cases h) fun h => by obtain ⟨j, h, -⟩ := h; cases h
  | false =>
      rw [pair, if_neg Bool.false_ne_true] at counted
      have line : self.lineNumber + 1 = 1 + (self.count (self.index + 1)).1 := by rw [counted, lined.line, Nat.add_assoc]
      simp only [Bool.false_eq_true, if_false]
      split
      · exact stop _ _ line ‹_›
      · refine next _ _ line (fun b => ?_) ‹_›
        rw [counted]
        constructor
        · intro h
          cases h
          exact ⟨self.index, rfl, rfl, here⟩
        · intro h
          obtain ⟨j, h, -, byte⟩ := h
          cases h
          cases here.symm.trans byte
          rfl

theorem Lexer.Moves.lined {flow : Flow} (moves : Moves self v c flow) (lined : Lined self v)
    (here : self.buffer[self.index]? = some c)
    (last : ∀ i, v.lastLineEndingIndex = some i → i < self.index ∧ ∃ b, self.buffer[i]? = some b ∧ isNewline b = true) :
    flow.Lined self := by
  cases moves with
  | @byte w plain same result =>
      obtain ⟨line, none, below⟩ := lined.plain here plain
      refine ⟨line, ?_, fun _ b => ?_, fun _ => none, below⟩
      · rcases result with result | result
        · exact result.trans lined.result
        · exact result
      · refine iff_of_false (fun h => ?_) fun h => ?_
        · cases none.symm.trans h
        · obtain ⟨i, found, next, -⟩ := h
          have := (last i (same ▸ found)).1
          simp only at next
          omega
  | line newline same after => exact lined.increment here newline last same after
  | @back w positive same result after =>
      have back : self.index - 1 + 1 = self.index := Nat.sub_add_cancel (Nat.pos_of_ne_zero positive)
      show Lined { self with index := self.index - 1 + 1 } w
      rw [back]
      exact ⟨lined.line, result.trans lined.result, same ▸ lined.pending,
        fun ends => Bool.noConfusion (after.symm.trans ends), lined.below⟩
  | finish ends result => exact ⟨⟨lined.line, fun _ => lined.settled ends, lined.below⟩, result.trans lined.result⟩
  | finishInc plain result =>
      obtain ⟨line, none, below⟩ := lined.plain here plain
      exact ⟨⟨line, fun _ => none, below⟩, result.trans lined.result⟩
  | fail other => exact .other other (lined.below.mono (Nat.sub_le _ _))
  | failInc other => exact .other other lined.below
  | trap => exact trivial

/-! ## A call -/

def Outcome.Lined (self : Lexer) : Outcome → Prop
  | .token lexer t => Between lexer ∧ t.lineNumber = lexer.lineNumber
  | .error lexer err => Failed self lexer.index err
  | .trap => True

theorem Outcome.Lined.of (self : Lexer) {outcome : Outcome} {index lineNumber : Nat}
    (lined : outcome.Lined { self with index, lineNumber }) : outcome.Lined self := by
  cases outcome with
  | token lexer t => exact lined
  | error lexer err => exact Failed.of lined
  | trap => exact lined

theorem finalize_lined {lexer : Lexer} (between : Between self) (result : v.result.lineNumber = self.lineNumber) :
    (self.finalize v).Lined lexer := by
  unfold finalize
  split
  · cases self.buffer[v.result.start]? with
    | none => exact trivial
    | some c => exact ⟨between, result⟩
  · exact ⟨between, result⟩

theorem Flow.Lined.outcome {flow : Flow} (lined : flow.Lined self) : flow.outcome.Lined self := by
  cases flow with
  | cont lexer w => exact trivial
  | done lexer w => exact finalize_lined lined.1 lined.2
  | fail lexer err => exact lined
  | trap => exact trivial

theorem atEnd_lined (lined : Lined self v) (none : self.buffer[self.index]? = none) : (self.atEnd v).Lined self := by
  have last : self.buffer.length ≤ self.index := List.getElem?_eq_none_iff.mp none
  have done (w : Vars) (result : w.result.lineNumber = v.result.lineNumber) : (Flow.done self w).Lined self :=
    ⟨⟨lined.line, fun less => (Nat.not_lt_of_le last less).elim, lined.below⟩, result.trans lined.result⟩
  have fail (err : LexError) (id : Token.Id) (other : err ≠ .chunkHasTooManyLines) :
      (self.reportLexError err v.result id).Lined self := .other other (lined.below.mono (Nat.sub_le _ _))
  unfold atEnd
  split
  · exact trivial
  · cases v.state <;> dsimp only
    case longStringStart =>
      split
      · exact fail _ _ LexError.noConfusion
      · exact done _ rfl
    case numberHexStart =>
      split
      · exact done _ rfl
      · exact fail _ _ LexError.noConfusion
    case numberExponentStart =>
      split
      · exact done _ rfl
      · exact fail _ _ LexError.noConfusion
    all_goals first
      | exact done _ rfl
      | exact fail _ _ LexError.noConfusion

theorem loop_lined {origin : Nat} (tile : Tile origin self v) (lined : Lined self v) : (self.loop v).Lined self := by
  fun_induction loop self v with
  | case1 self v here => exact (atEnd_lined lined here).outcome
  | case2 self v c here before => exact trivial
  | case3 self v c here before long =>
      exact Failed.other LexError.noConfusion (lined.below.mono (Nat.sub_le _ _))
  | case4 self v c here before long lexer w cont ih =>
      have tiled := step_tiled tile here
      have next := (step_moves self v c).lined lined here tile.last
      rw [cont] at tiled next
      obtain ⟨index, lineNumber, rfl, -⟩ := step_cont cont
      exact Outcome.Lined.of self (ih tiled next)
  | case5 self v c here before long notCont => exact ((step_moves self v c).lined lined here tile.last).outcome

theorem Between.next (between : Between self) (inside : self.index ≤ self.buffer.length) : self.next.Lined self := by
  refine loop_lined (entry_tile inside) ⟨between.line, rfl, fun less b => ?_, fun ends => Bool.noConfusion ends,
    between.below⟩
  rw [between.settled less]
  refine iff_of_false (fun h => by cases h) fun h => ?_
  obtain ⟨i, h, -⟩ := h
  cases h

theorem Calls.between {first lexer : Lexer} {tokens : List Token} (calls : Calls first tokens lexer)
    (start : first.index = 0) (line : first.lineNumber = 1) : Between lexer ∧
      ∀ token ∈ tokens, token.lineNumber = 1 + breaks (first.buffer.take token.stop) := by
  induction calls with
  | nil =>
      have zero : first.count first.index = (0, none) := by
        rw [start]
        rfl
      refine ⟨⟨by rw [line, zero]; rfl, fun _ => by rw [zero], fun j less => ?_⟩, fun token mem => (List.not_mem_nil mem).elim⟩
      rw [start] at less
      exact (Nat.not_lt_zero j less).elim
  | @next tokens lexer lexer' token calls called ih =>
      obtain ⟨index, lineNumber, rfl, bound, -⟩ := calls.settings (start ▸ Nat.zero_le _)
      obtain ⟨between, lines⟩ := ih
      have lined := between.next bound
      have tiled := next_tiled { first with index, lineNumber } bound
      rw [called] at lined tiled
      obtain ⟨index', lineNumber', rfl, -⟩ := loop_token called bound
      refine ⟨lined.1, fun other mem => ?_⟩
      rcases List.mem_append.mp mem with mem | mem
      · exact lines other mem
      · rw [List.mem_singleton.mp mem, lined.2, lined.1.line, count_breaks, tiled.index]

-- the line number starts at one, so from two on it reaches the limit at a line ending
theorem firstOver_iff {lexer : Lexer} (two : 2 ≤ lexer.maxLines) (i : Nat) : FirstOver lexer i ↔
    i < lexer.buffer.length ∧ 1 + breaks (lexer.buffer.take (i + 1)) = lexer.maxLines ∧
      ∀ j < i, 1 + breaks (lexer.buffer.take (j + 1)) < lexer.maxLines := by
  have same {j : Nat} {c : UInt8} (here : lexer.buffer[j]? = some c) (plain : isNewline c = false) :
      breaks (lexer.buffer.take (j + 1)) = breaks (lexer.buffer.take j) := by
    rw [← count_breaks, count_succ here, tally_plain _ plain, count_breaks]
  have le {j : Nat} {c : UInt8} (here : lexer.buffer[j]? = some c) :
      breaks (lexer.buffer.take (j + 1)) ≤ breaks (lexer.buffer.take j) + 1 := by
    rw [← count_breaks, count_succ here, ← count_breaks]
    unfold tally
    split
    · split
      · exact Nat.le_succ _
      · exact le_rfl
    · exact Nat.le_succ _
  constructor
  · rintro ⟨⟨c, here, newline⟩, reached, first⟩
    have inside := (List.getElem?_eq_some_iff.mp here).1
    have few (j : Nat) (le : j ≤ i) : 1 + breaks (lexer.buffer.take j) < lexer.maxLines := by
      induction j with
      | zero => exact two
      | succ j ih =>
          obtain ⟨d, found⟩ : ∃ d, lexer.buffer[j]? = some d := ⟨_, List.getElem?_eq_getElem (by omega)⟩
          cases kind : isNewline d with
          | true => exact first j le d found kind
          | false =>
              rw [same found kind]
              exact ih (Nat.le_of_succ_le le)
    refine ⟨inside, ?_, fun j less => few (j + 1) less⟩
    have := few i le_rfl
    have := le here
    omega
  · rintro ⟨inside, reached, first⟩
    obtain ⟨c, here⟩ : ∃ c, lexer.buffer[i]? = some c := ⟨_, List.getElem?_eq_getElem inside⟩
    refine ⟨⟨c, here, ?_⟩, reached.ge, fun j less d _ _ => first j less⟩
    cases kind : isNewline c with
    | true => rfl
    | false =>
        rw [same here kind] at reached
        cases i with
        | zero =>
            have : breaks (lexer.buffer.take 0) = 0 := rfl
            omega
        | succ j =>
            have := first j (Nat.lt_succ_self j)
            omega

end Zua.Lex
