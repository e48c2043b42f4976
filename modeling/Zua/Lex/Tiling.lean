import Zua.Lex.Lexer

/-!
# Tokens tile the input

A call of `next` skips blanks and complete comments and returns the bytes from there to the new index. Each state of the
loop says what the bytes since `result.start` are.
-/

namespace Zua.Lex

/-! ## What is skipped -/

-- `[=…=[`, `]=…=` and `]=…=]` with `n` signs
def opening (n : Nat) : List UInt8 := ch '[' :: (List.replicate n (ch '=') ++ [ch '['])

def bracket (n : Nat) : List UInt8 := ch ']' :: List.replicate n (ch '=')

def closing (n : Nat) : List UInt8 := bracket n ++ [ch ']']

def isSpace (c : UInt8) : Bool :=
  c == ch ' ' || c == ch '\t' || c == 0x0b || c == 0x0c

def dashes : List UInt8 := [ch '-', ch '-']

/-- What follows the dashes of a short comment: the rest of a line that does not open a long comment. -/
structure Short (body : List UInt8) : Prop where
  line : ∀ b ∈ body, isNewline b = false
  notLong : ∀ n, ¬opening n <+: body

/-- A blank, a line ending or a complete comment; a long comment ends where it is closed first. -/
inductive Skips : List UInt8 → Prop
  | space {c : UInt8} : isSpace c = true → Skips [c]
  | newline {c : UInt8} : isNewline c = true → Skips [c]
  | short (body : List UInt8) {c : UInt8} : Short body → isNewline c = true → Skips (dashes ++ body ++ [c])
  | long {n : Nat} {body : List UInt8} : ¬closing n <:+: body ++ bracket n →
      Skips (dashes ++ opening n ++ (body ++ closing n))

inductive Skipped : List UInt8 → Prop
  | nil : Skipped []
  | more {gap piece : List UInt8} : Skipped gap → Skips piece → Skipped (gap ++ piece)

-- a short comment may also end with the buffer
def Gap (last : Prop) (gap : List UInt8) : Prop :=
  Skipped gap ∨ last ∧ ∃ before body, gap = before ++ (dashes ++ body) ∧ Skipped before ∧ Short body

theorem opening_of_settled {c : UInt8} (rest : List UInt8) {m n : Nat}
    (h : opening m <+: ch '[' :: (List.replicate n (ch '=') ++ c :: rest)) : c = ch '[' ∨ c = ch '=' := by
  replace h := (List.cons_prefix_cons.mp h).2
  induction n generalizing m with
  | zero =>
      cases m with
      | zero => exact .inl (List.cons_prefix_cons.mp h).1.symm
      | succ m => exact .inr (List.cons_prefix_cons.mp h).1.symm
  | succ n ih =>
      cases m with
      | zero => exact absurd (List.cons_prefix_cons.mp h).1 (by decide)
      | succ m => exact ih (List.cons_prefix_cons.mp h).2

theorem opened_line {n : Nat} {b : UInt8} (mem : b ∈ ch '[' :: List.replicate n (ch '=')) : isNewline b = false := by
  rcases List.mem_cons.mp mem with rfl | mem
  · rfl
  · rw [List.eq_of_mem_replicate mem]
    rfl

theorem opened_short (n m : Nat) : ¬opening m <+: ch '[' :: List.replicate n (ch '=') := by
  intro h
  have longer := h.trans (List.prefix_append _ [ch 'x'])
  rcases opening_of_settled [] longer with wrong | wrong
  · exact absurd wrong (by decide)
  · exact absurd wrong (by decide)

theorem bracket_succ (n : Nat) : bracket (n + 1) = bracket n ++ [ch '='] := by
  rw [bracket, List.replicate_succ']
  rfl

theorem bracket_last {before : List UInt8} {c : UInt8} {n : Nat} (h : bracket n <:+ before ++ [c]) :
    n = 0 ∧ c = ch ']' ∨ ∃ m, n = m + 1 ∧ c = ch '=' ∧ bracket m <:+ before := by
  cases n with
  | zero =>
      rcases List.suffix_concat_iff.mp h with h | ⟨t, h, -⟩
      · cases h
      · have same : [] ++ [ch ']'] = t ++ [c] := h
        exact .inl ⟨rfl, (List.cons.inj (List.append_inj' same rfl).2).1.symm⟩
  | succ m =>
      rw [bracket_succ] at h
      rcases List.suffix_concat_iff.mp h with h | ⟨t, h, inside⟩
      · cases h
      · obtain ⟨rfl, same⟩ := List.append_inj' h rfl
        exact .inr ⟨m, rfl, (List.cons.inj same).1.symm, inside⟩

theorem bracket_level {before : List UInt8} {k n : Nat} (h : bracket n <:+ before ++ bracket k) : n = k := by
  induction k generalizing n with
  | zero =>
      rcases bracket_last h with ⟨rfl, -⟩ | ⟨m, -, wrong, -⟩
      · rfl
      · exact absurd wrong (by decide)
  | succ k ih =>
      rw [bracket_succ, ← List.append_assoc] at h
      rcases bracket_last h with ⟨-, wrong⟩ | ⟨m, rfl, -, inside⟩
      · exact absurd wrong (by decide)
      · rw [ih inside]

theorem closing_last {before : List UInt8} {c : UInt8} {n : Nat} (h : closing n <:+ before ++ [c]) :
    c = ch ']' ∧ bracket n <:+ before := by
  rcases List.suffix_concat_iff.mp h with h | ⟨t, h, inside⟩
  · cases h
  · obtain ⟨rfl, same⟩ := List.append_inj' h rfl
    exact ⟨(List.cons.inj same).1.symm, inside⟩

theorem closing_other {body : List UInt8} {c : UInt8} {n : Nat} (before : ¬closing n <:+: body)
    (last : c = ch ']' → ¬bracket n <:+ body) : ¬closing n <:+: body ++ [c] := by
  rw [List.infix_concat_iff]
  rintro (h | h)
  · exact last (closing_last h).1 (closing_last h).2
  · exact before h

/-! ## What a call returns -/

namespace Lexer

def slice (self : Lexer) (i j : Nat) : List UInt8 := (self.buffer.take j).drop i

theorem slice_self (self : Lexer) (i : Nat) : self.slice i i = [] :=
  List.drop_eq_nil_of_le (List.length_take_le i self.buffer)

theorem slice_append (self : Lexer) {i j k : Nat} (hij : i ≤ j) (hjk : j ≤ k) (inside : j ≤ self.buffer.length) :
    self.slice i k = self.slice i j ++ self.slice j k := by
  unfold slice
  have split : self.buffer.take k = self.buffer.take j ++ (self.buffer.take k).drop j := by
    conv_lhs => rw [← List.take_append_drop j (self.buffer.take k), List.take_take, Nat.min_eq_left hjk]
  conv_lhs => rw [split]
  rw [List.drop_append_of_le_length (by rw [List.length_take]; omega)]

theorem slice_succ (self : Lexer) {i j : Nat} {c : UInt8} (here : self.buffer[j]? = some c) (le : i ≤ j) :
    self.slice i (j + 1) = self.slice i j ++ [c] := by
  have inside := (List.getElem?_eq_some_iff.mp here).1
  rw [self.slice_append le (Nat.le_succ j) inside.le]
  congr 1
  rw [slice, List.take_add_one, here, List.drop_append_of_le_length (by rw [List.length_take]; omega)]
  exact congrArg (· ++ [c]) (self.slice_self j)

end Lexer

/-- The token of a call of `next` from `origin` that leaves `lexer`. -/
structure Tiles (origin : Nat) (lexer : Lexer) (token : Token) : Prop where
  start : origin ≤ token.start
  stop : token.start ≤ token.stop
  index : token.stop = lexer.index
  inside : token.stop ≤ lexer.buffer.length
  gap : Gap (token.start = lexer.buffer.length) (lexer.slice origin token.start)
  some : token.id ≠ .eof → token.start < token.stop
  eof : token.id = .eof → token.start = lexer.buffer.length ∧ token.stop = lexer.buffer.length

/-- The context of an error on `buffer`. -/
structure Reported (buffer : List UInt8) (lexer : Lexer) (err : LexError) : Prop where
  same : lexer.buffer = buffer
  context : ∃ context, lexer.errorContext = some context ∧ context.err = err ∧
    context.token.start ≤ context.token.stop ∧ context.token.stop ≤ buffer.length

/-! ## What each state says of the bytes since `result.start` -/

def Content (v : Vars) (content : List UInt8) : Prop :=
  match v.state with
  | .start => v.result.id = .eof ∧ content = []
  | .dash => v.result.id = .eof ∧ content = [ch '-']
  | .commentStart => v.result.id = .eof ∧ content = dashes
  | .shortComment => v.result.id = .eof ∧ ∃ body, content = dashes ++ body ∧ (∀ b ∈ body, isNewline b = false) ∧
      ∀ n rest, ¬opening n <+: body ++ rest
  | .longCommentStart => v.result.id = .eof ∧
      content = dashes ++ ch '[' :: List.replicate v.expectedStringLevel (ch '=')
  | .longComment => v.result.id = .eof ∧ ∃ body, content = dashes ++ opening v.expectedStringLevel ++ body ∧
      ¬closing v.expectedStringLevel <:+: body ∧ ∀ n, ¬bracket n <:+ body
  | .longCommentPossibleEnd => v.result.id = .eof ∧ ∃ body,
      content = dashes ++ opening v.expectedStringLevel ++ (body ++ bracket v.stringLevel) ∧
        ¬closing v.expectedStringLevel <:+: body ++ bracket v.stringLevel
  | .compoundEqual => ∃ c, content = [c] ∧ (c = ch '>' ∨ c = ch '<' ∨ c = ch '~' ∨ c = ch '=')
  | .identifier => v.result.id = .name ∧ content ≠ []
  | .stringLiteral | .stringLiteralBackslash | .stringLiteralBackslashLineEndings =>
      v.result.id = .string ∧ content ≠ []
  | _ => content ≠ []

-- the loop with `index` at its head, in a call from `origin`
structure Tile (origin : Nat) (lexer : Lexer) (v : Vars) : Prop where
  inside : lexer.index ≤ lexer.buffer.length
  before : origin ≤ v.result.start
  start : v.result.start ≤ lexer.index
  skipped : Skipped (lexer.slice origin v.result.start)
  content : Content v (lexer.slice v.result.start lexer.index)
  last : ∀ i, v.lastLineEndingIndex = some i → i < lexer.index ∧ ∃ b, lexer.buffer[i]? = some b ∧ isNewline b = true

-- what `finalize` makes a token of
structure Finished (origin : Nat) (lexer : Lexer) (v : Vars) : Prop where
  inside : lexer.index ≤ lexer.buffer.length
  before : origin ≤ v.result.start
  start : v.result.start ≤ lexer.index
  gap : Gap (v.result.start = lexer.buffer.length) (lexer.slice origin v.result.start)
  some : v.result.id ≠ .eof → v.result.start < lexer.index
  eof : v.result.id = .eof → v.result.start = lexer.buffer.length ∧ lexer.index = lexer.buffer.length

def Flow.Tiled (origin : Nat) (buffer : List UInt8) : Flow → Prop
  | .cont self v => Tile origin { self with index := self.index + 1 } v
  | .done self v => Finished origin self v
  | .fail self err => Reported buffer self err
  | .trap => False

open Lexer

variable {origin : Nat} {self : Lexer} {v w : Vars} {c : UInt8}

theorem content_nil (h : Content v []) : v.state = .start := by
  unfold Content at h
  cases hs : v.state <;> rw [hs] at h
  all_goals simp [dashes] at h

theorem Tile.nonempty (tile : Tile origin self v) (other : v.state ≠ .start) : v.result.start < self.index := by
  rcases Nat.eq_or_lt_of_le tile.start with same | less
  · have content := tile.content
    rw [same, slice_self] at content
    exact (other (content_nil content)).elim
  · exact less

theorem Tile.reported (tile : Tile origin self v) (err : LexError) (id : Token.Id) :
    (self.reportLexError err v.result id).Tiled origin self.buffer :=
  ⟨rfl, ⟨_, rfl, rfl, tile.start, tile.inside⟩⟩

theorem Tile.reportedInc (tile : Tile origin self v) (here : self.buffer[self.index]? = some c) (err : LexError)
    (id : Token.Id) : (self.reportLexErrorInc err v.result id).Tiled origin self.buffer :=
  ⟨rfl, ⟨_, rfl, rfl, Nat.le_succ_of_le tile.start, (List.getElem?_eq_some_iff.mp here).1⟩⟩

-- the token ends before the byte, or after it
theorem Tile.finish (tile : Tile origin self v) (other : v.state ≠ .start) {id : Token.Id} (some : id ≠ .eof) :
    (self.finish v id).Tiled origin self.buffer :=
  ⟨tile.inside, tile.before, tile.start, .inl tile.skipped, fun _ => tile.nonempty other,
    fun eof => (some eof).elim⟩

theorem Tile.finishInc (tile : Tile origin self v) (here : self.buffer[self.index]? = .some c) {id : Token.Id}
    (some : id ≠ .eof) : (self.finishInc v id).Tiled origin self.buffer :=
  ⟨(List.getElem?_eq_some_iff.mp here).1, tile.before, Nat.le_succ_of_le tile.start, .inl tile.skipped,
    fun _ => Nat.lt_succ_of_le tile.start, fun eof => (some eof).elim⟩

-- the byte belongs to the element
theorem Tile.push (tile : Tile origin self v) (here : self.buffer[self.index]? = some c)
    (start : w.result.start = v.result.start) (last : w.lastLineEndingIndex = v.lastLineEndingIndex)
    (content : Content w (self.slice v.result.start self.index ++ [c])) :
    Tile origin { self with index := self.index + 1 } w where
  inside := (List.getElem?_eq_some_iff.mp here).1
  before := start ▸ tile.before
  start := start ▸ Nat.le_succ_of_le tile.start
  skipped := start ▸ tile.skipped
  content := by
    rw [start]
    rw [← self.slice_succ here tile.start] at content
    exact content
  last i h := by
    obtain ⟨less, byte⟩ := tile.last i (last ▸ h)
    exact ⟨Nat.lt_succ_of_lt less, byte⟩

-- the byte ends what is skipped
theorem Tile.skip (tile : Tile origin self v) (here : self.buffer[self.index]? = some c) (id : v.result.id = .eof)
    (skips : Skips (self.slice v.result.start self.index ++ [c])) :
    Tile origin { self with index := self.index + 1 } (self.restart v) where
  inside := (List.getElem?_eq_some_iff.mp here).1
  before := tile.before.trans (Nat.le_succ_of_le tile.start)
  start := le_rfl
  skipped := by
    have inside := (List.getElem?_eq_some_iff.mp here).1
    rw [← self.slice_succ here tile.start] at skips
    have split := self.slice_append tile.before (Nat.le_succ_of_le tile.start) (tile.start.trans tile.inside)
    exact (congrArg Skipped split).mpr (tile.skipped.more skips)
  content := ⟨id, slice_self _ _⟩
  last i h := by
    obtain ⟨less, byte⟩ := tile.last i h
    exact ⟨Nat.lt_succ_of_lt less, byte⟩

-- a line ending is counted
theorem Tile.counted (tile : Tile origin self v) (here : self.buffer[self.index]? = some c) (newline : isNewline c = true)
    (last : w.lastLineEndingIndex = v.lastLineEndingIndex)
    (after : Tile origin { self with index := self.index + 1 } w) : (self.incrementLineNumber w).Tiled origin self.buffer := by
  have ending (n : Nat) (i : Option Nat) (known : ∀ j, i = some j → j < self.index + 1 ∧ ∃ b, self.buffer[j]? = some b ∧
      isNewline b = true) : Tile origin { self with lineNumber := n, index := self.index + 1 }
      { w with lastLineEndingIndex := i, result := { w.result with lineNumber := n } } :=
    ⟨after.inside, after.before, after.start, after.skipped, after.content, known⟩
  have reported (n : Nat) : (({ self with lineNumber := n } : Lexer).reportLexError .chunkHasTooManyLines
      { id := .eof, start := self.index, stop := self.index, lineNumber := n, char := none } .eof).Tiled origin self.buffer :=
    ⟨rfl, ⟨_, rfl, rfl, le_rfl, tile.inside⟩⟩
  obtain ⟨pair, hp⟩ : ∃ pair, self.currentIndexFormsLineEndingPair w.lastLineEndingIndex = some pair := by
    rw [last]
    cases hl : v.lastLineEndingIndex with
    | none => exact ⟨false, rfl⟩
    | some i =>
        obtain ⟨less, b, byte, ends⟩ := tile.last i hl
        unfold currentIndexFormsLineEndingPair
        dsimp only
        rw [if_neg (Nat.ne_zero_of_lt less), here, byte]
        dsimp only
        rw [newline, ends]
        split
        · exact ⟨false, rfl⟩
        · exact ⟨b != c, rfl⟩
  unfold incrementLineNumber
  rw [hp]
  cases pair with
  | true =>
      simp only [if_true]
      split
      · exact reported _
      · exact ending _ _ fun j h => by cases h
  | false =>
      simp only [Bool.false_eq_true, if_false]
      split
      · exact reported _
      · refine ending _ _ fun j h => ?_
        cases h
        exact ⟨Nat.lt_succ_self _, c, here, newline⟩

theorem Flow.Tiled.ite {buffer : List UInt8} {p : Prop} [Decidable p] {A B : Flow} (yes : p → A.Tiled origin buffer)
    (no : ¬p → B.Tiled origin buffer) : (if p then A else B).Tiled origin buffer := by
  split
  · exact yes ‹_›
  · exact no ‹_›

theorem newline_of (h : c = ch '\n' ∨ c = ch '\r') : isNewline c = true := by
  rcases h with rfl | rfl <;> rfl

theorem not_newline (h : ¬(c = ch '\n' ∨ c = ch '\r')) : isNewline c = false := by
  simpa [isNewline] using h

theorem ne_nil (front : List UInt8) (c : UInt8) : front ++ [c] ≠ [] :=
  List.append_ne_nil_of_right_ne_nil _ (List.cons_ne_nil _ _)

theorem idFromName_ne_eof (name : List UInt8) : Token.idFromName name ≠ some .eof := by
  intro found
  obtain ⟨front, back, mapping, -⟩ := List.lookup_eq_some_iff.mp found
  have member : Token.Id.eof ∈ Token.keywordMapping.map Prod.snd := by
    rw [mapping]
    simp
  revert member
  decide

theorem identifierId_ne_eof (id : v.result.id ≠ .eof) : self.identifierId v ≠ .eof := by
  unfold identifierId
  cases found : Token.idFromName ((self.buffer.take self.index).drop v.result.start) with
  | none => exact id
  | some keyword =>
      intro eof
      rw [Option.getD_some] at eof
      exact idFromName_ne_eof _ (eof ▸ found)

/-! ## One step -/

section step

variable (tile : Tile origin self v) (here : self.buffer[self.index]? = some c)

include tile here

theorem stepStart_tiled (hs : v.state = .start) : (self.stepStart v c).Tiled origin self.buffer := by
  have content := tile.content
  unfold Content at content
  rw [hs] at content
  obtain ⟨id, empty⟩ := content
  have one : self.slice v.result.start self.index ++ [c] = [c] := by rw [empty, List.nil_append]
  have some : self.slice v.result.start self.index ++ [c] ≠ [] := ne_nil _ _
  unfold stepStart
  refine .ite (fun h => ?_) fun _ => ?_
  · refine tile.counted here (newline_of h) rfl (tile.skip here id ?_)
    rw [one]
    exact .newline (newline_of h)
  refine .ite (fun h => ?_) fun _ => ?_
  · refine tile.skip here id ?_
    rw [one]
    refine .space ?_
    rcases h with rfl | rfl | rfl | rfl <;> rfl
  refine .ite (fun h => ?_) fun _ => ?_
  · exact tile.push here rfl rfl ⟨id, by rw [one, h]⟩
  refine .ite (fun _ => tile.push here rfl rfl ⟨rfl, some⟩) fun _ => ?_
  refine .ite (fun _ => tile.push here rfl rfl some) fun _ => ?_
  refine .ite (fun _ => tile.push here rfl rfl ⟨rfl, some⟩) fun _ => ?_
  refine .ite (fun _ => tile.push here rfl rfl some) fun _ => ?_
  refine .ite (fun h => tile.push here rfl rfl ⟨c, one, h⟩) fun _ => ?_
  refine .ite (fun _ => tile.push here rfl rfl some) fun _ => ?_
  exact tile.finishInc here Token.Id.noConfusion

theorem stepDash_tiled (hs : v.state = .dash) : (self.stepDash v c).Tiled origin self.buffer := by
  have content := tile.content
  unfold Content at content
  rw [hs] at content
  obtain ⟨id, dash⟩ := content
  unfold stepDash
  refine .ite (fun h => ?_) fun _ => ?_
  · exact tile.push here rfl rfl ⟨id, by rw [dash, h]; rfl⟩
  · exact tile.finish (by rw [hs]; exact State.noConfusion) Token.Id.noConfusion

theorem stepCommentStart_tiled (hs : v.state = .commentStart) : (self.stepCommentStart v c).Tiled origin self.buffer := by
  have content := tile.content
  unfold Content at content
  rw [hs] at content
  obtain ⟨id, comment⟩ := content
  unfold stepCommentStart
  refine .ite (fun h => ?_) fun other => ?_
  · exact tile.push here rfl rfl ⟨id, by rw [comment, h]; rfl⟩
  refine .ite (fun h => ?_) fun inside => ?_
  · have newline := newline_of h.symm
    refine tile.counted here newline rfl (tile.skip here id ?_)
    rw [comment]
    refine .short [] ⟨fun b mem => (List.not_mem_nil mem).elim, fun n h => ?_⟩ newline
    cases List.prefix_nil.mp h
  · refine tile.push here rfl rfl ⟨id, [c], by rw [comment], fun b mem => ?_, fun n rest h => ?_⟩
    · rw [List.mem_singleton.mp mem]
      exact not_newline fun h => inside h.symm
    · exact other (List.cons_prefix_cons.mp h).1.symm

theorem stepLongStart_comment (hs : v.state = .longCommentStart) : (self.stepLongStart v c).Tiled origin self.buffer := by
  have content := tile.content
  unfold Content at content
  rw [hs] at content
  obtain ⟨id, comment⟩ := content
  unfold stepLongStart
  refine .ite (fun h => ?_) fun sign => ?_
  · refine tile.push here rfl rfl ?_
    unfold Content
    dsimp only
    rw [hs]
    refine ⟨id, ?_⟩
    rw [comment, h, List.replicate_succ', List.append_assoc, List.cons_append]
  refine .ite (fun h => ?_) fun other => ?_
  · rw [if_pos hs]
    refine tile.push here rfl rfl ⟨id, [], ?_, fun h => ?_, fun n h => ?_⟩
    · rw [comment, h, List.append_nil, List.append_assoc, List.cons_append, opening]
    · cases List.infix_nil.mp h
    · cases List.suffix_nil.mp h
  have settled (rest : List UInt8) (m : Nat) :
      ¬opening m <+: ch '[' :: List.replicate v.expectedStringLevel (ch '=') ++ [c] ++ rest := by
    intro h
    rw [List.append_assoc] at h
    rcases opening_of_settled rest (c := c) h with wrong | wrong
    · exact other wrong
    · exact sign wrong
  rw [if_pos hs]
  refine .ite (fun h => ?_) fun inside => ?_
  · refine tile.counted here (newline_of h) rfl (tile.skip here id ?_)
    rw [comment]
    refine .short _ ⟨fun b mem => opened_line mem, fun m open_ => ?_⟩ (newline_of h)
    exact settled [] m (open_.trans (by rw [List.append_nil]; exact List.prefix_append _ _))
  · refine tile.push here rfl rfl ⟨id, ch '[' :: List.replicate v.expectedStringLevel (ch '=') ++ [c],
      by rw [comment, List.append_assoc], fun b mem => ?_, fun m rest => settled rest m⟩
    rcases List.mem_append.mp mem with mem | mem
    · exact opened_line mem
    · rw [List.mem_singleton.mp mem]
      exact not_newline inside

theorem stepShortComment_tiled (hs : v.state = .shortComment) : (self.stepShortComment v c).Tiled origin self.buffer := by
  have content := tile.content
  unfold Content at content
  rw [hs] at content
  obtain ⟨id, body, comment, line, settled⟩ := content
  unfold stepShortComment
  refine .ite (fun h => ?_) fun inside => ?_
  · refine tile.counted here (newline_of h) rfl (tile.skip here id ?_)
    rw [comment]
    refine .short _ ⟨line, fun n h => settled n [] ?_⟩ (newline_of h)
    rw [List.append_nil]
    exact h
  · refine tile.push here rfl rfl ?_
    unfold Content
    rw [hs]
    refine ⟨id, body ++ [c], by rw [comment, List.append_assoc], fun b mem => ?_, fun n rest => ?_⟩
    · rcases List.mem_append.mp mem with mem | mem
      · exact line b mem
      · rw [List.mem_singleton.mp mem]
        exact not_newline inside
    · rw [List.append_assoc]
      exact settled n ([c] ++ rest)

theorem maybe_tiled {u : Vars} (last : u.lastLineEndingIndex = v.lastLineEndingIndex)
    (after : Tile origin { self with index := self.index + 1 } u) : (self.maybeIncrementLineNumber u c).Tiled origin self.buffer := by
  unfold maybeIncrementLineNumber
  refine .ite (fun newline => ?_) fun _ => ?_
  · exact tile.counted here newline last after
  · exact ⟨after.inside, after.before, after.start, after.skipped, after.content, after.last⟩

theorem stepLong_comment (hs : v.state = .longComment) : (self.stepLong v c).Tiled origin self.buffer := by
  have content := tile.content
  unfold Content at content
  rw [hs] at content
  obtain ⟨id, body, comment, open_, pending⟩ := content
  unfold stepLong
  refine .ite (fun h => ?_) fun other => ?_
  · rw [if_pos hs]
    refine tile.push here rfl rfl ⟨id, body, ?_, closing_other open_ fun _ => pending _⟩
    rw [comment, h, List.append_assoc]
    rfl
  · refine maybe_tiled tile here rfl (tile.push here rfl rfl ?_)
    unfold Content
    rw [hs]
    refine ⟨id, body ++ [c], ?_, closing_other open_ fun h => (other h).elim, fun n h => ?_⟩
    · rw [comment, List.append_assoc]
    · rcases bracket_last h with ⟨-, h⟩ | ⟨m, -, -, h⟩
      · exact other h
      · exact pending m h

theorem stepLongPossibleEnd_comment (hs : v.state = .longCommentPossibleEnd) :
    (self.stepLongPossibleEnd v c).Tiled origin self.buffer := by
  have content := tile.content
  unfold Content at content
  rw [hs] at content
  obtain ⟨id, body, comment, open_⟩ := content
  unfold stepLongPossibleEnd
  refine .ite (fun h => ?_) fun other => ?_
  · refine .ite (fun level => ?_) fun level => ?_
    · rw [if_pos hs]
      refine tile.skip here id ?_
      rw [level] at comment open_
      rw [comment, h, List.append_assoc (dashes ++ _), List.append_assoc body]
      exact .long open_
    · refine tile.push here rfl rfl ?_
      unfold Content
      dsimp only
      rw [hs]
      refine ⟨id, body ++ bracket v.stringLevel, ?_, closing_other open_ fun _ h => level (bracket_level h).symm⟩
      rw [comment, h, List.append_assoc]
      rfl
  refine .ite (fun h => ?_) fun sign => ?_
  · refine tile.push here rfl rfl ?_
    unfold Content
    dsimp only
    rw [hs]
    refine ⟨id, body, ?_, ?_⟩
    · rw [comment, h, bracket_succ]
      simp only [List.append_assoc]
    · rw [bracket_succ, ← List.append_assoc]
      refine closing_other open_ fun wrong => absurd wrong (by decide)
  · rw [if_pos hs]
    refine maybe_tiled tile here rfl (tile.push here rfl rfl ⟨id, body ++ bracket v.stringLevel ++ [c], ?_,
      closing_other open_ fun h => (other h).elim, fun n h => ?_⟩)
    · rw [comment, List.append_assoc]
    · rcases bracket_last h with ⟨-, h⟩ | ⟨m, -, h, -⟩
      · exact other h
      · exact sign h

theorem stepCompoundEqual_tiled (hs : v.state = .compoundEqual) : (self.stepCompoundEqual v c).Tiled origin self.buffer := by
  have content := tile.content
  unfold Content at content
  rw [hs] at content
  obtain ⟨b, one, sign⟩ := content
  have less := tile.nonempty (by rw [hs]; exact State.noConfusion)
  have previous : self.buffer[self.index - 1]? = some b := by
    have inside := tile.inside
    have length := congrArg List.length one
    have first := congrArg (fun l : List UInt8 => l[0]?) one
    simp only [slice, List.length_drop, List.length_take, List.length_singleton] at length
    simp only [slice, List.getElem?_drop, Nat.add_zero, List.getElem?_cons_zero] at first
    rw [List.getElem?_take_of_lt less] at first
    rw [← first]
    congr 1
    omega
  unfold stepCompoundEqual
  refine .ite (fun h => ?_) fun _ => tile.finish (by rw [hs]; exact State.noConfusion) Token.Id.noConfusion
  rw [if_neg (Nat.ne_zero_of_lt less), previous]
  dsimp only
  rcases sign with rfl | rfl | rfl | rfl
  all_goals exact tile.finishInc here Token.Id.noConfusion

omit here in
theorem backtrack_tiled (id : v.result.id = .string) (some : v.state ≠ .start) : (self.backtrack v).Tiled origin self.buffer := by
  have less := tile.nonempty some
  have positive : self.index ≠ 0 := Nat.ne_zero_of_lt less
  have back : self.index - 1 + 1 = self.index := Nat.sub_add_cancel (Nat.pos_of_ne_zero positive)
  unfold backtrack
  rw [if_neg positive]
  show Tile origin { self with index := self.index - 1 + 1 } { v with state := .stringLiteral }
  rw [back]
  refine ⟨tile.inside, tile.before, tile.start, tile.skipped, ⟨id, fun empty => ?_⟩, tile.last⟩
  have length := congrArg List.length empty
  have inside := tile.inside
  simp only [slice, List.length_drop, List.length_take, List.length_nil] at length
  omega

-- the rest of the states, where the bytes are not looked at again
theorem stepIdentifier_tiled (hs : v.state = .identifier) : (self.stepIdentifier v c).Tiled origin self.buffer := by
  have content := tile.content
  unfold Content at content
  rw [hs] at content
  unfold stepIdentifier
  refine .ite (fun _ => tile.push here rfl rfl ?_) fun _ => ?_
  · unfold Content
    rw [hs]
    exact ⟨content.1, ne_nil _ _⟩
  · exact tile.finish (by rw [hs]; exact State.noConfusion)
      (identifierId_ne_eof (by rw [content.1]; exact Token.Id.noConfusion))

theorem stepStringLiteral_tiled (hs : v.state = .stringLiteral) : (self.stepStringLiteral v c).Tiled origin self.buffer := by
  have content := tile.content
  unfold Content at content
  rw [hs] at content
  have stay : Tile origin { self with index := self.index + 1 } v := by
    refine tile.push here rfl rfl ?_
    unfold Content
    rw [hs]
    exact ⟨content.1, ne_nil _ _⟩
  unfold stepStringLiteral
  refine .ite (fun _ => tile.push here rfl rfl ⟨content.1, ne_nil _ _⟩) fun _ => ?_
  refine .ite (fun _ => .ite (fun _ => ?_) fun _ => stay) fun _ => ?_
  · exact tile.finishInc here (by rw [content.1]; exact Token.Id.noConfusion)
  · exact .ite (fun _ => tile.reported _ _) fun _ => stay

theorem stepStringLiteralBackslash_tiled (hs : v.state = .stringLiteralBackslash) :
    (self.stepStringLiteralBackslash v c).Tiled origin self.buffer := by
  have content := tile.content
  unfold Content at content
  rw [hs] at content
  have next (w : Vars) (same : w.result = v.result) (last : w.lastLineEndingIndex = v.lastLineEndingIndex)
      (state : w.state = .stringLiteral ∨ w.state = .stringLiteralBackslash ∨
        w.state = .stringLiteralBackslashLineEndings) : Tile origin { self with index := self.index + 1 } w := by
    refine tile.push here (congrArg Token.start same) last ?_
    unfold Content
    rcases state with state | state | state <;> rw [state, same] <;> exact ⟨content.1, ne_nil _ _⟩
  unfold stepStringLiteralBackslash
  dsimp only
  refine .ite (fun _ => ?_) fun _ => ?_
  · refine .ite (fun _ => .ite (fun _ => ?_) fun _ => ?_) fun _ => ?_
    · exact tile.reportedInc here _ _
    · exact next _ rfl rfl (.inl rfl)
    · exact next _ rfl rfl (.inr (.inl hs))
  refine .ite (fun newline => .ite (fun _ => tile.reported _ _) fun _ => ?_) fun _ => .ite (fun _ => ?_) fun _ => ?_
  · exact tile.counted here (newline_of newline.symm) rfl (next _ rfl rfl (.inr (.inr rfl)))
  · exact backtrack_tiled tile content.1 (by rw [hs]; exact State.noConfusion)
  · exact next _ rfl rfl (.inl rfl)

theorem stepStringLiteralBackslashLineEndings_tiled (hs : v.state = .stringLiteralBackslashLineEndings) :
    (self.stepStringLiteralBackslashLineEndings v c).Tiled origin self.buffer := by
  have content := tile.content
  unfold Content at content
  rw [hs] at content
  unfold stepStringLiteralBackslashLineEndings
  refine .ite (fun newline => .ite (fun _ => tile.reported _ _) fun _ => ?_) fun _ => ?_
  · exact tile.counted here (newline_of newline.symm) rfl (tile.push here rfl rfl ⟨content.1, ne_nil _ _⟩)
  · exact backtrack_tiled tile content.1 (by rw [hs]; exact State.noConfusion)

-- the states in which the bytes so far are not looked at again
def inert : State → Bool
  | .dot | .concat | .longStringStart | .longString | .longStringPossibleEnd | .number | .numberExponentStart
  | .numberExponent | .numberHexStart | .numberHex => true
  | _ => false

omit tile here in
theorem content_inert {content : List UInt8} (state : inert w.state = true) (some : content ≠ []) :
    Content w content := by
  unfold Content
  cases hw : w.state <;> rw [hw] at state
  all_goals first
    | exact some
    | cases state

theorem Tile.inert (start : w.result.start = v.result.start) (last : w.lastLineEndingIndex = v.lastLineEndingIndex)
    (state : inert w.state = true) : Tile origin { self with index := self.index + 1 } w :=
  tile.push here start last (content_inert state (ne_nil _ _))

theorem step_inert (state : inert v.state = true) : (self.step v c).Tiled origin self.buffer := by
  have other : v.state ≠ .start := fun start => by
    rw [start] at state
    cases state
  have stay := Tile.inert tile here rfl rfl state
  cases hs : v.state <;> rw [hs] at state <;> unfold step <;> rw [hs] <;> dsimp only
  case longStringStart =>
    have isString : v.state ≠ .longCommentStart := by rw [hs]; exact State.noConfusion
    unfold stepLongStart
    rw [if_neg isString, if_neg isString]
    refine .ite (fun _ => Tile.inert tile here rfl rfl (by rw [hs]; rfl)) fun _ => ?_
    refine .ite (fun _ => Tile.inert tile here rfl rfl rfl) fun _ => ?_
    exact .ite (fun _ => tile.reported _ _) fun _ => tile.finish other Token.Id.noConfusion
  case longString =>
    have isString : v.state ≠ .longComment := by rw [hs]; exact State.noConfusion
    unfold stepLong
    rw [if_neg isString]
    exact .ite (fun _ => Tile.inert tile here rfl rfl rfl) fun _ => maybe_tiled tile here rfl stay
  case longStringPossibleEnd =>
    have isString : v.state ≠ .longCommentPossibleEnd := by rw [hs]; exact State.noConfusion
    unfold stepLongPossibleEnd
    rw [if_neg isString, if_neg isString]
    refine .ite (fun _ => .ite (fun _ => tile.finishInc here Token.Id.noConfusion) fun _ => ?_) fun _ => ?_
    · exact Tile.inert tile here rfl rfl (by rw [hs]; rfl)
    · refine .ite (fun _ => Tile.inert tile here rfl rfl (by rw [hs]; rfl)) fun _ => ?_
      exact maybe_tiled tile here rfl (Tile.inert tile here rfl rfl rfl)
  -- in the numerals and dots each byte goes on, ends the token or is an error
  all_goals first
    | cases state
      done
    | skip
  all_goals first
    | unfold stepDot
    | unfold stepConcat
    | unfold stepNumber
    | unfold stepNumberHex
    | unfold stepNumberExponentStart
    | unfold stepNumberExponent
  all_goals repeat' refine .ite (fun _ => ?_) fun _ => ?_
  all_goals first
    | exact stay
    | exact Tile.inert tile here rfl rfl rfl
    | exact Tile.inert tile here rfl rfl (by rw [hs]; rfl)
    | exact tile.reported _ _
    | exact tile.reportedInc here _ _
    | exact tile.finish other Token.Id.noConfusion
    | exact tile.finishInc here Token.Id.noConfusion

theorem step_tiled : (self.step v c).Tiled origin self.buffer := by
  by_cases state : inert v.state = true
  · exact step_inert tile here state
  cases hs : v.state <;> rw [hs] at state <;> unfold step <;> rw [hs] <;> dsimp only
  case start => exact stepStart_tiled tile here hs
  case identifier => exact stepIdentifier_tiled tile here hs
  case stringLiteral => exact stepStringLiteral_tiled tile here hs
  case stringLiteralBackslash => exact stepStringLiteralBackslash_tiled tile here hs
  case stringLiteralBackslashLineEndings => exact stepStringLiteralBackslashLineEndings_tiled tile here hs
  case dash => exact stepDash_tiled tile here hs
  case commentStart => exact stepCommentStart_tiled tile here hs
  case shortComment => exact stepShortComment_tiled tile here hs
  case longCommentStart => exact stepLongStart_comment tile here hs
  case longComment => exact stepLong_comment tile here hs
  case longCommentPossibleEnd => exact stepLongPossibleEnd_comment tile here hs
  case compoundEqual => exact stepCompoundEqual_tiled tile here hs
  all_goals exact (state rfl).elim

end step

/-! ## The end of the buffer -/

theorem atEnd_comment (tile : Tile origin self v) (last : self.index = self.buffer.length) (id : v.result.id = .eof)
    (body : List UInt8) (comment : self.slice v.result.start self.index = dashes ++ body) (short : Short body)
    (result : w.result = { v.result with start := self.index }) : (Flow.done self w).Tiled origin self.buffer := by
  have start : w.result.start = self.index := congrArg Token.start result
  have id' : w.result.id = .eof := (congrArg Token.id result).trans id
  refine ⟨tile.inside, ?_, start.le, .inr ⟨start.trans last, self.slice origin v.result.start, body, ?_, tile.skipped,
    short⟩, fun other => (other id').elim, fun _ => ⟨start.trans last, last⟩⟩
  · exact start ▸ tile.before.trans tile.start
  · rw [start, ← comment]
    exact self.slice_append tile.before tile.start (tile.start.trans tile.inside)

theorem atEnd_tiled (tile : Tile origin self v) (none : self.buffer[self.index]? = none) :
    (self.atEnd v).Tiled origin self.buffer := by
  have last : self.index = self.buffer.length := le_antisymm tile.inside (List.getElem?_eq_none_iff.mp none)
  have content := tile.content
  have finish (other : v.state ≠ .start) {id : Token.Id} (some : id ≠ .eof) : (self.finish v id).Tiled origin self.buffer :=
    tile.finish other some
  unfold Content at content
  unfold atEnd
  rw [if_neg (not_not_intro last)]
  cases hs : v.state <;> rw [hs] at content finish <;> dsimp only
  case start =>
    have length := congrArg List.length content.2
    have same : v.result.start = self.index := by
      have le := tile.start
      have inside := tile.inside
      simp only [slice, List.length_drop, List.length_take, List.length_nil] at length
      omega
    refine ⟨tile.inside, tile.before, tile.start, .inl tile.skipped, fun other => (other content.1).elim, fun _ => ?_⟩
    exact ⟨same.trans last, last⟩
  case identifier =>
    exact finish State.noConfusion (identifierId_ne_eof (by rw [content.1]; exact Token.Id.noConfusion))
  case commentStart =>
    refine atEnd_comment tile last content.1 [] content.2 ⟨fun b mem => (List.not_mem_nil mem).elim, ?_⟩ rfl
    intro n h
    cases List.prefix_nil.mp h
  case shortComment =>
    obtain ⟨id, body, comment, line, settled⟩ := content
    refine atEnd_comment tile last id body comment ⟨line, fun n h => settled n [] ?_⟩ rfl
    rw [List.append_nil]
    exact h
  case longCommentStart =>
    refine atEnd_comment tile last content.1 _ content.2 ⟨fun b mem => opened_line mem, fun m h => ?_⟩ rfl
    exact opened_short v.expectedStringLevel m h
  case longStringStart =>
    exact .ite (fun _ => tile.reported _ _) fun _ => finish State.noConfusion Token.Id.noConfusion
  case numberHexStart =>
    exact .ite (fun _ => finish State.noConfusion Token.Id.noConfusion) fun _ => tile.reported _ _
  case numberExponentStart =>
    exact .ite (fun _ => finish State.noConfusion Token.Id.noConfusion) fun _ => tile.reported _ _
  all_goals first
    | exact tile.reported _ _
    | exact finish State.noConfusion Token.Id.noConfusion

/-! ## A call -/

def Outcome.Tiled (origin : Nat) (buffer : List UInt8) : Outcome → Prop
  | .token lexer t => Tiles origin lexer t
  | .error lexer err => Reported buffer lexer err
  | .trap => False

theorem Finished.tiled (finished : Finished origin self v) : (self.finalize v).Tiled origin self.buffer := by
  unfold finalize
  split
  · have less := finished.some (by rw [‹v.result.id = _›]; exact Token.Id.noConfusion)
    rw [List.getElem?_eq_getElem (Nat.lt_of_lt_of_le less finished.inside)]
    exact ⟨finished.before, finished.start, rfl, finished.inside, finished.gap, finished.some, finished.eof⟩
  · exact ⟨finished.before, finished.start, rfl, finished.inside, finished.gap, finished.some, finished.eof⟩

theorem atEnd_done {lexer : Lexer} (h : self.atEnd v = .done lexer w) : lexer = self := by
  unfold atEnd finish reportLexError at h
  repeat' split at h
  all_goals first
    | contradiction
    | cases h
      rfl

theorem atEnd_cont {lexer : Lexer} : self.atEnd v ≠ .cont lexer w := by
  intro h
  unfold atEnd finish reportLexError at h
  repeat' split at h
  all_goals contradiction

theorem Flow.Tiled.outcome {buffer : List UInt8} {flow : Flow} (tiled : flow.Tiled origin buffer)
    (same : ∀ self v, flow = .done self v → self.buffer = buffer) (notCont : ∀ self v, flow ≠ .cont self v) :
    flow.outcome.Tiled origin buffer := by
  cases flow with
  | cont lexer w => exact (notCont _ _ rfl).elim
  | done lexer w => exact same _ _ rfl ▸ Finished.tiled tiled
  | fail lexer err => exact tiled
  | trap => exact tiled

theorem loop_tiled (tile : Tile origin self v) : (self.loop v).Tiled origin self.buffer := by
  fun_induction loop self v with
  | case1 self v here =>
      exact (atEnd_tiled tile here).outcome (fun lexer w h => (atEnd_done h).symm ▸ rfl) fun lexer w => atEnd_cont
  | case2 self v c here before => exact (Nat.not_lt_of_le tile.start before).elim
  | case3 self v c here before long => exact tile.reported _ _
  | case4 self v c here before long lexer w cont ih =>
      have next := step_tiled tile here
      rw [cont] at next
      obtain ⟨index, lineNumber, rfl, -⟩ := step_cont cont
      exact ih next
  | case5 self v c here before long notCont =>
      refine (step_tiled tile here).outcome (fun lexer w h => ?_) notCont
      rcases step_done h with rfl | rfl <;> rfl

/-! ## Successful calls -/

/-- The tokens that calls of `next` on `first` return one after the other, and the lexer then. -/
inductive Calls (first : Lexer) : List Token → Lexer → Prop
  | nil : Calls first [] first
  | next {tokens : List Token} {lexer lexer' : Lexer} {token : Token} : Calls first tokens lexer →
      lexer.next = .token lexer' token → Calls first (tokens ++ [token]) lexer'

theorem entry_tile (inside : self.index ≤ self.buffer.length) : Tile self.index self self.entry where
  inside := inside
  before := le_rfl
  start := le_rfl
  skipped := (self.slice_self self.index).symm ▸ .nil
  content := ⟨rfl, self.slice_self self.index⟩
  last i h := by cases h

theorem next_tiled (self : Lexer) (inside : self.index ≤ self.buffer.length) : self.next.Tiled self.index self.buffer :=
  loop_tiled (entry_tile inside)

theorem Calls.settings {first lexer : Lexer} {tokens : List Token} (calls : Calls first tokens lexer)
    (inside : first.index ≤ first.buffer.length) : ∃ index lineNumber,
      lexer = { first with index, lineNumber } ∧ index ≤ first.buffer.length ∧
        (first.index + tokens.length ≤ index ∨ ∃ token ∈ tokens, token.id = .eof) := by
  induction calls with
  | nil => exact ⟨first.index, first.lineNumber, rfl, inside, .inl le_rfl⟩
  | @next tokens lexer lexer' token _ called ih =>
      obtain ⟨index, lineNumber, rfl, bound, progress⟩ := ih
      obtain ⟨index', lineNumber', rfl, bound'⟩ := loop_token called bound
      refine ⟨index', lineNumber', rfl, bound', ?_⟩
      rcases progress with progress | ⟨eof, mem, id⟩
      · by_cases id : token.id = .eof
        · exact .inr ⟨token, List.mem_append_right _ (List.mem_singleton_self token), id⟩
        · have forward : index < index' := next_progress called id
          rw [List.length_append, List.length_singleton]
          exact .inl (by omega)
      · exact .inr ⟨eof, List.mem_append_left _ mem, id⟩

/-- Tokens tile the input, and lexing progresses. -/
theorem calls_tile {first lexer : Lexer} {tokens : List Token} (start : first.index = 0)
    (calls : Calls first tokens lexer) :
    lexer.next ≠ .trap ∧
    (∀ lexer' token, lexer.next = .token lexer' token → (∃ index lineNumber, lexer' = { first with index, lineNumber }) ∧
      Tiles lexer.index lexer' token) ∧
    (∀ lexer' err, lexer.next = .error lexer' err → Reported first.buffer lexer' err) ∧
    (first.buffer.length < tokens.length → ∃ token ∈ tokens, token.id = .eof) := by
  have inside : first.index ≤ first.buffer.length := start ▸ Nat.zero_le _
  obtain ⟨index, lineNumber, rfl, bound, progress⟩ := calls.settings inside
  have tiled := next_tiled { first with index, lineNumber } bound
  refine ⟨fun trap => ?_, fun lexer' token called => ⟨?_, ?_⟩, fun lexer' err failed => ?_, fun many => ?_⟩
  · rw [trap] at tiled
    exact tiled
  · obtain ⟨index', lineNumber', rfl, -⟩ := loop_token called bound
    exact ⟨index', lineNumber', rfl⟩
  · rw [called] at tiled
    exact tiled
  · rw [failed] at tiled
    exact tiled
  · rcases progress with few | eof
    · omega
    · exact eof

theorem calls_tile_comment :
    ∃ lexer : Lexer, Calls { buffer := bytes ";--[[]]", maxLines := 1 } [⟨.singleChar, 0, 1, 1, some (ch ';')⟩] lexer ∧
      lexer.next ≠ .trap := by
  have calls : Calls { buffer := bytes ";--[[]]", maxLines := 1 } ([] ++ [⟨.singleChar, 0, 1, 1, some (ch ';')⟩]) _ :=
    .next .nil (turn_ends _ (c := ch ';') rfl (by decide) (by decide) rfl fun _ _ h => Flow.noConfusion h)
  exact ⟨_, calls, (calls_tile rfl calls).1⟩

end Zua.Lex
