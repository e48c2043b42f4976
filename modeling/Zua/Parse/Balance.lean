import Zua.Base.Both
import Zua.Lex.Tiling
import Zua.Parse.Statements

/-!
# Levels

Every function of the parser leaves the status as it found it, and reads on where it goes round a loop. The
functions are compared in pairs, with the calls of two parsers that agree up to their errors.
-/

namespace Zua.Parse
open Zua.Lex Syntax

/-! ## What is left to read -/

-- inside the buffer, and at its end when the token is the end
structure Input.Valid (i : Input) : Prop where
  inside : i.lexer.index ≤ i.lexer.buffer.length
  ended : i.token.id = .eof → i.lexer.index = i.lexer.buffer.length

-- every token but the end counts one, and so does every byte behind it
def Input.left (i : Input) : Nat := i.lexer.buffer.length - i.lexer.index + if i.token.id = .eof then 0 else 1

theorem Input.left_le (i : Input) : i.left ≤ i.lexer.buffer.length + 1 := by
  unfold Input.left
  split
  · omega
  · omega

-- `q` comes after `p`, with the same status
structure Kept (p q : Parser) : Prop where
  status : q.toStatus = p.toStatus
  valid : q.Valid
  left : q.left ≤ p.left

theorem Kept.refl {p : Parser} (valid : p.Valid) : Kept p p := ⟨rfl, valid, le_rfl⟩

theorem Kept.trans {p q r : Parser} (first : Kept p q) (second : Kept q r) : Kept p r :=
  ⟨second.status.trans first.status, second.valid, second.left.trans first.left⟩

theorem lexed_valid {lexer lexer' : Lexer} {token : Token} (inside : lexer.index ≤ lexer.buffer.length)
    (lexed : lexer.next = .token lexer' token) : Input.Valid ⟨lexer', token⟩ := by
  have tiles := next_tiled lexer inside
  rw [lexed] at tiles
  have tiles : Tiles lexer.index lexer' token := tiles
  obtain ⟨index, lineNumber, same, inside'⟩ := Lexer.loop_token lexed inside
  have here : lexer'.index ≤ lexer'.buffer.length := by rw [same]; exact inside'
  exact ⟨here, fun eof => tiles.index.symm.trans (tiles.eof eof).2⟩

theorem lexed_left {lexer lexer' : Lexer} {token token' : Token} (valid : Input.Valid ⟨lexer, token⟩)
    (lexed : lexer.next = .token lexer' token') : Input.left ⟨lexer', token'⟩ ≤ Input.left ⟨lexer, token⟩ ∧
      (token.id ≠ .eof → Input.left ⟨lexer', token'⟩ < Input.left ⟨lexer, token⟩) := by
  obtain ⟨index, lineNumber, same, forward⟩ := Lexer.loop_forward lexed
  have buffer : lexer'.buffer = lexer.buffer := by rw [same]
  have onward : lexer.index ≤ lexer'.index := by rw [same]; exact forward
  obtain ⟨here, ended⟩ := lexed_valid valid.inside lexed
  have progress (other : token'.id ≠ .eof) : lexer.index < lexer'.index := Lexer.next_progress lexed other
  have before := valid.ended
  have bound := valid.inside
  unfold Input.left
  dsimp only at before bound here ended ⊢
  rw [buffer] at here ended ⊢
  by_cases eof' : token'.id = .eof
  · have stop := ended eof'
    by_cases eof : token.id = .eof
    · have last := before eof
      simp only [eof', eof, if_true, not_true_eq_false, ne_eq, false_implies, and_true]
      omega
    · simp only [eof', eof, if_true, if_false, not_false_eq_true, ne_eq, forall_const]
      omega
  · have less := progress eof'
    by_cases eof : token.id = .eof
    · have last := before eof
      omega
    · simp only [eof', eof, if_false, not_false_eq_true, ne_eq, forall_const]
      omega

theorem next_returns {lexer : Lexer} (inside : lexer.index ≤ lexer.buffer.length) : lexer.next ≠ .trap := by
  intro trap
  have tiled := next_tiled lexer inside
  rw [trap] at tiled
  exact tiled

theorem lookahead_returns {lexer : Lexer} (inside : lexer.index ≤ lexer.buffer.length) : lexer.lookahead ≠ .trap := by
  unfold Lexer.lookahead
  exact next_returns inside

/-! ## Pairs -/

-- the errors that do not depend on the levels
def Stop.Plain : Stop → Prop
  | .parse context => context.err ≠ .tooManySyntaxLevels
  | .lex _ _ => True
  | .panic | .timeout => False

def Pair {α : Type} (ok : Stop → Stop → Prop) (x y : ParseM α) (p : Parser) (Q : α → Parser → Prop) : Prop :=
  Both ok x y p fun a q => Kept p q ∧ Q a q

-- a state of the parser inside the level
structure At (level : Nat) (p : Parser) : Prop where
  valid : p.Valid
  level : p.syntaxLevel = level

theorem Kept.at {level : Nat} {p q : Parser} (kept : Kept p q) (here : At level p) : At level q := by
  refine ⟨kept.valid, ?_⟩
  rw [show q.syntaxLevel = p.syntaxLevel from congrArg Status.syntaxLevel kept.status]
  exact here.level

def Steady {α : Type} (ok : Stop → Stop → Prop) (level : Nat) (x y : ParseM α) : Prop :=
  ∀ p, At level p → Pair ok x y p fun _ _ => True

-- at least one token is read
def Advances {α : Type} (ok : Stop → Stop → Prop) (level : Nat) (x y : ParseM α) : Prop :=
  ∀ p, At level p → Pair ok x y p fun _ q => q.left < p.left

-- the current token is read, unless it is the end
def Skips {α : Type} (ok : Stop → Stop → Prop) (level : Nat) (x y : ParseM α) : Prop :=
  ∀ p, At level p → Pair ok x y p fun _ q => p.token.id ≠ .eof → q.left < p.left

section

variable {α β σ : Type} {ok : Stop → Stop → Prop} {level : Nat} {p : Parser} {Q : α → Parser → Prop}
  {R : β → Parser → Prop} {x y : ParseM α} {f g : α → ParseM β}

namespace Pair

theorem pure {a : α} (valid : p.Valid) (h : Q a p) : Pair ok (Pure.pure a) (Pure.pure a) p Q :=
  Both.self (Sat.pure ⟨.refl valid, h⟩)

theorem throw {e : Stop} (h : ok e e) : Pair ok (MonadExcept.throw e) (MonadExcept.throw e) p Q :=
  Both.self (Sat.throw h)

theorem bind (first : Pair ok x y p Q) (rest : ∀ a q, Kept p q → Q a q → Pair ok (f a) (g a) q R) :
    Pair ok (x >>= f) (y >>= g) p R := by
  refine Both.bind (first.mono ?_)
  rintro a q ⟨kept, h⟩
  refine (rest a q kept h).mono ?_
  rintro b r ⟨kept', h'⟩
  exact ⟨kept.trans kept', h'⟩

theorem mono {S : α → Parser → Prop} (h : Pair ok x y p Q) (weaker : ∀ a q, Kept p q → Q a q → S a q) :
    Pair ok x y p S := by
  refine Both.mono h ?_
  rintro a q ⟨kept, h⟩
  exact ⟨kept, weaker a q kept h⟩

theorem current {f g : Token → ParseM α} (h : Pair ok (f p.token) (g p.token) p Q) :
    Pair ok (Parse.current >>= f) (Parse.current >>= g) p Q :=
  Both.bind (Both.self (Sat.bind (Sat.get (Sat.pure h))))

theorem get {f g : Parser → ParseM α} (h : Pair ok (f p) (g p) p Q) :
    Pair ok (MonadState.get >>= f) (MonadState.get >>= g) p Q :=
  Both.bind (Both.self (Sat.get h))

theorem again {I : σ → Parser → Prop} {s : σ} (valid : p.Valid) (h : I s p) :
    Pair ok (Pure.pure (Turn.again s)) (Pure.pure (Turn.again s)) p (Turn.Holds I R) :=
  Pair.pure valid h

theorem leave {I : σ → Parser → Prop} {b : β} (valid : p.Valid) (h : R b p) :
    Pair ok (Pure.pure (Turn.leave b)) (Pure.pure (Turn.leave b)) p (Turn.Holds I R) :=
  Pair.pure valid h

end Pair

namespace Steady

theorem pure (a : α) : Steady ok level (Pure.pure a) (Pure.pure a) := fun _ here => Pair.pure here.valid trivial

theorem bind (first : Steady ok level x y) (rest : ∀ a, Steady ok level (f a) (g a)) :
    Steady ok level (x >>= f) (y >>= g) := fun p here =>
  (first p here).bind fun a q kept _ => rest a q (kept.at here)

theorem current {f g : Token → ParseM α} (rest : ∀ token, Steady ok level (f token) (g token)) :
    Steady ok level (Parse.current >>= f) (Parse.current >>= g) := fun p here => Pair.current (rest p.token p here)

end Steady

namespace Advances

theorem steady (h : Advances ok level x y) : Steady ok level x y := fun p here =>
  (h p here).mono fun _ _ _ _ => trivial

theorem bind (first : Advances ok level x y) (rest : ∀ a, Steady ok level (f a) (g a)) :
    Advances ok level (x >>= f) (y >>= g) := fun p here =>
  (first p here).bind fun a q kept less => (rest a q (kept.at here)).mono fun _ _ kept' _ => kept'.left.trans_lt less

end Advances

namespace Skips

theorem steady (h : Skips ok level x y) : Steady ok level x y := fun p here =>
  (h p here).mono fun _ _ _ _ => trivial

theorem bind (first : Skips ok level x y) (rest : ∀ a, Steady ok level (f a) (g a)) :
    Skips ok level (x >>= f) (y >>= g) := fun p here =>
  (first p here).bind fun a q kept less => (rest a q (kept.at here)).mono fun _ _ kept' _ some =>
    kept'.left.trans_lt (less some)

theorem current {f g : Token → ParseM α} (rest : ∀ token, Skips ok level (f token) (g token)) :
    Skips ok level (Parse.current >>= f) (Parse.current >>= g) := fun p here => Pair.current (rest p.token p here)

end Skips

theorem Advances.skips (h : Advances ok level x y) : Skips ok level x y := fun p here =>
  (h p here).mono fun _ _ _ less _ => less

-- a loop that reads on whenever it goes round ends
theorem Pair.loop {step step' : σ → ParseM (Turn σ β)} {I : σ → Parser → Prop} {s : σ} (here : At level p)
    (start : I s p)
    (turn : ∀ s p, At level p → I s p →
      Pair ok (step s) (step' s) p (Turn.Holds (fun s q => q.left < p.left ∧ I s q) R)) :
    Pair ok (loop step s) (loop step' s) p R := by
  suffices rounds : ∀ n s p, At level p → I s p → p.left < n → Pair ok (iterate step n s) (iterate step' n s) p R from
    Pair.get (rounds _ s p here start (Nat.lt_succ_of_le p.left_le))
  intro n
  induction n with
  | zero => exact fun s p _ _ none => absurd none (Nat.not_lt_zero _)
  | succ n ih =>
      intro s p here start few
      refine Pair.bind (turn s p here start) ?_
      rintro (t | b) q kept holds
      · obtain ⟨less, next⟩ := holds
        exact ih t q (kept.at here) next (less.trans_le (Nat.le_of_lt_succ few))
      · exact Pair.pure kept.valid holds

theorem Steady.loop {step step' : σ → ParseM (Turn σ β)}
    (turn : ∀ s p, At level p →
      Pair ok (step s) (step' s) p (Turn.Holds (fun _ q => q.left < p.left) fun _ _ => True)) (s : σ) :
    Steady ok level (loop step s) (loop step' s) := by
  intro p here
  refine Pair.loop (I := fun _ _ => True) here trivial fun s p here _ => (turn s p here).mono ?_
  rintro (t | b) q kept holds
  · exact ⟨holds, trivial⟩
  · trivial

end

/-! ## Tokens -/

theorem isChar_id {token : Token} {char : UInt8} (is : token.isChar char = true) : token.id ≠ .eof := by
  intro eof
  unfold Token.isChar at is
  rw [eof] at is
  cases is

section

variable {α : Type} {ok : Stop → Stop → Prop} (plain : ∀ e, e.Plain → ok e e) {level : Nat} {p : Parser}
  {Q : α → Parser → Prop}

include plain

theorem report_pair {err : ParseError} (other : err ≠ .tooManySyntaxLevels) (expected expectedMatch : Option Token) :
    Pair ok (reportParseErrorExpectedToMatch err expected expectedMatch)
      (reportParseErrorExpectedToMatch err expected expectedMatch) p Q :=
  Pair.current (Pair.throw (plain (.parse _) other))

theorem nextToken_skips : Skips ok level nextToken nextToken := by
  intro p here
  refine Pair.get ?_
  split
  · rename_i lexer token lexed
    obtain ⟨le, less⟩ := lexed_left here.valid lexed
    exact Both.self (Sat.set ⟨⟨rfl, lexed_valid here.valid.inside lexed, le⟩, less⟩)
  · rename_i lexer err _
    exact Pair.throw (plain (.lex lexer err) trivial)
  · rename_i trap
    exact (next_returns here.valid.inside trap).elim

theorem testIf_pair {test : Token → Bool} (some : ∀ token, test token = true → token.id ≠ .eof) (here : At level p) :
    Pair ok (testIf test) (testIf test) p fun found q => found = true → q.left < p.left := by
  refine Pair.current ?_
  split
  · rename_i is
    exact Pair.bind (nextToken_skips plain p here) fun _ q kept less =>
      Pair.pure kept.valid fun _ => less (some p.token is)
  · exact Pair.pure here.valid fun none => Bool.noConfusion none

theorem testcharnext_pair (char : UInt8) (here : At level p) :
    Pair ok (testcharnext char) (testcharnext char) p fun found q => found = true → q.left < p.left :=
  testIf_pair plain (fun _ => isChar_id) here

theorem testcharnext_steady (char : UInt8) : Steady ok level (testcharnext char) (testcharnext char) := fun _ here =>
  (testcharnext_pair plain char here).mono fun _ _ _ _ => trivial

theorem testnext_steady {id : Token.Id} (some : id ≠ .eof) : Steady ok level (testnext id) (testnext id) :=
  fun _ here => (testIf_pair plain (fun _ is eof => some ((eq_of_beq is).symm.trans eof)) here).mono
    fun _ _ _ _ => trivial

theorem check_pair (id : Token.Id) (here : At level p) :
    Pair ok (check id) (check id) p fun _ q => q = p ∧ p.token.id = id := by
  refine Pair.current ?_
  split
  · rename_i is
    exact Pair.pure here.valid ⟨rfl, is⟩
  · exact report_pair plain (by decide) _ _

theorem checkchar_pair (char : UInt8) (here : At level p) :
    Pair ok (checkchar char) (checkchar char) p fun _ q => q = p ∧ p.token.isChar char = true := by
  refine Pair.current ?_
  split
  · rename_i is
    exact Pair.pure here.valid ⟨rfl, is⟩
  · exact report_pair plain (by decide) _ _

theorem checknext_advances {id : Token.Id} (some : id ≠ .eof) : Advances ok level (checknext id) (checknext id) := by
  intro p here
  refine Pair.bind (check_pair plain id here) ?_
  rintro _ q kept ⟨rfl, is⟩
  exact (nextToken_skips plain _ here).mono fun _ _ _ less => less (is ▸ some)

theorem checkcharnext_advances (char : UInt8) : Advances ok level (checkcharnext char) (checkcharnext char) := by
  intro p here
  refine Pair.bind (checkchar_pair plain char here) ?_
  rintro _ q kept ⟨rfl, is⟩
  exact (nextToken_skips plain _ here).mono fun _ _ _ less => less (isChar_id is)

theorem checkname_advances : Advances ok level checkname checkname := fun _ here =>
  Pair.current ((checknext_advances plain (by decide)).bind (fun _ => .pure _) _ here)

theorem checkMatch_steady {id : Token.Id} (some : id ≠ .eof) (toClose : Token) :
    Steady ok level (checkMatch id toClose) (checkMatch id toClose) := by
  refine (testnext_steady plain some).bind fun found => ?_
  split
  · exact .pure ()
  · exact .current fun token _ _ => report_pair plain (by decide) _ _

theorem checkcharMatch_steady (char : UInt8) (toClose : Token) :
    Steady ok level (checkcharMatch char toClose) (checkcharMatch char toClose) := by
  refine (testcharnext_steady plain char).bind fun found => ?_
  split
  · exact .pure ()
  · exact .current fun token _ _ => report_pair plain (by decide) _ _

-- a list whose parts follow a separator
theorem separated_steady {β : Type} {item item' : ParseM β} {separator : UInt8} (steady : Steady ok level item item')
    (first : List β) :
    Steady ok level
      (loop (fun list => do
        let more ← testcharnext separator
        if more then
          let e ← item
          return Turn.again (list ++ [e])
        else return .leave list) first)
      (loop (fun list => do
        let more ← testcharnext separator
        if more then
          let e ← item'
          return Turn.again (list ++ [e])
        else return .leave list) first) := by
  refine Steady.loop (fun list p here => ?_) first
  refine Pair.bind (testcharnext_pair plain separator here) fun more q kept less => ?_
  split
  · rename_i found
    exact Pair.bind (steady q (kept.at here)) fun e r kept' _ =>
      Pair.again kept'.valid (kept'.left.trans_lt (less found))
  · exact Pair.leave kept.valid trivial

end

/-! ## Expressions -/

-- two parsers inside one level, which agree on what they call
structure Agreeing (ok : Stop → Stop → Prop) (level : Nat) (c c' : Calls) : Prop where
  subexpr : ∀ limit p, At level p → Pair ok (c.subexpr limit) (c'.subexpr limit) p
    fun e q => ∀ op, e.untreatedOperator = some op → op = q.token
  block : Steady ok level c.block c'.block

section

variable {ok : Stop → Stop → Prop} (plain : ∀ e, e.Plain → ok e e) {level : Nat} {c c' : Calls}
  (agree : Agreeing ok level c c')

include agree

theorem subexpr_steady (limit : Nat) : Steady ok level (c.subexpr limit) (c'.subexpr limit) := fun p here =>
  (agree.subexpr limit p here).mono fun _ _ _ _ => trivial

theorem expr_steady : Steady ok level (expr c) (expr c') := (subexpr_steady agree 0).bind fun _ => .pure _

theorem listfield_steady : Steady ok level (listfield c) (listfield c') := (expr_steady agree).bind fun _ => .pure _

include plain

theorem explist1_steady : Steady ok level (explist1 c) (explist1 c') :=
  (expr_steady agree).bind fun _ => separated_steady plain (expr_steady agree) _

-- it is only called in front of a name or a bracket
theorem recfieldKey_pair {p : Parser} (here : At level p)
    (start : p.token.id = .name ∨ p.token.isChar (ch '[') = true) :
    Pair ok (recfieldKey c) (recfieldKey c') p fun _ _ => True := by
  refine Pair.current ?_
  split
  · exact ((checkname_advances plain).steady.bind fun _ => .pure _) p here
  split
  · refine ((nextToken_skips plain).steady.bind fun _ => ?_) p here
    exact (expr_steady agree).bind fun _ => (checkcharnext_advances plain _).steady.bind fun _ => .pure _
  · rename_i noName noBracket
    exact (start.elim noName noBracket).elim

theorem recfield_pair {p : Parser} (here : At level p) (start : p.token.id = .name ∨ p.token.isChar (ch '[') = true) :
    Pair ok (recfield c) (recfield c') p fun _ _ => True := by
  refine Pair.bind (recfieldKey_pair plain agree here start) fun key q kept _ => ?_
  refine ((checkcharnext_advances plain _).steady.bind fun _ => ?_) q (kept.at here)
  exact (expr_steady agree).bind fun _ => .pure _

theorem tableField_steady : Steady ok level (tableField c) (tableField c') := by
  intro p here
  refine Pair.get ?_
  split
  · rename_i name
    split
    · split
      · exact recfield_pair plain agree here (.inl name)
      · exact listfield_steady agree p here
    · exact listfield_steady agree p here
    · rename_i trap
      exact (lookahead_returns here.valid.inside trap).elim
  split
  · rename_i bracket
    exact recfield_pair plain agree here (.inr bracket)
  · exact listfield_steady agree p here

omit agree in
theorem fieldSeparator_pair {p : Parser} (here : At level p) :
    Pair ok fieldSeparator fieldSeparator p fun more q => more = true → q.left < p.left := by
  refine Pair.bind (testcharnext_pair plain _ here) fun comma q kept less => ?_
  split
  · rename_i found
    exact Pair.pure kept.valid fun _ => less found
  · exact (testcharnext_pair plain _ (kept.at here)).mono fun _ _ _ less found => (less found).trans_le kept.left

theorem constructor_pair {p : Parser} (here : At level p) :
    Pair ok (constructor c) (constructor c') p fun node q => q.left < p.left ∧ node.getLastToken ≠ none := by
  refine Pair.current ?_
  refine Pair.bind (checkcharnext_advances plain _ p here) fun _ q kept less => ?_
  refine Pair.bind (Steady.loop (fun fields p here => ?_) [] q (kept.at here)) fun fields r kept₁ _ => ?_
  · refine Pair.current ?_
    split
    · exact Pair.leave here.valid trivial
    · refine Pair.bind (tableField_steady plain agree p here) fun field q kept _ => ?_
      refine Pair.bind (fieldSeparator_pair plain (kept.at here)) fun more r kept' less => ?_
      split
      · rename_i found
        exact Pair.again kept'.valid ((less found).trans_le kept.left)
      · exact Pair.leave kept'.valid trivial
  · refine Pair.current ?_
    refine Pair.bind (checkcharMatch_steady plain _ _ r (kept₁.at (kept.at here))) fun _ t kept₂ _ => ?_
    exact Pair.pure kept₂.valid ⟨(kept₁.trans kept₂).left.trans_lt less, Option.some_ne_none _⟩

theorem arguments_steady : Steady ok level (arguments c) (arguments c') := by
  refine .current fun token => ?_
  split
  · exact .pure _
  · exact explist1_steady plain agree

theorem funcargs_pair {p : Parser} {expression : Node} (last : expression.getLastToken ≠ none) (here : At level p) :
    Pair ok (funcargs c expression) (funcargs c' expression) p
      fun node q => q.left < p.left ∧ node.getLastToken ≠ none := by
  refine Pair.current ?_
  split
  · rename_i isOpen
    split
    · rename_i none
      exact (last none).elim
    split
    · exact report_pair plain (by decide) _ _
    · refine Pair.bind (nextToken_skips plain p here) fun _ q kept less => ?_
      refine Pair.bind (arguments_steady plain agree q (kept.at here)) fun arguments r kept₁ _ => ?_
      refine Pair.current ?_
      refine Pair.bind (checkcharMatch_steady plain _ _ r (kept₁.at (kept.at here))) fun _ t kept₂ _ => ?_
      exact Pair.pure kept₂.valid ⟨(kept₁.trans kept₂).left.trans_lt (less (isChar_id isOpen)), Option.some_ne_none _⟩
  split
  · refine Pair.bind (constructor_pair plain agree here) ?_
    rintro node q kept ⟨less, last⟩
    exact Pair.pure kept.valid ⟨less, last⟩
  split
  · rename_i string
    refine Pair.bind (nextToken_skips plain p here) fun _ q kept less => ?_
    exact Pair.pure kept.valid ⟨less (by rw [string]; decide), Option.some_ne_none _⟩
  · exact report_pair plain (by decide) _ _

theorem prefixexp_pair {p : Parser} (here : At level p) :
    Pair ok (prefixexp c) (prefixexp c') p fun e q => q.left < p.left ∧ e.node.getLastToken ≠ none := by
  refine Pair.current ?_
  split
  · rename_i name
    refine Pair.bind (nextToken_skips plain p here) fun _ q kept less => ?_
    exact Pair.pure kept.valid ⟨less (by rw [name]; decide), Option.some_ne_none _⟩
  split
  · rename_i isOpen
    refine Pair.bind (nextToken_skips plain p here) fun _ q kept less => ?_
    refine Pair.bind (expr_steady agree q (kept.at here)) fun expression r kept₁ _ => ?_
    refine Pair.current ?_
    refine Pair.bind (checkcharMatch_steady plain _ _ r (kept₁.at (kept.at here))) fun _ t kept₂ _ => ?_
    exact Pair.pure kept₂.valid ⟨(kept₁.trans kept₂).left.trans_lt (less (isChar_id isOpen)), Option.some_ne_none _⟩
  · exact report_pair plain (by decide) _ _

theorem suffix_pair {p : Parser} {expression : PossibleLValueExpression}
    (last : expression.node.getLastToken ≠ none) (here : At level p) :
    Pair ok (suffix c expression) (suffix c' expression) p
      (Turn.Holds (fun e q => q.left < p.left ∧ e.node.getLastToken ≠ none) fun _ _ => True) := by
  refine Pair.current ?_
  split
  · rename_i dot
    refine Pair.bind (nextToken_skips plain p here) fun _ q kept less => ?_
    refine Pair.bind (checkname_advances plain q (kept.at here)) fun field r kept₁ _ => ?_
    exact Pair.again kept₁.valid ⟨kept₁.left.trans_lt (less (isChar_id dot)), Option.some_ne_none _⟩
  split
  · rename_i bracket
    refine Pair.bind (nextToken_skips plain p here) fun _ q kept less => ?_
    refine Pair.bind (expr_steady agree q (kept.at here)) fun index r kept₁ _ => ?_
    refine Pair.current ?_
    refine Pair.bind (checkcharnext_advances plain _ r (kept₁.at (kept.at here))) fun _ t kept₂ _ => ?_
    exact Pair.again kept₂.valid
      ⟨(kept₁.trans kept₂).left.trans_lt (less (isChar_id bracket)), Option.some_ne_none _⟩
  split
  · rename_i colon
    refine Pair.bind (nextToken_skips plain p here) fun _ q kept less => ?_
    refine Pair.bind (checkname_advances plain q (kept.at here)) fun field r kept₁ _ => ?_
    refine Pair.bind (funcargs_pair plain agree (Option.some_ne_none _) (kept₁.at (kept.at here))) ?_
    rintro node t kept₂ ⟨-, last⟩
    exact Pair.again kept₂.valid ⟨(kept₁.trans kept₂).left.trans_lt (less (isChar_id colon)), last⟩
  split
  · refine Pair.bind (funcargs_pair plain agree last here) ?_
    rintro node q kept ⟨less, last⟩
    exact Pair.again kept.valid ⟨less, last⟩
  · exact Pair.leave here.valid trivial

theorem primaryexp_advances : Advances ok level (primaryexp c) (primaryexp c') := by
  intro p here
  refine Pair.bind (prefixexp_pair plain agree here) ?_
  rintro e q kept ⟨less, last⟩
  refine (Pair.loop (R := fun _ _ => True) (I := fun e _ => e.node.getLastToken ≠ none) (kept.at here) last
    fun e p here last => suffix_pair plain agree last here).mono ?_
  exact fun _ r kept₁ _ => kept₁.left.trans_lt less

/-! ## Functions -/

omit agree in
theorem param_pair (list : List Token) {p : Parser} (here : At level p) :
    Pair ok (param list) (param list) p (Turn.Holds (fun _ q => q.left < p.left) fun _ _ => True) := by
  refine Pair.current ?_
  split
  · rename_i name
    refine Pair.bind (nextToken_skips plain p here) fun _ q kept less => ?_
    refine Pair.bind (testcharnext_steady plain _ q (kept.at here)) fun more r kept₁ _ => ?_
    split
    · exact Pair.again kept₁.valid (kept₁.left.trans_lt (less (by rw [name]; decide)))
    · exact Pair.leave kept₁.valid trivial
  split
  · exact Pair.bind (nextToken_skips plain p here) fun _ q kept _ => Pair.leave kept.valid trivial
  · exact report_pair plain (by decide) _ _

omit agree in
theorem parlist_steady : Steady ok level parlist parlist := by
  refine .current fun token => ?_
  split
  · exact .pure _
  · exact Steady.loop (fun list p here => param_pair plain list here) []

omit plain agree in
-- the status is changed for a while
theorem within_pair {α : Type} {x y : ParseM α} {p p' : Parser} {restore : Parser → Parser}
    (input : p'.toInput = p.toInput) (keeps : ∀ q, (restore q).toInput = q.toInput)
    (status : ∀ q, q.toStatus = p'.toStatus → (restore q).toStatus = p.toStatus)
    (steady : Pair ok x y p' fun _ _ => True) :
    Pair ok (do set p'; let a ← x; modify restore; return a) (do set p'; let a ← y; modify restore; return a) p
      fun _ _ => True := by
  refine Both.bind (Both.self (Sat.set (Both.bind (Both.mono steady ?_))))
  rintro a q ⟨kept, -⟩
  refine Both.bind (Both.self (Sat.modify (Both.self (Sat.pure ⟨⟨status q kept.status, ?_, ?_⟩, trivial⟩))))
  · rw [keeps]
    exact kept.valid
  · rw [keeps, ← input]
    exact kept.left

omit plain in
theorem varargBlock_steady (varargFound : Bool) :
    Steady ok level (varargBlock c varargFound) (varargBlock c' varargFound) := by
  intro p here
  refine Pair.get (within_pair rfl (fun _ => rfl) ?_ (agree.block _ ⟨here.valid, here.level⟩))
  intro q same
  exact congrArg (fun status => ({ status with inVarargFunc := p.inVarargFunc } : Status)) same

theorem funcbody_steady (functionToken : Token) (name : Option Node) (isLocal : Bool) :
    Steady ok level (funcbody c functionToken name isLocal) (funcbody c' functionToken name isLocal) := by
  refine (checkcharnext_advances plain _).steady.bind fun _ => ?_
  refine (parlist_steady plain).bind fun params => ?_
  refine (checkcharnext_advances plain _).steady.bind fun _ => ?_
  refine (varargBlock_steady agree params.2).bind fun body => ?_
  exact (checkMatch_steady plain (by decide) functionToken).bind fun _ => .pure _

theorem simpleexp_steady : Steady ok level (simpleexp c) (simpleexp c') := by
  intro p here
  refine Pair.get ?_
  split
  · split
    · exact report_pair plain (by decide) _ _
    · exact ((nextToken_skips plain).steady.bind fun _ => .pure _) p here
  split
  · exact (constructor_pair plain agree here).mono fun _ _ _ _ => trivial
  split
  · exact ((nextToken_skips plain).steady.bind fun _ => funcbody_steady plain agree p.token none false) p here
  · exact ((primaryexp_advances plain agree).steady.bind fun _ => .pure _) p here

/-! ## Operators -/

theorem operand_steady : Steady ok level (operand c) (operand c') := by
  refine .current fun token => ?_
  split
  · exact (nextToken_skips plain).steady.bind fun _ => (subexpr_steady agree _).bind fun _ => .pure _
  · exact simpleexp_steady plain agree

omit plain agree in
theorem isBinary_id {op : Token} (isBinary : isBinaryOperator op = true) : op.id ≠ .eof := by
  intro eof
  unfold isBinaryOperator at isBinary
  rw [eof] at isBinary
  cases isBinary

theorem binary_pair {p : Parser} (limit : Nat) {e : SubExpr} (here : At level p)
    (upcoming : ∀ op, e.untreatedOperator = some op → op = p.token) :
    Pair ok (binary c limit e) (binary c' limit e) p
      (Turn.Holds (fun e q => q.left < p.left ∧ ∀ op, e.untreatedOperator = some op → op = q.token)
        fun e q => ∀ op, e.untreatedOperator = some op → op = q.token) := by
  unfold binary
  split
  · rename_i op found
    split
    · rename_i isBinary
      dsimp only
      split
      · exact Pair.leave here.valid upcoming
      · refine Pair.bind (nextToken_skips plain p here) fun _ q kept less => ?_
        refine Pair.bind (agree.subexpr _ q (kept.at here)) fun right r kept₁ next => ?_
        have some : p.token.id ≠ .eof := upcoming op found ▸ isBinary_id isBinary
        exact Pair.again kept₁.valid ⟨kept₁.left.trans_lt (less some), next⟩
    · refine Pair.leave here.valid ?_
      rintro op ⟨⟩
  · exact Pair.leave here.valid upcoming

/-! ## Statements -/

omit plain in
theorem loopBlock_steady : Steady ok level (loopBlock c) (loopBlock c') := by
  intro p here
  refine Pair.get (within_pair rfl (fun _ => rfl) ?_ (agree.block _ ⟨here.valid, here.level⟩))
  intro q same
  exact congrArg (fun status => ({ status with inLoop := p.inLoop } : Status)) same

omit agree in
theorem funcname_steady : Steady ok level funcname funcname := by
  refine (checkname_advances plain).steady.bind fun name => ?_
  refine (Steady.loop (fun node p here => ?_) _).bind fun node => ?_
  · refine Pair.current ?_
    split
    · rename_i dot
      refine Pair.bind (nextToken_skips plain p here) fun _ q kept less => ?_
      refine Pair.bind (checkname_advances plain q (kept.at here)) fun field r kept₁ _ => ?_
      exact Pair.again kept₁.valid (kept₁.left.trans_lt (less (isChar_id dot)))
    · exact Pair.leave here.valid trivial
  · refine .current fun separator => ?_
    split
    · refine (nextToken_skips plain).steady.bind fun _ => ?_
      exact (checkname_advances plain).steady.bind fun _ => .pure _
    · exact .pure _

theorem funcstat_skips : Skips ok level (funcstat c) (funcstat c') := by
  refine .current fun functionToken => (nextToken_skips plain).bind fun _ => ?_
  exact (funcname_steady plain).bind fun name => funcbody_steady plain agree functionToken (some name) false

theorem retstat_skips : Skips ok level (retstat c) (retstat c') := by
  refine (nextToken_skips plain).bind fun _ => .current fun token => ?_
  split
  · exact .pure _
  · exact (explist1_steady plain agree).bind fun _ => .pure _

theorem whilestat_skips : Skips ok level (whilestat c) (whilestat c') := by
  refine .current fun whileToken => (nextToken_skips plain).bind fun _ => ?_
  refine (expr_steady agree).bind fun condition => ?_
  refine (checknext_advances plain (by decide)).steady.bind fun _ => ?_
  refine (loopBlock_steady agree).bind fun body => ?_
  exact (checkMatch_steady plain (by decide) whileToken).bind fun _ => .pure _

omit agree in
theorem breakstat_skips : Skips ok level breakstat breakstat := by
  refine .current fun breakToken => (nextToken_skips plain).bind fun _ p here => ?_
  refine Pair.get ?_
  split
  · exact Pair.pure here.valid trivial
  · exact report_pair plain (by decide) _ _

theorem dostat_skips : Skips ok level (dostat c) (dostat c') := by
  refine .current fun doToken => (nextToken_skips plain).bind fun _ => ?_
  refine agree.block.bind fun body => ?_
  exact (checkMatch_steady plain (by decide) doToken).bind fun _ => .pure _

theorem repeatstat_skips : Skips ok level (repeatstat c) (repeatstat c') := by
  refine .current fun repeatToken => (nextToken_skips plain).bind fun _ => ?_
  refine (loopBlock_steady agree).bind fun body => ?_
  refine (checkMatch_steady plain (by decide) repeatToken).bind fun _ => ?_
  exact (expr_steady agree).bind fun _ => .pure _

theorem increment_steady : Steady ok level (increment c) (increment c') := by
  refine (testcharnext_steady plain _).bind fun more => ?_
  split
  · exact (expr_steady agree).bind fun _ => .pure _
  · exact .pure _

theorem fornum_steady (name : Token) : Steady ok level (fornum c name) (fornum c' name) := by
  refine (checkcharnext_advances plain _).steady.bind fun _ => ?_
  refine (expr_steady agree).bind fun start => ?_
  refine (checkcharnext_advances plain _).steady.bind fun _ => ?_
  refine (expr_steady agree).bind fun stop => ?_
  refine (increment_steady plain agree).bind fun step => ?_
  refine (checknext_advances plain (by decide)).steady.bind fun _ => ?_
  exact (loopBlock_steady agree).bind fun _ => .pure _

theorem forlist_steady (firstName : Token) : Steady ok level (forlist c firstName) (forlist c' firstName) := by
  refine (separated_steady plain (checkname_advances plain).steady _).bind fun names => ?_
  refine (checknext_advances plain (by decide)).steady.bind fun _ => ?_
  refine (explist1_steady plain agree).bind fun expressions => ?_
  refine (checknext_advances plain (by decide)).steady.bind fun _ => ?_
  exact (loopBlock_steady agree).bind fun _ => .pure _

theorem forvars_steady (name : Token) : Steady ok level (forvars c name) (forvars c' name) := by
  refine .current fun token => ?_
  split
  · exact fornum_steady plain agree name
  split
  · exact forlist_steady plain agree name
  · exact fun p _ => report_pair plain (by decide) _ _

theorem forstat_skips : Skips ok level (forstat c) (forstat c') := by
  refine .current fun forToken => (nextToken_skips plain).bind fun _ => ?_
  refine (checkname_advances plain).steady.bind fun name => ?_
  refine (forvars_steady plain agree name).bind fun node => ?_
  exact (checkMatch_steady plain (by decide) forToken).bind fun _ => .pure _

theorem clauseCondition_steady (ifToken : Token) :
    Steady ok level (clauseCondition c ifToken) (clauseCondition c' ifToken) := by
  unfold clauseCondition
  split
  · exact .pure _
  · refine (expr_steady agree).bind fun condition => ?_
    exact (checknext_advances plain (by decide)).steady.bind fun _ => .pure _

theorem ifclause_skips : Skips ok level (ifclause c) (ifclause c') := by
  refine .current fun ifToken => (nextToken_skips plain).bind fun _ => ?_
  exact (clauseCondition_steady plain agree ifToken).bind fun _ => agree.block.bind fun _ => .pure _

theorem elseclause_steady (clauses : List Node) : Steady ok level (elseclause c clauses) (elseclause c' clauses) := by
  refine .current fun token => ?_
  split
  · exact (ifclause_skips plain agree).steady.bind fun _ => .pure _
  · exact .pure _

theorem ifstat_skips : Skips ok level (ifstat c) (ifstat c') := by
  refine .current fun ifToken => (ifclause_skips plain agree).bind fun first => ?_
  refine (Steady.loop (fun clauses p here => ?_) _).bind fun clauses => ?_
  · refine Pair.current ?_
    split
    · rename_i isElseif
      exact Pair.bind (ifclause_skips plain agree p here) fun _ _ kept less =>
        Pair.again kept.valid (less (by rw [isElseif]; decide))
    · exact Pair.leave here.valid trivial
  · refine (elseclause_steady plain agree clauses).bind fun clauses => ?_
    exact (checkMatch_steady plain (by decide) ifToken).bind fun _ => .pure _

theorem localfunc_steady (functionToken : Token) :
    Steady ok level (localfunc c functionToken) (localfunc c' functionToken) :=
  (checkname_advances plain).steady.bind fun name =>
    funcbody_steady plain agree functionToken (some (.identifier name)) true

omit agree in
theorem localVariable_pair (targets : List Node) {p : Parser} (here : At level p) :
    Pair ok (localVariable targets) (localVariable targets) p
      (Turn.Holds (fun _ q => q.left < p.left) fun _ _ => True) := by
  refine Pair.bind (checkname_advances plain p here) fun name q kept less => ?_
  split
  · exact report_pair plain (by decide) _ _
  · refine Pair.bind (testcharnext_steady plain _ q (kept.at here)) fun more r kept₁ _ => ?_
    split
    · exact Pair.again kept₁.valid (kept₁.left.trans_lt less)
    · exact Pair.leave kept₁.valid trivial

theorem localValues_steady : Steady ok level (localValues c) (localValues c') := by
  refine (testcharnext_steady plain _).bind fun more => ?_
  split
  · exact explist1_steady plain agree
  · exact .pure _

theorem localstat_steady : Steady ok level (localstat c) (localstat c') := by
  refine (Steady.loop (fun targets p here => localVariable_pair plain targets here) []).bind fun targets => ?_
  exact (localValues_steady plain agree).bind fun _ => .pure _

theorem target_pair (s : List Node × PossibleLValueExpression) {p : Parser} (here : At level p) :
    Pair ok (target c s) (target c' s) p (Turn.Holds (fun _ q => q.left < p.left) fun _ _ => True) := by
  unfold target
  split
  · refine Pair.bind (testcharnext_pair plain _ here) fun more q kept less => ?_
    split
    · rename_i found
      refine Pair.bind (primaryexp_advances plain agree q (kept.at here)) fun next r kept₁ _ => ?_
      exact Pair.again kept₁.valid (kept₁.left.trans_lt (less found))
    · exact Pair.leave kept.valid trivial
  · exact report_pair plain (by decide) _ _

theorem assignment_steady (first : PossibleLValueExpression) :
    Steady ok level (assignment c first) (assignment c' first) := by
  refine (Steady.loop (fun s p here => target_pair plain agree s here) _).bind fun targets => ?_
  refine (checkcharnext_advances plain _).steady.bind fun _ => ?_
  exact (explist1_steady plain agree).bind fun _ => .pure _

theorem exprstat_advances : Advances ok level (exprstat c) (exprstat c') := by
  refine (primaryexp_advances plain agree).bind fun expression => ?_
  split
  · exact .pure _
  · exact assignment_steady plain agree expression

theorem statement_skips : Skips ok level (statement c) (statement c') := by
  refine .current fun token => ?_
  split
  · exact ifstat_skips plain agree
  · refine (nextToken_skips plain).bind fun _ => .current fun functionToken => ?_
    refine (testnext_steady plain (by decide)).bind fun found => ?_
    split
    · exact localfunc_steady plain agree functionToken
    · exact localstat_steady plain agree
  · exact retstat_skips plain agree
  · exact whilestat_skips plain agree
  · exact dostat_skips plain agree
  · exact repeatstat_skips plain agree
  · exact breakstat_skips plain
  · exact forstat_skips plain agree
  · exact funcstat_skips plain agree
  · exact (exprstat_advances plain agree).skips

theorem blockTurn_pair (list : List Node) {p : Parser} (here : At level p) :
    Pair ok (blockTurn c list) (blockTurn c' list) p
      (Turn.Holds (fun _ q => q.left < p.left) fun _ _ => True) := by
  refine Pair.current ?_
  split
  · exact Pair.leave here.valid trivial
  · rename_i more
    refine Pair.bind (statement_skips plain agree p here) fun stat q kept less => ?_
    refine Pair.bind (testcharnext_steady plain _ q (kept.at here)) fun _ r kept₁ _ => ?_
    have some : p.token.id ≠ .eof := fun eof => more (by rw [blockFollow, eof])
    split
    · exact Pair.leave kept₁.valid trivial
    · exact Pair.again kept₁.valid (kept₁.left.trans_lt (less some))

/-! ## Levels -/

omit plain agree in
theorem enterlevel_both {p : Parser} (room : p.syntaxLevel < maxSyntaxLevels) :
    Both ok enterlevel enterlevel p fun _ q => q = { p with syntaxLevel := p.syntaxLevel + 1 } := by
  refine Both.bind (Both.self (Sat.modify (Both.bind (Both.self (Sat.get ?_)))))
  rw [if_neg (Nat.not_lt.mpr room)]
  exact Both.self (Sat.pure rfl)

omit plain agree in
theorem leavelevel_both {p : Parser} {n : Nat} (inside : p.syntaxLevel = n + 1) :
    Both ok leavelevel leavelevel p fun _ q => q = { p with syntaxLevel := n } := by
  refine Both.bind (Both.self (Sat.get ?_))
  rw [if_neg (by omega)]
  refine Both.self (Sat.set ?_)
  rw [inside]
  rfl

omit plain agree in
theorem Kept.left_level {p q : Parser} (kept : Kept { p with syntaxLevel := p.syntaxLevel + 1 } q) :
    q.syntaxLevel = p.syntaxLevel + 1 ∧ Kept p { q with syntaxLevel := p.syntaxLevel } := by
  refine ⟨congrArg Status.syntaxLevel kept.status, ?_, kept.valid, kept.left⟩
  exact congrArg (fun status => ({ status with syntaxLevel := p.syntaxLevel } : Status)) kept.status

-- what is read one level further in
theorem subexpr_pair {outer : Nat} (inner : level = outer + 1) (room : outer < maxSyntaxLevels) (limit : Nat)
    {p : Parser} (here : At outer p) :
    Pair ok (subexpr c limit) (subexpr c' limit) p fun e q => ∀ op, e.untreatedOperator = some op → op = q.token := by
  have below : p.syntaxLevel < maxSyntaxLevels := here.level ▸ room
  refine Both.bind ((enterlevel_both below).mono ?_)
  rintro _ _ rfl
  have here₁ : At level { p with syntaxLevel := p.syntaxLevel + 1 } := ⟨here.valid, by rw [inner, ← here.level]⟩
  refine Both.bind (Both.mono (operand_steady plain agree _ here₁) ?_)
  rintro node q ⟨kept₁, -⟩
  refine Both.bind (Both.self (Sat.bind (Sat.get (Sat.pure ?_))))
  refine Both.bind (Both.mono (Pair.loop (R := fun e q => ∀ op, e.untreatedOperator = some op → op = q.token)
    (I := fun e q => ∀ op, e.untreatedOperator = some op → op = q.token) (kept₁.at here₁) ?_
    fun e q here upcoming => binary_pair plain agree limit here upcoming) ?_)
  · rintro op ⟨⟩
    rfl
  · rintro e r ⟨kept₂, next⟩
    obtain ⟨level, kept⟩ := (kept₁.trans kept₂).left_level
    refine Both.bind ((leavelevel_both level).mono ?_)
    rintro _ _ rfl
    exact Both.self (Sat.pure ⟨kept, next⟩)

theorem block_pair {outer : Nat} (inner : level = outer + 1) (room : outer < maxSyntaxLevels) :
    Steady ok outer (block c) (block c') := by
  intro p here
  have below : p.syntaxLevel < maxSyntaxLevels := here.level ▸ room
  refine Both.bind ((enterlevel_both below).mono ?_)
  rintro _ _ rfl
  have here₁ : At level { p with syntaxLevel := p.syntaxLevel + 1 } := ⟨here.valid, by rw [inner, ← here.level]⟩
  refine Both.bind (Both.mono (Steady.loop (fun list p here => blockTurn_pair plain agree list here) [] _ here₁) ?_)
  rintro list q ⟨kept₁, -⟩
  obtain ⟨level, kept⟩ := kept₁.left_level
  refine Both.bind ((leavelevel_both level).mono ?_)
  rintro _ _ rfl
  exact Both.self (Sat.pure ⟨kept, trivial⟩)

end

end Zua.Parse
