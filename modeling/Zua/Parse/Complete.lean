import Zua.Parse.Grammar

/-!
# Completeness of the parser

What the grammar derives is parsed, with the tree of the derivation. The induction is over the derivation; a
repetition of the grammar is the rest of a loop, from whatever the loop has collected.
-/

namespace Zua.Parse
open Zua.Lex Syntax

variable {α β σ : Type} {i i' j : Input} {s s' s'' : Status} {ts us : List Token} {t next : Token} {a : α} {b : β}

/-! ## The lookahead -/

theorem Reads.started (reads : Reads i ts i') (started : Started i.lexer) : Started i'.lexer := by
  induction reads with
  | nil => exact started
  | cons lexed _ ih => exact ih (started.forward lexed)

-- the copy that looks ahead has the same limits
theorem Started.lookahead {lexer : Lexer} (started : Started lexer) : lexer.lookahead = lexer.next := by
  obtain ⟨buffer, chunkName, reaches⟩ := started
  obtain ⟨index, lineNumber, rfl, -⟩ := reaches.position
  rfl

/-! ## Taking tokens -/

-- `Accepts`, for a lexer that started at the front of its buffer
def Takes (f : ParseM α) (s s' : Status) (ts : List Token) (a : α) (next : Token) : Prop :=
  ∀ i i', Started i.lexer → Reads i ts i' → i'.token = next → Room i ts → f ⟨i, s⟩ = .ok (a, ⟨i', s'⟩)

namespace Takes

variable {f : ParseM α} {g : α → ParseM β} {h : Unit → ParseM β} {char : UInt8} {id : Token.Id} {toClose : Token}

theorem of_accepts (accepts : Accepts f s s' ts a next) : Takes f s s' ts a next :=
  fun i i' _ reads upcoming room => accepts i i' reads upcoming room

theorem pure (a : α) : Takes (Pure.pure a) s s [] a next := of_accepts (.pure a)

theorem bind {l m : List Token} (first : Takes f s s' l a (m.headD next)) (rest : Takes (g a) s' s'' m b next) :
    Takes (f >>= g) s s'' (l ++ m) b next := by
  intro i i' started reads upcoming room
  obtain ⟨j, reads₁, reads₂⟩ := reads.split
  have middle : j.token = m.headD next := by rw [reads₂.token, upcoming]
  unfold Room at room
  rw [List.length_append] at room
  have run : (f >>= g) ⟨i, s⟩ = (f ⟨i, s⟩).bind fun result => g result.1 result.2 := rfl
  rw [run, first i j started reads₁ middle (show l.length ≤ _ by omega)]
  refine rest j i' (reads₁.started started) reads₂ upcoming ?_
  rw [Room, reads₁.buffer]
  omega

theorem last (first : Takes f s s' ts a next) (rest : Takes (g a) s' s'' [] b next) :
    Takes (f >>= g) s s'' ts b next := by
  have whole : Takes (f >>= g) s s'' (ts ++ []) b next := first.bind rest
  rwa [List.append_nil] at whole

-- what is accepted in front of the rest
theorem after (first : Accepts (f >>= Pure.pure) s s' ts a (us.headD next)) (rest : Takes (g a) s' s'' us b next) :
    Takes (f >>= g) s s'' (ts ++ us) b next := by
  rw [bind_pure] at first
  exact (of_accepts first).bind rest

theorem look {g : Token → ParseM β} (rest : Takes (g (ts.headD next)) s s' ts b next) :
    Takes (current >>= g) s s' ts b next := by
  intro i i' started reads upcoming room
  have head : i.token = ts.headD next := by rw [reads.token, upcoming]
  rw [← head] at rest
  exact rest i i' started reads upcoming room

theorem state {g : Parser → ParseM β}
    (rest : ∀ i, i.token = ts.headD next → Takes (g ⟨i, s⟩) s s' ts b next) : Takes (get >>= g) s s' ts b next := by
  intro i i' started reads upcoming room
  exact rest i (by rw [reads.token, upcoming]) i i' started reads upcoming room

theorem modify {change : Status → Status} {change' : Parser → Parser}
    (same : ∀ i, change' ⟨i, s⟩ = ⟨i, change s⟩) (rest : Takes (h ()) (change s) s' ts b next) :
    Takes (modifyGet (fun p => ((), change' p)) >>= h) s s' ts b next := by
  intro i i' started reads upcoming room
  show h () (change' ⟨i, s⟩) = _
  rw [same]
  exact rest i i' started reads upcoming room

theorem skip (t : Token) (rest : Takes (h ()) s s' ts b next) :
    Takes (Parse.nextToken >>= h) s s' (t :: ts) b next :=
  after (.skip t (.pure ())) rest

theorem testIf {test : Token → Bool} {g : Bool → ParseM β} (found : test t = true)
    (rest : Takes (g true) s s' ts b next) : Takes (Parse.testIf test >>= g) s s' (t :: ts) b next :=
  after (.testIf found (.pure true)) rest

theorem testNot {test : Token → Bool} {g : Bool → ParseM β} (other : test (ts.headD next) = false)
    (rest : Takes (g false) s s' ts b next) : Takes (Parse.testIf test >>= g) s s' ts b next :=
  after (.testNot other (.pure false)) rest

theorem tested {test : Token → Bool} (found : test t = true) : Takes (Parse.testIf test) s s [t] true next := by
  rw [← bind_pure (Parse.testIf test)]
  exact testIf found (pure true)

theorem untested {test : Token → Bool} (other : test next = false) : Takes (Parse.testIf test) s s [] false next := by
  rw [← bind_pure (Parse.testIf test)]
  exact testNot other (pure false)

theorem checkcharnext (found : t.isChar char = true) (rest : Takes (h ()) s s' ts b next) :
    Takes (Parse.checkcharnext char >>= h) s s' (t :: ts) b next :=
  after (.checkcharnext found (.pure ())) rest

theorem checknext (found : t.id = id) (rest : Takes (h ()) s s' ts b next) :
    Takes (Parse.checknext id >>= h) s s' (t :: ts) b next :=
  after (.checknext found (.pure ())) rest

theorem checkname {g : Token → ParseM β} (found : t.id = .name) (rest : Takes (g t) s s' ts b next) :
    Takes (Parse.checkname >>= g) s s' (t :: ts) b next :=
  after (.checkname found (.pure t)) rest

theorem checkcharMatch (found : t.isChar char = true) (rest : Takes (h ()) s s' ts b next) :
    Takes (Parse.checkcharMatch char toClose >>= h) s s' (t :: ts) b next :=
  after (.checkcharMatch found (.pure ())) rest

theorem checkMatch (found : t.id = id) (rest : Takes (h ()) s s' ts b next) :
    Takes (Parse.checkMatch id toClose >>= h) s s' (t :: ts) b next :=
  after (.checkMatch found (.pure ())) rest

theorem enterlevel (inside : s.syntaxLevel < maxSyntaxLevels) (rest : Takes (h ()) s.deeper s' ts b next) :
    Takes (Parse.enterlevel >>= h) s s' ts b next :=
  after (.enterlevel inside (.pure ())) rest

theorem leavelevel (rest : Takes (h ()) s s' ts b next) : Takes (Parse.leavelevel >>= h) s.deeper s' ts b next :=
  after (.leavelevel (.pure ())) rest

/-! ## Loops -/

-- `Accepts.Turns`, for such lexers
def Turns (step : σ → ParseM (Turn σ β)) (s : Status) (x : σ) (ts : List Token) (b : β) (next : Token) : Prop :=
  ∀ n, ts.length < n → Takes (iterate step n x) s s ts b next

variable {step : σ → ParseM (Turn σ β)} {x y : σ}

theorem Turns.same (turns : Turns step s x ts b next) (same : step y = step x) : Turns step s y ts b next := by
  intro n less
  cases n with
  | zero => exact absurd less (Nat.not_lt_zero _)
  | succ n =>
      have round : iterate step (n + 1) y = iterate step (n + 1) x := by
        unfold iterate
        rw [same]
      rw [round]
      exact turns (n + 1) less

theorem leave (turn : Takes (step x) s s ts (.leave b) next) : Turns step s x ts b next := by
  intro n less
  cases n with
  | zero => exact absurd less (Nat.not_lt_zero _)
  | succ n => exact turn.last (pure b)

theorem again {l m : List Token} (some : l ≠ []) (turn : Takes (step x) s s l (.again y) (m.headD next))
    (rest : Turns step s y m b next) : Turns step s x (l ++ m) b next := by
  intro n less
  cases n with
  | zero => exact absurd less (Nat.not_lt_zero _)
  | succ n =>
      refine turn.bind (rest n ?_)
      have positive := List.length_pos_iff.mpr some
      rw [List.length_append] at less
      omega

theorem loop (turns : Turns step s x ts b next) : Takes (loop step x) s s ts b next := by
  intro i i' started reads upcoming room
  exact turns (i.lexer.buffer.length + 2) (Nat.lt_succ_of_le room) i i' started reads upcoming room

end Takes

/-! ## How phrases begin -/

-- the tokens that an expression begins with
def starts (token : Token) : Bool :=
  isLiteral token.id || token.id == .name || token.id == .keywordFunction || token.isChar (ch '{') ||
    token.isChar (ch '(') || isUnaryOperator token

theorem isChar_single {token : Token} {char : UInt8} (is : token.isChar char = true) : token.id = .singleChar :=
  (isChar_iff.mp is).1

theorem isChar_other {token : Token} {char d : UInt8} (is : token.isChar char = true) (apart : char ≠ d) :
    token.isChar d = false := by
  obtain ⟨id, same⟩ := isChar_iff.mp is
  by_contra isOther
  obtain ⟨-, different⟩ := isChar_iff.mp ((Bool.not_eq_false _).mp isOther)
  rw [same] at different
  exact apart (Option.some.inj different)

theorem isChar_of_id {token : Token} (id : token.id ≠ .singleChar) (char : UInt8) : token.isChar char = false := by
  by_contra is
  exact id (isChar_single ((Bool.not_eq_false _).mp is))

theorem starts_iff {token : Token} : starts token = true ↔ isLiteral token.id = true ∨ token.id = .name ∨
    token.id = .keywordFunction ∨ token.isChar (ch '{') = true ∨ token.isChar (ch '(') = true ∨
      isUnaryOperator token = true := by
  unfold starts
  simp only [Bool.or_eq_true, beq_iff_eq, or_assoc]

theorem unary_cases {token : Token} (h : isUnaryOperator token = true) :
    token.id = .keywordNot ∨ token.isChar (ch '-') = true ∨ token.isChar (ch '#') = true := by
  unfold isUnaryOperator at h
  split at h
  · rename_i id
    exact .inl id
  · rename_i id
    rw [Bool.or_eq_true, beq_iff_eq, beq_iff_eq] at h
    rcases h with char | char
    · exact .inr (.inl (isChar_iff.mpr ⟨id, char⟩))
    · exact .inr (.inr (isChar_iff.mpr ⟨id, char⟩))
  · cases h

-- an expression begins with none of the tokens that could stand there instead
theorem starts_apart {token : Token} (h : starts token = true) : blockFollow token = false ∧
    ∀ char, char ∈ [ch ')', ch '}', ch ';', ch '['] → token.isChar char = false := by
  have byId (id : token.id ≠ .singleChar) (follows : blockFollow token = false) : blockFollow token = false ∧
      ∀ char, char ∈ [ch ')', ch '}', ch ';', ch '['] → token.isChar char = false :=
    ⟨follows, fun char _ => isChar_of_id id char⟩
  have byChar {char : UInt8} (is : token.isChar char = true) (apart : char ∉ [ch ')', ch '}', ch ';', ch '[']) :
      blockFollow token = false ∧ ∀ char, char ∈ [ch ')', ch '}', ch ';', ch '['] → token.isChar char = false := by
    refine ⟨?_, fun other member => isChar_other is fun same => apart (same ▸ member)⟩
    unfold blockFollow
    rw [isChar_single is]
  rcases starts_iff.mp h with literal | name | function | brace | paren | unary
  · refine byId ?_ ?_
    · intro id
      rw [id] at literal
      cases literal
    · unfold blockFollow
      cases id : token.id <;> rw [id] at literal <;> first | rfl | cases literal
  · exact byId (by rw [name]; decide) (by unfold blockFollow; rw [name])
  · exact byId (by rw [function]; decide) (by unfold blockFollow; rw [function])
  · exact byChar brace (by decide)
  · exact byChar paren (by decide)
  · rcases unary_cases unary with not | minus | sharp
    · exact byId (by rw [not]; decide) (by unfold blockFollow; rw [not])
    · exact byChar minus (by decide)
    · exact byChar sharp (by decide)

theorem Derives.constructor_head {node : Node} (h : Derives s (.constructor node) ts next) :
    ∃ t us, ts = t :: us ∧ t.isChar (ch '{') = true := by
  cases h with
  | constructor isOpen _ _ => exact ⟨_, _, rfl, isOpen⟩

theorem Derives.primary_head {node : Node} (h : Derives s (.primary node) ts next) :
    ∃ t us, ts = t :: us ∧ (t.id = .name ∨ t.isChar (ch '(') = true) := by
  cases h with
  | name name _ => exact ⟨_, _, rfl, .inl name⟩
  | group isOpen _ _ _ => exact ⟨_, _, rfl, .inr isOpen⟩

theorem Derives.simple_head {node : Node} (h : Derives s (.simple node) ts next) :
    ∃ t us, ts = t :: us ∧ starts t = true ∧ isUnaryOperator t = false := by
  have notUnary {t : Token} (id : t.id ≠ .singleChar) (other : t.id ≠ .keywordNot) : isUnaryOperator t = false := by
    unfold isUnaryOperator
    cases is : t.id <;> first | rfl | exact absurd is id | exact absurd is other
  have byChar {t : Token} {char : UInt8} (is : t.isChar char = true)
      (apart : isUnaryOperator { t with id := .singleChar, char := some char } = false) : isUnaryOperator t = false := by
    obtain ⟨id, same⟩ := isChar_iff.mp is
    rw [← id, ← same] at apart
    exact apart
  cases h with
  | literal literal _ =>
      refine ⟨_, _, rfl, starts_iff.mpr (.inl literal), notUnary ?_ ?_⟩
      · intro id
        rw [id] at literal
        cases literal
      · intro id
        rw [id] at literal
        cases literal
  | closure function _ =>
      refine ⟨_, _, rfl, starts_iff.mpr (.inr (.inr (.inl function))), notUnary ?_ ?_⟩
      · rw [function]
        decide
      · rw [function]
        decide
  | table table =>
      obtain ⟨t, us, same, brace⟩ := table.constructor_head
      exact ⟨t, us, same, starts_iff.mpr (.inr (.inr (.inr (.inl brace)))), byChar brace rfl⟩
  | primary primary =>
      obtain ⟨t, us, same, name | paren⟩ := primary.primary_head
      · exact ⟨t, us, same, starts_iff.mpr (.inr (.inl name)), notUnary (by rw [name]; decide) (by rw [name]; decide)⟩
      · exact ⟨t, us, same, starts_iff.mpr (.inr (.inr (.inr (.inr (.inl paren))))), byChar paren rfl⟩

theorem Derives.subexpr_head {limit : Nat} {node : Node} (h : Derives s (.subexpr limit node) ts next) :
    ∃ t us, ts = t :: us ∧ starts t = true := by
  cases h with
  | subexpr _ operand _ =>
      cases operand with
      | unary unary _ =>
          exact ⟨_, _, rfl, starts_iff.mpr (.inr (.inr (.inr (.inr (.inr unary)))))⟩
      | simple simple =>
          obtain ⟨t, us, rfl, start, -⟩ := simple.simple_head
          exact ⟨t, _, rfl, start⟩

theorem Derives.explist_head {values : List Node} (h : Derives s (.explist values) ts next) :
    ∃ t us, ts = t :: us ∧ starts t = true := by
  cases h with
  | explist value _ =>
      obtain ⟨t, us, rfl, start⟩ := value.subexpr_head
      exact ⟨t, _, rfl, start⟩

theorem Derives.field_head {node : Node} (h : Derives s (.field node) ts next) :
    ∃ t us, ts = t :: us ∧ t.isChar (ch '}') = false := by
  cases h with
  | nameField name _ _ => exact ⟨_, _, rfl, isChar_of_id (by rw [name]; decide) _⟩
  | keyField isOpen _ _ _ _ => exact ⟨_, _, rfl, isChar_other isOpen (by decide)⟩
  | listField value =>
      obtain ⟨t, us, same, start⟩ := value.subexpr_head
      exact ⟨t, us, same, (starts_apart start).2 _ (by decide)⟩

theorem Derives.clause_head {head : Token} {node : Node} (h : Derives s (.clause head node) ts next) :
    ∃ us, ts = head :: us := by
  cases h with
  | clause _ _ _ _ => exact ⟨_, rfl⟩
  | elseClause _ _ => exact ⟨_, rfl⟩

theorem Derives.args_head {callee node : Node} (h : Derives s (.args callee node) ts next) :
    ∃ t us, ts = t :: us ∧ (t.isChar (ch '(') = true ∨ t.isChar (ch '{') = true ∨ t.id = .string) := by
  cases h with
  | parenthesised isOpen _ _ _ _ => exact ⟨_, _, rfl, .inl isOpen⟩
  | tableArgument table =>
      obtain ⟨t, us, rfl, brace⟩ := table.constructor_head
      exact ⟨t, us, rfl, .inr (.inl brace)⟩
  | stringArgument string => exact ⟨_, _, rfl, .inr (.inr string)⟩

theorem Derives.args_call {callee node : Node} (h : Derives s (.args callee node) ts next) :
    assignable node = false := by
  cases h <;> rfl

theorem Derives.statement_head {node : Node} (h : Derives s (.statement node) ts next) :
    ∃ t us, ts = t :: us ∧ blockFollow t = false := by
  have byId {t : Token} {us : List Token} {id : Token.Id} (is : t.id = id)
      (apart : blockFollow { t with id } = false) : ∃ t' us', t :: us = t' :: us' ∧ blockFollow t' = false := by
    refine ⟨t, us, rfl, ?_⟩
    rw [← is] at apart
    exact apart
  have byPrimary {node : Node} {us : List Token} (vs : List Token) {next : Token} (primary : Derives s (.primary node) us next) :
      ∃ t ws, us ++ vs = t :: ws ∧ blockFollow t = false := by
    obtain ⟨t, us, rfl, name | paren⟩ := primary.primary_head
    · exact ⟨t, _, rfl, by unfold blockFollow; rw [name]⟩
    · exact ⟨t, _, rfl, by unfold blockFollow; rw [isChar_single paren]⟩
  cases h with
  | ifStatement isIf clause _ _ _ =>
      obtain ⟨us, rfl⟩ := clause.clause_head
      exact byId isIf rfl
  | localFunction is _ _ _ | localStatement is _ _ _ _ | returnNothing is _ | returnValues is _
  | whileStatement is _ _ _ _ | doStatement is _ _ | repeatStatement is _ _ _ | breakStatement is _
  | forNumeric is _ _ _ _ _ _ _ _ _ | forGeneric is _ _ _ _ _ _ _ | function is _ _ => exact byId is rfl
  | callStatement primary =>
      have head := byPrimary [] primary
      rwa [List.append_nil] at head
  | assignment primary _ _ _ => exact byPrimary _ primary

theorem Derives.suffixes_head {operand node : Node} (h : Derives s (.suffixes operand node) ts next)
    (apart : next.isChar (ch '=') = false) : (ts.headD next).isChar (ch '=') = false := by
  cases h with
  | noSuffix _ => exact apart
  | fieldAccess dot _ _ => exact isChar_other dot (by decide)
  | indexAccess bracket _ _ _ => exact isChar_other bracket (by decide)
  | method colon _ _ _ => exact isChar_other colon (by decide)
  | call args _ =>
      obtain ⟨t, us, rfl, paren | brace | string⟩ := args.args_head
      · exact isChar_other paren (by decide)
      · exact isChar_other brace (by decide)
      · have id : t.id ≠ .singleChar := by
          rw [string]
          decide
        exact isChar_of_id id _

theorem Derives.operations_head {limit : Nat} {left node : Node} (h : Derives s (.operations limit left node) ts next)
    (apart : next.isChar (ch '=') = false) : (ts.headD next).isChar (ch '=') = false := by
  cases h with
  | noOperation _ => exact apart
  | operation binary _ _ _ =>
      by_contra equals
      obtain ⟨id, char⟩ := isChar_iff.mp ((Bool.not_eq_false _).mp equals)
      unfold isBinaryOperator at binary
      rw [List.headD_cons] at id char
      rw [id, char] at binary
      cases binary

-- behind a name that begins an expression there is no equals sign
theorem Derives.simple_second {node : Node} {name : Token} (h : Derives s (.simple node) (name :: ts) next)
    (isName : name.id = .name) (apart : next.isChar (ch '=') = false) : (ts.headD next).isChar (ch '=') = false := by
  have notChar {char : UInt8} (is : name.isChar char = true) : False := by
    rw [isChar_single is] at isName
    cases isName
  cases h with
  | literal literal _ =>
      rw [isName] at literal
      cases literal
  | closure function _ =>
      rw [isName] at function
      cases function
  | table table =>
      obtain ⟨t, us, same, brace⟩ := table.constructor_head
      cases same
      exact (notChar brace).elim
  | primary primary =>
      cases primary with
      | name _ suffixes => exact suffixes.suffixes_head apart
      | group isOpen _ _ _ => exact (notChar isOpen).elim

theorem Derives.subexpr_second {limit : Nat} {node : Node} {name : Token}
    (h : Derives s (.subexpr limit node) (name :: ts) next) (isName : name.id = .name)
    (apart : next.isChar (ch '=') = false) : (ts.headD next).isChar (ch '=') = false := by
  generalize whole : name :: ts = all at h
  cases h with
  | @subexpr _ _ _ _ us vs _ _ operand operations =>
      have behind := operations.operations_head apart
      cases operand with
      | unary unary _ =>
          cases whole
          rcases unary_cases unary with not | minus | sharp
          · rw [isName] at not
            cases not
          · rw [isChar_single minus] at isName
            cases isName
          · rw [isChar_single sharp] at isName
            cases isName
      | simple simple =>
          obtain ⟨t, us, rfl, -⟩ := simple.simple_head
          cases whole
          have second := simple.simple_second isName behind
          cases us with
          | nil => exact behind
          | cons u us => exact second

/-! ## Expressions -/

-- the value of a primary expression
def lvalue (node : Node) : PossibleLValueExpression := ⟨node, assignable node⟩

def explistTurn (c : Calls) (list : List Node) : ParseM (Turn (List Node) (List Node)) := do
  let more ← testcharnext (ch ',')
  if more then
    let e ← expr c
    return .again (list ++ [e])
  else return .leave list

def fieldTurn (c : Calls) (fields : List Node) : ParseM (Turn (List Node) (List Node)) := do
  let token ← current
  if token.isChar (ch '}') then return .leave fields
  else
    let field ← tableField c
    let more ← fieldSeparator
    if more then return .again (fields ++ [field]) else return .leave (fields ++ [field])

section expressions

variable {c : Calls} {node value key callee call operand left right : Node} {op : Option Token}
  {openToken closeToken equals comma separator dot field colon name last : Token} {list nodes : List Node} {vs : List Token}
  {limit : Nat}

open Takes (Turns)

theorem expr_takes (e : Takes (c.subexpr 0) s s ts ⟨node, op⟩ next) : Takes (expr c) s s ts node next :=
  e.last (.pure _)

theorem explistTurn_leave (apart : next.isChar (ch ',') = false) : Turns (explistTurn c) s list [] list next :=
  .leave (.testNot apart (.pure _))

theorem explistTurn_again (isComma : comma.isChar (ch ',') = true)
    (e : Takes (c.subexpr 0) s s ts ⟨node, op⟩ (us.headD next))
    (rest : Turns (explistTurn c) s (list ++ [node]) us nodes next) :
    Turns (explistTurn c) s list (comma :: (ts ++ us)) nodes next := by
  refine .again (List.cons_ne_nil comma ts) ?_ rest
  refine .testIf isComma ?_
  exact (expr_takes e).last (.pure _)

theorem explist1_takes (e : Takes (c.subexpr 0) s s ts ⟨node, op⟩ (us.headD next))
    (rest : Turns (explistTurn c) s [node] us nodes next) : Takes (explist1 c) s s (ts ++ us) nodes next :=
  (expr_takes e).bind (.loop rest)

theorem nameField_takes (isName : name.id = .name) (isEquals : equals.isChar (ch '=') = true)
    (e : Takes (c.subexpr 0) s s ts ⟨value, op⟩ next) :
    Takes (tableField c) s s (name :: equals :: ts) (.tableField (some (.literal name)) value) next := by
  have key : Takes (recfieldKey c) s s [name] (.literal name) equals := by
    refine .look ?_
    rw [List.headD_cons, if_pos isName]
    exact .checkname isName (.pure _)
  have field : Takes (recfield c) s s (name :: equals :: ts) (.tableField (some (.literal name)) value) next := by
    refine Takes.bind (m := equals :: ts) key ?_
    refine .checkcharnext isEquals ?_
    exact (expr_takes e).last (.pure _)
  intro i i' started reads upcoming room
  have whole := field i i' started reads upcoming room
  cases reads with
  | @cons _ _ _ token _ lexed rest =>
      have second : token = equals := rest.token
      have lookahead : i.lexer.lookahead = .token _ _ := started.lookahead.trans lexed
      show (if i.token.id = .name then _ else _ : ParseM Node) ⟨i, s⟩ = _
      rw [if_pos isName, lookahead]
      show (if token.isChar (ch '=') then _ else _ : ParseM Node) ⟨i, s⟩ = _
      rw [second, if_pos isEquals]
      exact whole

theorem keyField_takes (isOpen : openToken.isChar (ch '[') = true)
    (k : Takes (c.subexpr 0) s s ts ⟨key, op⟩ closeToken) (isClose : closeToken.isChar (ch ']') = true)
    (isEquals : equals.isChar (ch '=') = true) {op' : Option Token}
    (e : Takes (c.subexpr 0) s s us ⟨value, op'⟩ next) :
    Takes (tableField c) s s (openToken :: (ts ++ closeToken :: equals :: us)) (.tableField (some key) value) next := by
  have notName : openToken.id ≠ .name := by
    rw [isChar_single isOpen]
    decide
  have key' : Takes (recfieldKey c) s s (openToken :: (ts ++ [closeToken])) key equals := by
    refine .look ?_
    rw [List.headD_cons, if_neg notName, if_pos isOpen]
    refine .skip openToken ?_
    refine Takes.bind (expr_takes k) ?_
    exact .checkcharnext isClose (.pure _)
  refine .state fun i head => ?_
  rw [List.headD_cons] at head
  dsimp only
  rw [head, if_neg notName, if_pos isOpen]
  have whole : Takes (recfield c) s s (openToken :: (ts ++ [closeToken]) ++ equals :: us)
      (.tableField (some key) value) next := by
    refine key'.bind ?_
    refine .checkcharnext isEquals ?_
    exact (expr_takes e).last (.pure _)
  simpa using whole

theorem listField_takes {t : Token} (start : starts t = true)
    (apart : t.id = .name → (ts.headD next).isChar (ch '=') = false)
    (e : Takes (c.subexpr 0) s s (t :: ts) ⟨value, op⟩ next) :
    Takes (tableField c) s s (t :: ts) (.tableField none value) next := by
  have field : Takes (listfield c) s s (t :: ts) (.tableField none value) next := (expr_takes e).last (.pure _)
  have notBracket := (starts_apart start).2 (ch '[') (by decide)
  intro i i' started reads upcoming room
  have whole := field i i' started reads upcoming room
  cases reads with
  | @cons _ _ _ token _ lexed rest =>
      have second : token = ts.headD next := by
        rw [← upcoming]
        exact rest.token
      have lookahead : i.lexer.lookahead = .token _ _ := started.lookahead.trans lexed
      show (if i.token.id = .name then _ else if i.token.isChar (ch '[') then _ else _ : ParseM Node) ⟨i, s⟩ = _
      split
      · rename_i isName
        rw [lookahead]
        show (if token.isChar (ch '=') then _ else _ : ParseM Node) ⟨i, s⟩ = _
        rw [second, apart isName]
        exact whole
      · rw [if_neg (by rw [notBracket]; decide)]
        exact whole

theorem fieldTurn_none (ends : next.isChar (ch '}') = true) : Turns (fieldTurn c) s list [] list next := by
  refine .leave (.look ?_)
  rw [List.headD_nil, if_pos ends]
  exact .pure _

theorem fieldTurn_last {t : Token} (apart : t.isChar (ch '}') = false) (ends : next.isChar (ch '}') = true)
    (field : Takes (tableField c) s s (t :: ts) node next) :
    Turns (fieldTurn c) s list (t :: ts) (list ++ [node]) next := by
  refine .leave (.look ?_)
  rw [List.headD_cons, apart]
  refine field.last ?_
  have separator : Takes fieldSeparator s s [] false next := by
    refine .testNot (isChar_other ends (by decide)) ?_
    exact .untested (isChar_other ends (by decide))
  exact separator.last (.pure _)

theorem fieldTurn_again {t : Token} (apart : t.isChar (ch '}') = false)
    (isSeparator : (separator.isChar (ch ',') || separator.isChar (ch ';')) = true)
    (field : Takes (tableField c) s s (t :: ts) node separator)
    (rest : Turns (fieldTurn c) s (list ++ [node]) us nodes next) :
    Turns (fieldTurn c) s list (t :: ts ++ separator :: us) nodes next := by
  have more : Takes fieldSeparator s s [separator] true (us.headD next) := by
    cases comma : separator.isChar (ch ',') with
    | true => exact .testIf comma (.pure true)
    | false =>
        rw [comma, Bool.false_or] at isSeparator
        exact .testNot comma (.tested isSeparator)
  have turn : Takes (fieldTurn c list) s s (t :: ts ++ [separator]) (.again (list ++ [node])) (us.headD next) := by
    refine .look ?_
    rw [List.cons_append, List.headD_cons, apart]
    refine Takes.bind (l := t :: ts) field ?_
    exact more.last (.pure _)
  have whole := Takes.again (by simp) turn rest
  rwa [List.append_assoc] at whole

theorem constructor_takes (isOpen : openToken.isChar (ch '{') = true)
    (fields : Turns (fieldTurn c) s [] ts nodes closeToken) (isClose : closeToken.isChar (ch '}') = true) :
    Takes (constructor c) s s (openToken :: (ts ++ [closeToken])) (.tableConstructor nodes openToken closeToken) next := by
  refine .look ?_
  rw [List.headD_cons]
  refine .checkcharnext isOpen ?_
  refine Takes.bind (.loop fields) ?_
  refine .look ?_
  exact .checkcharMatch isClose (.pure _)

theorem arguments_none (isClose : next.isChar (ch ')') = true) : Takes (arguments c) s s [] [] next := by
  refine .look ?_
  rw [List.headD_nil, if_pos isClose]
  exact .pure _

theorem arguments_some {t : Token} (start : starts t = true) (values : Takes (explist1 c) s s (t :: ts) nodes next) :
    Takes (arguments c) s s (t :: ts) nodes next := by
  refine .look ?_
  rw [List.headD_cons, (starts_apart start).2 (ch ')') (by decide)]
  exact values

theorem parenthesised_takes (isOpen : openToken.isChar (ch '(') = true) (found : callee.getLastToken = some last)
    (sameLine : last.lineNumber = openToken.lineNumber) (values : Takes (arguments c) s s ts nodes closeToken)
    (isClose : closeToken.isChar (ch ')') = true) :
    Takes (funcargs c callee) s s (openToken :: (ts ++ [closeToken]))
      (.call callee nodes (some openToken) (some closeToken) false) next := by
  refine .look ?_
  rw [List.headD_cons, if_pos isOpen, found]
  dsimp only
  rw [if_neg (not_not.mpr sameLine)]
  refine .skip openToken ?_
  refine values.bind ?_
  refine .look ?_
  exact .checkcharMatch isClose (.pure _)

theorem tableArgument_takes {t : Token} (brace : t.isChar (ch '{') = true)
    (table : Takes (constructor c) s s (t :: ts) node next) :
    Takes (funcargs c callee) s s (t :: ts) (.call callee [node] none none false) next := by
  refine .look ?_
  rw [List.headD_cons, isChar_other brace (d := ch '(') (by decide), if_pos brace]
  exact table.last (.pure _)

theorem stringArgument_takes {t : Token} (string : t.id = .string) :
    Takes (funcargs c callee) s s [t] (.call callee [.literal t] none none false) next := by
  have id : t.id ≠ .singleChar := by
    rw [string]
    decide
  refine .look ?_
  rw [List.headD_cons, isChar_of_id id, isChar_of_id id, if_pos string]
  exact .skip t (.pure _)

/-! ## Primary expressions -/

theorem suffix_none (apart : continues next = false) : Turns (suffix c) s (lvalue node) [] (lvalue node) next :=
  .leave (.of_accepts (suffix_leaves apart))

theorem suffix_field (isDot : dot.isChar (ch '.') = true) (isName : field.id = .name)
    (rest : Turns (suffix c) s (lvalue (.fieldAccess operand field dot)) us (lvalue node) next) :
    Turns (suffix c) s (lvalue operand) (dot :: field :: us) (lvalue node) next := by
  refine Takes.again (l := [dot, field]) (List.cons_ne_nil _ _) ?_ rest
  refine .look ?_
  rw [List.headD_cons, if_pos isDot]
  refine .skip dot ?_
  exact .checkname isName (.pure _)

theorem suffix_index (isOpen : openToken.isChar (ch '[') = true) (isClose : closeToken.isChar (ch ']') = true)
    (index : Takes (c.subexpr 0) s s ts ⟨key, op⟩ closeToken)
    (rest : Turns (suffix c) s (lvalue (.indexAccess operand key openToken closeToken)) us (lvalue node) next) :
    Turns (suffix c) s (lvalue operand) (openToken :: (ts ++ closeToken :: us)) (lvalue node) next := by
  have turn : Takes (suffix c (lvalue operand)) s s (openToken :: (ts ++ [closeToken]))
      (.again (lvalue (.indexAccess operand key openToken closeToken))) (us.headD next) := by
    refine .look ?_
    rw [List.headD_cons, isChar_other isOpen (d := ch '.') (by decide), if_pos isOpen]
    refine .skip openToken ?_
    refine Takes.bind (expr_takes index) ?_
    refine .look ?_
    exact .checkcharnext isClose (.pure _)
  simpa using Takes.again (by simp) turn rest

theorem suffix_method (isColon : colon.isChar (ch ':') = true) (isName : field.id = .name)
    (args : Takes (funcargs c (.fieldAccess operand field colon)) s s ts call (us.headD next))
    (isCall : assignable call = false) (rest : Turns (suffix c) s (lvalue call) us (lvalue node) next) :
    Turns (suffix c) s (lvalue operand) (colon :: field :: (ts ++ us)) (lvalue node) next := by
  refine Takes.again (l := colon :: field :: ts) (List.cons_ne_nil _ _) ?_ rest
  refine .look ?_
  rw [List.headD_cons, isChar_other isColon (d := ch '.') (by decide),
    isChar_other isColon (d := ch '[') (by decide), if_pos isColon]
  refine .skip colon ?_
  refine .checkname isName ?_
  refine args.last ?_
  rw [lvalue, isCall]
  exact .pure _

theorem suffix_call {t : Token} (head : t.isChar (ch '(') = true ∨ t.isChar (ch '{') = true ∨ t.id = .string)
    (args : Takes (funcargs c operand) s s (t :: ts) call (us.headD next)) (isCall : assignable call = false)
    (rest : Turns (suffix c) s (lvalue call) us (lvalue node) next) :
    Turns (suffix c) s (lvalue operand) (t :: ts ++ us) (lvalue node) next := by
  have apart : ∀ char ∈ [ch '.', ch '[', ch ':'], t.isChar char = false := by
    intro char member
    rcases head with paren | brace | string
    · exact isChar_other paren (by rintro rfl; revert member; decide)
    · exact isChar_other brace (by rintro rfl; revert member; decide)
    · exact isChar_of_id (by rw [string]; decide) char
  have isArgs : (t.isChar (ch '(') || t.isChar (ch '{') || t.id == .string) = true := by
    rw [Bool.or_eq_true, Bool.or_eq_true, beq_iff_eq, or_assoc]
    exact head
  refine Takes.again (List.cons_ne_nil _ _) ?_ rest
  refine .look ?_
  rw [List.headD_cons, apart _ (by decide), apart _ (by decide), apart _ (by decide), if_pos isArgs]
  refine args.last ?_
  rw [lvalue, isCall]
  exact .pure _

theorem primary_name (isName : name.id = .name)
    (rest : Turns (suffix c) s (lvalue (.identifier name)) us (lvalue node) next) :
    Takes (primaryexp c) s s (name :: us) (lvalue node) next := by
  have start : Takes (prefixexp c) s s [name] (lvalue (.identifier name)) (us.headD next) := by
    refine .look ?_
    rw [List.headD_cons, if_pos isName]
    exact .skip name (.pure _)
  exact start.bind (.loop rest)

theorem primary_group (isOpen : openToken.isChar (ch '(') = true)
    (e : Takes (c.subexpr 0) s s ts ⟨value, op⟩ closeToken) (isClose : closeToken.isChar (ch ')') = true)
    (rest : Turns (suffix c) s (lvalue (.groupedExpression openToken value closeToken)) us (lvalue node) next) :
    Takes (primaryexp c) s s (openToken :: (ts ++ closeToken :: us)) (lvalue node) next := by
  have notName : openToken.id ≠ .name := by
    rw [isChar_single isOpen]
    decide
  have start : Takes (prefixexp c) s s (openToken :: (ts ++ [closeToken]))
      (lvalue (.groupedExpression openToken value closeToken)) (us.headD next) := by
    refine .look ?_
    rw [List.headD_cons, if_neg notName, if_pos isOpen]
    refine .skip openToken ?_
    refine Takes.bind (expr_takes e) ?_
    refine .look ?_
    exact .checkcharMatch isClose (.pure _)
  have whole : Takes (primaryexp c) s s (openToken :: (ts ++ [closeToken]) ++ us) (lvalue node) next :=
    start.bind (.loop rest)
  simpa using whole

/-! ## Operators -/

theorem operations_none (stops : isBinaryOperator next = true → (getBinaryPriority next).left ≤ limit) :
    Turns (binary c limit) s ⟨node, pending next⟩ [] ⟨node, pending next⟩ next := by
  refine .leave ?_
  unfold pending
  split
  · rename_i isBinary
    show Takes (if isBinaryOperator next then _ else _) _ _ _ _ _
    rw [if_pos isBinary]
    show Takes (if (getBinaryPriority next).left ≤ limit then _ else _) _ _ _ _ _
    rw [if_pos (stops isBinary)]
    exact .pure _
  · exact .pure _

theorem operations_more {token : Token} (isBinary : isBinaryOperator token = true)
    (through : limit < (getBinaryPriority token).left)
    (operand : Takes (c.subexpr (getBinaryPriority token).right) s s ts ⟨right, pending (us.headD next)⟩
      (us.headD next))
    (rest : Turns (binary c limit) s ⟨.binaryExpression token left right, pending (us.headD next)⟩ us
      ⟨node, pending next⟩ next) :
    Turns (binary c limit) s ⟨left, pending token⟩ (token :: (ts ++ us)) ⟨node, pending next⟩ next := by
  refine Takes.again (List.cons_ne_nil token ts) ?_ rest
  unfold pending
  rw [if_pos isBinary]
  show Takes (if isBinaryOperator token then _ else _) _ _ _ _ _
  rw [if_pos isBinary]
  show Takes (if (getBinaryPriority token).left ≤ limit then _ else _) _ _ _ _ _
  rw [if_neg (Nat.not_le_of_lt through)]
  exact .skip token (operand.last (.pure _))

theorem subexpr_takes (inside : s.syntaxLevel < maxSyntaxLevels)
    (head : Takes (Parse.operand c) s.deeper s.deeper ts left (us.headD next))
    (rest : Turns (binary c limit) s.deeper ⟨left, pending (us.headD next)⟩ us ⟨node, pending next⟩ next) :
    Takes (subexpr c limit) s s (ts ++ us) ⟨node, pending next⟩ next := by
  refine .enterlevel inside ?_
  refine head.bind ?_
  refine .look ?_
  refine Takes.last (.loop (rest.same (binary_pending c limit left _))) ?_
  exact .leavelevel (.pure _)

theorem operand_unary {token : Token} (isUnary : isUnaryOperator token = true)
    (argument : Takes (c.subexpr unaryPriority) s s ts ⟨value, op⟩ next) :
    Takes (Parse.operand c) s s (token :: ts) (.unaryExpression token value) next := by
  refine .look ?_
  rw [List.headD_cons, if_pos isUnary]
  exact .skip token (argument.last (.pure _))

theorem operand_simple {t : Token} (notUnary : isUnaryOperator t = false)
    (simple : Takes (simpleexp c) s s (t :: ts) node next) : Takes (Parse.operand c) s s (t :: ts) node next := by
  refine .look ?_
  rw [List.headD_cons, notUnary]
  exact simple

theorem simpleexp_literal {token : Token} (literal : isLiteral token.id = true)
    (allowed : token.id = .ellipsis → s.inVarargFunc = true) :
    Takes (simpleexp c) s s [token] (.literal token) next := by
  refine .state fun i head => ?_
  have current : i.token = token := head
  dsimp only
  rw [current, if_pos literal, if_neg]
  · exact .skip token (.pure _)
  · rintro ⟨ellipsis, outside⟩
    rw [allowed ellipsis] at outside
    cases outside

theorem not_literal {token : Token} {char : UInt8} (is : token.isChar char = true) : isLiteral token.id = false := by
  rw [isChar_single is]
  rfl

theorem simpleexp_table {t : Token} (brace : t.isChar (ch '{') = true)
    (table : Takes (constructor c) s s (t :: ts) node next) : Takes (simpleexp c) s s (t :: ts) node next := by
  refine .state fun i head => ?_
  have current : i.token = t := head
  dsimp only
  rw [current, not_literal brace, if_pos brace]
  exact table

theorem simpleexp_function {functionToken : Token} (isFunction : functionToken.id = .keywordFunction)
    (body : Takes (funcbody c functionToken none false) s s ts node next) :
    Takes (simpleexp c) s s (functionToken :: ts) node next := by
  have id : functionToken.id ≠ .singleChar := by
    rw [isFunction]
    decide
  have notLiteral : isLiteral functionToken.id = false := by
    rw [isFunction]
    rfl
  refine .state fun i head => ?_
  have current : i.token = functionToken := head
  dsimp only
  rw [current, notLiteral, isChar_of_id id, if_pos isFunction]
  exact .skip functionToken body

theorem simpleexp_primary {t : Token} (head : t.id = .name ∨ t.isChar (ch '(') = true)
    (primary : Takes (primaryexp c) s s (t :: ts) (lvalue node) next) : Takes (simpleexp c) s s (t :: ts) node next := by
  have apart : isLiteral t.id = false ∧ t.isChar (ch '{') = false ∧ t.id ≠ .keywordFunction := by
    rcases head with name | paren
    · have id : t.id ≠ .singleChar := by
        rw [name]
        decide
      exact ⟨by rw [name]; rfl, isChar_of_id id _, by rw [name]; decide⟩
    · exact ⟨not_literal paren, isChar_other paren (by decide), by rw [isChar_single paren]; decide⟩
  refine .state fun i same => ?_
  have current : i.token = t := same
  dsimp only
  rw [current, apart.1, apart.2.1, if_neg apart.2.2]
  exact primary.last (.pure _)

end expressions

/-! ## Names -/

section names

variable {c : Calls} {params names : List Token} {name : Token} {vararg : Bool} {node node' : Node} {list : List Node}

open Takes (Turns)

theorem Params.takes (h : Params params vararg ts next) (list : List Token) :
    Turns param s list ts (list ++ params, vararg) next := by
  induction h generalizing list with
  | last isName apart =>
      refine .leave (.look ?_)
      rw [List.headD_cons, if_pos isName]
      exact .skip _ (.testNot apart (.pure _))
  | @more name comma next _ ts _ isName isComma _ ih =>
      have turn : Takes (param list) s s [name, comma] (.again (list ++ [name])) (ts.headD next) := by
        refine .look ?_
        rw [List.headD_cons, if_pos isName]
        exact .skip name (.testIf isComma (.pure _))
      have rest := ih (list ++ [name])
      rw [List.append_assoc] at rest
      exact .again (List.cons_ne_nil _ _) turn rest
  | @vararg dots _ isDots =>
      refine .leave (.look ?_)
      rw [List.headD_cons, if_neg (by rw [isDots]; decide), if_pos isDots]
      exact .skip dots (.pure _)

theorem ParList.takes (h : ParList params vararg ts next) : Takes parlist s s ts (params, vararg) next := by
  cases h with
  | none isClose =>
      refine .look ?_
      rw [List.headD_nil, if_pos isClose]
      exact .pure _
  | some rest =>
      have apart : (ts.headD next).isChar (ch ')') = false := by
        cases rest with
        | last isName _ | more isName _ _ => exact isChar_of_id (by rw [List.headD_cons, isName]; decide) _
        | vararg isDots => exact isChar_of_id (by rw [List.headD_cons, isDots]; decide) _
      refine .look ?_
      rw [apart]
      exact .loop (rest.takes [])

theorem Fields.takes (h : Fields node node' ts next) : Takes (loop (fun node => do
    let separator ← current
    if separator.isChar (ch '.') then
      nextToken
      let field ← checkname
      return .again (Node.fieldAccess node field separator)
    else return .leave node) node) s s ts node' next := by
  refine .loop ?_
  induction h with
  | none apart =>
      refine .leave (.look ?_)
      rw [List.headD_nil, apart]
      exact .pure _
  | @field _ _ dot field _ _ isDot isName _ ih =>
      refine Takes.again (l := [dot, field]) (List.cons_ne_nil _ _) ?_ ih
      refine .look ?_
      rw [List.headD_cons, if_pos isDot]
      exact .skip dot (.checkname isName (.pure _))

theorem FuncName.takes (h : FuncName node ts next) : Takes funcname s s ts node next := by
  cases h with
  | plain isName fields apart =>
      refine .checkname isName ?_
      refine fields.takes.last ?_
      refine .look ?_
      rw [List.headD_nil, apart]
      exact .pure _
  | method isName fields isColon isField =>
      refine .checkname isName ?_
      refine fields.takes.bind ?_
      refine .look ?_
      rw [List.headD_cons, if_pos isColon]
      exact .skip _ (.checkname isField (.pure _))

theorem MoreNames.takes (h : MoreNames names ts next) (list : List Token) : Turns (fun names => do
    let more ← testcharnext (ch ',')
    if more then
      let name ← checkname
      return .again (names ++ [name])
    else return .leave names) s list ts (list ++ names) next := by
  induction h generalizing list with
  | none apart =>
      rw [List.append_nil]
      exact .leave (.testNot apart (.pure _))
  | @more comma name _ names ts isComma isName _ ih =>
      have rest := ih (list ++ [name])
      rw [List.append_assoc] at rest
      refine Takes.again (l := [comma, name]) (List.cons_ne_nil _ _) ?_ rest
      exact .testIf isComma (.checkname isName (.pure _))

theorem MoreNames.locals (h : MoreNames names ts next) (isName : name.id = .name)
    (few : l.length + (name :: names).length ≤ maxLocalVars) :
    Turns localVariable s l (name :: ts) (l ++ (name :: names).map .identifier) next := by
  induction h generalizing name l with
  | none apart =>
      refine .leave (.checkname isName ?_)
      rw [if_neg (by simp only [List.length_cons, List.length_nil] at few; omega)]
      exact .testNot apart (.pure _)
  | @more comma name' _ names ts isComma isName' _ ih =>
      have rest := @ih name' (l ++ [.identifier name]) isName' (by
        simp only [List.length_append, List.length_cons, List.length_nil] at few ⊢
        omega)
      have turn : Takes (localVariable l) s s [name, comma] (.again (l ++ [.identifier name])) name' := by
        refine .checkname isName ?_
        rw [if_neg (by simp only [List.length_cons] at few; omega)]
        exact .testIf isComma (.pure _)
      rw [List.append_assoc] at rest
      exact .again (m := name' :: ts) (List.cons_ne_nil _ _) turn rest

theorem Semicolon.takes (h : Semicolon ts next) : Takes (testcharnext (ch ';')) s s ts (!ts.isEmpty) next := by
  cases h with
  | none apart => exact .untested apart
  | some is => exact .tested is

end names

/-! ## Statements -/

section statements

variable {c : Calls} {node e start stop condition clause first : Node} {op : Option Token} {increment name? : Option Node}
  {body values list nodes : List Node} {params names vs ws : List Token} {vararg isLocal : Bool}
  {head openToken closeToken endToken doToken equals comma name functionToken : Token}

open Takes (Turns)

theorem loopBlock_takes (h : Takes c.block { s with inLoop := true } { s with inLoop := true } ts body next) :
    Takes (loopBlock c) s s ts body next := by
  intro i i' started reads upcoming room
  have whole := h i i' started reads upcoming room
  have run : loopBlock c ⟨i, s⟩ = (c.block >>= fun body => do
      modify fun q => { q with inLoop := s.inLoop }
      return body) ⟨i, { s with inLoop := true }⟩ := rfl
  rw [run, bind_runs whole]
  rfl

theorem varargBlock_takes
    (h : Takes c.block { s with inVarargFunc := vararg } { s with inVarargFunc := vararg } ts body next) :
    Takes (varargBlock c vararg) s s ts body next := by
  intro i i' started reads upcoming room
  have whole := h i i' started reads upcoming room
  have run : varargBlock c vararg ⟨i, s⟩ = (c.block >>= fun body => do
      modify fun q => { q with inVarargFunc := s.inVarargFunc }
      return body) ⟨i, { s with inVarargFunc := vararg }⟩ := rfl
  rw [run, bind_runs whole]
  rfl

theorem funcbody_takes (isOpen : openToken.isChar (ch '(') = true) (params' : ParList params vararg ts closeToken)
    (isClose : closeToken.isChar (ch ')') = true)
    (block : Takes c.block { s with inVarargFunc := vararg } { s with inVarargFunc := vararg } us body endToken)
    (isEnd : endToken.id = .keywordEnd) :
    Takes (funcbody c functionToken name? isLocal) s s (openToken :: (ts ++ closeToken :: (us ++ [endToken])))
      (.functionDeclaration name? params body isLocal) next := by
  refine .checkcharnext isOpen ?_
  refine params'.takes.bind ?_
  refine .checkcharnext isClose ?_
  refine (varargBlock_takes block).bind ?_
  exact .checkMatch isEnd (.pure _)

theorem ifclause_condition (isIf : head.id = .keywordIf ∨ head.id = .keywordElseif)
    (condition' : Takes (c.subexpr 0) s s ts ⟨condition, op⟩ doToken)
    (isThen : doToken.id = .keywordThen) (block : Takes c.block s s us body next) :
    Takes (ifclause c) s s (head :: (ts ++ doToken :: us)) (.ifClause head (some condition) body) next := by
  have part : Takes (clauseCondition c head) s s (ts ++ [doToken]) (some condition) (us.headD next) := by
    have notElse : head.id ≠ .keywordElse := by
      rcases isIf with is | is <;> rw [is] <;> decide
    unfold clauseCondition
    rw [if_neg notElse]
    refine Takes.bind (expr_takes condition') ?_
    exact .checknext isThen (.pure _)
  have whole : Takes (ifclause c) s s (head :: (ts ++ [doToken] ++ us)) (.ifClause head (some condition) body) next := by
    refine .look (.skip head ?_)
    exact part.bind (block.last (.pure _))
  simpa using whole

theorem ifclause_else (isElse : head.id = .keywordElse) (block : Takes c.block s s ts body next) :
    Takes (ifclause c) s s (head :: ts) (.ifClause head none body) next := by
  have part : Takes (clauseCondition c head) s s [] none (ts.headD next) := by
    unfold clauseCondition
    rw [if_pos isElse]
    exact .pure _
  refine .look (.skip head ?_)
  exact part.bind (block.last (.pure _))

def elseifTurn (c : Calls) (clauses : List Node) : ParseM (Turn (List Node) (List Node)) := do
  let token ← current
  if token.id = .keywordElseif then
    let clause ← ifclause c
    return .again (clauses ++ [clause])
  else return .leave clauses

theorem elseifTurn_leave (other : next.id ≠ .keywordElseif) : Turns (elseifTurn c) s list [] list next := by
  refine .leave (.look ?_)
  rw [List.headD_nil, if_neg other]
  exact .pure _

theorem elseifTurn_again (isElseif : head.id = .keywordElseif)
    (clause' : Takes (ifclause c) s s (head :: ts) clause (us.headD next))
    (rest : Turns (elseifTurn c) s (list ++ [clause]) us nodes next) :
    Turns (elseifTurn c) s list (head :: ts ++ us) nodes next := by
  refine .again (List.cons_ne_nil _ _) (.look ?_) rest
  rw [List.headD_cons, if_pos isElseif]
  exact clause'.last (.pure _)

theorem elseclause_none (other : next.id ≠ .keywordElse) : Takes (elseclause c list) s s [] list next := by
  refine .look ?_
  rw [List.headD_nil, if_neg other]
  exact .pure _

theorem elseclause_some (isElse : head.id = .keywordElse) (clause' : Takes (ifclause c) s s (head :: ts) clause next) :
    Takes (elseclause c list) s s (head :: ts) (list ++ [clause]) next := by
  refine .look ?_
  rw [List.headD_cons, if_pos isElse]
  exact clause'.last (.pure _)

-- the keyword decides which statement it is
theorem statement_if (isIf : head.id = .keywordIf)
    (clause' : Takes (ifclause c) s s (head :: ts) clause ((us ++ (vs ++ [endToken])).headD next))
    (elseifs : Turns (elseifTurn c) s [clause] us list ((vs ++ [endToken]).headD next))
    (otherwise : Takes (elseclause c list) s s vs nodes endToken) (isEnd : endToken.id = .keywordEnd) :
    Takes (statement c) s s (head :: ts ++ (us ++ (vs ++ [endToken]))) (.ifStatement nodes) next := by
  refine .look ?_
  rw [List.cons_append, List.headD_cons]
  rw [isIf]
  refine .look ?_
  refine Takes.bind (l := head :: ts) clause' ?_
  refine Takes.bind (.loop elseifs) ?_
  refine otherwise.bind ?_
  exact .checkMatch isEnd (.pure _)

theorem statement_localFunction (isLocal : head.id = .keywordLocal) (isFunction : functionToken.id = .keywordFunction)
    (isName : name.id = .name) (body : Takes (funcbody c functionToken (some (.identifier name)) true) s s ts node next) :
    Takes (statement c) s s (head :: functionToken :: name :: ts) node next := by
  refine .look ?_
  rw [List.headD_cons]
  rw [isLocal]
  refine .skip head (.look ?_)
  rw [List.headD_cons]
  refine .testIf (by rw [isFunction]; rfl) ?_
  exact .checkname isName body

theorem statement_local (isLocal : head.id = .keywordLocal) (isName : name.id = .name)
    (more : MoreNames names ts (us.headD next))
    (few : (name :: names).length ≤ maxLocalVars) (values' : Takes (localValues c) s s us values next) :
    Takes (statement c) s s (head :: name :: (ts ++ us))
      (.assignmentStatement ((name :: names).map .identifier) values true) next := by
  refine .look ?_
  rw [List.headD_cons]
  rw [isLocal]
  refine .skip head (.look ?_)
  rw [List.headD_cons]
  refine .testNot (by rw [List.headD_cons, isName]; rfl) ?_
  have targets := more.locals (s := s) (l := []) isName (by rwa [List.length_nil, Nat.zero_add])
  exact Takes.bind (l := name :: ts) (.loop targets) (values'.last (.pure _))

theorem localValues_none (apart : next.isChar (ch '=') = false) : Takes (localValues c) s s [] [] next :=
  .testNot apart (.pure _)

theorem localValues_some (isEquals : equals.isChar (ch '=') = true) (list : Takes (explist1 c) s s ts values next) :
    Takes (localValues c) s s (equals :: ts) values next :=
  .testIf isEquals list

theorem statement_return (isReturn : head.id = .keywordReturn) (ends : (blockFollow next || next.isChar (ch ';')) = true) :
    Takes (statement c) s s [head] (.returnStatement []) next := by
  refine .look ?_
  rw [List.headD_cons]
  rw [isReturn]
  refine .skip head (.look ?_)
  rw [List.headD_nil, if_pos ends]
  exact .pure _

theorem statement_returnValues {t : Token} (isReturn : head.id = .keywordReturn) (start : starts t = true)
    (list : Takes (explist1 c) s s (t :: ts) values next) :
    Takes (statement c) s s (head :: t :: ts) (.returnStatement values) next := by
  refine .look ?_
  rw [List.headD_cons]
  rw [isReturn]
  refine .skip head (.look ?_)
  rw [List.headD_cons, (starts_apart start).1, (starts_apart start).2 (ch ';') (by decide)]
  exact list.last (.pure _)

theorem statement_while (isWhile : head.id = .keywordWhile)
    (condition' : Takes (c.subexpr 0) s s ts ⟨condition, op⟩ doToken)
    (isDo : doToken.id = .keywordDo)
    (block : Takes c.block { s with inLoop := true } { s with inLoop := true } us body endToken)
    (isEnd : endToken.id = .keywordEnd) :
    Takes (statement c) s s (head :: (ts ++ doToken :: (us ++ [endToken]))) (.whileStatement condition body) next := by
  refine .look ?_
  rw [List.headD_cons]
  rw [isWhile]
  refine .look (.skip head ?_)
  refine Takes.bind (f := cond c) (expr_takes condition') ?_
  refine .checknext isDo ?_
  refine (loopBlock_takes block).bind ?_
  exact .checkMatch isEnd (.pure _)

theorem statement_do (isDo : head.id = .keywordDo) (block : Takes c.block s s ts body endToken)
    (isEnd : endToken.id = .keywordEnd) :
    Takes (statement c) s s (head :: (ts ++ [endToken])) (.doStatement body) next := by
  refine .look ?_
  rw [List.headD_cons]
  rw [isDo]
  refine .look (.skip head ?_)
  refine block.bind ?_
  exact .checkMatch isEnd (.pure _)

theorem statement_repeat (isRepeat : head.id = .keywordRepeat)
    (block : Takes c.block { s with inLoop := true } { s with inLoop := true } ts body endToken)
    (isUntil : endToken.id = .keywordUntil) (condition' : Takes (c.subexpr 0) s s us ⟨condition, op⟩ next) :
    Takes (statement c) s s (head :: (ts ++ endToken :: us)) (.repeatStatement body condition) next := by
  refine .look ?_
  rw [List.headD_cons]
  rw [isRepeat]
  refine .look (.skip head ?_)
  refine (loopBlock_takes block).bind ?_
  refine .checkMatch isUntil ?_
  exact Takes.last (f := cond c) (expr_takes condition') (.pure _)

theorem statement_break (isBreak : head.id = .keywordBreak) (inside : s.inLoop = true) :
    Takes (statement c) s s [head] (.breakStatement head) next := by
  refine .look ?_
  rw [List.headD_cons]
  rw [isBreak]
  refine .look (.skip head (.state fun i _ => ?_))
  dsimp only
  rw [if_pos inside]
  exact .pure _

theorem increment_none (apart : next.isChar (ch ',') = false) : Takes (Parse.increment c) s s [] none next :=
  .testNot apart (.pure _)

theorem increment_some (isComma : comma.isChar (ch ',') = true) (e' : Takes (c.subexpr 0) s s ts ⟨e, op⟩ next) :
    Takes (Parse.increment c) s s (comma :: ts) (some e) next :=
  .testIf isComma ((expr_takes e').last (.pure _))

theorem statement_forNumeric (isFor : head.id = .keywordFor) (isName : name.id = .name)
    (isEquals : equals.isChar (ch '=') = true) (start' : Takes (c.subexpr 0) s s ts ⟨start, op⟩ comma)
    (isComma : comma.isChar (ch ',') = true) {op' : Option Token}
    (stop' : Takes (c.subexpr 0) s s us ⟨stop, op'⟩ ((vs ++ doToken :: (ws ++ [endToken])).headD next))
    (step : Takes (Parse.increment c) s s vs increment doToken) (isDo : doToken.id = .keywordDo)
    (block : Takes c.block { s with inLoop := true } { s with inLoop := true } ws body endToken)
    (isEnd : endToken.id = .keywordEnd) :
    Takes (statement c) s s (head :: name :: equals :: (ts ++ comma :: (us ++ (vs ++ doToken :: (ws ++ [endToken])))))
      (.forStatementNumeric name start stop increment body) next := by
  have numeric : Takes (fornum c name) s s (equals :: (ts ++ comma :: (us ++ (vs ++ doToken :: ws))))
      (.forStatementNumeric name start stop increment body) endToken := by
    have stop'' : Takes (expr c) s s us stop ((vs ++ doToken :: ws).headD endToken) := by
      cases vs with
      | nil => exact expr_takes stop'
      | cons v vs => exact expr_takes stop'
    refine .checkcharnext isEquals ?_
    refine Takes.bind (expr_takes start') ?_
    refine .checkcharnext isComma ?_
    refine stop''.bind ?_
    refine step.bind ?_
    refine .checknext isDo ?_
    exact (loopBlock_takes block).last (.pure _)
  have vars : Takes (forvars c name) s s (equals :: (ts ++ comma :: (us ++ (vs ++ doToken :: ws))))
      (.forStatementNumeric name start stop increment body) endToken := by
    refine .look ?_
    rw [List.headD_cons, if_pos isEquals]
    exact numeric
  have whole : Takes (statement c) s s
      (head :: name :: (equals :: (ts ++ comma :: (us ++ (vs ++ doToken :: ws))) ++ [endToken]))
      (.forStatementNumeric name start stop increment body) next := by
    refine .look ?_
    rw [List.headD_cons]
    rw [isFor]
    refine .look (.skip head ?_)
    refine .checkname isName ?_
    refine vars.bind ?_
    exact .checkMatch isEnd (.pure _)
  simpa using whole

theorem statement_forGeneric {inToken : Token} (isFor : head.id = .keywordFor) (isName : name.id = .name)
    (more : MoreNames names ts inToken) (isIn : inToken.id = .keywordIn)
    (list : Takes (explist1 c) s s us values doToken) (isDo : doToken.id = .keywordDo)
    (block : Takes c.block { s with inLoop := true } { s with inLoop := true } vs body endToken)
    (isEnd : endToken.id = .keywordEnd) :
    Takes (statement c) s s (head :: name :: (ts ++ inToken :: (us ++ doToken :: (vs ++ [endToken]))))
      (.forStatementGeneric (name :: names) values body) next := by
  have generic : Takes (forlist c name) s s (ts ++ inToken :: (us ++ doToken :: vs))
      (.forStatementGeneric (name :: names) values body) endToken := by
    refine Takes.bind (.loop (more.takes [name])) ?_
    refine .checknext isIn ?_
    refine list.bind ?_
    refine .checknext isDo ?_
    exact (loopBlock_takes block).last (.pure _)
  have vars : Takes (forvars c name) s s (ts ++ inToken :: (us ++ doToken :: vs))
      (.forStatementGeneric (name :: names) values body) endToken := by
    refine .look ?_
    cases more with
    | none _ =>
        have id : inToken.id ≠ .singleChar := by
          rw [isIn]
          decide
        rw [List.nil_append, List.headD_cons, isChar_of_id id, isChar_of_id id, isIn]
        exact generic
    | more isComma _ _ =>
        rw [List.cons_append, List.headD_cons, isChar_other isComma (d := ch '=') (by decide), isComma]
        exact generic
  have whole : Takes (statement c) s s (head :: name :: (ts ++ inToken :: (us ++ doToken :: vs) ++ [endToken]))
      (.forStatementGeneric (name :: names) values body) next := by
    refine .look ?_
    rw [List.headD_cons]
    rw [isFor]
    refine .look (.skip head ?_)
    refine .checkname isName ?_
    refine vars.bind ?_
    exact .checkMatch isEnd (.pure _)
  simpa using whole

theorem statement_function (isFunction : head.id = .keywordFunction) (name' : FuncName first ts (us.headD next))
    (body' : Takes (funcbody c head (some first) false) s s us node next) :
    Takes (statement c) s s (head :: (ts ++ us)) node next := by
  refine .look ?_
  rw [List.headD_cons, isFunction]
  refine .look (.skip head ?_)
  exact name'.takes.bind body'

theorem statement_expression (isStart : head.id = .name ∨ head.isChar (ch '(') = true)
    (rest : Takes (exprstat c) s s (head :: ts) node next) : Takes (statement c) s s (head :: ts) node next := by
  refine .look ?_
  rw [List.headD_cons]
  rcases isStart with name | paren
  · rw [name]
    exact rest
  · rw [isChar_single paren]
    exact rest

theorem exprstat_call {callee : Node} {openArgs closeArgs : Option Token} {isStatement : Bool}
    (primary : Takes (primaryexp c) s s ts (lvalue (.call callee values openArgs closeArgs isStatement)) next) :
    Takes (exprstat c) s s ts (.call callee values openArgs closeArgs true) next :=
  primary.last (.pure _)

theorem target_last (assigned : assignable first = true) (apart : next.isChar (ch ',') = false) :
    Turns (target c) s (list, lvalue first) [] (list ++ [first]) next := by
  refine .leave ?_
  unfold target lvalue
  rw [if_pos assigned]
  exact .testNot apart (.pure _)

theorem target_more {second : Node} (assigned : assignable first = true) (isComma : comma.isChar (ch ',') = true)
    (primary : Takes (primaryexp c) s s ts (lvalue second) (us.headD next))
    (rest : Turns (target c) s (list ++ [first], lvalue second) us nodes next) :
    Turns (target c) s (list, lvalue first) (comma :: (ts ++ us)) nodes next := by
  refine .again (List.cons_ne_nil comma ts) ?_ rest
  unfold target
  rw [if_pos (show (lvalue first).canBeAssignedTo = true from assigned)]
  exact .testIf isComma (primary.last (.pure _))

theorem exprstat_assignment (assigned : assignable first = true)
    (primary : Takes (primaryexp c) s s ts (lvalue first) ((us ++ equals :: vs).headD next))
    (targets : Turns (target c) s ([], lvalue first) us list equals) (isEquals : equals.isChar (ch '=') = true)
    (values' : Takes (explist1 c) s s vs values next) :
    Takes (exprstat c) s s (ts ++ (us ++ equals :: vs)) (.assignmentStatement list values false) next := by
  have rest : Takes (assignment c (lvalue first)) s s (us ++ equals :: vs)
      (.assignmentStatement list values false) next := by
    refine Takes.bind (.loop targets) ?_
    refine .checkcharnext isEquals ?_
    exact values'.last (.pure _)
  refine primary.bind ?_
  cases first <;> first | exact rest | cases assigned

theorem blockTurn_none (follows : blockFollow next = true) : Turns (blockTurn c) s list [] list next := by
  refine .leave (.look ?_)
  rw [List.headD_nil, if_pos follows]
  exact .pure _

theorem blockTurn_statement {t : Token} (list : List Node) (apart : blockFollow t = false)
    (statement' : Takes (statement c) s s (t :: ts) node (us.headD next)) (semicolon : Semicolon us next) :
    Takes (blockTurn c list) s s (t :: ts ++ us)
      (if mustBeLast node then .leave (list ++ [node]) else .again (list ++ [node])) next := by
  refine .look ?_
  rw [List.cons_append, List.headD_cons, apart]
  exact Takes.bind (l := t :: ts) statement' (semicolon.takes.last (.pure _))

theorem block_takes (inside : s.syntaxLevel < maxSyntaxLevels) (statements : Turns (blockTurn c) s.deeper [] ts body next) :
    Takes (block c) s s ts body next := by
  refine .enterlevel inside ?_
  refine Takes.last (.loop statements) ?_
  exact .leavelevel (.pure _)

end statements

/-! ## Derivations -/

-- the function of the parser for a phrase takes its tokens, or the rest of the loop does
def Taken (c : Calls) (s : Status) (ts : List Token) (next : Token) : Phrase → Prop
  | .block body => Takes c.block s s ts body next
  | .statements body => ∀ list, Takes.Turns (blockTurn c) s list ts (list ++ body) next
  | .statement node => Takes (statement c) s s ts node next
  | .clause _ node => Takes (ifclause c) s s ts node next
  | .elseifs clauses => ∀ list, Takes.Turns (elseifTurn c) s list ts (list ++ clauses) next
  | .otherwise clauses => ∀ list, Takes (elseclause c list) s s ts (list ++ clauses) next
  | .localValues values => Takes (localValues c) s s ts values next
  | .increment e => Takes (increment c) s s ts e next
  | .funcbody name isLocal node => ∀ functionToken, Takes (funcbody c functionToken name isLocal) s s ts node next
  | .targets first nodes => ∀ list, Takes.Turns (target c) s (list, lvalue first) ts (list ++ nodes) next
  | .explist values => Takes (explist1 c) s s ts values next
  | .others values => ∀ list, Takes.Turns (explistTurn c) s list ts (list ++ values) next
  | .subexpr limit node => Takes (c.subexpr limit) s s ts ⟨node, pending next⟩ next
  | .operations limit left node =>
      Takes.Turns (binary c limit) s ⟨left, pending (ts.headD next)⟩ ts ⟨node, pending next⟩ next
  | .operand node => Takes (operand c) s s ts node next
  | .simple node => Takes (simpleexp c) s s ts node next
  | .primary node => Takes (primaryexp c) s s ts (lvalue node) next
  | .suffixes operand node => Takes.Turns (suffix c) s (lvalue operand) ts (lvalue node) next
  | .args callee node => Takes (funcargs c callee) s s ts node next
  | .arguments list => Takes (arguments c) s s ts list next
  | .constructor node => Takes (constructor c) s s ts node next
  | .fields fields => ∀ list, Takes.Turns (fieldTurn c) s list ts (list ++ fields) next
  | .field node => next.isChar (ch '=') = false → Takes (tableField c) s s ts node next

theorem Derives.targets_assignable {first : Node} {targets : List Node} (h : Derives s (.targets first targets) ts next) :
    assignable first = true := by
  cases h with
  | lastTarget assigned _ => exact assigned
  | moreTargets assigned _ _ _ => exact assigned

-- the rest of a loop that has collected one more node
theorem Takes.Turns.collected {step : σ → ParseM (Turn σ (List Node))} {x : σ} {list rest : List Node} {node : Node}
    (h : Takes.Turns step s x ts (list ++ [node] ++ rest) next) : Takes.Turns step s x ts (list ++ node :: rest) next := by
  rwa [List.append_assoc] at h

theorem Derives.taken {phrase : Phrase} (h : Derives s phrase ts next) {d : Nat}
    (unfolded : maxSyntaxLevels ≤ s.syntaxLevel + d) : Taken (calls d) s ts next phrase := by
  induction h generalizing d with
  | @block s _ _ _ inside _ ih =>
      obtain ⟨d, rfl⟩ : ∃ d', d = d' + 1 := Nat.exists_eq_add_one.mpr (by omega)
      have deeper : maxSyntaxLevels ≤ s.deeper.syntaxLevel + d := by
        show _ ≤ s.syntaxLevel + 1 + d
        omega
      exact block_takes inside (ih deeper [])
  | noStatements follows =>
      intro list
      rw [List.append_nil]
      exact blockTurn_none follows
  | lastStatement statement isLast semicolon ih =>
      intro list
      obtain ⟨t, us, rfl, apart⟩ := statement.statement_head
      have turn := blockTurn_statement list apart (ih unfolded) semicolon
      rw [isLast] at turn
      exact .leave turn
  | @moreStatements _ node rest _ semicolon us next statement notLast some _ ih ihRest =>
      intro list
      obtain ⟨t, ts, rfl, apart⟩ := statement.statement_head
      have head : (semicolon ++ us).headD next = semicolon.headD (us.headD next) := by cases semicolon <;> rfl
      have first := ih unfolded
      rw [head] at first
      have turn := blockTurn_statement list apart first some
      rw [notLast] at turn
      have whole := Takes.again (by simp) turn (ihRest unfolded (list ++ [node]))
      rw [List.append_assoc, List.append_assoc] at whole
      exact whole
  | ifStatement isIf clause _ _ isEnd ihClause ihElseifs ihOtherwise =>
      obtain ⟨ts, rfl⟩ := clause.clause_head
      exact statement_if isIf (ihClause unfolded) (ihElseifs unfolded _) (ihOtherwise unfolded _) isEnd
  | clause isIf _ isThen _ ihCondition ihBody =>
      exact ifclause_condition isIf (ihCondition unfolded) isThen (ihBody unfolded)
  | elseClause isElse _ ih => exact ifclause_else isElse (ih unfolded)
  | noElseif other =>
      intro list
      rw [List.append_nil]
      exact elseifTurn_leave other
  | moreElseif isElseif clause _ ihClause ihRest =>
      intro list
      obtain ⟨ts, rfl⟩ := clause.clause_head
      exact elseifTurn_again isElseif (ihClause unfolded) (ihRest unfolded _).collected
  | noElse other =>
      intro list
      rw [List.append_nil]
      exact elseclause_none other
  | withElse isElse clause ih =>
      intro list
      obtain ⟨ts, rfl⟩ := clause.clause_head
      exact elseclause_some isElse (ih unfolded)
  | localFunction isLocal isFunction isName _ ih => exact statement_localFunction isLocal isFunction isName (ih unfolded _)
  | localStatement isLocal isName more few _ ih => exact statement_local isLocal isName more few (ih unfolded)
  | noLocalValues apart => exact localValues_none apart
  | withLocalValues isEquals _ ih => exact localValues_some isEquals (ih unfolded)
  | returnNothing isReturn ends => exact statement_return isReturn ends
  | returnValues isReturn values ih =>
      obtain ⟨t, ts, rfl, start⟩ := values.explist_head
      exact statement_returnValues isReturn start (ih unfolded)
  | whileStatement isWhile _ isDo _ isEnd ihCondition ihBody =>
      exact statement_while isWhile (ihCondition unfolded) isDo (ihBody unfolded) isEnd
  | doStatement isDo _ isEnd ih => exact statement_do isDo (ih unfolded) isEnd
  | repeatStatement isRepeat _ isUntil _ ihBody ihCondition =>
      exact statement_repeat isRepeat (ihBody unfolded) isUntil (ihCondition unfolded)
  | breakStatement isBreak inside => exact statement_break isBreak inside
  | forNumeric isFor isName isEquals _ isComma _ _ isDo _ isEnd ihStart ihStop ihStep ihBody =>
      exact statement_forNumeric isFor isName isEquals (ihStart unfolded) isComma (ihStop unfolded) (ihStep unfolded) isDo
        (ihBody unfolded) isEnd
  | noIncrement apart => exact increment_none apart
  | withIncrement isComma _ ih => exact increment_some isComma (ih unfolded)
  | forGeneric isFor isName more isIn _ isDo _ isEnd ihList ihBody =>
      exact statement_forGeneric isFor isName more isIn (ihList unfolded) isDo (ihBody unfolded) isEnd
  | function isFunction name _ ih => exact statement_function isFunction name (ih unfolded _)
  | funcbody isOpen params isClose _ isEnd ih =>
      intro functionToken
      exact funcbody_takes isOpen params isClose (ih unfolded) isEnd
  | callStatement primary ih =>
      obtain ⟨t, ts, rfl, start⟩ := primary.primary_head
      exact statement_expression start (exprstat_call (ih unfolded))
  | assignment primary targets isEquals _ ihPrimary ihTargets ihValues =>
      obtain ⟨t, ts, rfl, start⟩ := primary.primary_head
      exact statement_expression start (exprstat_assignment targets.targets_assignable (ihPrimary unfolded)
        (ihTargets unfolded []) isEquals (ihValues unfolded))
  | lastTarget assigned apart =>
      intro list
      exact target_last assigned apart
  | moreTargets assigned isComma _ _ ihPrimary ihRest =>
      intro list
      exact target_more assigned isComma (ihPrimary unfolded) (ihRest unfolded _).collected
  | explist _ _ ihValue ihRest => exact explist1_takes (ihValue unfolded) (ihRest unfolded [_])
  | noOthers apart =>
      intro list
      rw [List.append_nil]
      exact explistTurn_leave apart
  | moreOthers isComma _ _ ihValue ihRest =>
      intro list
      exact explistTurn_again isComma (ihValue unfolded) (ihRest unfolded _).collected
  | @subexpr s _ _ _ _ _ _ inside _ _ ihOperand ihOperations =>
      obtain ⟨d, rfl⟩ : ∃ d', d = d' + 1 := Nat.exists_eq_add_one.mpr (by omega)
      have deeper : maxSyntaxLevels ≤ s.deeper.syntaxLevel + d := by
        show _ ≤ s.syntaxLevel + 1 + d
        omega
      exact subexpr_takes inside (ihOperand deeper) (ihOperations deeper)
  | noOperation stops => exact operations_none stops
  | operation isBinary through _ _ ihRight ihRest =>
      exact operations_more isBinary through (ihRight unfolded) (ihRest unfolded)
  | unary isUnary _ ih => exact operand_unary isUnary (ih unfolded)
  | simple simple ih =>
      obtain ⟨t, ts, rfl, -, notUnary⟩ := simple.simple_head
      exact operand_simple notUnary (ih unfolded)
  | literal isLiteral allowed => exact simpleexp_literal isLiteral allowed
  | table table ih =>
      obtain ⟨t, ts, rfl, brace⟩ := table.constructor_head
      exact simpleexp_table brace (ih unfolded)
  | closure isFunction _ ih => exact simpleexp_function isFunction (ih unfolded _)
  | primary primary ih =>
      obtain ⟨t, ts, rfl, start⟩ := primary.primary_head
      exact simpleexp_primary start (ih unfolded)
  | name isName _ ih => exact primary_name isName (ih unfolded)
  | group isOpen _ isClose _ ihValue ihRest => exact primary_group isOpen (ihValue unfolded) isClose (ihRest unfolded)
  | noSuffix apart => exact suffix_none apart
  | fieldAccess isDot isName _ ih => exact suffix_field isDot isName (ih unfolded)
  | indexAccess isOpen _ isClose _ ihIndex ihRest => exact suffix_index isOpen isClose (ihIndex unfolded) (ihRest unfolded)
  | method isColon isName args _ ihArgs ihRest =>
      exact suffix_method isColon isName (ihArgs unfolded) args.args_call (ihRest unfolded)
  | call args _ ihArgs ihRest =>
      obtain ⟨t, ts, rfl, start⟩ := args.args_head
      exact suffix_call start (ihArgs unfolded) args.args_call (ihRest unfolded)
  | parenthesised isOpen found sameLine _ isClose ih =>
      exact parenthesised_takes isOpen found sameLine (ih unfolded) isClose
  | tableArgument table ih =>
      obtain ⟨t, ts, rfl, brace⟩ := table.constructor_head
      exact tableArgument_takes brace (ih unfolded)
  | stringArgument isString => exact stringArgument_takes isString
  | noArguments isClose => exact arguments_none isClose
  | withArguments values ih =>
      obtain ⟨t, ts, rfl, start⟩ := values.explist_head
      exact arguments_some start (ih unfolded)
  | constructor isOpen _ isClose ih => exact constructor_takes isOpen (ih unfolded []) isClose
  | noFields isClose =>
      intro list
      rw [List.append_nil]
      exact fieldTurn_none isClose
  | lastField field isClose ih =>
      intro list
      obtain ⟨t, ts, rfl, apart⟩ := field.field_head
      exact fieldTurn_last apart isClose (ih unfolded (isChar_other isClose (by decide)))
  | moreFields field isSeparator _ ihField ihRest =>
      intro list
      obtain ⟨t, ts, rfl, apart⟩ := field.field_head
      have notEquals := (Bool.or_eq_true _ _).mp isSeparator |>.elim
        (fun comma => isChar_other (d := ch '=') comma (by decide)) fun semicolon => isChar_other semicolon (by decide)
      exact fieldTurn_again apart isSeparator (ihField unfolded notEquals) (ihRest unfolded _).collected
  | nameField isName isEquals _ ih => exact fun _ => nameField_takes isName isEquals (ih unfolded)
  | keyField isOpen _ isClose isEquals _ ihKey ihValue =>
      exact fun _ => keyField_takes isOpen (ihKey unfolded) isClose isEquals (ihValue unfolded)
  | listField value ih =>
      intro notEquals
      obtain ⟨t, ts, rfl, start⟩ := value.subexpr_head
      exact listField_takes start (fun isName => value.subexpr_second isName notEquals) (ih unfolded)

/-! ## The end of the buffer -/

abbrev Inside (ts : List Token) : Prop := ∀ t ∈ ts, t.id ≠ .eof

theorem isChar_inside {char : UInt8} (is : t.isChar char = true) : t.id ≠ .eof := by
  rw [isChar_single is]
  decide

theorem literal_inside (is : isLiteral t.id = true) : t.id ≠ .eof := by
  intro eof
  rw [eof] at is
  cases is

theorem unary_inside (is : isUnaryOperator t = true) : t.id ≠ .eof := by
  intro eof
  unfold isUnaryOperator at is
  rw [eof] at is
  cases is

theorem binary_inside (is : isBinaryOperator t = true) : t.id ≠ .eof := by
  intro eof
  unfold isBinaryOperator at is
  rw [eof] at is
  cases is

attribute [local grind →] isChar_inside literal_inside unary_inside binary_inside

theorem MoreNames.inside {names : List Token} (h : MoreNames names ts next) : Inside ts := by
  induction h <;> grind

theorem Params.inside {params : List Token} {vararg : Bool} (h : Params params vararg ts next) : Inside ts := by
  induction h <;> grind

theorem ParList.inside {params : List Token} {vararg : Bool} (h : ParList params vararg ts next) : Inside ts := by
  cases h with
  | none _ => simp [Inside]
  | some params => exact params.inside

theorem Fields.inside {node node' : Node} (h : Fields node node' ts next) : Inside ts := by
  induction h <;> grind

theorem FuncName.inside {node : Node} (h : FuncName node ts next) : Inside ts := by
  cases h with
  | plain isName fields _ => grind [fields.inside]
  | method isName fields isColon isField => grind [fields.inside]

theorem Semicolon.inside (h : Semicolon ts next) : Inside ts := by
  cases h <;> grind

-- no rule reads the end of the buffer
theorem Derives.inside {phrase : Phrase} (h : Derives s phrase ts next) : Inside ts := by
  induction h with
  | lastStatement _ _ semicolon _ => grind [semicolon.inside]
  | moreStatements _ _ semicolon _ _ _ => grind [semicolon.inside]
  | localStatement _ _ more _ _ => grind [more.inside]
  | funcbody _ params _ _ _ => grind [params.inside]
  | function _ name _ => grind [name.inside]
  | @forGeneric _ _ _ _ _ _ _ _ _ _ ts us vs isFor isName more isIn _ isDo _ isEnd ihList ihBody =>
      have names := more.inside
      simp only [Inside, List.forall_mem_cons, List.forall_mem_append]
      grind
  | @forNumeric _ _ _ _ _ _ _ _ _ _ _ _ ts us vs ws isFor isName isEquals _ isComma _ _ isDo _ isEnd =>
      simp only [Inside, List.forall_mem_cons, List.forall_mem_append]
      grind
  | _ => grind

end Zua.Parse
