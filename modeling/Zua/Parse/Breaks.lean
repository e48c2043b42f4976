import Zua.Parse.Frames
import Zua.Parse.Levels

/-!
# Breaks and frames

What the parser does with the breaks it comes to: a break inside some loop is accepted, and the parser stops at a
break outside of every loop.
-/

namespace Zua.Parse
open Zua.Lex Syntax

/-! ## Where the parser stands -/

section

variable (start : Input)

-- every break that is read is in some loop
def Looped (ts : List Token) : Prop :=
  ∀ us t vs, ts = us ++ t :: vs → t.id = .keywordBreak → anyLoop (framesOf us) = true

theorem Looped.nil : Looped [] := by
  intro us t vs none
  cases us <;> cases none

theorem Looped.snoc {ts : List Token} {t : Token} (looped : Looped ts)
    (last : t.id = .keywordBreak → anyLoop (framesOf ts) = true) : Looped (ts ++ [t]) := by
  intro us u vs same isBreak
  rcases List.eq_nil_or_concat vs with rfl | ⟨vs, v, rfl⟩
  · obtain ⟨rfl, tail⟩ := List.append_inj' same rfl
    cases tail
    exact last isBreak
  · rw [List.concat_eq_append, ← List.cons_append, ← List.append_assoc] at same
    obtain ⟨rfl, -⟩ := List.append_inj' same rfl
    exact looped us u vs rfl isBreak

structure In (frames : List Frame) (inLoop : Bool) (p : Parser) : Prop where
  read : ∃ ts, Reads start ts p.toInput ∧ framesOf ts = frames ∧ Looped ts
  loop : p.inLoop = inLoop

-- the break that is read last is outside of every loop
def Outside (ts : List Token) : Prop := ∃ us t, ts = us ++ [t] ∧ t.id = .keywordBreak ∧ anyLoop (framesOf us) = false

-- an error and the tokens in front of it
def Stops : Stop → Prop
  | .parse context => ∃ ts i, Reads start ts i ∧ context.token = i.token ∧
      if context.err = .noLoopToBreak then Outside ts else Looped ts
  | .lex lexer err => ∃ ts i, Reads start ts i ∧ i.lexer.next = .error lexer err ∧ Looped ts
  | .panic | .timeout => True

-- every break that can be read is in a loop of its own function
def Owned : Prop := ∀ ts i, Reads start ts i → i.token.id = .keywordBreak → ownLoop (framesOf ts) = true

def Enclosed (frames : List Frame) (node : Node) : Prop := Owned start → breaksOwn (ownLoop frames) node = true

def AllEnclosed (frames : List Frame) (nodes : List Node) : Prop :=
  Owned start → breaksOwnOf (ownLoop frames) nodes = true

def Goes {α : Type} (frames : List Frame) (inLoop : Bool) (x : ParseM α) (p : Parser) (Q : α → Parser → Prop) : Prop :=
  Sat (Stops start) x p fun a q => In start frames inLoop q ∧ Q a q

def Stays {α : Type} (frames : List Frame) (inLoop : Bool) (x : ParseM α) (Q : α → Prop) : Prop :=
  ∀ p, In start frames inLoop p → Goes start frames inLoop x p fun a _ => Q a

end

section

variable {start : Input} {frames frames' : List Frame} {inLoop inLoop' : Bool} {α β σ : Type} {p : Parser}
  {x : ParseM α} {f : α → ParseM β} {Q : α → Parser → Prop} {R : β → Parser → Prop}

theorem In.snoc {ts : List Token} {i : Input} {lexer : Lexer} {token : Token} (reads : Reads start ts i)
    (lexed : i.lexer.next = .token lexer token) : Reads start (ts ++ [i.token]) ⟨lexer, token⟩ :=
  reads.append (.cons lexed (.nil _))

namespace Goes

theorem pure {a : α} (here : In start frames inLoop p) (h : Q a p) : Goes start frames inLoop (Pure.pure a) p Q :=
  Sat.pure ⟨here, h⟩

theorem bind (first : Goes start frames inLoop x p Q)
    (rest : ∀ a q, In start frames inLoop q → Q a q → Goes start frames' inLoop' (f a) q R) :
    Goes start frames' inLoop' (x >>= f) p R := by
  refine Sat.bind (Sat.mono first ?_)
  rintro a q ⟨here, h⟩
  exact rest a q here h

theorem mono {S : α → Parser → Prop} (h : Goes start frames inLoop x p Q)
    (weaker : ∀ a q, In start frames inLoop q → Q a q → S a q) : Goes start frames inLoop x p S := by
  refine Sat.mono h ?_
  rintro a q ⟨here, h⟩
  exact ⟨here, weaker a q here h⟩

theorem current {f : Token → ParseM β} (h : Goes start frames inLoop (f p.token) p R) :
    Goes start frames inLoop (Parse.current >>= f) p R := Sat.bind (Sat.bind (Sat.get (Sat.pure h)))

theorem get {f : Parser → ParseM β} (h : Goes start frames inLoop (f p) p R) :
    Goes start frames inLoop (MonadState.get >>= f) p R := Sat.bind (Sat.get h)

theorem loop {step : σ → ParseM (Turn σ β)} {I : σ → Parser → Prop} {s : σ} (here : In start frames inLoop p) (h : I s p)
    (turn : ∀ s p, In start frames inLoop p → I s p → Goes start frames inLoop (step s) p (Turn.Holds I R)) :
    Goes start frames inLoop (Parse.loop step s) p R := by
  refine Sat.loop (I := fun s p => In start frames inLoop p ∧ I s p) trivial ?_ ⟨here, h⟩
  rintro s p ⟨here, h⟩
  refine Sat.mono (turn s p here h) ?_
  rintro (s | b) q ⟨here, holds⟩
  · exact ⟨here, holds⟩
  · exact ⟨here, holds⟩

end Goes

namespace Stays

variable {P : α → Prop} {S : β → Prop}

theorem pure {a : α} (h : P a) : Stays start frames inLoop (Pure.pure a) P := fun _ here => Goes.pure here h

theorem bind (first : Stays start frames inLoop x P) (rest : ∀ a, P a → Stays start frames inLoop (f a) S) :
    Stays start frames inLoop (x >>= f) S := fun p here =>
  (first p here).bind fun a q here h => rest a h q here

theorem mono {S : α → Prop} (h : Stays start frames inLoop x P) (weaker : ∀ a, P a → S a) :
    Stays start frames inLoop x S := fun p here => (h p here).mono fun a _ _ => weaker a

theorem current {f : Token → ParseM β} (rest : ∀ token, Stays start frames inLoop (f token) S) :
    Stays start frames inLoop (Parse.current >>= f) S := fun p here => Goes.current (rest p.token p here)

theorem loop {step : σ → ParseM (Turn σ β)} {I : σ → Prop} {s : σ} (h : I s)
    (turn : ∀ s, I s → Stays start frames inLoop (step s) fun t => ∀ p, Turn.Holds (fun s _ => I s) (fun b _ => S b) t p) :
    Stays start frames inLoop (Parse.loop step s) S := fun _ here =>
  Goes.loop (I := fun s _ => I s) here h fun s p here h => (turn s h p here).mono fun _ q _ holds => holds q

end Stays

/-! ## Tokens -/

theorem report_goes {err : ParseError} (here : In start frames inLoop p) (other : err ≠ .noLoopToBreak)
    (expected expectedMatch : Option Token) :
    Goes start frames' inLoop' (reportParseErrorExpectedToMatch err expected expectedMatch) p Q := by
  obtain ⟨⟨ts, reads, -, looped⟩, -⟩ := here
  exact Sat.bind (Sat.bind (Sat.get (Sat.pure (Sat.throw ⟨ts, p.toInput, reads, rfl, by rw [if_neg other]; exact looped⟩))))

theorem nextToken_goes (here : In start frames inLoop p) (looped : p.token.id = .keywordBreak → anyLoop frames = true) :
    Goes start (opened frames p.token.id) inLoop nextToken p fun _ _ => True := by
  obtain ⟨⟨ts, reads, rfl, before⟩, loop⟩ := here
  refine Sat.bind (Sat.get ?_)
  split
  · rename_i lexer token lexed
    exact Sat.set ⟨⟨⟨_, In.snoc reads lexed, framesOf_snoc ts p.token, before.snoc looped⟩, loop⟩, trivial⟩
  · rename_i lexer err failed
    exact Sat.throw ⟨ts, p.toInput, reads, failed, before⟩
  · exact Sat.throw trivial

theorem nextToken_quiet (here : In start frames inLoop p) (h : quiet p.token.id = true) :
    Goes start frames inLoop nextToken p fun _ _ => True := by
  have next := nextToken_goes here fun isBreak => (quiet_break h isBreak).elim
  rwa [opened_quiet h] at next

theorem testIf_goes {test : Token → Bool} (here : In start frames inLoop p)
    (noBreak : ∀ token, test token = true → token.id ≠ .keywordBreak) :
    Sat (Stops start) (testIf test) p fun found q =>
      In start (if found then opened frames p.token.id else frames) inLoop q ∧ (found = true → test p.token = true) := by
  refine Sat.bind (Sat.bind (Sat.get (Sat.pure ?_)))
  split
  · rename_i is
    refine Sat.bind (Sat.mono (nextToken_goes here fun isBreak => (noBreak _ is isBreak).elim) ?_)
    rintro _ q ⟨here, -⟩
    exact Sat.pure ⟨here, fun _ => is⟩
  · exact Sat.pure ⟨here, fun none => Bool.noConfusion none⟩

theorem testIf_stays {test : Token → Bool} (silent : ∀ token, test token = true → quiet token.id = true) :
    Stays start frames inLoop (testIf test) fun _ => True := by
  intro p here
  refine Sat.mono (testIf_goes here fun token is => quiet_break (silent token is)) ?_
  rintro (_ | _) q ⟨here, is⟩
  · exact ⟨here, trivial⟩
  · rw [if_pos rfl, opened_quiet (silent _ (is rfl))] at here
    exact ⟨here, trivial⟩

theorem testcharnext_stays (char : UInt8) : Stays start frames inLoop (testcharnext char) fun _ => True :=
  testIf_stays fun _ => isChar_quiet

theorem check_goes (id : Token.Id) (here : In start frames inLoop p) :
    Goes start frames inLoop (check id) p fun _ q => q = p ∧ p.token.id = id := by
  refine Goes.current ?_
  split
  · rename_i is
    exact Goes.pure here ⟨rfl, is⟩
  · exact report_goes here (by decide) _ _

theorem checknext_goes (id : Token.Id) (noBreak : id ≠ .keywordBreak) (here : In start frames inLoop p) :
    Goes start (opened frames id) inLoop (checknext id) p fun _ _ => True := by
  refine Goes.bind (check_goes id here) ?_
  rintro _ q here ⟨rfl, is⟩
  have next := nextToken_goes here fun isBreak => (noBreak (is.symm.trans isBreak)).elim
  rwa [is] at next

theorem checknext_stays {id : Token.Id} (h : quiet id = true) : Stays start frames inLoop (checknext id) fun _ => True := by
  intro p here
  have next := checknext_goes id (quiet_break h) here
  rwa [opened_quiet h] at next

theorem checkcharnext_stays (char : UInt8) : Stays start frames inLoop (checkcharnext char) fun _ => True := by
  intro p here
  refine Goes.bind (Q := fun _ q => quiet q.token.id = true) (Goes.current ?_) fun _ q here h => nextToken_quiet here h
  split
  · rename_i is
    exact Goes.pure here (isChar_quiet is)
  · exact report_goes here (by decide) _ _

theorem checkname_stays : Stays start frames inLoop checkname fun _ => True :=
  .current fun _ => (checknext_stays rfl).bind fun _ _ => .pure trivial

-- the end of a frame
theorem checkMatch_goes (id : Token.Id) (noBreak : id ≠ .keywordBreak) (toClose : Token)
    (here : In start frames inLoop p) : Goes start (opened frames id) inLoop (checkMatch id toClose) p fun _ _ => True := by
  have noBreaks (token : Token) (is : (token.id == id) = true) : token.id ≠ .keywordBreak := by
    rw [eq_of_beq is]
    exact noBreak
  refine Sat.bind (Sat.mono (testIf_goes here noBreaks) ?_)
  rintro (_ | _) q ⟨here, is⟩
  · exact Sat.bind (Sat.bind (Sat.get (Sat.pure (report_goes here (by decide) _ _))))
  · rw [if_pos rfl, eq_of_beq (is rfl)] at here
    exact Sat.pure ⟨here, trivial⟩

theorem checkcharMatch_stays (char : UInt8) (toClose : Token) :
    Stays start frames inLoop (checkcharMatch char toClose) fun _ => True := by
  refine (testcharnext_stays char).bind fun found _ => ?_
  split
  · exact .pure trivial
  · exact .current fun token p here => report_goes here (by decide) _ _

-- a list whose parts follow a separator
theorem separated_stays {item : ParseM β} {separator : UInt8} {P : β → Prop} {I : List β → Prop}
    (stays : Stays start frames inLoop item P) (snoc : ∀ list e, I list → P e → I (list ++ [e])) {first : List β}
    (h : I first) :
    Stays start frames inLoop
      (loop (fun list => do
        let more ← testcharnext separator
        if more then
          let e ← item
          return Turn.again (list ++ [e])
        else return .leave list) first) I := by
  refine Stays.loop h fun list h => (testcharnext_stays separator).bind fun more _ => ?_
  split
  · exact stays.bind fun e he => .pure fun _ => snoc list e h he
  · exact .pure fun _ => h

end

/-! ## Expressions -/

-- a block is no head of a loop
def Inner (frames : List Frame) : Prop := frames.head? ≠ some .head

structure Walking (start : Input) (c : Calls) : Prop where
  subexpr : ∀ limit frames p, In start frames (anyLoop frames) p →
    Goes start frames (anyLoop frames) (c.subexpr limit) p fun e q =>
      Enclosed start frames e.node ∧ ∀ op, e.untreatedOperator = some op → op = q.token
  block : ∀ frames, Inner frames → Stays start frames (anyLoop frames) c.block (AllEnclosed start frames)

section

variable {start : Input} {c : Calls} (walking : Walking start c) {frames : List Frame} {p : Parser}

theorem AllEnclosed.nil : AllEnclosed start frames [] := fun _ => rfl

theorem AllEnclosed.snoc {list : List Node} {node : Node} (all : AllEnclosed start frames list)
    (last : Enclosed start frames node) : AllEnclosed start frames (list ++ [node]) := by
  intro owned
  simp [all owned, last owned]

theorem AllEnclosed.one {node : Node} (h : Enclosed start frames node) : AllEnclosed start frames [node] :=
  AllEnclosed.nil.snoc h

theorem Enclosed.literal (token : Token) : Enclosed start frames (.literal token) := fun _ => rfl

theorem Enclosed.identifier (token : Token) : Enclosed start frames (.identifier token) := fun _ => rfl

include walking

theorem subexpr_stays (limit : Nat) :
    Stays start frames (anyLoop frames) (c.subexpr limit) fun e => Enclosed start frames e.node := fun p here =>
  (walking.subexpr limit frames p here).mono fun _ _ _ h => h.1

theorem expr_stays : Stays start frames (anyLoop frames) (expr c) (Enclosed start frames) :=
  (subexpr_stays walking 0).bind fun _ h => .pure h

theorem explist1_stays : Stays start frames (anyLoop frames) (explist1 c) (AllEnclosed start frames) :=
  (expr_stays walking).bind fun _ h =>
    separated_stays (expr_stays walking) (fun _ _ all last => all.snoc last) (AllEnclosed.one h)

theorem listfield_stays : Stays start frames (anyLoop frames) (listfield c) (Enclosed start frames) :=
  (expr_stays walking).bind fun value h => .pure fun owned => by simp [h owned]

theorem recfieldKey_stays : Stays start frames (anyLoop frames) (recfieldKey c) (Enclosed start frames) := by
  intro p here
  refine Goes.current ?_
  split
  · exact (checkname_stays.bind fun name _ => .pure (.literal name)) p here
  split
  · rename_i bracket
    refine Goes.bind (nextToken_quiet here (isChar_quiet bracket)) fun _ q here _ => ?_
    exact ((expr_stays walking).bind fun key h => (checkcharnext_stays _).bind fun _ _ => .pure h) q here
  · exact Sat.throw trivial

theorem recfield_stays : Stays start frames (anyLoop frames) (recfield c) (Enclosed start frames) := by
  refine (recfieldKey_stays walking).bind fun key h₁ => (checkcharnext_stays _).bind fun _ _ => ?_
  exact (expr_stays walking).bind fun value h₂ => .pure fun owned => by simp [h₁ owned, h₂ owned]

theorem tableField_stays : Stays start frames (anyLoop frames) (tableField c) (Enclosed start frames) := by
  intro p here
  refine Goes.get ?_
  split
  · split
    · split
      · exact recfield_stays walking p here
      · exact listfield_stays walking p here
    · exact listfield_stays walking p here
    · exact Sat.throw trivial
  split
  · exact recfield_stays walking p here
  · exact listfield_stays walking p here

omit walking in
theorem fieldSeparator_stays : Stays start frames (anyLoop frames) fieldSeparator fun _ => True := by
  refine (testcharnext_stays _).bind fun comma _ => ?_
  split
  · exact .pure trivial
  · exact testcharnext_stays _

theorem constructor_stays : Stays start frames (anyLoop frames) (constructor c) (Enclosed start frames) := by
  refine .current fun openBrace => (checkcharnext_stays _).bind fun _ _ => ?_
  refine (Stays.loop (S := AllEnclosed start frames) (I := AllEnclosed start frames) .nil fun fields h => ?_).bind
    fun fields h => ?_
  · refine .current fun token => ?_
    split
    · exact .pure fun _ => h
    · refine (tableField_stays walking).bind fun field last => fieldSeparator_stays.bind fun more _ => ?_
      split
      · exact .pure fun _ => h.snoc last
      · exact .pure fun _ => h.snoc last
  · refine .current fun closeBrace => (checkcharMatch_stays _ _).bind fun _ _ => ?_
    exact .pure fun owned => h owned

theorem arguments_stays : Stays start frames (anyLoop frames) (arguments c) (AllEnclosed start frames) := by
  refine .current fun token => ?_
  split
  · exact .pure .nil
  · exact explist1_stays walking

theorem funcargs_stays {expression : Node} (called : Enclosed start frames expression) :
    Stays start frames (anyLoop frames) (funcargs c expression) (Enclosed start frames) := by
  have call {arguments : List Node} {openArgs closeArgs : Option Token} (all : AllEnclosed start frames arguments) :
      Enclosed start frames (.call expression arguments openArgs closeArgs false) := by
    intro owned
    simp [called owned, all owned]
  intro p here
  refine Goes.current ?_
  split
  · rename_i isOpen
    split
    · exact Sat.throw trivial
    split
    · exact report_goes here (by decide) _ _
    · refine Goes.bind (nextToken_quiet here (isChar_quiet isOpen)) fun _ q here _ => ?_
      refine ((arguments_stays walking).bind fun arguments all => .current fun closeArgs => ?_) q here
      exact (checkcharMatch_stays _ _).bind fun _ _ => .pure (call all)
  split
  · exact ((constructor_stays walking).bind fun node h => .pure (call (.one h))) p here
  split
  · rename_i string
    refine Goes.bind (nextToken_quiet here (by rw [string]; rfl)) fun _ q here _ => ?_
    exact Goes.pure here (call (.one (.literal _)))
  · exact report_goes here (by decide) _ _

theorem prefixexp_stays :
    Stays start frames (anyLoop frames) (prefixexp c) fun e => Enclosed start frames e.node := by
  intro p here
  refine Goes.current ?_
  split
  · rename_i name
    refine Goes.bind (nextToken_quiet here (by rw [name]; rfl)) fun _ q here _ => ?_
    exact Goes.pure here (.identifier _)
  split
  · rename_i isOpen
    refine Goes.bind (nextToken_quiet here (isChar_quiet isOpen)) fun _ q here _ => ?_
    refine ((expr_stays walking).bind fun expression h => .current fun closeParen => ?_) q here
    exact (checkcharMatch_stays _ _).bind fun _ _ => .pure fun owned => h owned
  · exact report_goes here (by decide) _ _

theorem suffix_stays {e : PossibleLValueExpression} (h : Enclosed start frames e.node) :
    Stays start frames (anyLoop frames) (suffix c e) fun t => ∀ q,
      Turn.Holds (fun e _ => Enclosed start frames e.node) (fun e _ => Enclosed start frames e.node) t q := by
  intro p here
  refine Goes.current ?_
  split
  · rename_i dot
    refine Goes.bind (nextToken_quiet here (isChar_quiet dot)) fun _ q here _ => ?_
    exact (checkname_stays.bind fun field _ => .pure fun _ owned => h owned) q here
  split
  · rename_i bracket
    refine Goes.bind (nextToken_quiet here (isChar_quiet bracket)) fun _ q here _ => ?_
    refine ((expr_stays walking).bind fun index inside => .current fun closeToken => ?_) q here
    refine (checkcharnext_stays _).bind fun _ _ => .pure fun _ owned => ?_
    simp [h owned, inside owned]
  split
  · rename_i colon
    refine Goes.bind (nextToken_quiet here (isChar_quiet colon)) fun _ q here _ => ?_
    refine (checkname_stays.bind fun field _ => ?_) q here
    have method : Enclosed start frames (.fieldAccess e.node field p.token) := h
    exact (funcargs_stays walking method).bind fun node called => .pure fun _ => called
  split
  · exact ((funcargs_stays walking h).bind fun node called => .pure fun _ => called) p here
  · exact Goes.pure here fun _ => h

theorem primaryexp_stays :
    Stays start frames (anyLoop frames) (primaryexp c) fun e => Enclosed start frames e.node :=
  (prefixexp_stays walking).bind fun _ h =>
    Stays.loop (I := fun e : PossibleLValueExpression => Enclosed start frames e.node) h fun _ h => suffix_stays walking h

/-! ## Functions -/

omit walking in
theorem param_stays (list : List Token) : Stays start frames (anyLoop frames) (param list) fun _ => True := by
  intro p here
  refine Goes.current ?_
  split
  · rename_i name
    refine Goes.bind (nextToken_quiet here (by rw [name]; rfl)) fun _ q here _ => ?_
    refine ((testcharnext_stays _).bind fun more _ => ?_) q here
    exact .pure trivial
  split
  · rename_i ellipsis
    refine Goes.bind (nextToken_quiet here (by rw [ellipsis]; rfl)) fun _ q here _ => ?_
    exact Goes.pure here trivial
  · exact report_goes here (by decide) _ _

omit walking in
theorem parlist_stays : Stays start frames (anyLoop frames) parlist fun _ => True := by
  refine .current fun token => ?_
  split
  · exact .pure trivial
  · refine Stays.loop (I := fun _ => True) trivial fun list _ => (param_stays list).mono ?_
    rintro (_ | _) _ _
    · trivial
    · trivial

theorem varargBlock_stays (inner : Inner frames) (varargFound : Bool) :
    Stays start frames (anyLoop frames) (varargBlock c varargFound) (AllEnclosed start frames) := by
  intro p here
  refine Goes.get (Sat.bind (Sat.set (Sat.bind (Sat.mono (walking.block frames inner _ ⟨here.read, here.loop⟩) ?_))))
  rintro body q ⟨here, all⟩
  exact Sat.bind (Sat.modify (Sat.pure ⟨⟨here.read, here.loop⟩, all⟩))

-- behind `function`, up to its end
theorem funcbody_goes (functionToken : Token) {name : Option Node} (isLocal : Bool)
    (named : Owned start → breaksOwn? (ownLoop frames) name = true) (here : In start (.body :: frames) (anyLoop frames) p) :
    Goes start frames (anyLoop frames) (funcbody c functionToken name isLocal) p fun node _ =>
      Enclosed start frames node := by
  have inside : In start (.body :: frames) (anyLoop (.body :: frames)) p := here
  refine Goes.bind (checkcharnext_stays _ p inside) fun _ q here _ => ?_
  refine Goes.bind (parlist_stays q here) fun params q here _ => ?_
  refine Goes.bind (checkcharnext_stays _ q here) fun _ q here _ => ?_
  refine Goes.bind (varargBlock_stays walking (by rintro ⟨⟩) params.2 q here) fun body q here all => ?_
  refine Goes.bind (checkMatch_goes .keywordEnd (by decide) functionToken here) fun _ q here _ => ?_
  refine Goes.pure here fun owned => ?_
  have inner : breaksOwnOf false body = true := all owned
  simp [named owned, inner]

omit walking in
theorem isLiteral_quiet {id : Token.Id} (literal : isLiteral id = true) : quiet id = true := by
  cases id <;> first | rfl | cases literal

theorem simpleexp_stays : Stays start frames (anyLoop frames) (simpleexp c) (Enclosed start frames) := by
  intro p here
  refine Goes.get ?_
  split
  · rename_i literal
    split
    · exact report_goes here (by decide) _ _
    · exact Goes.bind (nextToken_quiet here (isLiteral_quiet literal)) fun _ q here _ => Goes.pure here (.literal _)
  split
  · exact constructor_stays walking p here
  split
  · rename_i function
    refine Goes.bind (nextToken_goes here fun isBreak => ?_) fun _ q here _ => ?_
    · rw [function] at isBreak
      cases isBreak
    · rw [function] at here
      exact funcbody_goes walking p.token false (fun _ => rfl) here
  · exact ((primaryexp_stays walking).bind fun _ h => .pure h) p here

/-! ## Operators -/

omit walking in
theorem isUnary_quiet {token : Token} (isUnary : isUnaryOperator token = true) : quiet token.id = true := by
  unfold isUnaryOperator at isUnary
  cases id : token.id <;> rw [id] at isUnary <;> first | rfl | cases isUnary

omit walking in
theorem isBinary_quiet {token : Token} (isBinary : isBinaryOperator token = true) : quiet token.id = true := by
  unfold isBinaryOperator at isBinary
  cases id : token.id <;> rw [id] at isBinary <;> first | rfl | cases isBinary

theorem operand_stays : Stays start frames (anyLoop frames) (operand c) (Enclosed start frames) := by
  intro p here
  refine Goes.current ?_
  split
  · rename_i isUnary
    refine Goes.bind (nextToken_quiet here (isUnary_quiet isUnary)) fun _ q here _ => ?_
    exact ((subexpr_stays walking _).bind fun _ h => .pure fun owned => h owned) q here
  · exact simpleexp_stays walking p here

-- the node is all right, and the operator is the current token
def Continues (start : Input) (frames : List Frame) (e : SubExpr) (p : Parser) : Prop :=
  Enclosed start frames e.node ∧ ∀ op, e.untreatedOperator = some op → op = p.token

theorem binary_goes (limit : Nat) {e : SubExpr} (here : In start frames (anyLoop frames) p)
    (continues : Continues start frames e p) :
    Goes start frames (anyLoop frames) (binary c limit e) p
      (Turn.Holds (Continues start frames) (Continues start frames)) := by
  obtain ⟨left, current⟩ := continues
  unfold binary
  split
  · rename_i op found
    split
    · rename_i isBinary
      dsimp only
      split
      · exact Goes.pure here ⟨left, current⟩
      · have silent : quiet p.token.id = true := current op found ▸ isBinary_quiet isBinary
        refine Goes.bind (nextToken_quiet here silent) fun _ q here _ => ?_
        refine Goes.bind (walking.subexpr _ frames q here) ?_
        rintro e' q here ⟨right, next⟩
        refine Goes.pure here ⟨fun owned => ?_, next⟩
        simp [left owned, right owned]
    · refine Goes.pure here ⟨left, ?_⟩
      rintro op ⟨⟩
  · exact Goes.pure here ⟨left, current⟩

omit walking in
theorem enterlevel_stays : Stays start frames (anyLoop frames) enterlevel fun _ => True := by
  intro p here
  refine Sat.bind (Sat.modify (Sat.bind (Sat.get ?_)))
  have here : In start frames (anyLoop frames) { p with syntaxLevel := p.syntaxLevel + 1 } := ⟨here.read, here.loop⟩
  split
  · exact report_goes here (by decide) _ _
  · exact Sat.pure ⟨here, trivial⟩

omit walking in
theorem leavelevel_goes (here : In start frames (anyLoop frames) p) :
    Goes start frames (anyLoop frames) leavelevel p fun _ q => q.token = p.token := by
  refine Goes.get ?_
  split
  · exact Sat.throw trivial
  · exact Sat.set ⟨⟨here.read, here.loop⟩, rfl⟩

theorem subexpr_goes (limit : Nat) (here : In start frames (anyLoop frames) p) :
    Goes start frames (anyLoop frames) (subexpr c limit) p (Continues start frames) := by
  refine Goes.bind (enterlevel_stays p here) fun _ q here _ => ?_
  refine Goes.bind (operand_stays walking q here) fun node q here h => Goes.current ?_
  have first : Continues start frames ⟨node, some q.token⟩ q := by
    refine ⟨h, ?_⟩
    rintro op ⟨⟩
    rfl
  refine Goes.bind (Goes.loop here first fun e p here continues => binary_goes walking limit here continues) ?_
  rintro e q here ⟨h, next⟩
  refine Goes.bind (leavelevel_goes here) fun _ r here same => Goes.pure here ⟨h, fun op found => ?_⟩
  rw [same]
  exact next op found

/-! ## Statements -/

-- behind the `do` or `repeat` of a loop
theorem loopBlock_goes {inLoop : Bool} (here : In start (.loop :: frames) inLoop p) :
    Goes start (.loop :: frames) inLoop (loopBlock c) p fun body _ => Owned start → breaksOwnOf true body = true := by
  have inner : Inner (.loop :: frames) := by
    rintro ⟨⟩
  refine Goes.get (Sat.bind (Sat.set (Sat.bind (Sat.mono (walking.block _ inner _ ⟨here.read, rfl⟩) ?_))))
  rintro body q ⟨here', all⟩
  exact Sat.bind (Sat.modify (Sat.pure ⟨⟨here'.read, here.loop⟩, all⟩))

omit walking in
theorem funcname_stays :
    Stays start frames (anyLoop frames) funcname fun node => ∀ inLoop, breaksOwn inLoop node = true := by
  refine checkname_stays.bind fun name _ => ?_
  refine (Stays.loop (I := fun node => ∀ inLoop, breaksOwn inLoop node = true)
    (S := fun node => ∀ inLoop, breaksOwn inLoop node = true) (fun _ => rfl) fun node h p here => ?_).bind
    fun node h p here => ?_
  · refine Goes.current ?_
    split
    · rename_i dot
      refine Goes.bind (nextToken_quiet here (isChar_quiet dot)) fun _ q here _ => ?_
      exact (checkname_stays.bind fun field _ => .pure fun _ => h) q here
    · exact Goes.pure here fun _ => h
  · refine Goes.current ?_
    split
    · rename_i colon
      refine Goes.bind (nextToken_quiet here (isChar_quiet colon)) fun _ q here _ => ?_
      exact (checkname_stays.bind fun field _ => .pure h) q here
    · exact Goes.pure here h

theorem funcstat_goes (here : In start frames (anyLoop frames) p) (isFunction : p.token.id = .keywordFunction) :
    Goes start frames (anyLoop frames) (funcstat c) p fun node _ => Enclosed start frames node := by
  refine Goes.current (Goes.bind (nextToken_goes here fun isBreak => ?_) fun _ q here _ => ?_)
  · rw [isFunction] at isBreak
    cases isBreak
  · rw [isFunction] at here
    have inside : In start (.body :: frames) (anyLoop (.body :: frames)) q := here
    refine Goes.bind (funcname_stays q inside) fun name q here named => ?_
    exact funcbody_goes walking p.token false (fun _ => named _) here

theorem retstat_goes (here : In start frames (anyLoop frames) p) (isReturn : p.token.id = .keywordReturn) :
    Goes start frames (anyLoop frames) (retstat c) p fun node _ => Enclosed start frames node := by
  refine Goes.bind (nextToken_quiet here (by rw [isReturn]; rfl)) fun _ q here _ => Goes.current ?_
  split
  · exact Goes.pure here fun _ => rfl
  · exact ((explist1_stays walking).bind fun values all => .pure fun owned => all owned) q here

theorem whilestat_goes (here : In start frames (anyLoop frames) p) (isWhile : p.token.id = .keywordWhile) :
    Goes start frames (anyLoop frames) (whilestat c) p fun node _ => Enclosed start frames node := by
  refine Goes.current (Goes.bind (nextToken_goes here fun isBreak => ?_) fun _ q here _ => ?_)
  · rw [isWhile] at isBreak
    cases isBreak
  · rw [isWhile] at here
    have head : In start (.head :: frames) (anyLoop (.head :: frames)) q := here
    refine Goes.bind (expr_stays walking q head) fun condition q here h => ?_
    refine Goes.bind (checknext_goes .keywordDo (by decide) here) fun _ q here _ => ?_
    refine Goes.bind (loopBlock_goes walking here) fun body q here inner => ?_
    refine Goes.bind (checkMatch_goes .keywordEnd (by decide) p.token here) fun _ q here _ => ?_
    refine Goes.pure here fun owned => ?_
    have outer : breaksOwn (ownLoop frames) condition = true := h owned
    simp [outer, inner owned]

omit walking in
theorem breakstat_goes (here : In start frames (anyLoop frames) p) (isBreak : p.token.id = .keywordBreak) :
    Goes start frames (anyLoop frames) breakstat p fun node _ => Enclosed start frames node := by
  obtain ⟨⟨ts, reads, rfl, looped⟩, loop⟩ := here
  refine Goes.current (Sat.bind (Sat.bind (Sat.get ?_)))
  split
  · rename_i lexer token lexed
    have same : framesOf (ts ++ [p.token]) = framesOf ts := by
      rw [framesOf_snoc, isBreak]
      rfl
    refine Sat.set (Sat.bind (Sat.get ?_))
    dsimp only
    split
    · rename_i inside
      have inLoop : anyLoop (framesOf ts) = true := loop.symm.trans inside
      exact Sat.pure ⟨⟨⟨_, In.snoc reads lexed, same, looped.snoc fun _ => inLoop⟩, loop⟩,
        fun owned => owned ts p.toInput reads isBreak⟩
    · rename_i outside
      have notInLoop : anyLoop (framesOf ts) = false := loop.symm.trans (Bool.eq_false_of_not_eq_true outside)
      exact Sat.bind (Sat.bind (Sat.get (Sat.pure (Sat.throw
        ⟨_, ⟨lexer, token⟩, In.snoc reads lexed, rfl, by rw [if_pos rfl]; exact ⟨ts, p.token, rfl, isBreak, notInLoop⟩⟩))))
  · rename_i lexer err failed
    exact Sat.throw ⟨ts, p.toInput, reads, failed, looped⟩
  · exact Sat.throw trivial

theorem dostat_goes (inner : Inner frames) (here : In start frames (anyLoop frames) p)
    (isDo : p.token.id = .keywordDo) :
    Goes start frames (anyLoop frames) (dostat c) p fun node _ => Enclosed start frames node := by
  have pushes : opened frames .keywordDo = .block :: frames := by
    cases frames with
    | nil => rfl
    | cons frame outer =>
        cases frame with
        | head => exact (inner rfl).elim
        | _ => rfl
  refine Goes.current (Goes.bind (nextToken_goes here fun isBreak => ?_) fun _ q here _ => ?_)
  · rw [isDo] at isBreak
    cases isBreak
  · rw [isDo, pushes] at here
    have inside : In start (.block :: frames) (anyLoop (.block :: frames)) q := here
    refine Goes.bind (walking.block _ (by rintro ⟨⟩) q inside) fun body q here all => ?_
    refine Goes.bind (checkMatch_goes .keywordEnd (by decide) p.token here) fun _ q here _ => ?_
    exact Goes.pure here all

theorem repeatstat_goes (here : In start frames (anyLoop frames) p) (isRepeat : p.token.id = .keywordRepeat) :
    Goes start frames (anyLoop frames) (repeatstat c) p fun node _ => Enclosed start frames node := by
  refine Goes.current (Goes.bind (nextToken_goes here fun isBreak => ?_) fun _ q here _ => ?_)
  · rw [isRepeat] at isBreak
    cases isBreak
  · rw [isRepeat] at here
    refine Goes.bind (loopBlock_goes walking here) fun body q here inner => ?_
    refine Goes.bind (checkMatch_goes .keywordUntil (by decide) p.token here) fun _ q here _ => ?_
    have after : In start frames (anyLoop frames) q := here
    refine Goes.bind (expr_stays walking q after) fun condition q here outer => Goes.pure here fun owned => ?_
    simp [inner owned, outer owned]

theorem increment_stays : Stays start frames (anyLoop frames) (increment c) fun increment =>
    Owned start → breaksOwn? (ownLoop frames) increment = true := by
  refine (testcharnext_stays _).bind fun more _ => ?_
  split
  · exact (expr_stays walking).bind fun e h => .pure h
  · exact .pure fun _ => rfl

-- behind the variables of a `for`, up to its end
theorem fornum_goes (name : Token) (here : In start (.head :: frames) (anyLoop frames) p) :
    Goes start (.loop :: frames) (anyLoop frames) (fornum c name) p fun node _ => Enclosed start frames node := by
  have head : In start (.head :: frames) (anyLoop (.head :: frames)) p := here
  refine Goes.bind (checkcharnext_stays _ p head) fun _ q here _ => ?_
  refine Goes.bind (expr_stays walking q here) fun first q here h₁ => ?_
  refine Goes.bind (checkcharnext_stays _ q here) fun _ q here _ => ?_
  refine Goes.bind (expr_stays walking q here) fun stop q here h₂ => ?_
  refine Goes.bind (increment_stays walking q here) fun step q here h₃ => ?_
  refine Goes.bind (checknext_goes .keywordDo (by decide) here) fun _ q here _ => ?_
  refine Goes.bind (loopBlock_goes walking here) fun body q here inner => Goes.pure here fun owned => ?_
  have e₁ : breaksOwn (ownLoop frames) first = true := h₁ owned
  have e₂ : breaksOwn (ownLoop frames) stop = true := h₂ owned
  have e₃ : breaksOwn? (ownLoop frames) step = true := h₃ owned
  simp [e₁, e₂, e₃, inner owned]

theorem forlist_goes (name : Token) (here : In start (.head :: frames) (anyLoop frames) p) :
    Goes start (.loop :: frames) (anyLoop frames) (forlist c name) p fun node _ => Enclosed start frames node := by
  have head : In start (.head :: frames) (anyLoop (.head :: frames)) p := here
  refine Goes.bind (separated_stays (I := fun _ => True) checkname_stays (fun _ _ _ _ => trivial) trivial p head)
    fun names q here _ => ?_
  refine Goes.bind (checknext_stays rfl q here) fun _ q here _ => ?_
  refine Goes.bind (explist1_stays walking q here) fun expressions q here all => ?_
  refine Goes.bind (checknext_goes .keywordDo (by decide) here) fun _ q here _ => ?_
  refine Goes.bind (loopBlock_goes walking here) fun body q here inner => Goes.pure here fun owned => ?_
  have outer : breaksOwnOf (ownLoop frames) expressions = true := all owned
  simp [outer, inner owned]

theorem forvars_goes (name : Token) (here : In start (.head :: frames) (anyLoop frames) p) :
    Goes start (.loop :: frames) (anyLoop frames) (forvars c name) p fun node _ => Enclosed start frames node := by
  refine Sat.bind (Sat.bind (Sat.get (Sat.pure ?_)))
  split
  · exact fornum_goes walking name here
  split
  · exact forlist_goes walking name here
  · exact report_goes here (by decide) _ _

theorem forstat_goes (here : In start frames (anyLoop frames) p) (isFor : p.token.id = .keywordFor) :
    Goes start frames (anyLoop frames) (forstat c) p fun node _ => Enclosed start frames node := by
  refine Goes.current (Goes.bind (nextToken_goes here fun isBreak => ?_) fun _ q here _ => ?_)
  · rw [isFor] at isBreak
    cases isBreak
  · rw [isFor] at here
    refine Goes.bind (checkname_stays q here) fun name q here _ => ?_
    refine Goes.bind (forvars_goes walking name here) fun node q here h => ?_
    exact Goes.bind (checkMatch_goes .keywordEnd (by decide) p.token here) fun _ q here _ => Goes.pure here h

theorem clauseCondition_stays (ifToken : Token) : Stays start frames (anyLoop frames) (clauseCondition c ifToken)
    fun condition => Owned start → breaksOwn? (ownLoop frames) condition = true := by
  unfold clauseCondition
  split
  · exact .pure fun _ => rfl
  · exact (expr_stays walking).bind fun condition h => (checknext_stays rfl).bind fun _ _ => .pure h

-- the `if` opens the block of all clauses
theorem ifclause_goes {outer : List Frame} (opens : opened outer p.token.id = .block :: frames)
    (noBreak : p.token.id ≠ .keywordBreak) (here : In start outer (anyLoop frames) p) :
    Goes start (.block :: frames) (anyLoop frames) (ifclause c) p fun node _ => Enclosed start frames node := by
  refine Sat.bind (Sat.bind (Sat.get (Sat.pure ?_)))
  refine Goes.bind (nextToken_goes here fun isBreak => (noBreak isBreak).elim) fun _ q here _ => ?_
  rw [opens] at here
  have inside : In start (.block :: frames) (anyLoop (.block :: frames)) q := here
  refine Goes.bind (clauseCondition_stays walking p.token q inside) fun condition q here h₁ => ?_
  refine Goes.bind (walking.block _ (by rintro ⟨⟩) q here) fun body q here h₂ => Goes.pure here fun owned => ?_
  have e₁ : breaksOwn? (ownLoop frames) condition = true := h₁ owned
  have e₂ : breaksOwnOf (ownLoop frames) body = true := h₂ owned
  simp [e₁, e₂]

theorem ifstat_goes (here : In start frames (anyLoop frames) p) (isIf : p.token.id = .keywordIf) :
    Goes start frames (anyLoop frames) (ifstat c) p fun node _ => Enclosed start frames node := by
  refine Goes.current (Goes.bind (ifclause_goes walking (by rw [isIf]; rfl) (by rw [isIf]; decide) here)
    fun first q here h => ?_)
  have turns : Goes start (.block :: frames) (anyLoop frames) (loop (fun clauses => do
      let token ← current
      if token.id = .keywordElseif then
        let clause ← ifclause c
        return Turn.again (clauses ++ [clause])
      else return .leave clauses) [first]) q fun clauses _ => AllEnclosed start frames clauses := by
    refine Goes.loop (I := fun clauses _ => AllEnclosed start frames clauses) here (.one h) fun clauses p here all => ?_
    refine Goes.current ?_
    split
    · rename_i isElseif
      exact Goes.bind (ifclause_goes walking (by rw [isElseif]; rfl) (by rw [isElseif]; decide) here)
        fun clause q here h => Goes.pure here (all.snoc h)
    · exact Goes.pure here all
  refine Goes.bind turns fun clauses q here all => ?_
  have last : Goes start (.block :: frames) (anyLoop frames) (elseclause c clauses) q
      fun clauses _ => AllEnclosed start frames clauses := by
    refine Goes.current ?_
    split
    · rename_i isElse
      exact Goes.bind (ifclause_goes walking (by rw [isElse]; rfl) (by rw [isElse]; decide) here)
        fun clause q here h => Goes.pure here (all.snoc h)
    · exact Goes.pure here all
  refine Goes.bind last fun clauses q here all => ?_
  exact Goes.bind (checkMatch_goes .keywordEnd (by decide) p.token here) fun _ q here _ => Goes.pure here all

theorem localfunc_goes (functionToken : Token) (here : In start (.body :: frames) (anyLoop frames) p) :
    Goes start frames (anyLoop frames) (localfunc c functionToken) p fun node _ => Enclosed start frames node :=
  Goes.bind (checkname_stays p here) fun _ _ here _ => funcbody_goes walking functionToken true (fun _ => rfl) here

omit walking in
theorem localVariable_stays {targets : List Node} (all : AllEnclosed start frames targets) :
    Stays start frames (anyLoop frames) (localVariable targets) fun t => ∀ q,
      Turn.Holds (fun targets _ => AllEnclosed start frames targets) (fun targets _ => AllEnclosed start frames targets) t q := by
  refine checkname_stays.bind fun name _ => ?_
  split
  · exact fun p here => report_goes here (by decide) _ _
  · refine (testcharnext_stays _).bind fun more _ => ?_
    split
    · exact .pure fun _ => all.snoc (.identifier name)
    · exact .pure fun _ => all.snoc (.identifier name)

theorem localValues_stays : Stays start frames (anyLoop frames) (localValues c) (AllEnclosed start frames) := by
  refine (testcharnext_stays _).bind fun more _ => ?_
  split
  · exact explist1_stays walking
  · exact .pure .nil

theorem localstat_stays : Stays start frames (anyLoop frames) (localstat c) (Enclosed start frames) := by
  refine (Stays.loop (I := AllEnclosed start frames) (S := AllEnclosed start frames) .nil
    fun targets all => localVariable_stays all).bind fun targets h₁ => ?_
  exact (localValues_stays walking).bind fun values h₂ => .pure fun owned => by simp [h₁ owned, h₂ owned]

theorem target_stays {s : List Node × PossibleLValueExpression}
    (h : AllEnclosed start frames s.1 ∧ Enclosed start frames s.2.node) :
    Stays start frames (anyLoop frames) (target c s) fun t => ∀ q,
      Turn.Holds (fun s _ => AllEnclosed start frames s.1 ∧ Enclosed start frames s.2.node)
        (fun targets _ => AllEnclosed start frames targets) t q := by
  unfold target
  split
  · refine (testcharnext_stays _).bind fun more _ => ?_
    split
    · exact (primaryexp_stays walking).bind fun next last => .pure fun _ => ⟨h.1.snoc h.2, last⟩
    · exact .pure fun _ => h.1.snoc h.2
  · exact fun p here => report_goes here (by decide) _ _

theorem assignment_stays {first : PossibleLValueExpression} (h : Enclosed start frames first.node) :
    Stays start frames (anyLoop frames) (assignment c first) (Enclosed start frames) := by
  refine (Stays.loop (S := AllEnclosed start frames)
    (I := fun s : List Node × PossibleLValueExpression => AllEnclosed start frames s.1 ∧ Enclosed start frames s.2.node)
    ⟨.nil, h⟩ fun s h => target_stays walking h).bind fun targets h₁ => ?_
  refine (checkcharnext_stays _).bind fun _ _ => ?_
  exact (explist1_stays walking).bind fun values h₂ => .pure fun owned => by simp [h₁ owned, h₂ owned]

theorem exprstat_stays : Stays start frames (anyLoop frames) (exprstat c) (Enclosed start frames) := by
  refine (primaryexp_stays walking).bind fun expression h => ?_
  split
  · rename_i call
    refine .pure fun owned => ?_
    have called := h owned
    rw [call] at called
    exact called
  · exact assignment_stays walking h

theorem statement_goes (inner : Inner frames) (here : In start frames (anyLoop frames) p) :
    Goes start frames (anyLoop frames) (statement c) p fun node _ => Enclosed start frames node := by
  refine Goes.current ?_
  split
  · rename_i isIf
    exact ifstat_goes walking here isIf
  · rename_i isLocal
    refine Goes.bind (nextToken_quiet here (by rw [isLocal]; rfl)) fun _ q here _ => Goes.current ?_
    have noBreak (token : Token) (is : (token.id == Token.Id.keywordFunction) = true) : token.id ≠ .keywordBreak := by
      rw [eq_of_beq is]
      decide
    refine Sat.bind (Sat.mono (testIf_goes here noBreak) ?_)
    rintro (_ | _) r ⟨here, is⟩
    · exact localstat_stays walking r here
    · rw [if_pos rfl, eq_of_beq (is rfl)] at here
      exact localfunc_goes walking q.token here
  · rename_i isReturn
    exact retstat_goes walking here isReturn
  · rename_i isWhile
    exact whilestat_goes walking here isWhile
  · rename_i isDo
    exact dostat_goes walking inner here isDo
  · rename_i isRepeat
    exact repeatstat_goes walking here isRepeat
  · rename_i isBreak
    exact breakstat_goes here isBreak
  · rename_i isFor
    exact forstat_goes walking here isFor
  · rename_i isFunction
    exact funcstat_goes walking here isFunction
  · exact exprstat_stays walking p here

theorem block_stays (inner : Inner frames) : Stays start frames (anyLoop frames) (block c) (AllEnclosed start frames) := by
  refine enterlevel_stays.bind fun _ _ => ?_
  refine (Stays.loop (I := AllEnclosed start frames) (S := AllEnclosed start frames) .nil fun list all p here => ?_).bind
    fun list all p here => (leavelevel_goes here).bind fun _ _ here _ => Goes.pure here all
  refine Goes.current ?_
  split
  · exact Goes.pure here fun _ => all
  · refine Goes.bind (statement_goes walking inner here) fun stat q here h => ?_
    refine ((testcharnext_stays _).bind fun _ _ => ?_) q here
    split
    · exact .pure fun _ => all.snoc h
    · exact .pure fun _ => all.snoc h

end

/-! ## The parser -/

theorem calls_walking (start : Input) (n : Nat) : Walking start (calls n) := by
  induction n with
  | zero => exact ⟨fun _ _ _ _ => Sat.throw trivial, fun _ _ _ _ => Sat.throw trivial⟩
  | succ n ih =>
      exact ⟨fun limit _ _ here => subexpr_goes ih limit here, fun _ inner => block_stays ih inner⟩

theorem chunk_goes (start : Input) : Sat (Stops start) chunk { start with } fun tree _ =>
    (∃ ts i, Reads start ts i ∧ i.token.id = .eof ∧ Looped ts) ∧ (Owned start → breaksOwn false tree = true) := by
  have here : In start [] (anyLoop []) { start with } := ⟨⟨[], .nil start, rfl, .nil⟩, rfl⟩
  refine Sat.bind (Sat.mono (block_stays (calls_walking start _) (by rintro ⟨⟩) _ here) ?_)
  rintro body q ⟨here, all⟩
  refine Sat.bind (Sat.mono (check_goes .eof here) ?_)
  rintro _ r ⟨⟨⟨ts, reads, -, looped⟩, -⟩, rfl, eof⟩
  exact Sat.pure ⟨⟨ts, r.toInput, reads, eof, looped⟩, all⟩

/-! ## What the parser reports -/

-- the tokens `ts` of the source stand in front of a break
def BreakBehind (lexer : Lexer) (ts : List Token) : Prop :=
  ∃ l t i, lexer.next = .token l t ∧ Reads ⟨l, t⟩ ts i ∧ i.token.id = .keywordBreak

def NoLoopToBreak (result : Except Stop Node) : Prop :=
  ∃ context, result = .error (.parse context) ∧ context.err = .noLoopToBreak

-- the error is found at the token behind `ts`, or in reading the next one
def FoundBehind (lexer : Lexer) (ts : List Token) : Stop → Prop
  | .parse context => ∃ l t i, lexer.next = .token l t ∧ Reads ⟨l, t⟩ ts i ∧ context.token = i.token
  | .lex lexer' err => ∃ l t i, lexer.next = .token l t ∧ Reads ⟨l, t⟩ ts i ∧ i.lexer.next = .error lexer' err
  | .panic | .timeout => False

-- another error comes before the break behind `ts`
def Earlier (lexer : Lexer) (ts : List Token) : Prop :=
  ¬NoLoopToBreak (parse lexer) ∧ ∃ e, parse lexer = .error e ∧ ∃ us, us.length ≤ ts.length ∧ FoundBehind lexer us e

-- the parser comes to a break that is in no loop of its own function
def Misplaced (lexer : Lexer) : Prop :=
  ∃ ts, BreakBehind lexer ts ∧ ¬Earlier lexer ts ∧ ownLoop (framesOf ts) = false

-- the parser comes to a break that is in no loop at all
def Unlooped (lexer : Lexer) : Prop :=
  ∃ ts, BreakBehind lexer ts ∧ ¬Earlier lexer ts ∧ anyLoop (framesOf ts) = false

theorem Unlooped.misplaced {lexer : Lexer} : Unlooped lexer → Misplaced lexer := by
  rintro ⟨ts, isBreak, first, outside⟩
  refine ⟨ts, isBreak, first, Bool.eq_false_of_not_eq_true fun own => ?_⟩
  rw [anyLoop_of_own own] at outside
  cases outside

section

variable {lexer l : Lexer} {t : Token} {start i j : Input} {ts us : List Token}

theorem Reads.valid (reads : Reads i ts j) (valid : i.Valid) : j.Valid := by
  induction reads with
  | nil _ => exact valid
  | cons lexed _ ih => exact ih (lexed_valid valid.inside lexed)

-- behind the end there is nothing else
theorem Reads.ended (reads : Reads i ts j) (valid : i.Valid) (eof : i.token.id = .eof) : j.token.id = .eof := by
  induction reads with
  | nil _ => exact eof
  | cons lexed _ ih =>
      refine ih (lexed_valid valid.inside lexed) ?_
      have none := (lexed_left valid lexed).1
      unfold Input.left at none
      rw [if_pos eof, valid.ended eof, Nat.sub_self] at none
      by_contra other
      rw [if_neg other] at none
      omega

theorem Reads.longer (reads : Reads start ts i) (reads' : Reads start us j) (le : ts.length ≤ us.length) :
    ∃ rest, us = ts ++ rest ∧ Reads i rest j := by
  induction reads generalizing us with
  | nil _ => exact ⟨us, rfl, reads'⟩
  | cons lexed _ ih =>
      cases reads' with
      | nil _ => cases le
      | cons lexed' rest' =>
          rw [lexed] at lexed'
          cases lexed'
          obtain ⟨rest, rfl, last⟩ := ih rest' (Nat.le_of_succ_le_succ le)
          exact ⟨rest, rfl, last⟩

-- a break among the tokens that are read is in a loop
theorem Looped.among (looped : Looped us) (reads : Reads start ts i) (isBreak : i.token.id = .keywordBreak)
    (reads' : Reads start us j) (less : ts.length < us.length) : anyLoop (framesOf ts) = true := by
  obtain ⟨rest, rfl, last⟩ := reads.longer reads' less.le
  cases rest with
  | nil =>
      rw [List.append_nil] at less
      exact (lt_irrefl _ less).elim
  | cons u rest =>
      have first : i.token = u := last.token
      exact looped ts u rest rfl (first ▸ isBreak)

theorem parse_goes (lexed : lexer.next = .token l t) :
    (∀ tree, parse lexer = .ok tree → (∃ ts i, Reads ⟨l, t⟩ ts i ∧ i.token.id = .eof ∧ Looped ts) ∧
      (Owned ⟨l, t⟩ → breaksOwn false tree = true)) ∧
      ∀ e, parse lexer = .error e → Stops ⟨l, t⟩ e := by
  have goes := chunk_goes ⟨l, t⟩
  unfold Sat at goes
  have run : parse lexer = (chunk { lexer := l, token := t }).map (·.1) := by
    unfold parse
    rw [lexed]
  rw [run]
  cases result : chunk { lexer := l, token := t } with
  | ok r =>
      rw [result] at goes
      refine ⟨?_, by rintro e ⟨⟩⟩
      rintro _ ⟨⟩
      exact goes
  | error e =>
      rw [result] at goes
      refine ⟨by rintro tree ⟨⟩, ?_⟩
      rintro _ ⟨⟩
      exact goes

-- the parser reports the first break that is in no loop at all
theorem noLoopToBreak_iff (inside : lexer.index ≤ lexer.buffer.length) :
    NoLoopToBreak (parse lexer) ↔ Unlooped lexer := by
  constructor
  · intro reported
    obtain ⟨context, run, err⟩ := reported
    cases lexed : lexer.next with
    | token l t =>
        obtain ⟨ts, i, reads, -, outside⟩ := (parse_goes lexed).2 _ run
        rw [if_pos err] at outside
        obtain ⟨us, u, rfl, isBreak, outside⟩ := outside
        obtain ⟨j, first, last⟩ := reads.split
        refine ⟨us, ⟨l, t, j, lexed, first, ?_⟩, fun earlier => earlier.1 ⟨context, run, err⟩, outside⟩
        rw [last.token]
        exact isBreak
    | error l e =>
        unfold parse at run
        rw [lexed] at run
        cases run
    | trap => exact (next_returns inside lexed).elim
  · rintro ⟨ts, ⟨l, t, i, lexed, reads, isBreak⟩, first, outside⟩
    by_contra other
    have looped {us : List Token} {j : Input} (looped : Looped us) (reads' : Reads ⟨l, t⟩ us j)
        (less : ts.length < us.length) : False := by
      rw [looped.among reads isBreak reads' less] at outside
      cases outside
    obtain ⟨-, returns⟩ := parse_watched inside
    cases run : parse lexer with
    | ok tree =>
        obtain ⟨⟨us, j, reads', eof, all⟩, -⟩ := (parse_goes lexed).1 tree run
        refine looped all reads' (Nat.lt_of_not_le fun le => ?_)
        obtain ⟨rest, rfl, last⟩ := reads'.longer reads le
        have ended := last.ended (reads'.valid (lexed_valid inside lexed)) eof
        rw [isBreak] at ended
        cases ended
    | error e =>
        have found {us : List Token} (behind : FoundBehind lexer us e) : ts.length < us.length :=
          Nat.lt_of_not_le fun le => first ⟨other, e, run, us, le, behind⟩
        have returns := returns e run
        have stops := (parse_goes lexed).2 e run
        cases e with
        | parse context =>
            obtain ⟨us, j, reads', same, all⟩ := stops
            rw [if_neg fun err => other ⟨context, run, err⟩] at all
            exact looped all reads' (found ⟨l, t, j, lexed, reads', same⟩)
        | lex l' err =>
            obtain ⟨us, j, reads', failed, all⟩ := stops
            exact looped all reads' (found ⟨l, t, j, lexed, reads', failed⟩)
        | panic => exact returns.1 rfl
        | timeout => exact returns.2 rfl

-- the trees of parsers that come to no misplaced break
theorem breaksOwn_of_placed {tree : Node} (parsed : parse lexer = .ok tree) (placed : ¬Misplaced lexer) :
    breaksOwn false tree = true := by
  cases lexed : lexer.next with
  | token l t =>
      refine ((parse_goes lexed).1 tree parsed).2 fun ts i reads isBreak => ?_
      by_contra unowned
      refine placed ⟨ts, ⟨l, t, i, lexed, reads, isBreak⟩, ?_, Bool.eq_false_of_not_eq_true unowned⟩
      rintro ⟨-, e, failed, -⟩
      rw [parsed] at failed
      cases failed
  | error l e =>
      unfold parse at parsed
      rw [lexed] at parsed
      cases parsed
  | trap =>
      unfold parse at parsed
      rw [lexed] at parsed
      cases parsed

end

end Zua.Parse
