import Zua.Parse.Reads

/-!
# Where the parser gets to

From any state, a function of the parser ends in an input that is reached by reading tokens, and it reports a
parse error at such an input as well.
-/

namespace Zua.Parse
open Zua.Lex Syntax

variable {α β σ : Type}

def Follows (i j : Input) : Prop := ∃ ts, Reads i ts j

theorem Follows.refl (i : Input) : Follows i i := ⟨[], .nil i⟩

theorem Follows.trans {i j k : Input} : Follows i j → Follows j k → Follows i k := by
  rintro ⟨ts, first⟩ ⟨us, rest⟩
  exact ⟨ts ++ us, first.append rest⟩

def Found (start : Input) : Stop → Prop
  | .parse context => ∃ i, Follows start i ∧ context.token = i.token
  | _ => True

theorem Found.earlier {i j : Input} (follows : Follows i j) {e : Stop} (found : Found j e) : Found i e := by
  cases e with
  | parse context =>
      obtain ⟨k, after, same⟩ := found
      exact ⟨k, follows.trans after, same⟩
  | _ => trivial

def TracksFrom (p : Parser) (x : ParseM α) : Prop := Sat (Found p.toInput) x p fun _ q => Follows p.toInput q.toInput

def Tracks (x : ParseM α) : Prop := ∀ p, TracksFrom p x

theorem TracksFrom.bind {p : Parser} {x : ParseM α} {f : α → ParseM β} (first : TracksFrom p x)
    (rest : ∀ a q, Follows p.toInput q.toInput → TracksFrom q (f a)) : TracksFrom p (x >>= f) := by
  refine Sat.bind (Sat.mono first fun a q follows => ?_)
  refine ((rest a q follows).stops fun e found => found.earlier follows).mono ?_
  intro b r after
  exact follows.trans after

theorem TracksFrom.pure (p : Parser) (a : α) : TracksFrom p (Pure.pure a) := Sat.pure (.refl _)

theorem TracksFrom.current {p : Parser} {f : Token → ParseM β} (rest : TracksFrom p (f p.token)) :
    TracksFrom p (Parse.current >>= f) := Sat.bind (Sat.bind (Sat.get (Sat.pure rest)))

theorem TracksFrom.get {p : Parser} {f : Parser → ParseM β} (rest : TracksFrom p (f p)) :
    TracksFrom p (MonadState.get >>= f) := Sat.bind (Sat.get rest)

-- the status changes, the input does not
theorem TracksFrom.status {p : Parser} {f : Parser → Parser} {g : Unit → ParseM β} (same : (f p).toInput = p.toInput)
    (rest : TracksFrom (f p) (g ())) : TracksFrom p ((set (f p) : ParseM Unit) >>= g) := by
  refine Sat.bind (Sat.set ?_)
  unfold TracksFrom at rest
  rwa [same] at rest

namespace Tracks

theorem pure (a : α) : Tracks (Pure.pure a : ParseM α) := fun p => .pure p a

theorem throw {e : Stop} (found : ∀ i, Found i e) : Tracks (MonadExcept.throw e : ParseM α) :=
  fun p => Sat.throw (found p.toInput)

theorem bind {x : ParseM α} {f : α → ParseM β} (first : Tracks x) (rest : ∀ a, Tracks (f a)) :
    Tracks (x >>= f) := fun p => (first p).bind fun a q _ => rest a q

theorem current {f : Token → ParseM β} (rest : ∀ token, Tracks (f token)) : Tracks (Parse.current >>= f) :=
  fun p => .current (rest p.token p)

theorem get {f : Parser → ParseM β} (rest : ∀ p, TracksFrom p (f p)) : Tracks (MonadState.get >>= f) :=
  fun p => .get (rest p)

theorem loop {step : σ → ParseM (Turn σ β)} (turn : ∀ s, Tracks (step s)) (s : σ) : Tracks (Parse.loop step s) := by
  intro p
  refine Sat.loop (I := fun _ q => Follows p.toInput q.toInput) trivial (fun s q follows => ?_) (.refl _)
  refine ((turn s q).stops fun e found => found.earlier follows).mono ?_
  rintro (s | b) r after
  · exact follows.trans after
  · exact follows.trans after

end Tracks

/-! ## Tokens -/

theorem report_tracks (err : ParseError) (expected expectedMatch : Option Token) :
    Tracks (reportParseErrorExpectedToMatch err expected expectedMatch : ParseM α) :=
  fun p => .current (Sat.throw ⟨p.toInput, .refl _, rfl⟩)

theorem nextToken_tracks : Tracks nextToken := by
  intro p
  refine Sat.bind (Sat.get ?_)
  split
  · rename_i lexer token lexed
    exact Sat.set ⟨_, .cons lexed (.nil _)⟩
  · exact Sat.throw trivial
  · exact Sat.throw trivial

theorem testIf_tracks (test : Token → Bool) : Tracks (testIf test) := by
  refine .current fun token => ?_
  split
  · exact nextToken_tracks.bind fun _ => .pure true
  · exact .pure false

theorem testcharnext_tracks (char : UInt8) : Tracks (testcharnext char) := testIf_tracks _

theorem check_tracks (id : Token.Id) : Tracks (check id) := by
  refine .current fun token => ?_
  split
  · exact .pure ()
  · exact report_tracks _ _ _

theorem checknext_tracks (id : Token.Id) : Tracks (checknext id) := (check_tracks id).bind fun _ => nextToken_tracks

theorem checkcharnext_tracks (char : UInt8) : Tracks (checkcharnext char) := by
  refine .bind (.current fun token => ?_) fun _ => nextToken_tracks
  split
  · exact .pure ()
  · exact report_tracks _ _ _

theorem checkname_tracks : Tracks checkname := .current fun token => (checknext_tracks _).bind fun _ => .pure token

theorem checkMatch_tracks (id : Token.Id) (toClose : Token) : Tracks (checkMatch id toClose) := by
  refine (testIf_tracks _).bind fun found => ?_
  split
  · exact .pure ()
  · exact .current fun token => report_tracks _ _ _

theorem checkcharMatch_tracks (char : UInt8) (toClose : Token) : Tracks (checkcharMatch char toClose) := by
  refine (testIf_tracks _).bind fun found => ?_
  split
  · exact .pure ()
  · exact .current fun token => report_tracks _ _ _

theorem enterlevel_tracks : Tracks enterlevel := by
  intro p
  refine Sat.bind (Sat.modify (Sat.bind (Sat.get ?_)))
  split
  · exact report_tracks _ _ _ { p with syntaxLevel := p.syntaxLevel + 1 }
  · exact Sat.pure (.refl _)

theorem leavelevel_tracks : Tracks leavelevel := by
  refine .get fun p => ?_
  split
  · exact Sat.throw trivial
  · exact Sat.set (.refl _)

-- a list whose parts follow a separator
theorem separated_tracks {item : ParseM β} (separator : UInt8) (tracks : Tracks item) (first : List β) :
    Tracks (loop (fun list => do
      let more ← testcharnext separator
      if more then
        let e ← item
        return Turn.again (list ++ [e])
      else return .leave list) first) := by
  refine .loop (fun list => (testcharnext_tracks separator).bind fun more => ?_) first
  split
  · exact tracks.bind fun _ => .pure _
  · exact .pure _

/-! ## Expressions -/

structure CallsTrack (c : Calls) : Prop where
  subexpr : ∀ limit, Tracks (c.subexpr limit)
  block : Tracks c.block

section

variable {c : Calls} (calls : CallsTrack c)

include calls

theorem expr_tracks : Tracks (expr c) := (calls.subexpr 0).bind fun _ => .pure _

theorem explist1_tracks : Tracks (explist1 c) :=
  (expr_tracks calls).bind fun first => separated_tracks _ (expr_tracks calls) [first]

theorem listfield_tracks : Tracks (listfield c) := (expr_tracks calls).bind fun _ => .pure _

theorem recfieldKey_tracks : Tracks (recfieldKey c) := by
  refine .current fun token => ?_
  split
  · exact checkname_tracks.bind fun _ => .pure _
  split
  · refine nextToken_tracks.bind fun _ => (expr_tracks calls).bind fun key => ?_
    exact (checkcharnext_tracks _).bind fun _ => .pure key
  · exact .throw fun _ => trivial

theorem recfield_tracks : Tracks (recfield c) := by
  refine (recfieldKey_tracks calls).bind fun key => (checkcharnext_tracks _).bind fun _ => ?_
  exact (expr_tracks calls).bind fun value => .pure _

theorem tableField_tracks : Tracks (tableField c) := by
  refine .get fun p => ?_
  split
  · split
    · split
      · exact recfield_tracks calls p
      · exact listfield_tracks calls p
    · exact listfield_tracks calls p
    · exact Sat.throw trivial
  split
  · exact recfield_tracks calls p
  · exact listfield_tracks calls p

omit calls in
theorem fieldSeparator_tracks : Tracks fieldSeparator := by
  refine (testcharnext_tracks _).bind fun comma => ?_
  split
  · exact .pure _
  · exact testcharnext_tracks _

theorem fields_tracks : Tracks (loop (fun fields => do
    let token ← current
    if token.isChar (ch '}') then return Turn.leave fields
    else
      let field ← tableField c
      let more ← fieldSeparator
      if more then return .again (fields ++ [field]) else return .leave (fields ++ [field])) []) := by
  refine .loop (fun fields => .current fun token => ?_) []
  split
  · exact .pure _
  · refine (tableField_tracks calls).bind fun field => fieldSeparator_tracks.bind fun more => ?_
    split
    · exact .pure _
    · exact .pure _

theorem constructor_tracks : Tracks (constructor c) := by
  refine .current fun openBrace => (checkcharnext_tracks _).bind fun _ => ?_
  refine (fields_tracks calls).bind fun fields => .current fun closeBrace => ?_
  exact (checkcharMatch_tracks _ _).bind fun _ => .pure _

theorem arguments_tracks : Tracks (arguments c) := by
  refine .current fun token => ?_
  split
  · exact .pure _
  · exact explist1_tracks calls

-- the arguments in parentheses, behind the opening one
theorem called_tracks (expression : Node) (token : Token) : Tracks (do
    nextToken
    let arguments ← arguments c
    let closeArgs ← current
    checkcharMatch (ch ')') token
    return Node.call expression arguments (some token) (some closeArgs) false) := by
  refine nextToken_tracks.bind fun _ => (arguments_tracks calls).bind fun list => .current fun closeArgs => ?_
  exact (checkcharMatch_tracks _ _).bind fun _ => .pure _

theorem funcargs_tracks (expression : Node) : Tracks (funcargs c expression) := by
  refine .current fun token => ?_
  split
  · split
    · exact .throw fun _ => trivial
    split
    · exact report_tracks _ _ _
    · exact called_tracks calls expression token
  split
  · exact (constructor_tracks calls).bind fun _ => .pure _
  split
  · exact nextToken_tracks.bind fun _ => .pure _
  · exact report_tracks _ _ _

theorem prefixexp_tracks : Tracks (prefixexp c) := by
  refine .current fun token => ?_
  split
  · exact nextToken_tracks.bind fun _ => .pure _
  split
  · refine nextToken_tracks.bind fun _ => (expr_tracks calls).bind fun _ => .current fun _ => ?_
    exact (checkcharMatch_tracks _ _).bind fun _ => .pure _
  · exact report_tracks _ _ _

theorem suffix_tracks (e : PossibleLValueExpression) : Tracks (suffix c e) := by
  refine .current fun token => ?_
  split
  · exact nextToken_tracks.bind fun _ => checkname_tracks.bind fun _ => .pure _
  split
  · refine nextToken_tracks.bind fun _ => (expr_tracks calls).bind fun _ => .current fun _ => ?_
    exact (checkcharnext_tracks _).bind fun _ => .pure _
  split
  · refine nextToken_tracks.bind fun _ => checkname_tracks.bind fun _ => ?_
    exact (funcargs_tracks calls _).bind fun _ => .pure _
  split
  · exact (funcargs_tracks calls _).bind fun _ => .pure _
  · exact .pure _

theorem primaryexp_tracks : Tracks (primaryexp c) :=
  (prefixexp_tracks calls).bind fun e => .loop (suffix_tracks calls) e

/-! ## Functions and operators -/

omit calls in
theorem param_tracks (list : List Token) : Tracks (param list) := by
  refine .current fun token => ?_
  split
  · exact nextToken_tracks.bind fun _ => (testcharnext_tracks _).bind fun _ => .pure _
  split
  · exact nextToken_tracks.bind fun _ => .pure _
  · exact report_tracks _ _ _

omit calls in
theorem parlist_tracks : Tracks parlist := by
  refine .current fun token => ?_
  split
  · exact .pure _
  · exact .loop param_tracks []

-- a block in another status
theorem within_tracks {f g : Parser → Parser → Parser} (before : ∀ p, (f p p).toInput = p.toInput)
    (after : ∀ p q, (g p q).toInput = q.toInput) : Tracks (do
      let p ← MonadState.get
      set (f p p)
      let body ← c.block
      modify (g p)
      return body) := by
  refine .get fun p => .status (before p) ?_
  refine (calls.block _).bind fun body q _ => Sat.bind (Sat.modify (Sat.pure ?_))
  rw [after]
  exact .refl _

theorem varargBlock_tracks (varargFound : Bool) : Tracks (varargBlock c varargFound) :=
  within_tracks calls (f := fun _ p => { p with inVarargFunc := varargFound })
    (g := fun p q => { q with inVarargFunc := p.inVarargFunc }) (fun _ => rfl) fun _ _ => rfl

theorem funcbody_tracks (functionToken : Token) (name : Option Node) (isLocal : Bool) :
    Tracks (funcbody c functionToken name isLocal) := by
  refine (checkcharnext_tracks _).bind fun _ => parlist_tracks.bind fun params => ?_
  refine (checkcharnext_tracks _).bind fun _ => (varargBlock_tracks calls _).bind fun body => ?_
  exact (checkMatch_tracks _ _).bind fun _ => .pure _

theorem simpleexp_tracks : Tracks (simpleexp c) := by
  refine .get fun p => ?_
  split
  · split
    · exact report_tracks _ _ _ p
    · exact (nextToken_tracks.bind fun _ => .pure _) p
  split
  · exact constructor_tracks calls p
  split
  · exact (nextToken_tracks.bind fun _ => funcbody_tracks calls _ _ _) p
  · exact ((primaryexp_tracks calls).bind fun _ => .pure _) p

theorem operand_tracks : Tracks (operand c) := by
  refine .current fun token => ?_
  split
  · exact nextToken_tracks.bind fun _ => (calls.subexpr _).bind fun _ => .pure _
  · exact simpleexp_tracks calls

theorem binary_tracks (limit : Nat) (e : SubExpr) : Tracks (binary c limit e) := by
  unfold binary
  split
  · split
    · dsimp only
      split
      · exact .pure _
      · exact nextToken_tracks.bind fun _ => (calls.subexpr _).bind fun _ => .pure _
    · exact .pure _
  · exact .pure _

theorem subexpr_tracks (limit : Nat) : Tracks (subexpr c limit) := by
  refine enterlevel_tracks.bind fun _ => (operand_tracks calls).bind fun node => .current fun op => ?_
  exact (Tracks.loop (binary_tracks calls limit) _).bind fun e => leavelevel_tracks.bind fun _ => .pure e

/-! ## Statements -/

theorem loopBlock_tracks : Tracks (loopBlock c) :=
  within_tracks calls (f := fun _ p => { p with inLoop := true })
    (g := fun p q => { q with inLoop := p.inLoop }) (fun _ => rfl) fun _ _ => rfl

omit calls in
theorem funcname_tracks : Tracks funcname := by
  refine checkname_tracks.bind fun name => (Tracks.loop (fun node => .current fun separator => ?_) _).bind fun node => ?_
  · split
    · exact nextToken_tracks.bind fun _ => checkname_tracks.bind fun _ => .pure _
    · exact .pure _
  · refine .current fun separator => ?_
    split
    · exact nextToken_tracks.bind fun _ => checkname_tracks.bind fun _ => .pure _
    · exact .pure _

theorem funcstat_tracks : Tracks (funcstat c) :=
  .current fun _ => nextToken_tracks.bind fun _ => funcname_tracks.bind fun _ => funcbody_tracks calls _ _ _

theorem retstat_tracks : Tracks (retstat c) := by
  refine nextToken_tracks.bind fun _ => .current fun token => ?_
  split
  · exact .pure _
  · exact (explist1_tracks calls).bind fun _ => .pure _

theorem whilestat_tracks : Tracks (whilestat c) := by
  refine .current fun _ => nextToken_tracks.bind fun _ => (expr_tracks calls).bind fun _ => ?_
  refine (checknext_tracks _).bind fun _ => (loopBlock_tracks calls).bind fun _ => ?_
  exact (checkMatch_tracks _ _).bind fun _ => .pure _

omit calls in
theorem breakstat_tracks : Tracks breakstat := by
  refine .current fun _ => nextToken_tracks.bind fun _ => .get fun p => ?_
  split
  · exact .pure p _
  · exact report_tracks _ _ _ p

theorem dostat_tracks : Tracks (dostat c) := by
  refine .current fun _ => nextToken_tracks.bind fun _ => calls.block.bind fun _ => ?_
  exact (checkMatch_tracks _ _).bind fun _ => .pure _

theorem repeatstat_tracks : Tracks (repeatstat c) := by
  refine .current fun _ => nextToken_tracks.bind fun _ => (loopBlock_tracks calls).bind fun _ => ?_
  exact (checkMatch_tracks _ _).bind fun _ => (expr_tracks calls).bind fun _ => .pure _

theorem increment_tracks : Tracks (increment c) := by
  refine (testcharnext_tracks _).bind fun more => ?_
  split
  · exact (expr_tracks calls).bind fun _ => .pure _
  · exact .pure _

theorem fornum_tracks (name : Token) : Tracks (fornum c name) := by
  refine (checkcharnext_tracks _).bind fun _ => (expr_tracks calls).bind fun _ => ?_
  refine (checkcharnext_tracks _).bind fun _ => (expr_tracks calls).bind fun _ => ?_
  refine (increment_tracks calls).bind fun _ => (checknext_tracks _).bind fun _ => ?_
  exact (loopBlock_tracks calls).bind fun _ => .pure _

theorem forlist_tracks (firstName : Token) : Tracks (forlist c firstName) := by
  refine (separated_tracks _ checkname_tracks [firstName]).bind fun _ => (checknext_tracks _).bind fun _ => ?_
  refine (explist1_tracks calls).bind fun _ => (checknext_tracks _).bind fun _ => ?_
  exact (loopBlock_tracks calls).bind fun _ => .pure _

theorem forvars_tracks (name : Token) : Tracks (forvars c name) := by
  refine .current fun token => ?_
  split
  · exact fornum_tracks calls name
  split
  · exact forlist_tracks calls name
  · exact report_tracks _ _ _

theorem forstat_tracks : Tracks (forstat c) := by
  refine .current fun _ => nextToken_tracks.bind fun _ => checkname_tracks.bind fun name => ?_
  exact (forvars_tracks calls name).bind fun _ => (checkMatch_tracks _ _).bind fun _ => .pure _

theorem clauseCondition_tracks (ifToken : Token) : Tracks (clauseCondition c ifToken) := by
  unfold clauseCondition
  split
  · exact .pure _
  · exact (expr_tracks calls).bind fun _ => (checknext_tracks _).bind fun _ => .pure _

theorem ifclause_tracks : Tracks (ifclause c) := by
  refine .current fun ifToken => nextToken_tracks.bind fun _ => (clauseCondition_tracks calls ifToken).bind fun _ => ?_
  exact calls.block.bind fun _ => .pure _

theorem elseclause_tracks (clauses : List Node) : Tracks (elseclause c clauses) := by
  refine .current fun token => ?_
  split
  · exact (ifclause_tracks calls).bind fun _ => .pure _
  · exact .pure _

theorem ifstat_tracks : Tracks (ifstat c) := by
  refine .current fun _ => (ifclause_tracks calls).bind fun first => ?_
  refine (Tracks.loop (fun clauses => .current fun token => ?_) [first]).bind fun clauses => ?_
  · split
    · exact (ifclause_tracks calls).bind fun _ => .pure _
    · exact .pure _
  · exact (elseclause_tracks calls clauses).bind fun _ => (checkMatch_tracks _ _).bind fun _ => .pure _

theorem localfunc_tracks (functionToken : Token) : Tracks (localfunc c functionToken) :=
  checkname_tracks.bind fun _ => funcbody_tracks calls _ _ _

omit calls in
theorem localVariable_tracks (targets : List Node) : Tracks (localVariable targets) := by
  refine checkname_tracks.bind fun name => ?_
  split
  · exact report_tracks _ _ _
  · exact (testcharnext_tracks _).bind fun _ => .pure _

theorem localValues_tracks : Tracks (localValues c) := by
  refine (testcharnext_tracks _).bind fun more => ?_
  split
  · exact explist1_tracks calls
  · exact .pure _

theorem localstat_tracks : Tracks (localstat c) :=
  (Tracks.loop localVariable_tracks []).bind fun _ => (localValues_tracks calls).bind fun _ => .pure _

theorem target_tracks (s : List Node × PossibleLValueExpression) : Tracks (target c s) := by
  unfold target
  split
  · refine (testcharnext_tracks _).bind fun more => ?_
    split
    · exact (primaryexp_tracks calls).bind fun _ => .pure _
    · exact .pure _
  · exact report_tracks _ _ _

theorem assignment_tracks (first : PossibleLValueExpression) : Tracks (assignment c first) := by
  refine (Tracks.loop (target_tracks calls) _).bind fun _ => (checkcharnext_tracks _).bind fun _ => ?_
  exact (explist1_tracks calls).bind fun _ => .pure _

theorem exprstat_tracks : Tracks (exprstat c) := by
  refine (primaryexp_tracks calls).bind fun expression => ?_
  split
  · exact .pure _
  · exact assignment_tracks calls expression

theorem statement_tracks : Tracks (statement c) := by
  refine .current fun token => ?_
  split
  · exact ifstat_tracks calls
  · refine nextToken_tracks.bind fun _ => .current fun functionToken => (testIf_tracks _).bind fun found => ?_
    split
    · exact localfunc_tracks calls functionToken
    · exact localstat_tracks calls
  · exact retstat_tracks calls
  · exact whilestat_tracks calls
  · exact dostat_tracks calls
  · exact repeatstat_tracks calls
  · exact breakstat_tracks
  · exact forstat_tracks calls
  · exact funcstat_tracks calls
  · exact exprstat_tracks calls

theorem block_tracks : Tracks (block c) := by
  refine enterlevel_tracks.bind fun _ => (Tracks.loop (fun list => .current fun token => ?_) []).bind fun list =>
    leavelevel_tracks.bind fun _ => .pure list
  split
  · exact .pure _
  · exact (statement_tracks calls).bind fun _ => (testcharnext_tracks _).bind fun _ => .pure _

end

theorem calls_track (n : Nat) : CallsTrack (calls n) := by
  induction n with
  | zero => exact ⟨fun _ => .throw fun _ => trivial, .throw fun _ => trivial⟩
  | succ n ih => exact ⟨subexpr_tracks ih, block_tracks ih⟩

end Zua.Parse
