import Zua.Parse.Complete

/-!
# Soundness of the parser

What the functions of the parser return is derived by the grammar from the tokens that they read. `Derived f s s' K`
says so of `f`, where `K` relates its result to the tokens and to the token behind them.
-/

namespace Zua.Parse
open Zua.Lex Syntax

variable {α β σ : Type} {s s' s'' : Status} {ts us : List Token} {next : Token} {a : α} {b : β}

-- whatever is read from here, and the status is `s'` in the end
def Derived (f : ParseM α) (s s' : Status) (K : α → List Token → Token → Prop) : Prop :=
  ∀ i, Sat (fun _ => True) f ⟨i, s⟩ fun a q => ∃ ts i', q = ⟨i', s'⟩ ∧ Reads i ts i' ∧ K a ts i'.token

namespace Derived

variable {f : ParseM α} {g : α → ParseM β} {h : Unit → ParseM β} {char : UInt8} {id : Token.Id} {toClose : Token}
  {G : α → List Token → Token → Prop} {K : β → List Token → Token → Prop}

theorem mono {G' : α → List Token → Token → Prop} (derived : Derived f s s' G)
    (weaker : ∀ a ts next, G a ts next → G' a ts next) : Derived f s s' G' := by
  intro i
  refine (derived i).mono ?_
  rintro a _ ⟨ts, i', rfl, reads, holds⟩
  exact ⟨ts, i', rfl, reads, weaker a ts i'.token holds⟩

theorem pure {K : α → List Token → Token → Prop} (holds : ∀ next, K a [] next) : Derived (Pure.pure a) s s K :=
  fun i => Sat.pure ⟨[], i, rfl, .nil i, holds i.token⟩

theorem throw (e : Stop) : Derived (MonadExcept.throw e : ParseM α) s s' G := fun _ => Sat.throw trivial

theorem bind (first : Derived f s s' G)
    (rest : ∀ a ts, Derived (g a) s' s'' fun b us next => G a ts (us.headD next) → K b (ts ++ us) next) :
    Derived (f >>= g) s s'' K := by
  intro i
  refine Sat.bind ((first i).mono ?_)
  rintro a _ ⟨ts, j, rfl, reads, holds⟩
  refine (rest a ts j).mono ?_
  rintro b _ ⟨us, i', rfl, reads', holds'⟩
  refine ⟨ts ++ us, i', rfl, reads.append reads', holds' ?_⟩
  rw [← reads'.token]
  exact holds

-- what is known of the first result is known in what follows
theorem following (first : Derived f s s' G) (rest : ∀ a ts next, G a ts next →
      Derived (g a) s' s'' fun b us next' => us.headD next' = next → K b (ts ++ us) next') :
    Derived (f >>= g) s s'' K := by
  intro i
  refine Sat.bind ((first i).mono ?_)
  rintro a _ ⟨ts, j, rfl, reads, holds⟩
  refine (rest a ts j.token holds j).mono ?_
  rintro b _ ⟨us, i', rfl, reads', holds'⟩
  exact ⟨ts ++ us, i', rfl, reads.append reads', holds' reads'.token.symm⟩

-- only the result is changed
theorem give {result : α → β} (first : Derived f s s' G) (holds : ∀ a ts next, G a ts next → K (result a) ts next) :
    Derived (f >>= fun a => Pure.pure (result a)) s s' K := by
  intro i
  refine Sat.bind ((first i).mono ?_)
  rintro a _ ⟨ts, i', rfl, reads, is⟩
  exact Sat.pure ⟨ts, i', rfl, reads, holds a ts i'.token is⟩

theorem look {g : Token → ParseM β}
    (rest : ∀ token, Derived (g token) s s' fun b ts next => ts.headD next = token → K b ts next) :
    Derived (current >>= g) s s' K := by
  intro i
  refine Sat.bind (Sat.bind (Sat.get (Sat.pure ?_)))
  refine (rest i.token i).mono ?_
  rintro b _ ⟨ts, i', rfl, reads, holds⟩
  exact ⟨ts, i', rfl, reads, holds reads.token.symm⟩

theorem state {g : Parser → ParseM β}
    (rest : ∀ i, Derived (g ⟨i, s⟩) s s' fun b ts next => ts.headD next = i.token → K b ts next) :
    Derived (get >>= g) s s' K := by
  intro i
  refine Sat.bind (Sat.get ?_)
  refine (rest i i).mono ?_
  rintro b _ ⟨ts, i', rfl, reads, holds⟩
  exact ⟨ts, i', rfl, reads, holds reads.token.symm⟩

theorem nextToken {K : Unit → List Token → Token → Prop} (holds : ∀ token next, K () [token] next) :
    Derived nextToken s s K := by
  intro i
  refine Sat.bind (Sat.get ?_)
  dsimp only
  cases lexed : i.lexer.next with
  | token lexer token => exact Sat.set ⟨[i.token], ⟨lexer, token⟩, rfl, .cons lexed (.nil _), holds _ _⟩
  | error lexer err => exact Sat.throw trivial
  | trap => exact Sat.throw trivial

theorem skip (rest : ∀ token, Derived (h ()) s s' fun b ts next => K b (token :: ts) next) :
    Derived (Parse.nextToken >>= h) s s' K := by
  refine bind (G := fun _ ts _ => ∃ token, ts = [token]) (nextToken fun token _ => ⟨token, rfl⟩) ?_
  rintro _ ts i
  refine (rest (ts.headD i.token) i).mono ?_
  rintro b _ ⟨us, i', rfl, reads, holds⟩
  refine ⟨us, i', rfl, reads, ?_⟩
  rintro ⟨token, rfl⟩
  exact holds

-- the token is skipped if it has the property
theorem testIf {p : Token → Bool} {g : Bool → ParseM β}
    (found : ∀ token, p token = true → Derived (g true) s s' fun b ts next => K b (token :: ts) next)
    (other : Derived (g false) s s' fun b ts next => p (ts.headD next) = false → K b ts next) :
    Derived (Parse.testIf p >>= g) s s' K := by
  have tested : Derived (Parse.testIf p) s s fun is ts next =>
      (is = true ∧ ∃ token, p token = true ∧ ts = [token]) ∨ (is = false ∧ ts = [] ∧ p next = false) := by
    refine look fun token => ?_
    split
    · rename_i is
      refine skip fun token' => pure fun next same => .inl ⟨rfl, token', ?_, rfl⟩
      rw [← same] at is
      exact is
    · rename_i is
      refine pure fun next same => .inr ⟨rfl, rfl, ?_⟩
      rw [← same] at is
      exact (Bool.not_eq_true _).mp is
  intro i
  refine Sat.bind ((tested i).mono ?_)
  rintro is _ ⟨ts, j, rfl, reads, ⟨rfl, token, is, rfl⟩ | ⟨rfl, rfl, is⟩⟩
  · refine (found token is j).mono ?_
    rintro b _ ⟨us, i', rfl, reads', holds⟩
    exact ⟨token :: us, i', rfl, reads.append reads', holds⟩
  · refine (other j).mono ?_
    rintro b _ ⟨us, i', rfl, reads', holds⟩
    refine ⟨us, i', rfl, reads.append reads', holds ?_⟩
    rw [← reads'.token]
    exact is

theorem report {G : α → List Token → Token → Prop} {err : ParseError} {expected expectedMatch : Option Token} :
    Derived (reportParseErrorExpectedToMatch err expected expectedMatch : ParseM α) s s' G :=
  look fun _ => throw _

-- one token with the property is read
theorem one {x : ParseM Unit} {P : Token → Prop} (read : Derived x s s fun _ ts _ => ∃ token, P token ∧ ts = [token])
    (rest : ∀ token, P token → Derived (h ()) s s' fun b ts next => K b (token :: ts) next) :
    Derived (x >>= h) s s' K := by
  intro i
  refine Sat.bind ((read i).mono ?_)
  rintro _ _ ⟨ts, j, rfl, reads, token, is, rfl⟩
  refine (rest token is j).mono ?_
  rintro b _ ⟨us, i', rfl, reads', holds⟩
  exact ⟨token :: us, i', rfl, reads.append reads', holds⟩

-- a check of the current token, which is skipped then
theorem next_of {x : ParseM Unit} {P : Token → Prop} (check : Derived x s s fun _ ts next => ts = [] ∧ P next) :
    Derived (x >>= fun _ => Parse.nextToken) s s fun _ ts _ => ∃ token, P token ∧ ts = [token] := by
  refine bind check fun _ ts => nextToken ?_
  rintro token next ⟨rfl, is⟩
  exact ⟨token, is, rfl⟩

theorem check_token : Derived (check id) s s fun _ ts next => ts = [] ∧ next.id = id := by
  refine look fun token => ?_
  split
  · rename_i is
    refine pure fun next same => ⟨rfl, ?_⟩
    rw [← same] at is
    exact is
  · exact report

theorem checkchar_token : Derived (checkchar char) s s fun _ ts next => ts = [] ∧ next.isChar char = true := by
  refine look fun token => ?_
  split
  · rename_i is
    refine pure fun next same => ⟨rfl, ?_⟩
    rw [← same] at is
    exact is
  · exact report

theorem checknext (rest : ∀ token, token.id = id → Derived (h ()) s s' fun b ts next => K b (token :: ts) next) :
    Derived (Parse.checknext id >>= h) s s' K := one (next_of check_token) rest

theorem checkcharnext
    (rest : ∀ token, token.isChar char = true → Derived (h ()) s s' fun b ts next => K b (token :: ts) next) :
    Derived (Parse.checkcharnext char >>= h) s s' K := one (next_of checkchar_token) rest

theorem checkname {g : Token → ParseM β}
    (rest : ∀ name, name.id = .name → Derived (g name) s s' fun b ts next => K b (name :: ts) next) :
    Derived (Parse.checkname >>= g) s s' K := by
  have named : Derived Parse.checkname s s fun name ts _ => name.id = .name ∧ ts = [name] := by
    refine look fun token => checknext fun name is => pure fun next same => ?_
    rw [List.headD_cons] at same
    rw [← same]
    exact ⟨is, rfl⟩
  intro i
  refine Sat.bind ((named i).mono ?_)
  rintro name _ ⟨ts, j, rfl, reads, is, rfl⟩
  refine (rest name is j).mono ?_
  rintro b _ ⟨us, i', rfl, reads', holds⟩
  exact ⟨name :: us, i', rfl, reads.append reads', holds⟩

theorem checkMatch (rest : ∀ token, token.id = id → Derived (h ()) s s' fun b ts next => K b (token :: ts) next) :
    Derived (Parse.checkMatch id toClose >>= h) s s' K := by
  refine one ?_ rest
  refine testIf (p := fun token => token.id == id) (fun token is => pure fun next => ?_) (look fun _ => report)
  exact ⟨token, eq_of_beq is, rfl⟩

theorem checkcharMatch
    (rest : ∀ token, token.isChar char = true → Derived (h ()) s s' fun b ts next => K b (token :: ts) next) :
    Derived (Parse.checkcharMatch char toClose >>= h) s s' K := by
  refine one ?_ rest
  refine testIf (fun token is => pure fun next => ⟨token, is, rfl⟩) ?_
  exact look fun _ => report

theorem enterlevel (rest : s.syntaxLevel < maxSyntaxLevels → Derived (h ()) s.deeper s' K) :
    Derived (Parse.enterlevel >>= h) s s' K := by
  have entered : Derived Parse.enterlevel s s.deeper fun _ ts _ => ts = [] ∧ s.syntaxLevel < maxSyntaxLevels := by
    have stops : Derived (reportParseError .tooManySyntaxLevels : ParseM Unit) s.deeper s.deeper fun _ ts _ =>
        ts = [] ∧ s.syntaxLevel < maxSyntaxLevels := report
    intro i
    refine Sat.bind (Sat.modify (Sat.bind (Sat.get ?_)))
    show Sat _ (if maxSyntaxLevels < s.syntaxLevel + 1 then _ else _) (⟨i, s.deeper⟩ : Parser) _
    split
    · exact stops i
    · rename_i inside
      exact Sat.pure ⟨[], i, rfl, .nil i, rfl, by omega⟩
  intro i
  refine Sat.bind ((entered i).mono ?_)
  rintro _ _ ⟨ts, j, rfl, reads, rfl, inside⟩
  cases reads
  exact rest inside i

theorem leavelevel (rest : Derived (h ()) s s' K) : Derived (Parse.leavelevel >>= h) s.deeper s' K := by
  intro i
  refine Sat.bind (Sat.bind (Sat.get ?_))
  exact Sat.set (rest i)

/-! ## Loops -/

-- what one turn contributes to what the loop derives from there
def Extends (G : σ → β → List Token → Token → Prop) (x : σ) : Turn σ β → List Token → Token → Prop
  | .again y, ts, next => ∀ b us next', us.headD next' = next → G y b us next' → G x b (ts ++ us) next'
  | .leave b, ts, next => G x b ts next

theorem loop {step : σ → ParseM (Turn σ β)} {G : σ → β → List Token → Token → Prop} {x : σ}
    (turn : ∀ x, Derived (step x) s s (Extends G x)) : Derived (loop step x) s s (G x) := by
  suffices rounds : ∀ n x, Derived (iterate step n x) s s (G x) by
    intro i
    exact Sat.bind (Sat.get (rounds _ x i))
  intro n
  induction n with
  | zero => exact fun x => throw _
  | succ n ih =>
      intro x i
      refine Sat.bind ((turn x i).mono ?_)
      rintro (y | b) _ ⟨ts, j, rfl, reads, holds⟩
      · refine (ih y j).mono ?_
        rintro b _ ⟨us, i', rfl, reads', holds'⟩
        exact ⟨ts ++ us, i', rfl, reads.append reads', holds b us i'.token reads'.token.symm holds'⟩
      · exact Sat.pure ⟨ts, j, rfl, reads, holds⟩

end Derived

/-! ## Expressions -/

structure Calls.Sound (c : Calls) : Prop where
  subexpr : ∀ limit s, Derived (c.subexpr limit) s s fun e ts next =>
    Derives s (.subexpr limit e.node) ts next ∧ e.untreatedOperator = pending next
  block : ∀ s, Derived c.block s s fun body ts next => Derives s (.block body) ts next

-- the result is derived as the phrase that it is named in
def Reading {α : Type} (f : ParseM α) (s : Status) (phrase : α → Phrase) : Prop :=
  Derived f s s fun a ts next => Derives s (phrase a) ts next

section expressions

variable {c : Calls} (sound : c.Sound)
include sound

theorem expr_reading : Reading (expr c) s (.subexpr 0) :=
  .give (sound.subexpr 0 s) fun _ _ _ h => h.1

theorem others_derived (list : List Node) : Derived (loop (explistTurn c) list) s s fun nodes ts next =>
    ∃ rest, nodes = list ++ rest ∧ Derives s (.others rest) ts next := by
  refine .loop (G := fun list nodes ts next => ∃ rest, nodes = list ++ rest ∧ Derives s (.others rest) ts next) ?_
  intro list
  refine .testIf (fun comma isComma => .give (expr_reading sound) ?_) (.pure ?_)
  · rintro value ts next derives _ us next' rfl ⟨rest, rfl, others⟩
    exact ⟨value :: rest, by simp, .moreOthers isComma derives others⟩
  · exact fun next apart => ⟨[], by simp, .noOthers apart⟩

theorem explist1_reading : Reading (explist1 c) s .explist := by
  refine .bind (expr_reading sound) fun first ts => (others_derived sound [first]).mono ?_
  rintro _ us next ⟨rest, rfl, others⟩ value
  exact .explist value others

theorem listfield_reading : Reading (listfield c) s .field :=
  .give (expr_reading sound) fun _ _ _ value => .listField value

theorem recfield_reading : Derived (recfield c) s s fun field ts next =>
    ((ts.headD next).id = .name ∨ (ts.headD next).isChar (ch '[') = true) → Derives s (.field field) ts next := by
  have key : Derived (recfieldKey c) s s fun key ts _ => ∃ token us, ts = token :: us ∧
      ((token.id = .name ∧ us = [] ∧ key = .literal token) ∨ ∃ vs closeToken, us = vs ++ [closeToken] ∧
        token.isChar (ch '[') = true ∧ Derives s (.subexpr 0 key) vs closeToken ∧
        closeToken.isChar (ch ']') = true) := by
    refine .look fun token => ?_
    split
    · refine .checkname fun name isName => .pure fun next _ => ⟨name, [], rfl, .inl ⟨isName, rfl, rfl⟩⟩
    · split
      · rename_i isOpen
        refine .skip fun openToken => .bind (expr_reading sound) fun key vs => ?_
        refine .checkcharnext fun closeToken isClose => .pure fun next value same => ?_
        rw [List.headD_cons] at same
        subst same
        exact ⟨openToken, _, rfl, .inr ⟨vs, closeToken, rfl, isOpen, value, isClose⟩⟩
      · exact .throw _
  refine .bind key fun key ts => ?_
  refine .checkcharnext fun equals isEquals => ?_
  refine .give (expr_reading sound) ?_
  rintro value us next derives
    ⟨token, ws, rfl, ⟨isName, rfl, rfl⟩ | ⟨vs, closeToken, rfl, isOpen, value', isClose⟩⟩ -
  · exact .nameField isName isEquals derives
  · simpa using Derives.keyField isOpen value' isClose isEquals derives

theorem tableField_reading : Reading (tableField c) s .field := by
  have record : ∀ P : Token → Prop, (∀ token, P token → token.id = .name ∨ token.isChar (ch '[') = true) →
      ∀ token, P token → Derived (recfield c) s s fun field ts next =>
        ts.headD next = token → Derives s (.field field) ts next := by
    intro P cases token holds
    refine (recfield_reading sound).mono ?_
    rintro field ts next derives rfl
    exact derives (cases _ holds)
  have plain : ∀ token : Token, Derived (listfield c) s s fun field ts next =>
      ts.headD next = token → Derives s (.field field) ts next :=
    fun _ => (listfield_reading sound).mono fun _ _ _ derives _ => derives
  refine .state fun i => ?_
  dsimp only
  split
  · rename_i isName
    split
    · split
      · exact record (fun token => token.id = .name) (fun _ is => .inl is) _ isName
      · exact plain _
    · exact plain _
    · exact .throw _
  · split
    · rename_i isOpen
      exact record (fun token => token.isChar (ch '[') = true) (fun _ is => .inr is) _ isOpen
    · exact plain _

theorem fields_derived (list : List Node) : Derived (loop (fieldTurn c) list) s s fun nodes ts next =>
    next.isChar (ch '}') = true → ∃ rest, nodes = list ++ rest ∧ Derives s (.fields rest) ts next := by
  refine .loop (G := fun list nodes ts next =>
    next.isChar (ch '}') = true → ∃ rest, nodes = list ++ rest ∧ Derives s (.fields rest) ts next) ?_
  intro list
  refine .look fun token => ?_
  split
  · exact .pure fun next _ isClose => ⟨[], by simp, .noFields isClose⟩
  · refine .bind (tableField_reading sound) fun field ts => ?_
    have separator : Derived fieldSeparator s s fun more us next => (more = true → ∃ separator, us = [separator] ∧
        (separator.isChar (ch ',') || separator.isChar (ch ';')) = true) ∧ (more = false → us = []) := by
      refine .testIf (fun comma isComma => .pure fun next => ?_) ?_
      · exact ⟨fun _ => ⟨comma, rfl, by rw [isComma]; rfl⟩, fun none => by cases none⟩
      · rw [← bind_pure (testcharnext (ch ';'))]
        refine .testIf (fun semicolon is => .pure fun next _ => ?_) (.pure fun next _ _ => ?_)
        · exact ⟨fun _ => ⟨semicolon, rfl, by rw [is, Bool.or_true]⟩, fun none => by cases none⟩
        · exact ⟨fun some => (by cases some), fun _ => rfl⟩
    refine .bind separator fun more us => ?_
    cases more with
    | true =>
        refine .pure ?_
        rintro next ⟨some, -⟩ derives - nodes vs next' rfl following isClose
        obtain ⟨separator, rfl, is⟩ := some rfl
        obtain ⟨rest, rfl, fields⟩ := following isClose
        refine ⟨field :: rest, by simp, ?_⟩
        simpa using Derives.moreFields derives is fields
    | false =>
        refine .pure ?_
        rintro next ⟨-, none⟩ derives - isClose
        obtain rfl := none rfl
        refine ⟨[field], rfl, ?_⟩
        simpa using Derives.lastField derives isClose

theorem constructor_reading : Reading (constructor c) s .constructor := by
  refine .look fun token => ?_
  refine .checkcharnext fun openToken isOpen => ?_
  refine .bind (fields_derived sound []) fun fields ts => ?_
  refine .look fun token' => ?_
  refine .checkcharMatch fun closeToken isClose => .pure ?_
  rintro next same derived same'
  rw [List.headD_cons] at same same'
  obtain ⟨rest, rfl, fields⟩ := derived isClose
  rw [← same, ← same']
  exact .constructor isOpen fields isClose

theorem arguments_reading : Derived (arguments c) s s fun arguments ts next => next.isChar (ch ')') = true →
    Derives s (.arguments arguments) ts next := by
  refine .look fun token => ?_
  split
  · exact .pure fun next _ isClose => .noArguments isClose
  · exact (explist1_reading sound).mono fun _ _ _ values _ _ => .withArguments values

theorem funcargs_reading (callee : Node) : Reading (funcargs c callee) s (.args callee) := by
  refine .look fun token => ?_
  split
  · rename_i isOpen
    split
    · exact .throw _
    · rename_i last found
      split
      · exact .report
      · rename_i sameLine
        refine .skip fun openArgs => .bind (arguments_reading sound) fun arguments ts => ?_
        refine .look fun closeToken => ?_
        refine .checkcharMatch fun closeArgs isClose => .pure ?_
        rintro next same derived same'
        rw [List.headD_cons] at same same'
        subst same same'
        exact .parenthesised isOpen found (not_not.mp sameLine) (derived isClose) isClose
  · split
    · exact .give (constructor_reading sound) fun _ _ _ table _ => .tableArgument table
    · split
      · rename_i isString
        refine .skip fun string => .pure ?_
        rintro next same
        rw [List.headD_cons] at same
        subst same
        exact .stringArgument isString
      · exact .report

/-! ## Primary expressions -/

theorem suffix_derived (operand : Node) : Derived (loop (suffix c) (lvalue operand)) s s fun e ts next =>
    e = lvalue e.node ∧ Derives s (.suffixes operand e.node) ts next := by
  refine Derived.mono (G := fun e ts next => lvalue operand = lvalue (lvalue operand).node →
    e = lvalue e.node ∧ Derives s (.suffixes operand e.node) ts next) ?_ fun _ _ _ h => h rfl
  refine .loop (G := fun first e ts next => first = lvalue first.node →
    e = lvalue e.node ∧ Derives s (.suffixes first.node e.node) ts next) ?_
  intro first
  refine .look fun token => ?_
  split
  · rename_i isDot
    refine .skip fun dot => .checkname fun field isName => .pure ?_
    rintro next same e vs next' rfl rest valued
    rw [List.headD_cons] at same
    subst same
    obtain ⟨valued', rest⟩ := rest rfl
    exact ⟨valued', .fieldAccess isDot isName rest⟩
  · split
    · rename_i isOpen
      refine .skip fun openToken => .bind (expr_reading sound) fun index ts => ?_
      refine .look fun token' => .checkcharnext fun closeToken isClose => .pure ?_
      rintro next same' derives same e vs next' rfl rest valued
      rw [List.headD_cons] at same same'
      subst same same'
      obtain ⟨valued', rest⟩ := rest rfl
      refine ⟨valued', ?_⟩
      simpa using Derives.indexAccess isOpen derives isClose rest
    · split
      · rename_i isColon
        refine .skip fun colon => .checkname fun field isName => ?_
        refine .give (funcargs_reading sound _) ?_
        rintro call ts next args same e vs next' rfl rest valued
        rw [List.headD_cons] at same
        subst same
        have isCall : lvalue call = ⟨call, false⟩ := by rw [lvalue, args.args_call]
        obtain ⟨valued', rest⟩ := rest isCall.symm
        exact ⟨valued', .method isColon isName args rest⟩
      · split
        · refine .give (funcargs_reading sound _) ?_
          rintro call ts next args same e vs next' rfl rest valued
          have isCall : lvalue call = ⟨call, false⟩ := by rw [lvalue, args.args_call]
          obtain ⟨valued', rest⟩ := rest isCall.symm
          exact ⟨valued', .call args rest⟩
        · rename_i dot bracket colon args
          refine .pure fun next same valued => ⟨valued, .noSuffix ?_⟩
          rw [List.headD_nil] at same
          subst same
          unfold continues
          simp only [Bool.not_eq_true] at dot bracket colon args
          rw [dot, bracket, colon, Bool.false_or, Bool.false_or, Bool.false_or]
          exact args

theorem primaryexp_derived : Derived (primaryexp c) s s fun e ts next =>
    e = lvalue e.node ∧ Derives s (.primary e.node) ts next := by
  have start : Derived (prefixexp c) s s fun first ts next => first = lvalue first.node ∧
      ∀ node us next', us.headD next' = next → Derives s (.suffixes first.node node) us next' →
        Derives s (.primary node) (ts ++ us) next' := by
    refine .look fun token => ?_
    split
    · rename_i isName
      refine .skip fun name => .pure ?_
      rintro next same
      rw [List.headD_cons] at same
      subst same
      exact ⟨rfl, fun node us next' _ suffixes => .name isName suffixes⟩
    · split
      · rename_i isOpen
        refine .skip fun openToken => .bind (expr_reading sound) fun e ts => ?_
        refine .look fun token' => .checkcharMatch fun closeToken isClose => .pure ?_
        rintro next same' derives same
        rw [List.headD_cons] at same same'
        subst same same'
        refine ⟨rfl, fun node us next' _ suffixes => ?_⟩
        simpa using Derives.group isOpen derives isClose suffixes
      · exact .report
  refine .following start fun first ts next ⟨valued, primary⟩ => ?_
  rw [valued]
  refine (suffix_derived sound first.node).mono ?_
  rintro e us next' ⟨valued', suffixes⟩ head
  exact ⟨valued', primary e.node us next' head suffixes⟩

/-! ## Functions -/

omit sound

theorem parlist_derived : Derived parlist s s fun list ts next => next.isChar (ch ')') = true →
    ParList list.1 list.2 ts next := by
  have params (list : List Token) : Derived (loop param list) s s fun all ts next => next.isChar (ch ')') = true →
      ∃ rest, all.1 = list ++ rest ∧ Params rest all.2 ts next := by
    refine .loop (G := fun list (all : List Token × Bool) ts next => next.isChar (ch ')') = true →
      ∃ rest, all.1 = list ++ rest ∧ Params rest all.2 ts next) ?_
    intro list
    refine .look fun token => ?_
    split
    · rename_i isName
      refine .skip fun name => .testIf (fun comma isComma => .pure ?_) (.pure ?_)
      · rintro next same all vs next' rfl following isClose
        rw [List.headD_cons] at same
        subst same
        obtain ⟨rest, whole, params⟩ := following isClose
        exact ⟨name :: rest, by rw [whole, List.append_assoc]; rfl, .more isName isComma params⟩
      · rintro next apart same isClose
        rw [List.headD_cons] at same
        subst same
        exact ⟨[name], rfl, .last isName apart⟩
    · split
      · rename_i isDots
        refine .skip fun dots => .pure ?_
        rintro next same isClose
        rw [List.headD_cons] at same
        subst same
        exact ⟨[dots], rfl, .vararg isDots⟩
      · exact .report
  refine .look fun token => ?_
  split
  · exact .pure fun next _ isClose => .none isClose
  · refine (params []).mono ?_
    rintro ⟨_, _⟩ ts next derived - isClose
    obtain ⟨rest, rfl, params⟩ := derived isClose
    exact .some params

include sound

theorem varargBlock_derived (vararg : Bool) : Derived (varargBlock c vararg) s s fun body ts next =>
    Derives { s with inVarargFunc := vararg } (.block body) ts next := by
  intro i
  refine Sat.bind (Sat.get (Sat.bind (Sat.set ?_)))
  refine Sat.bind ((sound.block { s with inVarargFunc := vararg } i).mono ?_)
  rintro body _ ⟨ts, i', rfl, reads, derives⟩
  exact Sat.bind (Sat.modify (Sat.pure ⟨ts, i', rfl, reads, derives⟩))

theorem funcbody_reading (functionToken : Token) (name : Option Node) (isLocal : Bool) :
    Reading (funcbody c functionToken name isLocal) s (.funcbody name isLocal) := by
  refine .checkcharnext fun openToken isOpen => ?_
  refine .bind parlist_derived ?_
  rintro ⟨params, vararg⟩ ts
  refine .checkcharnext fun closeToken isClose => ?_
  refine .bind (varargBlock_derived sound vararg) fun body us => ?_
  refine .checkMatch fun endToken isEnd => .pure ?_
  exact fun next block params => .funcbody isOpen (params isClose) isClose block isEnd

theorem simpleexp_reading : Reading (simpleexp c) s .simple := by
  refine .state fun i => ?_
  dsimp only
  split
  · rename_i literal
    split
    · exact .report
    · rename_i allowed
      refine .skip fun token => .pure ?_
      rintro next same
      rw [List.headD_cons] at same
      subst same
      refine .literal literal fun ellipsis => ?_
      by_contra outside
      exact allowed ⟨ellipsis, (Bool.not_eq_true _).mp outside⟩
  · split
    · exact (constructor_reading sound).mono fun _ _ _ table _ => .table table
    · split
      · rename_i isFunction
        refine .skip fun functionToken => ?_
        refine (funcbody_reading sound _ _ _).mono ?_
        rintro node us next body same
        rw [List.headD_cons] at same
        rw [← same] at isFunction
        exact .closure isFunction body
      · exact .give (primaryexp_derived sound) fun _ _ _ h _ => .primary h.2

/-! ## Operators -/

theorem operand_reading : Reading (operand c) s .operand := by
  refine .look fun token => ?_
  split
  · rename_i isUnary
    refine .skip fun op => .give (sound.subexpr unaryPriority s) ?_
    rintro e us next ⟨derives, -⟩ same
    rw [List.headD_cons] at same
    subst same
    exact .unary isUnary derives
  · exact (simpleexp_reading sound).mono fun _ _ _ simple _ => .simple simple

theorem operations_derived (limit : Nat) (left : Node) (op : Token) :
    Derived (loop (binary c limit) ⟨left, some op⟩) s s fun e ts next => ts.headD next = op →
      Derives s (.operations limit left e.node) ts next ∧ e.untreatedOperator = pending next := by
  -- the pending operator is the current token
  refine Derived.mono (G := fun e ts next => some op = some (ts.headD next) ∨ some op = pending (ts.headD next) →
    Derives s (.operations limit left e.node) ts next ∧ e.untreatedOperator = pending next) ?_
    fun _ _ _ h same => h (.inl (congrArg some same.symm))
  refine .loop (x := (⟨left, some op⟩ : SubExpr)) (G := fun (e e' : SubExpr) ts next =>
    e.untreatedOperator = some (ts.headD next) ∨ e.untreatedOperator = pending (ts.headD next) →
      Derives s (.operations limit e.node e'.node) ts next ∧ e'.untreatedOperator = pending next) ?_
  rintro ⟨left, untreated⟩
  cases untreated with
  | none =>
      refine .pure fun next treated => ?_
      have stops : pending next = none := by
        rcases treated with same | same
        · cases same
        · exact same.symm
      refine ⟨.noOperation fun isBinary => ?_, stops.symm⟩
      unfold pending at stops
      rw [if_pos isBinary] at stops
      cases stops
  | some op =>
      show Derived (if isBinaryOperator op then _ else _) _ _ _
      have current (ts : List Token) {next : Token} (isBinary : isBinaryOperator op = true)
          (treated : some op = some (ts.headD next) ∨ some op = pending (ts.headD next)) : op = ts.headD next := by
        rcases treated with same | same
        · exact Option.some.inj same
        · unfold pending at same
          split at same
          · exact Option.some.inj same
          · cases same
      split
      · rename_i isBinary
        show Derived (if (getBinaryPriority op).left ≤ limit then _ else _) _ _ _
        split
        · rename_i stops
          refine .pure fun next treated => ?_
          obtain rfl := current [] isBinary treated
          exact ⟨.noOperation fun _ => stops, (if_pos isBinary).symm⟩
        · rename_i through
          refine .skip fun op' => .give (sound.subexpr _ s) ?_
          rintro right ts next ⟨derives, pending'⟩ e us next' rfl rest treated
          obtain rfl := current (op' :: (ts ++ us)) isBinary treated
          obtain ⟨operations, pending''⟩ := rest (.inr pending')
          exact ⟨.operation isBinary (Nat.lt_of_not_le through) derives operations, pending''⟩
      · rename_i other
        refine .pure fun next treated => ?_
        have same : op = next := by
          rcases treated with same | same
          · exact Option.some.inj same
          · unfold pending at same
            split at same
            · exact Option.some.inj same
            · cases same
        subst same
        exact ⟨.noOperation fun is => absurd is other, (if_neg other).symm⟩

theorem subexpr_derived (limit : Nat) : Derived (subexpr c limit) s s fun e ts next =>
    Derives s (.subexpr limit e.node) ts next ∧ e.untreatedOperator = pending next := by
  refine .enterlevel fun inside => ?_
  refine .bind (operand_reading sound) fun head ts => ?_
  refine .look fun op => ?_
  refine .bind (operations_derived sound limit head op) fun e us => ?_
  refine .leavelevel (.pure ?_)
  rintro next derived same operand
  rw [List.append_nil] at same operand ⊢
  obtain ⟨operations, pending'⟩ := derived same
  exact ⟨.subexpr inside operand operations, pending'⟩

end expressions

/-! ## Names -/

theorem funcname_derived : Derived funcname s s FuncName := by
  have fields (node : Node) : Derived (loop (fun node => do
      let separator ← current
      if separator.isChar (ch '.') then
        nextToken
        let field ← checkname
        return .again (Node.fieldAccess node field separator)
      else return .leave node) node) s s (Fields node) := by
    refine .loop fun node => .look fun token => ?_
    split
    · rename_i isDot
      refine .skip fun dot => .checkname fun field isName => .pure ?_
      rintro next same node' us next' rfl rest
      rw [List.headD_cons] at same
      subst same
      exact .field isDot isName rest
    · rename_i apart
      refine .pure fun next same => ?_
      rw [List.headD_nil] at same
      subst same
      exact .none ((Bool.not_eq_true _).mp apart)
  refine .checkname fun name isName => .bind (fields _) fun node ts => ?_
  refine .look fun token => ?_
  split
  · rename_i isColon
    refine .skip fun colon => .checkname fun field isField => .pure ?_
    rintro next same fields
    rw [List.headD_cons] at same
    subst same
    exact .method isName fields isColon isField
  · rename_i apart
    refine .pure fun next same fields => ?_
    rw [List.headD_nil] at same
    subst same
    rw [List.append_nil]
    exact .plain isName fields ((Bool.not_eq_true _).mp apart)

theorem moreNames_derived (list : List Token) : Derived (loop (fun names => do
    let more ← testcharnext (ch ',')
    if more then
      let name ← checkname
      return .again (names ++ [name])
    else return .leave names) list) s s fun all ts next => ∃ rest, all = list ++ rest ∧ MoreNames rest ts next := by
  refine .loop (G := fun list all ts next => ∃ rest, all = list ++ rest ∧ MoreNames rest ts next) fun list => ?_
  refine .testIf (fun comma isComma => .checkname fun name isName => .pure ?_) (.pure ?_)
  · rintro next all us next' rfl ⟨rest, rfl, names⟩
    exact ⟨name :: rest, by simp, .more isComma isName names⟩
  · exact fun next apart => ⟨[], by simp, .none apart⟩

theorem localVariables_derived : Derived (loop localVariable []) s s fun targets ts next => ∃ name names us,
    ts = name :: us ∧ name.id = .name ∧ MoreNames names us next ∧ targets = (name :: names).map .identifier ∧
      (name :: names).length ≤ maxLocalVars := by
  refine Derived.mono (.loop (G := fun list targets ts next => ∃ name names us, ts = name :: us ∧ name.id = .name ∧
    MoreNames names us next ∧ targets = list ++ (name :: names).map .identifier ∧ targets.length ≤ maxLocalVars)
    fun list => ?_) ?_
  · refine .checkname fun name isName => ?_
    split
    · exact .report
    · rename_i few
      refine .testIf (fun comma isComma => .pure ?_) (.pure ?_)
      · rintro next targets us next' rfl ⟨name', names, vs, rfl, isName', more, rfl, bound⟩
        exact ⟨name, name' :: names, comma :: name' :: vs, rfl, isName, .more isComma isName' more, by simp, bound⟩
      · intro next apart
        refine ⟨name, [], [], rfl, isName, .none apart, rfl, ?_⟩
        rw [List.length_append, List.length_singleton]
        exact Nat.le_of_not_lt few
  · rintro _ ts next ⟨name, names, us, rfl, isName, more, rfl, bound⟩
    exact ⟨name, names, us, rfl, isName, more, rfl, by simpa using bound⟩

theorem semicolon_derived : Derived (testcharnext (ch ';')) s s fun _ ts next => Semicolon ts next := by
  rw [← bind_pure (testcharnext (ch ';'))]
  exact .testIf (fun semicolon is => .pure fun _ => .some is) (.pure fun _ apart => .none apart)

/-! ## Statements -/

section statements

variable {c : Calls} (sound : c.Sound)
include sound

theorem loopBlock_derived : Derived (loopBlock c) s s fun body ts next =>
    Derives { s with inLoop := true } (.block body) ts next := by
  intro i
  refine Sat.bind (Sat.get (Sat.bind (Sat.set ?_)))
  refine Sat.bind ((sound.block { s with inLoop := true } i).mono ?_)
  rintro body _ ⟨ts, i', rfl, reads, derives⟩
  exact Sat.bind (Sat.modify (Sat.pure ⟨ts, i', rfl, reads, derives⟩))

theorem ifclause_derived : Derived (ifclause c) s s fun clause ts next => ∃ head us, ts = head :: us ∧
    (head.id = .keywordIf ∨ head.id = .keywordElseif ∨ head.id = .keywordElse →
      Derives s (.clause head clause) ts next) := by
  refine .look fun token => .skip fun head => ?_
  have condition : Derived (clauseCondition c token) s s fun condition ts _ =>
      (token.id = .keywordElse ∧ condition = none ∧ ts = []) ∨
      ∃ e us thenToken, token.id ≠ .keywordElse ∧ condition = some e ∧ ts = us ++ [thenToken] ∧
        Derives s (.subexpr 0 e) us thenToken ∧ thenToken.id = .keywordThen := by
    unfold clauseCondition
    split
    · rename_i isElse
      exact .pure fun _ => .inl ⟨isElse, rfl, rfl⟩
    · rename_i notElse
      refine .bind (f := cond c) (expr_reading sound) fun e us => .checknext fun thenToken isThen => .pure ?_
      exact fun next derives => .inr ⟨e, us, thenToken, notElse, rfl, rfl, derives, isThen⟩
  refine .bind condition fun condition ts => .give (sound.block s) ?_
  rintro body us next block (⟨isElse, rfl, rfl⟩ | ⟨e, vs, thenToken, notElse, rfl, rfl, derives, isThen⟩) same
  · rw [List.headD_cons] at same
    subst same
    exact ⟨_, _, rfl, fun _ => .elseClause isElse block⟩
  · rw [List.headD_cons] at same
    subst same
    refine ⟨_, _, rfl, fun cases => ?_⟩
    have isIf : head.id = .keywordIf ∨ head.id = .keywordElseif := by tauto
    simpa using Derives.clause isIf derives isThen block

theorem elseifs_derived (list : List Node) : Derived (loop (elseifTurn c) list) s s fun clauses ts next =>
    ∃ rest, clauses = list ++ rest ∧ Derives s (.elseifs rest) ts next := by
  refine .loop (G := fun list clauses ts next => ∃ rest, clauses = list ++ rest ∧ Derives s (.elseifs rest) ts next) ?_
  intro list
  refine .look fun token => ?_
  split
  · rename_i isElseif
    refine .give (ifclause_derived sound) ?_
    rintro clause ts next ⟨head, us, rfl, derives⟩ same clauses vs next' rfl ⟨rest, rfl, elseifs⟩
    rw [List.headD_cons] at same
    subst same
    exact ⟨clause :: rest, by simp, .moreElseif isElseif (derives (.inr (.inl isElseif))) elseifs⟩
  · rename_i other
    refine .pure fun next same => ⟨[], by simp, .noElseif ?_⟩
    rw [List.headD_nil] at same
    rwa [same]

theorem elseclause_derived (list : List Node) : Derived (elseclause c list) s s fun clauses ts next =>
    ∃ rest, clauses = list ++ rest ∧ Derives s (.otherwise rest) ts next := by
  refine .look fun token => ?_
  split
  · rename_i isElse
    refine .give (ifclause_derived sound) ?_
    rintro clause ts next ⟨head, us, rfl, derives⟩ same
    rw [List.headD_cons] at same
    subst same
    exact ⟨[clause], rfl, .withElse isElse (derives (.inr (.inr isElse)))⟩
  · rename_i other
    refine .pure fun next same => ⟨[], by simp, .noElse ?_⟩
    rw [List.headD_nil] at same
    rwa [same]

-- what a function for a statement reads, when it is called at the keyword
def Statement (f : ParseM Node) (s : Status) (id : Token.Id) : Prop :=
  Derived f s s fun node ts next => (ts.headD next).id = id → Derives s (.statement node) ts next

theorem ifstat_derived : Statement (ifstat c) s .keywordIf := by
  refine .look fun token => ?_
  refine .bind (ifclause_derived sound) fun first ts => ?_
  refine .bind (elseifs_derived sound [first]) fun clauses us => ?_
  refine .bind (elseclause_derived sound clauses) fun clauses' vs => ?_
  refine .checkMatch fun endToken isEnd => .pure ?_
  rintro next ⟨rest', rfl, otherwise⟩ ⟨rest, rfl, elseifs⟩ ⟨head, ts, rfl, derives⟩ - isIf
  exact .ifStatement isIf (derives (.inl isIf)) elseifs otherwise isEnd

theorem localValues_reading : Reading (localValues c) s .localValues := by
  refine .testIf (fun equals isEquals => ?_) (.pure fun next apart => .noLocalValues apart)
  exact (explist1_reading sound).mono fun _ _ _ values => .withLocalValues isEquals values

theorem localstat_derived : Derived (localstat c) s s fun node ts next => ∀ localToken, localToken.id = .keywordLocal →
    Derives s (.statement node) (localToken :: ts) next := by
  refine .bind localVariables_derived fun targets ts => .give (localValues_reading sound) ?_
  rintro values us next derives ⟨name, names, ts, rfl, isName, more, rfl, few⟩ localToken isLocal
  exact .localStatement isLocal isName more few derives

theorem localfunc_derived (functionToken : Token) : Derived (localfunc c functionToken) s s fun node ts next =>
    ∀ localToken functionToken, localToken.id = .keywordLocal → functionToken.id = .keywordFunction →
      Derives s (.statement node) (localToken :: functionToken :: ts) next := by
  refine .checkname fun name isName => (funcbody_reading sound _ _ _).mono ?_
  exact fun node us next body localToken functionToken isLocal isFunction => .localFunction isLocal isFunction isName body

theorem retstat_derived : Statement (retstat c) s .keywordReturn := by
  refine .skip fun returnToken => .look fun token => ?_
  split
  · rename_i ends
    refine .pure ?_
    rintro next same isReturn
    rw [List.headD_nil] at same
    subst same
    exact .returnNothing isReturn ends
  · exact .give (explist1_reading sound) fun _ _ _ values _ isReturn => .returnValues isReturn values

theorem whilestat_derived : Statement (whilestat c) s .keywordWhile := by
  refine .look fun token => .skip fun whileToken => ?_
  refine .bind (f := cond c) (expr_reading sound) fun condition ts => ?_
  refine .checknext fun doToken isDo => .bind (loopBlock_derived sound) fun body us => ?_
  refine .checkMatch fun endToken isEnd => .pure ?_
  exact fun next block condition _ isWhile => .whileStatement isWhile condition isDo block isEnd

theorem dostat_derived : Statement (dostat c) s .keywordDo := by
  refine .look fun token => .skip fun doToken => .bind (sound.block s) fun body ts => ?_
  refine .checkMatch fun endToken isEnd => .pure ?_
  exact fun next block _ isDo => .doStatement isDo block isEnd

theorem repeatstat_derived : Statement (repeatstat c) s .keywordRepeat := by
  refine .look fun token => .skip fun repeatToken => .bind (loopBlock_derived sound) fun body ts => ?_
  refine .checkMatch fun untilToken isUntil => .give (f := cond c) (expr_reading sound) ?_
  exact fun condition us next derives block _ isRepeat => .repeatStatement isRepeat block isUntil derives

omit sound in
theorem breakstat_derived : Statement breakstat s .keywordBreak := by
  refine .look fun token => .skip fun breakToken => .state fun i => ?_
  dsimp only
  split
  · rename_i inside
    refine .pure ?_
    rintro next - same isBreak
    rw [List.headD_cons] at same
    subst same
    exact .breakStatement isBreak inside
  · exact .report

theorem increment_reading : Reading (increment c) s .increment := by
  refine .testIf (fun comma isComma => ?_) (.pure fun next apart => .noIncrement apart)
  exact .give (expr_reading sound) fun _ _ _ e => .withIncrement isComma e

theorem fornum_derived (name : Token) : Derived (fornum c name) s s fun node ts endToken => endToken.id = .keywordEnd →
    name.id = .name → ∀ forToken next, forToken.id = .keywordFor →
      Derives s (.statement node) (forToken :: name :: (ts ++ [endToken])) next := by
  refine .checkcharnext fun equals isEquals => .bind (expr_reading sound) fun first ts => ?_
  refine .checkcharnext fun comma isComma => .bind (expr_reading sound) fun last us => ?_
  refine .bind (increment_reading sound) fun step vs => ?_
  refine .checknext fun doToken isDo => .give (loopBlock_derived sound) ?_
  rintro body ws endToken block step stop start isEnd isName forToken next isFor
  have stop' : Derives s (.subexpr 0 last) us ((vs ++ doToken :: (ws ++ [endToken])).headD next) := by
    cases vs with
    | nil => exact stop
    | cons v vs => exact stop
  simpa using Derives.forNumeric isFor isName isEquals start isComma stop' step isDo block isEnd

theorem forlist_derived (name : Token) : Derived (forlist c name) s s fun node ts endToken => endToken.id = .keywordEnd →
    name.id = .name → ∀ forToken next, forToken.id = .keywordFor →
      Derives s (.statement node) (forToken :: name :: (ts ++ [endToken])) next := by
  refine .bind (moreNames_derived [name]) fun names ts => ?_
  refine .checknext fun inToken isIn => .bind (explist1_reading sound) fun expressions us => ?_
  refine .checknext fun doToken isDo => .give (loopBlock_derived sound) ?_
  rintro body vs endToken block expressions ⟨names, rfl, more⟩ isEnd isName forToken next isFor
  simpa using Derives.forGeneric isFor isName more isIn expressions isDo block isEnd

theorem forstat_derived : Statement (forstat c) s .keywordFor := by
  refine .look fun token => .skip fun forToken => .checkname fun name isName => ?_
  have vars : Derived (forvars c name) s s fun node ts endToken => endToken.id = .keywordEnd →
      name.id = .name → ∀ forToken next, forToken.id = .keywordFor →
        Derives s (.statement node) (forToken :: name :: (ts ++ [endToken])) next := by
    refine .look fun token => ?_
    split
    · exact (fornum_derived sound name).mono fun _ _ _ derived _ => derived
    · split
      · exact (forlist_derived sound name).mono fun _ _ _ derived _ => derived
      · exact .report
  refine .bind vars fun node ts => .checkMatch fun endToken isEnd => .pure ?_
  exact fun next derived _ isFor => derived isEnd isName forToken next isFor

theorem funcstat_derived : Statement (funcstat c) s .keywordFunction := by
  refine .look fun token => .skip fun functionToken => .bind funcname_derived fun name ts => ?_
  exact (funcbody_reading sound _ _ _).mono fun _ _ _ body name _ isFunction => .function isFunction name body

theorem targets_derived (first : Node) : Derived (loop (target c) ([], lvalue first)) s s fun nodes ts next =>
    Derives s (.targets first nodes) ts next := by
  refine Derived.mono (.loop (G := fun x nodes ts next => x.2 = lvalue x.2.node →
    ∃ rest, nodes = x.1 ++ rest ∧ Derives s (.targets x.2.node rest) ts next) ?_) ?_
  · rintro ⟨list, e⟩
    unfold target
    split
    · rename_i assigned
      refine .testIf (fun comma isComma => .give (primaryexp_derived sound) ?_) (.pure ?_)
      · rintro second ts next ⟨valued', primary⟩ nodes us next' rfl following valued
        have assignable : assignable e.node = true := by
          rw [valued] at assigned
          exact assigned
        obtain ⟨rest, rfl, targets⟩ := following valued'
        exact ⟨e.node :: rest, by simp, .moreTargets assignable isComma primary targets⟩
      · rintro next apart valued
        rw [valued] at assigned
        exact ⟨[e.node], rfl, .lastTarget assigned apart⟩
    · exact .report
  · rintro nodes ts next derived
    obtain ⟨rest, rfl, targets⟩ := derived rfl
    exact targets

theorem exprstat_reading : Reading (exprstat c) s .statement := by
  refine .following (primaryexp_derived sound) fun e ts next ⟨valued, primary⟩ => ?_
  split
  · rename_i node
    rw [node] at primary
    refine .pure ?_
    rintro next' rfl
    rw [List.append_nil]
    exact .callStatement primary
  · rw [valued]
    refine .bind (targets_derived sound e.node) fun targets us => ?_
    refine .checkcharnext fun equals isEquals => .give (explist1_reading sound) ?_
    rintro values vs next' values' targets' rfl
    exact .assignment primary targets' isEquals values'

theorem statement_reading : Reading (statement c) s .statement := by
  have keyword {f : ParseM Node} {token : Token} {id : Token.Id} (derived : Statement f s id) (is : token.id = id) :
      Derived f s s fun node ts next => ts.headD next = token → Derives s (.statement node) ts next := by
    refine derived.mono ?_
    rintro node ts next derives rfl
    exact derives is
  refine .look fun token => ?_
  split
  · rename_i is
    exact keyword (ifstat_derived sound) is
  · rename_i isLocal
    refine .skip fun localToken => .look fun token' => .testIf (fun functionToken isFunction => ?_) ?_
    · refine (localfunc_derived sound token').mono ?_
      rintro node ts next derived - same
      rw [List.headD_cons] at same
      subst same
      exact derived localToken functionToken isLocal (eq_of_beq isFunction)
    · refine (localstat_derived sound).mono ?_
      rintro node ts next derived - - same
      rw [List.headD_cons] at same
      subst same
      exact derived localToken isLocal
  · rename_i is
    exact keyword (retstat_derived sound) is
  · rename_i is
    exact keyword (whilestat_derived sound) is
  · rename_i is
    exact keyword (dostat_derived sound) is
  · rename_i is
    exact keyword (repeatstat_derived sound) is
  · rename_i is
    exact keyword breakstat_derived is
  · rename_i is
    exact keyword (forstat_derived sound) is
  · rename_i is
    exact keyword (funcstat_derived sound) is
  · exact (exprstat_reading sound).mono fun _ _ _ derives _ => derives

theorem block_reading : Reading (block c) s .block := by
  have statements (list : List Node) : Derived (loop (blockTurn c) list) s.deeper s.deeper fun nodes ts next =>
      ∃ rest, nodes = list ++ rest ∧ Derives s.deeper (.statements rest) ts next := by
    refine .loop (G := fun list nodes ts next =>
      ∃ rest, nodes = list ++ rest ∧ Derives s.deeper (.statements rest) ts next) fun list => ?_
    refine .look fun token => ?_
    split
    · rename_i follows
      refine .pure ?_
      rintro next rfl
      exact ⟨[], by simp, .noStatements follows⟩
    · refine .bind (statement_reading sound) fun stat ts => .bind semicolon_derived fun _ us => .pure ?_
      rintro next semicolon statement -
      rw [List.append_nil] at statement ⊢
      cases isLast : mustBeLast stat with
      | true => exact ⟨[stat], rfl, .lastStatement statement isLast semicolon⟩
      | false =>
          rintro nodes vs next' rfl ⟨rest, rfl, rest'⟩
          refine ⟨stat :: rest, by simp, ?_⟩
          have head : (us ++ vs).headD next' = us.headD (vs.headD next') := by cases us <;> rfl
          rw [← head] at statement
          simpa using Derives.moreStatements statement isLast semicolon rest'
  refine .enterlevel fun inside => .bind (statements []) fun list ts => .leavelevel (.pure ?_)
  rintro next ⟨rest, rfl, derives⟩
  rw [List.append_nil]
  exact .block inside derives

end statements

theorem calls_sound (d : Nat) : (calls d).Sound := by
  induction d with
  | zero => exact ⟨fun _ _ => .throw _, fun _ => .throw _⟩
  | succ d ih => exact ⟨fun limit s => subexpr_derived ih limit, fun s => block_reading ih⟩

/-! ## Buffers -/

-- the tokens of the lexer up to the first end of the buffer
def Tokens (lexer : Lexer) (ts : List Token) (eof : Token) : Prop :=
  ∃ (lexer' : Lexer) (first : Token) (i : Input), lexer.next = .token lexer' first ∧ Reads ⟨lexer', first⟩ ts i ∧
    i.token = eof ∧ eof.id = .eof ∧ ∀ t ∈ ts, t.id ≠ .eof

theorem chunk_derived : Derived chunk {} {} fun node ts next => next.id = .eof ∧ ∃ body, node = .chunk body ∧
    Derives {} (.block body) ts next := by
  refine .bind (block_reading (calls_sound maxSyntaxLevels)) fun body ts => ?_
  refine .bind .check_token fun _ us => .pure ?_
  rintro next ⟨rfl, isEof⟩ derives
  exact ⟨isEof, body, rfl, by simpa using derives⟩

theorem chunk_takes {body : List Node} (h : Derives {} (.block body) ts next) (isEof : next.id = .eof) :
    Takes chunk {} {} ts (.chunk body) next := by
  have block' : Takes (block (calls maxSyntaxLevels)) {} {} ts body next :=
    h.taken (d := maxSyntaxLevels + 1) (Nat.le_add_left _ _)
  have end' : Takes (check .eof) {} {} [] () next := by
    refine .look ?_
    rw [List.headD_nil, if_pos isEof]
    exact .pure ()
  exact block'.last (end'.last (.pure _))

theorem derives_of_parse {buffer chunkName : List UInt8} {tree : Node}
    (parsed : parse (Lexer.init buffer chunkName) = .ok tree) : ∃ body ts eof, tree = .chunk body ∧
      Tokens (Lexer.init buffer chunkName) ts eof ∧ Derives {} (.block body) ts eof := by
  unfold parse at parsed
  cases lexed : (Lexer.init buffer chunkName).next with
  | error lexer err =>
      rw [lexed] at parsed
      cases parsed
  | trap =>
      rw [lexed] at parsed
      cases parsed
  | token lexer first =>
      rw [lexed] at parsed
      dsimp only at parsed
      have derived := chunk_derived ⟨lexer, first⟩
      unfold Sat at derived
      cases run : chunk ⟨⟨lexer, first⟩, {}⟩ with
      | error e =>
          rw [show chunk { lexer, token := first } = .error e from run] at parsed
          cases parsed
      | ok result =>
          rw [run] at derived
          rw [show chunk { lexer, token := first } = .ok result from run] at parsed
          cases parsed
          obtain ⟨ts, i, -, reads, isEof, body, same, derives⟩ := derived
          exact ⟨body, ts, i.token, same, ⟨lexer, first, i, lexed, reads, rfl, isEof, derives.inside⟩, derives⟩

theorem parse_of_derives {buffer chunkName : List UInt8} {body : List Node} {ts : List Token} {eof : Token}
    (tokens : Tokens (Lexer.init buffer chunkName) ts eof) (derives : Derives {} (.block body) ts eof) :
    parse (Lexer.init buffer chunkName) = .ok (.chunk body) := by
  obtain ⟨lexer, first, i, lexed, reads, same, isEof, inside⟩ := tokens
  have started : Started lexer := ⟨buffer, chunkName, .next .init lexed⟩
  have run := chunk_takes derives isEof ⟨lexer, first⟩ i started reads same (reads.room started inside)
  unfold parse
  rw [lexed]
  show (chunk ⟨⟨lexer, first⟩, {}⟩).map (·.1) = _
  rw [run]
  rfl

-- the parser accepts what the grammar derives from the tokens of the buffer, and returns the tree of the derivation
theorem parse_derives (buffer chunkName : List UInt8) (tree : Node) :
    parse (Lexer.init buffer chunkName) = .ok tree ↔ ∃ body ts eof, tree = .chunk body ∧
      Tokens (Lexer.init buffer chunkName) ts eof ∧ Derives {} (.block body) ts eof := by
  constructor
  · exact derives_of_parse
  · rintro ⟨body, ts, eof, rfl, tokens, derives⟩
    exact parse_of_derives tokens derives

end Zua.Parse
