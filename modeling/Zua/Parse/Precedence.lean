import Zua.Parse.Reads

/-!
# Operator precedence

The trees of expressions by Lua's levels, and what `subexpr` makes of their tokens. The loop of `subexpr` builds
the left operands of a tree one after the other, and each of its right operands is a call with a higher limit.
-/

namespace Zua.Parse
open Zua.Lex Syntax

/-! ## Levels of operators -/

-- from `or` to `^`; the level 7 is that of the unary operators
def operatorLevel (op : Token) : Option Nat :=
  match op.id with
  | .keywordOr => some 1
  | .keywordAnd => some 2
  | .eq | .ne | .le | .ge => some 3
  | .concat => some 4
  | .singleChar => op.char.bind fun c => List.lookup c
      [(ch '<', 3), (ch '>', 3), (ch '+', 5), (ch '-', 5), (ch '*', 6), (ch '/', 6), (ch '%', 6), (ch '^', 8)]
  | _ => none

def unaryLevel : Nat := 7

-- the levels that the operands of an operator have at least
def leftLevel (m : Nat) : Nat := if m = 4 ∨ m = 8 then m + 1 else m
def rightLevel (m : Nat) : Nat := if m = 8 then unaryLevel else if m = 4 then m else m + 1

def leftPriority (m : Nat) : Nat := if m = 8 then 10 else if 4 ≤ m then m + 1 else m
def rightPriority (m : Nat) : Nat := if m = 8 then 9 else if m = 4 then 4 else if 4 ≤ m then m + 1 else m

abbrev IsLevel (m : Nat) : Prop := 1 ≤ m ∧ m ≤ 8 ∧ m ≠ 7

theorem char_level {c : UInt8} {m : Nat} (h : List.lookup c
      [(ch '<', 3), (ch '>', 3), (ch '+', 5), (ch '-', 5), (ch '*', 6), (ch '/', 6), (ch '%', 6), (ch '^', 8)] = some m) :
    c ∈ binaryChars ∧ IsLevel m ∧ charPriority c = ⟨leftPriority m, rightPriority m⟩ := by
  simp only [List.lookup_cons] at h
  repeat' split at h
  all_goals first
    | (rename_i same
       rw [eq_of_beq same]
       cases h
       decide)
    | cases h

theorem operator_level {op : Token} {m : Nat} (h : operatorLevel op = some m) :
    isBinaryOperator op = true ∧ IsLevel m ∧ getBinaryPriority op = ⟨leftPriority m, rightPriority m⟩ := by
  unfold operatorLevel at h
  unfold isBinaryOperator getBinaryPriority
  cases id : op.id with
  | singleChar =>
      rw [id] at h
      obtain ⟨c, char, found⟩ := Option.bind_eq_some_iff.mp h
      rw [char]
      obtain ⟨binary, level, priority⟩ := char_level found
      exact ⟨List.contains_iff_mem.mpr binary, level, priority⟩
  | _ =>
      rw [id] at h
      first
      | cases h
        exact ⟨rfl, by decide, rfl⟩
      | cases h

theorem operator_has_level {op : Token} (h : isBinaryOperator op = true) : ∃ m, operatorLevel op = some m := by
  unfold isBinaryOperator at h
  unfold operatorLevel
  cases id : op.id with
  | singleChar =>
      rw [id] at h
      obtain ⟨c, char, found⟩ := (Option.any_eq_true _ _).mp h
      rw [char]
      have listed : c ∈ binaryChars := List.contains_iff_mem.mp found
      fin_cases listed <;> exact ⟨_, rfl⟩
  | _ =>
      rw [id] at h
      first
      | exact ⟨_, rfl⟩
      | cases h

theorem isChar_iff {token : Token} {c : UInt8} :
    token.isChar c = true ↔ token.id = .singleChar ∧ token.char = some c := by
  unfold Token.isChar
  rw [Bool.and_eq_true, beq_iff_eq, beq_iff_eq]

/-! ## Trees -/

-- whether a token behind a primary expression is taken to be part of it
def continues (token : Token) : Bool :=
  token.isChar (ch '.') || token.isChar (ch '[') || token.isChar (ch ':') || token.isChar (ch '(') ||
    token.isChar (ch '{') || token.id == .string

theorem suffix_leaves {s : Status} {c : Calls} {expression : PossibleLValueExpression} {next : Token}
    (apart : continues next = false) : Accepts (suffix c expression) s s [] (.leave expression) next := by
  unfold continues at apart
  simp only [Bool.or_eq_false_iff] at apart
  obtain ⟨⟨⟨⟨⟨dot, bracket⟩, colon⟩, paren⟩, brace⟩, string⟩ := apart
  refine Accepts.look ?_
  rw [List.headD_nil, dot, bracket, colon, paren, brace, string]
  exact Accepts.pure _

def Status.at (s : Status) (level : Nat) : Status := { s with syntaxLevel := level }

-- a primary expression, with the levels that its parts enter
structure Primary (s : Status) where
  node : Node
  tokens : List Token
  levels : Nat
  head : ∃ t ts, tokens = t :: ts ∧ isUnaryOperator t = false
  complete : ∀ t ∈ tokens, t.id ≠ .eof
  parses : ∀ n level next, levels ≤ n → level + levels ≤ maxSyntaxLevels → continues next = false →
    Accepts (simpleexp (calls n)) (s.at level) (s.at level) tokens node next

def Primary.literal {s : Status} (token : Token) (literal : isLiteral token.id = true)
    (allowed : token.id = .ellipsis → s.inVarargFunc = true) : Primary s where
  node := .literal token
  tokens := [token]
  levels := 0
  head := by
    refine ⟨token, [], rfl, ?_⟩
    unfold isUnaryOperator
    cases id : token.id <;> rw [id] at literal <;> first | rfl | cases literal
  complete := by
    rintro t member
    rw [List.mem_singleton.mp member]
    intro eof
    rw [eof] at literal
    cases literal
  parses := by
    intro n level next _ _ _
    refine Accepts.state fun i head => ?_
    have current : i.token = token := head
    dsimp only
    rw [current, if_pos literal, if_neg]
    · exact Accepts.skip token (Accepts.pure _)
    · rintro ⟨ellipsis, outside⟩
      have inside : (s.at level).inVarargFunc = true := allowed ellipsis
      rw [inside] at outside
      cases outside

def Primary.name {s : Status} (token : Token) (name : token.id = .name) : Primary s where
  node := .identifier token
  tokens := [token]
  levels := 0
  head := by
    refine ⟨token, [], rfl, ?_⟩
    unfold isUnaryOperator
    rw [name]
  complete := by
    rintro t member
    rw [List.mem_singleton.mp member, name]
    decide
  parses := by
    intro n level next _ _ apart
    refine Accepts.state fun i head => ?_
    have current : i.token = token := head
    dsimp only
    rw [current, if_neg (by rw [name]; decide), if_neg (by simp [Token.isChar, name]), if_neg (by rw [name]; decide)]
    have start : Accepts (prefixexp (calls n)) (s.at level) (s.at level) [token]
        { node := .identifier token } next := by
      refine Accepts.look ?_
      rw [List.headD_cons, if_pos name]
      exact Accepts.skip token (Accepts.pure _)
    have whole : Accepts (primaryexp (calls n)) (s.at level) (s.at level) [token]
        { node := .identifier token } next :=
      start.last (Accepts.loop (Accepts.leave (suffix_leaves apart)))
    exact whole.last (Accepts.pure _)

inductive Tree (s : Status)
  | primary (e : Primary s)
  | unary (op : Token) (e : Tree s)
  | binary (op : Token) (l r : Tree s)
  | group (openToken closeToken : Token) (e : Tree s)

namespace Tree

variable {s : Status}

def node : Tree s → Node
  | .primary e => e.node
  | .unary op e => .unaryExpression op e.node
  | .binary op l r => .binaryExpression op l.node r.node
  | .group openToken closeToken e => .groupedExpression openToken e.node closeToken

def tokens : Tree s → List Token
  | .primary e => e.tokens
  | .unary op e => op :: e.tokens
  | .binary op l r => l.tokens ++ op :: r.tokens
  | .group openToken closeToken e => openToken :: (e.tokens ++ [closeToken])

-- the calls of `subexpr` that are open at the same time inside the one for the tree
def levels : Tree s → Nat
  | .primary e => e.levels
  | .unary _ e => e.levels + 1
  | .binary _ l r => max l.levels (r.levels + 1)
  | .group _ _ e => e.levels + 1

-- the tree stands where an operator has the level `n` or a higher one
def Canonical (n : Nat) : Tree s → Prop
  | .primary _ => True
  | .unary op e => n ≤ unaryLevel ∧ isUnaryOperator op = true ∧ e.Canonical unaryLevel
  | .binary op l r => ∃ m, operatorLevel op = some m ∧ n ≤ m ∧ l.Canonical (leftLevel m) ∧ r.Canonical (rightLevel m)
  | .group openToken closeToken e => openToken.isChar (ch '(') = true ∧ closeToken.isChar (ch ')') = true ∧ e.Canonical 1

end Tree

/-! ## What may stand behind a tree -/

def pending (token : Token) : Option Token := if isBinaryOperator token then some token else none

-- a token that ends a tree of the level `n`
structure Ends (n : Nat) (token : Token) : Prop where
  apart : continues token = false
  loose : ∀ m, operatorLevel token = some m → leftLevel m ≤ n

-- the limit lets the operators of the level `n` and of the higher ones through
def Below (limit n : Nat) : Prop := ∀ m, IsLevel m → n ≤ m → limit < leftPriority m

theorem below_right {m : Nat} (level : IsLevel m) : Below (rightPriority m) (rightLevel m) := by
  intro k _ _
  unfold rightPriority leftPriority
  unfold rightLevel unaryLevel at *
  split_ifs at * <;> omega

theorem below_unary : Below unaryPriority unaryLevel := by
  intro k _ _
  unfold unaryPriority leftPriority
  unfold unaryLevel at *
  split_ifs <;> omega

theorem below_bottom : Below 0 1 := by
  intro k _ _
  unfold leftPriority
  split_ifs <;> omega

theorem Below.left {limit n m : Nat} (below : Below limit n) (le : n ≤ m) : Below limit (leftLevel m) := by
  intro k level higher
  refine below k level (Nat.le_trans le (Nat.le_trans ?_ higher))
  unfold leftLevel
  split_ifs <;> omega

theorem Ends.right {n m : Nat} {token : Token} (ends : Ends n token) (level : IsLevel m) (le : n ≤ m) :
    Ends (rightLevel m) token ∧ ∀ k, operatorLevel token = some k → leftPriority k ≤ rightPriority m := by
  have bounds : ∀ k, operatorLevel token = some k → leftLevel k ≤ rightLevel m ∧ leftPriority k ≤ rightPriority m := by
    intro k found
    obtain ⟨-, levelK, -⟩ := operator_level found
    have loose := ends.loose k found
    unfold leftPriority rightPriority rightLevel unaryLevel
    unfold leftLevel at *
    split_ifs at * <;> omega
  exact ⟨⟨ends.apart, fun k found => (bounds k found).1⟩, fun k found => (bounds k found).2⟩

theorem Ends.unary {n : Nat} {token : Token} (ends : Ends n token) (le : n ≤ unaryLevel) :
    Ends unaryLevel token ∧ ∀ k, operatorLevel token = some k → leftPriority k ≤ unaryPriority := by
  have bounds : ∀ k, operatorLevel token = some k → leftLevel k ≤ unaryLevel ∧ leftPriority k ≤ unaryPriority := by
    intro k found
    obtain ⟨-, levelK, -⟩ := operator_level found
    have loose := ends.loose k found
    unfold leftPriority unaryPriority
    unfold unaryLevel leftLevel at *
    split_ifs at * <;> omega
  exact ⟨⟨ends.apart, fun k found => (bounds k found).1⟩, fun k found => (bounds k found).2⟩

theorem Ends.other {n : Nat} {token : Token} (apart : continues token = false)
    (other : isBinaryOperator token = false) : Ends n token := by
  refine ⟨apart, fun m found => ?_⟩
  rw [(operator_level found).1] at other
  cases other

-- an operator ends its left operand
theorem Ends.operator {m : Nat} {op : Token} (found : operatorLevel op = some m) : Ends (leftLevel m) op := by
  have noChar : ∀ c, operatorLevel { op with id := .singleChar, char := some c } = none → op.isChar c = false := by
    intro c none
    by_contra same
    obtain ⟨id, char⟩ := isChar_iff.mp ((Bool.not_eq_false _).mp same)
    have whole : op = { op with id := .singleChar, char := some c } := by rw [← id, ← char]
    rw [whole, none] at found
    cases found
  have noString : (op.id == .string) = false := by
    by_contra same
    have id : op.id = .string := eq_of_beq ((Bool.not_eq_false _).mp same)
    unfold operatorLevel at found
    rw [id] at found
    cases found
  refine ⟨?_, ?_⟩
  · unfold continues
    rw [noChar _ rfl, noChar _ rfl, noChar _ rfl, noChar _ rfl, noChar _ rfl, noString]
    rfl
  · intro k same
    rw [found] at same
    cases same
    exact le_rfl

/-! ## The loop of `subexpr` -/

open Accepts (Turns)

theorem binary_pending (c : Calls) (limit : Nat) (node : Node) (token : Token) :
    binary c limit ⟨node, some token⟩ = binary c limit ⟨node, pending token⟩ := by
  unfold pending
  split
  · rfl
  · rename_i other
    show (if isBinaryOperator token then _ else _) = _
    rw [if_neg other]
    rfl

variable {s : Status}

theorem group_accepts {c : Calls} {e : SubExpr} {ts : List Token} {openToken closeToken next : Token}
    (isOpen : openToken.isChar (ch '(') = true) (isClose : closeToken.isChar (ch ')') = true)
    (apart : continues next = false) (inside : Accepts (c.subexpr 0) s s ts e closeToken) :
    Accepts (simpleexp c) s s (openToken :: (ts ++ [closeToken]))
      (.groupedExpression openToken e.node closeToken) next := by
  obtain ⟨id, char⟩ := isChar_iff.mp isOpen
  have groups : Accepts (prefixexp c) s s (openToken :: (ts ++ [closeToken]))
      { node := .groupedExpression openToken e.node closeToken, canBeAssignedTo := false } next := by
    refine Accepts.look ?_
    rw [List.headD_cons, if_neg (by rw [id]; decide), if_pos isOpen]
    refine Accepts.skip openToken ?_
    refine Accepts.bind (a := e.node) (inside.last (Accepts.pure _)) ?_
    refine Accepts.look ?_
    exact Accepts.checkcharMatch isClose (Accepts.pure _)
  refine Accepts.state fun i head => ?_
  have token : i.token = openToken := head
  dsimp only
  rw [token, if_neg (by rw [id]; decide), if_neg (by simp [Token.isChar, char]), if_neg (by rw [id]; decide)]
  have whole : Accepts (primaryexp c) s s (openToken :: (ts ++ [closeToken]))
      { node := .groupedExpression openToken e.node closeToken, canBeAssignedTo := false } next :=
    groups.last (Accepts.loop (Accepts.leave (suffix_leaves apart)))
  exact whole.last (Accepts.pure _)

-- the limit lets the operator through
theorem operator_turn {c : Calls} {limit m : Nat} {right : SubExpr} {ts : List Token} {op next : Token} (left : Node)
    (found : operatorLevel op = some m) (through : limit < leftPriority m)
    (operand : Accepts (c.subexpr (rightPriority m)) s s ts right next) :
    Accepts (binary c limit ⟨left, pending op⟩) s s (op :: ts)
      (.again ⟨.binaryExpression op left right.node, right.untreatedOperator⟩) next := by
  obtain ⟨isBinary, -, priority⟩ := operator_level found
  rw [← binary_pending]
  show Accepts (if isBinaryOperator op then _ else _) _ _ _ _ _
  rw [if_pos isBinary]
  show Accepts (if (getBinaryPriority op).left ≤ limit then _ else _) _ _ _ _ _
  rw [priority, if_neg (Nat.not_le_of_lt through)]
  refine Accepts.skip op ?_
  exact operand.last (Accepts.pure _)

theorem paren_ends {token : Token} (paren : token.isChar (ch ')') = true) :
    continues token = false ∧ isBinaryOperator token = false := by
  obtain ⟨id, char⟩ := isChar_iff.mp paren
  unfold continues Token.isChar isBinaryOperator
  rw [id, char]
  exact ⟨rfl, rfl⟩

-- a tree in front of `us` is read as its first operand and turns of the loop
def Climbs (t : Tree s) : Prop :=
  ∀ (us : List Token) {n limit level d : Nat} {e : SubExpr} {next : Token}, t.Canonical n → Below limit n →
    t.levels ≤ d → level + t.levels ≤ maxSyntaxLevels → Ends n (us.headD next) →
    Turns (binary (calls d) limit) (s.at level) ⟨t.node, pending (us.headD next)⟩ us e next →
    ∃ head first rest, t.tokens = first ++ rest ∧
      Accepts (operand (calls d)) (s.at level) (s.at level) first head ((rest ++ us).headD next) ∧
      Turns (binary (calls d) limit) (s.at level) ⟨head, some ((rest ++ us).headD next)⟩ (rest ++ us) e next

theorem Climbs.subexpr {t : Tree s} {n limit level d : Nat} {next : Token} (climbs : Climbs t)
    (canonical : t.Canonical n) (below : Below limit n) (deep : t.levels ≤ d)
    (room : level + t.levels < maxSyntaxLevels) (ends : Ends n next)
    (stops : ∀ m, operatorLevel next = some m → leftPriority m ≤ limit) :
    Accepts ((calls (d + 1)).subexpr limit) (s.at level) (s.at level) t.tokens ⟨t.node, pending next⟩ next := by
  have stop : Accepts (binary (calls d) limit ⟨t.node, some next⟩) (s.at (level + 1)) (s.at (level + 1)) []
      (.leave ⟨t.node, pending next⟩) next := by
    show Accepts (if isBinaryOperator next then _ else _) _ _ _ _ _
    unfold pending
    split
    · rename_i found
      obtain ⟨m, level⟩ := operator_has_level found
      have left : (getBinaryPriority next).left ≤ limit := by
        rw [(operator_level level).2.2]
        exact stops m level
      rw [if_pos left]
      exact Accepts.pure _
    · exact Accepts.pure _
  rw [binary_pending] at stop
  have inside : level + 1 + t.levels ≤ maxSyntaxLevels := by omega
  have enters : (s.at level).syntaxLevel < maxSyntaxLevels := by
    show level < _
    omega
  obtain ⟨head, first, rest, tokens, reads, turns⟩ :=
    climbs [] canonical below deep inside ends (Accepts.leave stop)
  rw [List.append_nil] at reads turns
  rw [tokens]
  refine Accepts.enterlevel enters ?_
  refine reads.bind ?_
  refine Accepts.look ?_
  refine (Accepts.loop turns).last ?_
  exact Accepts.leavelevel (s := s.at level) (Accepts.pure _)

theorem climbs (t : Tree s) : Climbs t := by
  induction t with
  | primary e =>
      intro us n limit level d e' next _ _ deep room ends turns
      refine ⟨e.node, e.tokens, [], (List.append_nil _).symm, ?_, turns.same (binary_pending _ _ _ _)⟩
      obtain ⟨t, ts, tokens, notUnary⟩ := e.head
      unfold operand
      refine Accepts.look ?_
      have head : e.tokens.headD (([] ++ us).headD next) = t := by rw [tokens, List.headD_cons]
      rw [head, notUnary]
      exact e.parses d level _ deep room ends.apart
  | unary op e ih =>
      intro us n limit level d e' next canonical below deep room ends turns
      obtain ⟨le, isUnary, inner⟩ := canonical
      obtain ⟨endsInner, stops⟩ := ends.unary le
      have levels : e.levels + 1 ≤ d := deep
      have open_ : level + (e.levels + 1) ≤ maxSyntaxLevels := room
      cases d with
      | zero => omega
      | succ d =>
          have argument := ih.subexpr inner below_unary (show e.levels ≤ d by omega)
            (show level + e.levels < maxSyntaxLevels by omega) endsInner stops
          refine ⟨.unaryExpression op e.node, op :: e.tokens, [], (List.append_nil _).symm, ?_,
            turns.same (binary_pending _ _ _ _)⟩
          unfold operand
          refine Accepts.look ?_
          rw [List.headD_cons, if_pos isUnary]
          refine Accepts.skip op ?_
          exact argument.last (Accepts.pure _)
  | binary op l r ihl ihr =>
      intro us n limit level d e' next canonical below deep room ends turns
      obtain ⟨m, found, le, left, right⟩ := canonical
      obtain ⟨-, isLevel, -⟩ := operator_level found
      obtain ⟨endsRight, stops⟩ := ends.right isLevel le
      have leftLevels : l.levels ≤ d := Nat.le_trans (Nat.le_max_left _ _) deep
      have rightLevels : r.levels + 1 ≤ d := Nat.le_trans (Nat.le_max_right _ _) deep
      have leftOpen : l.levels ≤ (Tree.binary op l r).levels := Nat.le_max_left _ _
      have rightOpen : r.levels + 1 ≤ (Tree.binary op l r).levels := Nat.le_max_right _ _
      cases d with
      | zero => omega
      | succ d =>
          have operand := ihr.subexpr right (below_right isLevel) (show r.levels ≤ d by omega)
            (show level + r.levels < maxSyntaxLevels by omega) endsRight stops
          have turn := operator_turn l.node found (below m isLevel le) operand
          obtain ⟨head, first, rest, tokens, reads, rounds⟩ :=
            ihl (op :: r.tokens ++ us) left (below.left le) leftLevels
              (show level + l.levels ≤ maxSyntaxLevels by omega) (Ends.operator found) (Accepts.again turn turns)
          refine ⟨head, first, rest ++ op :: r.tokens, ?_, ?_, ?_⟩
          · show l.tokens ++ _ = _
            rw [tokens, List.append_assoc]
          · rwa [List.append_assoc]
          · rwa [List.append_assoc]
  | group openToken closeToken e ih =>
      intro us n limit level d e' next canonical below deep room ends turns
      obtain ⟨isOpen, isClose, inner⟩ := canonical
      obtain ⟨apart, other⟩ := paren_ends isClose
      have stops : ∀ m, operatorLevel closeToken = some m → leftPriority m ≤ 0 := by
        intro m found
        rw [(operator_level found).1] at other
        cases other
      have levels : e.levels + 1 ≤ d := deep
      have open_ : level + (e.levels + 1) ≤ maxSyntaxLevels := room
      cases d with
      | zero => omega
      | succ d =>
          have inside := ih.subexpr inner below_bottom (show e.levels ≤ d by omega)
            (show level + e.levels < maxSyntaxLevels by omega) (Ends.other apart other) stops
          refine ⟨.groupedExpression openToken e.node closeToken, openToken :: (e.tokens ++ [closeToken]), [],
            (List.append_nil _).symm, ?_, turns.same (binary_pending _ _ _ _)⟩
          have notUnary : isUnaryOperator openToken = false := by
            obtain ⟨id, char⟩ := isChar_iff.mp isOpen
            unfold isUnaryOperator
            rw [id, char]
            rfl
          refine Accepts.look ?_
          rw [List.headD_cons, notUnary]
          exact group_accepts isOpen isClose ends.apart inside

theorem Tree.Canonical.complete {t : Tree s} {n : Nat} (canonical : t.Canonical n) : ∀ token ∈ t.tokens, token.id ≠ .eof := by
  induction t generalizing n with
  | primary e => exact e.complete
  | unary op e ih =>
      obtain ⟨-, isUnary, inner⟩ := canonical
      rintro token (_ | ⟨_, member⟩)
      · intro eof
        unfold isUnaryOperator at isUnary
        rw [eof] at isUnary
        cases isUnary
      · exact ih inner token member
  | binary op l r ihl ihr =>
      obtain ⟨m, found, -, left, right⟩ := canonical
      intro token member
      rcases List.mem_append.mp member with member | member
      · exact ihl left token member
      rcases List.mem_cons.mp member with rfl | member
      · intro eof
        unfold operatorLevel at found
        rw [eof] at found
        cases found
      · exact ihr right token member
  | group openToken closeToken e ih =>
      obtain ⟨isOpen, isClose, inner⟩ := canonical
      rintro token (_ | ⟨_, member⟩)
      · rw [(isChar_iff.mp isOpen).1]
        decide
      rcases List.mem_append.mp member with member | member
      · exact ih inner token member
      · rw [List.mem_singleton.mp member, (isChar_iff.mp isClose).1]
        decide

/-! ## The pending operator -/

def Treated (e : SubExpr) (p : Parser) : Prop := e.untreatedOperator = pending p.token

theorem binary_treated {c : Calls} (treated : ∀ limit p, Sat (fun _ => True) (c.subexpr limit) p Treated)
    (limit : Nat) (e : SubExpr) (p : Parser) (h : e.untreatedOperator = some p.token ∨ Treated e p) :
    Sat (fun _ => True) (binary c limit e) p
      (Turn.Holds (fun e p => e.untreatedOperator = some p.token ∨ Treated e p) Treated) := by
  have same : binary c limit e = binary c limit ⟨e.node, pending p.token⟩ := by
    rcases e with ⟨node, _⟩
    rcases h with rfl | rfl
    · exact binary_pending c limit node p.token
    · rfl
  rw [same]
  unfold pending
  split
  · rename_i isBinary
    show Sat _ (if isBinaryOperator p.token then _ else _) _ _
    rw [if_pos isBinary]
    show Sat _ (if (getBinaryPriority p.token).left ≤ limit then _ else _) _ _
    split
    · exact Sat.pure (if_pos isBinary).symm
    · refine Sat.last fun _ q => ?_
      exact Sat.bind ((treated _ q).mono fun _ _ after => Sat.pure (.inr after))
  · rename_i other
    exact Sat.pure (if_neg other).symm

theorem subexpr_treated (d limit : Nat) (p : Parser) :
    Sat (fun _ => True) ((calls d).subexpr limit) p Treated := by
  induction d generalizing limit p with
  | zero => exact Sat.throw trivial
  | succ d ih =>
      refine Sat.last fun _ p => ?_
      refine Sat.last fun node p => ?_
      refine Sat.bind (Sat.bind (Sat.get (Sat.pure ?_)))
      refine Sat.bind ((Sat.loop trivial (binary_treated ih limit) (.inl rfl)).mono ?_)
      intro e p treated
      refine Sat.bind (Sat.bind (Sat.get ?_))
      split
      · exact Sat.throw trivial
      · exact Sat.set treated

/-! ## Expressions -/

-- the tokens of the tree come next, and then one that ends an expression
structure Upcoming (t : Tree s) (d : Nat) (i i' : Input) : Prop where
  canonical : t.Canonical 1
  shallow : s.syntaxLevel + t.levels < maxSyntaxLevels
  unfolded : maxSyntaxLevels ≤ s.syntaxLevel + d
  started : Started i.lexer
  reads : Reads i t.tokens i'
  notBinary : isBinaryOperator i'.token = false
  apart : continues i'.token = false

theorem Upcoming.parses {t : Tree s} {d : Nat} {i i' : Input} (upcoming : Upcoming t d i i') :
    expr (calls d) ⟨i, s⟩ = .ok (t.node, ⟨i', s⟩) := by
  obtain ⟨canonical, room, unfolded, started, reads, notBinary, apart⟩ := upcoming
  have stops : ∀ m, operatorLevel i'.token = some m → leftPriority m ≤ 0 := by
    intro m found
    rw [(operator_level found).1] at notBinary
    cases notBinary
  obtain ⟨d, rfl⟩ : ∃ d', d = d' + 1 := Nat.exists_eq_add_one.mpr (by omega)
  have accepts := (climbs t).subexpr canonical below_bottom (show t.levels ≤ d by omega) room
    (Ends.other apart notBinary) stops
  have whole : Accepts (expr (calls (d + 1))) s s t.tokens t.node i'.token := by
    refine accepts.last ?_
    exact Accepts.pure t.node
  exact whole i i' reads rfl (reads.room started canonical.complete)

theorem expr_precedence :
    (∀ {s : Status} (t : Tree s) (d : Nat) (i i' : Input), Upcoming t d i i' →
      expr (calls d) ⟨i, s⟩ = .ok (t.node, ⟨i', s⟩)) ∧
    (∀ {s : Status} (t u : Tree s) (d : Nat) (i i' j' : Input), Upcoming t d i i' → Upcoming u d i j' →
      t.node = u.node ∧ i' = j') ∧
    ∀ (d limit : Nat) (p q : Parser) (e : SubExpr), (calls d).subexpr limit p = .ok (e, q) →
      e.untreatedOperator = if isBinaryOperator q.token then some q.token else none := by
  refine ⟨fun t d i i' upcoming => upcoming.parses, ?_, ?_⟩
  · intro s t u d i i' j' first second
    have same := first.parses.symm.trans second.parses
    injection same with same
    injection same with node parser
    injection parser with input
    exact ⟨node, input⟩
  · intro d limit p q e run
    have treated := subexpr_treated d limit p
    unfold Sat at treated
    rw [run] at treated
    exact treated

theorem expr_precedence_sum :
    let char := fun (c : Char) (start : Nat) => Token.mk .singleChar start (start + 1) 1 (some (ch c))
    let word := fun (id : Token.Id) (start : Nat) => Token.mk id start (start + 1) 1 none
    let lexer := fun (index : Nat) => { Lexer.init (bytes "-a^2+b") [] with index }
    expr (calls maxSyntaxLevels) { lexer := lexer 1, token := char '-' 0 } =
      .ok (.binaryExpression (char '+' 4)
          (.unaryExpression (char '-' 0)
            (.binaryExpression (char '^' 2) (.identifier (word .name 1)) (.literal (word .number 3))))
          (.identifier (word .name 5)),
        { lexer := lexer 6, token := ⟨.eof, 6, 6, 1, none⟩ }) := by
  intro char word lexer
  obtain ⟨lexed₀, lexed₁, lexed₂, lexed₃, lexed₄, lexed₅, lexed₆⟩ :
      (lexer 0).next = .token (lexer 1) (char '-' 0) ∧
        (lexer 1).next = .token (lexer 2) (word .name 1) ∧
        (lexer 2).next = .token (lexer 3) (char '^' 2) ∧
        (lexer 3).next = .token (lexer 4) (word .number 3) ∧
        (lexer 4).next = .token (lexer 5) (char '+' 4) ∧
        (lexer 5).next = .token (lexer 6) (word .name 5) ∧
        (lexer 6).next = .token (lexer 6) ⟨.eof, 6, 6, 1, none⟩ := by decide +kernel
  refine expr_precedence.1
    (.binary (char '+' 4)
      (.unary (char '-' 0) (.binary (char '^' 2) (.primary (.name (word .name 1) rfl))
        (.primary (.literal (word .number 3) rfl fun _ => rfl))))
      (.primary (.name (word .name 5) rfl)))
    maxSyntaxLevels ⟨lexer 1, char '-' 0⟩ ⟨lexer 6, ⟨.eof, 6, 6, 1, none⟩⟩ ?_
  exact
    { canonical := ⟨5, rfl, by decide, ⟨by decide, rfl, 8, rfl, by decide, trivial, trivial⟩, trivial⟩
      shallow := by decide
      unfolded := by decide
      started := ⟨bytes "-a^2+b", [], .next .init lexed₀⟩
      reads := .cons lexed₁ (.cons lexed₂ (.cons lexed₃ (.cons lexed₄ (.cons lexed₅ (.cons lexed₆ (.nil _))))))
      notBinary := rfl
      apart := rfl }

end Zua.Parse
