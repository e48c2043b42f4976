import Zua.Lex.Tiling
import Zua.Parse.Tracks

/-!
# The last token of a callee

Before it calls something in parentheses, `funcargs` asks for the last token of the callee, which is put together
from the tree again. It is the token in front of the parenthesis, for every chain of suffixes.
-/

namespace Zua.Parse
open Zua.Lex Syntax

-- the expression was read behind `start`, and the token in front of `i` is its last one
def LastRead (start : Input) (node : Node) (i : Input) : Prop :=
  ∃ ts last, Reads start (ts ++ [last]) i ∧ node.getLastToken = some last

theorem LastRead.follows {start i : Input} {node : Node} : LastRead start node i → Follows start i := by
  rintro ⟨ts, last, reads, -⟩
  exact ⟨ts ++ [last], reads⟩

theorem LastRead.behind {start i j : Input} {node : Node} {last : Token} (follows : Follows start i)
    (reads : Reads i [last] j) (same : node.getLastToken = some last) : LastRead start node j := by
  obtain ⟨ts, before⟩ := follows
  exact ⟨ts, last, before.append reads, same⟩

theorem LastRead.earlier {start i j : Input} {node : Node} (follows : Follows start i) :
    LastRead i node j → LastRead start node j := by
  rintro ⟨ts, last, reads, same⟩
  obtain ⟨us, before⟩ := follows
  exact ⟨us ++ ts, last, by rw [List.append_assoc]; exact before.append reads, same⟩

/-! ## What is read last -/

section

variable {α : Type} {p : Parser}

-- whatever the error, what is returned has the property
abbrev Returns (x : ParseM α) (p : Parser) (Q : α → Parser → Prop) : Prop := Sat (fun _ => True) x p Q

theorem Tracks.returns {x : ParseM α} (tracks : Tracks x) (p : Parser) :
    Returns x p fun _ q => Follows p.toInput q.toInput := (tracks p).stops fun _ _ => trivial

theorem Returns.current {β : Type} {f : Token → ParseM β} {Q : β → Parser → Prop} (rest : Returns (f p.token) p Q) :
    Returns (Parse.current >>= f) p Q := Sat.bind (Sat.bind (Sat.get (Sat.pure rest)))

theorem Returns.report {err : ParseError} {expected expectedMatch : Option Token} {Q : α → Parser → Prop} :
    Returns (reportParseErrorExpectedToMatch err expected expectedMatch) p Q := .current (Sat.throw trivial)

theorem nextToken_reads (p : Parser) : Returns nextToken p fun _ q => Reads p.toInput [p.token] q.toInput := by
  refine Sat.bind (Sat.get ?_)
  split
  · rename_i lexer token lexed
    exact Sat.set (.cons lexed (.nil _))
  · exact Sat.throw trivial
  · exact Sat.throw trivial

theorem testIf_reads (test : Token → Bool) (p : Parser) : Returns (testIf test) p fun found q =>
    if found then Reads p.toInput [p.token] q.toInput else q = p := by
  refine .current ?_
  split
  · refine Sat.bind ((nextToken_reads p).mono ?_)
    intro _ q reads
    exact Sat.pure reads
  · exact Sat.pure rfl

theorem check_returns (id : Token.Id) (p : Parser) : Returns (check id) p fun _ q => q = p := by
  refine .current ?_
  split
  · exact Sat.pure rfl
  · exact .report

theorem checkname_reads (p : Parser) : Returns checkname p fun field q => Reads p.toInput [field] q.toInput := by
  refine .current (Sat.bind (Sat.bind ((check_returns .name p).mono ?_)))
  rintro _ q rfl
  refine (nextToken_reads q).mono ?_
  intro _ r reads
  exact Sat.pure reads

theorem checkcharnext_reads (char : UInt8) (p : Parser) :
    Returns (checkcharnext char) p fun _ q => Reads p.toInput [p.token] q.toInput := by
  refine Sat.bind (Returns.current ?_)
  split
  · exact Sat.pure (nextToken_reads p)
  · exact Returns.report

theorem checkcharMatch_reads (char : UInt8) (toClose : Token) (p : Parser) :
    Returns (checkcharMatch char toClose) p fun _ q => Reads p.toInput [p.token] q.toInput := by
  refine Sat.bind ((testIf_reads _ p).mono ?_)
  rintro (_ | _) q found
  · exact Returns.current Returns.report
  · exact Sat.pure found

-- the current token is kept in mind and then skipped
theorem closing_reads {x : ParseM Unit} {f : Token → α} {Q : α → Parser → Prop} (p : Parser)
    (reads : Returns x p fun _ q => Reads p.toInput [p.token] q.toInput)
    (holds : ∀ q, Reads p.toInput [p.token] q.toInput → Q (f p.token) q) :
    Returns (do
      let token ← current
      x
      return f token) p Q := by
  refine .current (Sat.bind (reads.mono ?_))
  intro _ q reads
  exact Sat.pure (holds q reads)

end

section

variable {c : Calls} (calls : CallsTrack c) (p : Parser)

include calls

theorem constructor_lastRead : Returns (constructor c) p fun node q => LastRead p.toInput node q.toInput := by
  refine .current (Sat.bind (((checkcharnext_tracks _).returns p).mono ?_))
  intro _ q opened
  refine Sat.bind (((fields_tracks calls).returns q).mono ?_)
  intro fields r inside
  refine closing_reads r (checkcharMatch_reads _ _ r) fun s reads => ?_
  exact .behind (opened.trans inside) reads rfl

theorem funcargs_lastRead (expression : Node) :
    Returns (funcargs c expression) p fun node q => LastRead p.toInput node q.toInput := by
  refine .current ?_
  split
  · split
    · exact Sat.throw trivial
    split
    · exact .report
    · refine Sat.bind ((nextToken_tracks.returns p).mono ?_)
      intro _ q opened
      refine Sat.bind (((arguments_tracks calls).returns q).mono ?_)
      intro list r inside
      refine closing_reads r (checkcharMatch_reads _ _ r) fun s reads => ?_
      exact .behind (opened.trans inside) reads rfl
  split
  · refine Sat.bind ((constructor_lastRead calls p).mono ?_)
    intro node q ends
    exact Sat.pure ends
  split
  · refine Sat.bind ((nextToken_reads p).mono ?_)
    intro _ q reads
    exact Sat.pure (.behind (.refl _) reads rfl)
  · exact .report

theorem prefixexp_lastRead : Returns (prefixexp c) p fun e q => LastRead p.toInput e.node q.toInput := by
  refine .current ?_
  split
  · refine Sat.bind ((nextToken_reads p).mono ?_)
    intro _ q reads
    exact Sat.pure (.behind (.refl _) reads rfl)
  split
  · refine Sat.bind ((nextToken_tracks.returns p).mono ?_)
    intro _ q opened
    refine Sat.bind (((expr_tracks calls).returns q).mono ?_)
    intro e r inside
    refine closing_reads r (checkcharMatch_reads _ _ r) fun s reads => ?_
    exact .behind (opened.trans inside) reads rfl
  · exact .report

-- whatever stands in front of it, a suffix ends with its own last token
theorem suffix_lastRead (e : PossibleLValueExpression) :
    Returns (suffix c e) p fun t q => ∀ e', t = .again e' → LastRead p.toInput e'.node q.toInput := by
  have called {node : Node} {q : Parser} (follows : Follows p.toInput q.toInput) :
      Returns (do
        let node ← funcargs c node
        return (Turn.again { node, canBeAssignedTo := false } : Turn PossibleLValueExpression PossibleLValueExpression))
        q fun t r => ∀ e', t = .again e' → LastRead p.toInput e'.node r.toInput := by
    refine Sat.bind ((funcargs_lastRead calls q node).mono ?_)
    intro node r ends
    refine Sat.pure ?_
    rintro e' ⟨⟩
    exact ends.earlier follows
  refine .current ?_
  split
  · refine Sat.bind ((nextToken_tracks.returns p).mono ?_)
    intro _ q follows
    refine Sat.bind ((checkname_reads q).mono ?_)
    intro field r reads
    refine Sat.pure ?_
    rintro e' ⟨⟩
    exact .behind follows reads rfl
  split
  · refine Sat.bind ((nextToken_tracks.returns p).mono ?_)
    intro _ q opened
    refine Sat.bind (((expr_tracks calls).returns q).mono ?_)
    intro index r inside
    refine closing_reads r (checkcharnext_reads _ r) fun s reads => ?_
    rintro e' ⟨⟩
    exact .behind (opened.trans inside) reads rfl
  split
  · refine Sat.bind ((nextToken_tracks.returns p).mono ?_)
    intro _ q colon
    refine Sat.bind ((checkname_tracks.returns q).mono ?_)
    intro field r named
    exact called (colon.trans named)
  split
  · exact called (.refl _)
  · refine Sat.pure ?_
    rintro e' ⟨⟩

end

/-! ## The calls of `funcargs` -/

-- the heads of the loop of a `primaryexp` that starts in `p`
inductive Head (c : Calls) (p : Parser) : PossibleLValueExpression → Parser → Prop
  | first {e : PossibleLValueExpression} {q : Parser} : prefixexp c p = .ok (e, q) → Head c p e q
  | next {e e' : PossibleLValueExpression} {q q' : Parser} : Head c p e q → suffix c e q = .ok (.again e', q') →
      Head c p e' q'

-- the callees and the states with which it enters `funcargs`, at a suffix of its own or behind a method's name
inductive Enters (c : Calls) (p : Parser) : Node → Parser → Prop
  | call {e : PossibleLValueExpression} {q : Parser} : Head c p e q →
      (q.token.isChar (ch '(') || q.token.isChar (ch '{') || q.token.id == .string) = true → Enters c p e.node q
  | method {e : PossibleLValueExpression} {q q' r : Parser} {field : Token} : Head c p e q →
      q.token.isChar (ch ':') = true → nextToken q = .ok ((), q') → checkname q' = .ok (field, r) →
      Enters c p (.fieldAccess e.node field q.token) r

section

variable {c : Calls} {p r : Parser}

theorem Returns.of_ok {α : Type} {x : ParseM α} {Q : α → Parser → Prop} {a : α} {q : Parser} (returns : Returns x p Q)
    (run : x p = .ok (a, q)) : Q a q := by
  unfold Returns Sat at returns
  rwa [run] at returns

theorem Head.lastRead (calls : CallsTrack c) {e : PossibleLValueExpression} {q : Parser} (head : Head c p e q) :
    LastRead p.toInput e.node q.toInput := by
  induction head with
  | first run => exact (prefixexp_lastRead calls p).of_ok run
  | next _ run ih => exact ((suffix_lastRead calls _ _).of_ok run _ rfl).earlier ih.follows

theorem Enters.lastRead (calls : CallsTrack c) {callee : Node} (entered : Enters c p callee r) :
    LastRead p.toInput callee r.toInput := by
  cases entered with
  | call head _ => exact head.lastRead calls
  | method head _ colon named =>
      have skipped := (nextToken_tracks.returns _).of_ok colon
      exact .behind ((head.lastRead calls).follows.trans skipped) ((checkname_reads _).of_ok named) rfl

end

/-! ## Positions -/

section

variable {l l' : Lexer} {t : Token} {i j : Input}

-- behind the end of the buffer there is only the end
theorem next_inside (lexed : l.next = .token l' t) (some : t.id ≠ .eof) : l.index ≤ l.buffer.length := by
  unfold Lexer.next Lexer.loop at lexed
  split at lexed
  · unfold Lexer.atEnd at lexed
    split at lexed
    · cases lexed
    · simp only [Flow.outcome, Lexer.finalize, if_neg (show ¬(Token.Id.eof = Token.Id.singleChar) by decide)] at lexed
      cases lexed
      exact (some rfl).elim
  · rename_i here
    exact (List.getElem?_eq_some_iff.mp here).1.le

theorem next_tiles (lexed : l.next = .token l' t) (some : t.id ≠ .eof) : Tiles l.index l' t := by
  have tiles := next_tiled l (next_inside lexed some)
  rwa [lexed] at tiles

theorem Reads.lexed {ts : List Token} (reads : Reads i (ts ++ [t]) j) : ∃ l : Lexer, l.next = .token j.lexer j.token := by
  obtain ⟨k, -, last⟩ := reads.split
  cases last with
  | cons lexed rest =>
      cases rest
      exact ⟨_, lexed⟩

theorem Reads.later {ts : List Token} (reads : Reads i ts j) (lexed : l.next = .token i.lexer i.token)
    (some : j.token.id ≠ .eof) : l.index ≤ j.token.start := by
  induction reads generalizing l with
  | nil _ => exact (next_tiles lexed some).start
  | cons lexed' _ ih =>
      obtain ⟨index, lineNumber, same, forward⟩ := Lexer.loop_forward lexed
      have onward := ih lexed' some
      rw [same] at onward
      exact forward.trans onward

-- a token is not read a second time
theorem Reads.apart {ts : List Token} (lexed : l.next = .token i.lexer i.token) (some : i.token.id ≠ .eof)
    (reads : Reads i ts j) (behind : ts ≠ []) : j.token ≠ i.token := by
  intro same
  cases reads with
  | nil _ => exact behind rfl
  | cons lexed' rest =>
      have tiles := next_tiles lexed some
      have late := rest.later lexed' (same ▸ some)
      have nonempty := tiles.some some
      rw [same, ← tiles.index] at late
      omega

end

/-! ## Ambiguous calls -/

def ambiguous (token : Token) : Stop := .parse ⟨token, none, none, .ambiguousSyntax⟩

-- the call behind the check of the lines
def called (c : Calls) (callee : Node) (token : Token) : ParseM Node := do
  nextToken
  let arguments ← arguments c
  let closeArgs ← current
  checkcharMatch (ch ')') token
  return .call callee arguments (some token) (some closeArgs) false

section

variable {c : Calls} {p r : Parser} {callee : Node} {last : Token}

theorem funcargs_open (isOpen : r.token.isChar (ch '(') = true) (found : callee.getLastToken = some last) :
    funcargs c callee r = if last.lineNumber ≠ r.token.lineNumber then .error (ambiguous r.token)
      else called c callee r.token r := by
  have start : current r = .ok (r.token, r) := rfl
  rw [funcargs, bind_runs start, if_pos isOpen, found]
  simp only
  split
  · rfl
  · rfl

-- behind the parenthesis, no error is found at it
theorem called_elsewhere (calls : CallsTrack c) {l : Lexer} (lexed : l.next = .token r.lexer r.token)
    (isOpen : r.token.isChar (ch '(') = true) : called c callee r.token r ≠ .error (ambiguous r.token) := by
  intro failed
  have more : r.token.id ≠ .eof := by
    intro eof
    rw [Token.isChar, eof] at isOpen
    cases isOpen
  have inner : Sat (fun e => e ≠ ambiguous r.token) (called c callee r.token) r fun _ _ => True := by
    refine Sat.bind (Sat.bind (Sat.get ?_))
    split
    · rename_i lexer token lexed'
      have skipped : Reads r.toInput [r.token] ⟨lexer, token⟩ := .cons lexed' (.nil _)
      refine Sat.set ?_
      have rest : Tracks (do
          let arguments ← arguments c
          let closeArgs ← current
          checkcharMatch (ch ')') r.token
          return Node.call callee arguments (some r.token) (some closeArgs) false) := by
        refine (arguments_tracks calls).bind fun list => .current fun closeArgs => ?_
        exact (checkcharMatch_tracks _ _).bind fun _ => .pure _
      refine ((rest _).stops ?_).mono fun _ _ _ => trivial
      rintro e found rfl
      obtain ⟨i, ⟨ts, reads⟩, same⟩ := found
      exact Reads.apart lexed more (skipped.append reads) (by simp) same.symm
    · exact Sat.throw (by rintro ⟨⟩)
    · exact Sat.throw (by rintro ⟨⟩)
  unfold Sat at inner
  rw [failed] at inner
  exact inner rfl

-- the tokens are counted from any point of the stream that lies in front of the primary expression
theorem getLastToken_precedes {n : Nat} {start : Input} (before : Follows start p.toInput)
    (entered : Enters (calls n) p callee r) (isOpen : r.token.isChar (ch '(') = true) :
    ∃ ts last, Reads start (ts ++ [last]) r.toInput ∧ callee.getLastToken = some last ∧
      (funcargs (calls n) callee r = .error (ambiguous r.token) ↔ last.lineNumber ≠ r.token.lineNumber) := by
  obtain ⟨ts, last, reads, found⟩ := (entered.lastRead (calls_track n)).earlier before
  refine ⟨ts, last, reads, found, ?_⟩
  rw [funcargs_open isOpen found]
  constructor
  · intro reported same
    rw [if_neg (not_not_intro same)] at reported
    obtain ⟨l, lexed⟩ := reads.lexed
    exact called_elsewhere (calls_track n) lexed isOpen reported
  · intro different
    rw [if_pos different]

end

-- the name of the call `f\n()` has been read
def nameRead : Parser where
  lexer := { Lexer.init (bytes "f\n()") [] with index := 1 }
  token := ⟨.name, 0, 1, 1, none⟩

def openRead : Parser where
  lexer := { Lexer.init (bytes "f\n()") [] with index := 3, lineNumber := 2 }
  token := ⟨.singleChar, 2, 3, 2, some (ch '(')⟩

theorem getLastToken_precedes_name : ∃ ts last, Reads nameRead.toInput (ts ++ [last]) openRead.toInput ∧
    (Node.identifier nameRead.token).getLastToken = some last ∧
      (funcargs (calls 1) (.identifier nameRead.token) openRead = .error (ambiguous openRead.token) ↔
        last.lineNumber ≠ openRead.token.lineNumber) := by
  have lexed : nameRead.lexer.next = .token openRead.lexer openRead.token := by decide +kernel
  have skipped : nextToken nameRead = .ok ((), openRead) := nextToken_run lexed
  have start : current nameRead = .ok (nameRead.token, nameRead) := rfl
  have first : prefixexp (calls 1) nameRead = .ok ({ node := .identifier nameRead.token }, openRead) := by
    rw [prefixexp, bind_runs start, if_pos (show nameRead.token.id = .name from rfl), bind_runs skipped]
    rfl
  exact getLastToken_precedes (.refl _) (.call (.first first) rfl) rfl

end Zua.Parse
