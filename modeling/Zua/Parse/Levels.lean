import Zua.Parse.Balance

/-!
# Balanced levels

The parser against two others: one that looks at the status around each of its calls, and one that stops at the
level after the last.
-/

namespace Zua.Parse
open Zua.Lex Syntax

/-! ## Other parsers -/

def chunkWith (c : Calls) : ParseM Node := do
  let body ← c.block
  check .eof
  return .chunk body

def parseWith (c : Calls) (lexer : Lexer) : Except Stop Node :=
  match lexer.next with
  | .token lexer token => (chunkWith c { lexer, token }).map (·.1)
  | .error lexer err => .error (.lex lexer err)
  | .trap => .error .panic

theorem parse_calls (lexer : Lexer) : parse lexer = parseWith (calls (maxSyntaxLevels + 1)) lexer := rfl

-- the calls of a parser in which `n` functions can be open at a time that enter a level, and which stops at the next
def limited (stop : Stop) : Nat → Calls
  | 0 => ⟨fun _ => throw stop, throw stop⟩
  | n + 1 => ⟨subexpr (limited stop n), block (limited stop n)⟩

deriving instance DecidableEq for Status

-- panics where `level` functions are open but the level is another, where the level that comes next is above 201,
-- and where the status has changed
def watch {α : Type} (level : Nat) (x : ParseM α) : ParseM α := do
  let p ← get
  if p.syntaxLevel = level ∧ p.syntaxLevel + 1 ≤ 201 then
    let a ← x
    let q ← get
    if q.toStatus = p.toStatus then return a else throw .panic
  else throw .panic

def watched : Nat → Calls
  | 0 => calls 0
  | n + 1 => ⟨fun limit => watch (maxSyntaxLevels - n) (subexpr (watched n) limit),
      watch (maxSyntaxLevels - n) (block (watched n))⟩

/-! ## Agreement -/

section

variable {ok : Stop → Stop → Prop} {c c' : Calls} {level : Nat} {p : Parser}

theorem agreeing_enter (plain : ∀ e, e.Plain → ok e e) (room : level < maxSyntaxLevels)
    (agree : Agreeing ok (level + 1) c c') : Agreeing ok level ⟨subexpr c, block c⟩ ⟨subexpr c', block c'⟩ :=
  ⟨fun limit _ here => subexpr_pair plain agree rfl room limit here, block_pair plain agree rfl room⟩

-- what is reported for a level too many
def tooMany (token : Token) : Stop := .parse ⟨token, none, none, .tooManySyntaxLevels⟩

theorem enterlevel_full (full : p.syntaxLevel = maxSyntaxLevels) : enterlevel p = .error (tooMany p.token) := by
  have exceeded : maxSyntaxLevels < p.syntaxLevel + 1 := by omega
  unfold enterlevel
  rw [bind_runs (t := { p with syntaxLevel := p.syntaxLevel + 1 }) rfl, bind_runs rfl, if_pos exceeded]
  rfl

theorem subexpr_full (full : p.syntaxLevel = maxSyntaxLevels) (limit : Nat) :
    subexpr c limit p = .error (tooMany p.token) := bind_throws (enterlevel_full full)

theorem block_full (full : p.syntaxLevel = maxSyntaxLevels) : block c p = .error (tooMany p.token) :=
  bind_throws (enterlevel_full full)

theorem watch_pair {α : Type} {Q : α → Parser → Prop} {x y : ParseM α} (room : level ≤ maxSyntaxLevels)
    (here : At level p) (h : Pair ok x y p Q) : Pair ok x (watch level y) p Q := by
  have watching : watch level y p = (y p).bind fun r =>
      (if r.2.toStatus = p.toStatus then return r.1 else throw .panic : ParseM α) r.2 := by
    unfold watch
    rw [bind_runs rfl, if_pos ⟨here.level, by rw [here.level]; exact Nat.succ_le_succ room⟩]
    rfl
  unfold Pair Both at h ⊢
  rw [watching]
  cases run : x p with
  | ok r =>
      simp only [run] at h ⊢
      obtain ⟨same, kept, post⟩ := h
      refine ⟨?_, kept, post⟩
      rw [same]
      exact congrFun (if_pos kept.status) r.2
  | error e =>
      simp only [run] at h ⊢
      obtain ⟨e', same, related⟩ := h
      exact ⟨e', by rw [same]; rfl, related⟩

theorem agreeing_watch (room : level ≤ maxSyntaxLevels) (agree : Agreeing ok level c c') :
    Agreeing ok level c ⟨fun limit => watch level (c'.subexpr limit), watch level c'.block⟩ :=
  ⟨fun limit p here => watch_pair room here (agree.subexpr limit p here),
    fun p here => watch_pair room here (agree.block p here)⟩

theorem chunkWith_steady (plain : ∀ e, e.Plain → ok e e) (agree : Agreeing ok level c c') :
    Steady ok level (chunkWith c) (chunkWith c') := by
  refine agree.block.bind fun body p here => ?_
  exact Pair.bind (check_pair plain .eof here) fun _ q kept _ => Pair.pure kept.valid trivial

theorem parseWith_alike (plain : ∀ e, e.Plain → ok e e) (agree : Agreeing ok 0 c c') {lexer : Lexer}
    (inside : lexer.index ≤ lexer.buffer.length) :
    (∀ node, parseWith c lexer = .ok node → parseWith c' lexer = .ok node) ∧
      ∀ e, parseWith c lexer = .error e → ∃ e', parseWith c' lexer = .error e' ∧ ok e e' := by
  unfold parseWith
  split
  · rename_i lexer' token lexed
    have same := chunkWith_steady plain agree { lexer := lexer', token } ⟨lexed_valid inside lexed, rfl⟩
    unfold Pair Both at same
    cases run : chunkWith c { lexer := lexer', token } with
    | ok r =>
        simp only [run] at same
        rw [same.1]
        refine ⟨fun node h => h, ?_⟩
        rintro e ⟨⟩
    | error e =>
        simp only [run] at same
        obtain ⟨e', same, related⟩ := same
        rw [same]
        refine ⟨by rintro node ⟨⟩, ?_⟩
        rintro _ ⟨⟩
        exact ⟨e', rfl, related⟩
  · rename_i lexer' err _
    refine ⟨by rintro node ⟨⟩, ?_⟩
    rintro _ ⟨⟩
    exact ⟨_, rfl, plain (.lex lexer' err) trivial⟩
  · rename_i trap
    exact (next_returns inside trap).elim

end

/-! ## Nothing is seen -/

-- what the code reports
def Same (e e' : Stop) : Prop := e = e' ∧ e ≠ .panic ∧ e ≠ .timeout

theorem Same.plain (e : Stop) (h : e.Plain) : Same e e := by
  refine ⟨rfl, ?_, ?_⟩
  · rintro rfl
    exact h
  · rintro rfl
    exact h

theorem Same.tooMany (token : Token) : Same (Parse.tooMany token) (Parse.tooMany token) :=
  ⟨rfl, Stop.noConfusion, Stop.noConfusion⟩

theorem watched_succ {n level : Nat} (rest : level + n = maxSyntaxLevels) : watched (n + 1) =
    ⟨fun limit => watch level (subexpr (watched n) limit), watch level (block (watched n))⟩ := by
  obtain rfl : maxSyntaxLevels - n = level := by omega
  rfl

theorem watched_agrees {n level : Nat} (rest : level + n = maxSyntaxLevels) :
    Agreeing Same level (calls (n + 1)) (watched (n + 1)) := by
  rw [watched_succ rest]
  induction n generalizing level with
  | zero =>
      obtain rfl : level = maxSyntaxLevels := rest
      have full : Agreeing Same maxSyntaxLevels (calls 1) ⟨subexpr (watched 0), block (watched 0)⟩ := by
        refine ⟨fun limit p here => ?_, fun p here => ?_⟩
        · exact Both.stops (subexpr_full here.level limit) (subexpr_full here.level limit) (.tooMany _)
        · exact Both.stops (block_full here.level) (block_full here.level) (.tooMany _)
      exact agreeing_watch le_rfl full
  | succ n ih =>
      have inner : level + 1 + n = maxSyntaxLevels := by omega
      have agree := ih inner
      rw [← watched_succ inner] at agree
      exact agreeing_watch (by omega) (agreeing_enter Same.plain (by omega) agree)

/-! ## The level after the last -/

def Exceeds (stop e e' : Stop) : Prop := (e.Plain ∧ e' = e) ∨ (∃ token, e = tooMany token) ∧ e' = stop

theorem limited_agrees (stop : Stop) {n level : Nat} (rest : level + n = maxSyntaxLevels) :
    Agreeing (Exceeds stop) level (calls (n + 1)) (limited stop n) := by
  induction n generalizing level with
  | zero =>
      obtain rfl : level = maxSyntaxLevels := rest
      refine ⟨fun limit p here => ?_, fun p here => ?_⟩
      · exact Both.stops (subexpr_full here.level limit) rfl (.inr ⟨⟨_, rfl⟩, rfl⟩)
      · exact Both.stops (block_full here.level) rfl (.inr ⟨⟨_, rfl⟩, rfl⟩)
  | succ n ih => exact agreeing_enter (fun e h => .inl ⟨h, rfl⟩) (by omega) (ih (by omega))

/-! ## The status -/

def Restores {α : Type} (level : Nat) (x : ParseM α) : Prop :=
  ∀ p, At level p → ∀ a q, x p = .ok (a, q) → q.toStatus = p.toStatus

theorem Steady.restores {α : Type} {ok : Stop → Stop → Prop} {level : Nat} {x y : ParseM α}
    (steady : Steady ok level x y) : Restores level x := by
  intro p here a q run
  have same := steady p here
  unfold Pair Both at same
  simp only [run] at same
  exact same.2.1.status

-- the functions that are called inside the level
structure Balanced (level : Nat) (c : Calls) : Prop where
  block : Restores level c.block
  subexpr : ∀ limit, Restores level (c.subexpr limit)
  expr : Restores level (expr c)
  funcbody : ∀ functionToken name isLocal, Restores level (funcbody c functionToken name isLocal)
  statement : Restores level (statement c)
  whilestat : Restores level (whilestat c)
  repeatstat : Restores level (repeatstat c)
  forstat : Restores level (forstat c)
  fornum : ∀ name, Restores level (fornum c name)
  forlist : ∀ name, Restores level (forlist c name)

theorem calls_balanced {n level : Nat} (rest : level + n = maxSyntaxLevels) : Balanced level (calls (n + 1)) := by
  have agree := watched_agrees rest
  exact {
    block := agree.block.restores
    subexpr := fun limit => (subexpr_steady agree limit).restores
    expr := (expr_steady agree).restores
    funcbody := fun functionToken name isLocal => (funcbody_steady Same.plain agree functionToken name isLocal).restores
    statement := (statement_skips Same.plain agree).steady.restores
    whilestat := (whilestat_skips Same.plain agree).steady.restores
    repeatstat := (repeatstat_skips Same.plain agree).steady.restores
    forstat := (forstat_skips Same.plain agree).steady.restores
    fornum := fun name => (fornum_steady Same.plain agree name).restores
    forlist := fun name => (forlist_steady Same.plain agree name).restores }

/-! ## The parser -/

theorem parse_watched {lexer : Lexer} (inside : lexer.index ≤ lexer.buffer.length) :
    parseWith (watched (maxSyntaxLevels + 1)) lexer = parse lexer ∧
      ∀ e, parse lexer = .error e → e ≠ .panic ∧ e ≠ .timeout := by
  have alike := parseWith_alike Same.plain (watched_agrees (Nat.zero_add maxSyntaxLevels)) inside
  rw [← parse_calls] at alike
  obtain ⟨accepted, stopped⟩ := alike
  refine ⟨?_, fun e run => ?_⟩
  · cases run : parse lexer with
    | ok node => exact accepted node run
    | error e =>
        obtain ⟨_, same, rfl, -⟩ := stopped e run
        exact same
  · obtain ⟨_, -, -, reported⟩ := stopped e run
    exact reported

def TooManyLevels (result : Except Stop Node) : Prop :=
  ∃ context, result = .error (.parse context) ∧ context.err = .tooManySyntaxLevels

theorem parse_limited {lexer : Lexer} (inside : lexer.index ≤ lexer.buffer.length) {stop : Stop}
    (other : ¬stop.Plain) :
    TooManyLevels (parse lexer) ↔ parseWith (limited stop maxSyntaxLevels) lexer = .error stop := by
  have alike := parseWith_alike (fun e h => .inl ⟨h, rfl⟩) (limited_agrees stop (Nat.zero_add maxSyntaxLevels)) inside
  rw [← parse_calls] at alike
  obtain ⟨accepted, stopped⟩ := alike
  constructor
  · rintro ⟨context, run, err⟩
    obtain ⟨e', limited, ⟨plain, -⟩ | ⟨-, rfl⟩⟩ := stopped _ run
    · exact (plain err).elim
    · exact limited
  · intro limited
    cases run : parse lexer with
    | ok node =>
        rw [accepted node run] at limited
        cases limited
    | error e =>
        obtain ⟨e', same, ⟨plain, rfl⟩ | ⟨⟨token, rfl⟩, -⟩⟩ := stopped e run
        · rw [same] at limited
          cases limited
          exact (other plain).elim
        · exact ⟨_, rfl, rfl⟩

theorem parse_balanced {lexer : Lexer} (inside : lexer.index ≤ lexer.buffer.length) :
    (∀ e, parse lexer = .error e → e ≠ .panic ∧ e ≠ .timeout) ∧
      parseWith (watched (maxSyntaxLevels + 1)) lexer = parse lexer ∧
      (∀ stop : Stop, ¬stop.Plain →
        (TooManyLevels (parse lexer) ↔ parseWith (limited stop maxSyntaxLevels) lexer = .error stop)) ∧
      ∀ n level, level + n = maxSyntaxLevels → Balanced level (calls (n + 1)) := by
  obtain ⟨same, reported⟩ := parse_watched inside
  exact ⟨reported, same, fun stop other => parse_limited inside other, fun n level rest => calls_balanced rest⟩

theorem parse_balanced_return :
    let lexer := Lexer.init (bytes "return {f(not 1)}") []
    (∀ e, parse lexer = .error e → e ≠ .panic ∧ e ≠ .timeout) ∧
      parseWith (watched (maxSyntaxLevels + 1)) lexer = parse lexer ∧
      (∀ stop : Stop, ¬stop.Plain →
        (TooManyLevels (parse lexer) ↔ parseWith (limited stop maxSyntaxLevels) lexer = .error stop)) ∧
      ∀ n level, level + n = maxSyntaxLevels → Balanced level (calls (n + 1)) :=
  parse_balanced (by decide)

end Zua.Parse
