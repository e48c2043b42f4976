import Zua.Parse.Statements

/-!
# Reading tokens

`Accepts f s ts a next` says that `f` reads the tokens `ts`, when `next` comes behind them, and returns `a`.
The rules put together what the parts of a function accept.
-/

namespace Zua.Parse
open Zua.Lex Syntax

variable {α β σ : Type} {i i' j : Input} {s s' s'' : Status} {ts us : List Token} {t next : Token} {a : α} {b : β}

inductive Reads : Input → List Token → Input → Prop
  | nil (i : Input) : Reads i [] i
  | cons {i i' : Input} {lexer : Lexer} {token : Token} {ts : List Token} : i.lexer.next = .token lexer token →
      Reads ⟨lexer, token⟩ ts i' → Reads i (i.token :: ts) i'

theorem Reads.token (reads : Reads i ts i') : i.token = ts.headD i'.token := by
  cases reads <;> rfl

theorem Reads.append (first : Reads i ts j) (rest : Reads j us i') : Reads i (ts ++ us) i' := by
  induction first with
  | nil _ => exact rest
  | cons lexed _ ih => exact .cons lexed (ih rest)

theorem Reads.split (reads : Reads i (ts ++ us) i') : ∃ j, Reads i ts j ∧ Reads j us i' := by
  induction ts generalizing i with
  | nil => exact ⟨i, .nil i, reads⟩
  | cons t ts ih =>
      cases reads with
      | cons lexed rest =>
          obtain ⟨j, first, last⟩ := ih rest
          exact ⟨j, .cons lexed first, last⟩

theorem Reads.unique (reads : Reads i ts i') (reads' : Reads i ts j) : i' = j := by
  induction reads with
  | nil _ =>
      cases reads'
      rfl
  | cons lexed _ ih =>
      cases reads' with
      | cons lexed' rest' =>
          rw [lexed] at lexed'
          cases lexed'
          exact ih rest'

theorem Reads.buffer (reads : Reads i ts i') : i'.lexer.buffer = i.lexer.buffer := by
  induction reads with
  | nil _ => rfl
  | cons lexed _ ih =>
      obtain ⟨index, lineNumber, same, -⟩ := Lexer.loop_forward lexed
      rw [ih, same]

theorem nextToken_run {lexer : Lexer} {token : Token} (lexed : i.lexer.next = .token lexer token) :
    nextToken ⟨i, s⟩ = .ok ((), ⟨⟨lexer, token⟩, s⟩) := by
  have run : Sat (fun _ => False) nextToken ⟨i, s⟩ fun _ p => p = ⟨⟨lexer, token⟩, s⟩ := by
    refine Sat.bind (Sat.get ?_)
    dsimp only
    rw [lexed]
    exact rfl
  unfold Sat at run
  split at run
  · rename_i result
    rw [result, run]
  · exact run.elim

/-! ## Accepting tokens -/

-- the loops may go round once for each token
def Room (i : Input) (ts : List Token) : Prop := ts.length ≤ i.lexer.buffer.length + 1

-- a lexer that goes through a buffer from its start
def Started (lexer : Lexer) : Prop := ∃ buffer chunkName, lexer.Reaches buffer chunkName

theorem Started.forward {lexer lexer' : Lexer} {token : Token} (started : Started lexer)
    (lexed : lexer.next = .token lexer' token) : Started lexer' := by
  obtain ⟨buffer, chunkName, reaches⟩ := started
  exact ⟨buffer, chunkName, reaches.next lexed⟩

theorem Started.bound {lexer : Lexer} (started : Started lexer) : lexer.index ≤ lexer.buffer.length := by
  obtain ⟨buffer, chunkName, reaches⟩ := started
  obtain ⟨index, lineNumber, rfl, bound⟩ := reaches.position
  exact bound

-- only the end of the buffer can be read again
theorem Reads.advance (reads : Reads i ts i') (started : Started i.lexer) (complete : ∀ t ∈ ts, t.id ≠ .eof) :
    Started i'.lexer ∧ i.lexer.index + ts.length ≤ i'.lexer.index + 1 := by
  induction reads with
  | nil i => exact ⟨started, Nat.le_succ _⟩
  | @cons i i' lexer token ts lexed rest ih =>
      obtain ⟨started', advance⟩ := ih (started.forward lexed) fun t member => complete t (List.mem_cons_of_mem _ member)
      refine ⟨started', ?_⟩
      rw [List.length_cons]
      cases ts with
      | nil =>
          cases rest
          obtain ⟨index, lineNumber, rfl, forward⟩ := Lexer.loop_forward lexed
          exact Nat.succ_le_succ forward
      | cons t ts =>
          have head : token = t := rest.token
          have progress := Lexer.next_progress lexed (complete token (by rw [head]; simp))
          dsimp only at advance
          omega

theorem Reads.room (reads : Reads i ts i') (started : Started i.lexer) (complete : ∀ t ∈ ts, t.id ≠ .eof) :
    Room i ts := by
  obtain ⟨started', advance⟩ := reads.advance started complete
  have bound := started'.bound
  rw [reads.buffer] at bound
  unfold Room
  omega

def Status.deeper (s : Status) : Status := { s with syntaxLevel := s.syntaxLevel + 1 }

def Accepts (f : ParseM α) (s s' : Status) (ts : List Token) (a : α) (next : Token) : Prop :=
  ∀ i i', Reads i ts i' → i'.token = next → Room i ts → f ⟨i, s⟩ = .ok (a, ⟨i', s'⟩)

namespace Accepts

variable {f : ParseM α} {g : α → ParseM β} {h : Unit → ParseM β} {char : UInt8} {id : Token.Id} {toClose : Token}

theorem pure (a : α) : Accepts (Pure.pure a) s s [] a next := by
  intro i i' reads _ _
  cases reads
  rfl

theorem bind (first : Accepts f s s' ts a (us.headD next)) (rest : Accepts (g a) s' s'' us b next) :
    Accepts (f >>= g) s s'' (ts ++ us) b next := by
  intro i i' reads upcoming room
  obtain ⟨j, reads₁, reads₂⟩ := reads.split
  have middle : j.token = us.headD next := by rw [reads₂.token, upcoming]
  unfold Room at room
  rw [List.length_append] at room
  have run : (f >>= g) ⟨i, s⟩ = (f ⟨i, s⟩).bind fun result => g result.1 result.2 := rfl
  rw [run, first i j reads₁ middle (show ts.length ≤ _ by omega)]
  refine rest j i' reads₂ upcoming ?_
  rw [Room, reads₁.buffer]
  omega

-- without tokens, before or after
theorem silently (first : Accepts f s s' [] a (ts.headD next)) (rest : Accepts (g a) s' s'' ts b next) :
    Accepts (f >>= g) s s'' ts b next := first.bind rest

theorem last (first : Accepts f s s' ts a next) (rest : Accepts (g a) s' s'' [] b next) :
    Accepts (f >>= g) s s'' ts b next := by
  have whole : Accepts (f >>= g) s s'' (ts ++ []) b next := first.bind rest
  rwa [List.append_nil] at whole

-- one token, and then the others
theorem cons (first : Accepts f s s' [t] a (ts.headD next)) (rest : Accepts (g a) s' s'' ts b next) :
    Accepts (f >>= g) s s'' (t :: ts) b next := first.bind rest

-- the current token is known
theorem look {g : Token → ParseM β} (rest : Accepts (g (ts.headD next)) s s' ts b next) :
    Accepts (current >>= g) s s' ts b next := by
  intro i i' reads upcoming room
  have head : i.token = ts.headD next := by rw [reads.token, upcoming]
  rw [← head] at rest
  exact rest i i' reads upcoming room

theorem state {g : Parser → ParseM β}
    (rest : ∀ i, i.token = ts.headD next → Accepts (g ⟨i, s⟩) s s' ts b next) :
    Accepts (get >>= g) s s' ts b next := by
  intro i i' reads upcoming room
  exact rest i (by rw [reads.token, upcoming]) i i' reads upcoming room

theorem nextToken (t : Token) : Accepts nextToken s s [t] () next := by
  intro i i' reads _ _
  cases reads with
  | cons lexed rest =>
      cases rest
      exact nextToken_run lexed

-- a token that is there is skipped, and then the rest is read
theorem skip (t : Token) (rest : Accepts (h ()) s s' ts b next) :
    Accepts (Parse.nextToken >>= h) s s' (t :: ts) b next := (nextToken t).bind rest

theorem testIf {test : Token → Bool} {g : Bool → ParseM β} (found : test t = true)
    (rest : Accepts (g true) s s' ts b next) : Accepts (Parse.testIf test >>= g) s s' (t :: ts) b next := by
  refine cons ?_ rest
  refine look ?_
  rw [List.headD_cons, if_pos found]
  exact skip t (pure true)

theorem testNot {test : Token → Bool} {g : Bool → ParseM β} (other : test (ts.headD next) = false)
    (rest : Accepts (g false) s s' ts b next) : Accepts (Parse.testIf test >>= g) s s' ts b next := by
  refine silently ?_ rest
  refine look ?_
  rw [List.headD_nil, other]
  exact pure false

theorem checkcharnext (found : t.isChar char = true) (rest : Accepts (h ()) s s' ts b next) :
    Accepts (Parse.checkcharnext char >>= h) s s' (t :: ts) b next := by
  refine cons ?_ rest
  refine silently (a := ()) ?_ (nextToken t)
  refine look ?_
  rw [List.headD_nil, List.headD_cons, if_pos found]
  exact pure ()

theorem checknext (found : t.id = id) (rest : Accepts (h ()) s s' ts b next) :
    Accepts (Parse.checknext id >>= h) s s' (t :: ts) b next := by
  refine cons ?_ rest
  refine silently (a := ()) ?_ (nextToken t)
  refine look ?_
  rw [List.headD_nil, List.headD_cons, if_pos found]
  exact pure ()

theorem checkname {g : Token → ParseM β} (found : t.id = .name) (rest : Accepts (g t) s s' ts b next) :
    Accepts (Parse.checkname >>= g) s s' (t :: ts) b next := by
  refine cons ?_ rest
  refine look ?_
  exact checknext found (pure t)

theorem checkcharMatch (found : t.isChar char = true) (rest : Accepts (h ()) s s' ts b next) :
    Accepts (Parse.checkcharMatch char toClose >>= h) s s' (t :: ts) b next :=
  cons (testIf found (pure ())) rest

theorem checkMatch (found : t.id = id) (rest : Accepts (h ()) s s' ts b next) :
    Accepts (Parse.checkMatch id toClose >>= h) s s' (t :: ts) b next :=
  cons (testIf (by rw [found]; exact beq_self_eq_true id) (pure ())) rest

/-! ## Levels -/

theorem enterlevel (inside : s.syntaxLevel < maxSyntaxLevels) (rest : Accepts (h ()) s.deeper s' ts b next) :
    Accepts (Parse.enterlevel >>= h) s s' ts b next := by
  refine silently (a := ()) (fun i i' reads _ _ => ?_) rest
  cases reads
  have room : ¬ maxSyntaxLevels < s.syntaxLevel + 1 := by omega
  show (if maxSyntaxLevels < s.syntaxLevel + 1 then _ else _ : ParseM Unit) ⟨i, s.deeper⟩ = _
  rw [if_neg room]
  rfl

theorem leavelevel (rest : Accepts (h ()) s s' ts b next) :
    Accepts (Parse.leavelevel >>= h) s.deeper s' ts b next := by
  refine silently (a := ()) (fun i i' reads _ _ => ?_) rest
  cases reads
  rfl

/-! ## Loops -/

-- what a loop accepts from the state `x` on, when there is fuel for more turns than tokens
def Turns (step : σ → ParseM (Turn σ β)) (s : Status) (x : σ) (ts : List Token) (b : β) (next : Token) : Prop :=
  ∀ n, ts.length < n → Accepts (iterate step n x) s s ts b next

variable {step : σ → ParseM (Turn σ β)} {x y : σ}

theorem Turns.same (turns : Turns step s x ts b next) (same : step y = step x) : Turns step s y ts b next := by
  intro n less
  cases n with
  | zero => exact absurd less (Nat.not_lt_zero _)
  | succ n =>
      have round : iterate step (n + 1) y = iterate step (n + 1) x := by
        unfold iterate
        rw [same]
      rw [round]
      exact turns (n + 1) less

theorem leave (turn : Accepts (step x) s s ts (.leave b) next) : Turns step s x ts b next := by
  intro n less
  cases n with
  | zero => exact absurd less (Nat.not_lt_zero _)
  | succ n => exact turn.last (pure b)

theorem again (turn : Accepts (step x) s s (t :: ts) (.again y) (us.headD next)) (rest : Turns step s y us b next) :
    Turns step s x (t :: ts ++ us) b next := by
  intro n less
  cases n with
  | zero => exact absurd less (Nat.not_lt_zero _)
  | succ n =>
      refine turn.bind (rest n ?_)
      rw [List.length_append, List.length_cons] at less
      omega

theorem loop (turns : Turns step s x ts b next) : Accepts (loop step x) s s ts b next := by
  intro i i' reads upcoming room
  exact turns (i.lexer.buffer.length + 2) (Nat.lt_succ_of_le room) i i' reads upcoming room

end Accepts

end Zua.Parse
