import Zua.Run.Assignments
import Zua.Compile.IfStatements

/-!
# If statements

The value of a condition is loaded into the next free register, but the test behind it reads register 0. The jumps of
a statement go to its next clause and behind its last one.
-/

namespace Zua.Run
open Code Object Compile Vm Syntax
open Memory (Constant)
open Zua.Lex (Token ch)

-- the functions of the host
abbrev Host (P : Platform) := Addr → Machine P → Except Vm.Stop (Machine P × Int)

variable {P : Platform} {host : Host P} {frame : Frame}
  {size low mid front start test next stop : Nat} {fs fs' : Func} {c c' : Compiler} {env : Env} {names : List (List UInt8)}
  {code words : List Word} {holes : List Nat}

/-! ## What a statement does -/

def identifiers : List Node → Option (List Token)
  | [] => some []
  | .identifier token :: rest => (identifiers rest).map (token :: ·)
  | _ => none

mutual

-- assignments to variables, with `do` blocks and if statements around them
def isBranching (env : Env) : Node → Bool
  | .assignmentStatement targets values false =>
      (identifiers targets).any (!·.isEmpty) && !values.isEmpty && values.all (isExpression env)
  | .doStatement body => areBranching env body
  | .ifStatement clauses => areClauses env clauses
  | _ => false

def areBranching (env : Env) : List Node → Bool
  | [] => true
  | node :: rest => isBranching env node && areBranching env rest

def isClause (env : Env) : Node → Bool
  | .ifClause _ (some condition) body => isExpression env condition && areBranching env body
  | .ifClause _ none body => areBranching env body
  | _ => false

def areClauses (env : Env) : List Node → Bool
  | [] => true
  | clause :: rest => isClause env clause && areClauses env rest

end

-- what decides a condition with the given value
abbrev Decision (P : Platform) := Value → Machine P → Except Vm.Stop Value

-- `TEST` reads register 0
def byRegister (base : Nat) : Decision P := fun _ s => s.slot base

def byValue : Decision P := fun v _ => .ok v

section

variable (env : Env) (names : List (List UInt8)) (base : Nat) (judge : Decision P)

mutual

def perform : Node → Machine P → Except Vm.Stop (Machine P)
  | .assignmentStatement targets values false, s =>
      match identifiers targets with
      | some tokens => assignAll env names base tokens values s
      | none => .error .panic
  | .doStatement body, s => performBody body s
  | .ifStatement clauses, s => performClauses clauses s
  | _, _ => .error .panic

def performBody : List Node → Machine P → Except Vm.Stop (Machine P)
  | [], s => .ok s
  | node :: rest, s => do
      let s ← perform node s
      performBody rest s

-- `others` is what the clauses behind it do
def performClause : Node → (Machine P → Except Vm.Stop (Machine P)) → Machine P → Except Vm.Stop (Machine P)
  | .ifClause _ (some condition) body, others, s => do
      let v ← evaluate env names base s condition
      let v ← judge v s
      if v.isFalsy then others s else performBody body s
  | .ifClause _ none body, others, s => do
      let s ← performBody body s
      others s
  | _, _, _ => .error .panic

def performClauses : List Node → Machine P → Except Vm.Stop (Machine P)
  | [], s => .ok s
  | clause :: rest, s => performClause clause (performClauses rest) s

end

end

theorem identifiers_map {targets : List Node} {tokens : List Token} (found : identifiers targets = some tokens) :
    targets = tokens.map .identifier := by
  induction targets generalizing tokens with
  | nil =>
      cases found
      rfl
  | cons target rest ih =>
      cases target with
      | identifier token =>
          obtain ⟨others, found', rfl⟩ := Option.map_eq_some_iff.mp found
          rw [List.map_cons, ← ih found']
      | _ => cases found

theorem assignAll_above {s s' : Machine P} (le : names.length ≤ low) (above : Above frame size low s s')
    (tokens : List Token) (values : List Node) :
    Agrees frame size low (assignAll env names frame.base tokens values s) (assignAll env names frame.base tokens values s') := by
  unfold assignAll
  rw [evaluateAll_steady le above]
  cases evaluateAll env names frame.base s values with
  | error e => exact rfl
  | ok vs =>
      simp only [ok_bind]
      split
      · exact storeAll_above above _ _ _
      · exact storeAll_above above _ _ _

section

variable {judge : Decision P}

mutual

theorem perform_above (le : names.length ≤ low) (steady : ∀ v s s', Above frame size low s s' → judge v s' = judge v s)
    (node : Node) {s s' : Machine P} (above : Above frame size low s s') :
    Agrees frame size low (perform env names frame.base judge node s) (perform env names frame.base judge node s') := by
  cases node with
  | assignmentStatement targets values isLocal =>
      cases isLocal with
      | true => exact rfl
      | false =>
          unfold perform
          cases identifiers targets with
          | none => exact rfl
          | some tokens => exact assignAll_above le above tokens values
  | doStatement body => exact performBody_above le steady body above
  | ifStatement clauses => exact performClauses_above le steady clauses above
  | _ => exact rfl

theorem performBody_above (le : names.length ≤ low)
    (steady : ∀ v s s', Above frame size low s s' → judge v s' = judge v s) (nodes : List Node) {s s' : Machine P}
    (above : Above frame size low s s') : Agrees frame size low (performBody env names frame.base judge nodes s)
      (performBody env names frame.base judge nodes s') := by
  cases nodes with
  | nil => exact above
  | cons node rest =>
      unfold performBody
      exact (perform_above le steady node above).bind fun s s' above => performBody_above le steady rest above

theorem performClause_above (le : names.length ≤ low)
    (steady : ∀ v s s', Above frame size low s s' → judge v s' = judge v s) (clause : Node)
    {others : Machine P → Except Vm.Stop (Machine P)}
    (respects : ∀ s s', Above frame size low s s' → Agrees frame size low (others s) (others s')) {s s' : Machine P}
    (above : Above frame size low s s') : Agrees frame size low (performClause env names frame.base judge clause others s)
      (performClause env names frame.base judge clause others s') := by
  cases clause with
  | ifClause token condition body =>
      cases condition with
      | none =>
          unfold performClause
          exact (performBody_above le steady body above).bind respects
      | some condition =>
          unfold performClause
          rw [evaluate_steady le above]
          cases evaluate env names frame.base s condition with
          | error e => exact rfl
          | ok v =>
              simp only [ok_bind]
              rw [steady v s s' above]
              cases judge v s with
              | error e => exact rfl
              | ok v =>
                  simp only [ok_bind]
                  split
                  · exact respects s s' above
                  · exact performBody_above le steady body above
  | _ => exact rfl

theorem performClauses_above (le : names.length ≤ low)
    (steady : ∀ v s s', Above frame size low s s' → judge v s' = judge v s) (clauses : List Node) {s s' : Machine P}
    (above : Above frame size low s s') : Agrees frame size low (performClauses env names frame.base judge clauses s)
      (performClauses env names frame.base judge clauses s') := by
  cases clauses with
  | nil => exact above
  | cons clause rest =>
      unfold performClauses
      exact performClause_above le steady clause (fun s s' above => performClauses_above le steady rest above) above

end

end

/-! ## From one place to another -/

-- in front of the first instruction the registers above the locals are nil
structure Enters (frame : Frame) (size low start : Nat) (s : Machine P) : Prop where
  room : frame.base + size ≤ s.stack.length
  fresh : start = 0 → ∀ r, low ≤ r → r < size → s.slot (frame.base + r) = .ok .nil

theorem Enters.mono {s : Machine P} (enters : Enters frame size low start s) (le : low ≤ mid) : Enters frame size mid start s :=
  ⟨enters.room, fun first r above => enters.fresh first r (le.trans above)⟩

-- behind the first instruction
theorem Enters.of_length {s s' : Machine P} (enters : Enters frame size low start s)
    (length : s'.stack.length = s.stack.length) (pos : next ≠ 0) : Enters frame size mid next s' :=
  ⟨length ▸ enters.room, fun first => (pos first).elim⟩

-- what a run from one place to another leaves alone
structure Keeps (stop : Nat) (s : Machine P) (result : Except Vm.Stop (Machine P)) : Prop where
  length : ∀ s', result = .ok s' → s'.stack.length = s.stack.length
  idle : stop = 0 → result = .ok s

theorem Keeps.fails {s : Machine P} {e : Vm.Stop} (moved : stop ≠ 0) : Keeps stop s (.error e) := by
  refine ⟨?_, fun none => (moved none).elim⟩
  intro s' wrong
  cases wrong

-- between the two places the machine does what `f` says, up to the registers from `low` on; the first `front` words of
-- the code that was compiled are not part of the code that runs
def Goes (host : Host P) (frame : Frame) (size low front start stop : Nat)
    (f : Machine P → Except Vm.Stop (Machine P)) : Prop :=
  ∀ s, Enters frame size low start s → ∃ result, Leads host frame s (start - front) (stop - front) result ∧
    Keeps stop s result ∧ Agrees frame size low (f s) result

namespace Goes

variable {f g : Machine P → Except Vm.Stop (Machine P)}

theorem refl : Goes host frame size low front start start fun s => .ok s := by
  refine fun s _ => ⟨.ok s, .refl s _, ⟨?_, fun _ => rfl⟩, .refl s⟩
  rintro _ ⟨⟩
  rfl

theorem lower (goes : Goes host frame size mid front start stop f) (le : low ≤ mid) : Goes host frame size low front start stop f := by
  intro s enters
  obtain ⟨result, leads, keeps, agrees⟩ := goes s (enters.mono le)
  exact ⟨result, leads, keeps, agrees.mono le⟩

theorem trans (first : Goes host frame size low front start next f) (second : Goes host frame size low front next stop g)
    (le : start ≤ next) (le' : next ≤ stop)
    (respects : ∀ s s', Above frame size low s s' → Agrees frame size low (g s) (g s')) :
    Goes host frame size low front start stop fun s => f s >>= g := by
  intro s enters
  show ∃ result, _ ∧ _ ∧ Agrees frame size low (f s >>= g) result
  obtain ⟨result, leads, keeps, agrees⟩ := first s enters
  cases result with
  | error e =>
      refine ⟨.error e, leads.fails, .fails fun none => ?_, ?_⟩
      · cases keeps.idle (Nat.le_zero.mp (none ▸ le'))
      · cases run : f s with
        | error e' =>
            rw [run] at agrees
            exact agrees
        | ok t =>
            rw [run] at agrees
            exact agrees.elim
  | ok t =>
      have length := keeps.length t rfl
      have enters' : Enters frame size low next t := by
        refine ⟨length ▸ enters.room, fun none => ?_⟩
        cases keeps.idle none
        exact enters.fresh (Nat.le_zero.mp (none ▸ le))
      obtain ⟨result, leads', keeps', agrees'⟩ := second t enters'
      refine ⟨result, leads.trans leads', ⟨fun s' is => (keeps'.length s' is).trans length, fun none => ?_⟩, ?_⟩
      · cases keeps.idle (Nat.le_zero.mp (none ▸ le'))
        exact keeps'.idle none
      · cases run : f s with
        | error e =>
            rw [run] at agrees
            exact agrees.elim
        | ok u =>
            rw [run] at agrees
            exact (respects u t agrees).trans agrees'

theorem congr (goes : Goes host frame size low front start stop f)
    (same : ∀ s, frame.base + size ≤ s.stack.length → g s = f s) : Goes host frame size low front start stop g := by
  intro s enters
  rw [same s enters.room]
  exact goes s enters

-- a jump behind it
theorem escape (goes : Goes host frame size low front start next f) (escapes : ∀ s, Leads host frame s (next - front) (stop - front) (.ok s))
    (le : next ≤ stop) : Goes host frame size low front start stop f := by
  intro s enters
  obtain ⟨result, leads, keeps, agrees⟩ := goes s enters
  refine ⟨result, ?_, ⟨keeps.length, fun none => keeps.idle (Nat.le_zero.mp (none ▸ le))⟩, agrees⟩
  cases result with
  | error e => exact leads.fails
  | ok s' => exact leads.trans (escapes s')

end Goes

-- the words from `start` on are in the code that runs, apart from those at the holes
def Placed (frame : Frame) (front : Nat) (code : List Word) (start : Nat) (holes : List Nat) : Prop :=
  ∀ k w, start ≤ k → code[k]? = some w → k ∉ holes → frame.code[k - front]? = some w.encode

theorem Placed.located {is : List Instruction} (placed : Placed frame front (code ++ is.map .instr) code.length [])
    (le : front ≤ code.length) : Located frame (code.length - front) is := by
  unfold Located
  rw [List.prefix_iff_getElem?]
  intro k inside
  have place : k < is.length := by simpa using inside
  have word := placed (code.length + k) (.instr is[k]) (Nat.le_add_right _ _) (by
    rw [List.getElem?_append_right (Nat.le_add_right _ _), Nat.add_sub_cancel_left, List.getElem?_map,
      List.getElem?_eq_getElem place]
    rfl) List.not_mem_nil
  rw [List.getElem?_drop, ← Nat.sub_add_comm le, word, List.getElem_map]
  rfl

theorem Behaves.placed {Q : Machine P → Except Vm.Stop (Machine P) → Prop} (behaves : Behaves P frame size low code words fs Q)
    (extended : Extends frame size fs) (placed : Placed frame front words code.length []) (le : front ≤ code.length)
    {s : Machine P} (enters : Enters frame size low code.length s) : ∃ result,
      Leads host frame s (code.length - front) (words.length - front) result ∧ Keeps words.length s result ∧ Q s result := by
  obtain ⟨is, rfl, holds⟩ := behaves
  have starts : Starts frame size code low s := ⟨enters.room, fun none => enters.fresh (by rw [none]; rfl)⟩
  obtain ⟨result, leads, stays, h⟩ := holds extended host s _ (placed.located le) starts
  refine ⟨result, ?_, ⟨stays.length, fun none => stays.idle ?_⟩, h⟩
  · rw [List.length_append, List.length_map, Nat.sub_add_comm le]
    exact leads
  · rw [List.length_append, List.length_map] at none
    exact List.eq_nil_of_length_eq_zero (Nat.eq_zero_of_add_eq_zero_left none)

theorem Does.goes {f : Machine P → Except Vm.Stop (Machine P)} (does : Does P frame size low code words fs f)
    (extended : Extends frame size fs) (placed : Placed frame front words code.length []) (le : front ≤ code.length) :
    Goes host frame size low front code.length words.length f :=
  fun _ enters => Behaves.placed does extended placed le enters

/-! ## Tests and jumps -/

theorem jump_shift {k target : Nat} {offset : Int} (goes : jump k offset = .ok target) (le : front ≤ k)
    (le' : front ≤ target) : jump (k - front) offset = .ok (target - front) := by
  unfold jump at goes ⊢
  split at goes
  · cases goes
  · have place := Except.ok.inj goes
    rw [if_neg (by omega)]
    exact congrArg Except.ok (by omega)

theorem leads_jump {k target : Nat} (jumps : Jumps code k target)
    (placed : ∀ w, code[k]? = some w → frame.code[k - front]? = some w.encode) (le : front ≤ k) (le' : front ≤ target)
    (s : Machine P) : Leads host frame s (k - front) (target - front) (.ok s) := by
  obtain ⟨i, j, found, -, decoded, op, goes⟩ := jumps
  have goes := jump_shift goes le le'
  refine .exec (i := j) ?_ fun execute => ?_
  · rw [placed _ found]
    exact decoded
  · simp only [exec, op, goes, ok_bind]

theorem leads_test {k : Nat} {s : Machine P} {v : Value} (held : s.slot frame.base = .ok v)
    (word : frame.code[k]? = some (Word.instr ⟨.test, 0, 0, 0⟩).encode) :
    Leads host frame s k (if v.isFalsy then k + 1 else k + 2) (.ok s) := by
  refine .exec (i := ⟨.test, 0, 0, 0⟩) ?_ fun execute => ?_
  · rw [word]
    exact Instruction.ofWord_word ⟨by decide, by decide, by decide⟩
  · show (s.slot frame.base >>= fun v => Except.ok (Flow.next s (if (!v.isFalsy) = true then k + 2 else k + 1))) = _
    rw [held, ok_bind, ok_bind]
    cases v.isFalsy with
    | true => rfl
    | false => rfl

-- the parts of a clause with a condition; `value` is what is loaded behind the registers below `low`
structure Clause (host : Host P) (frame : Frame) (size low front start test next stop : Nat)
    (value : Machine P → Except Vm.Stop Value) (body : Machine P → Except Vm.Stop (Machine P)) : Prop where
  loads : ∀ s, Enters frame size low start s → ∃ result, Leads host frame s (start - front) (test - front) result ∧
    Ends frame size low value (fun v s => s.slot (frame.base + low) = .ok v) s result
  tests : frame.code[test - front]? = some (Word.instr ⟨.test, 0, 0, 0⟩).encode
  skips : ∀ s, Leads host frame s (test + 1 - front) (next - front) (.ok s)
  taken : Goes host frame size (low + 1) front (test + 2) stop body
  after : front ≤ test ∧ next ≠ 0 ∧ stop ≠ 0

-- `mid` registers are the same as those of `enter v s` after the condition
theorem Clause.goes {value : Machine P → Except Vm.Stop Value} {body others : Machine P → Except Vm.Stop (Machine P)}
    (clause : Clause host frame size low front start test next stop value body)
    (rest : Goes host frame size mid front next stop others)
    (enter : Value → Machine P → Machine P) (le : low ≤ mid) (le' : mid ≤ low + 1) (pos : 0 < mid) (room : mid ≤ size)
    (entered : ∀ s s' v, frame.base + size ≤ s.stack.length → Above frame size low s s' →
      s'.slot (frame.base + low) = .ok v → Above frame size mid (enter v s) s')
    (respects : ∀ s s', Above frame size mid s s' → Agrees frame size mid (others s) (others s'))
    (respects' : ∀ s s', Above frame size mid s s' → Agrees frame size mid (body s) (body s')) :
    Goes host frame size low front start stop fun s => value s >>= fun v =>
      (enter v s).slot frame.base >>= fun w => if w.isFalsy then others (enter v s) else body (enter v s) := by
  intro s enters
  obtain ⟨result, leads, ends⟩ := clause.loads s enters
  unfold Ends at ends
  dsimp only
  cases found : value s with
  | error e =>
      simp only [found] at ends
      subst ends
      exact ⟨.error e, leads.fails, .fails clause.after.2.2, rfl⟩
  | ok v =>
      simp only [found] at ends
      obtain ⟨s', rfl, above, held⟩ := ends
      have same := entered s s' v enters.room above held
      obtain ⟨w, tested⟩ := slot_inside (s := enter v s) (k := frame.base) (by
        have := same.length
        have := above.length
        have := enters.room
        omega)
      have tested' : s'.slot frame.base = .ok w := by
        have := same.slot pos
        rw [Nat.add_zero] at this
        exact this.trans tested
      have branch := leads.trans (leads_test tested' clause.tests)
      rw [← Nat.sub_add_comm clause.after.1, ← Nat.sub_add_comm clause.after.1] at branch
      simp only [ok_bind, tested]
      cases falsy : w.isFalsy with
      | true =>
          rw [falsy] at branch
          obtain ⟨result, leads', keeps, agrees⟩ := rest s' (enters.of_length above.length clause.after.2.1)
          refine ⟨result, branch.trans ((clause.skips s').trans leads'), ⟨?_, fun none => (clause.after.2.2 none).elim⟩, ?_⟩
          · exact fun t is => (keeps.length t is).trans above.length
          · exact ((respects _ _ same).trans agrees).mono le
      | false =>
          rw [falsy] at branch
          obtain ⟨result, leads', keeps, agrees⟩ := clause.taken s' (enters.of_length above.length (by omega))
          refine ⟨result, branch.trans leads', ⟨?_, fun none => (clause.after.2.2 none).elim⟩, ?_⟩
          · exact fun t is => (keeps.length t is).trans above.length
          · exact ((respects' _ _ same).trans (agrees.mono le')).mono le

/-! ## Compiling -/

def Stops (e : Compile.Stop) : Prop := Full e ∨ e = .jumpLimit

-- what may also stop at a jump that is too long
def Reaches {α : Type} (x : CompileM α) (c : Compiler) (Q : α → Compiler → Prop) : Prop :=
  Roomy c.func → Sat Stops x c fun a c' => Roomy c'.func ∧ Wider c.func c'.func ∧ Q a c'

theorem Makes.reaches {α : Type} {x : CompileM α} {Q : α → Compiler → Prop} (makes : Makes x c Q) : Reaches x c Q :=
  fun roomy => (makes roomy).stops fun _ full => .inl full

namespace Reaches

variable {α β : Type} {Q : α → Compiler → Prop}

theorem pure {a : α} (h : Q a c) : Reaches (Pure.pure a) c Q := (Makes.pure h).reaches

theorem bind {x : CompileM α} {f : α → CompileM β} {R : β → Compiler → Prop} (first : Reaches x c Q)
    (rest : ∀ a c', Wider c.func c'.func → Q a c' → Reaches (f a) c' R) : Reaches (x >>= f) c R := by
  intro roomy
  refine Sat.bind (Sat.mono (first roomy) ?_)
  rintro a c' ⟨roomy, wider, h⟩
  refine Sat.mono (rest a c' wider h roomy) ?_
  rintro b c'' ⟨roomy, wider', h'⟩
  exact ⟨roomy, wider.trans wider', h'⟩

theorem mono {x : CompileM α} {R : α → Compiler → Prop} (h : Reaches x c Q)
    (weaker : ∀ a c', Wider c.func c'.func → Q a c' → R a c') : Reaches x c R := by
  intro roomy
  refine Sat.mono (h roomy) ?_
  rintro a c' ⟨roomy, wider, holds⟩
  exact ⟨roomy, wider, weaker a c' wider holds⟩

theorem roomy {x : CompileM α} (h : Roomy c.func → Reaches x c Q) : Reaches x c Q := fun roomy => h roomy roomy

end Reaches

theorem emit_makes (i : Instruction) : Makes (onFunc (Func.emitInstruction i)) c fun index c' => index = c.func.pc ∧
    c'.func = { c.func with code := c.func.code ++ [.instr i] } := by
  refine (Makes.onFunc (emitInstruction_emits i)).mono ?_
  rintro index c' - ⟨-, rfl, same⟩
  exact ⟨rfl, same⟩

theorem patchHere_reaches {k : Nat} (unpatched : Unpatched c.func.code k) : Reaches (patchHere k) c fun _ c' =>
    ∃ offset ≤ Instruction.maxSbx, k + offset + 1 = c.func.pc ∧
      c'.func = { c.func with code := c.func.code.set k (.instr (.asbx .jmp 0 (offset : Nat))) } := by
  have inside : k < c.func.pc := unpatched.lt
  obtain ⟨i, found, op, a⟩ := unpatched
  intro roomy
  refine Sat.bind (sat_onFunc (Sat.get ?_))
  split
  · exact .inr rfl
  · rename_i small
    refine sat_onFunc (Sat.bind (Sat.bind (Sat.get ?_)))
    rw [found]
    refine Sat.pure (Sat.modify ⟨⟨roomy.registers, roomy.constants⟩, ⟨le_rfl, List.prefix_rfl, rfl, rfl, rfl⟩, ?_⟩)
    refine ⟨c.func.pc - k - 1, Nat.le_of_not_lt small, by omega, ?_⟩
    show { c.func with code := c.func.code.set k (.instr (.asbx i.op i.a (c.func.pc - k - 1 : Nat))) } = _
    rw [op, a]

-- the places of a branch in the code in front of the statement do not change
theorem prefix_set {code words : List Word} {k : Nat} {w : Word} (before : code <+: words) (behind : code.length ≤ k) :
    code <+: words.set k w := by
  obtain ⟨more, rfl⟩ := before
  rw [List.set_append_right _ _ behind]
  exact List.prefix_append _ _

theorem patchAll_reaches {escapes : List Nat} {c : Compiler} (unpatched : ∀ k ∈ escapes, Unpatched c.func.code k) :
    Reaches (patchAll escapes) c fun _ c' => c'.func = { c.func with code := c'.func.code } ∧
      c'.func.code.length = c.func.code.length ∧ (∀ k ∉ escapes, c'.func.code[k]? = c.func.code[k]?) ∧
      ∀ k ∈ escapes, ∃ offset ≤ Instruction.maxSbx, k + offset + 1 = c.func.pc ∧
        c'.func.code[k]? = some (.instr (.asbx .jmp 0 (offset : Nat))) := by
  induction escapes generalizing c with
  | nil => exact .pure ⟨rfl, rfl, fun _ _ => rfl, fun _ none => (List.not_mem_nil none).elim⟩
  | cons index rest ih =>
      have first := unpatched index List.mem_cons_self
      refine .bind (patchHere_reaches first) ?_
      rintro _ c₁ - ⟨offset, small, place, same⟩
      have code : c₁.func.code = c.func.code.set index (.instr (.asbx .jmp 0 (offset : Nat))) := by rw [same]
      have length : c₁.func.pc = c.func.pc := by
        unfold Func.pc
        rw [code, List.length_set]
      have found : c₁.func.code[index]? = some (.instr (.asbx .jmp 0 (offset : Nat))) := by
        rw [code]
        exact List.getElem?_set_self first.lt
      refine (ih fun k member => ?_).mono ?_
      · by_cases equal : k = index
        · subst equal
          exact ⟨_, found, rfl, rfl⟩
        · obtain ⟨i, found', shape⟩ := unpatched k (List.mem_cons_of_mem _ member)
          refine ⟨i, ?_, shape⟩
          rw [code, List.getElem?_set_ne (Ne.symm equal)]
          exact found'
      · rintro _ c₂ - ⟨same', total, others, jumps⟩
        refine ⟨?_, total.trans length, fun k other => ?_, fun k member => ?_⟩
        · rw [same', same]
        · have apart : k ≠ index ∧ k ∉ rest := by simpa using other
          rw [others k apart.2, code, List.getElem?_set_ne apart.1.symm]
        · by_cases behind : k ∈ rest
          · rw [← length]
            exact jumps k behind
          · obtain rfl : k = index := (List.mem_cons.mp member).resolve_right behind
            exact ⟨offset, small, place, (others k behind).trans found⟩

/-! ## Conditions -/

-- the value of the condition is loaded, the test and the jump over the body follow
variable (frame size) in
theorem genCondition_reaches (interns : Interns P) (arithmetic : env.toArithmetic = P.toArithmetic) {condition : Node}
    (is : isExpression env condition = true) (c : Compiler) (inScope : Scoped env names c.func)
    (locals : c.func.numActiveLocalVars ≤ c.func.freeRegister) :
    Reaches (do genNode env condition; genTest) c fun jump c' => c'.func.freeRegister = c.func.freeRegister + 1 ∧
      ∃ words, jump = words.length + 1 ∧
        c'.func.code = words ++ [.instr ⟨.test, 0, 0, 0⟩, .instr (.asbx .jmp 0 (0 : Nat))] ∧
        Behaves P frame size c.func.freeRegister c.func.code words c'.func (Ends frame size c.func.freeRegister
          (fun s : Machine P => evaluate env names frame.base s condition)
          fun v s => s.slot (frame.base + c.func.freeRegister) = .ok v) := by
  refine Makes.reaches (.bind (genNode_computes frame size interns arithmetic condition is c inScope locals) ?_)
  rintro _ c₁ - computes
  unfold genTest
  refine .bind (nextReg_computes computes) ?_
  rintro r c₂ - ⟨-, free, simulates⟩
  refine Makes.roomy fun roomy => ?_
  have behaves := simulates.behaves fun extended s room => slot_inside (s := s) (by
    have := extended.registers
    have := roomy.registers
    omega)
  refine .bind (emit_makes _) ?_
  rintro _ c₃ wider₃ ⟨-, same₃⟩
  refine (emit_makes _).mono ?_
  rintro jump c₄ wider₄ ⟨rfl, same₄⟩
  refine ⟨by rw [same₄, same₃]; exact free, c₂.func.code, ?_, ?_, behaves.wider (wider₃.trans wider₄)⟩
  · rw [same₃]
    simp [Func.pc]
  · rw [same₄, same₃]
    simp [Instruction.asbx, Instruction.abx]

-- the code between two states of the compiler does what `f` says
structure Carries (P : Platform) (frame : Frame) (size : Nat) (c c' : Compiler)
    (f : Machine P → Except Vm.Stop (Machine P)) : Prop where
  free : c.func.freeRegister ≤ c'.func.freeRegister
  before : c.func.code <+: c'.func.code
  goes : ∀ (host : Host P) (front : Nat), front ≤ c.func.pc → Extends frame size c'.func →
    Placed frame front c'.func.code c.func.pc [] → Goes host frame size c.func.freeRegister front c.func.pc c'.func.pc f

-- the escapes of a clause, which are still to be patched
structure Leaves (c : Compiler) (holes : List Nat) (c' : Compiler) : Prop where
  free : c.func.freeRegister ≤ c'.func.freeRegister
  before : c.func.code <+: c'.func.code
  holes : ∀ k ∈ holes, c.func.pc ≤ k ∧ Unpatched c'.func.code k

theorem getElem?_before {code words : List Word} {k : Nat} (before : code <+: words) (inside : k < code.length) :
    words[k]? = code[k]? := by
  obtain ⟨more, rfl⟩ := before
  exact List.getElem?_append_left inside

theorem unpatched_extend {k : Nat} (unpatched : Unpatched code k) (before : code <+: words) : Unpatched words k := by
  have inside := unpatched.lt
  obtain ⟨i, found, shape⟩ := unpatched
  exact ⟨i, (getElem?_before before inside).trans found, shape⟩

variable (frame size) in
theorem genClause_condition (interns : Interns P) (arithmetic : env.toArithmetic = P.toArithmetic) {token : Token}
    {condition : Node} {body : List Node} {does : Machine P → Except Vm.Stop (Machine P)} (last : Bool)
    (is : isExpression env condition = true) (c : Compiler) (inScope : Scoped env names c.func)
    (locals : c.func.numActiveLocalVars ≤ c.func.freeRegister)
    (compiles : ∀ c : Compiler, Scoped env names c.func → c.func.numActiveLocalVars ≤ c.func.freeRegister →
      0 < c.func.freeRegister → Reaches (genBody env body) c fun _ c' => Carries P frame size c c' does) :
    Reaches (genClause env last (.ifClause token (some condition) body)) c fun holes c' => Leaves c holes c' ∧
      0 < c'.func.freeRegister ∧ ∀ (host : Host P) (front stop : Nat), front ≤ c.func.pc → Extends frame size c'.func →
        Placed frame front c'.func.code c.func.pc holes → c'.func.pc ≤ stop → (last = true → c'.func.pc = stop) →
        (∀ k ∈ holes, ∀ s, Leads host frame s (k - front) (stop - front) (.ok s)) →
          ∃ test, Clause host frame size c.func.freeRegister front c.func.pc test c'.func.pc stop
            (fun s : Machine P => evaluate env names frame.base s condition) does := by
  have regroup (k : Nat → CompileM (List Nat)) : (do
      genNode env condition
      let jump ← genTest
      k jump) = (do genNode env condition; genTest) >>= k := (bind_assoc _ _ _).symm
  rw [genClause, regroup]
  refine .bind (genCondition_reaches frame size interns arithmetic is c inScope locals) ?_
  rintro jump c₁ wider₁ ⟨free₁, words, rfl, code₁, behaves⟩
  have first : c.func.code <+: words := by
    obtain ⟨is, rfl, -⟩ := behaves
    exact List.prefix_append _ _
  have length₁ : c₁.func.pc = words.length + 2 := by
    unfold Func.pc
    rw [code₁, List.length_append]
    rfl
  refine .bind (compiles c₁ (inScope.wider wider₁) (by rw [wider₁.number, free₁]; omega) (by omega)) ?_
  rintro _ c₂ wider₂ inner
  have inside₂ : c₁.func.pc ≤ c₂.func.pc := inner.before.length_le
  have escape : Makes (if last then pure [] else do
      let escape ← onFunc (Func.emitAsBx .jmp 0 (0 : Nat))
      pure [escape]) c₂ fun holes c₃ => c₃.func.freeRegister = c₂.func.freeRegister ∧ c₂.func.code <+: c₃.func.code ∧
        (last = true ∧ holes = [] ∧ c₃.func.pc = c₂.func.pc ∨
          holes = [c₂.func.pc] ∧ Unpatched c₃.func.code c₂.func.pc ∧ c₃.func.pc = c₂.func.pc + 1) := by
    cases last with
    | true => exact .pure ⟨rfl, List.prefix_rfl, .inl ⟨rfl, rfl, rfl⟩⟩
    | false =>
        refine .bind (emit_makes _) ?_
        rintro index c₃ - ⟨rfl, same⟩
        have code : c₃.func.code = c₂.func.code ++ [.instr (.asbx .jmp 0 (0 : Nat))] := by rw [same]
        refine .pure ⟨by rw [same], ?_, .inr ⟨rfl, ⟨.asbx .jmp 0 (0 : Nat), ?_, rfl, rfl⟩, ?_⟩⟩
        · rw [code]
          exact List.prefix_append _ _
        · rw [code]
          exact List.getElem?_concat_length
        · unfold Func.pc
          rw [code, List.length_append]
          rfl
  have joined (k : List Nat → CompileM (List Nat)) : (do
      let escapes ← if last then pure [] else do
        let escape ← onFunc (Func.emitAsBx .jmp 0 (0 : Nat))
        pure [escape]
      k escapes) = (if last then pure [] else do
        let escape ← onFunc (Func.emitAsBx .jmp 0 (0 : Nat))
        pure [escape]) >>= k := by
    cases last <;> simp
  refine (joined _).symm ▸ .bind escape.reaches ?_
  rintro holes c₃ wider₃ ⟨free₃, before₃, shape⟩
  have before : c₁.func.code <+: c₃.func.code := inner.before.trans before₃
  have jumps : Unpatched c₁.func.code (words.length + 1) := by
    refine ⟨.asbx .jmp 0 (0 : Nat), ?_, rfl, rfl⟩
    rw [code₁, List.getElem?_append_right (Nat.le_add_right _ _), Nat.add_sub_cancel_left]
    rfl
  refine .bind (patchHere_reaches (unpatched_extend jumps before)) ?_
  rintro _ c₄ wider₄ ⟨offset, small, place, same₄⟩
  have code₄ : c₄.func.code = c₃.func.code.set (words.length + 1) (.instr (.asbx .jmp 0 (offset : Nat))) := by rw [same₄]
  have length₄ : c₄.func.pc = c₃.func.pc := by
    unfold Func.pc
    rw [code₄, List.length_set]
  have start : c.func.pc ≤ words.length := first.length_le
  have behind : ∀ k ∈ holes, c₂.func.pc ≤ k ∧ Unpatched c₄.func.code k := by
    intro k member
    rcases shape with ⟨-, rfl, -⟩ | ⟨rfl, ⟨i, found, jmp⟩, -⟩
    · exact (List.not_mem_nil member).elim
    · obtain rfl := List.mem_singleton.mp member
      refine ⟨le_rfl, i, ?_, jmp⟩
      rw [code₄, List.getElem?_set_ne (by omega)]
      exact found
  have grown : c₂.func.freeRegister = c₄.func.freeRegister := by rw [same₄, free₃]
  have free := inner.free
  refine .pure ⟨⟨by omega, ?_, fun k member => ?_⟩, by omega, fun host front stop front_le extended placed le ends escapes => ?_⟩
  · rw [code₄]
    exact prefix_set (first.trans (.trans (by rw [code₁]; exact List.prefix_append _ _) before)) (Nat.le_succ_of_le start)
  · have := behind k member
    exact ⟨by omega, this.2⟩
  -- in front of the escape only the jump has been patched
  have through {k : Nat} {w : Word} (low : c.func.pc ≤ k) (high : k < c₂.func.pc) (other : k ≠ words.length + 1)
      (found : c₃.func.code[k]? = some w) : frame.code[k - front]? = some w.encode := by
    refine placed k w low ?_ fun member => ?_
    · rw [code₄, List.getElem?_set_ne (Ne.symm other)]
      exact found
    · have := (behind k member).1
      omega
  have extended₂ : Extends frame size c₂.func := extended.narrow (wider₃.trans wider₄)
  refine ⟨words.length, fun s enters => ?_, ?_, fun s => ?_, ?_, by omega⟩
  · have placed₁ : Placed frame front words c.func.code.length [] := by
      intro k w low found _
      have inside := (List.getElem?_eq_some_iff.mp found).1
      refine through low (by omega) (by omega) ?_
      rw [getElem?_before before (by rw [code₁, List.length_append]; omega), code₁, List.getElem?_append_left inside]
      exact found
    obtain ⟨result, leads, -, ends⟩ := behaves.placed (extended₂.narrow wider₂) placed₁ front_le enters
    exact ⟨result, leads, ends⟩
  · refine through start (by omega) (by omega) ?_
    rw [getElem?_before before (by unfold Func.pc at length₁; omega), code₁, List.getElem?_append_right le_rfl, Nat.sub_self]
    rfl
  · have found : c₄.func.code[words.length + 1]? = some (.instr (.asbx .jmp 0 (offset : Nat))) := by
      rw [code₄]
      exact List.getElem?_set_self (unpatched_extend jumps before).lt
    have goes := jumps_offset found small
    rw [place, ← length₄] at goes
    refine leads_jump goes (fun w there => placed _ w (by omega) there fun member => ?_) (by omega) (by omega) s
    have := (behind _ member).1
    omega
  · have placed₂ : Placed frame front c₂.func.code c₁.func.pc [] := by
      intro k w low found _
      have inside := (List.getElem?_eq_some_iff.mp found).1
      exact through (by omega) inside (by omega) ((getElem?_before before₃ inside).trans found)
    have goes := inner.goes host front (by omega) extended₂ placed₂
    rw [free₁, length₁] at goes
    rcases shape with ⟨is, -, same⟩ | ⟨rfl, -, same⟩
    · have reached := ends is
      rw [length₄, same] at reached
      rw [← reached]
      exact goes
    · exact goes.escape (escapes _ List.mem_cons_self) (by omega)

/-! ## Statements -/

theorem byRegister_steady (pos : 0 < low) (v : Value) (s s' : Machine P) (above : Above frame size low s s') :
    byRegister frame.base v s' = byRegister frame.base v s := above.slot pos

theorem isBranching_assignment {targets values : List Node}
    (is : isBranching env (.assignmentStatement targets values false) = true) :
    ∃ tokens, identifiers targets = some tokens ∧ tokens ≠ [] ∧ values ≠ [] ∧ ∀ e ∈ values, isExpression env e = true := by
  simp only [isBranching, Bool.and_eq_true, Option.any_eq_true, Bool.not_eq_true', List.isEmpty_eq_false_iff,
    List.all_eq_true] at is
  obtain ⟨⟨⟨tokens, found, some⟩, given⟩, all⟩ := is
  exact ⟨tokens, found, some, given, all⟩

theorem Carries.refl (c : Compiler) : Carries P frame size c c fun s => .ok s :=
  ⟨le_rfl, List.prefix_rfl, fun _ _ _ _ _ => .refl⟩

theorem Carries.trans {c₁ c₂ : Compiler} {f g : Machine P → Except Vm.Stop (Machine P)} (first : Carries P frame size c c₁ f)
    (second : Carries P frame size c₁ c₂ g) (wider : Wider c₁.func c₂.func)
    (respects : ∀ s s', Above frame size c.func.freeRegister s s' → Agrees frame size c.func.freeRegister (g s) (g s')) :
    Carries P frame size c c₂ fun s => f s >>= g := by
  refine ⟨first.free.trans second.free, first.before.trans second.before, fun host front le extended placed => ?_⟩
  have placed₁ : Placed frame front c₁.func.code c.func.pc [] := fun k w low found none =>
    placed k w low ((getElem?_before second.before (List.getElem?_eq_some_iff.mp found).1).trans found) none
  have placed₂ : Placed frame front c₂.func.code c₁.func.pc [] := fun k w low found none =>
    placed k w (first.before.length_le.trans low) found none
  have rest := (second.goes host front (le.trans first.before.length_le) extended placed₂).lower first.free
  exact (first.goes host front le (extended.narrow wider) placed₁).trans rest first.before.length_le second.before.length_le respects

theorem Does.carries {f : Machine P → Except Vm.Stop (Machine P)} (free : c.func.freeRegister ≤ c'.func.freeRegister)
    (does : Does P frame size c.func.freeRegister c.func.code c'.func.code c'.func f) : Carries P frame size c c' f := by
  refine ⟨free, ?_, fun host front le extended placed => does.goes extended placed le⟩
  obtain ⟨is, same, -⟩ := does
  rw [same]
  exact List.prefix_append _ _

theorem Leaves.trans {c c₁ c₂ : Compiler} {holes₁ holes₂ : List Nat}
    (leaves : Leaves c holes₁ c₁) (leaves' : Leaves c₁ holes₂ c₂) : Leaves c (holes₁ ++ holes₂) c₂ := by
  refine ⟨leaves.free.trans leaves'.free, leaves.before.trans leaves'.before, fun k member => ?_⟩
  rcases List.mem_append.mp member with member | member
  · obtain ⟨low, unpatched⟩ := leaves.holes k member
    exact ⟨low, unpatched_extend unpatched leaves'.before⟩
  · obtain ⟨low, unpatched⟩ := leaves'.holes k member
    exact ⟨leaves.before.length_le.trans low, unpatched⟩

theorem Leaves.placed {c c₁ c₂ : Compiler} {holes₁ holes₂ : List Nat} (leaves : Leaves c holes₁ c₁)
    (leaves' : Leaves c₁ holes₂ c₂) (placed : Placed frame front c₂.func.code c.func.pc (holes₁ ++ holes₂)) :
    Placed frame front c₁.func.code c.func.pc holes₁ ∧ Placed frame front c₂.func.code c₁.func.pc holes₂ := by
  refine ⟨fun k w low found other => ?_, fun k w low found other => ?_⟩
  · have inside := (List.getElem?_eq_some_iff.mp found).1
    refine placed k w low ((getElem?_before leaves'.before inside).trans found) fun member => ?_
    rcases List.mem_append.mp member with member | member
    · exact other member
    · exact Nat.not_lt_of_le (leaves'.holes k member).1 inside
  · refine placed k w (leaves.before.length_le.trans low) found fun member => ?_
    rcases List.mem_append.mp member with member | member
    · exact Nat.not_lt_of_le low (leaves.holes k member).2.lt
    · exact other member

-- the escapes of all clauses are patched at the end
theorem ifStatement_carries {clauses : List Node} {f : Machine P → Except Vm.Stop (Machine P)} {taken : Nat}
    (compiles : Reaches (genClauses env clauses []) c fun holes c' => Leaves c holes c' ∧ taken ≤ c'.func.freeRegister ∧
      ∀ (host : Host P) (front : Nat), front ≤ c.func.pc → Extends frame size c'.func →
        Placed frame front c'.func.code c.func.pc holes →
        (∀ k ∈ holes, ∀ s, Leads host frame s (k - front) (c'.func.pc - front) (.ok s)) →
          Goes host frame size c.func.freeRegister front c.func.pc c'.func.pc f) :
    Reaches (genNode env (.ifStatement clauses)) c fun _ c' => Carries P frame size c c' f ∧ taken ≤ c'.func.freeRegister := by
  rw [genNode]
  refine .bind compiles ?_
  rintro holes c₁ wider₁ ⟨leaves, free, goes⟩
  refine (patchAll_reaches fun k member => (leaves.holes k member).2).mono ?_
  rintro _ c₂ wider₂ ⟨same, length, others, jumps⟩
  have apart {k : Nat} (low : k < c.func.pc) : k ∉ holes := fun member =>
    Nat.not_lt_of_le (leaves.holes k member).1 low
  refine ⟨⟨?_, ?_, fun host front le extended placed => ?_⟩, by rw [same]; exact free⟩
  · rw [same]
    exact leaves.free
  · rw [List.prefix_iff_getElem?]
    intro k inside
    rw [others k (apart inside), getElem?_before leaves.before inside, List.getElem?_eq_getElem inside]
  · have stop : c₂.func.pc = c₁.func.pc := length
    rw [stop]
    refine goes host front le (extended.narrow wider₂) (fun k w low found other => ?_) fun k member s => ?_
    · exact placed k w low ((others k other).trans found) List.not_mem_nil
    · obtain ⟨offset, small, place, found⟩ := jumps k member
      have leads := jumps_offset found small
      rw [place] at leads
      have low := (leaves.holes k member).1
      exact leads_jump leads (fun w there => placed k w low there List.not_mem_nil) (le.trans low) (by omega) s

variable (frame size) in
mutual

theorem genNode_carries (interns : Interns P) (arithmetic : env.toArithmetic = P.toArithmetic) (node : Node)
    (is : isBranching env node = true) (c : Compiler) (inScope : Scoped env names c.func)
    (locals : c.func.numActiveLocalVars ≤ c.func.freeRegister) (pos : 0 < c.func.freeRegister) :
    Reaches (genNode env node) c fun _ c' =>
      Carries P frame size c c' (perform env names frame.base (byRegister frame.base) node) := by
  cases node with
  | assignmentStatement targets values isLocal =>
      cases isLocal with
      | true => cases is
      | false =>
          obtain ⟨tokens, found, some, given, all⟩ := isBranching_assignment is
          have same : perform env names frame.base (byRegister (P := P) frame.base) (.assignmentStatement targets values false) =
              assignAll env names frame.base tokens values := by
            funext s
            unfold perform
            rw [found]
          rw [same, identifiers_map found]
          refine (genAssignment_makes frame size interns arithmetic some given all c inScope locals).reaches.mono ?_
          rintro _ c' - ⟨free, does⟩
          exact does.carries free
  | doStatement body =>
      rw [genNode]
      exact genBody_carries interns arithmetic body is c inScope locals pos
  | ifStatement clauses =>
      refine (ifStatement_carries ((genClauses_carries interns arithmetic clauses [] is c inScope locals pos).mono
        (R := fun holes c' => Leaves c holes c' ∧ 0 ≤ c'.func.freeRegister ∧ _) ?_)).mono fun _ _ _ both => both.1
      rintro holes c₁ - ⟨_, rfl, leaves, -, goes⟩
      exact ⟨leaves, Nat.zero_le _, goes⟩
  | _ => cases is

theorem genBody_carries (interns : Interns P) (arithmetic : env.toArithmetic = P.toArithmetic) (nodes : List Node)
    (are : areBranching env nodes = true) (c : Compiler) (inScope : Scoped env names c.func)
    (locals : c.func.numActiveLocalVars ≤ c.func.freeRegister) (pos : 0 < c.func.freeRegister) :
    Reaches (genBody env nodes) c fun _ c' =>
      Carries P frame size c c' (performBody env names frame.base (byRegister frame.base) nodes) := by
  cases nodes with
  | nil =>
      rw [genBody]
      exact .pure (.refl c)
  | cons node rest =>
      have parts := and_straight are
      rw [genBody]
      refine .bind (genNode_carries interns arithmetic node parts.1 c inScope locals pos) ?_
      rintro _ c₁ wider₁ first
      have free := first.free
      refine (genBody_carries interns arithmetic rest parts.2 c₁ (inScope.wider wider₁)
        (wider₁.number.trans_le (locals.trans free)) (pos.trans_le free)).mono ?_
      rintro _ c₂ wider₂ second
      exact first.trans second wider₂ fun s s' above =>
        performBody_above (inScope.count.trans_le locals) (byRegister_steady pos) rest above

theorem genClause_carries (interns : Interns P) (arithmetic : env.toArithmetic = P.toArithmetic) (last : Bool) (clause : Node)
    (is : isClause env clause = true) (c : Compiler) (inScope : Scoped env names c.func)
    (locals : c.func.numActiveLocalVars ≤ c.func.freeRegister) (pos : 0 < c.func.freeRegister) :
    Reaches (genClause env last clause) c fun holes c' => Leaves c holes c' ∧
      ∀ (host : Host P) (front stop : Nat) (others : Machine P → Except Vm.Stop (Machine P)), front ≤ c.func.pc →
      Extends frame size c'.func → Placed frame front c'.func.code c.func.pc holes → c'.func.pc ≤ stop →
      (last = true → c'.func.pc = stop) → (∀ k ∈ holes, ∀ s, Leads host frame s (k - front) (stop - front) (.ok s)) →
      Goes host frame size c.func.freeRegister front c'.func.pc stop others →
      (∀ s s', Above frame size c.func.freeRegister s s' → Agrees frame size c.func.freeRegister (others s) (others s')) →
        Goes host frame size c.func.freeRegister front c.func.pc stop
          (performClause env names frame.base (byRegister frame.base) clause others) := by
  have known : names.length ≤ c.func.freeRegister := inScope.count.trans_le locals
  cases clause with
  | ifClause token condition body =>
      cases condition with
      | none =>
          rw [genClause]
          refine .bind (genBody_carries interns arithmetic body is c inScope locals pos) ?_
          rintro _ c₁ wider carries
          refine .pure ⟨⟨carries.free, carries.before, fun _ none => (List.not_mem_nil none).elim⟩, ?_⟩
          intro host front stop others front_le extended placed le ends escapes rest respects
          exact (carries.goes host front front_le extended placed).trans rest carries.before.length_le le respects
      | some condition =>
          have parts := and_straight is
          refine Reaches.roomy fun roomy => ?_
          refine (genClause_condition frame size interns arithmetic last parts.1 c inScope locals
            fun c inScope locals pos => genBody_carries interns arithmetic body parts.2 c inScope locals pos).mono ?_
          rintro holes c' wider ⟨leaves, -, clause⟩
          refine ⟨leaves, fun host front stop others front_le extended placed le ends escapes rest respects => ?_⟩
          obtain ⟨test, clause⟩ := clause host front stop front_le extended placed le ends escapes
          have room : c.func.freeRegister ≤ size := (roomy.registers.trans wider.registers).trans extended.registers
          exact clause.goes rest (fun _ s => s) le_rfl (Nat.le_succ _) pos room (fun _ _ _ _ above _ => above) respects
            fun s s' above => performBody_above known (byRegister_steady pos) body above
  | _ => cases is

theorem genClauses_carries (interns : Interns P) (arithmetic : env.toArithmetic = P.toArithmetic) (clauses : List Node)
    (escapes : List Nat) (are : areClauses env clauses = true) (c : Compiler) (inScope : Scoped env names c.func)
    (locals : c.func.numActiveLocalVars ≤ c.func.freeRegister) (pos : 0 < c.func.freeRegister) :
    Reaches (genClauses env clauses escapes) c fun all c' => ∃ holes, all = escapes ++ holes ∧ Leaves c holes c' ∧
      (clauses = [] → c'.func.pc = c.func.pc) ∧ ∀ (host : Host P) (front : Nat), front ≤ c.func.pc →
        Extends frame size c'.func → Placed frame front c'.func.code c.func.pc holes →
        (∀ k ∈ holes, ∀ s, Leads host frame s (k - front) (c'.func.pc - front) (.ok s)) →
          Goes host frame size c.func.freeRegister front c.func.pc c'.func.pc
            (performClauses env names frame.base (byRegister frame.base) clauses) := by
  have known : names.length ≤ c.func.freeRegister := inScope.count.trans_le locals
  cases clauses with
  | nil =>
      rw [genClauses]
      exact .pure ⟨[], (List.append_nil _).symm, ⟨le_rfl, List.prefix_rfl, fun _ none => (List.not_mem_nil none).elim⟩,
        fun _ => rfl, fun _ _ _ _ _ _ => .refl⟩
  | cons clause rest =>
      have parts := and_straight are
      rw [genClauses]
      refine .bind (genClause_carries interns arithmetic rest.isEmpty clause parts.1 c inScope locals pos) ?_
      rintro holes₁ c₁ wider₁ ⟨leaves₁, first⟩
      have free := leaves₁.free
      refine (genClauses_carries interns arithmetic rest (escapes ++ holes₁) parts.2 c₁ (inScope.wider wider₁)
        (wider₁.number.trans_le (locals.trans free)) (pos.trans_le free)).mono ?_
      rintro _ c₂ wider₂ ⟨holes₂, rfl, leaves₂, ended, others⟩
      refine ⟨holes₁ ++ holes₂, List.append_assoc _ _ _, leaves₁.trans leaves₂, fun none => (by cases none), ?_⟩
      intro host front le extended placed escapes
      obtain ⟨placed₁, placed₂⟩ := leaves₁.placed leaves₂ placed
      have rest' := (others host front (le.trans leaves₁.before.length_le) extended placed₂ fun k member => escapes k (List.mem_append_right _ member)).lower free
      refine first host front c₂.func.pc _ le (extended.narrow wider₂) placed₁ leaves₂.before.length_le (fun last => ?_)
        (fun k member => escapes k (List.mem_append_left _ member)) rest' fun s s' above =>
          performClauses_above known (byRegister_steady pos) rest above
      exact (ended (List.isEmpty_iff.mp last)).symm

end

/-! ## If statements at any level -/

-- the value of a condition is in register 0 when no other register is taken
def load (base level : Nat) (v : Value) (s : Machine P) : Except Vm.Stop (Machine P) :=
  if level = 0 then s.setSlot base v else .ok s

def performIf (env : Env) (names : List (List UInt8)) (base level : Nat) (condition : Node) (body rest : List Node)
    (s : Machine P) : Except Vm.Stop (Machine P) := do
  let v ← evaluate env names base s condition
  let s ← load base level v s
  let v ← s.slot base
  if v.isFalsy then performClauses env names base (byRegister base) rest s
  else performBody env names base (byRegister base) body s

def enter (base level : Nat) (v : Value) (s : Machine P) : Machine P :=
  if level = 0 then { s with stack := s.stack.set base v } else s

-- a register whose value is known
theorem above_put {s s' : Machine P} {v : Value} (above : Above frame size low s s')
    (held : s'.slot (frame.base + low) = .ok v) : s.setSlot (frame.base + low) v =
      .ok { s with stack := s.stack.set (frame.base + low) v } ∧
        Above frame size (low + 1) { s with stack := s.stack.set (frame.base + low) v } s' := by
  unfold Machine.slot at held
  split at held
  · rename_i found
    cases held
    have inside := (List.getElem?_eq_some_iff.mp found).1
    refine ⟨setSlot_inside (above.length ▸ inside) _, ?_, ?_, fun k outside => ?_⟩
    · rw [above.rest]
    · exact above.length.trans List.length_set.symm
    · dsimp only
      by_cases here : k = frame.base + low
      · subst here
        rw [List.getElem?_set_self (above.length ▸ inside)]
        exact found
      · rw [List.getElem?_set_ne (Ne.symm here)]
        exact above.same k (by omega)
  · cases held

theorem enter_above {s s' : Machine P} {v : Value} (above : Above frame size low s s')
    (held : s'.slot (frame.base + low) = .ok v) : Above frame size (max low 1) (enter frame.base low v s) s' := by
  unfold enter
  split
  · rename_i first
    subst first
    exact (above_put above held).2
  · rename_i taken
    rw [max_eq_left (Nat.pos_of_ne_zero taken)]
    exact above

variable (frame size) in
theorem genIf_carries (interns : Interns P) (arithmetic : env.toArithmetic = P.toArithmetic) (token : Token)
    {condition : Node} {body rest : List Node} (is : isExpression env condition = true) (are : areBranching env body = true)
    (others : areClauses env rest = true) (c : Compiler) (inScope : Scoped env names c.func)
    (locals : c.func.numActiveLocalVars ≤ c.func.freeRegister) :
    Reaches (genNode env (.ifStatement (.ifClause token (some condition) body :: rest))) c fun _ c' =>
      Carries P frame size c c' (performIf env names frame.base c.func.freeRegister condition body rest) ∧
        1 ≤ c'.func.freeRegister := by
  refine ifStatement_carries (Reaches.roomy fun roomy => ?_)
  rw [genClauses]
  refine .bind (genClause_condition frame size interns arithmetic rest.isEmpty is c inScope locals
    fun c inScope locals pos => genBody_carries frame size interns arithmetic body are c inScope locals pos) ?_
  rintro holes₁ c₁ wider₁ ⟨leaves₁, pos, first⟩
  refine Reaches.roomy fun roomy₁ => ?_
  refine (genClauses_carries frame size interns arithmetic rest ([] ++ holes₁) others c₁ (inScope.wider wider₁)
    (wider₁.number.trans_le (locals.trans leaves₁.free)) pos).mono ?_
  rintro _ c₂ wider₂ ⟨holes₂, rfl, leaves₂, ended, goes⟩
  refine ⟨leaves₁.trans leaves₂, pos.trans_le leaves₂.free, fun host front le extended placed escapes => ?_⟩
  obtain ⟨placed₁, placed₂⟩ := leaves₁.placed leaves₂ placed
  obtain ⟨test, clause⟩ := first host front c₂.func.pc le (extended.narrow wider₂) placed₁ leaves₂.before.length_le
    (fun last => (ended (List.isEmpty_iff.mp last)).symm) fun k member => escapes k (List.mem_append_left _ member)
  have upper : max c.func.freeRegister 1 ≤ c₁.func.freeRegister := max_le leaves₁.free pos
  have behind := (goes host front (le.trans leaves₁.before.length_le) extended placed₂ fun k member => escapes k (List.mem_append_right _ member)).lower upper
  have known : names.length ≤ max c.func.freeRegister 1 := (inScope.count.trans_le locals).trans (le_max_left _ _)
  have some : 0 < max c.func.freeRegister 1 := Nat.lt_of_lt_of_le Nat.zero_lt_one (le_max_right _ _)
  have room : max c.func.freeRegister 1 ≤ size :=
    upper.trans (roomy₁.registers.trans ((extended.narrow wider₂).registers))
  refine (clause.goes behind (enter frame.base c.func.freeRegister) (le_max_left _ _)
    (max_le (Nat.le_succ _) (Nat.succ_le_succ (Nat.zero_le _))) some room ?_ ?_ ?_).congr ?_
  · exact fun s s' v _ above held => enter_above above held
  · exact fun s s' above => performClauses_above known (byRegister_steady some) rest above
  · exact fun s s' above => performBody_above known (byRegister_steady some) body above
  · intro s inside
    unfold performIf
    refine bind_congr fun v => ?_
    have loaded : load frame.base c.func.freeRegister v s = .ok (enter frame.base c.func.freeRegister v s) := by
      unfold load enter
      split
      · exact setSlot_inside (by omega) v
      · rfl
    rw [loaded, ok_bind]

-- `if not x then x = not x end`
def negatedBody : List Node := [.assignmentStatement [.identifier ⟨.name, 4, 5, 1, none⟩] [negatedName] false]

mutual

-- without a further condition
def isPlain : Node → Bool
  | .assignmentStatement _ _ false => true
  | .doStatement body => arePlain body
  | _ => false

def arePlain : List Node → Bool
  | [] => true
  | node :: rest => isPlain node && arePlain rest

end

mutual

theorem perform_plain (judge judge' : Decision P) (base : Nat) (node : Node) (is : isPlain node = true) (s : Machine P) :
    perform env names base judge node s = perform env names base judge' node s := by
  cases node with
  | assignmentStatement targets values isLocal =>
      cases isLocal with
      | true => cases is
      | false => rfl
  | doStatement body => exact performBody_plain judge judge' base body is s
  | _ => cases is

theorem performBody_plain (judge judge' : Decision P) (base : Nat) (nodes : List Node) (are : arePlain nodes = true)
    (s : Machine P) : performBody env names base judge nodes s = performBody env names base judge' nodes s := by
  cases nodes with
  | nil => rfl
  | cons node rest =>
      have parts := and_straight are
      unfold performBody
      rw [perform_plain judge judge' base node parts.1 s]
      exact bind_congr fun s => performBody_plain judge judge' base rest parts.2 s

end

-- nothing or an `else`
def isElse : List Node → Bool
  | [] => true
  | [.ifClause _ none body] => arePlain body
  | _ => false

theorem performClauses_else (judge judge' : Decision P) (base : Nat) {rest : List Node} (is : isElse rest = true)
    (s : Machine P) : performClauses env names base judge rest s = performClauses env names base judge' rest s := by
  cases rest with
  | nil => rfl
  | cons clause rest =>
      cases rest with
      | cons next rest =>
          cases clause with
          | ifClause token condition body => cases condition <;> cases is
          | _ => cases is
      | nil =>
          cases clause with
          | ifClause token condition body =>
              cases condition with
              | some condition => cases is
              | none =>
                  unfold performClauses performClause
                  rw [performBody_plain judge judge' base body is s]
                  rfl
          | _ => cases is

end Zua.Run
