import Zua.Vm.Entry

/-!
# Calls

What a call leaves of the stack of its caller. A function is entered at the place where the top is, not at
the register that is called; the two agree for calls that are `Aligned`, and a run of such calls keeps
what lies below.
-/

namespace Zua.Vm
open Code Object

variable {P : Platform} {execute : Machine P → Except Stop (Machine P)}
  {host : Addr → Machine P → Except Stop (Machine P × Int)} {frame : Frame} {s s' t : Machine P} {pc pc' : Nat}
  {i : Instruction} {low : Nat}

/-! ## What lies below -/

structure Below (low : Nat) (s s' : Machine P) : Prop where
  slots : ∀ j < low, s'.stack[j]? = s.stack[j]?
  length : s'.stack.length = s.stack.length
  wanted : s'.ci.numResults = s.ci.numResults

namespace Below

theorem refl (low : Nat) (s : Machine P) : Below low s s := ⟨fun _ _ => rfl, rfl, rfl⟩

theorem trans (first : Below low s s') (second : Below low s' t) : Below low s t where
  slots j below := (second.slots j below).trans (first.slots j below)
  length := second.length.trans first.length
  wanted := second.wanted.trans first.wanted

theorem mono {low' : Nat} (h : Below low s s') (le : low' ≤ low) : Below low' s s' :=
  ⟨fun j below => h.slots j (below.trans_le le), h.length, h.wanted⟩

theorem setSlot {j : Nat} {v : Value} (h : s.setSlot j v = .ok s') (le : low ≤ j) : Below low s s' := by
  obtain ⟨-, rfl⟩ := setSlot_ok h
  refine ⟨?_, List.length_set, rfl⟩
  intro k below
  exact List.getElem?_set_ne (by omega)

theorem setNils {start n : Nat} (h : s.setNils start n = .ok s') (le : low ≤ start) : Below low s s' := by
  induction n generalizing s start with
  | zero =>
      cases h
      exact refl low _
  | succ n ih =>
      obtain ⟨_, first, rest⟩ := bind_ok.mp h
      exact (setSlot first le).trans (ih rest (le.trans (Nat.le_succ start)))

end Below

/-! ## One instruction -/

-- a property of states that the writes of an instruction keep: slots from `low` on, tables and closures
structure Writable (low : Nat) (K : Machine P → Prop) : Prop where
  setSlot : ∀ {s s' : Machine P} {j : Nat} {v : Value}, K s → low ≤ j → s.setSlot j v = .ok s' → K s'
  objects : ∀ {s : Machine P} (tables : List (Table P.hashMap)) (closures : List Closure), K s →
    K { s with tables, closures }

namespace Writable

variable {K : Machine P → Prop}

theorem setNils (writable : Writable low K) {start n : Nat} (here : K s) (le : low ≤ start)
    (h : s.setNils start n = .ok s') : K s' := by
  induction n generalizing s start with
  | zero =>
      cases h
      exact here
  | succ n ih =>
      obtain ⟨_, first, rest⟩ := bind_ok.mp h
      exact ih (writable.setSlot here le first) (le.trans (Nat.le_succ start)) rest

theorem tableSet (writable : Writable low K) {a : Addr} {key value : Value} (here : K s)
    (h : s.tableSet a key value = .ok s') : K s' := by
  unfold Machine.tableSet at h
  split at h
  · split at h
    · cases h
      exact writable.objects _ s.closures here
    · cases h
  · cases h

theorem setList (writable : Writable low K) {table : Addr} {start src n : Nat} (here : K s)
    (h : setList s table start src n = .ok s') : K s' := by
  induction n generalizing s' with
  | zero =>
      cases h
      exact here
  | succ n ih =>
      obtain ⟨_, first, rest⟩ := bind_ok.mp h
      obtain ⟨_, -, stored⟩ := bind_ok.mp rest
      exact writable.tableSet (ih first) stored

end Writable

theorem Below.writable (low : Nat) (s : Machine P) : Writable low (Below low s) where
  setSlot below le h := below.trans (.setSlot h le)
  objects _ _ below := below.trans ⟨fun _ _ => rfl, rfl, rfl⟩

-- the code goes on in the same frame, in a state of which `K` holds
def Touches (K : Machine P → Prop) (x : Except Stop (Flow P)) : Prop :=
  ∀ flow, x = .ok flow → ∃ s' pc', flow = .next s' pc' ∧ K s'

namespace Touches

variable {K : Machine P → Prop}

theorem read {α : Type} {first : Except Stop α} {rest : α → Except Stop (Flow P)}
    (each : ∀ a, first = .ok a → Touches K (rest a)) : Touches K (first >>= rest) := by
  intro flow h
  obtain ⟨a, found, more⟩ := bind_ok.mp h
  exact each a found flow more

theorem next (pc : Nat) (here : K s') : Touches K (.ok (.next s' pc)) := by
  intro flow h
  exact ⟨s', pc, (Except.ok.inj h).symm, here⟩

theorem error (e : Stop) : Touches K (.error e) := by
  intro flow h
  cases h

theorem mono {K' : Machine P → Prop} {x : Except Stop (Flow P)} (h : Touches K x) (weaker : ∀ t, K t → K' t) :
    Touches K' x := by
  intro flow executed
  obtain ⟨s', pc', same, here⟩ := h flow executed
  exact ⟨s', pc', same, weaker s' here⟩

theorem put {a : Nat} {v : Value} (writable : Writable low K) (here : K s') (le : low ≤ frame.base) :
    Touches K (Flow.put s' frame pc a v) :=
  read fun _ set => next (pc + 1) (writable.setSlot here (le.trans (Nat.le_add_right _ _)) set)

end Touches

-- the instructions that only use their own frame
def Local : OpCode → Prop
  | .setupval | .tailcall | .tforloop | .call | .return => False
  | _ => True

theorem exec_touches {K : Machine P → Prop} (writable : Writable low K) (own : Local i.op) (keeps : K s)
    (le : low ≤ frame.base) : Touches K (exec execute host frame pc i s) := by
  have above (n : Nat) : low ≤ frame.base + n := le.trans (Nat.le_add_right _ _)
  rcases i with ⟨op, a, b, c⟩
  cases op
  all_goals try exact own.elim
  all_goals simp only [exec, execArith, execCompare]
  case loadbool => exact .read fun _ set => .next _ (writable.setSlot keeps (above _) set)
  case loadnil =>
      split
      · exact .error _
      · exact .read fun _ set => .next _ (writable.setNils keeps (above _) set)
  case getglobal =>
      split
      · exact .read fun _ _ => .put writable keeps le
      · exact .next _ keeps
      · exact .error _
  case setglobal =>
      split
      · exact .read fun _ _ => .read fun _ set => .next _ (writable.tableSet keeps set)
      · exact .next _ keeps
      · exact .error _
  case settable =>
      exact .read fun _ _ => .read fun _ _ => .read fun _ _ => .read fun _ _ => .read fun _ set =>
        .next _ (writable.tableSet keeps set)
  case newtable => exact .put writable (writable.objects _ _ keeps) le
  case self =>
      exact .read fun _ _ => .read fun _ _ => .read fun _ _ => .read fun _ _ => .read fun _ set =>
        .put writable (writable.setSlot keeps (above _) set) le
  case gettable => exact .read fun _ _ => .read fun _ _ => .read fun _ _ => .read fun _ _ => .put writable keeps le
  case concat =>
      split
      · exact .error _
      · exact .read fun _ _ => .put writable keeps le
  case jmp => exact .read fun _ _ => .next _ keeps
  case eq | lt | le => exact .read fun _ _ => .read fun _ _ => .next _ keeps
  case test => exact .read fun _ _ => .next _ keeps
  case testset =>
      refine .read fun _ _ => ?_
      split
      · exact .put writable keeps le
      · exact .next _ keeps
  case forprep =>
      refine .read fun idx _ => .read fun step _ => ?_
      split
      · exact .read fun _ set => .read fun _ _ => .next _ (writable.setSlot keeps (above _) set)
      · exact .read fun _ same => .read fun _ _ => .next _ (by cases same; exact keeps)
  case forloop =>
      refine .read fun idx _ => .read fun limit _ => .read fun step _ => ?_
      split
      · refine .read fun _ set => .read fun _ set' => ?_
        have both := writable.setSlot (writable.setSlot keeps (above _) set) (by omega) set'
        split <;> split
        all_goals first
          | exact .next _ both
          | exact .read fun _ _ => .next _ both
      · exact .next _ keeps
  case closure =>
      unfold execClosure
      split
      · exact .put writable (writable.objects _ _ keeps) le
      · exact .put writable keeps le
  case getupval =>
      split
      · exact .read fun _ _ => .put writable keeps le
      · exact .put writable keeps le
  case setlist =>
      refine .read fun _ _ => .read fun _ _ => ?_
      split
      · split
        · exact .read fun _ set => .next _ (writable.setList keeps set)
        · exact .error _
      · exact .read fun _ set => .next _ (writable.setList keeps set)
  case vararg =>
      split
      · exact .next _ keeps
      · exact .read fun _ set => .next _ (writable.setNils keeps (above _) set)
  case move | loadk | not => exact .read fun _ _ => .put writable keeps le
  case unm | len => exact .read fun _ _ => .read fun _ _ => .put writable keeps le
  all_goals exact .read fun _ _ => .read fun _ _ => .read fun _ _ => .put writable keeps le

/-! ## Returning -/

theorem copyResults_below {dst src n : Nat} (h : copyResults s dst src n = .ok s') : Below dst s s' := by
  induction n generalizing s' with
  | zero =>
      cases h
      exact .refl dst _
  | succ n ih =>
      obtain ⟨copied, first, rest⟩ := bind_ok.mp h
      have before := ih first
      split at rest
      · obtain ⟨_, -, set⟩ := bind_ok.mp rest
        exact before.trans (.setSlot set (Nat.le_add_right _ _))
      · cases rest
        exact before

theorem nilResults_below (s : Machine P) (dst n : Nat) : Below dst s (nilResults s dst n) := by
  induction n with
  | zero => exact .refl dst s
  | succ n ih =>
      refine ⟨?_, ?_, ih.wanted⟩
      · intro j below
        simp only [nilResults]
        rw [List.getElem?_set_ne (by omega), ih.slots j below]
      · simp only [nilResults, List.length_set, ih.length]

theorem nilResults_nil {dst n k : Nat} (h : k < n) (inside : dst + k < s.stack.length) :
    (nilResults s dst n).stack[dst + k]? = some .nil := by
  induction n with
  | zero => omega
  | succ n ih =>
      have length := (nilResults_below s dst n).length
      simp only [nilResults, List.getElem?_set]
      split
      · rw [if_pos (by omega)]
      · exact ih (by omega)

theorem nilResults_keeps {dst n j : Nat} (outside : j < dst ∨ dst + n ≤ j) :
    (nilResults s dst n).stack[j]? = s.stack[j]? := by
  induction n with
  | zero => rfl
  | succ n ih =>
      simp only [nilResults]
      rw [List.getElem?_set_ne (by omega), ih (by omega)]

theorem copyResults_above {dst src n j : Nat} (h : copyResults s dst src n = .ok s') (above : dst + n ≤ j) :
    s'.stack[j]? = s.stack[j]? := by
  induction n generalizing s' with
  | zero =>
      cases h
      rfl
  | succ n ih =>
      obtain ⟨copied, first, rest⟩ := bind_ok.mp h
      split at rest
      · obtain ⟨_, -, set⟩ := bind_ok.mp rest
        obtain ⟨-, rfl⟩ := setSlot_ok set
        rw [List.getElem?_set_ne (by omega)]
        exact ih first (by omega)
      · cases rest
        exact ih first (by omega)

theorem slot_ok {j : Nat} {v : Value} (h : s.slot j = .ok v) : s.stack[j]? = some v := by
  unfold Machine.slot at h
  split at h
  · rename_i value located
    rw [located, Except.ok.inj h]
  · cases h

-- the source lies above the destination, so that it is read before it is overwritten
theorem copyResults_copies {dst src n k : Nat} (h : copyResults s dst src n = .ok s') (lt : dst < src)
    (less : k < n) (inside : dst + k < s.stack.length) : s'.stack[dst + k]? = s.stack[src + k]? := by
  induction n generalizing s' with
  | zero => omega
  | succ n ih =>
      obtain ⟨copied, first, rest⟩ := bind_ok.mp h
      have length := (copyResults_below first).length
      split at rest
      · obtain ⟨v, found, set⟩ := bind_ok.mp rest
        obtain ⟨room, rfl⟩ := setSlot_ok set
        rcases Nat.lt_succ_iff_lt_or_eq.mp less with earlier | rfl
        · rw [List.getElem?_set_ne (by omega)]
          exact ih first earlier
        · rw [List.getElem?_set_self room, ← copyResults_above first (by omega), slot_ok found]
      · rcases Nat.lt_succ_iff_lt_or_eq.mp less with earlier | rfl
        · cases rest
          exact ih first earlier
        · omega

theorem returnFrom_below {base a b : Nat} (h : returnFrom s base a b = .ok s') (le : low ≤ base)
    (lt : 0 < s.ci.numResults → low < base) : Below low s s' := by
  unfold returnFrom at h
  dsimp only at h
  split at h
  · split at h <;> cases h
    · exact .refl low s
    · exact ⟨fun _ _ => rfl, rfl, rfl⟩
  · have none : ¬ 0 < s.ci.numResults → s.ci.numResults.toNat = 0 := by omega
    have fills (t : Machine P) (n : Nat) (start : Nat) (top : Nat) (ge : 0 < n → low ≤ start) :
        Below low t { nilResults t start n with top } := by
      cases n with
      | zero => exact ⟨fun _ _ => rfl, rfl, rfl⟩
      | succ n =>
          have below := (nilResults_below t start (n + 1)).mono (ge (Nat.succ_pos n))
          exact ⟨below.slots, below.length, below.wanted⟩
    split at h
    · cases h
      exact fills s _ _ _ (by omega)
    · split at h
      · cases h
      · obtain ⟨copied, copies, rest⟩ := bind_ok.mp h
        cases rest
        have before : Below low s copied := by
          rcases Nat.eq_zero_or_pos (b - 1) with zero | positive
          · rw [zero] at copies
            cases copies
            exact .refl low s
          · exact (copyResults_below copies).mono (by omega)
        exact before.trans (fills copied _ _ _ (by omega))

-- every wanted register has its result, or nil behind the last one
theorem returnFrom_results {base a b k : Nat} (h : returnFrom s base a b = .ok s') (some : 0 < base) (given : 0 < b)
    (wanted : (k : Int) < s.ci.numResults) (inside : base - 1 + k < s.stack.length) :
    s'.stack[base - 1 + k]? = if k < b - 1 then s.stack[base + a + k]? else Option.some .nil := by
  unfold returnFrom at h
  dsimp only at h
  rw [if_neg (by omega), if_neg (by omega)] at h
  split at h
  · cases h
  · obtain ⟨copied, copies, rest⟩ := bind_ok.mp h
    cases rest
    split
    · rename_i less
      rw [nilResults_keeps (by omega)]
      exact copyResults_copies copies (by omega) less inside
    · have length := (copyResults_below copies).length
      have place : base - 1 + k = base - 1 + (b - 1) + (k - (b - 1)) := by omega
      rw [place]
      exact nilResults_nil (by omega) (by omega)

/-! ## Runs of aligned calls -/

-- a Lua function is entered above the called register; it is enough that it is not entered below it when there
-- are no arguments and no results. The results of a C function are left where they are.
def Aligned (host : Addr → Machine P → Except Stop (Machine P × Int)) (frame : Frame) (i : Instruction)
    (s : Machine P) : Prop :=
  match s.stack[frame.base + i.a]? with
  | some (.closure _) => s.top = frame.base + i.a + i.b + 1 ∨ (i.b = 1 ∧ i.c ≤ 1 ∧ frame.base + i.a < s.top)
  | some (.cClosure a) => i.c ≤ 1 ∧ (frame.base + i.a = 0 ∨ i.b = 1) ∧
      ∀ s s' n, host a s = .ok (s', n) → Below (frame.base + i.a) s s'
  | _ => True

def callResults (i : Instruction) : Int := if 0 < i.c then (i.c - 1 : Nat) else -1

-- the state in which the call is made
def calling (frame : Frame) (i : Instruction) (s : Machine P) : Machine P :=
  { s with ci := { s.ci with base := frame.base + i.a } }

-- results are returned with their number, and not more than are wanted
def GoodReturn (i : Instruction) (s : Machine P) : Prop :=
  s.ci.numResults < 0 ∨ (i.b : Int) - 1 ≤ s.ci.numResults ∧ (0 < i.b ∨ s.ci.numResults = 0)

-- a tail call copies the function to the base, and the function is entered below the top as by any call
def TailAligned (host : Addr → Machine P → Except Stop (Machine P × Int)) (frame : Frame) (i : Instruction)
    (s : Machine P) : Prop :=
  match s.stack[frame.base + i.a]? with
  | some (.closure _) => s.top = frame.base + i.b ∨ (s.ci.numResults ≤ 0 ∧ frame.base + i.b ≤ s.top)
  | some (.cClosure a) => s.ci.numResults ≤ 0 ∧ (s.ci.base = 0 ∧ frame.base = 0 ∨ i.b = 1) ∧
      ∀ s s' n, host a s = .ok (s', n) → Below frame.base s s'
  | _ => True

def OwnUpvalue (frame : Frame) (i : Instruction) (s : Machine P) : Prop :=
  ∀ a j v link, upvalue frame i.b = some a → s.upvals[a]? = some ⟨some j, v, link⟩ → frame.base ≤ j

-- the run from `pc` and all the calls in it are aligned, and end in a return that fits its call
def GoodRun (host : Addr → Machine P → Except Stop (Machine P × Int)) : Nat → Frame → Machine P → Nat → Prop
  | 0, _, _, _ => True
  | fuel + 1, frame, s, pc =>
      match frame.code[pc]?.bind Instruction.ofWord with
      | none => s.ci.numResults ≤ 0
      | some i =>
          let onward := ∀ s' pc', exec (executeLua host fuel) host frame pc i s = .ok (.next s' pc') →
            GoodRun host fuel frame s' pc'
          match i.op with
          | .tforloop => False
          | .setupval => OwnUpvalue frame i s ∧ onward
          | .return => GoodReturn i s
          | .tailcall => 0 < i.b ∧ TailAligned host frame i s ∧ ∀ closure moved e entered,
              s.stack[frame.base + i.a]? = some (.closure closure) →
              copySlots s frame.base (frame.base + i.a) (i.b - 1 + 1) = .ok moved →
              enterLua closure (i.b - 1) moved.ci.numResults moved = .ok e →
              frameOf e = some entered → GoodRun host fuel entered e 0
          | .call => (0 < i.b ∧ Aligned host frame i s ∧ ∀ closure e entered,
              s.stack[frame.base + i.a]? = some (.closure closure) →
              enterLua closure (i.b - 1) (callResults i) (calling frame i s) = .ok e →
              frameOf e = some entered → GoodRun host fuel entered e 0) ∧ onward
          | _ => onward

-- the call is aligned, and so are all the calls in the function
def GoodCall (host : Addr → Machine P → Except Stop (Machine P × Int)) (fuel : Nat) (frame : Frame)
    (i : Instruction) (s : Machine P) : Prop :=
  0 < i.b ∧ Aligned host frame i s ∧ ∀ closure e entered, s.stack[frame.base + i.a]? = some (.closure closure) →
    enterLua closure (i.b - 1) (callResults i) (calling frame i s) = .ok e →
    frameOf e = some entered → GoodRun host fuel entered e 0

def GoodTail (host : Addr → Machine P → Except Stop (Machine P × Int)) (fuel : Nat) (frame : Frame)
    (i : Instruction) (s : Machine P) : Prop :=
  0 < i.b ∧ TailAligned host frame i s ∧ ∀ closure moved e entered,
    s.stack[frame.base + i.a]? = some (.closure closure) →
    copySlots s frame.base (frame.base + i.a) (i.b - 1 + 1) = .ok moved →
    enterLua closure (i.b - 1) moved.ci.numResults moved = .ok e →
    frameOf e = some entered → GoodRun host fuel entered e 0

theorem GoodRun.step {fuel : Nat} (good : GoodRun host (fuel + 1) frame s pc)
    (read : frame.code[pc]?.bind Instruction.ofWord = some i) :
    (i.op = .return ∧ GoodReturn i s) ∨ (i.op = .tailcall ∧ GoodTail host fuel frame i s) ∨
      ((Local i.op ∨ i.op = .setupval ∧ OwnUpvalue frame i s ∨ i.op = .call ∧ GoodCall host fuel frame i s) ∧
        ∀ s' pc', exec (executeLua host fuel) host frame pc i s = .ok (.next s' pc') →
          GoodRun host fuel frame s' pc') := by
  simp only [GoodRun, read] at good
  cases op : i.op
  all_goals simp only [op] at good
  case setupval => exact .inr (.inr ⟨.inr (.inl ⟨rfl, good.1⟩), good.2⟩)
  case call => exact .inr (.inr ⟨.inr (.inr ⟨rfl, good.1⟩), good.2⟩)
  case tailcall => exact .inr (.inl ⟨rfl, good⟩)
  all_goals first
    | exact .inr (.inr ⟨.inl trivial, good⟩)
    | exact .inl ⟨rfl, good⟩

theorem GoodRun.ofReturn {fuel : Nat} (good : GoodRun host (fuel + 1) frame s pc)
    (read : frame.code[pc]?.bind Instruction.ofWord = some i) (op : i.op = .return) : GoodReturn i s := by
  simpa only [GoodRun, read, op] using good

theorem GoodRun.ofTail {fuel : Nat} (good : GoodRun host (fuel + 1) frame s pc)
    (read : frame.code[pc]?.bind Instruction.ofWord = some i) (op : i.op = .tailcall) :
    GoodTail host fuel frame i s := by
  simp only [GoodRun, read, op] at good
  exact good

section Run

variable {fuel : Nat}

def afterwards (host : Addr → Machine P → Except Stop (Machine P × Int)) (fuel : Nat) (frame : Frame) :
    Flow P → Except Stop (Machine P)
  | .next s pc => loop host fuel frame s pc
  | .done s => .ok s

-- the inner calls of the loop are `executeLua` with less fuel
theorem loop_ok (h : loop host (fuel + 1) frame s pc = .ok t) : (frame.code[pc]? = none ∧ t = s) ∨
    ∃ i, frame.code[pc]?.bind Instruction.ofWord = some i ∧
      ∃ flow, exec (executeLua host fuel) host frame pc i s = .ok flow ∧ afterwards host fuel frame flow = .ok t := by
  unfold loop at h
  split at h
  · rename_i ends
    exact .inl ⟨ends, (Except.ok.inj h).symm⟩
  · rename_i word read
    split at h
    · cases h
    · rename_i i decoded
      obtain ⟨flow, executed, rest⟩ := bind_ok.mp h
      exact .inr ⟨i, by rw [read]; exact decoded, flow, executed, rest⟩

theorem loop_exec (read : frame.code[pc]?.bind Instruction.ofWord = some i) :
    loop host (fuel + 1) frame s pc =
      (exec (executeLua host fuel) host frame pc i s).bind (afterwards host fuel frame) := by
  obtain ⟨word, located, decoded⟩ := Option.bind_eq_some_iff.mp read
  rw [loop, located]
  dsimp only
  rw [decoded]
  rfl

end Run

theorem enterLua_spec {closure : Addr} {numArgs : Nat} {numResults : Int} {e : Machine P}
    (h : enterLua closure numArgs numResults s = .ok e) : numArgs + 1 ≤ s.top ∧ e.ci.numResults = numResults ∧
      e.ci.base = s.top - (numArgs + 1) ∧ e.stack.length = s.stack.length ∧
      (∀ j < s.top, e.stack[j]? = s.stack[j]?) ∧ ∃ c, frameOf e = some ⟨c, s.top - (numArgs + 1)⟩ := by
  unfold enterLua at h
  split at h
  · cases h
  · rename_i c found
    split at h
    · cases h
    · split at h
      · cases h
      · obtain ⟨entered, filled, rest⟩ := bind_ok.mp h
        have below := Below.setNils filled le_rfl
        obtain ⟨same, -⟩ := setNils_ok filled
        rw [← pure_ok.mp rest]
        have info : entered.ci = { func := .closure closure, base := s.top - numArgs - 1, numResults } := by
          rw [same]
        have heap : entered.closures = s.closures := by rw [same]
        refine ⟨by omega, below.wanted, ?_, below.length, below.slots, c, ?_⟩
        · dsimp only
          rw [info]
          dsimp only
          omega
        · simp only [frameOf, info, heap, found, Option.map_some, Nat.sub_sub]

section Calls

variable {fuel numArgs : Nat} {numResults : Int} {closure function : Addr}

-- what good runs of this length do, for the calls in longer ones
def RunKeeps (host : Addr → Machine P → Except Stop (Machine P × Int)) (fuel : Nat) : Prop :=
  ∀ low frame s t pc, loop host fuel frame s pc = .ok t → GoodRun host fuel frame s pc → low ≤ frame.base →
    (0 < s.ci.numResults → low < frame.base) → Below low s t

theorem callLua_below (keeps : RunKeeps host fuel)
    (h : callLua (executeLua host fuel) closure numArgs numResults s = .ok s')
    (good : ∀ e entered, enterLua closure numArgs numResults s = .ok e → frameOf e = some entered →
      GoodRun host fuel entered e 0)
    (le : low ≤ s.top - (numArgs + 1)) (lt : 0 < numResults → low < s.top - (numArgs + 1)) : Below low s s' := by
  obtain ⟨e, entering, rest⟩ := bind_ok.mp h
  obtain ⟨left, executed, rest⟩ := bind_ok.mp rest
  obtain ⟨room, wanted, base, length, slots, c, framed⟩ := enterLua_spec entering
  rw [executeLua, framed] at executed
  have below := keeps low _ e left 0 executed (good e _ entering framed) le (by rwa [wanted])
  rw [← pure_ok.mp rest]
  refine ⟨?_, below.length.trans length, rfl⟩
  intro j less
  exact (below.slots j less).trans (slots j (by omega))

theorem shift_below {start n : Nat} (h : shift s start n = .ok s') (none : n = 0 ∨ low = 0) : Below low s s' := by
  rcases none with rfl | rfl
  · cases h
    exact .refl _ _
  · induction n generalizing s' with
    | zero =>
        cases h
        exact .refl _ _
    | succ n ih =>
        obtain ⟨_, first, rest⟩ := bind_ok.mp h
        obtain ⟨_, -, set⟩ := bind_ok.mp rest
        exact (ih first).trans (.setSlot set (Nat.zero_le n))

theorem callC_below (h : callC host function numArgs s = .ok s') (none : numArgs = 0 ∨ low = 0)
    (keeps : ∀ s s' n, host function s = .ok (s', n) → Below low s s') : Below low s s' := by
  obtain ⟨shifted, shifts, rest⟩ := bind_ok.mp h
  obtain ⟨⟨left, n⟩, called, rest⟩ := bind_ok.mp rest
  have before := shift_below shifts none
  have after := keeps _ _ _ called
  rw [← pure_ok.mp rest]
  exact ⟨fun j less => (after.slots j less).trans (before.slots j less), after.length.trans before.length,
    after.wanted.trans before.wanted⟩

theorem copySlots_below {dst src n : Nat} (h : copySlots s dst src n = .ok s') : Below dst s s' := by
  induction n generalizing s' with
  | zero =>
      cases h
      exact .refl dst _
  | succ n ih =>
      obtain ⟨_, first, rest⟩ := bind_ok.mp h
      obtain ⟨_, -, set⟩ := bind_ok.mp rest
      exact (ih first).trans (.setSlot set (Nat.le_add_right _ _))

-- the top and the base of the call info stay as well
theorem copySlots_same {dst src n : Nat} (h : copySlots s dst src n = .ok s') :
    s' = { s with stack := s'.stack } := by
  induction n generalizing s' with
  | zero =>
      cases h
      rfl
  | succ n ih =>
      obtain ⟨copied, first, rest⟩ := bind_ok.mp h
      obtain ⟨_, -, set⟩ := bind_ok.mp rest
      have same := ih first
      obtain ⟨-, rfl⟩ := setSlot_ok set
      rw [same]

theorem exec_call (op : i.op = .call) (given : 0 < i.b) : exec execute host frame pc i s = (do
    let func ← s.slot (frame.base + i.a)
    let left ← callValue execute host func (i.b - 1) (callResults i) (calling frame i s)
    return .next { left with ci := { left.ci with base := frame.base } } (pc + 1)) := by
  simp only [exec, op, execCall, numArgs, if_pos given]
  rfl

theorem exec_tailcall (op : i.op = .tailcall) (given : 0 < i.b) : exec execute host frame pc i s = (do
    let func ← s.slot (frame.base + i.a)
    let moved ← copySlots s frame.base (frame.base + i.a) (i.b - 1 + 1)
    let left ← callValue execute host func (i.b - 1) moved.ci.numResults moved
    return .done left) := by
  simp only [exec, op, execTailcall, numArgs, if_pos given]
  rfl

theorem call_below (keeps : RunKeeps host fuel) (op : i.op = .call) (good : GoodCall host fuel frame i s) :
    Touches (Below (frame.base + i.a) s) (exec (executeLua host fuel) host frame pc i s) := by
  obtain ⟨given, aligned, runs⟩ := good
  rw [exec_call op given]
  refine .read fun func found => .read fun left called => .next (pc + 1) ?_
  have located := slot_ok found
  suffices below : Below (frame.base + i.a) s left from ⟨below.slots, below.length, below.wanted⟩
  simp only [Aligned, located] at aligned
  cases func with
  | closure a =>
      have below : Below (frame.base + i.a) _ left :=
        callLua_below keeps called (fun e entered => runs a e entered located) (by simp only [calling]; omega)
          (by simp only [calling, callResults]; split <;> omega)
      exact ⟨below.slots, below.length, below.wanted⟩
  | cClosure a =>
      have below := callC_below called (by omega) aligned.2.2
      exact ⟨below.slots, below.length, below.wanted⟩
  | _ => cases called

theorem tailcall_below {flow : Flow P} (keeps : RunKeeps host fuel) (op : i.op = .tailcall)
    (good : GoodTail host fuel frame i s)
    (h : exec (executeLua host fuel) host frame pc i s = .ok flow) (le : low ≤ frame.base)
    (lt : 0 < s.ci.numResults → low < frame.base) : ∃ t, flow = .done t ∧ Below low s t := by
  obtain ⟨given, aligned, runs⟩ := good
  rw [exec_tailcall op given] at h
  obtain ⟨func, found, rest⟩ := bind_ok.mp h
  obtain ⟨moved, copied, rest⟩ := bind_ok.mp rest
  obtain ⟨left, called, rest⟩ := bind_ok.mp rest
  have located := slot_ok found
  have before := (copySlots_below copied).mono le
  have same := copySlots_same copied
  have top : moved.top = s.top := by rw [same]
  have info : moved.ci = s.ci := by rw [same]
  rw [info] at called
  simp only [TailAligned, located] at aligned
  refine ⟨left, (pure_ok.mp rest).symm, before.trans ?_⟩
  cases func with
  | closure a =>
      refine callLua_below keeps called ?_ (by omega) (by omega)
      intro e entered
      rw [← info]
      exact runs a moved e entered located copied
  | cClosure a =>
      have none : i.b - 1 = 0 ∨ frame.base = 0 := by omega
      exact (callC_below called none aligned.2.2).mono le
  | _ => cases called

theorem setupval_below (op : i.op = .setupval) (own : OwnUpvalue frame i s) (le : low ≤ frame.base) :
    Touches (Below low s) (exec execute host frame pc i s) := by
  simp only [exec, op]
  split
  · rename_i a located
    refine .read fun v _ => .read fun s' set => .next _ ?_
    unfold setUpvalue at set
    split at set
    · rename_i j w link upvalue
      exact .setSlot set (le.trans (own a j w link located upvalue))
    · cases set
      exact ⟨fun _ _ => rfl, rfl, rfl⟩
    · cases set
  · exact .next _ (.refl low s)

theorem step_below (keeps : RunKeeps host fuel) (le : low ≤ frame.base)
    (kind : Local i.op ∨ i.op = .setupval ∧ OwnUpvalue frame i s ∨ i.op = .call ∧ GoodCall host fuel frame i s) :
    Touches (Below low s) (exec (executeLua host fuel) host frame pc i s) := by
  rcases kind with own | ⟨op, own⟩ | ⟨op, good⟩
  · exact exec_touches (Below.writable low s) own (.refl low s) le
  · exact setupval_below op own le
  · exact (call_below keeps op good).mono fun _ below => below.mono (le.trans (Nat.le_add_right _ _))

theorem exec_return (op : i.op = .return) : exec execute host frame pc i s = (do
    let t ← returnFrom s frame.base i.a i.b
    return .done t) := by
  simp only [exec, op]

-- by induction on the fuel; the functions that are called have less of it
theorem run_below (fuel : Nat) : RunKeeps host fuel := by
  induction fuel with
  | zero =>
      intro low frame s t pc h
      cases h
  | succ fuel ih =>
      intro low frame s t pc h good le lt
      rcases loop_ok h with ⟨-, rfl⟩ | ⟨i, read, flow, executed, rest⟩
      · exact .refl low t
      · rcases good.step read with ⟨op, -⟩ | ⟨op, good⟩ | ⟨kind, onward⟩
        · rw [exec_return op] at executed
          obtain ⟨left, returned, same⟩ := bind_ok.mp executed
          cases pure_ok.mp same
          cases rest
          exact returnFrom_below returned le lt
        · obtain ⟨left, rfl, below⟩ := tailcall_below ih op good executed le lt
          cases rest
          exact below
        · obtain ⟨s', pc', rfl, below⟩ := step_below ih le kind flow executed
          exact below.trans (ih low frame s' t pc' rest (onward s' pc' executed) le (by rwa [below.wanted]))

/-! ## The results of a function -/

-- the values of a return: `B - 1` registers, or those up to the top
def returned (frame : Frame) (i : Instruction) (s : Machine P) : List Value :=
  if i.b = 0 then (s.stack.take s.top).drop (frame.base + i.a)
  else (s.stack.drop (frame.base + i.a)).take (i.b - 1)

-- the last values that a C function has pushed
def pushed (s : Machine P) (n : Int) : List Value := (s.stack.take s.top).drop (s.top - n.toNat)

-- the run from `pc` ends, and these are the results of the function
inductive Returns (host : Addr → Machine P → Except Stop (Machine P × Int)) :
    Nat → Frame → Machine P → Nat → List Value → Prop
  | ends {fuel : Nat} {frame : Frame} {s : Machine P} {pc : Nat} (ended : frame.code[pc]? = none) :
      Returns host (fuel + 1) frame s pc []
  | return {fuel : Nat} {frame : Frame} {s : Machine P} {pc : Nat} {i : Instruction}
      (read : frame.code[pc]?.bind Instruction.ofWord = some i) (op : i.op = .return)
      (inside : frame.base + i.a + (i.b - 1) ≤ s.stack.length) :
      Returns host (fuel + 1) frame s pc (returned frame i s)
  | tailLua {fuel : Nat} {frame entered : Frame} {s moved e : Machine P} {pc : Nat} {i : Instruction} {closure : Addr}
      {vs : List Value} (read : frame.code[pc]?.bind Instruction.ofWord = some i) (op : i.op = .tailcall)
      (located : s.stack[frame.base + i.a]? = some (.closure closure))
      (copied : copySlots s frame.base (frame.base + i.a) (i.b - 1 + 1) = .ok moved)
      (entering : enterLua closure (i.b - 1) moved.ci.numResults moved = .ok e) (framed : frameOf e = some entered)
      (rest : Returns host fuel entered e 0 vs) : Returns host (fuel + 1) frame s pc vs
  | tailC {fuel : Nat} {frame : Frame} {s moved shifted left : Machine P} {pc : Nat} {i : Instruction} {a : Addr}
      {n : Int} (read : frame.code[pc]?.bind Instruction.ofWord = some i) (op : i.op = .tailcall)
      (located : s.stack[frame.base + i.a]? = some (.cClosure a))
      (copied : copySlots s frame.base (frame.base + i.a) (i.b - 1 + 1) = .ok moved)
      (shifts : shift moved (moved.ci.base + 1) (i.b - 1) = .ok shifted)
      (called : host a { shifted with top := i.b - 1 } = .ok (left, n)) :
      Returns host (fuel + 1) frame s pc (pushed left n)
  | next {fuel : Nat} {frame : Frame} {s s' : Machine P} {pc pc' : Nat} {i : Instruction} {vs : List Value}
      (read : frame.code[pc]?.bind Instruction.ofWord = some i)
      (executed : exec (executeLua host fuel) host frame pc i s = .ok (.next s' pc'))
      (rest : Returns host fuel frame s' pc' vs) : Returns host (fuel + 1) frame s pc vs

-- the registers from `start` on have the values that are wanted
def Delivered (start : Nat) (wanted : Int) (vs : List Value) (s : Machine P) : Prop :=
  ∀ k : Nat, (k : Int) < wanted → start + k < s.stack.length → s.stack[start + k]? = some (vs.getD k .nil)

theorem copyResults_returns {dst src n : Nat} (inside : src + n ≤ s.stack.length) :
    ∃ s', copyResults s dst src n = .ok s' := by
  induction n with
  | zero => exact ⟨s, rfl⟩
  | succ n ih =>
      obtain ⟨copied, first⟩ := ih (by omega)
      have length := (copyResults_below first).length
      rw [copyResults, first, ok_bind]
      split
      · rename_i room
        rw [Machine.slot, List.getElem?_eq_getElem (by omega)]
        exact ⟨_, if_pos room⟩
      · exact ⟨copied, rfl⟩

theorem return_delivers (good : GoodReturn i s) (inside : frame.base + i.a + (i.b - 1) ≤ s.stack.length) :
    ∃ t, returnFrom s frame.base i.a i.b = .ok t ∧
      (0 < frame.base → Delivered (frame.base - 1) s.ci.numResults (returned frame i s) t) := by
  have succeeds : ∃ t, returnFrom s frame.base i.a i.b = .ok t := by
    unfold returnFrom
    dsimp only
    split
    · split <;> exact ⟨_, rfl⟩
    · split
      · exact ⟨_, rfl⟩
      · obtain ⟨copied, first⟩ : ∃ s', copyResults s (frame.base - 1) (frame.base + i.a) (i.b - 1) = .ok s' :=
          copyResults_returns inside
        rw [if_neg (by unfold GoodReturn at good; omega), first]
        exact ⟨_, rfl⟩
  obtain ⟨t, h⟩ := succeeds
  refine ⟨t, h, ?_⟩
  intro positive k wanted room
  have below : Below 0 s t := returnFrom_below h (Nat.zero_le _) (fun _ => positive)
  have length := below.length
  have given : 0 < i.b := by unfold GoodReturn at good; omega
  have values : (returned frame i s)[k]? = if k < i.b - 1 then s.stack[frame.base + i.a + k]? else none := by
    rw [returned, if_neg (by omega), List.getElem?_take, List.getElem?_drop]
  rw [returnFrom_results h positive given wanted (by omega), List.getD_eq_getElem?_getD, values]
  split
  · rw [List.getElem?_eq_getElem (by omega)]
    rfl
  · rfl

theorem Delivered.of_none {start : Nat} {wanted : Int} {vs : List Value} (none : wanted ≤ 0) :
    Delivered start wanted vs s := by
  intro k less
  omega

theorem slot_of {j : Nat} {v : Value} (h : s.stack[j]? = some v) : s.slot j = .ok v := by
  rw [Machine.slot, h]

-- what is left of a call when the function ends
theorem callLua_of {e : Machine P} {entered : Frame}
    (entering : enterLua closure numArgs numResults s = .ok e) (framed : frameOf e = some entered)
    (ran : loop host fuel entered e 0 = .ok t) :
    callLua (executeLua host fuel) closure numArgs numResults s = .ok { t with ci := s.ci } := by
  rw [callLua, entering, ok_bind, executeLua, framed]
  dsimp only
  rw [ran]
  rfl

theorem callC_of {shifted left : Machine P} {n : Int} (shifts : shift s (s.ci.base + 1) numArgs = .ok shifted)
    (called : host function { shifted with top := numArgs } = .ok (left, n)) :
    callC host function numArgs s = .ok { left with top := n.toNat } := by
  rw [callC, shifts, ok_bind, called]
  rfl

theorem run_delivers {vs : List Value} (returns : Returns host fuel frame s pc vs)
    (good : GoodRun host fuel frame s pc) : ∃ t, loop host fuel frame s pc = .ok t ∧
      (0 < frame.base → Delivered (frame.base - 1) s.ci.numResults vs t) := by
  induction returns with
  | @ends fuel frame s pc ended =>
      refine ⟨s, by rw [loop, ended], ?_⟩
      simp only [GoodRun, ended, Option.bind_none] at good
      intro _
      exact .of_none good
  | @«return» fuel frame s pc i read op inside =>
      obtain ⟨t, returned, delivers⟩ := return_delivers (good.ofReturn read op) inside
      refine ⟨t, ?_, delivers⟩
      rw [loop_exec read, exec_return op, returned]
      rfl
  | @tailLua fuel frame entered s moved e pc i closure vs read op located copied entering framed rest ih =>
      obtain ⟨given, aligned, runs⟩ := good.ofTail read op
      obtain ⟨t, ran, delivers⟩ := ih (runs closure moved e entered located copied entering framed)
      have same := copySlots_same copied
      have top : moved.top = s.top := by rw [same]
      have info : moved.ci = s.ci := by rw [same]
      obtain ⟨-, wanted, -, -, -, c, found⟩ := enterLua_spec entering
      refine ⟨{ t with ci := moved.ci }, ?_, ?_⟩
      · rw [loop_exec read, exec_tailcall op given, slot_of located, ok_bind, copied, ok_bind]
        dsimp only [callValue]
        rw [callLua_of entering framed ran]
        rfl
      · intro positive
        simp only [TailAligned, located] at aligned
        rcases aligned with aligned | ⟨none, -⟩
        · obtain rfl := Option.some.inj (framed.symm.trans found)
          have base : moved.top - (i.b - 1 + 1) = frame.base := by omega
          simp only [base] at delivers
          rw [wanted, info] at delivers
          exact delivers positive
        · exact .of_none none
  | @tailC fuel frame s moved shifted left pc i a n read op located copied shifts called =>
      obtain ⟨given, aligned, -⟩ := good.ofTail read op
      refine ⟨{ left with top := n.toNat }, ?_, ?_⟩
      · rw [loop_exec read, exec_tailcall op given, slot_of located, ok_bind, copied, ok_bind]
        dsimp only [callValue]
        rw [callC_of shifts called]
        rfl
      · intro _
        simp only [TailAligned, located] at aligned
        exact .of_none aligned.1
  | @next fuel frame s s' pc pc' i vs read executed rest ih =>
      rcases good.step read with ⟨op, -⟩ | ⟨op, good⟩ | ⟨kind, onward⟩
      · rw [exec_return op] at executed
        obtain ⟨left, -, same⟩ := bind_ok.mp executed
        cases pure_ok.mp same
      · rw [exec_tailcall op good.1] at executed
        obtain ⟨func, -, more⟩ := bind_ok.mp executed
        obtain ⟨moved, -, more⟩ := bind_ok.mp more
        obtain ⟨left, -, same⟩ := bind_ok.mp more
        cases pure_ok.mp same
      · obtain ⟨_, _, same, below⟩ := step_below (run_below fuel) (Nat.zero_le _) kind _ executed
        cases same
        obtain ⟨t, ran, delivers⟩ := ih (onward s' pc' executed)
        refine ⟨t, ?_, ?_⟩
        · rw [loop_exec read, executed]
          exact ran
        · rwa [← below.wanted]

/-! ## The protocol -/

-- the registers below the called one stay, and those from it on have the wanted results
structure Completes (execute : Machine P → Except Stop (Machine P))
    (host : Addr → Machine P → Except Stop (Machine P × Int)) (frame : Frame) (pc : Nat) (i : Instruction)
    (s : Machine P) (vs : List Value) (s' : Machine P) : Prop where
  executed : exec execute host frame pc i s = .ok (.next s' (pc + 1))
  kept : ∀ r < i.a, s'.stack[frame.base + r]? = s.stack[frame.base + r]?
  results : 0 < i.c → ∀ k < i.c - 1, frame.base + i.a + k < s.stack.length →
    s'.stack[frame.base + i.a + k]? = some (vs.getD k .nil)

structure CallProtocol (host : Addr → Machine P → Except Stop (Machine P × Int)) (fuel : Nat) (frame : Frame)
    (pc : Nat) (i : Instruction) (s : Machine P) : Prop where
  lua : ∀ closure e entered vs, s.stack[frame.base + i.a]? = some (.closure closure) →
    enterLua closure (i.b - 1) (callResults i) (calling frame i s) = .ok e → frameOf e = some entered →
    Returns host fuel entered e 0 vs →
      (∀ r < i.b - 1, e.stack[entered.base + r]? = s.stack[frame.base + i.a + 1 + r]?) ∧
      ∃ s', Completes (executeLua host fuel) host frame pc i s vs s'
  -- the index 1 of a C function is the slot 0
  c : ∀ a e left n, s.stack[frame.base + i.a]? = some (.cClosure a) →
    shift (calling frame i s) (frame.base + i.a + 1) (i.b - 1) = .ok e →
    host a { e with top := i.b - 1 } = .ok (left, n) →
      (∀ r < i.b - 1, e.stack[r]? = s.stack[frame.base + i.a + 1 + r]?) ∧
      ∃ s', Completes (executeLua host fuel) host frame pc i s (pushed left n) s'

theorem shift_shifts {start n : Nat} (h : shift s start n = .ok s') :
    ∀ j, s'.stack[j]? = if j < n then s.stack[start + j]? else s.stack[j]? := by
  induction n generalizing s' with
  | zero =>
      cases h
      exact fun j => rfl
  | succ n ih =>
      obtain ⟨shifted, first, rest⟩ := bind_ok.mp h
      obtain ⟨v, found, set⟩ := bind_ok.mp rest
      obtain ⟨inside, rfl⟩ := setSlot_ok set
      have slots := ih first
      have value : s.stack[start + n]? = some v := by
        have here := slots (start + n)
        rw [if_neg (by omega), slot_ok found] at here
        exact here.symm
      intro j
      rw [List.getElem?_set]
      by_cases last : n = j
      · subst last
        rw [if_pos rfl, if_pos inside, if_pos (Nat.lt_succ_self n), value]
      · rw [if_neg last, slots j]
        exact if_congr (by omega) rfl rfl

theorem call_lua_protocol {e : Machine P} {entered : Frame} {vs : List Value} (op : i.op = .call)
    (good : GoodCall host fuel frame i s) (located : s.stack[frame.base + i.a]? = some (.closure closure))
    (entering : enterLua closure (i.b - 1) (callResults i) (calling frame i s) = .ok e)
    (framed : frameOf e = some entered) (returns : Returns host fuel entered e 0 vs) :
    (∀ r < i.b - 1, e.stack[entered.base + r]? = s.stack[frame.base + i.a + 1 + r]?) ∧
      ∃ s', Completes (executeLua host fuel) host frame pc i s vs s' := by
  have touches : Touches (Below (frame.base + i.a) s) (exec (executeLua host fuel) host frame pc i s) :=
    call_below (run_below fuel) op good
  obtain ⟨given, aligned, runs⟩ := good
  obtain ⟨room, wanted, -, length, slots, c, found⟩ := enterLua_spec entering
  obtain rfl := Option.some.inj (framed.symm.trans found)
  simp only [Aligned, located] at aligned
  have base : 1 < i.b ∨ 1 < i.c → s.top - (i.b - 1 + 1) = frame.base + i.a + 1 := by omega
  constructor
  · intro r less
    have below : (calling frame i s).top - (i.b - 1 + 1) + r < (calling frame i s).top := by omega
    rw [slots _ below]
    show s.stack[s.top - (i.b - 1 + 1) + r]? = _
    rw [base (by omega)]
  · obtain ⟨t, ran, delivers⟩ := run_delivers returns (runs closure e _ located entering framed)
    have executed : exec (executeLua host fuel) host frame pc i s =
        .ok (.next { t with ci := { s.ci with base := frame.base } } (pc + 1)) := by
      rw [exec_call op given, slot_of located, ok_bind]
      dsimp only [callValue]
      rw [callLua_of entering framed ran]
      rfl
    obtain ⟨_, _, same, below⟩ := touches _ executed
    cases same
    refine ⟨_, executed, fun r less => below.slots _ (by omega), ?_⟩
    intro wants k less inside
    have at_base : (calling frame i s).top - (i.b - 1 + 1) = frame.base + i.a + 1 := base (by omega)
    rw [at_base, wanted, callResults, if_pos wants] at delivers
    exact delivers (Nat.succ_pos _) k (by omega) (by rw [← below.length] at inside; exact inside)

theorem call_c_protocol {e left : Machine P} {n : Int} (op : i.op = .call) (good : GoodCall host fuel frame i s)
    (located : s.stack[frame.base + i.a]? = some (.cClosure function))
    (shifts : shift (calling frame i s) (frame.base + i.a + 1) (i.b - 1) = .ok e)
    (called : host function { e with top := i.b - 1 } = .ok (left, n)) :
    (∀ r < i.b - 1, e.stack[r]? = s.stack[frame.base + i.a + 1 + r]?) ∧
      ∃ s', Completes (executeLua host fuel) host frame pc i s (pushed left n) s' := by
  have touches : Touches (Below (frame.base + i.a) s) (exec (executeLua host fuel) host frame pc i s) :=
    call_below (run_below fuel) op good
  obtain ⟨given, aligned, -⟩ := good
  simp only [Aligned, located] at aligned
  constructor
  · intro r less
    rw [shift_shifts shifts r, if_pos less]
    rfl
  · have executed : exec (executeLua host fuel) host frame pc i s =
        .ok (.next { left with top := n.toNat, ci := { left.ci with base := frame.base } } (pc + 1)) := by
      rw [exec_call op given, slot_of located, ok_bind]
      dsimp only [callValue]
      rw [callC_of shifts called]
      rfl
    obtain ⟨_, _, same, below⟩ := touches _ executed
    cases same
    refine ⟨_, executed, fun r less => below.slots _ (by omega), ?_⟩
    intro wants k less
    omega

end Calls

-- a function that returns its parameter
def identity : Closure where
  proto := { code := [Instruction.word ⟨.return, 0, 2, 0⟩], numParams := 1, maxStackSize := 2 }

-- `local x = f(0)`, with `f` in the register 0
def identityCall : Instruction := ⟨.call, 0, 2, 2⟩

def identityFrame : Frame where
  closure := { proto := { code := [identityCall.word, Instruction.word ⟨.return, 0, 1, 0⟩], maxStackSize := 2 } }
  base := 0

def identityMachine (top : Nat) : Machine Platform.plain where
  stack := [.closure 0, .number ⟨0⟩, .nil, .nil, .nil, .nil]
  top
  globals := 0
  tables := [Table.init _]
  closures := [identity]

def noHost (_ : Addr) (_ : Machine Platform.plain) : Except Stop (Machine Platform.plain × Int) := .error .panic

-- the state in which the function is entered, with one register below the top for each of its own
def identityEntered (top base : Nat) : Machine Platform.plain :=
  { identityMachine (max top (base + 2)) with ci := { func := .closure 0, base, numResults := 1 } }

theorem identity_entered : enterLua 0 1 1 (calling identityFrame identityCall (identityMachine 2)) =
      .ok (identityEntered 2 0) ∧
    enterLua 0 1 1 (calling identityFrame identityCall (identityMachine 3)) = .ok (identityEntered 3 1) :=
  ⟨rfl, rfl⟩

theorem identity_reads (base : Nat) : (Frame.code ⟨identity, base⟩)[0]?.bind Instruction.ofWord =
    some ⟨.return, 0, 2, 0⟩ := by
  have decoded : Instruction.ofWord (Instruction.word ⟨.return, 0, 2, 0⟩) = some ⟨.return, 0, 2, 0⟩ := by decide
  exact decoded

theorem identity_good : GoodCall noHost 1 identityFrame identityCall (identityMachine 3) := by
  refine ⟨by decide, .inl rfl, ?_⟩
  intro closure e entered located entering framed
  cases located
  obtain rfl := Except.ok.inj (identity_entered.2.symm.trans entering)
  obtain rfl : ⟨identity, 1⟩ = entered := Option.some.inj framed
  rw [GoodRun, identity_reads 1]
  exact .inr ⟨by decide, .inl (by decide)⟩

end Zua.Vm
