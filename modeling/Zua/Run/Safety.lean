import Zua.Compile.Straight
import Zua.Run.Chunks
import Zua.Vm.Verified

/-!
# Runs of compiled code

What the compiler has promised of straight-line code and what the verifier says of a run are put together: every
place that a run comes to is an instruction of the function, with its operands inside the frame.
-/

namespace Zua.Run
open Code Syntax Compile Vm

variable {P : Platform} {env : Env} {f : Function} {fs : Func} {pc : Nat} {i : Instruction}

/-! ## The words of a compiled chunk -/

-- the words of the function are the ones that were emitted, and a return is the last
structure Compiled (f : Function) (fs : Func) : Prop where
  coded : Coded none fs
  code : f.code = fs.code.map Word.encode
  accepted : f.checkcode = .ok ()
  last : ∃ words, fs.code = words ++ [.instr returning]

theorem genChunk_sound (env : Env) (breakList : Option (List Nat)) {body : List Node}
    (straight : body.all Compile.isStatement = true) :
    Sat (fun _ => True) (genChunk env (.chunk body)) { breakList } fun _ c =>
      Sound c.func ∧ ∃ words, c.func.code = words ++ [.instr returning] := by
  have empty : Coded none ({} : Func) := by
    constructor
    · rintro index i ⟨⟩
    · rintro index n ⟨⟩
  have sound : Sound {} := ⟨empty, Nat.zero_le _, rfl⟩
  refine Sat.bind ((genStatements_sound body straight _ sound rfl (Nat.zero_le _)).mono ?_)
  rintro _ c ⟨sound, upper⟩
  have removed : Sat (fun _ => True) Func.removevars c.func fun _ fs => fs = { c.func with numActiveLocalVars := 0 } := by
    refine Sat.bind (Sat.get ?_)
    dsimp only
    split
    · exact Sat.set rfl
    · trivial
  refine Sat.bind (sat_onFunc (removed.mono ?_))
  rintro _ fs rfl
  have kept : Sound { c.func with numActiveLocalVars := 0 } := sound.keep rfl rfl rfl rfl
  have two := c.func.two_le_registers
  have returned : Compile.Ends (Func.emitReturn 0 (some 0)) _ _ :=
    Func.emitReturn_ends (kept.stable (Nat.zero_le _) upper) (by dsimp only; omega) (Nat.zero_le _)
  have emitted (fs : Func) : Sat (fun _ => True) (Func.emitReturn 0 (some 0)) fs fun _ fs' =>
      fs'.code = fs.code ++ [.instr returning] := Sat.bind (Sat.get (Sat.bind (Sat.set (Sat.pure rfl))))
  refine Sat.bind (sat_onFunc (Sat.mono (returned.and (emitted _)) ?_))
  rintro _ fs ⟨⟨grows, -, stable⟩, code⟩
  exact Sat.pure ⟨⟨stable.coded, stable.limit, grows.varargs.trans sound.varargs⟩, _, code⟩

theorem compileTree_compiled {breakList : Option (List Nat)} {body : List Node}
    (straight : body.all Compile.isStatement = true) (compiled : compileTree env breakList (.chunk body) = .ok f) :
    ∃ fs, Compiled f fs := by
  obtain ⟨⟨_, c⟩, ran, rest⟩ := bind_ok.mp compiled
  have generated := genChunk_sound env breakList straight
  unfold Sat at generated
  rw [ran] at generated
  obtain ⟨sound, words, last⟩ := generated
  obtain rfl := pure_ok.mp rest
  refine ⟨c.func, sound.coded, rfl, ?_, words, last⟩
  refine checkcode_ok sound.coded rfl ?_ rfl rfl sound.varargs (by rw [last]; simp)
  have below : c.func.maxStackSize.val < 250 := c.func.maxStackSize.lt
  simp only [Function.maxStack, UInt8.toNat_ofNat']
  rw [Nat.mod_eq_of_lt (by omega)]

theorem fine_straightLine {registers : Nat} {constants : List Memory.Constant} (fine : Fine registers constants i) :
    StraightLine i.op := by
  have operands := fine.operands
  rcases i with ⟨op, a, b, c⟩
  cases op <;> trivial

namespace Compiled

variable (compiled : Compiled f fs)
include compiled

theorem fine (there : fs.code[pc]? = some (.instr i)) : Fine fs.maxStackSize.val fs.constants i :=
  (compiled.coded.instrs pc i there (Option.some_ne_none _).symm).1

theorem complete (there : fs.code[pc]? = some (.instr i)) : Complete fs.code pc i :=
  (compiled.coded.instrs pc i there (Option.some_ne_none _).symm).2

-- a word that is read as an instruction was emitted as one
theorem not_batch (position : Function.Position f pc) : ∀ n, fs.code[pc]? ≠ some (.batch n) := by
  induction position with
  | first =>
      intro n found
      obtain ⟨before, -, same, -⟩ := compiled.coded.batches 0 n found
      omega
  | @after pc w i _ word decoded ih =>
      intro n found
      rw [compiled.code, List.getElem?_map] at word
      obtain ⟨emitted, there, rfl⟩ := Option.map_eq_some_iff.mp word
      cases emitted with
      | batch m => exact ih m there
      | instr j =>
          have same : some j = some i := (Instruction.ofWord_word (compiled.fine there).fits).symm.trans decoded
          obtain rfl := Option.some.inj same
          obtain ⟨before, k, place, located, long⟩ := compiled.coded.batches _ n found
          cases batch : Function.takesBatch j with
          | true =>
              obtain ⟨m, next⟩ := (compiled.complete there).batch batch
              rw [Function.width, if_pos batch] at place
              obtain rfl : pc + 1 = before := by omega
              rw [next] at located
              cases located
          | false =>
              rw [Function.width, if_neg (by simp [batch])] at place
              obtain rfl : pc = before := by omega
              rw [there] at located
              cases located
              rw [batch] at long
              cases long

theorem located (position : Function.Position f pc) (inside : pc < fs.code.length) :
    ∃ w i, fs.code[pc]? = some (.instr i) ∧ f.code[pc]? = some w ∧ Instruction.ofWord w = some i := by
  have there := List.getElem?_eq_getElem inside
  cases word : fs.code[pc] with
  | batch n =>
      rw [word] at there
      exact absurd there (compiled.not_batch position n)
  | instr i =>
      rw [word] at there
      refine ⟨Instruction.word i, i, there, ?_, Instruction.ofWord_word (compiled.fine there).fits⟩
      rw [compiled.code, List.getElem?_map, there]
      rfl

theorem emitted (position : Function.Position f pc) {w : UInt32} (word : f.code[pc]? = some w)
    (decoded : Instruction.ofWord w = some i) : fs.code[pc]? = some (.instr i) := by
  have inside := (List.getElem?_eq_some_iff.mp word).1
  rw [compiled.code, List.length_map] at inside
  obtain ⟨w', i', there, word', decoded'⟩ := compiled.located position inside
  rw [word] at word'
  cases word'
  rw [decoded] at decoded'
  cases decoded'
  exact there

theorem line : OnlyStraightLine f := fun _ _ _ position word decoded =>
  fine_straightLine (compiled.fine (compiled.emitted position word decoded))

-- the code ends with a return, behind which no step leads
theorem step_inside (there : fs.code[pc]? = some (.instr i)) {execute : Machine P → Except Vm.Stop (Machine P)}
    {host : Object.Addr → Machine P → Except Vm.Stop (Machine P × Int)} {frame : Frame} {s s' : Machine P} {pc' : Nat}
    (step : exec execute host frame pc i s = .ok (.next s' pc')) : pc' < fs.code.length := by
  obtain ⟨words, last⟩ := compiled.last
  have length : fs.code.length = words.length + 1 := by rw [last, List.length_append]; rfl
  have end' : fs.code[words.length]? = some (.instr returning) := by rw [last, List.getElem?_concat_length]
  have inside := (List.getElem?_eq_some_iff.mp there).1
  rcases exec_next (fine_straightLine (compiled.fine there)) step with ⟨-, rfl⟩ | ⟨loads, skips, -⟩ | ⟨batch, rfl⟩
  · by_contra past
    obtain rfl : pc = words.length := by omega
    rw [end'] at there
    cases there
    obtain ⟨left, -, done⟩ := bind_ok.mp step
    cases done
  · have operands := (compiled.fine there).operands
    rw [FineOperands, loads] at operands
    exact absurd operands skips
  · obtain ⟨n, next⟩ := (compiled.complete there).batch batch
    have inside' := (List.getElem?_eq_some_iff.mp next).1
    by_contra past
    have same : words.length = pc + 1 := by omega
    rw [same, next] at end'
    cases end'

/-! ## Runs -/

theorem visits_inside {frame : Frame} (proto : frame.closure.proto = f) {initial s : Machine P}
    (visits : Visits frame initial s pc) : pc < fs.code.length := by
  subst proto
  cases visits with
  | start =>
      obtain ⟨words, last⟩ := compiled.last
      rw [last, List.length_append]
      exact Nat.succ_pos _
  | step before word decoded step =>
      exact compiled.step_inside (compiled.emitted (visits_position compiled.accepted compiled.line before) word decoded) step

end Compiled

-- its operands are inside the frame, and the values that an open call leaves are taken by the next instruction
structure Safe (f : Function) (pc : Nat) (i : Instruction) : Prop where
  registers : ∀ r ∈ registers i, r < f.maxStack
  constants : ∀ k ∈ constantIndices i, k < f.constants.length
  consumed : opens i = true →
    ∃ w next, f.code[pc + 1]? = some w ∧ Instruction.ofWord w = some next ∧ consumes next = true

end Zua.Run
