import Zua.Vm.Loads

/-!
# Paths through the code

How the machine comes from one place of the code to another, with as much fuel as that takes.
-/

namespace Zua.Vm
open Code Object

variable {P : Platform} {host : Addr → Machine P → Except Stop (Machine P × Int)} {frame : Frame}
  {s s' t : Machine P} {pc mid target : Nat} {i : Instruction}

-- from `pc` on the machine comes to `target` with the result, or stops with its error
def Leads (host : Addr → Machine P → Except Stop (Machine P × Int)) (frame : Frame) (s : Machine P) (pc target : Nat)
    (result : Except Stop (Machine P)) : Prop :=
  ∃ n, ∀ fuel, loop host (n + fuel) frame s pc = (do
    let s ← result
    loop host fuel frame s target)

namespace Leads

theorem refl (s : Machine P) (pc : Nat) : Leads host frame s pc pc (.ok s) := by
  refine ⟨0, fun fuel => ?_⟩
  rw [Nat.zero_add, ok_bind]

theorem bind {result : Except Stop (Machine P)} {f : Machine P → Except Stop (Machine P)}
    (first : Leads host frame s pc mid result)
    (rest : ∀ s', result = .ok s' → Leads host frame s' mid target (f s')) :
    Leads host frame s pc target (do let s ← result; f s) := by
  obtain ⟨n, run⟩ := first
  cases result with
  | error e => exact ⟨n, run⟩
  | ok s' =>
      obtain ⟨m, run'⟩ := rest s' rfl
      refine ⟨n + m, fun fuel => ?_⟩
      rw [Nat.add_assoc, run (m + fuel), ok_bind]
      exact run' fuel

theorem trans {result : Except Stop (Machine P)} (first : Leads host frame s pc mid (.ok s'))
    (rest : Leads host frame s' mid target result) : Leads host frame s pc target result := by
  refine bind (f := fun _ => result) first ?_
  rintro _ ⟨⟩
  exact rest

theorem fails {e : Stop} (first : Leads host frame s pc mid (.error e)) : Leads host frame s pc target (.error e) := first

-- one instruction
theorem exec {result : Except Stop (Machine P)} (read : frame.code[pc]?.bind Instruction.ofWord = some i)
    (effect : ∀ execute, Vm.exec execute host frame pc i s = (do
      let s ← result
      return .next s target)) : Leads host frame s pc target result := by
  refine ⟨1, fun fuel => ?_⟩
  rw [Nat.add_comm, loop_exec read, effect]
  cases result <;> rfl

theorem loads {is : List Instruction} (located : Located frame pc is) (loads : ∀ i ∈ is, IsLoad frame.constants i) :
    Leads host frame s pc (pc + is.length) (runs frame is s) := ⟨is.length, fun fuel => loop_runs located loads fuel⟩

end Leads

theorem Located.append {is js : List Instruction} (h : Located frame pc (is ++ js)) :
    Located frame pc is ∧ Located frame (pc + is.length) js := by
  obtain ⟨more, same⟩ := h
  rw [List.map_append, List.append_assoc] at same
  refine ⟨⟨_, same⟩, more, ?_⟩
  rw [← List.drop_drop, ← same, List.drop_left' (List.length_map _)]

theorem Located.read {is : List Instruction} (h : Located frame pc (i :: is)) (fits : i.Fits) :
    frame.code[pc]?.bind Instruction.ofWord = some i := by
  rw [h.head]
  exact Instruction.ofWord_word fits

end Zua.Vm
