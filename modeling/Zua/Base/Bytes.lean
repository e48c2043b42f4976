import Mathlib.Tactic

/-!
# Reading bytes back

A reader takes a prefix of its input. `Reads x bytes a` says that `x` takes exactly `bytes` and returns
`a`, whatever follows; readers in sequence take what they take one after the other.
-/

namespace Zua

def Reader (α : Type) := StateT (List UInt8) (Except String) α

instance : Monad Reader := inferInstanceAs (Monad (StateT (List UInt8) (Except String)))

namespace Reader

variable {α β : Type} {x : Reader α} {f : α → Reader β} {bytes more : List UInt8} {a : α} {b : β}

def fail (why : String) : Reader α := fun _ => .error why

-- `size` bytes, or `why` when the input is too short
def block (why : String) (size : Nat) : Reader (List UInt8) := fun input =>
  if input.length < size then .error why else .ok (input.take size, input.drop size)

def times (x : Reader α) : Nat → Reader (List α)
  | 0 => pure []
  | n + 1 => do
      let a ← x
      let rest ← times x n
      return a :: rest

end Reader

def Reads {α : Type} (x : Reader α) (bytes : List UInt8) (a : α) : Prop :=
  ∀ rest, x (bytes ++ rest) = .ok (a, rest)

namespace Reads

variable {α β : Type} {x : Reader α} {f : α → Reader β} {bytes more : List UInt8} {a : α} {b : β}

theorem pure (a : α) : Reads (Pure.pure a) [] a := fun _ => rfl

theorem bind (first : Reads x bytes a) (second : Reads (f a) more b) :
    Reads (x >>= f) (bytes ++ more) b := by
  intro rest
  have step : (x >>= f) (bytes ++ more ++ rest) =
      (x (bytes ++ more ++ rest)).bind fun result => f result.1 result.2 := rfl
  rw [step, List.append_assoc, first]
  exact second rest

theorem map (first : Reads x bytes a) (g : α → β) : Reads (do let a ← x; return g a) bytes (g a) := by
  simpa using first.bind (f := fun a => Pure.pure (g a)) (Reads.pure (g a))

theorem block (why : String) (bytes : List UInt8) :
    Reads (Reader.block why bytes.length) bytes bytes := by
  intro rest
  simp [Reader.block]

theorem times {write : α → List UInt8} {l : List α} (each : ∀ a ∈ l, Reads x (write a) a) :
    Reads (x.times l.length) (l.flatMap write) l := by
  induction l with
  | nil => exact Reads.pure []
  | cons a l ih =>
      have rest := ih fun b member => each b (List.mem_cons_of_mem _ member)
      exact (each a List.mem_cons_self).bind (rest.map (a :: ·))

-- what a reader takes and returns is determined by the bytes
theorem unique {a' : α} (first : Reads x bytes a) (second : Reads x bytes a') : a = a' := by
  have same := (first []).symm.trans (second [])
  simpa using same

end Reads

/-! ## Integers of a fixed width -/

def littleBytes : Nat → Nat → List UInt8
  | 0, _ => []
  | width + 1, n => UInt8.ofNat n :: littleBytes width (n / 256)

def ofLittleBytes : List UInt8 → Nat
  | [] => 0
  | b :: rest => b.toNat + 256 * ofLittleBytes rest

@[simp]
theorem littleBytes_length (width n : Nat) : (littleBytes width n).length = width := by
  induction width generalizing n with
  | zero => rfl
  | succ width ih => simp [littleBytes, ih]

theorem ofLittleBytes_littleBytes (width n : Nat) (fits : n < 256 ^ width) :
    ofLittleBytes (littleBytes width n) = n := by
  induction width generalizing n with
  | zero => simp_all [littleBytes, ofLittleBytes]
  | succ width ih =>
      have quotient : n / 256 < 256 ^ width := by
        rw [Nat.div_lt_iff_lt_mul (by norm_num), ← Nat.pow_succ]
        exact fits
      rw [littleBytes, ofLittleBytes, ih _ quotient, UInt8.toNat_ofNat']
      omega

-- the bytes of an integer in memory, in the byte order of the machine
def nativeBytes (little : Bool) (width n : Nat) : List UInt8 :=
  if little then littleBytes width n else (littleBytes width n).reverse

def ofNativeBytes (little : Bool) (bytes : List UInt8) : Nat :=
  if little then ofLittleBytes bytes else ofLittleBytes bytes.reverse

@[simp]
theorem nativeBytes_length (little : Bool) (width n : Nat) : (nativeBytes little width n).length = width := by
  unfold nativeBytes
  split <;> simp

theorem ofNativeBytes_nativeBytes (little : Bool) {width n : Nat} (fits : n < 256 ^ width) :
    ofNativeBytes little (nativeBytes little width n) = n := by
  cases little <;> simp [ofNativeBytes, nativeBytes, ofLittleBytes_littleBytes width n fits]

end Zua
