import Zua.Memory.Runs
import Zua.Memory.Trace

/-!
# The string pool

`internString` keeps a pointer to every string it makes under the hash of its bytes. The collector does
not know the pool: it neither marks its strings nor removes those that it frees.
-/

namespace Zua.Memory
open Object
open scoped Classical

structure PoolState where
  lua : LuaState
  pool : List (UInt64 × Str) := []

inductive PoolAction
  | lua (action : Action)
  | intern (text : List UInt8)

namespace PoolState

variable (P : Platform) (fuel : Nat) (hash : List UInt8 → UInt64)

def poolGet (s : PoolState) (h : UInt64) : Option Str := s.pool.lookup h

def poolPut (s : PoolState) (h : UInt64) (str : Str) : PoolState :=
  { s with pool := (h, str) :: s.pool.filter (·.1 != h) }

-- `String.initWithGC` and the entry for the new string
def create (s : PoolState) (text : List UInt8) : Except Fault (PoolState × Str) := do
  let str : Str := ⟨s.lua.heap.cells.length, hash text, text⟩
  let gc ← { s.lua.gc with heap := (s.lua.heap.create (.string str)).1 }.addObject P fuel str.addr
  .ok ({ s with lua := { s.lua with gc } }.poolPut (hash text) str, str)

def internString (s : PoolState) (text : List UInt8) : Except Fault (PoolState × Str) :=
  match s.poolGet (hash text) with
  | some str =>
      match s.lua.heap.get str.addr with
      | none => .error .useAfterFree
      | some _ => if str.data = text then .ok (s, str) else s.create P fuel hash text
  | none => s.create P fuel hash text

def act (s : PoolState) : PoolAction → Except Fault PoolState
  | .lua action => do
      let lua ← s.lua.act P fuel action
      .ok { s with lua }
  | .intern text => do
      let (s, _) ← s.internString P fuel hash text
      .ok s

/-! ## The condition -/

-- the text is in the pool, under its hash
def Interned (s : PoolState) (text : List UInt8) : Prop :=
  ∃ str, s.poolGet (hash text) = some str ∧ str.data = text

def Permitted (s : PoolState) : PoolAction → Prop
  | .lua .collect => ∀ entry ∈ s.pool, s.lua.Rooted entry.2.addr
  | .lua (.link a) => ¬s.lua.OnList a ∧ a ∉ s.lua.heap.marked
  | .lua _ => True
  | .intern text => s.Interned hash text ∨ s.lua.gc.numObjects < s.lua.gc.threshold

inductive Run (ok : PoolState → PoolAction → Prop) : PoolState → Prop
  | init {lua : LuaState} : LuaState.init P = .ok lua → Run ok { lua }
  | act {s s' : PoolState} {n : Nat} (action : PoolAction) : Run ok s → ok s action →
      2 * s.lua.heap.cells.length + 2 < n → s.act P n hash action = .ok s' → Run ok s'

-- every string of the pool is on the list
def PoolListed (s : PoolState) : Prop := ∀ entry ∈ s.pool, s.lua.OnList entry.2.addr

/-! ## The invariant -/

variable {P fuel hash} {s s' : PoolState} {l : List Addr} {text : List UInt8} {str : Str}

structure Held (s : PoolState) (l : List Addr) : Prop where
  inv : LuaState.Inv s.lua l
  pool : ∀ entry ∈ s.pool, entry.2.addr ∈ l

theorem Held.listed (held : Held s l) : s.PoolListed :=
  fun entry member => held.inv.toCore.onList (held.pool entry member)

-- a collection that returned did what it does to reachable and unreachable objects
theorem collected {lua : LuaState} {gc : GC} (inv : LuaState.Inv lua l) (enough : lua.heap.cells.length ≤ fuel)
    (run : lua.gc.collect P fuel = .ok gc) : Collected lua.gc gc l := by
  have main {h : Heap} (same : Remarked lua.heap h) (roots : lua.gc.start l ⊆ h.marked) :
      (h.dead l).flatMap h.tables = [] := by
    apply List.flatMap_eq_nil_iff.mpr
    intro x dead
    unfold Heap.tables
    cases found : h.thread? x with
    | none => rfl
    | some t =>
        have thread := inv.threads x t ((same.thread x).symm.trans found)
        have marked : x ∈ h.marked := by
          apply roots
          rw [LuaState.start_eq inv.toCore]
          exact .inr (.inr thread)
        simp [Heap.dead, marked] at dead
  have owned (h : Heap) (same : Remarked lua.heap h) (roots : lua.gc.start l ⊆ h.marked) :
      Owned h (h.dead l) l := by
    have none := main same roots
    refine ⟨by rw [none]; exact List.nodup_nil, fun x dead a table => ?_, fun x dead a table => ?_⟩
    all_goals
      have member := List.mem_flatMap.mpr ⟨x, dead, table⟩
      rw [none] at member
      cases member
  obtain ⟨h, kept⟩ := collect_kept inv.listed inv.count owned ((linked_length inv.listed).trans enough) run
  have exact := kept.marks.exact (L := {a | a ∈ l}) inv.unmarked
    (fun x y _ outside edge _ => (inv.outward x y outside edge).elim)
  have survivors : h.survivors l = lua.gc.reachable l := by
    apply List.filter_congr
    intro a member
    exact decide_eq_decide.mpr (exact a member)
  have freed (a : Addr) : h.Freed l a ↔ a ∈ lua.gc.garbage l := by
    constructor
    · rintro ⟨x, member, unmarked, rfl | table⟩
      · exact mem_garbage.mpr ⟨member, fun reached => unmarked ((exact a member).mpr reached)⟩
      · have dead : x ∈ h.dead l := by simp [Heap.dead, member, unmarked]
        have inside := List.mem_flatMap.mpr ⟨x, dead, table⟩
        rw [main kept.same kept.marks.roots] at inside
        cases inside
    · intro garbage
      obtain ⟨member, unreached⟩ := mem_garbage.mp garbage
      exact ⟨a, member, fun marked => unreached ((exact a member).mp marked), .inl rfl⟩
  refine ⟨?_, ?_, ?_, ?_, ?_, ?_, kept.roots⟩
  · rw [← survivors]
    exact kept.linked
  · exact fun a garbage => kept.swept.gone a ((freed a).mpr garbage)
  · intro a outside _
    rw [kept.swept.obj a (fun gone => outside ((freed a).mp gone)), kept.same.obj]
  · intro a member marked
    by_cases gone : h.Freed l a
    · obtain ⟨c, live, -⟩ := marked
      rw [kept.swept.gone a gone] at live
      cases live
    · exact ((kept.swept.marked a gone).mp marked).2 member
  · intro a marked
    by_cases gone : h.Freed l a
    · obtain ⟨c, live, -⟩ := marked
      rw [kept.swept.gone a gone] at live
      cases live
    · exact kept.marks.sound a ((kept.swept.marked a gone).mp marked).1
  · rw [kept.count, survivors]

theorem Held.collect {gc : GC} (held : Held s l) (enough : s.lua.heap.cells.length ≤ fuel)
    (rooted : ∀ entry ∈ s.pool, s.lua.Rooted entry.2.addr) (run : s.lua.gc.collect P fuel = .ok gc) :
    ∃ l', Held { s with lua := { s.lua with gc } } l' := by
  have done := collected held.inv enough run
  refine ⟨_, held.inv.collect done, ?_⟩
  intro entry member
  exact mem_reachable.mpr ⟨held.pool entry member,
    (LuaState.reachable_iff held.inv.toCore).mpr (rooted entry member)⟩

theorem Held.create (held : Held s l) (room : s.lua.gc.numObjects < s.lua.gc.threshold)
    (run : s.create P fuel hash text = .ok (s', str)) : ∃ l', Held s' l' ∧ str.addr ∈ l' := by
  let made : Str := ⟨s.lua.heap.cells.length, hash text, text⟩
  obtain ⟨gc, linked, inv⟩ := held.inv.alloc (P := P) (o := .string made) (by simp)
  have live : (s.lua.heap.create (.string made)).1.get s.lua.heap.cells.length =
      some { obj := .string made } := by
    rw [Heap.get_create, if_pos rfl]
  have number : gc.numObjects = s.lua.gc.numObjects + 1 ∧ gc.threshold = s.lua.gc.threshold := by
    unfold GC.link at linked
    simp only [live] at linked
    cases linked
    exact ⟨rfl, rfl⟩
  have quiet : ¬gc.numObjects > gc.threshold := by omega
  unfold PoolState.create at run
  simp only [GC.addObject, bind, Except.bind] at run
  have here : GC.link P { s.lua.gc with heap := (s.lua.heap.create (.string made)).1 }
      s.lua.heap.cells.length = .ok gc := linked
  simp only [made] at here
  simp only [here, if_neg quiet] at run
  cases run
  refine ⟨_, ⟨inv, ?_⟩, List.mem_cons_self⟩
  intro entry member
  rcases List.mem_cons.mp member with rfl | member
  · exact List.mem_cons_self
  · exact List.mem_cons_of_mem _ (held.pool entry (List.mem_of_mem_filter member))

theorem mem_of_poolGet {h : UInt64} (found : s.poolGet h = some str) : ∃ entry ∈ s.pool, entry.2 = str := by
  obtain ⟨front, back, split, -⟩ := List.lookup_eq_some_iff.mp found
  refine ⟨(h, str), ?_, rfl⟩
  rw [split]
  exact List.mem_append_right _ List.mem_cons_self

theorem Held.intern (held : Held s l) (permitted : s.Permitted hash (.intern text))
    (run : s.internString P fuel hash text = .ok (s', str)) : ∃ l', Held s' l' ∧ str.addr ∈ l' := by
  unfold internString at run
  cases found : s.poolGet (hash text) with
  | none =>
      simp only [found] at run
      refine held.create (permitted.resolve_left ?_) run
      rintro ⟨str', found', -⟩
      rw [found] at found'
      cases found'
  | some str' =>
      simp only [found] at run
      split at run
      · cases run
      · split at run
        · cases run
          obtain ⟨entry, member, rfl⟩ := mem_of_poolGet found
          exact ⟨l, held, held.pool entry member⟩
        · rename_i different
          refine held.create (permitted.resolve_left ?_) run
          rintro ⟨str'', found', same⟩
          rw [found] at found'
          cases found'
          exact different same

theorem Held.act (held : Held s l) (action : PoolAction) (permitted : s.Permitted hash action)
    (enough : 2 * s.lua.heap.cells.length + 2 < fuel) (run : s.act P fuel hash action = .ok s') :
    ∃ l', Held s' l' := by
  cases action with
  | intern text =>
      simp only [PoolState.act] at run
      cases interned : s.internString P fuel hash text with
      | error fault => rw [interned] at run; cases run
      | ok r =>
          rw [interned] at run
          cases run
          obtain ⟨l', held', -⟩ := held.intern permitted interned
          exact ⟨l', held'⟩
  | lua action =>
      simp only [PoolState.act] at run
      cases acted : s.lua.act P fuel action with
      | error fault => rw [acted] at run; cases run
      | ok lua =>
          rw [acted] at run
          cases run
          by_cases collects : action = .collect
          · subst collects
            simp only [LuaState.act] at acted
            split at acted
            · cases collected : s.lua.gc.collect P fuel with
              | error fault => rw [collected] at acted; cases acted
              | ok gc =>
                  rw [collected] at acted
                  cases acted
                  exact held.collect (by omega) permitted collected
            · cases acted
          · have allowed : s.lua.Permitted action := by
              cases action with
              | link a => exact permitted
              | collect => exact absurd rfl collects
              | _ => trivial
            obtain ⟨l', inv, grows⟩ := LuaState.inv_grow held.inv action allowed collects acted
            exact ⟨l', inv, fun entry member => grows (held.pool entry member)⟩

theorem held_run (run : Run P hash (Permitted hash) s) : ∃ l, Held s l := by
  induction run with
  | init start => exact ⟨_, LuaState.inv_init start, fun entry member => absurd member List.not_mem_nil⟩
  | act action _ permitted enough step ih =>
      obtain ⟨l, held⟩ := ih
      exact held.act action permitted enough step

/-- In a run whose steps meet the condition, the pool holds only strings on the list and so does what
`internString` returns. -/
theorem pool_listed (P : Platform) (hash : List UInt8 → UInt64) (s : PoolState)
    (run : Run P hash (Permitted hash) s) : s.PoolListed ∧
      ∀ fuel text s' str, s.Permitted hash (.intern text) → s.internString P fuel hash text = .ok (s', str) →
        s'.lua.OnList str.addr := by
  obtain ⟨l, held⟩ := held_run run
  refine ⟨held.listed, ?_⟩
  intro fuel text s' str permitted interned
  obtain ⟨l', held', member⟩ := held.intern permitted interned
  exact held'.inv.toCore.onList member

def lengthHash (text : List UInt8) : UInt64 := UInt64.ofNat text.length

theorem pool_listed_first : ∃ s, Run somePlatform lengthHash (Permitted lengthHash) s ∧
    s.pool.map (·.2.data) = [[120]] ∧ s.PoolListed := by
  obtain ⟨lua, start⟩ : ∃ lua, LuaState.init somePlatform = .ok lua := ⟨_, rfl⟩
  have run : Run somePlatform lengthHash (Permitted lengthHash) { lua } := .init start
  have permitted : Permitted lengthHash { lua } (.intern [120]) := by
    cases start
    exact .inr (by decide)
  obtain ⟨s, interned, entry⟩ : ∃ s, PoolState.act somePlatform 13 lengthHash { lua } (.intern [120]) = .ok s ∧
      s.pool.map (·.2.data) = [[120]] := by
    cases start
    exact ⟨_, rfl, rfl⟩
  have run' : Run somePlatform lengthHash (Permitted lengthHash) s := by
    refine .act (n := 13) (.intern [120]) run permitted ?_ interned
    cases start
    decide
  exact ⟨s, run', entry, (pool_listed somePlatform lengthHash s run').1⟩

theorem run_allocated (k : Nat) : ∃ lua, Run somePlatform lengthHash (fun _ _ => True) { lua } ∧
    LuaState.Allocated lua (5 + k) := by
  induction k with
  | zero =>
      obtain ⟨lua, start⟩ : ∃ lua, LuaState.init somePlatform = .ok lua := ⟨_, rfl⟩
      exact ⟨lua, .init start, LuaState.allocated_init start⟩
  | succ k ih =>
      obtain ⟨lua, run, done⟩ := ih
      obtain ⟨lua', acted, done', -, -⟩ := done.alloc (P := somePlatform) (2 * lua.heap.cells.length + 3)
      refine ⟨lua', .act (.lua (.alloc (.table {}))) run trivial (Nat.lt_succ_self _) ?_, done'⟩
      simp only [PoolState.act]
      rw [acted]
      rfl

-- the string is freed by the collection that its own registration starts
theorem pool_dangles : ¬∀ s, Run somePlatform lengthHash (fun _ _ => True) s → s.PoolListed := by
  intro all
  obtain ⟨lua, run, done⟩ := run_allocated 1021
  let str : Str := ⟨lua.heap.cells.length, lengthHash [120], [120]⟩
  obtain ⟨gc, linked, done'⟩ := done.registered (P := somePlatform) (o := .string str) (by simp)
  obtain ⟨l, inv, listed⟩ := done'.listed
  have size : gc.heap.cells.length = lua.heap.cells.length + 1 := by
    rw [done'.size.trans (congrArg (· + 1) done.size.symm)]
  have enough : 2 * gc.heap.cells.length < 2 * lua.heap.cells.length + 3 := by omega
  obtain ⟨gc', collected, freed⟩ := collect_spec (P := somePlatform) (inv.collectable fun _ => done'.live) enough
  have loud : gc.numObjects > gc.threshold := by
    have number := done'.number
    have threshold := done'.threshold
    change gc.numObjects + 2 = _ at number
    change gc.threshold = _ at threshold
    omega
  have interned : PoolState.act somePlatform (2 * lua.heap.cells.length + 3) lengthHash { lua } (.intern [120]) =
      .ok ⟨{ lua with gc := gc' }, [(lengthHash [120], str)]⟩ := by
    simp only [PoolState.act, internString, poolGet, List.lookup_nil, PoolState.create, GC.addObject, bind,
      Except.bind]
    have here : GC.link somePlatform { lua.gc with heap := (lua.heap.create (.string str)).1 }
        lua.heap.cells.length = .ok gc := linked
    simp only [str] at here
    simp only [here, if_pos loud]
    have gone : gc.collect somePlatform (2 * lua.heap.cells.length + 3) = .ok gc' := collected
    simp only [gone]
    rfl
  obtain ⟨p, front, chain⟩ := all _ (.act (.intern [120]) run trivial (Nat.lt_succ_self _) interned)
    (lengthHash [120], str) List.mem_cons_self
  obtain ⟨q, step⟩ := chain.live (List.mem_append_right front (List.mem_singleton_self _))
  have garbage : lua.heap.cells.length ∈ GC.garbage { gc with } l := by
    rw [mem_garbage]
    refine ⟨listed _ (by rw [done.size]; omega) (by rw [done.size]; omega), ?_⟩
    intro reached
    have small := done'.rooted ((LuaState.reachable_iff inv.toCore).mp reached)
    rw [done.size] at small
    exact absurd small (by decide)
  rw [Heap.next?, show (PoolState.mk { lua with gc := gc' } [(lengthHash [120], str)]).lua.heap = gc'.heap from rfl,
    freed.gone _ garbage] at step
  cases step

end PoolState

end Zua.Memory
