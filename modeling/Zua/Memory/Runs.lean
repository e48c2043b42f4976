import Zua.Memory.State

/-!
# Collections during a run

The collector's roots are the globals, the registry and the main thread. A run uses the stack, the call
info and the open upvalues of the state, which are none of these.
-/

namespace Zua.Memory
open Object
open scoped Classical

variable {P : Platform} {s s' : LuaState} {l : List Addr} {a b : Addr} {fuel : Nat} {c : Cell}

namespace LuaState

abbrev heap (s : LuaState) : Heap := s.gc.heap

/-! ## What the program can use -/

-- the registers of the running frame
def registers (s : LuaState) : List Value :=
  match s.ci.func with
  | .closure a =>
      match s.heap.obj? a with
      | some (.closure p _) =>
          match s.heap.obj? p with
          | some (.proto f) => (s.stack.drop s.ci.base).take f.maxStackSize
          | _ => []
      | _ => []
  | _ => []

def Direct (s : LuaState) (a : Addr) : Prop :=
  Holds (s.stack.take s.top) a ∨ Holds s.registers a ∨ s.ci.func.object? = some a ∨
    OnChain s.heap s.openUpval a

-- the variable of an open upvalue
def Captures (s : LuaState) (u a : Addr) : Prop :=
  ∃ uv slot v, s.heap.upvalue? u = some uv ∧ uv.value = some slot ∧ s.stack[slot]? = some v ∧
    v.object? = some a

def Usable (s : LuaState) (a : Addr) : Prop :=
  Reaches (fun a b => Edge s.heap a b ∨ s.Captures a b)
    {a | a = s.globals ∨ a = s.registry ∨ s.Direct a} a

-- reachable from the collector's roots
def Rooted (s : LuaState) (a : Addr) : Prop :=
  Reaches (Edge s.heap) {a | a = s.globals ∨ a = s.registry ∨ a = s.thread} a

/-! ## The condition -/

def OnList (s : LuaState) (a : Addr) : Prop := ∃ p l, Linked s.heap.next? s.gc.objects p (l ++ [a])

-- a collection may run when what the program holds is also held by the collector's roots and nothing
-- that they lead to was freed before; an object is registered once
def Permitted (s : LuaState) : Action → Prop
  | .collect => (∀ a, s.Direct a → s.Rooted a) ∧ (∀ u a, s.Rooted u → s.Captures u a → s.Rooted a) ∧
      ∀ a, s.Rooted a → s.heap.Live a
  | .link a => ¬s.OnList a ∧ a ∉ s.heap.marked
  | _ => True

inductive Run (P : Platform) : LuaState → Prop
  | init {s : LuaState} : init P = .ok s → Run P s
  | act {s s' : LuaState} {fuel : Nat} (action : Action) : Run P s → s.Permitted action →
      2 * s.heap.cells.length < fuel → s.act P fuel action = .ok s' → Run P s'

/-! ## The invariant -/

structure Core (s : LuaState) (l : List Addr) : Prop where
  listed : Linked s.heap.next? s.gc.objects none l
  unmarked : ∀ a ∈ l, a ∉ s.heap.marked
  count : s.gc.numObjects = l.length
  roots : s.gc.roots = some ⟨some s.globals, some s.registry, some s.thread⟩
  main : ∃ t, s.heap.thread? s.thread = some t ∧ t.openUpval = none
  threads : ∀ a t, s.heap.thread? a = some t → a = s.thread

-- an object outside the list refers to nothing
def Loose (s : LuaState) (a : Addr) (o : Obj) : Prop :=
  (∃ f, o = .proto f ∧ f.protos = []) ∨ (a ∈ s.heap.tables s.thread ∧ o = .table {})

structure Inv (s : LuaState) (l : List Addr) : Prop extends Core s l where
  loose : ∀ a o, a ∉ l → s.heap.obj? a = some o → s.Loose a o

theorem Core.onList (inv : Core s l) (member : a ∈ l) : s.OnList a := by
  obtain ⟨front, back, rfl⟩ := List.append_of_mem member
  have linked := inv.listed
  rw [← List.singleton_append, ← List.append_assoc] at linked
  obtain ⟨p, linked, -⟩ := linked.split
  exact ⟨p, front, linked⟩

theorem Core.live (inv : Core s l) (member : a ∈ l) : s.heap.Live a := by
  obtain ⟨q, step⟩ := inv.listed.live member
  obtain ⟨c, live, -⟩ := Option.map_eq_some_iff.mp step
  exact ⟨c, live⟩

theorem Inv.frame (inv : Inv s l) (gc : s'.gc = s.gc) (thread : s'.thread = s.thread)
    (globals : s'.globals = s.globals) (registry : s'.registry = s.registry) : Inv s' l := by
  obtain ⟨⟨listed, unmarked, count, roots, main, threads⟩, loose⟩ := inv
  unfold Loose heap at *
  refine ⟨⟨?_, ?_, ?_, ?_, ?_, ?_⟩, ?_⟩ <;> simpa only [Loose, heap, gc, thread, globals, registry]

/-! ## Allocation -/

section Alloc

variable {h : Heap} {o : Obj}

theorem obj_create : (h.create o).1.obj? a = if a = h.cells.length then some o else h.obj? a := by
  unfold Heap.obj?
  rw [Heap.get_create]
  split <;> rfl

theorem next_create : (h.create o).1.next? a = if a = h.cells.length then some none else h.next? a := by
  unfold Heap.next?
  rw [Heap.get_create]
  split <;> rfl

theorem marked_create : a ∈ (h.create o).1.marked ↔ a ∈ h.marked := by
  unfold Heap.marked
  rw [Set.mem_ofPred_eq, Set.mem_ofPred_eq, Heap.get_create]
  split
  · rename_i fresh
    subst fresh
    simp [Heap.get]
  · rfl

theorem fresh_obj : h.obj? h.cells.length = none := by simp [Heap.obj?, Heap.get]

theorem ne_fresh (found : h.obj? a = some o) : a ≠ h.cells.length := by
  rintro rfl
  rw [fresh_obj] at found
  cases found

end Alloc

theorem thread_create {h : Heap} {o : Obj} (other : ∀ t, o ≠ .thread t) :
    (h.create o).1.thread? a = h.thread? a := by
  unfold Heap.thread?
  rw [obj_create]
  by_cases fresh : a = h.cells.length
  · rw [if_pos fresh, fresh, fresh_obj]
    cases o with
    | thread t => exact absurd rfl (other t)
    | _ => rfl
  · rw [if_neg fresh]

theorem tables_of_thread {h h' : Heap} (same : h'.thread? a = h.thread? a) :
    h'.tables a = h.tables a := by
  unfold Heap.tables
  rw [same]

theorem Core.create {o : Obj} (inv : Core s l) (other : ∀ t, o ≠ .thread t) :
    Core { s with gc := { s.gc with heap := (s.heap.create o).1 } } l := by
  refine ⟨?_, ?_, inv.count, inv.roots, ?_, ?_⟩
  · apply inv.listed.congr
    intro a member
    obtain ⟨o, found⟩ := Heap.live_iff.mp (inv.live member)
    change (s.heap.create _).1.next? a = _
    rw [next_create, if_neg (ne_fresh found)]
  · intro a member marked
    exact inv.unmarked a member (marked_create.mp marked)
  · obtain ⟨t, found, closed⟩ := inv.main
    exact ⟨t, (thread_create other).trans found, closed⟩
  · intro a t found
    exact inv.threads a t ((thread_create other).symm.trans found)

theorem Inv.compile {f : Function} (inv : Inv s l) (alone : f.protos = []) :
    Inv { s with gc := { s.gc with heap := (s.heap.create (.proto f)).1 } } l := by
  have other (t : Thread) : Obj.proto f ≠ .thread t := by simp
  refine ⟨inv.toCore.create other, ?_⟩
  intro a o outside found
  change (s.heap.create _).1.obj? a = some o at found
  rw [obj_create] at found
  split at found
  · cases found
    exact .inl ⟨f, rfl, alone⟩
  · rcases inv.loose a o outside found with proto | ⟨table, empty⟩
    · exact .inl proto
    · refine .inr ⟨?_, empty⟩
      change a ∈ (s.heap.create _).1.tables s.thread
      rwa [tables_of_thread (thread_create other)]

/-! ## Registration -/

theorem link_ok (live : s.heap.get a = some c) : s.gc.link P a = .ok { s.gc with
    heap := s.heap.put a { c with next := s.gc.objects }
    objects := some a
    numObjects := s.gc.numObjects + 1
    totalAllocated := s.gc.totalAllocated + P.sizeOf c.obj.objType } := by
  unfold GC.link
  rw [live]

theorem obj_put {h : Heap} {p : Option Addr} (live : h.get a = some c) :
    (h.put a { c with next := p }).obj? b = h.obj? b := by
  unfold Heap.obj?
  rw [Heap.get_put ⟨c, live⟩]
  split
  · rename_i same
    rw [← same, live]
    rfl
  · rfl

theorem Core.link (inv : Core s l) (live : s.heap.get a = some c) (outside : a ∉ l) (clear : c.marked = 0)
    (n : Nat) : Core { s with gc := { s.gc with
      heap := s.heap.put a { c with next := s.gc.objects }
      objects := some a
      numObjects := s.gc.numObjects + 1
      totalAllocated := n } } (a :: l) := by
  have get (b : Addr) := Heap.get_put (b := b) (c := { c with next := s.gc.objects }) ⟨c, live⟩
  have thread (b : Addr) : (s.heap.put a { c with next := s.gc.objects }).thread? b = s.heap.thread? b :=
    thread_congr (obj_put live)
  refine ⟨.cons ?_ (inv.listed.congr ?_), ?_, congrArg (· + 1) inv.count, inv.roots, ?_, ?_⟩
  · change (s.heap.put a _).next? a = _
    rw [Heap.next?, get, if_pos rfl]
    rfl
  · intro b member
    change (s.heap.put a _).next? b = _
    have other : a ≠ b := fun same => outside (same ▸ member)
    rw [Heap.next?, get, if_neg other]
    rfl
  · rintro b member ⟨c', found, marked⟩
    change (s.heap.put a _).get b = some c' at found
    rw [get] at found
    split at found
    · cases found
      exact marked clear
    · rename_i other
      have inside : b ∈ l := (List.mem_cons.mp member).resolve_left (Ne.symm other)
      exact inv.unmarked b inside ⟨c', found, marked⟩
  · obtain ⟨t, found, closed⟩ := inv.main
    exact ⟨t, (thread s.thread).trans found, closed⟩
  · intro b t found
    exact inv.threads b t ((thread b).symm.trans found)

theorem Inv.link (inv : Inv s l) (live : s.heap.get a = some c) (outside : a ∉ l) (clear : c.marked = 0)
    (n : Nat) : Inv { s with gc := { s.gc with
      heap := s.heap.put a { c with next := s.gc.objects }
      objects := some a
      numObjects := s.gc.numObjects + 1
      totalAllocated := n } } (a :: l) := by
  refine ⟨inv.toCore.link live outside clear n, ?_⟩
  intro b o far found
  change (s.heap.put a _).obj? b = some o at found
  rw [obj_put live] at found
  rcases inv.loose b o (fun member => far (List.mem_cons_of_mem a member)) found with proto | table
  · exact .inl proto
  · refine .inr ⟨?_, table.2⟩
    change b ∈ (s.heap.put a _).tables s.thread
    rw [tables_congr (obj_put live)]
    exact table.1

theorem Inv.alloc {o : Obj} (inv : Inv s l) (other : ∀ t, o ≠ .thread t) : ∃ gc,
    { s.gc with heap := (s.heap.create o).1 }.link P s.heap.cells.length = .ok gc ∧
      Inv { s with gc } (s.heap.cells.length :: l) := by
  let made : LuaState := { s with gc := { s.gc with heap := (s.heap.create o).1 } }
  have core : Core made l := inv.toCore.create other
  have live : made.heap.get s.heap.cells.length = some { obj := o } := by
    change (s.heap.create o).1.get _ = _
    rw [Heap.get_create, if_pos rfl]
  have outside : s.heap.cells.length ∉ l := by
    intro member
    obtain ⟨o', found⟩ := Heap.live_iff.mp (inv.live member)
    exact ne_fresh found rfl
  refine ⟨_, link_ok live, core.link live outside rfl _, ?_⟩
  intro b o' far found
  change (made.heap.put _ _).obj? b = some o' at found
  rw [obj_put live] at found
  change (s.heap.create o).1.obj? b = some o' at found
  rw [List.mem_cons, not_or] at far
  rw [obj_create, if_neg far.1] at found
  rcases inv.loose b o' far.2 found with proto | table
  · exact .inl proto
  · refine .inr ⟨?_, table.2⟩
    change b ∈ (made.heap.put _ _).tables s.thread
    rw [tables_congr (obj_put live)]
    change b ∈ (s.heap.create o).1.tables s.thread
    rw [tables_of_thread (thread_create other)]
    exact table.1

/-! ## Stores -/

theorem Inv.write {f : Obj → Option Obj} (inv : Inv s l) (run : s.write a f = .ok s')
    (thread : ∀ o o', f o = some o' → (∀ t, o ≠ .thread t) ∧ ∀ t, o' ≠ .thread t)
    (proto : ∀ p, f (.proto p) = none) : Inv s' l := by
  unfold LuaState.write at run
  split at run
  · cases run
  · rename_i c live
    split at run
    · cases run
    · rename_i o new
      split at run
      · cases run
      · rename_i free
        cases run
        obtain ⟨old, fresh⟩ := thread _ _ new
        have get (b : Addr) := Heap.get_put (b := b) (c := { c with obj := o }) ⟨c, live⟩
        have next (b : Addr) : (s.heap.put a { c with obj := o }).next? b = s.heap.next? b := by
          unfold Heap.next?
          rw [get]
          split
          · rename_i same
            rw [← same, live]
            rfl
          · rfl
        have inside : a ∈ l := by
          by_contra outside
          rcases inv.loose a c.obj outside (Heap.obj_of_get live) with ⟨p, isProto, -⟩ | ⟨table, -⟩
          · rw [isProto, proto] at new
            cases new
          · exact free table
        have obj (b : Addr) : (s.heap.put a { c with obj := o }).obj? b =
            if a = b then some o else s.heap.obj? b := by
          unfold Heap.obj?
          rw [get]
          split <;> rfl
        have threads (b : Addr) : (s.heap.put a { c with obj := o }).thread? b = s.heap.thread? b := by
          apply Option.ext
          intro t
          rw [Heap.thread_iff, Heap.thread_iff, obj]
          by_cases same : a = b
          · rw [if_pos same, ← same, Heap.obj_of_get live]
            simp only [Option.some.injEq, old t, fresh t]
          · rw [if_neg same]
        refine ⟨⟨inv.listed.congr (fun b _ => next b), ?_, inv.count, inv.roots, ?_, ?_⟩, ?_⟩
        · rintro b member ⟨c', found, marked⟩
          change (s.heap.put a _).get b = some c' at found
          rw [get] at found
          split at found
          · rename_i same
            cases found
            exact inv.unmarked b member ⟨c, same ▸ live, marked⟩
          · exact inv.unmarked b member ⟨c', found, marked⟩
        · obtain ⟨t, found, closed⟩ := inv.main
          exact ⟨t, (threads s.thread).trans found, closed⟩
        · intro b t found
          exact inv.threads b t ((threads b).symm.trans found)
        · intro b o' far found
          change (s.heap.put a _).obj? b = some o' at found
          have other : a ≠ b := fun same => far (same ▸ inside)
          rw [obj, if_neg other] at found
          rcases inv.loose b o' far found with proto | table
          · exact .inl proto
          · refine .inr ⟨?_, table.2⟩
            change b ∈ (s.heap.put a _).tables s.thread
            rw [tables_of_thread (threads s.thread)]
            exact table.1

/-! ## Collections -/

theorem start_eq (inv : Core s l) :
    s.gc.start l = {a | a = s.globals ∨ a = s.registry ∨ a = s.thread} := by
  ext a
  simp [GC.start, inv.roots, eq_comm]

theorem reachable_iff (inv : Core s l) : s.gc.Reachable l a ↔ s.Rooted a := by
  unfold GC.Reachable Rooted
  rw [start_eq inv]

theorem Inv.noTables (inv : Inv s l) : (s.gc.garbage l).flatMap s.heap.tables = [] := by
  apply List.flatMap_eq_nil_iff.mpr
  intro x garbage
  unfold Heap.tables
  cases found : s.heap.thread? x with
  | none => rfl
  | some t =>
      exfalso
      apply (mem_garbage.mp garbage).2
      rw [reachable_iff inv.toCore, inv.threads x t found]
      exact .root (.inr (.inr rfl))

theorem Inv.outward (inv : Inv s l) (x y : Addr) (outside : x ∉ l) (edge : Edge s.heap x y) : False := by
  obtain ⟨o, found, refers⟩ := edge
  rcases inv.loose x o outside found with ⟨f, rfl, alone⟩ | ⟨-, rfl⟩
  · change y ∈ f.protos at refers
    rw [alone] at refers
    cases refers
  · exact refers_empty refers

theorem Inv.collectable (inv : Inv s l) (allocated : ∀ a, s.Rooted a → s.heap.Live a) :
    Collectable s.gc l := by
  obtain ⟨t, main, closed⟩ := inv.main
  refine ⟨inv.listed, inv.unmarked, ⟨?_, ?_⟩, ?_, ?_, ⟨?_, ?_, ?_⟩, inv.count⟩
  · intro a path
    exact allocated a ((reachable_iff inv.toCore).mp path)
  · intro a t' _ found
    obtain rfl := inv.threads a t' found
    rw [main] at found
    cases found
    rw [closed]
    exact ⟨[], .nil⟩
  · intro roots a set same
    rw [inv.roots] at set
    cases set
    cases same
    exact ⟨t, main⟩
  · intro a b _ outside edge _
    exact (inv.outward a b outside edge).elim
  · rw [inv.noTables]
    exact List.nodup_nil
  · intro x garbage a table
    have member := List.mem_flatMap.mpr ⟨x, garbage, table⟩
    rw [inv.noTables] at member
    cases member
  · intro x garbage a table
    have member := List.mem_flatMap.mpr ⟨x, garbage, table⟩
    rw [inv.noTables] at member
    cases member

theorem Inv.kept (inv : Inv s l) {gc : GC} (done : Collected s.gc gc l) (kept : a ∉ s.gc.garbage l) :
    gc.heap.obj? a = s.heap.obj? a := by
  apply done.obj a kept
  rw [inv.noTables]
  exact List.not_mem_nil

theorem Inv.collect (inv : Inv s l) {gc : GC} (done : Collected s.gc gc l) :
    Inv { s with gc } (s.gc.reachable l) := by
  have gone (a : Addr) (o : Obj) (found : gc.heap.obj? a = some o) : a ∉ s.gc.garbage l := by
    intro garbage
    rw [Heap.obj?, done.gone a garbage] at found
    cases found
  have thread : gc.heap.thread? s.thread = s.heap.thread? s.thread := by
    apply thread_congr (inv.kept done _)
    intro garbage
    exact (mem_garbage.mp garbage).2 ((reachable_iff inv.toCore).mpr (.root (.inr (.inr rfl))))
  refine ⟨⟨done.list, ?_, done.count, done.roots.trans inv.roots, ?_, ?_⟩, ?_⟩
  · intro a member
    exact done.unmarked a (mem_reachable.mp member).1
  · obtain ⟨t, found, closed⟩ := inv.main
    exact ⟨t, thread.trans found, closed⟩
  · intro a t found
    have kept := gone a _ (Heap.thread_iff.mp found)
    exact inv.threads a t ((thread_congr (inv.kept done kept)).symm.trans found)
  · intro a o outside found
    have kept := gone a o found
    have unlisted : a ∉ l := by
      intro member
      have reached : s.gc.Reachable l a := by
        by_contra unreached
        exact kept (mem_garbage.mpr ⟨member, unreached⟩)
      exact outside (mem_reachable.mpr ⟨member, reached⟩)
    rcases inv.loose a o unlisted ((inv.kept done kept).symm.trans found) with proto | table
    · exact .inl proto
    · refine .inr ⟨?_, table.2⟩
      change a ∈ gc.heap.tables s.thread
      rw [tables_of_thread thread]
      exact table.1

/-! ## Runs -/

-- the heap that `init` builds
def firstHeap (t : Thread) : Heap :=
  ⟨[some { obj := .table {} }, some { obj := .table {} }, some { obj := .thread t },
    some { next := some 2, obj := .table {} }, some { next := some 3, obj := .table {} }]⟩

theorem obj_firstHeap {t : Thread} {o : Obj} (found : (firstHeap t).obj? a = some o) :
    (a = 2 ∧ o = .thread t) ∨ (a ∈ [0, 1, 3, 4] ∧ o = .table {}) := by
  match a with
  | 2 =>
      cases found
      exact .inl ⟨rfl, rfl⟩
  | 0 | 1 | 3 | 4 =>
      cases found
      exact .inr ⟨by decide, rfl⟩
  | _ + 5 => cases found

theorem inv_firstHeap {t : Thread} (heap : s.heap = firstHeap t) (thread : s.thread = 2)
    (own : t.globals = 0 ∧ t.registry = 1) (closed : t.openUpval = none)
    (objects : s.gc.objects = some 4) (count : s.gc.numObjects = 3)
    (roots : s.gc.roots = some ⟨some s.globals, some s.registry, some s.thread⟩) : Inv s [4, 3, 2] := by
  have found : s.heap.thread? 2 = some t := by
    rw [heap]
    rfl
  refine ⟨⟨?_, ?_, count, roots, ?_, ?_⟩, ?_⟩
  · rw [heap, objects]
    exact .cons rfl (.cons rfl (.cons rfl .nil))
  · have clean : s.heap.marked = ∅ := by
      rw [heap]
      exact marked_empty rfl
    rw [clean]
    exact fun a _ => Set.notMem_empty a
  · rw [thread]
    exact ⟨t, found, closed⟩
  · intro a t' other
    rw [heap] at other
    rcases obj_firstHeap (Heap.thread_iff.mp other) with ⟨rfl, -⟩ | ⟨-, table⟩
    · exact thread.symm
    · cases table
  · intro a o outside inside
    rw [heap] at inside
    rcases obj_firstHeap inside with ⟨rfl, -⟩ | ⟨member, table⟩
    · exact absurd (by decide) outside
    · refine .inr ⟨?_, table⟩
      rw [Heap.tables, thread, found]
      simp only [own.1, own.2]
      simp only [List.mem_cons, List.not_mem_nil, or_false, not_or] at member outside ⊢
      tauto

theorem inv_init (run : init P = .ok s) : Inv s [4, 3, 2] := by
  cases run
  exact inv_firstHeap (t := mainThread 0 1) rfl rfl ⟨rfl, rfl⟩ rfl rfl rfl rfl

theorem write_grow {f : Obj → Option Obj} (inv : Inv s l) (run : s.write a f = .ok s')
    (thread : ∀ o o', f o = some o' → (∀ t, o ≠ .thread t) ∧ ∀ t, o' ≠ .thread t)
    (proto : ∀ p, f (.proto p) = none) : ∃ l', Inv s' l' ∧ l ⊆ l' :=
  ⟨l, inv.write run thread proto, List.Subset.refl l⟩

-- only a collection takes objects off the list
theorem inv_grow (inv : Inv s l) (action : Action) (permitted : s.Permitted action)
    (grows : action ≠ .collect) (run : s.act P fuel action = .ok s') : ∃ l', Inv s' l' ∧ l ⊆ l' := by
  have same (gc : s'.gc = s.gc) (thread : s'.thread = s.thread) (globals : s'.globals = s.globals)
      (registry : s'.registry = s.registry) : ∃ l', Inv s' l' ∧ l ⊆ l' :=
    ⟨l, inv.frame gc thread globals registry, List.Subset.refl l⟩
  cases action with
  | push v | setTop n | pop | store slot v =>
      simp only [act] at run
      split at run
      · cases run
      · cases run
        exact same rfl rfl rfl rfl
  | frame ci | openUpvals up =>
      cases run
      exact same rfl rfl rfl rfl
  | setTable t key value =>
      refine write_grow inv (f := storeTable key value) run ?_ (fun _ => rfl)
      intro o o' found
      cases o <;> simp [storeTable] at found
      obtain ⟨t', -, rfl⟩ := found
      simp
  | setMetatable t metatable =>
      refine write_grow inv (f := storeMetatable metatable) run ?_ (fun _ => rfl)
      intro o o' found
      cases o <;> simp [storeMetatable] at found
      subst found
      simp
  | writeUpvalue u uv =>
      refine write_grow inv (f := storeUpvalue uv) run ?_ (fun _ => rfl)
      intro o o' found
      cases o <;> simp [storeUpvalue] at found
      subst found
      simp
  | compile f =>
      cases run
      exact ⟨l, inv.compile rfl, List.Subset.refl l⟩
  | alloc o =>
      simp only [act] at run
      split at run
      · cases run
      · rename_i kind
        have other (t : Thread) : o ≠ .thread t := by
          rintro rfl
          exact kind (.inl rfl)
        obtain ⟨gc, linked, inv'⟩ := inv.alloc (P := P) other
        rw [register, linked] at run
        cases run
        exact ⟨_, inv', List.subset_cons_self _ l⟩
  | link a =>
      obtain ⟨fresh, clear⟩ := permitted
      cases live : s.heap.get a with
      | none =>
          simp only [act, GC.link, live] at run
          cases run
      | some c =>
          have linked := link_ok (P := P) live
          simp only [act, linked] at run
          cases run
          refine ⟨_, inv.link live (fun member => fresh (inv.toCore.onList member)) ?_ _,
            List.subset_cons_self _ l⟩
          by_contra marked
          exact clear ⟨c, live, marked⟩
  | collect => exact absurd rfl grows

theorem inv_act (inv : Inv s l) (action : Action) (permitted : s.Permitted action)
    (run : s.act P fuel action = .ok s') (enough : 2 * s.heap.cells.length < fuel) : ∃ l', Inv s' l' := by
  by_cases collects : action = .collect
  · subst collects
    obtain ⟨gc, collected, done⟩ := collect_spec (P := P) (inv.collectable permitted.2.2) enough
    simp only [act] at run
    split at run
    · rw [collected] at run
      cases run
      exact ⟨_, inv.collect done⟩
    · cases run
  · obtain ⟨l', inv', -⟩ := inv_grow inv action permitted collects run
    exact ⟨l', inv'⟩

theorem inv_run (run : Run P s) : ∃ l, Inv s l := by
  induction run with
  | init start => exact ⟨_, inv_init start⟩
  | act action _ permitted enough step ih =>
      obtain ⟨l, inv⟩ := ih
      exact inv_act inv action permitted step enough

theorem usable_rooted (permitted : s.Permitted .collect) (usable : s.Usable a) : s.Rooted a := by
  obtain ⟨direct, captured, -⟩ := permitted
  apply usable.induct (P := s.Rooted)
  · rintro r (globals | registry | held)
    · exact .root (.inl globals)
    · exact .root (.inr (.inl registry))
    · exact direct r held
  · rintro a b - rooted (edge | captures)
    · exact rooted.step edge
    · exact captured a b rooted captures

/-- In a run whose collections meet the condition, a collection returns and frees nothing that the
program can use. -/
theorem collect_keeps_usable (P : Platform) (s : LuaState) (fuel : Nat) (run : Run P s)
    (permitted : s.Permitted .collect) (enough : 2 * s.heap.cells.length < fuel) :
    ∃ gc, s.gc.collect P fuel = .ok gc ∧ ∀ a, s.Usable a → gc.heap.obj? a = s.heap.obj? a ∧
      gc.heap.Live a := by
  obtain ⟨l, inv⟩ := inv_run run
  obtain ⟨gc, collected, done⟩ := collect_spec (P := P) (inv.collectable permitted.2.2) enough
  refine ⟨gc, collected, ?_⟩
  intro a usable
  have rooted := usable_rooted permitted usable
  have kept : gc.heap.obj? a = s.heap.obj? a := by
    apply inv.kept done
    intro garbage
    exact (mem_garbage.mp garbage).2 ((reachable_iff inv.toCore).mpr rooted)
  refine ⟨kept, ?_⟩
  rw [Heap.live_iff, kept, ← Heap.live_iff]
  exact permitted.2.2 a rooted

/-! ## A table on the stack -/

-- the state after `init` and some allocations of empty tables
structure Allocated (s : LuaState) (n : Nat) : Prop where
  listed : ∃ l, Inv s l ∧ ∀ a, 5 ≤ a → a < n → a ∈ l
  size : s.heap.cells.length = n
  first : ∀ a < 5, s.heap.obj? a = (firstHeap (mainThread 0 1)).obj? a
  names : s.globals = 3 ∧ s.registry = 4 ∧ s.thread = 2
  threshold : s.gc.threshold = 1024
  number : s.gc.numObjects + 2 = n

theorem allocated_init (run : init P = .ok s) : Allocated s 5 := by
  have inv := inv_init run
  cases run
  refine ⟨⟨_, inv, ?_⟩, rfl, fun _ _ => rfl, ⟨rfl, rfl, rfl⟩, rfl, rfl⟩
  intro a low high
  exact absurd (Nat.lt_of_lt_of_le high low) (Nat.lt_irrefl a)

theorem Allocated.registered {n : Nat} {o : Obj} (done : Allocated s n) (other : ∀ t, o ≠ .thread t) : ∃ gc,
    { s.gc with heap := (s.heap.create o).1 }.link P s.heap.cells.length = .ok gc ∧
      Allocated { s with gc } (n + 1) := by
  obtain ⟨⟨l, inv, listed⟩, size, first, names, threshold, number⟩ := done
  have large : 5 ≤ n := by
    have last : s.heap.obj? 4 = some (.table {}) := first 4 (by decide)
    obtain ⟨c, live⟩ := Heap.live_iff.mpr ⟨_, last⟩
    rw [← size]
    exact Heap.live_lt live
  let made : LuaState := { s with gc := { s.gc with heap := (s.heap.create o).1 } }
  have live : made.heap.get s.heap.cells.length = some { obj := o } := by
    change (s.heap.create _).1.get _ = _
    rw [Heap.get_create, if_pos rfl]
  obtain ⟨gc, linked, inv'⟩ := inv.alloc (P := P) other
  have equal : gc = _ := Except.ok.inj (linked.symm.trans (link_ok (s := made) live))
  refine ⟨gc, linked, ⟨_, inv', ?_⟩, ?_, ?_, names, ?_, ?_⟩
  · intro a low high
    rw [List.mem_cons, size]
    rcases Nat.lt_succ_iff_lt_or_eq.mp high with small | same
    · exact .inr (listed a low small)
    · exact .inl same
  · rw [equal]
    change ((s.heap.create _).1.put _ _).cells.length = _
    simp [Heap.put, Heap.create, size]
  · intro a small
    rw [equal]
    change (made.heap.put _ _).obj? a = _
    rw [obj_put live]
    change (s.heap.create _).1.obj? a = _
    rw [obj_create, if_neg, first a small]
    rw [size]
    exact Nat.ne_of_lt (Nat.lt_of_lt_of_le small large)
  · rw [equal]
    exact threshold
  · rw [equal]
    change s.gc.numObjects + 1 + 2 = _
    omega

theorem Allocated.alloc {n : Nat} (done : Allocated s n) (fuel : Nat) : ∃ s',
    s.act P fuel (.alloc (.table {})) = .ok s' ∧
    Allocated s' (n + 1) ∧ s'.stack = s.stack ∧ s'.top = s.top := by
  obtain ⟨gc, linked, done'⟩ := done.registered (P := P) (o := .table {}) (by simp)
  refine ⟨{ s with gc }, ?_, done', rfl, rfl⟩
  change s.register P _ = _
  rw [register, linked]
  rfl

theorem Allocated.rooted {n : Nat} (done : Allocated s n) (rooted : s.Rooted a) : a < 5 := by
  obtain ⟨globals, registry, thread⟩ := done.names
  refine rooted.induct (P := fun a => a < 5) ?_ ?_
  · rintro r (rfl | rfl | rfl)
    · rw [globals]
      decide
    · rw [registry]
      decide
    · rw [thread]
      decide
  · rintro a b - small ⟨o, found, refers⟩
    rw [done.first a small] at found
    rcases obj_firstHeap found with ⟨-, rfl⟩ | ⟨-, rfl⟩
    · rcases refers with own | own | on | ⟨v, member, -⟩
      · rw [← own]
        decide
      · rw [← own]
        decide
      · cases on
      · cases member
    · exact absurd refers refers_empty

theorem Allocated.many {n : Nat} (done : Allocated s n) (fuel k : Nat) : ∃ s',
    s.acts P fuel (List.replicate k (.alloc (.table {}))) = .ok s' ∧ Allocated s' (n + k) ∧
      s'.stack = s.stack ∧ s'.top = s.top := by
  induction k generalizing s n with
  | zero => exact ⟨s, rfl, done, rfl, rfl⟩
  | succ k ih =>
      obtain ⟨s₁, first, done₁, stack₁, top₁⟩ := done.alloc (P := P) fuel
      obtain ⟨s₂, rest, done₂, stack₂, top₂⟩ := ih done₁
      refine ⟨s₂, ?_, ?_, stack₂.trans stack₁, top₂.trans top₁⟩
      · rw [List.replicate_succ, acts, first]
        exact rest
      · rwa [Nat.add_right_comm, Nat.add_assoc] at done₂

theorem Allocated.push {n : Nat} {v : Value} (done : Allocated s n) (fuel : Nat) (empty : s.top = 0)
    (room : s.stack.length = 1024) : ∃ s', s.act P fuel (.push v) = .ok s' ∧ Allocated s' n ∧
      s'.stack = s.stack.set 0 v ∧ s'.top = 1 := by
  obtain ⟨⟨l, inv, listed⟩, size, first, names, threshold, number⟩ := done
  refine ⟨{ s with stack := s.stack.set 0 v, top := 1 }, ?_,
    ⟨⟨l, inv.frame rfl rfl rfl rfl, listed⟩, size, first, names, threshold, number⟩, rfl, rfl⟩
  simp only [act, empty, room]
  rfl

-- a table is pushed, and then more tables are made
def fill (k : Nat) : List Action :=
  .alloc (.table {}) :: .push (.table 5) :: List.replicate k (.alloc (.table {}))

theorem allocated_fill (k : Nat) : ∃ s₀ s, init P = .ok s₀ ∧ s₀.acts P 0 (fill k) = .ok s ∧
    Allocated s (6 + k) ∧ s.stack[0]? = some (.table 5) ∧ s.top = 1 := by
  obtain ⟨s₀, start⟩ : ∃ s₀, init P = .ok s₀ := ⟨_, rfl⟩
  have stack₀ : s₀.stack = List.replicate 1024 .nil ∧ s₀.top = 0 := by
    cases start
    exact ⟨rfl, rfl⟩
  have length₀ : s₀.stack.length = 1024 := by rw [stack₀.1, List.length_replicate]
  obtain ⟨s₁, run₁, done₁, stack₁, top₁⟩ := (allocated_init start).alloc (P := P) 0
  obtain ⟨s₂, run₂, done₂, stack₂, top₂⟩ := done₁.push (P := P) (v := .table 5) 0
    (top₁.trans stack₀.2) (by rw [stack₁, length₀])
  obtain ⟨s, run, done, stack, top⟩ := done₂.many (P := P) 0 k
  refine ⟨s₀, s, start, ?_, done, ?_, top.trans top₂⟩
  · unfold fill
    rw [acts, run₁]
    change acts P 0 s₁ _ = _
    rw [acts, run₂]
    exact run
  · rw [stack, stack₂, stack₁, List.getElem?_set, if_pos rfl, if_pos]
    rw [length₀]
    decide

theorem Allocated.live {n : Nat} (done : Allocated s n) (rooted : s.Rooted a) : s.heap.Live a := by
  have small := done.rooted rooted
  rw [Heap.live_iff, done.first a small]
  match a with
  | 0 | 1 | 2 | 3 | 4 => exact ⟨_, rfl⟩
  | _ + 5 => exact absurd small (by simp)

-- the first table is on the stack when the 1025th object exceeds the threshold
theorem collect_frees_stack : ∃ s₀ s gc, init somePlatform = .ok s₀ ∧
    s₀.acts somePlatform 0 (fill 1021) = .ok s ∧ s.gc.numObjects > s.gc.threshold ∧
    s.gc.collect somePlatform (2 * s.heap.cells.length + 1) = .ok gc ∧
    s.stack[0]? = some (.table 5) ∧ s.top = 1 ∧ s.Usable 5 ∧ s.heap.Live 5 ∧ ¬gc.heap.Live 5 := by
  obtain ⟨s₀, s, start, run, done, slot, top⟩ := allocated_fill (P := somePlatform) 1021
  obtain ⟨l, inv, listed⟩ := done.listed
  have inside : 5 ∈ l := listed 5 (Nat.le_refl 5) (by omega)
  obtain ⟨gc, collected, freed⟩ := collect_spec (P := somePlatform)
    (inv.collectable (fun _ => done.live)) (Nat.lt_succ_self _)
  refine ⟨s₀, s, gc, start, run, ?_, collected, slot, top, ?_, inv.live inside, ?_⟩
  · have number := done.number
    rw [done.threshold]
    omega
  · refine .root (.inr (.inr (.inl ⟨.table 5, ?_, rfl⟩)))
    apply List.mem_of_getElem? (i := 0)
    rw [List.getElem?_take, top, if_pos Nat.zero_lt_one, slot]
  · have garbage : 5 ∈ s.gc.garbage l := by
      rw [mem_garbage, reachable_iff inv.toCore]
      exact ⟨inside, fun rooted => Nat.lt_irrefl 5 (done.rooted rooted)⟩
    rintro ⟨c, live⟩
    rw [freed.gone 5 garbage] at live
    cases live

-- the globals are pushed and a collection follows
theorem collect_keeps_usable_globals : ∃ s gc, Run somePlatform s ∧ s.stack[0]? = some (.table 3) ∧
    s.top = 1 ∧ s.gc.collect somePlatform 11 = .ok gc ∧ gc.heap.Live 3 := by
  obtain ⟨s₀, start⟩ : ∃ s₀, init somePlatform = .ok s₀ := ⟨_, rfl⟩
  have state₀ : s₀.stack = List.replicate 1024 .nil ∧ s₀.top = 0 ∧ s₀.ci.func = .nil ∧
      s₀.openUpval = none := by
    cases start
    exact ⟨rfl, rfl, rfl, rfl⟩
  have length₀ : s₀.stack.length = 1024 := by rw [state₀.1, List.length_replicate]
  have done₀ := allocated_init start
  let s : LuaState := { s₀ with stack := s₀.stack.set 0 (.table 3), top := 1 }
  have push : s₀.act somePlatform 11 (.push (.table 3)) = .ok s := by
    simp only [act, state₀.2.1, length₀]
    rfl
  have run : Run somePlatform s := by
    refine .act (.push (.table 3)) (.init start) trivial ?_ push
    rw [done₀.size]
    decide
  obtain ⟨⟨l, inv, listed⟩, size, first, names, threshold, number⟩ := done₀
  have done : Allocated s 5 :=
    ⟨⟨l, inv.frame rfl rfl rfl rfl, listed⟩, size, first, names, threshold, number⟩
  have slot : s.stack[0]? = some (.table 3) := by
    change (s₀.stack.set 0 _)[0]? = _
    rw [List.getElem?_set, if_pos rfl, if_pos]
    rw [length₀]
    decide
  have globals : s.Rooted 3 := .root (.inl names.1.symm)
  have shape : s.stack.take s.top = [.table 3] := by
    change (s₀.stack.set 0 _).take 1 = _
    rw [state₀.1]
    rfl
  have func : s.ci.func = .nil := state₀.2.2.1
  have registers : s.registers = [] := by simp only [LuaState.registers, func]
  have permitted : s.Permitted .collect := by
    refine ⟨?_, ?_, fun a => done.live⟩
    · rintro a (⟨v, member, object⟩ | ⟨v, member, -⟩ | called | on)
      · rw [shape, List.mem_singleton] at member
        rw [member] at object
        rwa [← Option.some.inj object]
      · rw [registers] at member
        cases member
      · rw [func] at called
        cases called
      · have none : s.openUpval = none := state₀.2.2.2
        rw [none] at on
        cases on
    · rintro u a rooted ⟨uv, slot, v, found, -⟩
      have object := Heap.upvalue_iff.mp found
      rw [done.first u (done.rooted rooted)] at object
      rcases obj_firstHeap object with ⟨-, thread⟩ | ⟨-, table⟩
      · cases thread
      · cases table
  obtain ⟨gc, collected, kept⟩ := collect_keeps_usable somePlatform s 11 run permitted (by
    rw [done.size]
    decide)
  have usable : s.Usable 3 := .root (.inl names.1.symm)
  exact ⟨s, gc, run, slot, rfl, collected, (kept 3 usable).2⟩

end LuaState

end Zua.Memory
