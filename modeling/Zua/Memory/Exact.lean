import Zua.Memory.Sweep

/-!
# A collection is exact

On a list that ends and holds what is reachable, `collect` frees the unreachable objects and keeps the
others as they are.
-/

namespace Zua.Memory
open Object
open scoped Classical

variable {gc gc' : GC} {P : Platform} {l : List Addr} {fuel : Nat} {a b : Addr} {g h : Heap}
  {up : Option Addr}

def GC.Reachable (gc : GC) (l : List Addr) (a : Addr) : Prop := Reaches (Edge gc.heap) (gc.start l) a

noncomputable def GC.reachable (gc : GC) (l : List Addr) : List Addr := l.filter (gc.Reachable l ·)
noncomputable def GC.garbage (gc : GC) (l : List Addr) : List Addr := l.filter (¬gc.Reachable l ·)

structure Collectable (gc : GC) (l : List Addr) : Prop where
  listed : Linked gc.heap.next? gc.objects none l
  unmarked : ∀ a ∈ l, a ∉ gc.heap.marked
  ready : Ready gc.heap (gc.start l)
  typed : ∀ roots a, gc.roots = some roots → roots.mainThread = some a → ∃ t, gc.heap.thread? a = some t
  outward : ∀ a b, gc.Reachable l a → a ∉ l → Edge gc.heap a b → b ∈ l → b ∈ gc.start l
  owned : Owned gc.heap (gc.garbage l) l
  count : gc.numObjects = l.length

structure Collected (gc gc' : GC) (l : List Addr) : Prop where
  list : Linked gc'.heap.next? gc'.objects none (gc.reachable l)
  gone : ∀ a ∈ gc.garbage l, gc'.heap.get a = none
  obj : ∀ a, a ∉ gc.garbage l → a ∉ (gc.garbage l).flatMap gc.heap.tables →
    gc'.heap.obj? a = gc.heap.obj? a
  unmarked : ∀ a ∈ l, a ∉ gc'.heap.marked
  marked : ∀ a ∈ gc'.heap.marked, a ∈ gc.heap.marked ∨ gc.Reachable l a
  count : gc'.numObjects = (gc.reachable l).length
  roots : gc'.roots = gc.roots

theorem collect_spec (ok : Collectable gc l) (enough : 2 * gc.heap.cells.length < fuel) :
    ∃ gc', gc.collect P fuel = .ok gc' ∧ Collected gc gc' l := by
  obtain ⟨h, run, same, marks⟩ := markRoots_marks enough ok.listed ok.ready ok.typed
  have exact := marks.exact (L := {a | a ∈ l}) ok.unmarked ok.outward
  have survivors : h.survivors l = gc.reachable l := by
    apply List.filter_congr
    intro a member
    exact decide_eq_decide.mpr (exact a member)
  have dead : h.dead l = gc.garbage l := by
    apply List.filter_congr
    intro a member
    exact decide_eq_decide.mpr (not_congr (exact a member))
  have tables (a : Addr) : h.tables a = gc.heap.tables a := tables_congr (same.obj a)
  have long := linked_length ok.listed
  have room : l.length ≤ fuel := by omega
  have total : (gc.garbage l).length + (gc.reachable l).length = l.length := by
    have split := List.length_eq_length_filter_add (l := l) (gc.Reachable l ·)
    simp only [GC.garbage, GC.reachable, decide_not]
    omega
  have sweepable : Sweepable { gc with heap := h } gc.objects [] l := by
    refine ⟨.nil, ok.listed.congr (fun a _ => same.next a), ok.listed.nodup, ?_, ?_⟩
    · change Owned h (h.dead l) l
      rw [dead]
      refine ⟨?_, ?_, ?_⟩
      · rw [List.flatMap_congr (fun a _ => tables a)]
        exact ok.owned.nodup
      · intro x member a table
        exact same.live.mpr (ok.owned.live x member a (tables x ▸ table))
      · intro x member a table
        exact ok.owned.unlisted x member a (tables x ▸ table)
    · change (h.dead l).length ≤ gc.numObjects
      rw [dead, ok.count]
      omega
  obtain ⟨gc', sweep, linked, swept, number, settings⟩ := sweep_spec (P := P) 0 sweepable room
  change Swept l h gc'.heap at swept
  have freed (a : Addr) : h.Freed l a ↔ a ∈ gc.garbage l ∨ a ∈ (gc.garbage l).flatMap gc.heap.tables := by
    unfold Heap.Freed
    rw [List.mem_flatMap, ← dead]
    simp only [Heap.dead, List.mem_filter, decide_eq_true_eq, tables]
    constructor
    · rintro ⟨x, member, unmarked, rfl | table⟩
      · exact .inl ⟨member, unmarked⟩
      · exact .inr ⟨x, ⟨member, unmarked⟩, table⟩
    · rintro (⟨member, unmarked⟩ | ⟨x, ⟨member, unmarked⟩, table⟩)
      · exact ⟨a, member, unmarked, .inl rfl⟩
      · exact ⟨x, member, unmarked, .inr table⟩
  have notMarked (a : Addr) (gone : h.Freed l a) : a ∉ gc'.heap.marked := by
    rintro ⟨c, live, -⟩
    rw [swept.gone a gone] at live
    cases live
  let done : GC := { gc' with
    collectionCount := gc'.collectionCount + 1
    totalCollected := gc'.totalCollected + (h.dead l).length
    threshold := max (P.scaled gc'.numObjects (h.dead l).length) 1024 }
  refine ⟨done, ?_, ?_, ?_, ?_, ?_, ?_, ?_, settings.roots⟩
  · rw [GC.collect, run]
    change (GC.sweep P fuel { gc with heap := h } none gc.objects 0 >>= _) = _
    rw [List.getLast?_nil] at sweep
    rw [sweep, Nat.zero_add]
    rfl
  · rw [← survivors]
    exact linked
  · intro a member
    exact swept.gone a ((freed a).mpr (.inl member))
  · intro a reachable unowned
    have kept : ¬h.Freed l a := by
      rw [freed, not_or]
      exact ⟨reachable, unowned⟩
    exact (swept.obj a kept).trans (same.obj a)
  · intro a member
    by_cases gone : h.Freed l a
    · exact notMarked a gone
    · intro marked
      exact ((swept.marked a gone).mp marked).2 member
  · intro a marked
    by_cases gone : h.Freed l a
    · exact absurd marked (notMarked a gone)
    · exact marks.sound a ((swept.marked a gone).mp marked).1
  · change gc'.numObjects = _
    rw [number]
    change gc.numObjects - (h.dead l).length = _
    rw [dead, ok.count]
    omega

/-! ## Reachability after a collection -/

theorem upvalue_congr (same : h.obj? a = g.obj? a) : h.upvalue? a = g.upvalue? a := by
  unfold Heap.upvalue?
  rw [same]

theorem thread_congr (same : h.obj? a = g.obj? a) : h.thread? a = g.thread? a := by
  unfold Heap.thread?
  rw [same]

theorem chain_congr {chain : List Addr} (linked : Chain g up chain)
    (same : ∀ x ∈ chain, h.obj? x = g.obj? x) : Chain h up chain := by
  apply linked.congr
  intro x member
  rw [upvalue_congr (same x member)]

section Unchanged

variable {R : Set Addr} (ready : Ready g R) (same : ∀ a, Reaches (Edge g) R a → h.obj? a = g.obj? a)

include ready same

theorem chain_unchanged {t : Thread} (path : Reaches (Edge g) R a) (found : g.thread? a = some t) :
    ∃ chain, Chain g t.openUpval chain ∧ Chain h t.openUpval chain := by
  obtain ⟨chain, linked⟩ := ready.chain a t path found
  refine ⟨chain, linked, chain_congr linked ?_⟩
  intro x member
  apply same
  have refers : (Obj.thread t).Refers g x := .inr (.inr (.inl ((onChain_iff linked).mpr member)))
  exact path.step ((edge_iff (Heap.thread_iff.mp found)).mpr refers)

theorem edge_unchanged (path : Reaches (Edge g) R a) : Edge h a b ↔ Edge g a b := by
  obtain ⟨o, found⟩ := Heap.live_iff.mp (ready.live a path)
  rw [edge_iff found, edge_iff ((same a path).trans found)]
  cases o with
  | thread t =>
      obtain ⟨chain, before, after⟩ := chain_unchanged ready same path (Heap.thread_iff.mpr found)
      simp only [Obj.Refers, onChain_iff before, onChain_iff after]
  | _ => rfl

theorem reaches_unchanged : Reaches (Edge h) R a ↔ Reaches (Edge g) R a := by
  constructor
  · intro path
    apply path.induct (fun r member => .root member)
    intro a b _ ih e
    exact ih.step ((edge_unchanged ready same ih).mp e)
  · intro path
    apply path.induct (fun r member => .root member)
    intro a b before ih e
    exact ih.step ((edge_unchanged ready same before).mpr e)

theorem ready_unchanged : Ready h R where
  live a path := by
    have before := (reaches_unchanged ready same).mp path
    rw [Heap.live_iff, same a before, ← Heap.live_iff]
    exact ready.live a before
  chain a t path found := by
    have before := (reaches_unchanged ready same).mp path
    rw [thread_congr (same a before)] at found
    obtain ⟨chain, -, after⟩ := chain_unchanged ready same before found
    exact ⟨chain, after⟩

end Unchanged

/-! ## Well-listed heaps -/

-- with roots the list holds all that is reachable; without them every listed object is kept, and
-- what it leads to must only be allocated
structure WellListed (gc : GC) (l : List Addr) : Prop where
  listed : Linked gc.heap.next? gc.objects none l
  unmarked : ∀ a ∈ l, a ∉ gc.heap.marked
  closed : gc.roots ≠ none → ∀ a, gc.Reachable l a → a ∈ l
  live : gc.roots = none → ∀ a, gc.Reachable l a → gc.heap.Live a
  chains : ∀ a t, gc.Reachable l a → gc.heap.thread? a = some t → ∃ chain, Chain gc.heap t.openUpval chain
  typed : ∀ roots a, gc.roots = some roots → roots.mainThread = some a → ∃ t, gc.heap.thread? a = some t
  owned : Owned gc.heap (gc.garbage l) l
  count : gc.numObjects = l.length

theorem mem_reachable : a ∈ gc.reachable l ↔ a ∈ l ∧ gc.Reachable l a := by simp [GC.reachable]
theorem mem_garbage : a ∈ gc.garbage l ↔ a ∈ l ∧ ¬gc.Reachable l a := by simp [GC.garbage]

theorem start_unset (unset : gc.roots = none) : a ∈ gc.start l ↔ a ∈ l := by
  simp [GC.start, unset]

theorem reachable_unset (unset : gc.roots = none) : gc.reachable l = l := by
  apply List.filter_eq_self.mpr
  intro a member
  exact decide_eq_true (.root ((start_unset unset).mpr member))

theorem start_collected (done : Collected gc gc' l) : gc'.start (gc.reachable l) = gc.start l := by
  unfold GC.start
  rw [done.roots]
  cases unset : gc.roots with
  | some roots => rfl
  | none => rw [reachable_unset unset]

theorem owned_nil {all : List Addr} : Owned h [] all := by
  refine ⟨List.nodup_nil, ?_, ?_⟩
  · intro x member
    cases member
  · intro x member
    cases member

namespace WellListed

variable (wf : WellListed gc l)

include wf

theorem collectable : Collectable gc l := by
  refine ⟨wf.listed, wf.unmarked, ⟨?_, wf.chains⟩, wf.typed, ?_, wf.owned, wf.count⟩
  · intro a path
    by_cases unset : gc.roots = none
    · exact wf.live unset a path
    · obtain ⟨q, step⟩ := wf.listed.live (wf.closed unset a path)
      obtain ⟨c, live, -⟩ := Option.map_eq_some_iff.mp step
      exact ⟨c, live⟩
  · intro a b path outside _ member
    by_cases unset : gc.roots = none
    · exact (start_unset unset).mpr member
    · exact absurd (wf.closed unset a path) outside

theorem unchanged (done : Collected gc gc' l) (path : gc.Reachable l a) :
    gc'.heap.obj? a = gc.heap.obj? a := by
  apply done.obj a
  · exact fun garbage => (mem_garbage.mp garbage).2 path
  · intro owned
    obtain ⟨x, garbage, table⟩ := List.mem_flatMap.mp owned
    by_cases unset : gc.roots = none
    · have member := (mem_garbage.mp garbage).1
      exact (mem_garbage.mp garbage).2 (.root ((start_unset unset).mpr member))
    · exact wf.owned.unlisted x garbage a table (wf.closed unset a path)

theorem reachable_collected (done : Collected gc gc' l) :
    gc'.Reachable (gc.reachable l) a ↔ gc.Reachable l a := by
  unfold GC.Reachable
  rw [start_collected done]
  exact reaches_unchanged wf.collectable.ready (fun a path => wf.unchanged done path)

-- everything that is left is reachable
theorem collectable_again (done : Collected gc gc' l) : Collectable gc' (gc.reachable l) := by
  have nothing : gc'.garbage (gc.reachable l) = [] := by
    apply List.filter_eq_nil_iff.mpr
    intro a member
    rw [decide_eq_true_eq, not_not, wf.reachable_collected done]
    exact (mem_reachable.mp member).2
  refine ⟨done.list, ?_, ?_, ?_, ?_, ?_, done.count⟩
  · intro a member
    exact done.unmarked a (mem_reachable.mp member).1
  · rw [start_collected done]
    exact ready_unchanged wf.collectable.ready (fun a path => wf.unchanged done path)
  · intro roots a set main
    rw [done.roots] at set
    obtain ⟨t, found⟩ := wf.typed roots a set main
    have root : a ∈ gc.start l := by simp [GC.start, set, main]
    exact ⟨t, (thread_congr (wf.unchanged done (.root root))).trans found⟩
  · intro a b path outside _ member
    rw [wf.reachable_collected done] at path
    rw [start_collected done]
    by_cases unset : gc.roots = none
    · exact (start_unset unset).mpr (mem_reachable.mp member).1
    · exact absurd (mem_reachable.mpr ⟨wf.closed unset a path, path⟩) outside
  · rw [nothing]
    exact owned_nil

end WellListed

def somePlatform : Platform := ⟨fun _ => 0, fun _ _ => 0⟩

-- the globals hold one table, and a third table is garbage
def smallHeap : GC where
  heap := ⟨[some { obj := .table { array := [.table 1] } }, some { next := some 0, obj := .table {} },
    some { next := some 1, obj := .table {} }]⟩
  objects := some 2
  numObjects := 3
  roots := some { globals := some 0 }

theorem refers_empty : ¬Obj.Refers h b (.table {}) := by
  rintro (metatable | ⟨v, member, -⟩ | ⟨v, member, -⟩)
  · cases metatable
  · cases member
  · cases member

theorem smallHeap_wellListed : WellListed smallHeap [2, 1, 0] := by
  have path (a : Addr) (reached : smallHeap.Reachable [2, 1, 0] a) : a = 0 ∨ a = 1 := by
    refine reached.induct (P := fun a => a = 0 ∨ a = 1) ?_ ?_
    · rintro r (globals | registry | main)
      · exact .inl (Option.some.inj globals).symm
      · cases registry
      · cases main
    · rintro a b - (rfl | rfl) ⟨o, found, refers⟩
      · cases found
        rcases refers with metatable | held | held
        · cases metatable
        · obtain ⟨v, member, object⟩ := held
          rw [List.mem_singleton.mp member] at object
          exact .inr (Option.some.inj object).symm
        · obtain ⟨v, member, -⟩ := held
          cases member
      · cases found
        exact absurd refers refers_empty
  have noThread (a : Addr) (member : a ∈ [2, 1, 0]) : smallHeap.heap.thread? a = none := by
    simp only [List.mem_cons, List.not_mem_nil, or_false] at member
    rcases member with rfl | rfl | rfl <;> rfl
  have noTables (a : Addr) (garbage : a ∈ smallHeap.garbage [2, 1, 0]) : smallHeap.heap.tables a = [] := by
    rw [Heap.tables, noThread a (mem_garbage.mp garbage).1]
  have listed : ∀ a, smallHeap.Reachable [2, 1, 0] a → a ∈ [2, 1, 0] := by
    intro a reached
    rcases path a reached with rfl | rfl <;> decide
  refine ⟨.cons rfl (.cons rfl (.cons rfl .nil)), ?_, fun _ => listed, ?_, ?_, ?_, ?_, rfl⟩
  · rintro a member ⟨c, live, marked⟩
    simp only [List.mem_cons, List.not_mem_nil, or_false] at member
    rcases member with rfl | rfl | rfl <;> cases live <;> exact marked rfl
  · intro unset
    cases unset
  · intro a t reached found
    rw [noThread a (listed a reached)] at found
    cases found
  · intro roots a set main
    cases set
    cases main
  · refine ⟨?_, ?_, ?_⟩
    · rw [List.flatMap_eq_nil_iff.mpr noTables]
      exact List.nodup_nil
    · intro x garbage a table
      rw [noTables x garbage] at table
      cases table
    · intro x garbage a table
      rw [noTables x garbage] at table
      cases table

-- one unreachable table, not counted
def uncounted : GC where
  heap := ⟨[some { obj := .table {} }]⟩
  objects := some 0
  roots := some {}

-- an unreachable thread whose globals are the reachable table behind it on the list
def sharing : Thread := ⟨[], 0, Nat.le_refl 0, none, 1, 2⟩

def shared : GC where
  heap := ⟨[some { next := some 1, obj := .thread sharing }, some { obj := .table {} },
    some { obj := .table {} }]⟩
  objects := some 0
  numObjects := 2
  roots := some { globals := some 1 }

-- an open upvalue that is its own successor
def looping : Thread := ⟨[], 0, Nat.le_refl 0, some 1, 2, 3⟩

def cyclicHeap (m : UInt8) : Heap := ⟨[some { next := some 1, marked := m, obj := .thread looping },
  some { next := some 2, marked := m, obj := .upvalue { value := some 0, next := some 1 } },
  some { next := some 3, marked := m, obj := .table {} }, some { marked := m, obj := .table {} }]⟩

def cyclic : GC where
  heap := cyclicHeap 0
  objects := some 0
  numObjects := 4
  roots := some { mainThread := some 0 }

-- a list that ends and holds what is reachable, with all marks 0
def Listed (gc : GC) (l : List Addr) : Prop :=
  Linked gc.heap.next? gc.objects none l ∧ (∀ a, gc.Reachable l a → a ∈ l) ∧ gc.heap.marked = ∅

theorem markUpvals_cyclic {mark : Heap → Addr → Except Fault Heap} {h : Heap} {u : Addr} {uv : UpValue}
    (found : h.upvalue? u = some uv) (loop : uv.next = some u) (idle : mark h u = .ok h) (fuel : Nat) :
    markUpvals mark fuel h (some u) = .error .outOfFuel := by
  induction fuel with
  | zero => rfl
  | succ fuel ih =>
      rw [markUpvals, idle]
      simp only [bind, Except.bind, found, loop, ih]

theorem cyclic_diverges : ¬∃ fuel gc', cyclic.collect somePlatform fuel = .ok gc' := by
  rintro ⟨fuel, gc', run⟩
  obtain _ | _ | fuel := fuel
  · cases run
  · cases run
  · have loop : markUpvals (markObject (fuel + 1)) fuel (cyclicHeap 1) (some 1) = .error .outOfFuel :=
      markUpvals_cyclic rfl rfl rfl fuel
    have stuck : markRoots (fuel + 2) cyclic = .error .outOfFuel := by
      change ((markUpvals (markObject (fuel + 1)) fuel (cyclicHeap 1) (some 1) >>= _) >>= _) = _
      rw [loop]
      rfl
    rw [GC.collect, stuck] at run
    cases run

theorem marked_empty {h : Heap} (clean : (h.cells.all fun c => c.all fun c => c.marked == 0) = true) :
    h.marked = ∅ := by
  apply Set.eq_empty_of_forall_notMem
  rintro a ⟨c, live, marked⟩
  have member := List.mem_of_getElem? (Option.join_eq_some_iff.mp live)
  have zero := List.all_eq_true.mp clean _ member
  exact marked (by simpa using zero)

theorem uncounted_listed : Listed uncounted [0] := by
  refine ⟨.cons rfl .nil, ?_, marked_empty rfl⟩
  rintro a ⟨r, (globals | registry | main), -⟩
  · cases globals
  · cases registry
  · cases main

theorem shared_listed : Listed shared [0, 1] := by
  refine ⟨.cons rfl (.cons rfl .nil), ?_, marked_empty rfl⟩
  intro a reached
  suffices same : a = 1 by
    rw [same]
    decide
  refine reached.induct (P := fun a => a = 1) ?_ ?_
  · rintro r (globals | registry | main)
    · exact (Option.some.inj globals).symm
    · cases registry
    · cases main
  · rintro a b - rfl ⟨o, found, refers⟩
    cases found
    exact absurd refers refers_empty

theorem onChain_cyclic (on : OnChain (cyclicHeap 0) up b) : up = some 1 → b = 1 := by
  induction on with
  | head =>
      intro same
      exact Option.some.inj same
  | tail found _ ih =>
      intro same
      rw [Option.some.inj same] at found
      cases found
      exact ih rfl

theorem cyclic_listed : Listed cyclic [0, 1, 2, 3] := by
  refine ⟨.cons rfl (.cons rfl (.cons rfl (.cons rfl .nil))), ?_, marked_empty rfl⟩
  intro a reached
  refine reached.induct (P := fun a => a ∈ [0, 1, 2, 3]) ?_ ?_
  · rintro r (globals | registry | main)
    · cases globals
    · cases registry
    · rw [← Option.some.inj main]
      decide
  · rintro a b - member ⟨o, found, refers⟩
    simp only [List.mem_cons, List.not_mem_nil, or_false] at member
    rcases member with rfl | rfl | rfl | rfl
    · cases found
      rcases refers with globals | registry | on | ⟨v, member, -⟩
      · simp [← globals, looping]
      · simp [← registry, looping]
      · simp [onChain_cyclic on rfl]
      · cases member
    · cases found
      obtain ⟨v, member, object⟩ := refers
      rw [List.mem_singleton.mp member] at object
      cases object
    · cases found
      exact absurd refers refers_empty
    · cases found
      exact absurd refers refers_empty

end Zua.Memory
