import Zua.Memory.Trace

/-!
# Registration

The calls that put objects on the collector's list, from `object.zig` and `createUpValue`. A closure
registers its prototype as well, whether or not it is on the list.
-/

namespace Zua.Memory
open Object
open scoped Classical

inductive Call
  | string (s : Str)
  | table
  | closure (proto : Addr)
  | cClosure (func numUpvalues : Nat)
  | userdata (data : Addr)
  | thread (stackSize : Nat)
  | function (f : Function)
  | upvalue (slot : Nat) (openUpval : Option Addr)
  | compile (f : Function)
  | collect

def newThread (stackSize : Nat) (globals registry : Addr) : Thread :=
  ⟨List.replicate stackSize .nil, 0, Nat.zero_le _, none, globals, registry⟩

namespace GC

variable (P : Platform) (fuel : Nat)

def initWithGC (gc : GC) (o : Obj) : Except Fault GC :=
  { gc with heap := (gc.heap.create o).1 }.addObject P fuel gc.heap.cells.length

def call (gc : GC) : Call → Except Fault GC
  | .string s => gc.initWithGC P fuel (.string { s with addr := gc.heap.cells.length })
  | .table => gc.initWithGC P fuel (.table {})
  | .closure proto =>
      match gc.heap.obj? proto with
      | some (.proto f) => do
          let gc ← gc.initWithGC P fuel (.closure proto (List.replicate f.numUpvalues none))
          gc.addObject P fuel proto
      | some _ => .error .badCast
      | none => .error .useAfterFree
  | .cClosure func n => gc.initWithGC P fuel (.cClosure func (List.replicate n .nil) none)
  | .userdata data => gc.initWithGC P fuel (.userdata data none)
  | .thread stackSize =>
      let (h, globals) := gc.heap.create (.table {})
      let (h, registry) := h.create (.table {})
      { gc with heap := h }.initWithGC P fuel (.thread (newThread stackSize globals registry))
  | .function f => gc.initWithGC P fuel (.proto f)
  -- the upvalue is put on the open list after it is registered
  | .upvalue slot openUpval => do
      let gc' ← gc.initWithGC P fuel (.upvalue ⟨some slot, .nil, none⟩)
      match gc'.heap.get gc.heap.cells.length with
      | some cell =>
          let linked : Cell := { cell with obj := .upvalue ⟨some slot, .nil, openUpval⟩ }
          .ok { gc' with heap := gc'.heap.put gc.heap.cells.length linked }
      | none => .error .useAfterFree
  | .compile f => .ok { gc with heap := (gc.heap.create (.proto f)).1 }
  | .collect => gc.collect P fuel

def OnList (gc : GC) (a : Addr) : Prop := ∃ p l, Linked gc.heap.next? gc.objects p (l ++ [a])

-- the objects that a call hands to `addObject`
def registers (gc : GC) : Call → Set Addr
  | .closure proto => {gc.heap.cells.length, proto}
  | .thread _ => {gc.heap.cells.length + 2}
  | .compile _ | .collect => ∅
  | _ => {gc.heap.cells.length}

end GC

-- what stores into the objects leave as it is
structure Stores (h h' : Heap) : Prop where
  size : h'.cells.length = h.cells.length
  header : ∀ a, (h'.get a).map (fun c => (c.next, c.marked, c.obj.objType)) =
    (h.get a).map fun c => (c.next, c.marked, c.obj.objType)
  tables : ∀ a, h'.tables a = h.tables a

inductive Session (P : Platform) (ok : GC → Call → Prop) : GC → Set Addr → Prop
  | init : Session P ok {} ∅
  | call {gc gc' : GC} {R : Set Addr} {c : Call} {n : Nat} : Session P ok gc R → ok gc c →
      gc.heap.cells.length + 3 ≤ n → gc.call P n c = .ok gc' →
      Session P ok gc' (R ∪ gc.registers c)
  | stores {gc : GC} {R : Set Addr} {h : Heap} : Session P ok gc R → Stores gc.heap h →
      Session P ok { gc with heap := h } R
  | setRoots {gc : GC} {R : Set Addr} (roots : Option Roots) : Session P ok gc R →
      Session P ok { gc with roots } R

-- the list ends, passes the live registered objects once each and has the counted length
def ObjectsListed (gc : GC) (R : Set Addr) : Prop :=
  ∃ l, Linked gc.heap.next? gc.objects none l ∧ l.Nodup ∧ (∀ a, a ∈ l ↔ a ∈ R ∧ gc.heap.Live a) ∧
    gc.numObjects = l.length

def ProtoNew (gc : GC) : Call → Prop
  | .closure proto => ¬gc.OnList proto
  | _ => True

/-! ## The invariant -/

-- the heap in which a new thread is registered
def threadHeap (h : Heap) (stackSize : Nat) : Heap :=
  let (h₁, globals) := h.create (.table {})
  let (h₂, registry) := h₁.create (.table {})
  (h₂.create (.thread (newThread stackSize globals registry))).1

theorem threadHeap_size (h : Heap) (stackSize : Nat) :
    (threadHeap h stackSize).cells.length = h.cells.length + 3 := by
  simp [threadHeap, Heap.create]

theorem GC.call_thread {P : Platform} {gc : GC} {fuel : Nat} (stackSize : Nat) : gc.call P fuel (.thread stackSize) =
    GC.addObject P fuel { gc with heap := threadHeap gc.heap stackSize } (gc.heap.cells.length + 2) := by
  unfold GC.call GC.initWithGC threadHeap
  simp only [Heap.create, List.length_append, List.length_cons, List.length_nil, Nat.zero_add, Nat.add_assoc]

structure Registry (gc : GC) (R : Set Addr) (l : List Addr) : Prop where
  linked : Linked gc.heap.next? gc.objects none l
  count : gc.numObjects = l.length
  member : ∀ a, a ∈ l ↔ a ∈ R ∧ gc.heap.Live a
  bound : ∀ a ∈ R, a < gc.heap.cells.length
  nodup : (l.flatMap gc.heap.tables).Nodup
  tables : ∀ x ∈ l, ∀ a ∈ gc.heap.tables x, a ∉ R ∧ (gc.heap.obj? a).map Obj.objType = some .table

theorem linked_mem {next : Addr → Option (Option Addr)} {p q : Option Addr} {l front : List Addr} {a : Addr}
    (part : Linked next p q (front ++ [a])) (all : Linked next p none l) : a ∈ l := by
  induction front generalizing p l with
  | nil =>
      cases part
      obtain ⟨p, rest, rfl, -, -⟩ := all.head
      exact List.mem_cons_self
  | cons x front ih =>
      cases part with
      | cons step part =>
          obtain ⟨p', rest, rfl, step', all⟩ := all.head
          cases step.symm.trans step'
          exact List.mem_cons_of_mem x (ih part all)

namespace Registry

variable {P : Platform} {gc gc' : GC} {R : Set Addr} {l : List Addr} {a : Addr} {o : Obj} {c : Cell}
  {fuel : Nat}

theorem owned (reg : Registry gc R l) : Owned gc.heap l l where
  nodup := reg.nodup
  live x member a table := by
    obtain ⟨o, found, -⟩ := Option.map_eq_some_iff.mp (reg.tables x member a table).2
    exact Heap.live_iff.mpr ⟨o, found⟩
  unlisted x member a table listed := (reg.tables x member a table).1 ((reg.member a).mp listed).1

theorem objectsListed (reg : Registry gc R l) : ObjectsListed gc R :=
  ⟨l, reg.linked, reg.linked.nodup, reg.member, reg.count⟩

theorem onList_iff (reg : Registry gc R l) : gc.OnList a ↔ a ∈ l := by
  constructor
  · rintro ⟨p, front, linked⟩
    exact linked_mem linked reg.linked
  · intro member
    obtain ⟨front, back, rfl⟩ := List.append_of_mem member
    have linked := reg.linked
    rw [← List.singleton_append, ← List.append_assoc] at linked
    obtain ⟨p, linked, -⟩ := linked.split
    exact ⟨p, front, linked⟩

-- objects may only go
structure After (gc gc' : GC) (l l' : List Addr) : Prop where
  sub : l' ⊆ l
  obj : ∀ b o, gc'.heap.obj? b = some o → gc.heap.obj? b = some o
  size : gc'.heap.cells.length = gc.heap.cells.length

theorem collect (reg : Registry gc R l) (enough : gc.heap.cells.length ≤ fuel)
    (run : gc.collect P fuel = .ok gc') : ∃ l', Registry gc' R l' ∧ After gc gc' l l' := by
  obtain ⟨h, kept⟩ := collect_kept reg.linked reg.count (fun _ same _ => reg.owned.dead same)
    ((linked_length reg.linked).trans enough) run
  have survives (a : Addr) : a ∈ h.survivors l ↔ a ∈ l ∧ a ∈ h.marked := by
    simp [Heap.survivors]
  have tables (x : Addr) : h.tables x = gc.heap.tables x := tables_congr (kept.same.obj x)
  have unfreed {x a : Addr} (member : x ∈ h.survivors l) (here : a = x ∨ a ∈ gc.heap.tables x) :
      ¬h.Freed l a := by
    obtain ⟨inside, marked⟩ := (survives x).mp member
    rintro ⟨y, inside', unmarked, freed⟩
    have distinct : x ≠ y := fun same => unmarked (same ▸ marked)
    rw [tables] at freed
    rcases here with rfl | table
    · rcases freed with same | table
      · exact distinct same
      · exact (reg.tables y inside' a table).1 ((reg.member a).mp inside).1
    · rcases freed with rfl | table'
      · exact (reg.tables x inside a table).1 ((reg.member a).mp inside').1
      · have : Std.Symm (Function.onFun List.Disjoint gc.heap.tables) := ⟨fun _ _ disjoint => disjoint.symm⟩
        exact (List.nodup_flatMap.mp reg.nodup).2.forall inside inside' distinct table table'
  have same (x : Addr) (member : x ∈ h.survivors l) : gc'.heap.tables x = gc.heap.tables x := by
    rw [tables_congr (kept.swept.obj x (unfreed member (.inl rfl))), tables]
  have stays {b : Addr} {o : Obj} (found : gc'.heap.obj? b = some o) : ¬h.Freed l b := by
    intro freed
    rw [Heap.obj?, kept.swept.gone b freed] at found
    cases found
  refine ⟨h.survivors l, ⟨kept.linked, kept.count, ?_, ?_, ?_, ?_⟩, ?_⟩
  · intro a
    constructor
    · intro member
      obtain ⟨q, step⟩ := kept.linked.live member
      obtain ⟨c, live, -⟩ := Option.map_eq_some_iff.mp step
      exact ⟨((reg.member a).mp ((survives a).mp member).1).1, c, live⟩
    · rintro ⟨registered, live⟩
      obtain ⟨o, found⟩ := Heap.live_iff.mp live
      have remains := stays found
      rw [kept.swept.obj a remains, kept.same.obj] at found
      have inside := (reg.member a).mpr ⟨registered, Heap.live_iff.mpr ⟨o, found⟩⟩
      refine (survives a).mpr ⟨inside, ?_⟩
      by_contra unmarked
      exact remains ⟨a, inside, unmarked, .inl rfl⟩
  · intro a registered
    rw [kept.size]
    exact reg.bound a registered
  · rw [List.flatMap_congr fun x member => same x member]
    exact reg.nodup.sublist (List.filter_sublist.flatMap _)
  · intro x member a table
    rw [same x member] at table
    obtain ⟨unregistered, found⟩ := reg.tables x ((survives x).mp member).1 a table
    refine ⟨unregistered, ?_⟩
    rw [kept.swept.obj a (unfreed member (.inr table)), kept.same.obj, found]
  · refine ⟨List.filter_sublist.subset, ?_, kept.size⟩
    intro b o found
    rw [← found, kept.swept.obj b (stays found), kept.same.obj]

theorem stores {h : Heap} (reg : Registry gc R l) (same : Stores gc.heap h) :
    Registry { gc with heap := h } R l := by
  have next (a : Addr) : h.next? a = gc.heap.next? a := by
    have header := congrArg (Option.map Prod.fst) (same.header a)
    rwa [Option.map_map, Option.map_map] at header
  have live (a : Addr) : h.Live a ↔ gc.heap.Live a := by
    have header := same.header a
    unfold Heap.Live
    cases found : h.get a <;> cases found' : gc.heap.get a <;> simp [found, found'] at header ⊢
  refine ⟨reg.linked.congr fun a _ => next a, reg.count, fun a => ?_, fun a member => ?_, ?_, ?_⟩
  · rw [reg.member, live]
  · rw [same.size]
    exact reg.bound a member
  · rw [List.flatMap_congr fun x _ => same.tables x]
    exact reg.nodup
  · intro x member a table
    rw [same.tables] at table
    obtain ⟨unregistered, found⟩ := reg.tables x member a table
    have header := congrArg (Option.map (fun x : Option Addr × UInt8 × ObjType => x.2.2)) (same.header a)
    rw [Option.map_map, Option.map_map] at header
    rw [Heap.obj?, Option.map_map] at found
    refine ⟨unregistered, ?_⟩
    rw [Heap.obj?, Option.map_map]
    exact header.trans found

/-! ## Allocation and registration -/

theorem create (reg : Registry gc R l) (o : Obj) : Registry { gc with heap := (gc.heap.create o).1 } R l := by
  have old {a : Addr} (live : gc.heap.Live a) : a ≠ gc.heap.cells.length := by
    obtain ⟨c, live⟩ := live
    exact Nat.ne_of_lt (Heap.live_lt live)
  have get {a : Addr} (ne : a ≠ gc.heap.cells.length) : (gc.heap.create o).1.get a = gc.heap.get a := by
    rw [Heap.get_create, if_neg ne]
  have obj {a : Addr} (ne : a ≠ gc.heap.cells.length) : (gc.heap.create o).1.obj? a = gc.heap.obj? a := by
    rw [Heap.obj?, get ne, Heap.obj?]
  have listed {x : Addr} (member : x ∈ l) : x ≠ gc.heap.cells.length := old ((reg.member x).mp member).2
  have tables {x : Addr} (member : x ∈ l) : (gc.heap.create o).1.tables x = gc.heap.tables x :=
    tables_congr (obj (listed member))
  refine ⟨reg.linked.congr fun a member => ?_, reg.count, fun a => ?_, fun a member => ?_, ?_, ?_⟩
  · change (gc.heap.create o).1.next? a = _
    rw [Heap.next?, get (listed member), Heap.next?]
  · rw [reg.member]
    refine and_congr_right fun registered => ?_
    unfold Heap.Live
    rw [get (Nat.ne_of_lt (reg.bound a registered))]
  · change a < (gc.heap.cells ++ _).length
    rw [List.length_append]
    exact Nat.lt_add_right _ (reg.bound a member)
  · rw [List.flatMap_congr fun x member => tables member]
    exact reg.nodup
  · intro x member a table
    rw [tables member] at table
    obtain ⟨unregistered, found⟩ := reg.tables x member a table
    refine ⟨unregistered, ?_⟩
    obtain ⟨o', found', -⟩ := Option.map_eq_some_iff.mp found
    rw [obj (old (Heap.live_iff.mpr ⟨o', found'⟩)), found]

-- an object off the list that no listed thread owns, with tables of its own if it is a thread
structure Free (gc : GC) (R : Set Addr) (l : List Addr) (a : Addr) : Prop where
  outside : a ∉ l
  unowned : a ∉ l.flatMap gc.heap.tables
  nodup : (gc.heap.tables a).Nodup
  apart : ∀ b ∈ gc.heap.tables a, b ∉ l.flatMap gc.heap.tables ∧ b ∉ R ∧ b ≠ a ∧
    (gc.heap.obj? b).map Obj.objType = some .table

theorem link (reg : Registry gc R l) (free : Free gc R l a) (run : gc.link P a = .ok gc') :
    Registry gc' (R ∪ {a}) (a :: l) ∧ gc'.heap.cells.length = gc.heap.cells.length := by
  unfold GC.link at run
  split at run
  · cases run
  · rename_i c live
    cases run
    have get (b : Addr) := Heap.get_put (b := b) (c := { c with next := gc.objects }) ⟨c, live⟩
    have obj (b : Addr) : (gc.heap.put a { c with next := gc.objects }).obj? b = gc.heap.obj? b := by
      unfold Heap.obj?
      rw [get]
      split
      · rename_i same
        rw [← same, live]
        rfl
      · rfl
    have tables (b : Addr) : (gc.heap.put a { c with next := gc.objects }).tables b = gc.heap.tables b :=
      tables_congr (obj b)
    have alive (b : Addr) : (gc.heap.put a { c with next := gc.objects }).Live b ↔ gc.heap.Live b := by
      rw [Heap.live_iff, Heap.live_iff, obj]
    refine ⟨⟨.cons ?_ (reg.linked.congr ?_), congrArg (· + 1) reg.count, ?_, ?_, ?_, ?_⟩, List.length_set⟩
    · change (gc.heap.put a _).next? a = _
      rw [Heap.next?, get, if_pos rfl]
      rfl
    · intro b member
      change (gc.heap.put a _).next? b = _
      rw [Heap.next?, get, if_neg (fun same : a = b => free.outside (same ▸ member)), Heap.next?]
    · intro b
      change b ∈ a :: l ↔ b ∈ R ∪ {a} ∧ (gc.heap.put a _).Live b
      rw [alive, List.mem_cons, reg.member, Set.mem_union, Set.mem_singleton_iff]
      constructor
      · rintro (rfl | ⟨registered, alive⟩)
        · exact ⟨.inr rfl, c, live⟩
        · exact ⟨.inl registered, alive⟩
      · rintro ⟨registered | rfl, alive⟩
        · exact .inr ⟨registered, alive⟩
        · exact .inl rfl
    · rintro b (registered | rfl)
      · change b < (gc.heap.cells.set _ _).length
        rw [List.length_set]
        exact reg.bound b registered
      · change b < (gc.heap.cells.set _ _).length
        rw [List.length_set]
        exact Heap.live_lt live
    · change ((a :: l).flatMap (gc.heap.put a _).tables).Nodup
      rw [List.flatMap_congr fun x _ => tables x, List.flatMap_cons, List.nodup_append]
      refine ⟨free.nodup, reg.nodup, ?_⟩
      rintro b member d member' rfl
      exact (free.apart b member).1 member'
    · intro x member b table
      change b ∈ (gc.heap.put a _).tables x at table
      change b ∉ R ∪ {a} ∧ ((gc.heap.put a _).obj? b).map Obj.objType = some .table
      rw [tables] at table
      rw [obj]
      rcases List.mem_cons.mp member with rfl | listed
      · obtain ⟨-, unregistered, distinct, found⟩ := free.apart b table
        exact ⟨fun inside => inside.elim unregistered distinct, found⟩
      · obtain ⟨unregistered, found⟩ := reg.tables x listed b table
        refine ⟨?_, found⟩
        rintro (registered | rfl)
        · exact unregistered registered
        · exact free.unowned (List.mem_flatMap.mpr ⟨x, listed, table⟩)

theorem link_obj (run : gc.link P a = .ok gc') (b : Addr) : gc'.heap.obj? b = gc.heap.obj? b := by
  unfold GC.link at run
  split at run
  · cases run
  · rename_i c live
    cases run
    unfold Heap.obj?
    rw [Heap.get_put ⟨c, live⟩]
    split
    · rename_i same
      rw [← same, live]
      rfl
    · rfl

theorem addObject (reg : Registry gc R l) (free : Free gc R l a) (enough : gc.heap.cells.length ≤ fuel)
    (run : gc.addObject P fuel a = .ok gc') :
    ∃ l', Registry gc' (R ∪ {a}) l' ∧ After gc gc' (a :: l) l' := by
  unfold GC.addObject at run
  cases linked : gc.link P a with
  | error fault => rw [linked] at run; cases run
  | ok gc₁ =>
      rw [linked] at run
      obtain ⟨reg₁, size⟩ := reg.link free linked
      have obj := link_obj linked
      simp only [bind, Except.bind] at run
      split at run
      · obtain ⟨l', reg', sub, obj', size'⟩ := reg₁.collect (by omega) run
        refine ⟨l', reg', sub, fun b o found => ?_, size'.trans size⟩
        rw [← obj]
        exact obj' b o found
      · cases run
        exact ⟨a :: l, reg₁, List.Subset.refl _, fun b o found => (obj b).symm.trans found, size⟩

-- an object that was just allocated
theorem free_fresh (reg : Registry gc R l) (nodup : ((gc.heap.create o).1.tables gc.heap.cells.length).Nodup)
    (apart : ∀ b ∈ (gc.heap.create o).1.tables gc.heap.cells.length, b < gc.heap.cells.length ∧
      b ∉ l.flatMap gc.heap.tables ∧ b ∉ R ∧ (gc.heap.obj? b).map Obj.objType = some .table) :
    Free { gc with heap := (gc.heap.create o).1 } R l gc.heap.cells.length := by
  have old {a : Addr} (live : gc.heap.Live a) : a ≠ gc.heap.cells.length := by
    obtain ⟨c, live⟩ := live
    exact Nat.ne_of_lt (Heap.live_lt live)
  have obj {a : Addr} (ne : a ≠ gc.heap.cells.length) : (gc.heap.create o).1.obj? a = gc.heap.obj? a := by
    rw [Heap.obj?, Heap.get_create, if_neg ne, Heap.obj?]
  have tables : l.flatMap (gc.heap.create o).1.tables = l.flatMap gc.heap.tables :=
    List.flatMap_congr fun x member => tables_congr (obj (old ((reg.member x).mp member).2))
  refine ⟨fun member => old ((reg.member _).mp member).2 rfl, ?_, nodup, ?_⟩
  · change gc.heap.cells.length ∉ l.flatMap (gc.heap.create o).1.tables
    rw [tables]
    intro member
    obtain ⟨x, listed, table⟩ := List.mem_flatMap.mp member
    obtain ⟨o', found, -⟩ := Option.map_eq_some_iff.mp (reg.tables x listed _ table).2
    exact old (Heap.live_iff.mpr ⟨o', found⟩) rfl
  · intro b table
    change b ∉ l.flatMap (gc.heap.create o).1.tables ∧ b ∉ R ∧ b ≠ gc.heap.cells.length ∧
      ((gc.heap.create o).1.obj? b).map Obj.objType = some .table
    obtain ⟨small, unowned, unregistered, found⟩ := apart b table
    rw [tables, obj (Nat.ne_of_lt small)]
    exact ⟨unowned, unregistered, Nat.ne_of_lt small, found⟩

theorem initWithGC (reg : Registry gc R l) (enough : gc.heap.cells.length + 1 ≤ fuel)
    (nodup : ((gc.heap.create o).1.tables gc.heap.cells.length).Nodup)
    (apart : ∀ b ∈ (gc.heap.create o).1.tables gc.heap.cells.length, b < gc.heap.cells.length ∧
      b ∉ l.flatMap gc.heap.tables ∧ b ∉ R ∧ (gc.heap.obj? b).map Obj.objType = some .table)
    (run : gc.initWithGC P fuel o = .ok gc') :
    ∃ l', Registry gc' (R ∪ {gc.heap.cells.length}) l' ∧
      After { gc with heap := (gc.heap.create o).1 } gc' (gc.heap.cells.length :: l) l' := by
  have size : (gc.heap.create o).1.cells.length = gc.heap.cells.length + 1 := List.length_append
  exact (reg.create o).addObject (reg.free_fresh nodup apart) (by simp only [size]; exact enough) run

theorem tables_create (other : ∀ t, o ≠ .thread t) :
    (gc.heap.create o).1.tables gc.heap.cells.length = [] := by
  have found : (gc.heap.create o).1.obj? gc.heap.cells.length = some o := by
    rw [Heap.obj?, Heap.get_create, if_pos rfl]
    rfl
  unfold Heap.tables Heap.thread?
  rw [found]
  cases o with
  | thread t => exact absurd rfl (other t)
  | _ => rfl

theorem init_plain (reg : Registry gc R l) (enough : gc.heap.cells.length + 1 ≤ fuel)
    (other : ∀ t, o ≠ .thread t) (run : gc.initWithGC P fuel o = .ok gc') :
    ∃ l', Registry gc' (R ∪ {gc.heap.cells.length}) l' ∧
      After { gc with heap := (gc.heap.create o).1 } gc' (gc.heap.cells.length :: l) l' := by
  have none : (gc.heap.create o).1.tables gc.heap.cells.length = [] := tables_create other
  refine reg.initWithGC enough ?_ ?_ run
  · rw [none]
    exact List.nodup_nil
  · rw [none]
    exact fun b member => absurd member List.not_mem_nil

-- a prototype that is not on the list is free after its closure is registered
theorem closure_free {proto : Addr} {f : Function} {gc₁ : GC} {l₁ : List Addr} (reg : Registry gc R l)
    (found : gc.heap.obj? proto = some (.proto f)) (new : ¬gc.OnList proto)
    (reg₁ : Registry gc₁ (R ∪ {gc.heap.cells.length}) l₁)
    (after : After { gc with heap := (gc.heap.create o).1 } gc₁ (gc.heap.cells.length :: l) l₁) :
    Free gc₁ (R ∪ {gc.heap.cells.length}) l₁ proto := by
  have old : proto ≠ gc.heap.cells.length := by
    obtain ⟨c, live⟩ := Heap.live_iff.mpr ⟨_, found⟩
    exact Nat.ne_of_lt (Heap.live_lt live)
  have obj (o : Obj) (here : gc₁.heap.obj? proto = some o) : o = .proto f := by
    have before := after.obj proto o here
    change (gc.heap.create _).1.obj? proto = some o at before
    rw [Heap.obj?, Heap.get_create, if_neg old] at before
    exact Option.some.inj (before.symm.trans found)
  have outside : proto ∉ l₁ := by
    intro member
    rcases List.mem_cons.mp (after.sub member) with same | listed
    · exact old same
    · exact new (reg.onList_iff.mpr listed)
  have none : gc₁.heap.tables proto = [] := by
    unfold Heap.tables
    cases thread : gc₁.heap.thread? proto with
    | none => rfl
    | some t => cases obj _ (Heap.thread_iff.mp thread)
  refine ⟨outside, ?_, ?_, ?_⟩
  · intro member
    obtain ⟨x, listed, table⟩ := List.mem_flatMap.mp member
    obtain ⟨o, here, type⟩ := Option.map_eq_some_iff.mp (reg₁.tables x listed proto table).2
    rw [obj o here] at type
    cases type
  · rw [none]
    exact List.nodup_nil
  · rw [none]
    exact fun b member => absurd member List.not_mem_nil

theorem closure {proto : Addr} (reg : Registry gc R l) (enough : gc.heap.cells.length + 1 ≤ fuel)
    (new : ¬gc.OnList proto) (run : gc.call P fuel (.closure proto) = .ok gc') :
    ∃ l', Registry gc' (R ∪ {gc.heap.cells.length, proto}) l' := by
  rw [GC.call] at run
  split at run
  · rename_i f found
    have plain (t : Thread) : Obj.closure proto (List.replicate f.numUpvalues none) ≠ .thread t := by simp
    cases first : gc.initWithGC P fuel (.closure proto (List.replicate f.numUpvalues none)) with
    | error fault => rw [first] at run; cases run
    | ok gc₁ =>
        rw [first] at run
        obtain ⟨l₁, reg₁, after⟩ := reg.init_plain enough plain first
        have free := reg.closure_free found new reg₁ after
        have size : gc₁.heap.cells.length = gc.heap.cells.length + 1 := by
          rw [after.size]
          exact List.length_append
        obtain ⟨l', reg', -⟩ := reg₁.addObject free (by omega) run
        refine ⟨l', ?_⟩
        rwa [Set.union_assoc, ← Set.insert_eq] at reg'
  · cases run
  · cases run

theorem thread_free (reg : Registry gc R l) (stackSize : Nat) :
    Registry { gc with heap := threadHeap gc.heap stackSize } R l ∧
      Free { gc with heap := threadHeap gc.heap stackSize } R l (gc.heap.cells.length + 2) := by
  have size (h : Heap) (o : Obj) : (h.create o).1.cells.length = h.cells.length + 1 := List.length_append
  have reg₂ := (reg.create (.table {})).create (.table {})
  let gc₂ : GC := { gc with heap := ((gc.heap.create (.table {})).1.create (.table {})).1 }
  have size₂ : gc₂.heap.cells.length = gc.heap.cells.length + 2 := by
    change ((gc.heap.create _).1.create _).1.cells.length = _
    rw [size, size]
  let t := newThread stackSize gc.heap.cells.length (gc.heap.create (.table {})).1.cells.length
  have tables : (gc₂.heap.create (.thread t)).1.tables gc₂.heap.cells.length =
      [gc.heap.cells.length, gc.heap.cells.length + 1] := by
    unfold Heap.tables Heap.thread? Heap.obj?
    rw [Heap.get_create, if_pos rfl, ← size gc.heap (.table {})]
    rfl
  have unowned (b : Addr) (large : gc.heap.cells.length ≤ b) : b ∉ l.flatMap gc₂.heap.tables := by
    intro member
    obtain ⟨x, listed, table⟩ := List.mem_flatMap.mp member
    have same : gc₂.heap.tables x = gc.heap.tables x := by
      obtain ⟨c, live⟩ := ((reg.member x).mp listed).2
      have old := Heap.live_lt live
      apply tables_congr
      change ((gc.heap.create _).1.create _).1.obj? x = _
      rw [Heap.obj?, Heap.get_create, size, if_neg (Nat.lt_succ_of_lt old).ne, Heap.get_create,
        if_neg old.ne, Heap.obj?]
    rw [same] at table
    obtain ⟨o, found, -⟩ := Option.map_eq_some_iff.mp (reg.tables x listed b table).2
    obtain ⟨c, live⟩ := Heap.live_iff.mpr ⟨o, found⟩
    exact absurd (Heap.live_lt live) (Nat.not_lt.mpr large)
  have unregistered (b : Addr) (large : gc.heap.cells.length ≤ b) : b ∉ R :=
    fun member => absurd (reg.bound b member) (Nat.not_lt.mpr large)
  have isTable (b : Addr) (here : b = gc.heap.cells.length ∨ b = gc.heap.cells.length + 1) :
      (gc₂.heap.obj? b).map Obj.objType = some .table := by
    change (((gc.heap.create _).1.create _).1.obj? b).map _ = _
    rcases here with rfl | rfl
    · rw [Heap.obj?, Heap.get_create, size, if_neg (Nat.lt_succ_self _).ne, Heap.get_create, if_pos rfl]
      rfl
    · rw [Heap.obj?, Heap.get_create, if_pos (size _ _).symm]
      rfl
  have free := reg₂.free_fresh (o := .thread t)
    (by change ((gc₂.heap.create _).1.tables gc₂.heap.cells.length).Nodup; rw [tables]; simp)
    (by
      change ∀ b ∈ (gc₂.heap.create _).1.tables gc₂.heap.cells.length, b < gc₂.heap.cells.length ∧
        b ∉ l.flatMap gc₂.heap.tables ∧ b ∉ R ∧ (gc₂.heap.obj? b).map Obj.objType = some .table
      rw [tables, size₂]
      intro b member
      have here : b = gc.heap.cells.length ∨ b = gc.heap.cells.length + 1 := by simpa using member
      have large : gc.heap.cells.length ≤ b := by
        rcases here with rfl | rfl
        · exact Nat.le_refl _
        · exact Nat.le_succ _
      have small : b < gc.heap.cells.length + 2 := by
        rcases here with rfl | rfl
        · exact Nat.lt_add_of_pos_right Nat.two_pos
        · exact Nat.lt_succ_self _
      exact ⟨small, unowned b large, unregistered b large, isTable b here⟩)
  change Free _ R l gc₂.heap.cells.length at free
  rw [size₂] at free
  exact ⟨reg₂.create _, free⟩

theorem thread {stackSize : Nat} (reg : Registry gc R l) (enough : gc.heap.cells.length + 3 ≤ fuel)
    (run : gc.call P fuel (.thread stackSize) = .ok gc') :
    ∃ l', Registry gc' (R ∪ {gc.heap.cells.length + 2}) l' := by
  obtain ⟨reg₃, free⟩ := reg.thread_free stackSize
  rw [GC.call_thread] at run
  obtain ⟨l', reg', -⟩ := reg₃.addObject free ((threadHeap_size _ _).trans_le enough) run
  exact ⟨l', reg'⟩

-- the store of the link to the next open upvalue
theorem upvalue_stores {slot : Nat} {openUpval : Option Addr} (reg : Registry gc R l)
    (enough : gc.heap.cells.length + 1 ≤ fuel) (run : gc.call P fuel (.upvalue slot openUpval) = .ok gc') :
    ∃ gc₁ h, gc.initWithGC P fuel (.upvalue ⟨some slot, .nil, none⟩) = .ok gc₁ ∧ Stores gc₁.heap h ∧
      gc' = { gc₁ with heap := h } := by
  rw [GC.call] at run
  cases first : gc.initWithGC P fuel (.upvalue ⟨some slot, .nil, none⟩) with
  | error fault => rw [first] at run; cases run
  | ok gc₁ =>
      rw [first] at run
      obtain ⟨l₁, reg₁, after⟩ := reg.init_plain enough (by simp) first
      simp only [bind, Except.bind] at run
      split at run
      · rename_i cell live
        cases run
        have upvalue : cell.obj = .upvalue ⟨some slot, .nil, none⟩ := by
          have before := after.obj _ _ (Heap.obj_of_get live)
          change (gc.heap.create _).1.obj? _ = _ at before
          rw [Heap.obj?, Heap.get_create, if_pos rfl] at before
          exact (Option.some.inj before).symm
        let linked : Cell := { cell with obj := .upvalue ⟨some slot, .nil, openUpval⟩ }
        refine ⟨gc₁, gc₁.heap.put gc.heap.cells.length linked, rfl,
          ⟨List.length_set, fun a => ?_, fun a => ?_⟩, rfl⟩
        · rw [Heap.get_put ⟨cell, live⟩]
          split
          · rename_i same
            rw [← same, live]
            simp only [Option.map_some, upvalue]
            rfl
          · rfl
        · unfold Heap.tables Heap.thread? Heap.obj?
          rw [Heap.get_put ⟨cell, live⟩]
          by_cases same : gc.heap.cells.length = a
          · rw [if_pos same, ← same, live]
            simp only [Option.map_some, upvalue]
          · rw [if_neg same]
      · cases run

theorem upvalue {slot : Nat} {openUpval : Option Addr} (reg : Registry gc R l)
    (enough : gc.heap.cells.length + 1 ≤ fuel) (run : gc.call P fuel (.upvalue slot openUpval) = .ok gc') :
    ∃ l', Registry gc' (R ∪ {gc.heap.cells.length}) l' := by
  obtain ⟨gc₁, h, first, stores, rfl⟩ := reg.upvalue_stores enough run
  obtain ⟨l₁, reg₁, -⟩ := reg.init_plain enough (by simp) first
  exact ⟨l₁, reg₁.stores stores⟩

theorem call {c : Call} (reg : Registry gc R l) (new : ProtoNew gc c) (enough : gc.heap.cells.length + 3 ≤ fuel)
    (run : gc.call P fuel c = .ok gc') : ∃ l', Registry gc' (R ∪ gc.registers c) l' := by
  have plain {o : Obj} (other : ∀ t, o ≠ .thread t) (run : gc.initWithGC P fuel o = .ok gc') :
      ∃ l', Registry gc' (R ∪ {gc.heap.cells.length}) l' := by
    obtain ⟨l', reg', -⟩ := reg.init_plain (by omega) other run
    exact ⟨l', reg'⟩
  cases c with
  | string s => exact plain (by simp) run
  | table => exact plain (by simp) run
  | closure proto => exact reg.closure (by omega) new run
  | cClosure func n => exact plain (by simp) run
  | userdata data => exact plain (by simp) run
  | thread stackSize => exact reg.thread enough run
  | function f => exact plain (by simp) run
  | upvalue slot openUpval => exact reg.upvalue (by omega) run
  | compile f =>
      cases run
      change ∃ l', Registry _ (R ∪ ∅) l'
      rw [Set.union_empty]
      exact ⟨l, reg.create _⟩
  | collect =>
      obtain ⟨l', reg', -⟩ := reg.collect (by omega) run
      change ∃ l', Registry _ (R ∪ ∅) l'
      rw [Set.union_empty]
      exact ⟨l', reg'⟩

end Registry

/-! ## Whole sessions -/

theorem session_registry {P : Platform} {gc : GC} {R : Set Addr} (session : Session P ProtoNew gc R) :
    ∃ l, Registry gc R l := by
  induction session with
  | init =>
      refine ⟨[], .nil, rfl, fun a => ?_, fun a member => ?_, List.nodup_nil, fun x member => ?_⟩
      · simp
      · exact absurd member (Set.notMem_empty a)
      · exact absurd member List.not_mem_nil
  | call _ new enough run ih =>
      obtain ⟨l, reg⟩ := ih
      exact reg.call new enough run
  | stores _ same ih =>
      obtain ⟨l, reg⟩ := ih
      exact ⟨l, reg.stores same⟩
  | setRoots roots _ ih =>
      obtain ⟨l, reg⟩ := ih
      exact ⟨l, reg.linked, reg.count, reg.member, reg.bound, reg.nodup, reg.tables⟩

-- in every session whose closures are made of prototypes that are not on the list
theorem objects_wellListed {P : Platform} {gc : GC} {R : Set Addr} (session : Session P ProtoNew gc R) :
    ObjectsListed gc R := by
  obtain ⟨l, reg⟩ := session_registry session
  exact reg.objectsListed

def plain : Platform := ⟨fun _ => 8, fun left _ => 2 * left⟩

-- a compiled function and the first closure made of it
def oneClosure : GC where
  heap := ⟨[some { next := some 1, obj := .proto {} }, some { obj := .closure 0 [] }]⟩
  objects := some 0
  numObjects := 2
  totalAllocated := 16

theorem compiled_session {ok : GC → Call → Prop} (allowed : ∀ gc, ok gc (.compile {})) :
    Session plain ok { heap := ⟨[some { obj := .proto {} }]⟩ } (∅ ∪ ∅) :=
  .call (n := 8) .init (allowed _) (by decide) rfl

theorem objects_wellListed_oneClosure : ObjectsListed oneClosure (∅ ∪ ∅ ∪ {1, 0}) := by
  refine objects_wellListed (P := plain) (.call (n := 8) (c := .closure 0)
    (compiled_session fun _ => trivial) ?_ (by decide) rfl)
  rintro ⟨p, l, linked⟩
  cases l with
  | nil => cases linked
  | cons a l => cases linked

-- the second closure of a function links the function to an object behind it
def twoClosures : GC where
  heap := ⟨[some { next := some 2, obj := .proto {} }, some { obj := .closure 0 [] },
    some { next := some 0, obj := .closure 0 [] }]⟩
  objects := some 0
  numObjects := 4
  totalAllocated := 32

theorem objects_cyclic : ¬∀ gc R, Session plain (fun _ _ => True) gc R → ObjectsListed gc R := by
  intro all
  have first : Session plain (fun _ _ => True) oneClosure (∅ ∪ ∅ ∪ {1, 0}) :=
    .call (n := 8) (c := .closure 0) (compiled_session fun _ => trivial) trivial (by decide) rfl
  have second : Session plain (fun _ _ => True) twoClosures (∅ ∪ ∅ ∪ {1, 0} ∪ {2, 0}) :=
    .call (n := 8) (c := .closure 0) first trivial (by decide) rfl
  obtain ⟨l, linked, nodup, -, -⟩ := all _ _ second
  obtain ⟨p, l₁, rfl, step, linked⟩ := linked.head
  cases step
  obtain ⟨p, l₂, rfl, step, linked⟩ := linked.head
  cases step
  obtain ⟨p, l₃, rfl, -, -⟩ := linked.head
  simp at nodup

end Zua.Memory
