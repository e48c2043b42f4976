import Zua.Memory.Exact
import Zua.Memory.Register

/-!
# Objects just allocated

`addObject` links an object and may then collect, before its caller can hold the object anywhere. With
roots set such a collection frees the object, because nothing that was there before refers to it.
-/

namespace Zua.Memory
open Object
open scoped Classical

namespace GC

-- the object that a call returns
def returned (gc : GC) : Call → Option Addr
  | .thread _ => some (gc.heap.cells.length + 2)
  | .compile _ | .collect => none
  | _ => some gc.heap.cells.length

-- how many objects a call hands to `addObject`
def additions : Call → Nat
  | .closure _ => 2
  | .compile _ | .collect => 0
  | _ => 1

def Room (gc : GC) (c : Call) : Prop := gc.numObjects + additions c ≤ gc.threshold

-- the roots and the objects hold no address that was not given out
structure Issued (gc : GC) : Prop where
  roots : ∀ a ∈ gc.start [], a < gc.heap.cells.length
  objects : ∀ a b, Edge gc.heap a b → b < gc.heap.cells.length

end GC

variable {P : Platform} {gc gc' gc₁ : GC} {R : Set Addr} {l : List Addr} {a b : Addr} {o : Obj}
  {fuel n : Nat} {h h' : Heap} {up : Option Addr}

/-! ## Linking -/

structure GC.Linking (gc : GC) (a : Addr) (gc' : GC) : Prop where
  head : gc'.objects = some a
  next : ∀ b, gc'.heap.next? b = if a = b then some gc.objects else gc.heap.next? b
  obj : ∀ b, gc'.heap.obj? b = gc.heap.obj? b
  marked : gc'.heap.marked = gc.heap.marked
  size : gc'.heap.cells.length = gc.heap.cells.length
  number : gc'.numObjects = gc.numObjects + 1
  threshold : gc'.threshold = gc.threshold
  roots : gc'.roots = gc.roots

theorem link_linking (run : gc.link P a = .ok gc') : gc.Linking a gc' := by
  have obj := Registry.link_obj run
  unfold GC.link at run
  split at run
  · cases run
  · rename_i c live
    cases run
    refine ⟨rfl, fun b => ?_, obj, ?_, List.length_set, rfl, rfl, rfl⟩
    · change (gc.heap.put a _).next? b = _
      rw [Heap.next?, Heap.get_put ⟨c, live⟩]
      split
      · rfl
      · rfl
    · ext b
      change (∃ c', (gc.heap.put a _).get b = some c' ∧ _) ↔ ∃ c', gc.heap.get b = some c' ∧ _
      rw [Heap.get_put ⟨c, live⟩]
      split
      · rename_i same
        rw [← same, live]
        simp
      · rfl

theorem addObject_cases (run : gc.addObject P fuel a = .ok gc') : ∃ gc₁, gc.link P a = .ok gc₁ ∧
    (gc.numObjects + 1 ≤ gc.threshold ∧ gc' = gc₁ ∨
      gc.threshold < gc.numObjects + 1 ∧ gc₁.collect P fuel = .ok gc') := by
  unfold GC.addObject at run
  cases first : gc.link P a with
  | error fault => rw [first] at run; cases run
  | ok gc₁ =>
      have linking := link_linking first
      rw [first] at run
      simp only [bind, Except.bind, linking.number, linking.threshold] at run
      refine ⟨gc₁, rfl, ?_⟩
      split at run
      · rename_i full
        exact .inr ⟨full, run⟩
      · rename_i room
        cases run
        exact .inl ⟨Nat.not_lt.mp room, rfl⟩

-- without a collection the object is at the head, whatever the list is
theorem addObject_head (run : gc.addObject P fuel a = .ok gc') (room : gc.numObjects + 1 ≤ gc.threshold) :
    gc.Linking a gc' := by
  obtain ⟨gc₁, linked, ⟨-, rfl⟩ | ⟨full, -⟩⟩ := addObject_cases run
  · exact link_linking linked
  · exact absurd room (Nat.not_le.mpr full)

theorem GC.Linking.onList (linking : gc.Linking a gc') : gc'.OnList a := by
  refine ⟨gc.objects, [], ?_⟩
  rw [linking.head]
  refine .cons ?_ .nil
  rw [linking.next, if_pos rfl]

/-! ## Room for the objects -/

theorem initWithGC_head (run : gc.initWithGC P fuel o = .ok gc') (room : gc.numObjects + 1 ≤ gc.threshold) :
    GC.Linking { gc with heap := (gc.heap.create o).1 } gc.heap.cells.length gc' :=
  addObject_head run room

-- below the threshold the object that a call returns is listed, in every state of the collector
theorem listed_room {c : Call} (run : gc.call P fuel c = .ok gc') (returned : gc.returned c = some a)
    (room : gc.Room c) : gc'.OnList a := by
  cases c with
  | string s | table | cClosure func n | userdata data | function f =>
      cases returned
      exact (initWithGC_head run room).onList
  | closure proto =>
      cases returned
      rw [GC.call] at run
      split at run
      · rename_i f found
        cases first : gc.initWithGC P fuel (.closure proto (List.replicate f.numUpvalues none)) with
        | error fault => rw [first] at run; cases run
        | ok gc₁ =>
            rw [first] at run
            have linking₁ := initWithGC_head first (Nat.le_of_succ_le room)
            have more : gc₁.numObjects + 1 ≤ gc₁.threshold := by
              rw [linking₁.number, linking₁.threshold]
              exact room
            have linking₂ := addObject_head run more
            have old : proto ≠ gc.heap.cells.length := by
              obtain ⟨c, live⟩ := Heap.live_iff.mpr ⟨_, found⟩
              exact Nat.ne_of_lt (Heap.live_lt live)
            -- the prototype is linked in front of the closure
            refine ⟨gc.objects, [proto], ?_⟩
            rw [linking₂.head]
            refine .cons ?_ (.cons ?_ .nil)
            · rw [linking₂.next, if_pos rfl, linking₁.head]
            · rw [linking₂.next, if_neg old, linking₁.next, if_pos rfl]
      · cases run
      · cases run
  | thread stackSize =>
      cases returned
      rw [GC.call_thread] at run
      exact (addObject_head run room).onList
  | upvalue slot openUpval =>
      cases returned
      rw [GC.call] at run
      cases first : gc.initWithGC P fuel (.upvalue ⟨some slot, .nil, none⟩) with
      | error fault => rw [first] at run; cases run
      | ok gc₁ =>
          rw [first] at run
          have linking := initWithGC_head first room
          simp only [bind, Except.bind] at run
          split at run
          · rename_i cell live
            cases run
            refine ⟨gc.objects, [], ?_⟩
            change Linked _ gc₁.objects _ _
            rw [linking.head]
            refine .cons ?_ .nil
            change (gc₁.heap.put _ _).next? _ = _
            rw [Heap.next?, Heap.get_put_self ⟨cell, live⟩]
            have next := linking.next gc.heap.cells.length
            rw [if_pos rfl, Heap.next_of_get live] at next
            exact next
          · cases run
  | compile f => cases returned
  | collect => cases returned

/-! ## References to new addresses -/

theorem onChain_older (older : ∀ x < n, ∀ o, h'.obj? x = some o → h.obj? x = some o)
    (on : OnChain h' up b) (inside : ∀ x, OnChain h up x → x < n) : OnChain h up b := by
  induction on with
  | head => exact .head
  | tail found _ ih =>
      have here := Heap.upvalue_iff.mpr (older _ (inside _ .head) _ (Heap.upvalue_iff.mp found))
      exact .tail here (ih fun x on => inside x (.tail here on))

theorem edge_older (older : ∀ x < n, ∀ o, h'.obj? x = some o → h.obj? x = some o)
    (closed : ∀ x y, Edge h x y → y < n) (small : a < n) (edge : Edge h' a b) : b < n := by
  obtain ⟨o, found, refers⟩ := edge
  have found' := older a small o found
  suffices refers' : o.Refers h b from closed a b ⟨o, found', refers'⟩
  cases o with
  | thread t =>
      rcases refers with globals | registry | on | held
      · exact .inl globals
      · exact .inr (.inl registry)
      · have inside (x : Addr) (here : OnChain h t.openUpval x) : x < n :=
          closed a x ⟨_, found', .inr (.inr (.inl here))⟩
        exact .inr (.inr (.inl (onChain_older older on inside)))
      · exact .inr (.inr (.inr held))
  | _ => exact refers

theorem start_rooted (rooted : gc.roots ≠ none) (l' : List Addr) : gc.start l = gc.start l' := by
  unfold GC.start
  cases set : gc.roots with
  | none => exact absurd set rooted
  | some roots => rfl

-- whatever is allocated, what is reached from the roots is older
theorem GC.Issued.reaches (issued : gc.Issued)
    (older : ∀ x < gc.heap.cells.length, ∀ o, h.obj? x = some o → gc.heap.obj? x = some o)
    (path : Reaches (Edge h) (gc.start []) a) : a < gc.heap.cells.length := by
  apply path.induct
  · exact issued.roots
  · exact fun x y _ small edge => edge_older older issued.objects small edge

/-! ## Collections on the way -/

namespace Registry

theorem collect_listed (reg : Registry gc R l) (enough : gc.heap.cells.length ≤ fuel)
    (run : gc.collect P fuel = .ok gc') (member : a ∈ l) (unset : gc.roots = none) :
    gc'.OnList a ∧ gc'.roots = none := by
  obtain ⟨h, kept⟩ := collect_kept reg.linked reg.count (fun _ same _ => reg.owned.dead same)
    ((linked_length reg.linked).trans enough) run
  have marked : a ∈ h.marked := kept.marks.roots ((start_unset unset).mpr member)
  have survives : a ∈ h.survivors l := List.mem_filter.mpr ⟨member, decide_eq_true marked⟩
  obtain ⟨front, back, split⟩ := List.append_of_mem survives
  have linked := kept.linked
  rw [split, ← List.singleton_append, ← List.append_assoc] at linked
  obtain ⟨p, linked, -⟩ := linked.split
  exact ⟨⟨p, front, linked⟩, kept.roots.trans unset⟩

theorem collect_unlisted (reg : Registry gc R l) (enough : gc.heap.cells.length ≤ fuel)
    (run : gc.collect P fuel = .ok gc') (rooted : gc.roots ≠ none) (unmarked : a ∉ gc.heap.marked)
    (unreached : ¬Reaches (Edge gc.heap) (gc.start []) a) : ¬gc'.OnList a := by
  obtain ⟨h, kept⟩ := collect_kept reg.linked reg.count (fun _ same _ => reg.owned.dead same)
    ((linked_length reg.linked).trans enough) run
  rintro ⟨p, front, linked⟩
  have survives := linked_mem linked kept.linked
  have marked : a ∈ h.marked := of_decide_eq_true (List.mem_filter.mp survives).2
  rcases kept.marks.sound a marked with old | path
  · exact unmarked old
  · rw [start_rooted rooted []] at path
    exact unreached path

variable {gc : GC}

-- the step of `addObject` for an object `b` that is on the list or is the one that is added
theorem addObject_listed (reg : Registry gc R l) (free : Free gc R l a) (enough : gc.heap.cells.length ≤ fuel)
    (run : gc.addObject P fuel a = .ok gc') (member : b ∈ a :: l) (unset : gc.roots = none) :
    gc'.OnList b ∧ gc'.roots = none := by
  obtain ⟨gc₁, linked, ⟨-, rfl⟩ | ⟨-, collected⟩⟩ := addObject_cases run
  · obtain ⟨reg₁, -⟩ := reg.link free linked
    exact ⟨reg₁.onList_iff.mpr member, (link_linking linked).roots.trans unset⟩
  · obtain ⟨reg₁, size⟩ := reg.link free linked
    exact reg₁.collect_listed (size.trans_le enough) collected member
      ((link_linking linked).roots.trans unset)

theorem addObject_unlisted (reg : Registry gc R l) (free : Free gc R l a)
    (enough : gc.heap.cells.length ≤ fuel) (run : gc.addObject P fuel a = .ok gc')
    (full : gc.threshold < gc.numObjects + 1) (rooted : gc.roots ≠ none) (unmarked : b ∉ gc.heap.marked)
    (unreached : ¬Reaches (Edge gc.heap) (gc.start []) b) : ¬gc'.OnList b := by
  obtain ⟨gc₁, linked, ⟨room, -⟩ | ⟨-, collected⟩⟩ := addObject_cases run
  · exact absurd full (Nat.not_lt.mpr room)
  · have linking := link_linking linked
    obtain ⟨reg₁, size⟩ := reg.link free linked
    refine reg₁.collect_unlisted (size.trans_le enough) collected ?_ ?_ ?_
    · rw [linking.roots]
      exact rooted
    · rw [linking.marked]
      exact unmarked
    · have start : gc₁.start [] = gc.start [] := by
        unfold GC.start
        rw [linking.roots]
      rwa [edge_congr linking.obj, start]

/-! ## Each call -/

theorem fresh_unmarked (h : Heap) (o : Obj) : h.cells.length ∉ (h.create o).1.marked := by
  rintro ⟨c, live, marked⟩
  rw [Heap.get_create, if_pos rfl] at live
  cases live
  exact marked rfl

theorem obj_create_old (h : Heap) (o : Obj) (old : a < h.cells.length) :
    (h.create o).1.obj? a = h.obj? a := by
  rw [Heap.obj?, Heap.get_create, if_neg (Nat.ne_of_lt old), Heap.obj?]

theorem free_plain (reg : Registry gc R l) (other : ∀ t, o ≠ .thread t) :
    Free { gc with heap := (gc.heap.create o).1 } R l gc.heap.cells.length := by
  have none : (gc.heap.create o).1.tables gc.heap.cells.length = [] := tables_create other
  apply reg.free_fresh
  · rw [none]
    exact List.nodup_nil
  · rw [none]
    exact fun b member => absurd member List.not_mem_nil

theorem size_create (h : Heap) (o : Obj) : (h.create o).1.cells.length = h.cells.length + 1 :=
  List.length_append

theorem init_listed (reg : Registry gc R l) (enough : gc.heap.cells.length + 1 ≤ fuel)
    (other : ∀ t, o ≠ .thread t) (run : gc.initWithGC P fuel o = .ok gc') (unset : gc.roots = none) :
    gc'.OnList gc.heap.cells.length ∧ gc'.roots = none :=
  (reg.create o).addObject_listed (reg.free_plain other) ((size_create _ _).trans_le enough) run
    List.mem_cons_self unset

theorem unreached_create (issued : gc.Issued) :
    ¬Reaches (Edge (gc.heap.create o).1) (gc.start []) gc.heap.cells.length := by
  intro path
  refine Nat.lt_irrefl _ (issued.reaches ?_ path)
  intro x old o' found
  rwa [obj_create_old _ _ old] at found

theorem init_unlisted (reg : Registry gc R l) (issued : gc.Issued) (enough : gc.heap.cells.length + 1 ≤ fuel)
    (other : ∀ t, o ≠ .thread t) (run : gc.initWithGC P fuel o = .ok gc')
    (full : gc.threshold < gc.numObjects + 1) (rooted : gc.roots ≠ none) :
    ¬gc'.OnList gc.heap.cells.length :=
  (reg.create o).addObject_unlisted (reg.free_plain other) ((size_create _ _).trans_le enough) run full
    rooted (fresh_unmarked _ _) (unreached_create issued)

theorem closure_iff {proto : Addr} (reg : Registry gc R l) (issued : gc.Issued) (new : ¬gc.OnList proto)
    (enough : gc.heap.cells.length + 3 ≤ fuel) (run : gc.call P fuel (.closure proto) = .ok gc')
    (full : gc.threshold < gc.numObjects + 2) : gc'.OnList gc.heap.cells.length ↔ gc.roots = none := by
  rw [GC.call] at run
  split at run
  · rename_i f found
    have plain (t : Thread) : Obj.closure proto (List.replicate f.numUpvalues none) ≠ .thread t := by simp
    have old : gc.heap.cells.length ≠ proto := by
      obtain ⟨c, live⟩ := Heap.live_iff.mpr ⟨_, found⟩
      exact Nat.ne_of_gt (Heap.live_lt live)
    cases first : gc.initWithGC P fuel (.closure proto (List.replicate f.numUpvalues none)) with
    | error fault => rw [first] at run; cases run
    | ok gc₁ =>
        rw [first] at run
        obtain ⟨l₁, reg₁, after⟩ := reg.init_plain (by omega) plain first
        have free := reg.closure_free found new reg₁ after
        have size : gc₁.heap.cells.length ≤ fuel := by
          rw [after.size, size_create]
          omega
        constructor
        · intro listed
          by_contra rooted
          by_cases room : gc.numObjects + 1 ≤ gc.threshold
          · have linking := initWithGC_head first room
            have start : gc₁.start [] = gc.start [] := by
              unfold GC.start
              rw [linking.roots]
            refine reg₁.addObject_unlisted (b := gc.heap.cells.length) free size run ?_ ?_ ?_ ?_ listed
            · rw [linking.number, linking.threshold]
              exact full
            · rw [linking.roots]
              exact rooted
            · rw [linking.marked]
              exact fresh_unmarked _ _
            · rw [edge_congr linking.obj, start]
              exact unreached_create issued
          · -- the first collection has freed the closure
            have gone := reg.init_unlisted issued (by omega) plain first (Nat.lt_of_not_le room) rooted
            obtain ⟨l', reg', after'⟩ := reg₁.addObject free size run
            rcases List.mem_cons.mp (after'.sub (reg'.onList_iff.mp listed)) with same | member
            · exact old same
            · exact gone (reg₁.onList_iff.mpr member)
        · intro unset
          obtain ⟨listed, unset₁⟩ := reg.init_listed (by omega) plain first unset
          exact (reg₁.addObject_listed free size run
            (List.mem_cons_of_mem _ (reg₁.onList_iff.mp listed)) unset₁).1
  · cases run
  · cases run

theorem threadHeap_unmarked (h : Heap) (stackSize : Nat) :
    h.cells.length + 2 ∉ (threadHeap h stackSize).marked := by
  have two : ((h.create (.table {})).1.create (.table {})).1.cells.length = h.cells.length + 2 := by
    rw [size_create, size_create]
  rw [← two]
  exact fresh_unmarked _ _

theorem threadHeap_old (h : Heap) (stackSize : Nat) (old : a < h.cells.length) :
    (threadHeap h stackSize).obj? a = h.obj? a := by
  have old₁ : a < (h.create (.table {})).1.cells.length := by
    rw [size_create]
    exact Nat.lt_succ_of_lt old
  have old₂ : a < ((h.create (.table {})).1.create (.table {})).1.cells.length := by
    rw [size_create]
    exact Nat.lt_succ_of_lt old₁
  change (((h.create _).1.create _).1.create _).1.obj? a = _
  rw [obj_create_old _ _ old₂, obj_create_old _ _ old₁, obj_create_old _ _ old]

theorem thread_iff {stackSize : Nat} (reg : Registry gc R l) (issued : gc.Issued)
    (enough : gc.heap.cells.length + 3 ≤ fuel) (run : gc.call P fuel (.thread stackSize) = .ok gc')
    (full : gc.threshold < gc.numObjects + 1) :
    gc'.OnList (gc.heap.cells.length + 2) ↔ gc.roots = none := by
  obtain ⟨reg₃, free⟩ := reg.thread_free stackSize
  have size := (threadHeap_size gc.heap stackSize).trans_le enough
  rw [GC.call_thread] at run
  constructor
  · intro listed
    by_contra rooted
    refine reg₃.addObject_unlisted free size run full rooted ?_ ?_ listed
    · exact threadHeap_unmarked _ _
    · intro path
      have below : gc.heap.cells.length + 2 < gc.heap.cells.length := by
        refine issued.reaches ?_ path
        intro x old o' found
        rwa [threadHeap_old _ _ old] at found
      omega
  · intro unset
    exact (reg₃.addObject_listed free size run List.mem_cons_self unset).1

theorem upvalue_iff {slot : Nat} {openUpval : Option Addr} (reg : Registry gc R l) (issued : gc.Issued)
    (enough : gc.heap.cells.length + 3 ≤ fuel) (run : gc.call P fuel (.upvalue slot openUpval) = .ok gc')
    (full : gc.threshold < gc.numObjects + 1) :
    gc'.OnList gc.heap.cells.length ↔ gc.roots = none := by
  rw [GC.call] at run
  cases first : gc.initWithGC P fuel (.upvalue ⟨some slot, .nil, none⟩) with
  | error fault => rw [first] at run; cases run
  | ok gc₁ =>
      rw [first] at run
      simp only [bind, Except.bind] at run
      split at run
      · rename_i cell live
        cases run
        have next (b : Addr) : (gc₁.heap.put gc.heap.cells.length
            { cell with obj := .upvalue ⟨some slot, .nil, openUpval⟩ }).next? b = gc₁.heap.next? b := by
          rw [Heap.next?, Heap.get_put ⟨cell, live⟩, Heap.next?]
          split
          · rename_i same
            rw [← same, live]
            rfl
          · rfl
        have same : gc₁.OnList gc.heap.cells.length ↔ GC.OnList { gc₁ with
            heap := gc₁.heap.put gc.heap.cells.length
              { cell with obj := .upvalue ⟨some slot, .nil, openUpval⟩ } } gc.heap.cells.length := by
          unfold GC.OnList
          rw [funext next]
        rw [← same]
        constructor
        · intro listed
          by_contra rooted
          exact reg.init_unlisted issued (by omega) (by simp) first full rooted listed
        · intro unset
          exact (reg.init_listed (by omega) (by simp) first unset).1
      · cases run

-- when the objects do not fit below the threshold
theorem returned_iff {c : Call} (reg : Registry gc R l) (issued : gc.Issued) (new : ProtoNew gc c)
    (enough : gc.heap.cells.length + 3 ≤ fuel) (run : gc.call P fuel c = .ok gc')
    (returned : gc.returned c = some a) (full : ¬gc.Room c) : gc'.OnList a ↔ gc.roots = none := by
  have plain {o : Obj} (other : ∀ t, o ≠ .thread t) (run : gc.initWithGC P fuel o = .ok gc')
      (full : gc.threshold < gc.numObjects + 1) :
      gc'.OnList gc.heap.cells.length ↔ gc.roots = none := by
    constructor
    · intro listed
      by_contra rooted
      exact reg.init_unlisted issued (by omega) other run full rooted listed
    · intro unset
      exact (reg.init_listed (by omega) other run unset).1
  have full := Nat.lt_of_not_le full
  cases c with
  | string s | table | cClosure func n | userdata data | function f =>
      cases returned
      exact plain (by simp) run full
  | closure proto =>
      cases returned
      exact reg.closure_iff issued new enough run full
  | thread stackSize =>
      cases returned
      exact reg.thread_iff issued enough run full
  | upvalue slot openUpval =>
      cases returned
      exact reg.upvalue_iff issued enough run full
  | compile f => cases returned
  | collect => cases returned

end Registry

-- The object that a call returns is listed whenever it fits below the threshold; otherwise it is listed
-- only if no roots are set.
theorem returned_listed (P : Platform) (gc gc' : GC) (c : Call) (a : Addr) (fuel : Nat)
    (run : gc.call P fuel c = .ok gc') (returned : gc.returned c = some a) :
    (gc.Room c → gc'.OnList a) ∧
      ∀ R, Session P ProtoNew gc R → ProtoNew gc c → gc.Issued → gc.heap.cells.length + 3 ≤ fuel →
        (gc'.OnList a ↔ gc.roots = none ∨ gc.Room c) := by
  refine ⟨listed_room run returned, ?_⟩
  intro R session new issued enough
  obtain ⟨l, reg⟩ := session_registry session
  by_cases room : gc.Room c
  · exact iff_of_true (listed_room run returned room) (.inr room)
  · rw [reg.returned_iff issued new enough run returned room, or_iff_left room]

theorem issued_empty : GC.Issued {} := by
  refine ⟨?_, ?_⟩
  · intro a member
    cases member
  · rintro a b ⟨o, found, -⟩
    cases found

def firstTable : GC where
  heap := ⟨[some { obj := .table {} }]⟩
  objects := some 0
  numObjects := 1
  totalAllocated := 8

theorem returned_listed_first : firstTable.OnList 0 ∧
    (firstTable.OnList 0 ↔ GC.roots {} = none ∨ GC.Room {} .table) := by
  obtain ⟨room, exactly⟩ := returned_listed plain {} firstTable .table 0 8 rfl rfl
  exact ⟨room (show 0 + 1 ≤ 1024 by decide), exactly ∅ .init trivial issued_empty (by decide)⟩

/-! ## The object that exceeds the threshold -/

-- only empty tables, the first of them the globals
structure Tables (gc : GC) : Prop where
  tables : ∀ a o, gc.heap.obj? a = some o → o = .table {}
  first : gc.heap.obj? 0 = some (.table {})
  clean : gc.heap.marked = ∅
  roots : gc.roots = some { globals := some 0 }
  threshold : gc.threshold = 1024

namespace Tables

theorem reaches (filled : Tables gc) (path : Reaches (Edge gc.heap) (gc.start l) a) : a = 0 := by
  apply path.induct
  · intro r member
    have set := filled.roots
    unfold GC.start at member
    rw [set] at member
    rcases member with globals | registry | main
    · exact (Option.some.inj globals).symm
    · cases registry
    · cases main
  · rintro x y - - ⟨o, found, refers⟩
    rw [filled.tables x o found] at refers
    exact absurd refers refers_empty

theorem issued (filled : Tables gc) : gc.Issued := by
  have large : 0 < gc.heap.cells.length := by
    obtain ⟨c, live⟩ := Heap.live_iff.mpr ⟨_, filled.first⟩
    exact Heap.live_lt live
  refine ⟨?_, ?_⟩
  · intro a member
    rwa [filled.reaches (.root member)]
  · rintro a b ⟨o, found, refers⟩
    rw [filled.tables a o found] at refers
    exact absurd refers refers_empty

theorem collectable (filled : Tables gc) (reg : Registry gc R l) : Collectable gc l := by
  have noThread (x : Addr) : gc.heap.thread? x = none := by
    cases found : gc.heap.thread? x with
    | none => rfl
    | some t => cases filled.tables x _ (Heap.thread_iff.mp found)
  refine ⟨reg.linked, ?_, ⟨?_, ?_⟩, ?_, ?_, ?_, reg.count⟩
  · intro a _
    rw [filled.clean]
    exact Set.notMem_empty a
  · intro a path
    rw [filled.reaches path]
    exact Heap.live_iff.mpr ⟨_, filled.first⟩
  · intro a t _ found
    rw [noThread] at found
    cases found
  · intro roots a set main
    rw [filled.roots] at set
    cases set
    cases main
  · rintro a b - - ⟨o, found, refers⟩ -
    rw [filled.tables a o found] at refers
    exact absurd refers refers_empty
  · have none (x : Addr) : gc.heap.tables x = [] := by rw [Heap.tables, noThread]
    refine ⟨?_, ?_, ?_⟩
    · rw [List.flatMap_eq_nil_iff.mpr fun x _ => none x]
      exact List.nodup_nil
    · intro x _ a table
      rw [none] at table
      cases table
    · intro x _ a table
      rw [none] at table
      cases table

theorem link (filled : Tables gc) : ∃ gc₁,
    GC.link P { gc with heap := (gc.heap.create (.table {})).1 } gc.heap.cells.length = .ok gc₁ ∧
      Tables gc₁ ∧ gc₁.numObjects = gc.numObjects + 1 := by
  have large : 0 < gc.heap.cells.length := by
    obtain ⟨c, live⟩ := Heap.live_iff.mpr ⟨_, filled.first⟩
    exact Heap.live_lt live
  cases run : GC.link P { gc with heap := (gc.heap.create (.table {})).1 } gc.heap.cells.length with
  | error fault =>
      unfold GC.link at run
      simp only [Heap.get_create, if_true, reduceCtorEq] at run
  | ok gc₁ =>
      have linking := link_linking run
      refine ⟨gc₁, rfl, ⟨?_, ?_, ?_, ?_, ?_⟩, linking.number⟩
      · intro a o found
        rw [linking.obj] at found
        change (gc.heap.create _).1.obj? a = _ at found
        rw [Heap.obj?, Heap.get_create] at found
        split at found
        · exact (Option.some.inj found).symm
        · exact filled.tables a o found
      · rw [linking.obj]
        exact (Registry.obj_create_old _ _ large).trans filled.first
      · rw [linking.marked]
        apply Set.eq_empty_of_forall_notMem
        rintro a ⟨c, live, marked⟩
        change (gc.heap.create _).1.get a = _ at live
        rw [Heap.get_create] at live
        split at live
        · cases live
          exact marked rfl
        · have member : a ∈ gc.heap.marked := ⟨c, live, marked⟩
          rw [filled.clean] at member
          exact member
      · exact linking.roots.trans filled.roots
      · exact linking.threshold.trans filled.threshold

end Tables

theorem session_tables (k : Nat) (small : k < 1024) : ∃ gc R, Session plain ProtoNew gc R ∧ Tables gc ∧
    gc.numObjects = k + 1 := by
  induction k with
  | zero =>
      let gc : GC := { firstTable with roots := some { globals := some 0 } }
      have session : Session plain ProtoNew gc (∅ ∪ {0}) :=
        .setRoots _ (.call (n := 8) (c := .table) .init trivial (by decide) rfl)
      refine ⟨gc, _, session, ⟨?_, rfl, marked_empty rfl, rfl, rfl⟩, rfl⟩
      intro a o found
      cases a with
      | zero => exact (Option.some.inj found).symm
      | succ a => cases found
  | succ k ih =>
      obtain ⟨gc, R, session, filled, number⟩ := ih (Nat.lt_of_succ_lt small)
      obtain ⟨gc₁, linked, filled₁, number₁⟩ := filled.link (P := plain)
      refine ⟨gc₁, _, .call (c := .table) session trivial (Nat.le_refl _) ?_, filled₁, by omega⟩
      change GC.addObject plain _ _ _ = _
      unfold GC.addObject
      rw [linked]
      have room : ¬gc₁.numObjects > gc₁.threshold := by
        rw [filled₁.threshold]
        omega
      simp only [bind, Except.bind, if_neg room]

-- the 1025th object is freed by the call that makes it
theorem returned_freed : ∃ gc gc' R, Session plain ProtoNew gc R ∧ gc.Issued ∧ gc.numObjects = gc.threshold ∧
    (∃ fuel, gc.call plain fuel .table = .ok gc') ∧ gc.returned .table = some gc.heap.cells.length ∧
    ¬gc'.OnList gc.heap.cells.length ∧ ¬gc'.heap.Live gc.heap.cells.length := by
  obtain ⟨gc, R, session, filled, number⟩ := session_tables 1023 (by decide)
  obtain ⟨l, reg⟩ := session_registry session
  obtain ⟨gc₁, linked, filled₁, number₁⟩ := filled.link (P := plain)
  have free := reg.free_plain (o := .table {}) (by simp)
  obtain ⟨reg₁, size⟩ := (reg.create (.table {})).link free linked
  obtain ⟨gc', collected, done⟩ := collect_spec (P := plain) (filled₁.collectable reg₁) (Nat.lt_succ_self _)
  have run : gc.call plain (2 * gc₁.heap.cells.length + 1) .table = .ok gc' := by
    change GC.addObject plain _ _ _ = _
    unfold GC.addObject
    rw [linked]
    have full : gc₁.numObjects > gc₁.threshold := by
      rw [filled₁.threshold]
      omega
    simp only [bind, Except.bind, if_pos full]
    exact collected
  have garbage : gc.heap.cells.length ∈ gc₁.garbage (gc.heap.cells.length :: l) := by
    refine mem_garbage.mpr ⟨List.mem_cons_self, fun path => ?_⟩
    have same := filled₁.reaches path
    obtain ⟨c, live⟩ := Heap.live_iff.mpr ⟨_, filled.first⟩
    exact absurd (Heap.live_lt live) (Nat.not_lt.mpr same.le)
  have gone := done.gone _ garbage
  refine ⟨gc, gc', R, session, filled.issued, ?_, ⟨_, run⟩, rfl, ?_, ?_⟩
  · rw [filled.threshold, number]
  · rintro ⟨p, front, listed⟩
    have member := linked_mem listed done.list
    exact (mem_garbage.mp garbage).2 (mem_reachable.mp member).2
  · rintro ⟨c, live⟩
    rw [gone] at live
    cases live

end Zua.Memory
