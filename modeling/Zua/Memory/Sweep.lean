import Zua.Memory.Mark

/-!
# Sweeping

The loop of `sweep` keeps the marked objects of the list in their order and frees the others together
with the tables that a freed thread owns.
-/

namespace Zua.Memory
open Object
open scoped Classical

variable {h h' : Heap} {a b : Addr} {c : Cell} {gc gc' : GC} {P : Platform}
  {p q : Option Addr} {kept rest l : List Addr}

-- a thread's own two tables
def Heap.tables (h : Heap) (a : Addr) : List Addr :=
  match h.thread? a with
  | some t => [t.globals, t.registry]
  | none => []

def Heap.Freed (h : Heap) (l : List Addr) (a : Addr) : Prop :=
  ∃ x ∈ l, x ∉ h.marked ∧ (a = x ∨ a ∈ h.tables x)

noncomputable def Heap.dead (h : Heap) (l : List Addr) : List Addr := l.filter (· ∉ h.marked)
noncomputable def Heap.survivors (h : Heap) (l : List Addr) : List Addr := l.filter (· ∈ h.marked)

-- the tables of the threads to be freed are allocated, off the list and not shared
structure Owned (h : Heap) (dead all : List Addr) : Prop where
  nodup : (dead.flatMap h.tables).Nodup
  live : ∀ x ∈ dead, ∀ a ∈ h.tables x, h.Live a
  unlisted : ∀ x ∈ dead, ∀ a ∈ h.tables x, a ∉ all

structure Swept (l : List Addr) (h h' : Heap) : Prop where
  gone : ∀ a, h.Freed l a → h'.get a = none
  obj : ∀ a, ¬h.Freed l a → h'.obj? a = h.obj? a
  marked : ∀ a, ¬h.Freed l a → (a ∈ h'.marked ↔ a ∈ h.marked ∧ a ∉ l)

-- everything that the loop does not write
structure SameSettings (gc gc' : GC) : Prop where
  roots : gc'.roots = gc.roots
  threshold : gc'.threshold = gc.threshold
  totalAllocated : gc'.totalAllocated = gc.totalAllocated
  collectionCount : gc'.collectionCount = gc.collectionCount

theorem SameSettings.refl (gc : GC) : SameSettings gc gc := ⟨rfl, rfl, rfl, rfl⟩

theorem SameSettings.trans {gc'' : GC} (s : SameSettings gc gc') (s' : SameSettings gc' gc'') :
    SameSettings gc gc'' :=
  ⟨s'.roots.trans s.roots, s'.threshold.trans s.threshold,
    s'.totalAllocated.trans s.totalAllocated, s'.collectionCount.trans s.collectionCount⟩

/-! ## One object -/

theorem destroy_ok (live : h.Live a) : destroy h a = .ok (h.destroy a) := by
  obtain ⟨c, live⟩ := live
  rw [destroy, live]

theorem live_destroy (live : h.Live b) (other : a ≠ b) : (h.destroy a).Live b := by
  obtain ⟨c, live⟩ := live
  exact ⟨c, by rw [Heap.get_destroy, if_neg other, live]⟩

theorem deinit_spec {o : Obj} (found : h.obj? a = some o) (live : ∀ b ∈ h.tables a, h.Live b)
    (nodup : (h.tables a).Nodup) : ∃ h', deinit h o = .ok h' ∧
      ∀ b, h'.get b = if b ∈ h.tables a then none else h.get b := by
  cases o with
  | thread t =>
      have tables : h.tables a = [t.globals, t.registry] := by
        unfold Heap.tables
        rw [Heap.thread_iff.mpr found]
      rw [tables] at live nodup ⊢
      have apart : t.globals ≠ t.registry := by simpa using nodup
      refine ⟨(h.destroy t.globals).destroy t.registry, ?_, ?_⟩
      · rw [deinit, destroy_ok (live _ (by simp))]
        exact destroy_ok (live_destroy (live _ (by simp)) apart)
      · intro b
        simp only [Heap.get_destroy, List.mem_cons, List.not_mem_nil, or_false, eq_comm (a := b)]
        by_cases t.globals = b <;> by_cases t.registry = b <;> simp_all
  | _ =>
      have tables : h.tables a = [] := by
        unfold Heap.tables Heap.thread?
        rw [found]
      refine ⟨h, rfl, ?_⟩
      intro b
      simp [tables]

theorem freeObject_spec (live : gc.heap.get a = some c) (owned : ∀ b ∈ gc.heap.tables a, gc.heap.Live b)
    (nodup : (a :: gc.heap.tables a).Nodup) : ∃ gc', gc.freeObject P a = .ok gc' ∧
      (∀ b, gc'.heap.get b = if b ∈ a :: gc.heap.tables a then none else gc.heap.get b) ∧
      gc'.objects = gc.objects ∧ gc'.numObjects = gc.numObjects ∧ SameSettings gc gc' := by
  obtain ⟨outside, nodup⟩ := List.nodup_cons.mp nodup
  obtain ⟨h, run, get⟩ := deinit_spec (Heap.obj_of_get live) owned nodup
  have still : h.Live a := ⟨c, by rw [get, if_neg outside, live]⟩
  let freed : GC := { gc with
    heap := h.destroy a
    totalCollected := gc.totalCollected + P.sizeOf c.obj.objType }
  refine ⟨freed, ?_, ?_, rfl, rfl, ⟨rfl, rfl, rfl, rfl⟩⟩
  · rw [GC.freeObject, live]
    simp only [run]
    change (destroy h a >>= _) = _
    rw [destroy_ok still]
    rfl
  · intro b
    rw [Heap.get_destroy, get]
    by_cases same : a = b
    · simp [same]
    · simp [same, Ne.symm same]

-- `unlink` stores `next` in the last kept object, or in the head of the list
theorem unlink_spec (linked : Linked gc.heap.next? gc.objects p kept) (nodup : kept.Nodup) :
    ∃ gc', gc.unlink kept.getLast? q = .ok gc' ∧ Linked gc'.heap.next? gc'.objects q kept ∧
      (∀ a ∉ kept, gc'.heap.get a = gc.heap.get a) ∧ (∀ a, gc'.heap.obj? a = gc.heap.obj? a) ∧
      gc'.heap.marked = gc.heap.marked ∧ gc'.numObjects = gc.numObjects ∧ SameSettings gc gc' := by
  rcases List.eq_nil_or_concat kept with rfl | ⟨front, last, rfl⟩
  · exact ⟨{ gc with objects := q }, rfl, .nil, fun _ _ => rfl, fun _ => rfl, rfl, rfl,
      ⟨rfl, rfl, rfl, rfl⟩⟩
  · rw [List.concat_eq_append] at linked nodup ⊢
    have fresh : last ∉ front := by
      intro member
      exact (List.nodup_append.mp nodup).2.2 _ member _ (List.mem_singleton_self _) rfl
    obtain ⟨-, step⟩ := linked.split_snoc
    obtain ⟨c, live, -⟩ := Option.map_eq_some_iff.mp step
    have get (b : Addr) := Heap.get_put (b := b) (c := { c with next := q }) ⟨c, live⟩
    refine ⟨{ gc with heap := gc.heap.put last { c with next := q } }, ?_, ?_, ?_, ?_, ?_, rfl,
      ⟨rfl, rfl, rfl, rfl⟩⟩
    · rw [List.getLast?_append, List.getLast?_singleton]
      simp only [Option.or, GC.unlink, live]
    · apply linked.redirect fresh
      · rw [Heap.next?, get, if_pos rfl]
        rfl
      · intro b other
        rw [Heap.next?, get, if_neg (Ne.symm other)]
        rfl
    · intro b member
      rw [get, if_neg]
      rintro rfl
      exact member (List.mem_append_right _ (List.mem_singleton_self _))
    · intro b
      rw [Heap.obj?, get]
      split
      · rename_i same
        rw [← same, Heap.obj_of_get live]
        rfl
      · rfl
    · ext b
      unfold Heap.marked
      rw [Set.mem_ofPred_eq, get, Set.mem_ofPred_eq]
      split
      · rename_i same
        rw [← same, live]
        simp
      · rfl

/-! ## The loop -/

theorem survivors_cons : h.survivors (a :: l) = if a ∈ h.marked then a :: h.survivors l
    else h.survivors l := by
  simp [Heap.survivors, List.filter_cons]

theorem dead_cons : h.dead (a :: l) = if a ∈ h.marked then h.dead l else a :: h.dead l := by
  simp [Heap.dead, List.filter_cons]

theorem survivors_congr (same : ∀ a ∈ l, a ∈ h'.marked ↔ a ∈ h.marked) :
    h'.survivors l = h.survivors l := by
  apply List.filter_congr
  intro a member
  simp [same a member]

theorem dead_congr (same : ∀ a ∈ l, a ∈ h'.marked ↔ a ∈ h.marked) : h'.dead l = h.dead l := by
  apply List.filter_congr
  intro a member
  simp [same a member]

theorem tables_congr (same : h'.obj? a = h.obj? a) : h'.tables a = h.tables a := by
  unfold Heap.tables Heap.thread?
  rw [same]

-- the rest of the list looks the same after one turn of the loop
structure Unmoved (rest : List Addr) (h h' : Heap) : Prop where
  obj : ∀ a ∈ rest, h'.obj? a = h.obj? a
  marked : ∀ a ∈ rest, a ∈ h'.marked ↔ a ∈ h.marked

theorem Unmoved.freed (same : Unmoved rest h h') (a : Addr) : h'.Freed rest a ↔ h.Freed rest a := by
  unfold Heap.Freed
  constructor
  · rintro ⟨x, member, dead, freed⟩
    rw [tables_congr (same.obj x member)] at freed
    exact ⟨x, member, fun marked => dead ((same.marked x member).mpr marked), freed⟩
  · rintro ⟨x, member, dead, freed⟩
    rw [← tables_congr (same.obj x member)] at freed
    exact ⟨x, member, fun marked => dead ((same.marked x member).mp marked), freed⟩

theorem Unmoved.owned {all all' : List Addr} (same : Unmoved rest h h')
    (owned : Owned h (h.dead rest) all) (sub : all' ⊆ all)
    (live : ∀ x ∈ h.dead rest, ∀ a ∈ h.tables x, h'.Live a) : Owned h' (h'.dead rest) all' := by
  have dead : h'.dead rest = h.dead rest := dead_congr same.marked
  have tables (x : Addr) (member : x ∈ h.dead rest) : h'.tables x = h.tables x :=
    tables_congr (same.obj x (List.mem_of_mem_filter member))
  refine ⟨?_, ?_, ?_⟩
  · rw [dead, List.flatMap_congr tables]
    exact owned.nodup
  · intro x member a table
    rw [dead] at member
    exact live x member a (tables x member ▸ table)
  · intro x member a table listed
    rw [dead] at member
    exact owned.unlisted x member a (tables x member ▸ table) (sub listed)

theorem Owned.tail {all : List Addr} (owned : Owned h (h.dead (a :: rest)) all) :
    Owned h (h.dead rest) all := by
  have sub : (h.dead rest).Sublist (h.dead (a :: rest)) := (List.sublist_cons_self a rest).filter _
  exact ⟨owned.nodup.sublist (sub.flatMap _), fun x member => owned.live x (sub.subset member),
    fun x member => owned.unlisted x (sub.subset member)⟩

theorem freed_cons : h.Freed (a :: rest) b ↔ h.Freed [a] b ∨ h.Freed rest b := by
  unfold Heap.Freed
  simp only [List.mem_cons, List.not_mem_nil, or_false, exists_eq_left, or_and_right, exists_or]

theorem freed_one : h.Freed [a] b ↔ a ∉ h.marked ∧ b ∈ a :: h.tables a := by
  unfold Heap.Freed
  simp only [List.mem_cons, List.not_mem_nil, or_false, exists_eq_left]

theorem Swept.cons {h₁ : Heap} (first : Swept [a] h h₁) (same : Unmoved rest h h₁)
    (others : Swept rest h₁ h') : Swept (a :: rest) h h' := by
  have none (b : Addr) (gone : h.Freed [a] b) (kept : ¬h₁.Freed rest b) : h'.get b = none := by
    have empty := others.obj b kept
    rw [Heap.obj?, Heap.obj?, first.gone b gone] at empty
    exact Option.map_eq_none_iff.mp empty
  refine ⟨?_, ?_, ?_⟩
  · intro b freed
    by_cases later : h₁.Freed rest b
    · exact others.gone b later
    · rcases freed_cons.mp freed with now | past
      · exact none b now later
      · exact absurd ((same.freed b).mpr past) later
  · intro b kept
    rw [freed_cons, not_or, ← same.freed] at kept
    rw [others.obj b kept.2, first.obj b kept.1]
  · intro b kept
    rw [freed_cons, not_or, ← same.freed] at kept
    rw [others.marked b kept.2, first.marked b kept.1, List.mem_singleton, List.mem_cons, not_or,
      and_assoc]

theorem swept_nil : Swept [] h h := by
  have nothing (a : Addr) : ¬h.Freed [] a := by
    rintro ⟨x, member, -⟩
    cases member
  exact ⟨fun a freed => absurd freed (nothing a), fun _ _ => rfl, fun a _ => by simp⟩

-- a marked object loses its mark
theorem swept_unmark (live : h.get a = some c) (marked : c.marked ≠ 0) :
    Swept [a] h (h.put a { c with marked := 0 }) := by
  have kept (b : Addr) : ¬h.Freed [a] b := by
    rw [freed_one]
    exact fun freed => freed.1 ((Heap.marked_of_get live).mpr marked)
  refine ⟨fun b freed => absurd freed (kept b), fun b _ => (Remarked.put live 0).obj b, ?_⟩
  intro b _
  unfold Heap.marked
  rw [Set.mem_ofPred_eq, Heap.get_put ⟨c, live⟩, Set.mem_ofPred_eq, List.mem_singleton]
  by_cases same : a = b
  · simp [same]
  · simp [same, Ne.symm same]

theorem swept_free {h₁ : Heap} (dead : a ∉ h.marked) (obj : ∀ b, h₁.obj? b = h.obj? b)
    (marked : h₁.marked = h.marked)
    (get : ∀ b, h'.get b = if b ∈ a :: h₁.tables a then none else h₁.get b) : Swept [a] h h' := by
  rw [tables_congr (obj a)] at get
  have kept (b : Addr) : ¬h.Freed [a] b ↔ b ∉ a :: h.tables a := by
    rw [freed_one, not_and]
    exact ⟨fun keep => keep dead, fun keep _ => keep⟩
  refine ⟨?_, ?_, ?_⟩
  · intro b freed
    rw [get, if_pos (freed_one.mp freed).2]
  · intro b keep
    rw [kept] at keep
    rw [Heap.obj?, get, if_neg keep]
    exact obj b
  · intro b keep
    rw [kept] at keep
    have other : b ≠ a := fun same => keep (same ▸ List.mem_cons_self)
    rw [← marked]
    unfold Heap.marked
    rw [Set.mem_ofPred_eq, get, if_neg keep, Set.mem_ofPred_eq, List.mem_singleton]
    simp [other]

theorem Swept.unmoved (rest : List Addr) (first : Swept [a] h h') (kept : ∀ b ∈ rest, ¬h.Freed [a] b)
    (other : a ∉ rest) : Unmoved rest h h' := by
  refine ⟨fun b member => first.obj b (kept b member), ?_⟩
  intro b member
  rw [first.marked b (kept b member), List.mem_singleton]
  exact and_iff_left (fun same => other (same ▸ member))

def SweptTo (gc : GC) (kept rest : List Addr) (collected : Nat) (r : Except Fault (GC × Nat)) : Prop :=
  ∃ gc', r = .ok (gc', collected + (gc.heap.dead rest).length) ∧
    Linked gc'.heap.next? gc'.objects none (kept ++ gc.heap.survivors rest) ∧
    Swept rest gc.heap gc'.heap ∧ gc'.numObjects = gc.numObjects - (gc.heap.dead rest).length ∧
    SameSettings gc gc'

structure Sweepable (gc : GC) (p : Option Addr) (kept rest : List Addr) : Prop where
  front : Linked gc.heap.next? gc.objects p kept
  back : Linked gc.heap.next? p none rest
  nodup : (kept ++ rest).Nodup
  owned : Owned gc.heap (gc.heap.dead rest) (kept ++ rest)
  count : (gc.heap.dead rest).length ≤ gc.numObjects

section Turn

variable (ok : Sweepable gc (some a) kept (a :: rest)) (live : gc.heap.get a = some c)

include ok live

theorem Sweepable.tail : Linked gc.heap.next? c.next none rest := by
  cases ok.back with
  | cons step back =>
      rw [Heap.next_of_get live] at step
      cases step
      exact back

theorem Sweepable.unmark (marked : c.marked ≠ 0) : Sweepable
    { gc with heap := gc.heap.put a { c with marked := 0 } } c.next (kept ++ [a]) rest := by
  have same := Remarked.put live 0
  have back := ok.tail live
  have outside := (List.nodup_cons.mp ((List.nodup_append.mp ok.nodup).2.1)).1
  have moved := (swept_unmark live marked).unmoved rest (fun b _ freed =>
    (freed_one.mp freed).1 ((Heap.marked_of_get live).mpr marked)) outside
  refine ⟨?_, back.congr (fun b _ => same.next b), ?_, ?_, ?_⟩
  · apply (ok.front.congr (fun b _ => same.next b)).snoc
    exact (same.next a).trans (Heap.next_of_get live)
  · rw [List.append_assoc]
    exact ok.nodup
  · apply moved.owned ok.owned.tail
    · simp
    · intro x member b table
      exact same.live.mpr (ok.owned.tail.live x member b table)
  · have count := ok.count
    rw [dead_cons, if_pos ((Heap.marked_of_get live).mpr marked)] at count
    rw [dead_congr moved.marked]
    exact count

theorem Sweepable.free (dead : c.marked = 0) : ∃ gc₁ gc₂,
    gc.unlink kept.getLast? c.next = .ok gc₁ ∧ gc₁.freeObject P a = .ok gc₂ ∧
      gc₂.numObjects = gc.numObjects ∧ SameSettings gc gc₂ ∧ Swept [a] gc.heap gc₂.heap ∧
      Unmoved rest gc.heap gc₂.heap ∧
      Sweepable { gc₂ with numObjects := gc₂.numObjects - 1 } c.next kept rest := by
  have back := ok.tail live
  have parts := List.nodup_append.mp ok.nodup
  have outside := (List.nodup_cons.mp parts.2.1).1
  have notKept : a ∉ kept := fun member => parts.2.2 a member a List.mem_cons_self rfl
  have unmarked : a ∉ gc.heap.marked := fun marked => (Heap.marked_of_get live).mp marked dead
  have member : a ∈ gc.heap.dead (a :: rest) := by
    rw [dead_cons, if_neg unmarked]
    exact List.mem_cons_self
  have unlisted (b : Addr) (table : b ∈ gc.heap.tables a) : b ∉ kept ++ a :: rest :=
    ok.owned.unlisted a member b table
  have apart : (gc.heap.tables a ++ (gc.heap.dead rest).flatMap gc.heap.tables).Nodup := by
    have nodup := ok.owned.nodup
    rwa [dead_cons, if_neg unmarked, List.flatMap_cons] at nodup
  obtain ⟨gc₁, run₁, front, frame, obj, marked, number₁, settings₁⟩ :=
    unlink_spec (q := c.next) ok.front parts.1
  have tables := tables_congr (obj a)
  have live₁ : gc₁.heap.get a = some c := (frame a notKept).trans live
  obtain ⟨gc₂, run₂, get, objects, number₂, settings₂⟩ := freeObject_spec (P := P) live₁
    (by
      intro b table
      rw [tables] at table
      rw [Heap.live_iff, obj, ← Heap.live_iff]
      exact ok.owned.live a member b table)
    (by
      rw [tables]
      refine List.nodup_cons.mpr ⟨?_, (List.nodup_append.mp apart).1⟩
      intro table
      exact unlisted a table (List.mem_append_right _ List.mem_cons_self))
  have swept := swept_free unmarked obj marked get
  have listed (b : Addr) (inside : b ∈ kept ++ a :: rest) (other : b ≠ a) :
      b ∉ a :: gc₁.heap.tables a := by
    rw [tables, List.mem_cons, not_or]
    exact ⟨other, fun table => unlisted b table inside⟩
  have keptGet (b : Addr) (inside : b ∈ kept) : gc₂.heap.get b = gc₁.heap.get b := by
    rw [get, if_neg (listed b (List.mem_append_left _ inside) (fun same => notKept (same ▸ inside)))]
  have restGet (b : Addr) (inside : b ∈ rest) : gc₂.heap.get b = gc.heap.get b := by
    have late : b ∈ a :: rest := List.mem_cons_of_mem a inside
    rw [get, if_neg (listed b (List.mem_append_right _ late) (fun same => outside (same ▸ inside))),
      frame b (fun early => parts.2.2 b early b late rfl)]
  have moved : Unmoved rest gc.heap gc₂.heap := by
    apply swept.unmoved rest _ outside
    intro b inside freed
    have late : b ∈ a :: rest := List.mem_cons_of_mem a inside
    have := listed b (List.mem_append_right _ late) (fun same => outside (same ▸ inside))
    rw [tables] at this
    exact this (freed_one.mp freed).2
  refine ⟨gc₁, gc₂, run₁, run₂, number₂.trans number₁, settings₁.trans settings₂, swept, moved,
    ?_, ?_, ?_, ?_, ?_⟩
  · change Linked gc₂.heap.next? gc₂.objects c.next kept
    rw [objects]
    apply front.congr
    intro b inside
    rw [Heap.next?, keptGet b inside]
    rfl
  · apply back.congr
    intro b inside
    change gc₂.heap.next? b = _
    rw [Heap.next?, restGet b inside]
    rfl
  · exact ok.nodup.sublist ((List.sublist_cons_self a rest).append_left kept)
  · apply moved.owned ok.owned.tail
    · exact ((List.sublist_cons_self a rest).append_left kept).subset
    · intro x inside b table
      obtain ⟨cell, alive⟩ := ok.owned.tail.live x inside b table
      have far : b ∉ a :: gc₁.heap.tables a := by
        rw [tables, List.mem_cons, not_or]
        constructor
        · rintro rfl
          exact ok.owned.tail.unlisted x inside b table (List.mem_append_right _ List.mem_cons_self)
        · intro mine
          exact (List.nodup_append.mp apart).2.2 b mine b
            (List.mem_flatMap.mpr ⟨x, inside, table⟩) rfl
      change gc₂.heap.Live b
      unfold Heap.Live
      rw [get, if_neg far]
      change gc₁.heap.Live b
      rw [Heap.live_iff, obj, ← Heap.live_iff]
      exact ⟨cell, alive⟩
  · have count := ok.count
    rw [dead_cons, if_neg unmarked, List.length_cons] at count
    rw [dead_congr moved.marked]
    have number := number₂.trans number₁
    change _ ≤ gc₂.numObjects - 1
    omega

end Turn

theorem sweep_spec {fuel : Nat} (collected : Nat) (ok : Sweepable gc p kept rest)
    (enough : rest.length ≤ fuel) :
    SweptTo gc kept rest collected (gc.sweep P fuel kept.getLast? p collected) := by
  induction rest generalizing gc p kept fuel collected with
  | nil =>
      cases ok.back with
      | nil =>
          refine ⟨gc, ?_, ?_, swept_nil, rfl, .refl gc⟩
          · cases fuel <;> rfl
          · simpa [Heap.survivors] using ok.front
  | cons a rest ih =>
      cases fuel with
      | zero => simp at enough
      | succ fuel =>
          obtain ⟨c, live⟩ : gc.heap.Live a := by
            obtain ⟨q, step⟩ := ok.back.live List.mem_cons_self
            obtain ⟨c, live, -⟩ := Option.map_eq_some_iff.mp step
            exact ⟨c, live⟩
          obtain rfl : p = some a := by
            cases ok.back with
            | cons _ _ => rfl
          have fits : rest.length ≤ fuel := Nat.le_of_succ_le_succ enough
          rw [GC.sweep, live]
          by_cases dead : c.marked = 0
          · obtain ⟨gc₁, gc₂, run₁, run₂, number, settings, swept, moved, next⟩ := ok.free (P := P) live dead
            obtain ⟨gc', run, linked, others, count, settings'⟩ := ih (collected + 1) next fits
            have unmarked : a ∉ gc.heap.marked := fun marked => (Heap.marked_of_get live).mp marked dead
            have positive := ok.count
            rw [dead_congr moved.marked] at run count
            rw [dead_cons, if_neg unmarked, List.length_cons] at positive
            refine ⟨gc', ?_, ?_, swept.cons moved others, ?_, ?_⟩
            · rw [dead_cons, if_neg unmarked, List.length_cons, ← Nat.add_assoc,
                Nat.add_right_comm collected]
              have some : ¬gc₂.numObjects = 0 := by omega
              simp only [if_pos dead, run₁]
              change (gc₁.freeObject P a >>= _) = _
              rw [run₂]
              change (if gc₂.numObjects = 0 then _ else _) = _
              rw [if_neg some]
              exact run
            · rw [survivors_cons, if_neg unmarked, ← survivors_congr moved.marked]
              exact linked
            · change gc'.numObjects = gc₂.numObjects - 1 - _ at count
              rw [count, dead_cons, if_neg unmarked, List.length_cons, number]
              omega
            · exact settings.trans ⟨settings'.roots, settings'.threshold, settings'.totalAllocated,
                settings'.collectionCount⟩
          · have marked : a ∈ gc.heap.marked := (Heap.marked_of_get live).mpr dead
            have swept := swept_unmark live dead
            have outside := (List.nodup_cons.mp ((List.nodup_append.mp ok.nodup).2.1)).1
            have moved := swept.unmoved rest (fun b _ freed => (freed_one.mp freed).1 marked)
              outside
            obtain ⟨gc', run, linked, others, count, settings⟩ := ih collected
              (ok.unmark live dead) fits
            rw [dead_congr moved.marked] at run count
            refine ⟨gc', ?_, ?_, swept.cons moved others, ?_, ?_⟩
            · rw [dead_cons, if_pos marked]
              rw [List.getLast?_append, List.getLast?_singleton] at run
              simp only [if_neg dead]
              exact run
            · rw [survivors_cons, if_pos marked, ← survivors_congr moved.marked]
              simpa using linked
            · rw [count, dead_cons, if_pos marked]
            · exact ⟨settings.roots, settings.threshold, settings.totalAllocated,
                settings.collectionCount⟩

end Zua.Memory
