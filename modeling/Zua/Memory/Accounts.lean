import Zua.Memory.Register

/-!
# Byte accounting

The counters of `gc.zig`. `addObject` adds the size of what it registers to `total_allocated`, `freeObject`
the size of what it frees to `total_collected`, and `collect` adds the number of freed objects once more.
-/

namespace Zua.Memory
open Object
open scoped Classical

variable {P : Platform} {gc gc' : GC} {h : Heap} {a b : Addr} {l rest kept : List Addr} {p : Option Addr}
  {fuel n : Nat}

-- the size that is recorded for an object
def Heap.sizeOf (P : Platform) (h : Heap) (a : Addr) : Nat :=
  match h.obj? a with
  | some o => P.sizeOf o.objType
  | none => 0

def Heap.total (P : Platform) (h : Heap) (l : List Addr) : Nat := (l.map (h.sizeOf P)).sum

theorem sizeOf_of_get {c : Cell} (live : h.get a = some c) : h.sizeOf P a = P.sizeOf c.obj.objType := by
  rw [Heap.sizeOf, Heap.obj_of_get live]

theorem total_congr {h' : Heap} (same : ∀ a ∈ l, h'.sizeOf P a = h.sizeOf P a) :
    h'.total P l = h.total P l := by
  rw [Heap.total, List.map_congr_left same, Heap.total]

theorem sizeOf_congr {h' : Heap} (same : (h'.obj? a).map Obj.objType = (h.obj? a).map Obj.objType) :
    h'.sizeOf P a = h.sizeOf P a := by
  unfold Heap.sizeOf
  cases found : h.obj? a <;> cases found' : h'.obj? a <;> simp_all

theorem total_split : h.total P (h.dead l) + h.total P (h.survivors l) = h.total P l := by
  induction l with
  | nil => rfl
  | cons a l ih =>
      rw [dead_cons, survivors_cons]
      split
      · simp only [Heap.total, List.map_cons, List.sum_cons] at ih ⊢
        omega
      · simp only [Heap.total, List.map_cons, List.sum_cons] at ih ⊢
        omega

/-! ## The sweep -/

theorem unlink_totals {prev next : Option Addr} (run : gc.unlink prev next = .ok gc') :
    gc'.totalCollected = gc.totalCollected ∧ ∀ b, gc'.heap.obj? b = gc.heap.obj? b := by
  unfold GC.unlink at run
  split at run
  · cases run
    exact ⟨rfl, fun _ => rfl⟩
  · split at run
    · rename_i q cell live
      cases run
      refine ⟨rfl, fun b => ?_⟩
      unfold Heap.obj?
      rw [Heap.get_put ⟨cell, live⟩]
      split
      · rename_i same
        rw [← same, live]
        rfl
      · rfl
    · cases run

theorem freeObject_totals (run : gc.freeObject P a = .ok gc') :
    gc'.totalCollected = gc.totalCollected + gc.heap.sizeOf P a := by
  unfold GC.freeObject at run
  split at run
  · cases run
  · rename_i cell live
    cases first : deinit gc.heap cell.obj with
    | error fault => rw [first] at run; cases run
    | ok h₁ =>
        cases second : destroy h₁ a with
        | error fault => simp only [first, second, bind, Except.bind] at run; cases run
        | ok h₂ =>
            simp only [first, second, bind, Except.bind] at run
            cases run
            rw [sizeOf_of_get live]

-- the loop books the sizes of the objects that it frees
theorem sweep_totals {collected : Nat} (ok : Sweepable gc p kept rest)
    (run : gc.sweep P fuel kept.getLast? p collected = .ok (gc', n)) :
    gc'.totalCollected = gc.totalCollected + gc.heap.total P (gc.heap.dead rest) := by
  induction rest generalizing gc p kept fuel collected with
  | nil =>
      cases ok.back with
      | nil => cases fuel <;> cases run <;> rfl
  | cons a rest ih =>
      obtain ⟨c, live⟩ : gc.heap.Live a := by
        obtain ⟨q, step⟩ := ok.back.live List.mem_cons_self
        obtain ⟨c, live, -⟩ := Option.map_eq_some_iff.mp step
        exact ⟨c, live⟩
      obtain rfl : p = some a := by
        cases ok.back with
        | cons _ _ => rfl
      have later {h₁ : Heap} (moved : Unmoved rest gc.heap h₁) :
          h₁.total P (h₁.dead rest) = gc.heap.total P (gc.heap.dead rest) := by
        rw [dead_congr moved.marked]
        refine total_congr fun b member => sizeOf_congr ?_
        rw [moved.obj b (List.mem_of_mem_filter member)]
      cases fuel with
      | zero => cases run
      | succ fuel =>
          rw [GC.sweep, live] at run
          by_cases dead : c.marked = 0
          · obtain ⟨gc₁, gc₂, run₁, run₂, number, -, -, moved, next⟩ := ok.free (P := P) live dead
            obtain ⟨total₁, obj₁⟩ := unlink_totals run₁
            have total₂ := freeObject_totals run₂
            have unmarked : a ∉ gc.heap.marked := fun marked => (Heap.marked_of_get live).mp marked dead
            have size : gc₁.heap.sizeOf P a = gc.heap.sizeOf P a := sizeOf_congr (by rw [obj₁])
            simp only [if_pos dead, run₁, run₂, bind, Except.bind] at run
            split at run
            · cases run
            · have total := ih next run
              change gc'.totalCollected = gc₂.totalCollected + _ at total
              rw [total, later moved, total₂, total₁, size, dead_cons, if_neg unmarked]
              simp only [Heap.total, List.map_cons, List.sum_cons]
              omega
          · have marked : a ∈ gc.heap.marked := (Heap.marked_of_get live).mpr dead
            have outside := (List.nodup_cons.mp ((List.nodup_append.mp ok.nodup).2.1)).1
            have moved := (swept_unmark live dead).unmoved rest
              (fun b _ freed => (freed_one.mp freed).1 marked) outside
            have last : (kept ++ [a]).getLast? = some a := by
              rw [List.getLast?_append, List.getLast?_singleton]
              rfl
            simp only [if_neg dead] at run
            rw [← last] at run
            have total := ih (ok.unmark live dead) run
            rw [total, later moved, dead_cons, if_pos marked]

/-! ## Linking -/

structure Links (gc gc' : GC) : Prop where
  obj : ∀ b, gc'.heap.obj? b = gc.heap.obj? b
  marked : gc'.heap.marked = gc.heap.marked
  roots : gc'.roots = gc.roots
  size : gc'.heap.cells.length = gc.heap.cells.length
  collected : gc'.totalCollected = gc.totalCollected
  count : gc'.collectionCount = gc.collectionCount

theorem link_links (run : gc.link P a = .ok gc') : Links gc gc' ∧
    gc'.totalAllocated = gc.totalAllocated + gc.heap.sizeOf P a := by
  have obj := Registry.link_obj run
  unfold GC.link at run
  split at run
  · cases run
  · rename_i c live
    cases run
    refine ⟨⟨obj, ?_, rfl, List.length_set, rfl, rfl⟩, ?_⟩
    · ext b
      unfold Heap.marked
      rw [Set.mem_ofPred_eq, Heap.get_put ⟨c, live⟩, Set.mem_ofPred_eq]
      split
      · rename_i same
        rw [← same, live]
        simp
      · rfl
    · rw [sizeOf_of_get live]

theorem addObject_steps (run : gc.addObject P fuel a = .ok gc') : ∃ gc₁, gc.link P a = .ok gc₁ ∧
    (gc.numObjects + 1 > gc.threshold ∧ gc₁.collect P fuel = .ok gc' ∨
      ¬gc.numObjects + 1 > gc.threshold ∧ gc' = gc₁) := by
  unfold GC.addObject at run
  cases linked : gc.link P a with
  | error fault => rw [linked] at run; cases run
  | ok gc₁ =>
      have same : gc₁.numObjects = gc.numObjects + 1 ∧ gc₁.threshold = gc.threshold := by
        unfold GC.link at linked
        split at linked
        · cases linked
        · cases linked
          exact ⟨rfl, rfl⟩
      simp only [linked, bind, Except.bind, same] at run
      refine ⟨gc₁, rfl, ?_⟩
      split at run
      · rename_i full
        exact .inl ⟨full, run⟩
      · rename_i room
        cases run
        exact .inr ⟨room, rfl⟩

/-! ## The books -/

-- every object that was registered is on the list or was freed, and a freed object was booked twice
structure Ledger (P : Platform) (gc : GC) (registered : List Addr) (calls : Nat) (l : List Addr) : Prop where
  registry : Registry gc {a | a ∈ registered} l
  nodup : registered.Nodup
  balance : gc.totalCollected + gc.heap.total P l + l.length = gc.totalAllocated + registered.length
  calls : gc.collectionCount = calls

def GC.Balanced (P : Platform) (gc : GC) (calls : Nat) : Prop :=
  ∃ l, Linked gc.heap.next? gc.objects none l ∧ gc.totalCollected ≤ gc.totalAllocated ∧
    gc.totalAllocated - gc.totalCollected = gc.heap.total P l ∧ gc.collectionCount = calls

namespace Ledger

variable {registered : List Addr} {calls : Nat}

theorem listed (books : Ledger P gc registered calls l) : l ⊆ registered :=
  fun a member => ((books.registry.member a).mp member).1

theorem sizes (books : Ledger P gc registered calls l) :
    l.length = registered.length ↔ ∀ a ∈ registered, gc.heap.Live a := by
  have part : l.Subperm registered := books.registry.linked.nodup.subperm books.listed
  constructor
  · intro same a member
    have all : a ∈ l := (part.perm_of_length_le same.ge).mem_iff.mpr member
    exact ((books.registry.member a).mp all).2
  · intro live
    have all : registered ⊆ l := fun a member => (books.registry.member a).mpr ⟨member, live a member⟩
    exact le_antisymm part.length_le (books.nodup.subperm all).length_le

-- the counters agree with the list as long as nothing was freed
theorem balanced_iff (books : Ledger P gc registered calls l) :
    gc.Balanced P calls ↔ ∀ a ∈ registered, gc.heap.Live a := by
  have balance := books.balance
  rw [← books.sizes]
  constructor
  · rintro ⟨l', linked, le, total, -⟩
    cases linked.unique books.registry.linked
    omega
  · intro same
    exact ⟨l, books.registry.linked, by omega, by omega, books.calls⟩

theorem create (books : Ledger P gc registered calls l) (o : Obj) :
    Ledger P { gc with heap := (gc.heap.create o).1 } registered calls l := by
  refine ⟨books.registry.create o, books.nodup, ?_, books.calls⟩
  change gc.totalCollected + (gc.heap.create o).1.total P l + l.length = _
  rw [total_congr fun a member => ?_]
  · exact books.balance
  · obtain ⟨c, live⟩ := ((books.registry.member a).mp member).2
    apply sizeOf_congr
    rw [Heap.obj?, Heap.get_create, if_neg (Heap.live_lt live).ne, Heap.obj?]

theorem stores {h : Heap} (books : Ledger P gc registered calls l) (same : Stores gc.heap h) :
    Ledger P { gc with heap := h } registered calls l := by
  refine ⟨books.registry.stores same, books.nodup, ?_, books.calls⟩
  change gc.totalCollected + h.total P l + l.length = _
  rw [total_congr fun a _ => sizeOf_congr ?_]
  · exact books.balance
  · have header := congrArg (Option.map (fun x : Option Addr × UInt8 × ObjType => x.2.2)) (same.header a)
    rw [Option.map_map, Option.map_map] at header
    unfold Heap.obj?
    rw [Option.map_map, Option.map_map]
    exact header

theorem setRoots (books : Ledger P gc registered calls l) (roots : Option Roots) :
    Ledger P { gc with roots } registered calls l :=
  have reg := books.registry
  ⟨⟨reg.linked, reg.count, reg.member, reg.bound, reg.nodup, reg.tables⟩, books.nodup, books.balance,
    books.calls⟩

theorem link (books : Ledger P gc registered calls l) (free : Registry.Free gc {a | a ∈ registered} l a)
    (new : a ∉ registered) (run : gc.link P a = .ok gc') : Ledger P gc' (a :: registered) calls (a :: l) := by
  have reg := (books.registry.link free run).1
  obtain ⟨links, allocated⟩ := link_links run
  have union : {b | b ∈ registered} ∪ {a} = {b | b ∈ a :: registered} := by
    ext b
    simp
  rw [union] at reg
  refine ⟨reg, List.nodup_cons.mpr ⟨new, books.nodup⟩, ?_, links.count.trans books.calls⟩
  have rest : gc'.heap.total P l = gc.heap.total P l :=
    total_congr fun b _ => sizeOf_congr (by rw [links.obj])
  have size : gc'.heap.sizeOf P a = gc.heap.sizeOf P a := sizeOf_congr (by rw [links.obj])
  have balance := books.balance
  rw [links.collected, allocated, List.length_cons, List.length_cons]
  change _ + (gc'.heap.sizeOf P a + gc'.heap.total P l) + _ = _
  omega

theorem collect (books : Ledger P gc registered calls l) (enough : gc.heap.cells.length ≤ fuel)
    (run : gc.collect P fuel = .ok gc') : ∃ h, Kept gc gc' l h ∧
      Ledger P gc' registered (calls + 1) (h.survivors l) := by
  have reg := books.registry
  obtain ⟨h, gc₁, kept, ready, swept, settings, result⟩ := collect_swept reg.linked reg.count
    (fun _ same _ => reg.owned.dead same) ((linked_length reg.linked).trans enough) run
  obtain ⟨l', reg', after⟩ := reg.collect enough run
  cases reg'.linked.unique kept.linked
  refine ⟨h, kept, reg', books.nodup, ?_, ?_⟩
  · have total := sweep_totals (P := P) ready swept
    have split := total_split (P := P) (h := h) (l := l)
    have lengths := dead_survivors h l
    have balance := books.balance
    have before : h.total P l = gc.heap.total P l :=
      total_congr fun b _ => sizeOf_congr (by rw [kept.same.obj])
    have left : gc'.heap.total P (h.survivors l) = h.total P (h.survivors l) := by
      refine total_congr fun b member => sizeOf_congr ?_
      obtain ⟨c, live⟩ := ((reg'.member b).mp member).2
      rw [Heap.obj_of_get live, kept.same.obj, after.obj b _ (Heap.obj_of_get live)]
    have collected : gc'.totalCollected = gc₁.totalCollected + (h.dead l).length := by rw [result]
    have allocated : gc'.totalAllocated = gc.totalAllocated := by
      rw [result]
      exact settings.totalAllocated
    change gc₁.totalCollected = gc.totalCollected + h.total P (h.dead l) at total
    omega
  · rw [result]
    change gc₁.collectionCount + 1 = _
    rw [settings.collectionCount, books.calls]

end Ledger

/-! ## Runs -/

inductive Request
  | addObject (a : Addr)
  | collect

def Request.registers : Request → List Addr
  | .addObject a => [a]
  | .collect => []

namespace GC

def serve (P : Platform) (fuel : Nat) (gc : GC) : Request → Except Fault GC
  | .addObject a => gc.addObject P fuel a
  | .collect => gc.collect P fuel

-- how often a request calls `collect`
def collections (gc : GC) : Request → Nat
  | .addObject _ => if gc.numObjects + 1 > gc.threshold then 1 else 0
  | .collect => 1

-- an object is registered once, and the tables that a thread owns are not registered at all
def Registrable (gc : GC) (registered : List Addr) : Request → Prop
  | .addObject a => a ∉ registered ∧
      ∀ l, Linked gc.heap.next? gc.objects none l → Registry.Free gc {b | b ∈ registered} l a
  | .collect => True

-- an object that a collection keeps: it is marked already, or it is reached along objects without a mark
def Spares (gc : GC) (a : Addr) : Prop :=
  gc.roots = none ∨ a ∈ gc.heap.marked ∨
    Reaches (fun x y => x ∉ gc.heap.marked ∧ Edge gc.heap x y) (gc.start []) a

-- a request that collects finds nothing to free
def Sparing (gc : GC) (r : Request) : Prop :=
  gc.collections r ≠ 0 → ∀ a, gc.OnList a ∨ a ∈ r.registers → gc.Spares a

end GC

theorem Links.spares (links : Links gc gc') : gc'.Spares a ↔ gc.Spares a := by
  unfold GC.Spares GC.start
  rw [links.roots, links.marked, edge_congr links.obj]

-- requests to a new collector, and what the program does to its objects in between
inductive Books (P : Platform) (ok : GC → Request → Prop) : GC → List Addr → Nat → Prop
  | init : Books P ok {} [] 0
  | create {gc : GC} {registered : List Addr} {calls : Nat} (o : Obj) : Books P ok gc registered calls →
      Books P ok { gc with heap := (gc.heap.create o).1 } registered calls
  | stores {gc : GC} {registered : List Addr} {calls : Nat} {h : Heap} : Books P ok gc registered calls →
      Stores gc.heap h → Books P ok { gc with heap := h } registered calls
  | setRoots {gc : GC} {registered : List Addr} {calls : Nat} (roots : Option Roots) :
      Books P ok gc registered calls → Books P ok { gc with roots } registered calls
  | serve {gc gc' : GC} {registered : List Addr} {calls n : Nat} {r : Request} :
      Books P ok gc registered calls → gc.Registrable registered r → ok gc r →
      gc.heap.cells.length ≤ n → gc.serve P n r = .ok gc' →
      Books P ok gc' (r.registers ++ registered) (calls + gc.collections r)

namespace Ledger

variable {registered : List Addr} {calls : Nat}

theorem serve {r : Request} (books : Ledger P gc registered calls l) (once : gc.Registrable registered r)
    (enough : gc.heap.cells.length ≤ fuel) (run : gc.serve P fuel r = .ok gc') :
    ∃ l', Ledger P gc' (r.registers ++ registered) (calls + gc.collections r) l' := by
  cases r with
  | addObject a =>
      obtain ⟨gc₁, linked, ⟨full, run⟩ | ⟨room, rfl⟩⟩ := addObject_steps run
      · have books₁ := books.link (once.2 l books.registry.linked) once.1 linked
        obtain ⟨h, -, books'⟩ := books₁.collect ((link_links linked).1.size.trans_le enough) run
        rw [GC.collections, if_pos full]
        exact ⟨_, books'⟩
      · rw [GC.collections, if_neg room]
        exact ⟨_, books.link (once.2 l books.registry.linked) once.1 linked⟩
  | collect =>
      obtain ⟨h, -, books'⟩ := books.collect enough run
      exact ⟨_, books'⟩

-- a collection that spares every object of its list keeps it whole
theorem collect_sparing (books : Ledger P gc registered calls l) (enough : gc.heap.cells.length ≤ fuel)
    (run : gc.collect P fuel = .ok gc') (spared : ∀ a ∈ l, gc.Spares a)
    (whole : l.length = registered.length) :
    ∃ l', Ledger P gc' registered (calls + 1) l' ∧ l'.length = registered.length := by
  obtain ⟨h, kept, books'⟩ := books.collect enough run
  refine ⟨_, books', ?_⟩
  rw [← whole]
  congr 1
  apply List.filter_eq_self.mpr
  intro a member
  apply decide_eq_true
  rcases spared a member with unset | marked | path
  · apply kept.marks.roots
    rw [GC.start, unset]
    exact member
  · exact kept.marks.mono marked
  · cases roots : gc.roots with
    | none =>
        apply kept.marks.roots
        rw [GC.start, roots]
        exact member
    | some r =>
        have same : gc.start [] = gc.start l := by
          unfold GC.start
          rw [roots]
        exact kept.marks.reached (same ▸ path)

theorem serve_sparing {r : Request} (books : Ledger P gc registered calls l)
    (once : gc.Registrable registered r) (enough : gc.heap.cells.length ≤ fuel)
    (run : gc.serve P fuel r = .ok gc') (sparing : gc.Sparing r) (whole : l.length = registered.length) :
    ∃ l', Ledger P gc' (r.registers ++ registered) (calls + gc.collections r) l' ∧
      l'.length = (r.registers ++ registered).length := by
  have onList (a : Addr) (member : a ∈ l) : gc.OnList a := books.registry.onList_iff.mpr member
  cases r with
  | addObject a =>
      obtain ⟨gc₁, linked, ⟨full, run⟩ | ⟨room, rfl⟩⟩ := addObject_steps run
      · have books₁ := books.link (once.2 l books.registry.linked) once.1 linked
        obtain ⟨links, -⟩ := link_links linked
        have once : gc.collections (.addObject a) = 1 := if_pos full
        rw [once]
        apply books₁.collect_sparing (links.size.trans_le enough) run ?_ (congrArg (· + 1) whole)
        intro b member
        rw [links.spares]
        apply sparing (once ▸ Nat.one_ne_zero)
        rcases List.mem_cons.mp member with rfl | listed
        · exact .inr List.mem_cons_self
        · exact .inl (onList b listed)
      · rw [GC.collections, if_neg room]
        exact ⟨_, books.link (once.2 l books.registry.linked) once.1 linked, congrArg (· + 1) whole⟩
  | collect =>
      exact books.collect_sparing enough run
        (fun a member => sparing Nat.one_ne_zero a (.inl (onList a member))) whole

end Ledger

theorem books_ledger {ok : GC → Request → Prop} {registered : List Addr} {calls : Nat}
    (run : Books P ok gc registered calls) : ∃ l, Ledger P gc registered calls l := by
  induction run with
  | init =>
      refine ⟨[], ⟨.nil, rfl, ?_, ?_, List.nodup_nil, ?_⟩, List.nodup_nil, rfl, rfl⟩
      · intro a
        simp
      · intro a member
        cases member
      · intro x member
        cases member
  | create o _ ih =>
      obtain ⟨l, books⟩ := ih
      exact ⟨l, books.create o⟩
  | stores _ same ih =>
      obtain ⟨l, books⟩ := ih
      exact ⟨l, books.stores same⟩
  | setRoots roots _ ih =>
      obtain ⟨l, books⟩ := ih
      exact ⟨l, books.setRoots roots⟩
  | serve _ once _ enough run ih =>
      obtain ⟨l, books⟩ := ih
      exact books.serve once enough run

theorem books_whole {registered : List Addr} {calls : Nat} (run : Books P GC.Sparing gc registered calls) :
    ∃ l, Ledger P gc registered calls l ∧ l.length = registered.length := by
  induction run with
  | init =>
      obtain ⟨l, books⟩ := books_ledger (Books.init : Books P GC.Sparing {} [] 0)
      exact ⟨l, books, List.length_eq_zero_iff.mpr (List.subset_nil.mp books.listed)⟩
  | create o _ ih =>
      obtain ⟨l, books, whole⟩ := ih
      exact ⟨l, books.create o, whole⟩
  | stores _ same ih =>
      obtain ⟨l, books, whole⟩ := ih
      exact ⟨l, books.stores same, whole⟩
  | setRoots roots _ ih =>
      obtain ⟨l, books, whole⟩ := ih
      exact ⟨l, books.setRoots roots, whole⟩
  | serve _ once sparing enough run ih =>
      obtain ⟨l, books, whole⟩ := ih
      exact books.serve_sparing once enough run sparing whole

/-! ## The calls of the program -/

abbrev Anything : GC → Request → Prop := fun _ _ => True

theorem Ledger.registrable {registered : List Addr} {calls : Nat} (books : Ledger P gc registered calls l)
    (free : Registry.Free gc {b | b ∈ registered} l a) (new : a ∉ registered) :
    gc.Registrable registered (.addObject a) := by
  refine ⟨new, fun l' linked => ?_⟩
  rw [linked.unique books.registry.linked]
  exact free

-- an object that was just allocated and owns no tables
theorem Ledger.registrable_fresh {registered : List Addr} {calls : Nat} {o : Obj}
    (books : Ledger P gc registered calls l) (other : ∀ t, o ≠ .thread t) :
    { gc with heap := (gc.heap.create o).1 }.Registrable registered (.addObject gc.heap.cells.length) := by
  have none : (gc.heap.create o).1.tables gc.heap.cells.length = [] := Registry.tables_create other
  have free := books.registry.free_fresh (o := o) (by rw [none]; exact List.nodup_nil)
    (by rw [none]; exact fun b member => absurd member List.not_mem_nil)
  have new : gc.heap.cells.length ∉ registered :=
    fun member => absurd (books.registry.bound _ member) (Nat.lt_irrefl _)
  exact (books.create o).registrable free new

theorem Books.initWithGC {registered : List Addr} {calls : Nat} {o : Obj}
    (run : Books P Anything gc registered calls) (other : ∀ t, o ≠ .thread t)
    (enough : gc.heap.cells.length + 1 ≤ fuel) (call : gc.initWithGC P fuel o = .ok gc') :
    ∃ calls, Books P Anything gc' (gc.heap.cells.length :: registered) calls := by
  obtain ⟨l, books⟩ := books_ledger run
  have size : (gc.heap.create o).1.cells.length = gc.heap.cells.length + 1 := List.length_append
  exact ⟨_, .serve (r := .addObject _) (.create o run) (books.registrable_fresh other) trivial
    (size.trans_le enough) call⟩

theorem Books.call {registered : List Addr} {calls : Nat} {c : Call}
    (run : Books P Anything gc registered calls) (new : ProtoNew gc c)
    (enough : gc.heap.cells.length + 3 ≤ fuel) (call : gc.call P fuel c = .ok gc') :
    ∃ registered' calls', Books P Anything gc' registered' calls' ∧
      ∀ a, a ∈ registered' ↔ a ∈ registered ∨ a ∈ gc.registers c := by
  have plain {o : Obj} {gc' : GC} (other : ∀ t, o ≠ .thread t)
      (same : gc.registers c = {gc.heap.cells.length}) (call : gc.initWithGC P fuel o = .ok gc') :
      ∃ registered' calls', Books P Anything gc' registered' calls' ∧
        ∀ a, a ∈ registered' ↔ a ∈ registered ∨ a ∈ gc.registers c := by
    obtain ⟨calls', run'⟩ := run.initWithGC other (by omega) call
    refine ⟨_, calls', run', fun a => ?_⟩
    rw [same, List.mem_cons, Set.mem_singleton_iff]
    exact or_comm
  obtain ⟨l, books⟩ := books_ledger run
  cases c with
  | string s => exact plain (by simp) rfl call
  | table => exact plain (by simp) rfl call
  | closure proto =>
      rw [GC.call] at call
      split at call
      · rename_i f found
        have other (t : Thread) : Obj.closure proto (List.replicate f.numUpvalues none) ≠ .thread t := by simp
        cases first : gc.initWithGC P fuel (.closure proto (List.replicate f.numUpvalues none)) with
        | error fault => rw [first] at call; cases call
        | ok gc₁ =>
            rw [first] at call
            obtain ⟨calls₁, run₁⟩ := run.initWithGC other (by omega) first
            obtain ⟨l₁, reg₁, after⟩ := books.registry.init_plain (by omega) other first
            have free := books.registry.closure_free found new reg₁ after
            obtain ⟨l', books'⟩ := books_ledger run₁
            cases reg₁.linked.unique books'.registry.linked
            have union : {a | a ∈ registered} ∪ {gc.heap.cells.length} =
                {a | a ∈ gc.heap.cells.length :: registered} := by
              ext a
              simp
            rw [union] at free
            have size : gc₁.heap.cells.length = gc.heap.cells.length + 1 := after.size.trans List.length_append
            have fresh : proto ∉ gc.heap.cells.length :: registered := by
              intro member
              have live : gc.heap.Live proto := Heap.live_iff.mpr ⟨_, found⟩
              rcases List.mem_cons.mp member with rfl | member
              · obtain ⟨cell, live⟩ := live
                exact absurd (Heap.live_lt live) (Nat.lt_irrefl _)
              · exact new (books.registry.onList_iff.mpr ((books.registry.member proto).mpr ⟨member, live⟩))
            have enough : gc₁.heap.cells.length ≤ fuel := by omega
            refine ⟨_, _, .serve (r := .addObject proto) run₁ (books'.registrable free fresh) trivial
              enough call, fun a => ?_⟩
            simp [Request.registers, GC.registers]
            tauto
      · cases call
      · cases call
  | cClosure func n => exact plain (by simp) rfl call
  | userdata data => exact plain (by simp) rfl call
  | thread stackSize =>
      obtain ⟨reg₃, free⟩ := books.registry.thread_free stackSize
      have books₃ := ((books.create (.table {})).create (.table {})).create
        (.thread (newThread stackSize gc.heap.cells.length (gc.heap.create (.table {})).1.cells.length))
      have fresh : gc.heap.cells.length + 2 ∉ registered := by
        intro member
        have bound : gc.heap.cells.length + 2 < gc.heap.cells.length := books.registry.bound _ member
        omega
      rw [GC.call_thread] at call
      refine ⟨_, _, .serve (r := .addObject (gc.heap.cells.length + 2)) (.create _ (.create _ (.create _ run)))
        (books₃.registrable free fresh) trivial ((threadHeap_size _ _).trans_le enough) call, fun a => ?_⟩
      simp [Request.registers, GC.registers, or_comm]
  | function f => exact plain (by simp) rfl call
  | upvalue slot openUpval =>
      obtain ⟨gc₁, h, first, stores, rfl⟩ := books.registry.upvalue_stores (by omega) call
      have other (t : Thread) : Obj.upvalue ⟨some slot, .nil, none⟩ ≠ .thread t := by simp
      obtain ⟨registered', calls', run', same⟩ := plain other rfl first
      exact ⟨registered', calls', .stores run' stores, same⟩
  | compile f =>
      cases call
      exact ⟨registered, calls, .create _ run, fun a => by simp [GC.registers]⟩
  | collect =>
      exact ⟨registered, _, .serve (r := .collect) run trivial trivial (by omega) call,
        fun a => by simp [GC.registers]⟩

-- every session of the program that registers no prototype twice keeps such books
theorem session_books {R : Set Addr} (session : Session P ProtoNew gc R) :
    ∃ registered calls, Books P Anything gc registered calls ∧ ∀ a, a ∈ registered ↔ a ∈ R := by
  induction session with
  | init => exact ⟨[], 0, .init, fun a => by simp⟩
  | call _ new enough run ih =>
      obtain ⟨registered, calls, books, same⟩ := ih
      obtain ⟨registered', calls', books', same'⟩ := books.call new enough run
      refine ⟨registered', calls', books', fun a => ?_⟩
      rw [same', same]
      rfl
  | stores _ same ih =>
      obtain ⟨registered, calls, books, members⟩ := ih
      exact ⟨registered, calls, .stores books same, members⟩
  | setRoots roots _ ih =>
      obtain ⟨registered, calls, books, members⟩ := ih
      exact ⟨registered, calls, .setRoots roots books, members⟩

/-! ## The balance -/

theorem books_balance (P : Platform) :
    (∀ gc registered calls, Books P GC.Sparing gc registered calls → gc.Balanced P calls) ∧
    ∀ ok gc registered calls, Books P ok gc registered calls →
      (gc.Balanced P calls ↔ ∀ a ∈ registered, gc.heap.Live a) := by
  constructor
  · intro gc registered calls run
    obtain ⟨l, books, whole⟩ := books_whole run
    exact books.balanced_iff.mpr (books.sizes.mp whole)
  · intro ok gc registered calls run
    obtain ⟨l, books⟩ := books_ledger run
    exact books.balanced_iff

def oneTable : GC where
  heap := ⟨[some { obj := .table {} }]⟩
  objects := some 0
  numObjects := 1
  totalAllocated := 8

theorem books_balance_oneTable : oneTable.Balanced plain 0 ∧
    (oneTable.Balanced plain 0 ↔ ∀ a ∈ [0], oneTable.heap.Live a) := by
  have start : Books plain GC.Sparing {} [] 0 := .init
  obtain ⟨l, books⟩ := books_ledger start
  have run : Books plain GC.Sparing oneTable [0] 0 :=
    .serve (n := 8) (r := .addObject 0) (.create (.table {}) start)
      (books.registrable_fresh (o := .table {}) (by simp)) (fun collects => absurd rfl collects) (by decide) rfl
  exact ⟨(books_balance plain).1 oneTable [0] 0 run, (books_balance plain).2 _ oneTable [0] 0 run⟩

def twoTables : GC where
  heap := ⟨[some { obj := .table {} }, some { next := some 0, obj := .table {} }]⟩
  objects := some 1
  numObjects := 2
  totalAllocated := 16
  roots := some { globals := some 0 }

-- the second table was worth 8 bytes and is booked as 9
def oneTableLeft : GC where
  heap := ⟨[some { obj := .table {} }, none]⟩
  objects := some 0
  numObjects := 1
  totalAllocated := 16
  totalCollected := 9
  collectionCount := 1
  roots := some { globals := some 0 }

theorem books_unbalanced : ¬∀ gc registered calls, Books plain Anything gc registered calls →
    gc.Balanced plain calls := by
  intro all
  have call₁ : GC.call plain 8 {} .table = .ok oneTable := rfl
  have call₂ : GC.call plain 8 oneTable .table = .ok { twoTables with roots := none } := rfl
  have collect : GC.serve plain 8 twoTables .collect = .ok oneTableLeft := by decide
  obtain ⟨registered₁, calls₁, run₁, -⟩ := Books.call (c := .table) .init trivial (by decide) call₁
  obtain ⟨registered₂, calls₂, run₂, -⟩ := run₁.call (c := .table) trivial (by decide) call₂
  have ready : Books plain Anything twoTables registered₂ calls₂ := .setRoots (some { globals := some 0 }) run₂
  have run := ready.serve (r := .collect) trivial trivial (by decide) collect
  obtain ⟨l, linked, -, total, -⟩ := all _ _ _ run
  have last : Linked oneTableLeft.heap.next? oneTableLeft.objects none [0] := .cons rfl .nil
  cases linked.unique last
  cases total

end Zua.Memory
