import Zua.Memory.Sweep

/-!
# Collections that return

What a collection did when it returned, with nothing assumed about the references between the objects:
marking changed only marks and closed what it marked, and the sweep kept the marked objects of the list.
-/

namespace Zua.Memory
open Object
open scoped Classical

def Traces (g : Heap) (R : Set Addr) (h : Heap) (r : Except Fault Heap) : Prop :=
  ∀ h', r = .ok h' → Remarked g h' ∧ Marks (Edge g) R h.marked h'.marked

def Tracer (g : Heap) (mark : Heap → Addr → Except Fault Heap) : Prop :=
  ∀ h a, Remarked g h → Traces g {a} h (mark h a)

variable {g h : Heap} {R S : Set Addr} {r : Except Fault Heap} {fuel : Nat}
  {mark : Heap → Addr → Except Fault Heap} {up : Option Addr}

namespace Traces

theorem congr (traces : Traces g R h r) (same : ∀ x, x ∈ S ↔ x ∈ R) : Traces g S h r := by
  rwa [Set.ext same]

theorem nothing (hg : Remarked g h) (none : ∀ x, x ∉ R) : Traces g R h (.ok h) := by
  rintro h' ⟨⟩
  rw [Set.eq_empty_of_forall_notMem none]
  exact ⟨hg, .none⟩

theorem fails (fault : Fault) : Traces g R h (.error fault) := by
  rintro h' ⟨⟩

theorem andThen {f : Heap → Except Fault Heap} (traces : Traces g R h r)
    (rest : ∀ h', Remarked g h' → Traces g S h' (f h')) : Traces g (R ∪ S) h (r >>= f) := by
  intro h₂ run
  cases first : r with
  | error fault => rw [first] at run; cases run
  | ok h₁ =>
      rw [first] at run
      obtain ⟨hg₁, marks₁⟩ := traces h₁ first
      obtain ⟨hg₂, marks₂⟩ := rest h₁ hg₁ h₂ run
      exact ⟨hg₂, marks₁.both marks₂⟩

end Traces

/-! ## Marking -/

section Pieces

variable (tracer : Tracer g mark)
include tracer

theorem traces_option (o : Option Addr) (hg : Remarked g h) :
    Traces g {a | o = some a} h (markOption mark h o) := by
  cases o with
  | none => exact .nothing hg (by simp)
  | some a => exact (tracer h a hg).congr (by simp [eq_comm])

omit tracer in
theorem traces_foldlM {β : Type} {f : Heap → β → Except Fault Heap} (T : β → Set Addr) (l : List β)
    (each : ∀ x ∈ l, ∀ h, Remarked g h → Traces g (T x) h (f h x)) (hg : Remarked g h) :
    Traces g {a | ∃ x ∈ l, a ∈ T x} h (l.foldlM f h) := by
  induction l generalizing h with
  | nil => exact .nothing hg (by simp)
  | cons x l ih =>
      rw [List.foldlM_cons]
      have first := each x List.mem_cons_self h hg
      refine (first.andThen fun h' hg' => ih ?_ hg').congr ?_
      · exact fun y member => each y (List.mem_cons_of_mem x member)
      · intro a
        rw [Set.mem_union, Set.mem_ofPred_eq, Set.mem_ofPred_eq, List.exists_mem_cons_iff]

theorem traces_values (l : List Value) (hg : Remarked g h) :
    Traces g {a | Holds l a} h (l.foldlM (markValue mark) h) := by
  apply traces_foldlM (fun v => {a | v.object? = some a}) l _ hg
  intro v _ h hg
  exact traces_option tracer v.object? hg

theorem traces_upvals (fuel : Nat) (hg : Remarked g h) :
    Traces g {a | OnChain g up a} h (markUpvals mark fuel h up) := by
  induction fuel generalizing h up with
  | zero =>
      cases up with
      | none => exact .nothing hg (by rintro x ⟨⟩)
      | some u => exact .fails _
  | succ fuel ih =>
      cases up with
      | none => exact .nothing hg (by rintro x ⟨⟩)
      | some u =>
          rw [markUpvals]
          cases found : g.upvalue? u with
          | none =>
              intro h' run
              cases first : mark h u with
              | error fault => rw [first] at run; cases run
              | ok h₁ =>
                  rw [first] at run
                  have none := ((tracer h u hg) h₁ first).1.upvalue u
                  simp only [bind, Except.bind, none, found] at run
                  cases run
          | some uv =>
              refine ((tracer h u hg).andThen (S := {a | OnChain g uv.next a}) ?_).congr ?_
              · intro h' hg'
                rw [hg'.upvalue, found]
                exact ih hg'
              intro a
              constructor
              · intro on
                cases on with
                | head => exact .inl rfl
                | tail found' on =>
                    rw [found] at found'
                    cases found'
                    exact .inr on
              · rintro (rfl | on)
                · exact .head
                · exact .tail found on

theorem traces_children (o : Obj) (hg : Remarked g h) :
    Traces g {b | o.Refers g b} h (markChildren mark fuel h o) := by
  cases o with
  | string s => exact .nothing hg (fun _ => id)
  | table t =>
      refine (traces_option tracer t.metatable hg).andThen fun h hg => ?_
      refine (traces_values tracer t.array hg).andThen fun h hg => ?_
      exact traces_values tracer _ hg
  | closure proto upvalues =>
      refine ((tracer h proto hg).andThen (S := {b | some b ∈ upvalues}) fun h hg => ?_).congr ?_
      · apply (traces_foldlM (fun o => {b | o = some b}) upvalues
          (fun o _ _ hg => traces_option tracer o hg) hg).congr
        simp
      · simp [Obj.Refers, eq_comm]
  | cClosure func upvalues env =>
      refine (traces_option tracer env hg).andThen fun h hg => ?_
      exact traces_values tracer upvalues hg
  | userdata data env => exact traces_option tracer env hg
  | thread t =>
      refine ((tracer h t.globals hg).andThen (S := {b | t.registry = b ∨ OnChain g t.openUpval b ∨
        Holds (t.stack.take t.stackTop) b}) fun h hg => ?_).congr (by simp [Obj.Refers, eq_comm])
      refine ((tracer h t.registry hg).andThen (S := {b | OnChain g t.openUpval b ∨
        Holds (t.stack.take t.stackTop) b}) fun h hg => ?_).congr (by simp [eq_comm])
      exact (traces_upvals tracer fuel hg).andThen fun h hg => traces_values tracer _ hg
  | upvalue u =>
      apply (traces_option tracer u.closed.object? hg).congr
      simp [Obj.Refers, Holds]
  | proto f =>
      apply (traces_foldlM (fun b => {b}) f.protos (fun b _ h hg => tracer h b hg) hg).congr
      simp [Obj.Refers]

end Pieces

theorem markObject_traces (g : Heap) (fuel : Nat) : Tracer g (markObject fuel) := by
  induction fuel with
  | zero => exact fun h a _ => .fails _
  | succ fuel ih =>
      intro h a hg
      rw [markObject]
      cases live : h.get a with
      | none => exact .fails _
      | some c =>
          by_cases fresh : c.marked = 0
          · simp only [fresh, ne_eq, not_true_eq_false, if_false]
            have found : g.obj? a = some c.obj := (hg.obj a).symm.trans (Heap.obj_of_get live)
            intro h' run
            obtain ⟨hg', marks⟩ := traces_children ih c.obj (hg.trans (.put live 1)) h' run
            rw [marked_put live] at marks
            refine ⟨hg', .node ?_⟩
            simpa only [edge_iff found] using marks
          · simp only [ne_eq, fresh, not_false_eq_true, if_true]
            rintro h' ⟨⟩
            exact ⟨hg, .skip ((Heap.marked_of_get live).mpr fresh)⟩

theorem markAll_traces {l : List Addr} {steps : Nat} (linked : Linked g.next? up none l) (hg : Remarked g h) :
    Traces g {a | a ∈ l} h (markAll fuel steps h up) := by
  induction l generalizing up h steps with
  | nil =>
      cases linked with
      | nil =>
          rw [markAll]
          exact .nothing hg (by simp)
  | cons a l ih =>
      cases linked with
      | cons step rest =>
          cases steps with
          | zero => exact .fails _
          | succ steps =>
              rw [markAll]
              refine ((markObject_traces g fuel h a hg).andThen (S := {a | a ∈ l}) ?_).congr (by simp)
              intro h' hg'
              obtain ⟨c, live, rfl⟩ := Option.map_eq_some_iff.mp ((hg'.next a).trans step)
              rw [live]
              exact ih rest hg'

theorem mainThread_traces (thread : Addr) (hg : Remarked g h) :
    Traces g {thread} h (markMainThread fuel h thread) := by
  have tracer := markObject_traces g fuel
  rw [markMainThread]
  cases found : g.thread? thread with
  | none =>
      intro h' run
      cases first : markObject fuel h thread with
      | error fault => rw [first] at run; cases run
      | ok h₁ =>
          rw [first] at run
          have none := ((tracer h thread hg) h₁ first).1.thread thread
          simp only [bind, Except.bind, none, found] at run
          cases run
  | some t =>
      have both : Traces g ({thread} ∪ ({b | Holds (t.stack.take t.stackTop) b} ∪ {b | OnChain g t.openUpval b})) h
          (markMainThread fuel h thread) := by
        apply (tracer h thread hg).andThen
        intro h' hg'
        rw [hg'.thread, found]
        exact (traces_values tracer _ hg').andThen fun h hg => traces_upvals tracer fuel hg
      intro h' run
      obtain ⟨hg', marks⟩ := both h' run
      refine ⟨hg', marks.absorb Set.subset_union_left ?_⟩
      have child (b : Addr) (refers : (Obj.thread t).Refers g b) : Reaches (Edge g) {thread} b :=
        Reaches.step (.root rfl) ((edge_iff (Heap.thread_iff.mp found)).mpr refers)
      rintro x (rfl | held | member)
      · exact .root rfl
      · exact child x (.inr (.inr (.inr held)))
      · exact child x (.inr (.inr (.inl member)))

theorem markRoots_traces {gc : GC} {l : List Addr} (linked : Linked gc.heap.next? gc.objects none l) :
    Traces gc.heap (gc.start l) gc.heap (markRoots fuel gc) := by
  have tracer := markObject_traces gc.heap fuel
  have hg := Remarked.refl gc.heap
  unfold markRoots
  cases roots : gc.roots with
  | none => exact (markAll_traces linked hg).congr (by simp [GC.start, roots])
  | some rs =>
      refine Traces.congr (R := {a | rs.globals = some a} ∪
        ({a | rs.registry = some a} ∪ {a | rs.mainThread = some a})) ?_ (by simp [GC.start, roots])
      refine (traces_option tracer rs.globals hg).andThen fun h hg => ?_
      refine (traces_option tracer rs.registry hg).andThen fun h hg => ?_
      cases main : rs.mainThread with
      | none => exact .nothing hg (by simp)
      | some thread => exact (mainThread_traces thread hg).congr (by simp [eq_comm])

/-! ## The whole collection -/

theorem Owned.dead {l : List Addr} (owned : Owned g l l) (hg : Remarked g h) : Owned h (h.dead l) l := by
  have sub : (h.dead l).Sublist l := List.filter_sublist
  have tables (x : Addr) : h.tables x = g.tables x := tables_congr (hg.obj x)
  refine ⟨?_, ?_, ?_⟩
  · rw [List.flatMap_congr fun x _ => tables x]
    exact owned.nodup.sublist (sub.flatMap _)
  · intro x member a table
    rw [tables] at table
    exact hg.live.mpr (owned.live x (sub.subset member) a table)
  · intro x member a table
    rw [tables] at table
    exact owned.unlisted x (sub.subset member) a table

theorem dead_survivors (h : Heap) (l : List Addr) : (h.survivors l).length + (h.dead l).length = l.length := by
  unfold Heap.survivors Heap.dead
  induction l with
  | nil => rfl
  | cons a l ih =>
      rw [List.filter_cons, List.filter_cons]
      by_cases marked : a ∈ h.marked
      · simp only [marked, decide_true, not_true_eq_false, decide_false, if_true, Bool.false_eq_true, if_false,
          List.length_cons]
        omega
      · simp only [marked, decide_false, not_false_eq_true, decide_true, if_true, Bool.false_eq_true, if_false,
          List.length_cons]
        omega

theorem destroy_size {h' : Heap} {a : Addr} (run : destroy h a = .ok h') : h'.cells.length = h.cells.length := by
  unfold destroy at run
  split at run
  · cases run
    exact List.length_set
  · cases run

theorem freeObject_size {P : Platform} {gc gc' : GC} {a : Addr} (run : gc.freeObject P a = .ok gc') :
    gc'.heap.cells.length = gc.heap.cells.length := by
  unfold GC.freeObject at run
  split at run
  · cases run
  · rename_i cell _
    have deinit_size {h' : Heap} (run : deinit gc.heap cell.obj = .ok h') :
        h'.cells.length = gc.heap.cells.length := by
      unfold deinit at run
      split at run
      · rename_i t _
        cases first : destroy gc.heap t.globals with
        | error fault => rw [first] at run; cases run
        | ok h₁ =>
            rw [first] at run
            exact (destroy_size run).trans (destroy_size first)
      · cases run
        rfl
    cases first : deinit gc.heap cell.obj with
    | error fault => rw [first] at run; cases run
    | ok h₁ =>
        cases second : destroy h₁ a with
        | error fault => simp only [first, second, bind, Except.bind] at run; cases run
        | ok h₂ =>
            simp only [first, second, bind, Except.bind] at run
            cases run
            exact (destroy_size second).trans (deinit_size first)

theorem unlink_size {gc gc' : GC} {prev next : Option Addr} (run : gc.unlink prev next = .ok gc') :
    gc'.heap.cells.length = gc.heap.cells.length := by
  unfold GC.unlink at run
  split at run
  · cases run
    rfl
  · split at run
    · cases run
      exact List.length_set
    · cases run

theorem sweep_size {P : Platform} {gc gc' : GC} {prev p : Option Addr} {collected n : Nat}
    (run : gc.sweep P fuel prev p collected = .ok (gc', n)) :
    gc'.heap.cells.length = gc.heap.cells.length := by
  induction fuel generalizing gc prev p collected with
  | zero =>
      cases p with
      | none => cases run; rfl
      | some a => cases run
  | succ fuel ih =>
      cases p with
      | none => cases run; rfl
      | some a =>
          rw [GC.sweep] at run
          split at run
          · cases run
          · split at run
            · rename_i cell _ _
              cases first : gc.unlink prev cell.next with
              | error fault => rw [first] at run; cases run
              | ok gc₁ =>
                  cases second : gc₁.freeObject P a with
                  | error fault => simp only [first, second, bind, Except.bind] at run; cases run
                  | ok gc₂ =>
                      simp only [first, second, bind, Except.bind] at run
                      split at run
                      · cases run
                      · exact (ih run).trans ((freeObject_size second).trans (unlink_size first))
            · exact (ih run).trans List.length_set

structure Kept (gc gc' : GC) (l : List Addr) (h : Heap) : Prop where
  same : Remarked gc.heap h
  marks : Marks (Edge gc.heap) (gc.start l) gc.heap.marked h.marked
  linked : Linked gc'.heap.next? gc'.objects none (h.survivors l)
  swept : Swept l h gc'.heap
  count : gc'.numObjects = (h.survivors l).length
  roots : gc'.roots = gc.roots
  size : gc'.heap.cells.length = gc.heap.cells.length

-- a collection that returned marked from the roots and swept the whole list
theorem collect_swept {P : Platform} {gc gc' : GC} {l : List Addr}
    (linked : Linked gc.heap.next? gc.objects none l) (count : gc.numObjects = l.length)
    (owned : ∀ h, Remarked gc.heap h → gc.start l ⊆ h.marked → Owned h (h.dead l) l)
    (enough : l.length ≤ fuel) (run : gc.collect P fuel = .ok gc') : ∃ h gc₁, Kept gc gc' l h ∧
      Sweepable { gc with heap := h } gc.objects [] l ∧
      GC.sweep P fuel { gc with heap := h } none gc.objects 0 = .ok (gc₁, (h.dead l).length) ∧
      SameSettings gc gc₁ ∧
      gc' = { gc₁ with
        collectionCount := gc₁.collectionCount + 1
        totalCollected := gc₁.totalCollected + (h.dead l).length
        threshold := max (P.scaled gc₁.numObjects (h.dead l).length) 1024 } := by
  unfold GC.collect at run
  cases first : markRoots fuel gc with
  | error fault => rw [first] at run; cases run
  | ok h =>
      rw [first] at run
      obtain ⟨same, marks⟩ := markRoots_traces linked h first
      have total := dead_survivors h l
      have ready : Sweepable { gc with heap := h } gc.objects [] l :=
        ⟨.nil, linked.congr (fun a _ => same.next a), linked.nodup, owned h same marks.roots,
          by simp only [count]; omega⟩
      obtain ⟨gc₁, swept, linked', cells, number, settings⟩ := sweep_spec (P := P) 0 ready enough
      simp only [bind, Except.bind, List.getLast?_nil, Nat.zero_add] at run swept
      rw [swept] at run
      cases run
      have count' : gc₁.numObjects = (h.survivors l).length := by
        rw [number]
        simp only [count]
        omega
      refine ⟨h, gc₁, ⟨same, marks, linked', cells, count', settings.roots, ?_⟩, ready, swept, ?_, rfl⟩
      · exact (sweep_size swept).trans same.size
      · exact ⟨settings.roots, settings.threshold, settings.totalAllocated, settings.collectionCount⟩

theorem collect_kept {P : Platform} {gc gc' : GC} {l : List Addr}
    (linked : Linked gc.heap.next? gc.objects none l) (count : gc.numObjects = l.length)
    (owned : ∀ h, Remarked gc.heap h → gc.start l ⊆ h.marked → Owned h (h.dead l) l)
    (enough : l.length ≤ fuel) (run : gc.collect P fuel = .ok gc') : ∃ h, Kept gc gc' l h := by
  obtain ⟨h, gc₁, kept, -⟩ := collect_swept linked count owned enough run
  exact ⟨h, kept⟩

end Zua.Memory
