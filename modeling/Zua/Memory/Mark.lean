import Zua.Memory.Collect

/-!
# Marking

Marking changes nothing but marks, so every heap that the marker passes through is the heap `g` it
started from up to marks, and all references are read in `g`.
-/

namespace Zua.Memory
open Object
open scoped Classical

structure Remarked (g h : Heap) : Prop where
  size : h.cells.length = g.cells.length
  obj : ∀ a, h.obj? a = g.obj? a
  next : ∀ a, h.next? a = g.next? a

variable {g h h' : Heap} {a b : Addr} {c : Cell} {n fuel : Nat} {R S : Set Addr}
  {r : Except Fault Heap} {mark : Heap → Addr → Except Fault Heap} {up : Option Addr}

namespace Heap

theorem obj_of_get (live : h.get a = some c) : h.obj? a = some c.obj := by rw [obj?, live]; rfl
theorem next_of_get (live : h.get a = some c) : h.next? a = some c.next := by rw [next?, live]; rfl

theorem live_iff : h.Live a ↔ ∃ o, h.obj? a = some o := by
  unfold Live obj?
  cases h.get a <;> simp

theorem thread_iff {t : Thread} : h.thread? a = some t ↔ h.obj? a = some (.thread t) := by
  unfold thread?
  split
  · rename_i found
    simp [found]
  · rename_i other
    simp only [reduceCtorEq, false_iff]
    exact other t

theorem upvalue_iff {u : UpValue} : h.upvalue? a = some u ↔ h.obj? a = some (.upvalue u) := by
  unfold upvalue?
  split
  · rename_i found
    simp [found]
  · rename_i other
    simp only [reduceCtorEq, false_iff]
    exact other u

theorem marked_of_get (live : h.get a = some c) : a ∈ h.marked ↔ c.marked ≠ 0 := by
  constructor
  · rintro ⟨c', live', marked⟩
    rw [live] at live'
    rwa [Option.some.inj live']
  · intro marked
    exact ⟨c, live, marked⟩

noncomputable def unmarked (h : Heap) : Finset Addr :=
  (Finset.range h.cells.length).filter fun a => h.Live a ∧ a ∉ h.marked

theorem mem_unmarked : a ∈ h.unmarked ↔ h.Live a ∧ a ∉ h.marked := by
  unfold unmarked
  rw [Finset.mem_filter, Finset.mem_range]
  constructor
  · exact And.right
  · rintro ⟨⟨c, live⟩, fresh⟩
    exact ⟨live_lt live, ⟨c, live⟩, fresh⟩

theorem card_unmarked_le : h.unmarked.card ≤ h.cells.length := by
  unfold unmarked
  exact (Finset.card_filter_le _ _).trans (Finset.card_range _).le

end Heap

namespace Remarked

theorem refl (g : Heap) : Remarked g g := ⟨rfl, fun _ => rfl, fun _ => rfl⟩

theorem trans (hg : Remarked g h) (hh : Remarked h h') : Remarked g h' where
  size := hh.size.trans hg.size
  obj a := (hh.obj a).trans (hg.obj a)
  next a := (hh.next a).trans (hg.next a)

theorem put (live : h.get a = some c) (m : UInt8) : Remarked h (h.put a { c with marked := m }) where
  size := List.length_set
  obj b := by
    unfold Heap.obj?
    rw [Heap.get_put ⟨c, live⟩]
    split
    · rename_i same
      rw [← same, live]
      rfl
    · rfl
  next b := by
    unfold Heap.next?
    rw [Heap.get_put ⟨c, live⟩]
    split
    · rename_i same
      rw [← same, live]
      rfl
    · rfl

theorem upvalue (hg : Remarked g h) (a : Addr) : h.upvalue? a = g.upvalue? a := by
  unfold Heap.upvalue?
  rw [hg.obj]

theorem thread (hg : Remarked g h) (a : Addr) : h.thread? a = g.thread? a := by
  unfold Heap.thread?
  rw [hg.obj]

theorem live (hg : Remarked g h) : h.Live a ↔ g.Live a := by
  rw [Heap.live_iff, Heap.live_iff, hg.obj]

end Remarked

theorem onChain_congr (same : ∀ a, h.upvalue? a = g.upvalue? a) (on : OnChain g up b) :
    OnChain h up b := by
  induction on with
  | head => exact .head
  | tail found _ ih => exact .tail ((same _).trans found) ih

theorem refers_congr (same : ∀ a, h.upvalue? a = g.upvalue? a) (o : Obj) (refers : o.Refers g b) :
    o.Refers h b := by
  cases o with
  | thread t =>
      rcases refers with globals | registry | on | held
      · exact .inl globals
      · exact .inr (.inl registry)
      · exact .inr (.inr (.inl (onChain_congr same on)))
      · exact .inr (.inr (.inr held))
  | _ => exact refers

theorem edge_congr (obj : ∀ a, h.obj? a = g.obj? a) : Edge h = Edge g := by
  have upvalue (a : Addr) : h.upvalue? a = g.upvalue? a := by
    unfold Heap.upvalue?
    rw [obj]
  ext a b
  constructor
  · rintro ⟨o, found, refers⟩
    exact ⟨o, (obj a).symm.trans found, refers_congr (fun a => (upvalue a).symm) o refers⟩
  · rintro ⟨o, found, refers⟩
    exact ⟨o, (obj a).trans found, refers_congr upvalue o refers⟩

theorem Remarked.edge (hg : Remarked g h) : Edge h = Edge g := edge_congr hg.obj

theorem edge_iff {o : Obj} (found : g.obj? a = some o) : Edge g a b ↔ o.Refers g b := by
  constructor
  · rintro ⟨o', found', refers⟩
    rw [found] at found'
    rwa [Option.some.inj found']
  · intro refers
    exact ⟨o, found, refers⟩

theorem onChain_iff {l : List Addr} (chain : Chain g up l) : OnChain g up b ↔ b ∈ l := by
  induction l generalizing up with
  | nil =>
      cases chain with
      | nil =>
          simp only [List.not_mem_nil, iff_false]
          intro on
          cases on
  | cons u l ih =>
      cases chain with
      | cons step rest =>
          obtain ⟨uv, found, rfl⟩ := Option.map_eq_some_iff.mp step
          rw [List.mem_cons, ← ih rest]
          constructor
          · intro on
            cases on with
            | head => exact .inl rfl
            | tail found' on =>
                rw [found] at found'
                rw [Option.some.inj found']
                exact .inr on
          · rintro (rfl | on)
            · exact .head
            · exact .tail found on

-- nodes of a chain are distinct cells, so that the heap bounds its length
theorem chain_length {l : List Addr} (chain : Chain g up l) : l.length ≤ g.cells.length := by
  have inside : l ⊆ List.range g.cells.length := by
    intro a member
    obtain ⟨p, step⟩ := chain.live member
    obtain ⟨uv, found, -⟩ := Option.map_eq_some_iff.mp step
    rw [List.mem_range]
    unfold Heap.upvalue? Heap.obj? at found
    cases live : g.get a with
    | none =>
        rw [live] at found
        cases found
    | some c => exact Heap.live_lt live
  simpa using (List.subperm_of_subset chain.nodup inside).length_le

/-! ## What the marker needs and what it does -/

structure Ready (g : Heap) (R : Set Addr) : Prop where
  live : ∀ x, Reaches (Edge g) R x → g.Live x
  chain : ∀ x t, Reaches (Edge g) R x → g.thread? x = some t → ∃ l, Chain g t.openUpval l

theorem Ready.mono (ready : Ready g R) (sub : ∀ x ∈ S, Reaches (Edge g) R x) : Ready g S := by
  have reach (x : Addr) (path : Reaches (Edge g) S x) : Reaches (Edge g) R x := by
    apply path.induct sub
    intro a b _ ih e
    exact ih.step e
  exact ⟨fun x path => ready.live x (reach x path), fun x t path => ready.chain x t (reach x path)⟩

theorem Ready.one (ready : Ready g R) (member : a ∈ R) : Ready g {a} := by
  apply ready.mono
  rintro x rfl
  exact .root member

def Marked (g : Heap) (R : Set Addr) (h : Heap) (r : Except Fault Heap) : Prop :=
  ∃ h', r = .ok h' ∧ Remarked g h' ∧ Marks (Edge g) R h.marked h'.marked

def Marker (g : Heap) (n : Nat) (mark : Heap → Addr → Except Fault Heap) : Prop :=
  ∀ h a, Remarked g h → h.unmarked.card ≤ n → Ready g {a} → Marked g {a} h (mark h a)

theorem unmarked_le (hg : Remarked g h) (hg' : Remarked g h') (mono : h.marked ⊆ h'.marked) :
    h'.unmarked.card ≤ h.unmarked.card := by
  apply Finset.card_le_card
  intro a member
  rw [Heap.mem_unmarked] at member ⊢
  exact ⟨hg.live.mpr (hg'.live.mp member.1), fun old => member.2 (mono old)⟩

theorem Marked.congr (marked : Marked g R h r) (same : ∀ x, x ∈ S ↔ x ∈ R) : Marked g S h r := by
  rwa [Set.ext same]

theorem Marked.nothing (hg : Remarked g h) (none : ∀ x, x ∉ R) : Marked g R h (.ok h) := by
  rw [Set.eq_empty_of_forall_notMem none]
  exact ⟨h, rfl, hg, .none⟩

theorem Marked.andThen {f : Heap → Except Fault Heap} (marked : Marked g R h r) (hg : Remarked g h)
    (small : h.unmarked.card ≤ n)
    (rest : ∀ h', Remarked g h' → h'.unmarked.card ≤ n → Marked g S h' (f h')) :
    Marked g (R ∪ S) h (r >>= f) := by
  obtain ⟨h₁, rfl, hg₁, first⟩ := marked
  obtain ⟨h₂, run, hg₂, second⟩ := rest h₁ hg₁ ((unmarked_le hg hg₁ first.mono).trans small)
  exact ⟨h₂, run, hg₂, first.both second⟩

theorem marked_foldlM {β : Type} {f : Heap → β → Except Fault Heap} (T : β → Set Addr) (l : List β)
    (each : ∀ x ∈ l, ∀ h, Remarked g h → h.unmarked.card ≤ n → Marked g (T x) h (f h x))
    (hg : Remarked g h) (small : h.unmarked.card ≤ n) :
    Marked g {a | ∃ x ∈ l, a ∈ T x} h (l.foldlM f h) := by
  induction l generalizing h with
  | nil =>
      apply Marked.nothing hg
      simp
  | cons x l ih =>
      rw [List.foldlM_cons]
      have first := each x List.mem_cons_self h hg small
      have rest (h' : Heap) (hg' : Remarked g h') (small' : h'.unmarked.card ≤ n) :=
        ih (fun y member => each y (List.mem_cons_of_mem _ member)) hg' small'
      apply (first.andThen hg small rest).congr
      simp

section Pieces

variable (marker : Marker g n mark)

include marker

theorem marked_option (o : Option Addr) (hg : Remarked g h) (small : h.unmarked.card ≤ n)
    (ready : ∀ a, o = some a → Ready g {a}) : Marked g {a | o = some a} h (markOption mark h o) := by
  cases o with
  | none =>
      apply Marked.nothing hg
      simp
  | some a =>
      apply (marker h a hg small (ready a rfl)).congr
      simp [eq_comm]

theorem marked_values (l : List Value) (hg : Remarked g h) (small : h.unmarked.card ≤ n)
    (ready : ∀ a, Holds l a → Ready g {a}) :
    Marked g {a | Holds l a} h (l.foldlM (markValue mark) h) := by
  apply marked_foldlM (fun v => {a | v.object? = some a}) l _ hg small
  intro v member h hg small
  apply marked_option marker _ hg small
  intro a found
  exact ready a ⟨v, member, found⟩

theorem marked_upvals {l : List Addr} (chain : Chain g up l) (enough : l.length ≤ fuel)
    (hg : Remarked g h) (small : h.unmarked.card ≤ n) (ready : ∀ a ∈ l, Ready g {a}) :
    Marked g {a | a ∈ l} h (markUpvals mark fuel h up) := by
  induction l generalizing up h fuel with
  | nil =>
      cases chain with
      | nil =>
          rw [markUpvals]
          apply Marked.nothing hg
          simp
  | cons u l ih =>
      cases chain with
      | cons step rest =>
          cases fuel with
          | zero => simp at enough
          | succ fuel =>
              obtain ⟨uv, found, rfl⟩ := Option.map_eq_some_iff.mp step
              rw [markUpvals]
              have first := marker h u hg small (ready u List.mem_cons_self)
              refine (first.andThen hg small (S := {a | a ∈ l}) ?_).congr (by simp)
              intro h' hg' small'
              rw [hg'.upvalue, found]
              exact ih rest (Nat.le_of_succ_le_succ enough) hg' small'
                (fun a member => ready a (List.mem_cons_of_mem _ member))

theorem marked_children (o : Obj) (enough : g.cells.length ≤ fuel) (hg : Remarked g h)
    (small : h.unmarked.card ≤ n) (ready : ∀ b, o.Refers g b → Ready g {b})
    (chain : ∀ t, o = .thread t → ∃ l, Chain g t.openUpval l) :
    Marked g {b | o.Refers g b} h (markChildren mark fuel h o) := by
  cases o with
  | string s =>
      apply Marked.nothing hg
      exact fun _ => id
  | table t =>
      have first := marked_option marker t.metatable hg small (fun b found => ready b (.inl found))
      refine (first.andThen hg small fun h hg small => ?_)
      have second := marked_values marker t.array hg small (fun b held => ready b (.inr (.inl held)))
      refine second.andThen hg small fun h hg small => ?_
      exact marked_values marker _ hg small (fun b held => ready b (.inr (.inr held)))
  | closure proto upvalues =>
      have first := marker h proto hg small (ready proto (.inl rfl))
      refine (first.andThen hg small (S := {b | some b ∈ upvalues}) fun h hg small => ?_).congr ?_
      · have each (o : Option Addr) (member : o ∈ upvalues) (h : Heap) (hg : Remarked g h)
            (small : h.unmarked.card ≤ n) := marked_option marker o hg small
          (fun b found => ready b (.inr (found ▸ member)))
        apply (marked_foldlM (fun o => {b | o = some b}) upvalues each hg small).congr
        simp
      · simp [Obj.Refers, eq_comm]
  | cClosure func upvalues env =>
      have first := marked_option marker env hg small (fun b found => ready b (.inl found))
      refine first.andThen hg small fun h hg small => ?_
      exact marked_values marker upvalues hg small (fun b held => ready b (.inr held))
  | userdata data env => exact marked_option marker env hg small ready
  | thread t =>
      obtain ⟨l, linked⟩ := chain t rfl
      have upvals (b : Addr) : OnChain g t.openUpval b ↔ b ∈ l := onChain_iff linked
      have first := marker h t.globals hg small (ready _ (.inl rfl))
      refine (first.andThen hg small (S := {b | t.registry = b ∨ OnChain g t.openUpval b ∨
        Holds (t.stack.take t.stackTop) b}) fun h hg small => ?_).congr (by simp [Obj.Refers, eq_comm])
      have second := marker h t.registry hg small (ready _ (.inr (.inl rfl)))
      refine (second.andThen hg small (S := {b | OnChain g t.openUpval b ∨
        Holds (t.stack.take t.stackTop) b}) fun h hg small => ?_).congr (by simp [eq_comm])
      have third := marked_upvals marker linked ((chain_length linked).trans enough) hg small
        (fun b member => ready b (.inr (.inr (.inl ((upvals b).mpr member)))))
      refine (third.andThen hg small fun h hg small => ?_).congr
        (fun b => or_congr_left (upvals b))
      exact marked_values marker _ hg small (fun b held => ready b (.inr (.inr (.inr held))))
  | upvalue u =>
      apply (marked_option marker u.closed.object? hg small ?_).congr
      · simp [Obj.Refers, Holds]
      · intro b found
        exact ready b ⟨u.closed, List.mem_singleton_self _, found⟩
  | proto f =>
      have each (b : Addr) (member : b ∈ f.protos) (h : Heap) (hg : Remarked g h)
          (small : h.unmarked.card ≤ n) := marker h b hg small (ready b member)
      apply (marked_foldlM (fun b => {b}) f.protos each hg small).congr
      simp [Obj.Refers]

end Pieces

/-! ## The recursion -/

theorem marked_put (live : h.get a = some c) :
    (h.put a { c with marked := 1 }).marked = insert a h.marked := by
  ext b
  unfold Heap.marked
  rw [Set.mem_ofPred_eq, Heap.get_put ⟨c, live⟩, Set.mem_insert_iff, Set.mem_ofPred_eq]
  by_cases same : a = b
  · subst same
    simp
  · rw [if_neg same]
    simp [Ne.symm same]

theorem unmarked_put (live : h.get a = some c) (fresh : c.marked = 0) :
    (h.put a { c with marked := 1 }).unmarked.card < h.unmarked.card := by
  apply Finset.card_lt_card
  refine ⟨?_, ?_⟩
  · intro b member
    rw [Heap.mem_unmarked, marked_put live, (Remarked.put live 1).live] at member
    rw [Heap.mem_unmarked]
    exact ⟨member.1, fun old => member.2 (Set.mem_insert_of_mem _ old)⟩
  · intro sub
    have member : a ∈ h.unmarked := by
      rw [Heap.mem_unmarked, Heap.marked_of_get live]
      exact ⟨⟨c, live⟩, fun marked => marked fresh⟩
    have still := Heap.mem_unmarked.mp (sub member)
    rw [marked_put live] at still
    exact still.2 (Set.mem_insert a _)

-- fuel for the nodes still to be marked and for the longest chain
theorem markObject_marks (enough : n + g.cells.length < fuel) : Marker g n (markObject fuel) := by
  induction fuel generalizing n with
  | zero => exact absurd enough (Nat.not_lt_zero _)
  | succ fuel ih =>
      intro h a hg small ready
      obtain ⟨c, live⟩ := hg.live.mpr (ready.live a (.root rfl))
      rw [markObject, live]
      by_cases fresh : c.marked = 0
      · have decrease := unmarked_put live fresh
        have marker : Marker g (n - 1) (markObject fuel) := ih (by omega)
        have hg₁ : Remarked g (h.put a { c with marked := 1 }) := hg.trans (.put live 1)
        have small₁ : (h.put a { c with marked := 1 }).unmarked.card ≤ n - 1 := by omega
        have found : g.obj? a = some c.obj := (hg.obj a).symm.trans (Heap.obj_of_get live)
        have child (b : Addr) (refers : c.obj.Refers g b) : Ready g {b} := by
          apply ready.mono
          rintro x rfl
          exact Reaches.step (.root rfl) ((edge_iff found).mpr refers)
        have chain (t : Thread) (same : c.obj = .thread t) : ∃ l, Chain g t.openUpval l :=
          ready.chain a t (.root rfl) (Heap.thread_iff.mpr (same ▸ found))
        have room : g.cells.length ≤ fuel := by omega
        obtain ⟨h', run, hg', marks⟩ := marked_children marker c.obj room hg₁ small₁ child chain
        refine ⟨h', ?_, hg', ?_⟩
        · simp only [fresh, ne_eq, not_true_eq_false, if_false]
          exact run
        · rw [marked_put live] at marks
          apply Marks.node
          simpa only [edge_iff found] using marks
      · simp only [ne_eq, fresh, not_false_eq_true, if_true]
        exact ⟨h, rfl, hg, .skip ((Heap.marked_of_get live).mpr fresh)⟩

/-! ## The roots -/

-- where marking starts; without roots it starts from the whole list
def GC.start (gc : GC) (l : List Addr) : Set Addr :=
  match gc.roots with
  | some roots => {a | roots.globals = some a ∨ roots.registry = some a ∨ roots.mainThread = some a}
  | none => {a | a ∈ l}

theorem markAll_marks {l : List Addr} {steps : Nat} (marker : Marker g n (markObject fuel))
    (linked : Linked g.next? up none l) (enough : l.length ≤ steps) (hg : Remarked g h)
    (small : h.unmarked.card ≤ n) (ready : ∀ a ∈ l, Ready g {a}) :
    Marked g {a | a ∈ l} h (markAll fuel steps h up) := by
  induction l generalizing up h steps with
  | nil =>
      cases linked with
      | nil =>
          rw [markAll]
          apply Marked.nothing hg
          simp
  | cons a l ih =>
      cases linked with
      | cons step rest =>
          cases steps with
          | zero => simp at enough
          | succ steps =>
              rw [markAll]
              have first := marker h a hg small (ready a List.mem_cons_self)
              refine (first.andThen hg small (S := {a | a ∈ l}) ?_).congr (by simp)
              intro h' hg' small'
              obtain ⟨c, live, rfl⟩ := Option.map_eq_some_iff.mp ((hg'.next a).trans step)
              rw [live]
              exact ih rest (Nat.le_of_succ_le_succ enough) hg' small'
                (fun a member => ready a (List.mem_cons_of_mem _ member))

theorem linked_length {l : List Addr} (linked : Linked g.next? up none l) :
    l.length ≤ g.cells.length := by
  have inside : l ⊆ List.range g.cells.length := by
    intro a member
    obtain ⟨p, step⟩ := linked.live member
    obtain ⟨c, live, -⟩ := Option.map_eq_some_iff.mp step
    exact List.mem_range.mpr (Heap.live_lt live)
  simpa using (List.subperm_of_subset linked.nodup inside).length_le

-- the main thread's stack and upvalues are marked a second time, to no effect
theorem mainThread_marks {thread : Addr} {t : Thread} {l : List Addr}
    (marker : Marker g n (markObject fuel)) (room : g.cells.length ≤ fuel) (hg : Remarked g h)
    (small : h.unmarked.card ≤ n) (ready : Ready g {thread}) (found : g.thread? thread = some t)
    (chain : Chain g t.openUpval l) : Marked g {thread} h (markMainThread fuel h thread) := by
  have child (b : Addr) (refers : (Obj.thread t).Refers g b) : Reaches (Edge g) {thread} b :=
    Reaches.step (.root rfl) ((edge_iff (Heap.thread_iff.mp found)).mpr refers)
  have readyChild (b : Addr) (refers : (Obj.thread t).Refers g b) : Ready g {b} := by
    apply ready.mono
    rintro x rfl
    exact child x refers
  have again : Marked g ({thread} ∪ ({b | Holds (t.stack.take t.stackTop) b} ∪ {b | b ∈ l})) h
      (markMainThread fuel h thread) := by
    refine (marker h thread hg small ready).andThen hg small fun h hg small => ?_
    rw [hg.thread, found]
    have first := marked_values marker (t.stack.take t.stackTop) hg small
      (fun b held => readyChild b (.inr (.inr (.inr held))))
    refine first.andThen hg small fun h hg small => ?_
    apply marked_upvals marker chain ((chain_length chain).trans room) hg small
    intro b member
    exact readyChild b (.inr (.inr (.inl ((onChain_iff chain).mpr member))))
  obtain ⟨h', run, hg', marks⟩ := again
  refine ⟨h', run, hg', marks.absorb Set.subset_union_left ?_⟩
  rintro x (rfl | held | member)
  · exact .root rfl
  · exact child x (.inr (.inr (.inr held)))
  · exact child x (.inr (.inr (.inl ((onChain_iff chain).mpr member))))

theorem markRoots_marks {gc : GC} {l : List Addr} (enough : 2 * gc.heap.cells.length < fuel)
    (linked : Linked gc.heap.next? gc.objects none l) (ready : Ready gc.heap (gc.start l))
    (typed : ∀ roots a, gc.roots = some roots → roots.mainThread = some a →
      ∃ t, gc.heap.thread? a = some t) :
    Marked gc.heap (gc.start l) gc.heap (markRoots fuel gc) := by
  have marker : Marker gc.heap gc.heap.cells.length (markObject fuel) := markObject_marks (by omega)
  have hg := Remarked.refl gc.heap
  have small : gc.heap.unmarked.card ≤ gc.heap.cells.length := Heap.card_unmarked_le
  unfold markRoots
  cases roots : gc.roots with
  | none =>
      have start (a : Addr) : a ∈ gc.start l ↔ a ∈ l := by simp [GC.start, roots]
      have long := linked_length linked
      refine (markAll_marks marker linked (by omega) hg small ?_).congr start
      intro a member
      exact ready.one ((start a).mpr member)
  | some rs =>
      have start (a : Addr) : a ∈ gc.start l ↔
          rs.globals = some a ∨ rs.registry = some a ∨ rs.mainThread = some a := by
        simp [GC.start, roots]
      refine Marked.congr (R := {a | rs.globals = some a} ∪
        ({a | rs.registry = some a} ∪ {a | rs.mainThread = some a})) ?_ start
      have first := marked_option marker rs.globals hg small
        (fun a found => ready.one ((start a).mpr (.inl found)))
      refine first.andThen hg small fun h hg small => ?_
      have second := marked_option marker rs.registry hg small
        (fun a found => ready.one ((start a).mpr (.inr (.inl found))))
      refine second.andThen hg small fun h hg small => ?_
      cases main : rs.mainThread with
      | none =>
          apply Marked.nothing hg
          simp
      | some thread =>
          obtain ⟨t, found⟩ := typed rs thread roots main
          have member : thread ∈ gc.start l := (start thread).mpr (.inr (.inr main))
          obtain ⟨chain, linked⟩ := ready.chain thread t (.root member) found
          apply (mainThread_marks marker (by omega) hg small (ready.one member) found linked).congr
          simp [eq_comm]

end Zua.Memory
