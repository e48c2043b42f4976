import Mathlib.Tactic

/-!
# Hash maps

`HashMap` is what a hash map with a user-supplied context offers. It promises to be a finite map only
where the context keeps its side: `eql` is an equivalence and equal keys have equal hashes, on the
keys that are used.
-/

namespace Zua

structure KeyContext (κ : Type) where
  hash : κ → UInt32
  eql : κ → κ → Bool

namespace KeyContext

variable {κ : Type}

structure LawfulOn (ctx : KeyContext κ) (good : κ → Prop) : Prop where
  refl : ∀ a, good a → ctx.eql a a = true
  symm : ∀ a b, good a → good b → ctx.eql a b = true → ctx.eql b a = true
  trans : ∀ a b c, good a → good b → good c →
    ctx.eql a b = true → ctx.eql b c = true → ctx.eql a c = true
  hash_eq : ∀ a b, good a → good b → ctx.eql a b = true → ctx.hash a = ctx.hash b

-- a key need not be equal to itself; then it is never found
structure CoherentOn (ctx : KeyContext κ) (good : κ → Prop) : Prop where
  symm : ∀ a b, good a → good b → ctx.eql a b = true → ctx.eql b a = true
  trans : ∀ a b c, good a → good b → good c →
    ctx.eql a b = true → ctx.eql b c = true → ctx.eql a c = true
  hash_eq : ∀ a b, good a → good b → ctx.eql a b = true → ctx.hash a = ctx.hash b

theorem LawfulOn.coherent {ctx : KeyContext κ} {good : κ → Prop} (lawful : ctx.LawfulOn good) :
    ctx.CoherentOn good := ⟨lawful.symm, lawful.trans, lawful.hash_eq⟩

end KeyContext

structure HashMapOps (κ ν Map : Type) where
  empty : Map
  get : Map → κ → Option ν
  put : Map → κ → ν → Map
  remove : Map → κ → Map

namespace HashMapOps

variable {κ ν Map : Type} (ops : HashMapOps κ ν Map)

-- the maps that calls with good keys build
inductive Built (good : κ → Prop) : Map → Prop
  | empty : Built good ops.empty
  | put {m : Map} {k : κ} (v : ν) : Built good m → good k → Built good (ops.put m k v)
  | remove {m : Map} {k : κ} : Built good m → good k → Built good (ops.remove m k)

structure FiniteMapOn (eql : κ → κ → Bool) (good : κ → Prop) : Prop where
  get_empty : ∀ q, good q → ops.get ops.empty q = none
  get_put : ∀ m k v q, ops.Built good m → good k → good q →
    ops.get (ops.put m k v) q = if eql k q then some v else ops.get m q
  get_remove : ∀ m k q, ops.Built good m → good k → good q →
    ops.get (ops.remove m k) q = if eql k q then none else ops.get m q

-- what an iterator over the map yields while it is not modified
structure Iterates (eql : κ → κ → Bool) (good : κ → Prop) (m : Map) (items : List (κ × ν)) : Prop where
  keys : ∀ entry ∈ items, good entry.1
  distinct : items.Pairwise fun a b => eql a.1 b.1 = false
  values : ∀ entry ∈ items, ops.get m entry.1 = some entry.2
  all : ∀ q v, good q → ops.get m q = some v → ∃ entry ∈ items, eql entry.1 q = true ∧ entry.2 = v

end HashMapOps

structure HashMap (κ ν : Type) (ctx : KeyContext κ) where
  Map : Type
  ops : HashMapOps κ ν Map
  correct : ∀ good, ctx.LawfulOn good → ops.FiniteMapOn ctx.eql good

-- a hash map with an iterator, whose order is fixed while the map is not modified
structure IteratedMap (κ ν : Type) (ctx : KeyContext κ) extends HashMap κ ν ctx where
  coherent : ∀ good, ctx.CoherentOn good → ops.FiniteMapOn ctx.eql good
  items : Map → List (κ × ν)
  iterates : ∀ good, ctx.LawfulOn good → ∀ m, ops.Built good m → ops.Iterates ctx.eql good m (items m)

namespace HashMap

variable {κ ν : Type}

/-! ## A map that keeps its entries in a list -/

namespace Entries

variable (ctx : KeyContext κ)

def found (k : κ) (entry : κ × ν) : Bool := ctx.hash entry.1 == ctx.hash k && ctx.eql entry.1 k

def get (m : List (κ × ν)) (k : κ) : Option ν := (m.find? (found ctx k)).map Prod.snd
def remove (m : List (κ × ν)) (k : κ) : List (κ × ν) := m.filter fun entry => !found ctx k entry
def put (m : List (κ × ν)) (k : κ) (v : ν) : List (κ × ν) := (k, v) :: remove ctx m k

def ops : HashMapOps κ ν (List (κ × ν)) := ⟨[], get ctx, put ctx, remove ctx⟩

variable {ctx} {good : κ → Prop} {m : List (κ × ν)} {k q : κ}

theorem keys_good (built : (ops ctx).Built good m) : ∀ entry ∈ m, good entry.1 := by
  induction built with
  | empty => intro entry member; cases member
  | put v _ hk ih =>
      intro entry member
      rcases List.mem_cons.mp member with rfl | member
      · exact hk
      · exact ih entry (List.mem_filter.mp member).1
  | remove _ _ ih =>
      intro entry member
      exact ih entry (List.mem_filter.mp member).1

theorem found_eq (lawful : ctx.CoherentOn good) (hk : good k) {entry : κ × ν} (he : good entry.1) :
    found ctx k entry = ctx.eql entry.1 k := by
  unfold found
  cases same : ctx.eql entry.1 k with
  | false => exact Bool.and_false _
  | true => simp [lawful.hash_eq _ _ he hk same]

theorem get_remove (lawful : ctx.CoherentOn good) (hm : ∀ entry ∈ m, good entry.1) (hk : good k)
    (hq : good q) : get ctx (remove ctx m k) q = if ctx.eql k q then none else get ctx m q := by
  induction m with
  | nil => cases ctx.eql k q <;> rfl
  | cons entry m ih =>
      have he := hm entry List.mem_cons_self
      have rest := ih (fun other member => hm other (List.mem_cons_of_mem _ member))
      have removed := found_eq lawful hk he
      have looked := found_eq lawful hq he
      simp only [get, remove, List.filter_cons, List.find?_cons, removed, looked] at rest ⊢
      cases same : ctx.eql entry.1 k with
      | true =>
          simp only [Bool.not_true, Bool.false_eq_true, if_false, rest]
          cases hit : ctx.eql entry.1 q with
          | true => simp [lawful.trans _ _ _ hk he hq (lawful.symm _ _ he hk same) hit]
          | false => rfl
      | false =>
          simp only [Bool.not_false, if_true, List.find?_cons, looked]
          cases hit : ctx.eql entry.1 q with
          | false => exact rest
          | true =>
              have other : ctx.eql k q = false := by
                by_contra equal
                have back := lawful.symm _ _ hk hq (by simpa using equal)
                simp [lawful.trans _ _ _ he hq hk hit back] at same
              simp [other]

theorem get_put (lawful : ctx.CoherentOn good) (hm : ∀ entry ∈ m, good entry.1) (hk : good k)
    (hq : good q) (v : ν) :
    get ctx (put ctx m k v) q = if ctx.eql k q then some v else get ctx m q := by
  have rest := get_remove lawful hm hk hq
  have looked : found ctx q (k, v) = ctx.eql k q := found_eq lawful hq hk
  simp only [get, put, List.find?_cons, looked] at rest ⊢
  cases hit : ctx.eql k q with
  | true => rfl
  | false => simpa [hit] using rest

theorem finiteMap (lawful : ctx.CoherentOn good) : (ops (ν := ν) ctx).FiniteMapOn ctx.eql good where
  get_empty _ _ := rfl
  get_put _ _ v _ built hk hq := get_put lawful (keys_good built) hk hq v
  get_remove _ _ _ built hk hq := get_remove lawful (keys_good built) hk hq

theorem keys_distinct (lawful : ctx.CoherentOn good) (built : (ops ctx).Built good m) :
    m.Pairwise fun a b => ctx.eql a.1 b.1 = false := by
  induction built with
  | empty => exact .nil
  | put v built hk ih =>
      refine .cons ?_ (ih.filter _)
      intro entry member
      obtain ⟨member, other⟩ := List.mem_filter.mp member
      have he := keys_good built entry member
      rw [found_eq lawful hk he] at other
      by_contra same
      rw [lawful.symm _ _ hk he (by simpa using same)] at other
      cases other
  | remove _ _ ih => exact ih.filter _

theorem iterates (lawful : ctx.LawfulOn good) (built : (ops ctx).Built good m) :
    (ops ctx).Iterates ctx.eql good m m where
  keys := keys_good built
  distinct := keys_distinct lawful.coherent built
  values := by
    intro entry member
    have good := keys_good built
    have distinct := keys_distinct lawful.coherent built
    clear built
    induction m with
    | nil => cases member
    | cons head m ih =>
        have here := found_eq lawful.coherent (good entry member) (good head List.mem_cons_self)
        obtain ⟨first, distinct⟩ := List.pairwise_cons.mp distinct
        show Option.map Prod.snd (List.find? _ (head :: m)) = _
        rcases List.mem_cons.mp member with rfl | member
        · rw [List.find?_cons, here, lawful.refl _ (good _ List.mem_cons_self)]
          rfl
        · rw [List.find?_cons, here, first entry member]
          exact ih member (fun other inside => good other (List.mem_cons_of_mem _ inside)) distinct
  all := by
    intro q v hq found
    obtain ⟨entry, first, rfl⟩ := Option.map_eq_some_iff.mp found
    have member := List.mem_of_find?_eq_some first
    refine ⟨entry, member, ?_, rfl⟩
    rw [← found_eq lawful.coherent hq (keys_good built entry member)]
    exact List.find?_some first

end Entries

def entries (κ ν : Type) (ctx : KeyContext κ) : HashMap κ ν ctx where
  Map := List (κ × ν)
  ops := Entries.ops ctx
  correct _ lawful := Entries.finiteMap lawful.coherent

end HashMap

open HashMap in
def IteratedMap.entries (κ ν : Type) (ctx : KeyContext κ) : IteratedMap κ ν ctx where
  toHashMap := HashMap.entries κ ν ctx
  coherent _ := Entries.finiteMap
  items m := m
  iterates _ lawful _ := Entries.iterates lawful

end Zua
