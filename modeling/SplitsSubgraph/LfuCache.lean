/-
SplitsSubgraph/LfuCache.lean

The cache of entities that a subgraph keeps from block to block
(graph/src/util/lfu_cache.rs).

Entries sit in a priority queue keyed by their key; the priority is a pair of a stale
flag and a frequency, and what is on top of the queue is what `evict` removes first:
stale entries, then the least frequently used.  The queue itself is a library of its
own, and of entries with the same priority any may be on top; `Heap` is what is known of
it.  An assertion of the source that fails is a `Panic`.

`remove` raises the priority of its key above all others and pops.  That the popped entry
is the right one rests on no entry having frequency 0 (`LfuCache.Valid`).  To its users
the cache is a partial map, `LfuCache.lookup`, and this module says what each operation
does to it.
-/
import Mathlib

namespace SplitsSubgraph

/-- An assertion that failed. -/
inductive Panic where
  /-- `assert_eq!(e.key, key_entry.key)` -/
  | wrongEntry
  /-- `expect("empty cache but total_weight > max_weight")` -/
  | emptyCache
  /-- `assert!(self.in_handler)` or `assert!(!self.in_handler)` -/
  | inHandler
  /-- `assert!(state.deterministic_errors.len() == error_count + 1)` -/
  | deterministicErrors
  /-- "Expected POI entity to have a digest and for it to be bytes" -/
  | poiDigest
  /-- "There should be only one PoI EntityModification" -/
  | poiModification
deriving DecidableEq

/-! ### The priority queue -/

/-- The number of `evict` calls without access after which an entry is considered
stale. -/
def STALE_PERIOD : ℕ := 100

/-- `(stale, frequency)`: the frequency counts backwards. -/
abbrev Priority := Bool ×ₗ ℕᵒᵈ

def Priority.mk (stale : Bool) (frequency : ℕ) : Priority := toLex (stale, OrderDual.toDual frequency)

def Priority.stale (p : Priority) : Bool := (ofLex p).1

def Priority.frequency (p : Priority) : ℕ := OrderDual.ofDual (ofLex p).2

structure CacheEntry (V : Type*) where
  weight : ℕ
  value : V
  willStale : Bool

abbrev PriorityQueue (K V : Type*) := AList fun _ : K => CacheEntry V × Priority

variable {K V : Type*} [DecidableEq K]

/-- What is known of the order of `PriorityQueue`: an entry is on top of a queue that is
not empty, and no entry has a higher priority. -/
structure Heap (K V : Type*) [DecidableEq K] where
  top : PriorityQueue K V → Option K
  eq_empty : ∀ q, top q = none → q = ∅
  le_top : ∀ q k, top q = some k →
    ∃ e, q.lookup k = some e ∧ ∀ k' e', q.lookup k' = some e' → e'.2 ≤ e.2

/-- The heap that looks through all entries for the highest priority. -/
def Heap.scan : Heap K V where
  top q := (q.entries.argmax fun e => e.2.2).map Sigma.fst
  eq_empty := by
    intro q h
    rw [Option.map_eq_none_iff, List.argmax_eq_none] at h
    exact AList.ext h
  le_top := by
    intro q k h
    obtain ⟨⟨k, e⟩, htop, rfl⟩ := Option.map_eq_some_iff.mp h
    refine ⟨e, AList.mem_lookup_iff.mpr (List.argmax_mem htop), fun k' e' he' => ?_⟩
    have hmem : (⟨k', e'⟩ : Sigma fun _ : K => CacheEntry V × Priority) ∈ q.entries :=
      AList.mem_lookup_iff.mp he'
    exact List.le_of_mem_argmax (f := fun e : Sigma fun _ : K => CacheEntry V × Priority => e.2.2)
      hmem htop

/-- `PriorityQueue::pop`. -/
def Heap.pop (heap : Heap K V) (q : PriorityQueue K V) :
    Option (K × CacheEntry V × PriorityQueue K V) :=
  match heap.top q with
  | none => none
  | some k => (q.lookup k).map fun e => (k, e.1, q.erase k)

/-! ### The cache -/

/-- How much an entry weighs and how large its slot in the queue is
(`CacheEntry::weight`, `size_of::<CacheEntry<K, V>>() + 40`), and the heap. -/
structure LfuEnv (K V : Type*) [DecidableEq K] where
  weight : K → V → ℕ
  slotSize : ℕ
  heap : Heap K V

structure LfuCache (K V : Type*) where
  queue : PriorityQueue K V
  totalWeight : ℕ
  staleCounter : ℕ
  deadWeight : Bool

namespace LfuCache

variable (env : LfuEnv K V)

def new (deadWeight : Bool) : LfuCache K V := ⟨∅, 0, 0, deadWeight⟩

/-- The first half of `get_mut`: increment the frequency by 1 and note the access. -/
def touch (c : LfuCache K V) (key : K) : LfuCache K V :=
  match c.queue.lookup key with
  | none => c
  | some (e, p) =>
    { c with
      queue := c.queue.insert key
        ({ e with willStale := false }, Priority.mk p.stale (p.frequency + 1)) }

/-- Updates and bumps frequency if already present. -/
def insert (c : LfuCache K V) (key : K) (value : V) : LfuCache K V :=
  let weight := env.weight key value
  let c := c.touch key
  match c.queue.lookup key with
  | none =>
    { c with
      totalWeight := c.totalWeight + weight
      queue := c.queue.insert key (⟨weight, value, false⟩, Priority.mk false 1) }
  | some (e, p) =>
    { c with
      queue := c.queue.insert key ({ e with weight := weight, value := value }, p)
      totalWeight := c.totalWeight - e.weight + weight }

def get (c : LfuCache K V) (key : K) : Option V × LfuCache K V :=
  let c := c.touch key
  ((c.queue.lookup key).map fun e => e.1.value, c)

/-- `PriorityQueue` has no remove method, so set the priority to the absolute minimum
and pop. -/
def remove (c : LfuCache K V) (key : K) : Except Panic (Option V × LfuCache K V) :=
  match c.queue.lookup key with
  | none => .ok (none, c)
  | some (e, _) =>
    let queue := c.queue.insert key (e, Priority.mk true 0)
    match env.heap.pop queue with
    | none => .ok (none, { c with queue := queue })
    | some (k, e, queue) =>
      if k = key then
        .ok (some e.value, { c with queue := queue, totalWeight := c.totalWeight - e.weight })
      else .error .wrongEntry

def containsKey (c : LfuCache K V) (key : K) : Bool := (c.queue.lookup key).isSome

def len (c : LfuCache K V) : ℕ := c.queue.entries.length

/-- Entries that were not accessed in this period become stale, and all entries will be
by the end of the next one unless they are accessed. -/
def markStale (q : PriorityQueue K V) : PriorityQueue K V where
  entries := q.entries.map fun e =>
    ⟨e.1, { e.2.1 with willStale := true }, Priority.mk e.2.1.willStale e.2.2.frequency⟩
  nodupKeys := by
    have hkeys : (q.entries.map fun e => (⟨e.1, { e.2.1 with willStale := true },
        Priority.mk e.2.1.willStale e.2.2.frequency⟩ :
          Sigma fun _ : K => CacheEntry V × Priority)).keys = q.entries.keys := by
      simp [List.keys, Function.comp_def]
    rw [List.NodupKeys, hkeys]
    exact q.nodupKeys

/-- Statistics about what happened during cache eviction. -/
structure EvictStats where
  newWeight : ℕ
  evictedWeight : ℕ
  newCount : ℕ
  evictedCount : ℕ
  staleUpdate : Bool
deriving DecidableEq

/-- The loop of `evict_with_period`: `n` is the number of entries left, `evicted` the
weight evicted so far. -/
def evictLoop (maxWeight deadWeight : ℕ) :
    ℕ → LfuCache K V → ℕ → Except Panic (LfuCache K V × ℕ)
  | 0, c, evicted =>
    if maxWeight < c.totalWeight + deadWeight then .error .emptyCache else .ok (c, evicted)
  | n + 1, c, evicted =>
    if maxWeight < c.totalWeight + deadWeight then
      match env.heap.pop c.queue with
      | none => .error .emptyCache
      | some (_, e, queue) =>
        evictLoop maxWeight deadWeight n
          { c with queue := queue, totalWeight := c.totalWeight - e.weight } (evicted + e.weight)
    else .ok (c, evicted)

/-- The weight of the slots themselves, if the cache counts it. -/
def deadWeightOf (c : LfuCache K V) : ℕ := if c.deadWeight then c.len * env.slotSize else 0

/-- The stale counter moves with every eviction, and staleness with every
`stalePeriod`-th. -/
def nextPeriod (c : LfuCache K V) (stalePeriod : ℕ) : LfuCache K V :=
  if c.staleCounter + 1 = stalePeriod then
    { c with staleCounter := 0, queue := markStale c.queue }
  else { c with staleCounter := c.staleCounter + 1 }

def evictWithPeriod (c : LfuCache K V) (maxWeight stalePeriod : ℕ) :
    Except Panic (Option EvictStats × LfuCache K V) := do
  if c.totalWeight ≤ maxWeight then return (none, c)
  let c := c.nextPeriod stalePeriod
  let oldLen := c.len
  let (c, evicted) ← evictLoop env maxWeight (c.deadWeightOf env) c.len c 0
  return (some ⟨c.totalWeight, evicted, c.len, oldLen - c.len, c.staleCounter = 0⟩, c)

def evict (c : LfuCache K V) (maxWeight : ℕ) : Except Panic (Option EvictStats × LfuCache K V) :=
  c.evictWithPeriod env maxWeight STALE_PERIOD

/-! ### Weights and the top of the queue -/

/-- The weight of all entries. -/
def weightOf (q : PriorityQueue K V) : ℕ := (q.entries.map fun e => e.2.1.weight).sum

section weights

variable {q : PriorityQueue K V} {k : K} {e : CacheEntry V × Priority}

theorem weight_kerase (l : List (Sigma fun _ : K => CacheEntry V × Priority))
    (h : l.dlookup k = some e) :
    (l.map fun e => e.2.1.weight).sum
      = e.1.weight + ((l.kerase k).map fun e => e.2.1.weight).sum := by
  induction l with
  | nil => simp at h
  | cons x l ih =>
    obtain ⟨k', e'⟩ := x
    by_cases hk : k = k'
    · subst hk
      have hcons : List.kerase k (⟨k, e'⟩ :: l) = l := List.kerase_cons_eq rfl
      rw [List.dlookup_cons_eq] at h
      rw [hcons, List.map_cons, List.sum_cons, Option.some.inj h]
    · rw [List.dlookup_cons_ne _ _ hk] at h
      rw [List.kerase_cons_ne hk, List.map_cons, List.sum_cons, List.map_cons, List.sum_cons, ih h]
      omega

theorem weightOf_erase (h : q.lookup k = some e) :
    weightOf q = e.1.weight + weightOf (q.erase k) :=
  weight_kerase q.entries h

theorem weightOf_insert (q : PriorityQueue K V) (k : K) (e : CacheEntry V × Priority) :
    weightOf (q.insert k e) = e.1.weight + weightOf (q.erase k) := by
  rw [weightOf, AList.entries_insert, List.map_cons, List.sum_cons]
  rfl

theorem weightOf_insert_of_none (h : q.lookup k = none) :
    weightOf (q.insert k e) = e.1.weight + weightOf q := by
  rw [weightOf, AList.entries_insert_of_notMem (AList.lookup_eq_none.mp h), List.map_cons,
    List.sum_cons]
  rfl

end weights

theorem lookup_insert_eq_if (q : PriorityQueue K V) (k k' : K) (e : CacheEntry V × Priority) :
    (q.insert k e).lookup k' = if k' = k then some e else q.lookup k' := by
  by_cases h : k' = k
  · subst h
    rw [if_pos rfl, AList.lookup_insert]
  · rw [if_neg h, AList.lookup_insert_ne h]

theorem lookup_erase_eq_if (q : PriorityQueue K V) (k k' : K) :
    (q.erase k).lookup k' = if k' = k then none else q.lookup k' := by
  by_cases h : k' = k
  · subst h
    rw [if_pos rfl, AList.lookup_erase]
  · rw [if_neg h, AList.lookup_erase_ne h]

theorem lookup_markStale (q : PriorityQueue K V) (k : K) :
    (markStale q).lookup k = (q.lookup k).map fun e =>
      ({ e.1 with willStale := true }, Priority.mk e.1.willStale e.2.frequency) := by
  show List.dlookup k (q.entries.map _) = (List.dlookup k q.entries).map _
  generalize q.entries = l
  induction l with
  | nil => rfl
  | cons x l ih =>
    obtain ⟨k', e⟩ := x
    rw [List.map_cons]
    by_cases h : k = k'
    · subst h
      rw [List.dlookup_cons_eq, List.dlookup_cons_eq]
      rfl
    · rw [List.dlookup_cons_ne _ _ h, List.dlookup_cons_ne _ _ h, ih]

omit [DecidableEq K] in
theorem weightOf_markStale (q : PriorityQueue K V) : weightOf (markStale q) = weightOf q := by
  simp [weightOf, markStale, Function.comp_def]

end LfuCache

theorem Heap.pop_eq_none {heap : Heap K V} {q : PriorityQueue K V} (h : heap.pop q = none) :
    q = ∅ := by
  rw [Heap.pop] at h
  rcases e : heap.top q with - | k
  · exact heap.eq_empty q e
  · obtain ⟨x, hx, -⟩ := heap.le_top q k e
    rw [e] at h
    simp [hx] at h

/-- What `pop` takes off the queue has the highest priority. -/
theorem Heap.pop_eq_some {heap : Heap K V} {q q' : PriorityQueue K V} {k : K} {x : CacheEntry V}
    (h : heap.pop q = some (k, x, q')) :
    ∃ p, q.lookup k = some (x, p) ∧ q' = q.erase k
      ∧ ∀ k' e', q.lookup k' = some e' → e'.2 ≤ p := by
  rw [Heap.pop] at h
  rcases e : heap.top q with - | k₀
  · rw [e] at h
    simp at h
  · obtain ⟨⟨y, p⟩, hy, hmax⟩ := heap.le_top q k₀ e
    rw [e] at h
    simp only [hy, Option.map_some, Option.some.injEq, Prod.mk.injEq] at h
    obtain ⟨rfl, rfl, rfl⟩ := h
    exact ⟨p, hy, rfl, hmax⟩

namespace LfuCache

variable (env : LfuEnv K V)

/-! ### What the operations keep -/

/-- Every entry was accessed at least once, by the `insert` that made it, and the
running total is the weight of all entries. -/
structure Valid (c : LfuCache K V) : Prop where
  frequency_pos : ∀ k e, c.queue.lookup k = some e → 0 < e.2.frequency
  totalWeight_eq : c.totalWeight = weightOf c.queue

/-- What the cache holds under a key. -/
def lookup (c : LfuCache K V) (key : K) : Option V := (c.queue.lookup key).map fun e => e.1.value

variable {c : LfuCache K V}

theorem valid_new (deadWeight : Bool) : (new deadWeight : LfuCache K V).Valid where
  frequency_pos := by
    intro k e h
    simp [new] at h
  totalWeight_eq := rfl

@[simp] theorem lookup_new (deadWeight : Bool) (k : K) :
    (new deadWeight : LfuCache K V).lookup k = none := rfl

theorem containsKey_eq (c : LfuCache K V) (k : K) : c.containsKey k = (c.lookup k).isSome := by
  simp [containsKey, lookup]

section touch

theorem lookup_touch (c : LfuCache K V) (key : K) : (c.touch key).lookup = c.lookup := by
  funext k
  rw [touch]
  rcases e : c.queue.lookup key with - | ⟨x, p⟩
  · rfl
  · rw [lookup, lookup]
    show Option.map _ ((c.queue.insert key _).lookup k) = _
    rw [lookup_insert_eq_if]
    by_cases h : k = key
    · subst h
      rw [if_pos rfl, e]
      rfl
    · rw [if_neg h]

theorem Valid.touch (h : c.Valid) (key : K) : (c.touch key).Valid := by
  rw [LfuCache.touch]
  rcases e : c.queue.lookup key with - | ⟨x, p⟩
  · exact h
  · constructor
    · intro k x' hx
      rw [lookup_insert_eq_if] at hx
      by_cases hk : k = key
      · rw [if_pos hk, Option.some.injEq] at hx
        rw [← hx]
        exact Nat.succ_pos _
      · rw [if_neg hk] at hx
        exact h.frequency_pos k x' hx
    · rw [weightOf_insert]
      show c.totalWeight = x.weight + _
      rw [h.totalWeight_eq, weightOf_erase e]

end touch

theorem get_fst (c : LfuCache K V) (key : K) : (c.get key).1 = c.lookup key := by
  rw [← lookup_touch c key]
  rfl

theorem lookup_get (c : LfuCache K V) (key : K) : (c.get key).2.lookup = c.lookup :=
  lookup_touch c key

theorem Valid.get (h : c.Valid) (key : K) : (c.get key).2.Valid := h.touch key

theorem lookup_insert (c : LfuCache K V) (key : K) (value : V) (k : K) :
    (c.insert env key value).lookup k = if k = key then some value else c.lookup k := by
  rw [← lookup_touch c key]
  unfold LfuCache.insert LfuCache.lookup
  generalize c.touch key = c'
  dsimp only
  rcases e : c'.queue.lookup key with - | ⟨x, p⟩
  all_goals
    dsimp only
    rw [lookup_insert_eq_if]
    by_cases h : k = key
    · rw [if_pos h, if_pos h]
      rfl
    · rw [if_neg h, if_neg h]

theorem Valid.insert (h : c.Valid) (key : K) (value : V) : (c.insert env key value).Valid := by
  have h' := h.touch key
  unfold LfuCache.insert
  generalize c.touch key = c' at h'
  dsimp only
  rcases e : c'.queue.lookup key with - | ⟨x, p⟩
  · constructor
    · intro k x' hx
      rw [lookup_insert_eq_if] at hx
      by_cases hk : k = key
      · rw [if_pos hk, Option.some.injEq] at hx
        rw [← hx]
        exact Nat.one_pos
      · rw [if_neg hk] at hx
        exact h'.frequency_pos k x' hx
    · rw [weightOf_insert_of_none e]
      show c'.totalWeight + env.weight key value = env.weight key value + _
      rw [h'.totalWeight_eq, Nat.add_comm]
  · constructor
    · intro k x' hx
      rw [lookup_insert_eq_if] at hx
      by_cases hk : k = key
      · rw [if_pos hk, Option.some.injEq] at hx
        rw [← hx]
        exact h'.frequency_pos key (x, p) e
      · rw [if_neg hk] at hx
        exact h'.frequency_pos k x' hx
    · rw [weightOf_insert]
      show c'.totalWeight - x.weight + env.weight key value = env.weight key value + _
      rw [h'.totalWeight_eq, weightOf_erase e]
      dsimp only
      omega

/-- No entry comes before one whose priority was set to the absolute minimum. -/
theorem top_of_min {q : PriorityQueue K V} {key k : K} {x e : CacheEntry V} {q' : PriorityQueue K V}
    (hfreq : ∀ k e, q.lookup k = some e → 0 < e.2.frequency)
    (h : env.heap.pop (q.insert key (x, Priority.mk true 0)) = some (k, e, q')) :
    k = key ∧ e = x ∧ q' = (q.insert key (x, Priority.mk true 0)).erase key := by
  obtain ⟨p, hp, rfl, hmax⟩ := Heap.pop_eq_some h
  have hle := hmax key _ (AList.lookup_insert q)
  by_cases hk : k = key
  · subst hk
    rw [AList.lookup_insert, Option.some.injEq, Prod.mk.injEq] at hp
    exact ⟨rfl, hp.1.symm, rfl⟩
  · rw [AList.lookup_insert_ne hk] at hp
    have hpos : 0 < p.frequency := hfreq k _ hp
    exfalso
    rw [Priority.mk, Prod.Lex.le_iff] at hle
    rcases hle with hlt | ⟨-, hle⟩
    · exact absurd hlt (by simp)
    · have hzero : p.frequency ≤ 0 := hle
      omega

/-- **`remove` takes out the entry of its key**: the assertion on the popped key never
fails, and no other entry is touched. -/
theorem remove_spec (h : c.Valid) (key : K) :
    ∃ c', c.remove env key = .ok (c.lookup key, c') ∧ c'.Valid
      ∧ ∀ k, c'.lookup k = if k = key then none else c.lookup k := by
  unfold remove
  rcases e : c.queue.lookup key with - | ⟨x, p⟩
  · refine ⟨c, by simp [lookup, e], h, ?_⟩
    intro k
    by_cases hk : k = key
    · subst hk
      simp [lookup, e]
    · rw [if_neg hk]
  · dsimp only
    rcases hpop : env.heap.pop (c.queue.insert key (x, Priority.mk true 0)) with - | ⟨k, y, q⟩
    · have hempty := congrArg (AList.lookup key) (Heap.pop_eq_none hpop)
      simp at hempty
    · obtain ⟨rfl, rfl, rfl⟩ := top_of_min env h.frequency_pos hpop
      refine ⟨_, by simp only [if_pos, lookup, e, Option.map_some]; rfl, ⟨?_, ?_⟩, ?_⟩
      · intro k' e' he
        rw [lookup_erase_eq_if, lookup_insert_eq_if] at he
        by_cases hk : k' = k
        · simp [hk] at he
        · simp only [if_neg hk] at he
          exact h.frequency_pos k' e' he
      · show c.totalWeight - y.weight = weightOf _
        rw [h.totalWeight_eq, weightOf_erase e]
        have herase := weightOf_insert c.queue k (y, Priority.mk true 0)
        rw [weightOf_erase (AList.lookup_insert c.queue)] at herase
        dsimp only at herase ⊢
        omega
      · intro k'
        rw [lookup, lookup_erase_eq_if, lookup_insert_eq_if]
        by_cases hk : k' = k
        · rw [if_pos hk, if_pos hk]
          rfl
        · rw [if_neg hk, if_neg hk, if_neg hk]
          rfl

end LfuCache

end SplitsSubgraph
