/-
SplitsSubgraph/Eviction.lean

What `evict` leaves of the entity cache, and what the cache is over a whole run.

The loop of `evict_with_period` pops entries until the cache fits.  The weight of the
slots is taken once, before the loop, so popping does not lower it: if it is above the
bound by itself, the loop empties the cache and panics.  That is the only way to a panic,
and it is out of reach when dead weight is not counted, which is the default.
-/
import SplitsSubgraph.LfuCache

namespace SplitsSubgraph

variable {K V : Type*} [DecidableEq K]

namespace LfuCache

variable (env : LfuEnv K V) {c : LfuCache K V}

/-! ### The loop -/

/-- What eviction leaves of a cache: it fits, the entries that are left are unchanged, none
of them comes before one that was evicted, and the last entry that went had to go. -/
structure EvictedFrom (maxWeight deadWeight : ℕ) (c c' : LfuCache K V) : Prop where
  fits : c'.totalWeight + deadWeight ≤ maxWeight
  kept : ∀ k e, c'.queue.lookup k = some e → c.queue.lookup k = some e
  order : ∀ k e k' e', c.queue.lookup k = some e → c'.queue.lookup k = none →
    c'.queue.lookup k' = some e' → e'.2 ≤ e.2
  needed : c'.queue = c.queue ∨ ∃ k e, c.queue.lookup k = some e ∧ c'.queue.lookup k = none
    ∧ maxWeight < c'.totalWeight + e.1.weight + deadWeight

/-- Nothing is evicted from a cache that fits. -/
theorem EvictedFrom.refl {maxWeight deadWeight : ℕ}
    (hfit : ¬ maxWeight < c.totalWeight + deadWeight) : EvictedFrom maxWeight deadWeight c c where
  fits := by omega
  kept := fun _ _ he => he
  order := by
    intro k e k' e' hk hout _
    rw [hk] at hout
    simp at hout
  needed := Or.inl rfl

theorem len_erase {q : PriorityQueue K V} {k : K} {e : CacheEntry V × Priority} {n : ℕ}
    (h : q.lookup k = some e) (hlen : q.entries.length = n + 1) :
    (q.erase k).entries.length = n := by
  have hkeys : (q.erase k).keys.length = n := by
    rw [AList.keys_erase, List.length_erase_of_mem
      (AList.mem_keys.mp (AList.lookup_isSome.mp (by rw [h]; rfl))), AList.keys, List.keys,
      List.length_map, hlen]
    rfl
  rwa [AList.keys, List.keys, List.length_map] at hkeys

/-- The cache after one round of the eviction loop. -/
theorem Valid.pop (h : c.Valid) {k : K} {x : CacheEntry V} {q : PriorityQueue K V}
    (hpop : env.heap.pop c.queue = some (k, x, q)) :
    ({ c with queue := q, totalWeight := c.totalWeight - x.weight } : LfuCache K V).Valid
      ∧ c.totalWeight = c.totalWeight - x.weight + x.weight := by
  obtain ⟨p, hp, rfl, -⟩ := Heap.pop_eq_some hpop
  have hweight := weightOf_erase hp
  rw [← h.totalWeight_eq] at hweight
  dsimp only at hweight
  refine ⟨⟨?_, ?_⟩, ?_⟩
  · intro k' e he
    dsimp only at he
    rw [lookup_erase_eq_if] at he
    by_cases hk : k' = k
    · simp [hk] at he
    · rw [if_neg hk] at he
      exact h.frequency_pos k' e he
  · dsimp only
    omega
  · omega

/-- One more entry in front of what the rest of the loop evicts. -/
theorem EvictedFrom.cons {maxWeight deadWeight : ℕ} {k : K} {x : CacheEntry V}
    {q : PriorityQueue K V}
    {c' : LfuCache K V} (hc : c.Valid) (hbig : maxWeight < c.totalWeight + deadWeight)
    (hpop : env.heap.pop c.queue = some (k, x, q))
    (h : EvictedFrom maxWeight deadWeight
      { c with queue := q, totalWeight := c.totalWeight - x.weight } c')
    (hweight : c'.queue = q → c'.totalWeight = c.totalWeight - x.weight) :
    EvictedFrom maxWeight deadWeight c c' := by
  have hsum := (hc.pop env hpop).2
  obtain ⟨p, hp, rfl, hmax⟩ := Heap.pop_eq_some hpop
  have hgone : c'.queue.lookup k = none := by
    rcases e : c'.queue.lookup k with - | y
    · rfl
    · have := h.kept k y e
      simp at this
  have hkept : ∀ k' e, c'.queue.lookup k' = some e → c.queue.lookup k' = some e := by
    intro k' e he
    have herase := h.kept k' e he
    dsimp only at herase
    rw [lookup_erase_eq_if] at herase
    by_cases hk : k' = k
    · simp [hk] at herase
    · rwa [if_neg hk] at herase
  refine ⟨h.fits, hkept, ?_, Or.inr ?_⟩
  · intro k₁ e₁ k₂ e₂ h₁ hout h₂
    by_cases hk : k₁ = k
    · subst hk
      rw [hp, Option.some.injEq] at h₁
      rw [← h₁]
      exact hmax k₂ e₂ (hkept k₂ e₂ h₂)
    · apply h.order k₁ e₁ k₂ e₂ _ hout h₂
      dsimp only
      rw [lookup_erase_eq_if, if_neg hk, h₁]
  · rcases h.needed with hq | ⟨k₁, e₁, h₁, hout, hneed⟩
    · refine ⟨k, (x, p), hp, hgone, ?_⟩
      rw [hweight hq]
      dsimp only
      omega
    · refine ⟨k₁, e₁, ?_, hout, hneed⟩
      dsimp only at h₁
      rw [lookup_erase_eq_if] at h₁
      by_cases hk : k₁ = k
      · simp [hk] at h₁
      · rwa [if_neg hk] at h₁

/-- The eviction loop, from a cache of `n` entries: it gives up only if the slots alone
are too heavy, and else evicts in order of priority until the cache fits. -/
theorem evictLoop_spec (maxWeight deadWeight : ℕ) (n : ℕ) (h : c.Valid) (hlen : c.len = n)
    (evicted : ℕ) :
    (maxWeight < deadWeight ∧ evictLoop env maxWeight deadWeight n c evicted = .error .emptyCache)
    ∨ (deadWeight ≤ maxWeight ∧ ∃ c', c'.Valid ∧ EvictedFrom maxWeight deadWeight c c'
        ∧ evictLoop env maxWeight deadWeight n c evicted
          = .ok (c', evicted + (c.totalWeight - c'.totalWeight))
        ∧ c'.totalWeight ≤ c.totalWeight ∧ c'.staleCounter = c.staleCounter
        ∧ c'.deadWeight = c.deadWeight) := by
  induction n generalizing c evicted with
  | zero =>
    have hnil : c.queue.entries = [] := List.length_eq_zero_iff.mp hlen
    have hzero : c.totalWeight = 0 := by
      rw [h.totalWeight_eq, weightOf, hnil]
      rfl
    by_cases hbig : maxWeight < deadWeight
    · left
      exact ⟨hbig, by rw [evictLoop, if_pos (by omega)]⟩
    · right
      have hfit : ¬ maxWeight < c.totalWeight + deadWeight := by omega
      refine ⟨by omega, c, h, EvictedFrom.refl hfit, ?_, le_rfl, rfl, rfl⟩
      rw [evictLoop, if_neg hfit, Nat.sub_self, Nat.add_zero]
  | succ n ih =>
    by_cases hbig : maxWeight < c.totalWeight + deadWeight
    · rw [evictLoop, if_pos hbig]
      rcases hpop : env.heap.pop c.queue with - | ⟨k, x, q⟩
      · have hempty : c.len = 0 := by
          rw [len, Heap.pop_eq_none hpop]
          rfl
        omega
      · obtain ⟨p, hp, hq, -⟩ := Heap.pop_eq_some hpop
        obtain ⟨hvalid, hsum⟩ := h.pop env hpop
        have hlen' : ({ c with queue := q, totalWeight := c.totalWeight - x.weight }
            : LfuCache K V).len = n := by
          rw [len, hq]
          exact len_erase hp hlen
        dsimp only
        rcases ih hvalid hlen' (evicted + x.weight) with ⟨hdead, herr⟩ | ⟨hdead, c', hc', hev,
            hok, hle, hstale⟩
        · exact Or.inl ⟨hdead, herr⟩
        · right
          dsimp only at hle hok
          refine ⟨hdead, c', hc', hev.cons env h hbig hpop ?_, ?_, by omega, hstale⟩
          · intro hqueue
            rw [hc'.totalWeight_eq, hqueue]
            exact hvalid.totalWeight_eq.symm
          · rw [hok]
            congr 2
            omega
    · right
      refine ⟨by omega, c, h, EvictedFrom.refl hbig, ?_, le_rfl, rfl, rfl⟩
      rw [evictLoop, if_neg hbig, Nat.sub_self, Nat.add_zero]

omit [DecidableEq K] in
theorem nextPeriod_queue (c : LfuCache K V) (period : ℕ) :
    (c.nextPeriod period).queue = c.queue ∨ (c.nextPeriod period).queue = markStale c.queue := by
  unfold nextPeriod
  split
  · exact Or.inr rfl
  · exact Or.inl rfl

omit [DecidableEq K] in
@[simp] theorem nextPeriod_totalWeight (c : LfuCache K V) (period : ℕ) :
    (c.nextPeriod period).totalWeight = c.totalWeight := by
  unfold nextPeriod
  split <;> rfl

omit [DecidableEq K] in
@[simp] theorem nextPeriod_deadWeight (c : LfuCache K V) (period : ℕ) :
    (c.nextPeriod period).deadWeight = c.deadWeight := by
  unfold nextPeriod
  split <;> rfl

omit [DecidableEq K] in
@[simp] theorem len_nextPeriod (c : LfuCache K V) (period : ℕ) :
    (c.nextPeriod period).len = c.len := by
  rcases nextPeriod_queue c period with h | h
  · rw [len, h, len]
  · rw [len, h, len]
    exact List.length_map _

theorem deadWeightOf_nextPeriod (c : LfuCache K V) (period : ℕ) :
    (c.nextPeriod period).deadWeightOf env = c.deadWeightOf env := by
  rw [deadWeightOf, deadWeightOf, nextPeriod_deadWeight, len_nextPeriod]

@[simp] theorem lookup_nextPeriod (c : LfuCache K V) (period : ℕ) (k : K) :
    (c.nextPeriod period).lookup k = c.lookup k := by
  rcases nextPeriod_queue c period with h | h
  · rw [lookup, h, lookup]
  · rw [lookup, h, lookup, lookup_markStale, Option.map_map]
    rfl

theorem Valid.nextPeriod (h : c.Valid) (period : ℕ) : (c.nextPeriod period).Valid := by
  rcases nextPeriod_queue c period with hq | hq
  · constructor
    · rw [hq]
      exact h.frequency_pos
    · rw [hq, nextPeriod_totalWeight]
      exact h.totalWeight_eq
  · constructor
    · intro k e he
      rw [hq, lookup_markStale] at he
      obtain ⟨e', he', rfl⟩ := Option.map_eq_some_iff.mp he
      exact h.frequency_pos k e' he'
    · rw [hq, nextPeriod_totalWeight, weightOf_markStale]
      exact h.totalWeight_eq

/-- **Eviction.**  A cache within its bound is left alone.  Else `evict` gives up exactly
when the weight of the slots, which is taken once before the loop, is above the bound by
itself; if not, the cache fits afterwards, what is left is what was there (with the
staleness of this period), the evicted entries come before the others, stale ones first
and then by frequency, and the last of them had to go. -/
theorem evictWithPeriod_spec (h : c.Valid) (maxWeight period : ℕ) :
    (c.totalWeight ≤ maxWeight ∧ c.evictWithPeriod env maxWeight period = .ok (none, c))
    ∨ (maxWeight < c.totalWeight ∧ maxWeight < c.deadWeightOf env
      ∧ c.evictWithPeriod env maxWeight period = .error .emptyCache)
    ∨ (maxWeight < c.totalWeight ∧ c.deadWeightOf env ≤ maxWeight ∧ ∃ c', c'.Valid
      ∧ EvictedFrom maxWeight (c.deadWeightOf env) (c.nextPeriod period) c'
      ∧ c'.deadWeight = c.deadWeight
      ∧ c.evictWithPeriod env maxWeight period
        = .ok (some ⟨c'.totalWeight, c.totalWeight - c'.totalWeight, c'.len, c.len - c'.len,
            (c.nextPeriod period).staleCounter = 0⟩, c')) := by
  by_cases hfit : c.totalWeight ≤ maxWeight
  · left
    refine ⟨hfit, ?_⟩
    rw [evictWithPeriod, if_pos hfit]
    rfl
  · right
    have hspec := evictLoop_spec env maxWeight (c.deadWeightOf env) c.len (h.nextPeriod period)
      (len_nextPeriod c period) 0
    unfold evictWithPeriod
    simp only [if_neg hfit, deadWeightOf_nextPeriod, len_nextPeriod]
    rcases hspec with ⟨hdead, herr⟩ | ⟨hdead, c', hc', hev, hok, -, hstale, hflag⟩
    · left
      refine ⟨by omega, hdead, ?_⟩
      rw [herr]
      rfl
    · right
      refine ⟨by omega, hdead, c', hc', hev, by simpa using hflag, ?_⟩
      rw [hok]
      simp [hstale, Except.bind, bind, pure, Except.pure]

/-- Eviction only forgets. -/
theorem lookup_of_evictedFrom {maxWeight deadWeight period : ℕ} {c' : LfuCache K V}
    (h : EvictedFrom maxWeight deadWeight (c.nextPeriod period) c') {k : K} {v : V}
    (hv : c'.lookup k = some v) : c.lookup k = some v := by
  rw [lookup] at hv
  obtain ⟨e, he, rfl⟩ := Option.map_eq_some_iff.mp hv
  rw [← lookup_nextPeriod c period, lookup, h.kept k e he]
  rfl

/-! ### Runs -/

/-- The calls a user of the cache can make. -/
inductive Op (K V : Type*) where
  | get (key : K)
  | insert (key : K) (value : V)
  | remove (key : K)
  | evict (maxWeight stalePeriod : ℕ)

def step (c : LfuCache K V) : Op K V → Except Panic (LfuCache K V)
  | .get key => .ok (c.get key).2
  | .insert key value => .ok (c.insert env key value)
  | .remove key => (c.remove env key).map Prod.snd
  | .evict maxWeight stalePeriod => (c.evictWithPeriod env maxWeight stalePeriod).map Prod.snd

/-- The map that a cache which forgets nothing would be. -/
def Op.remember (m : K → Option V) : Op K V → K → Option V
  | .insert key value => Function.update m key (some value)
  | .remove key => Function.update m key none
  | _ => m

/-- The cache holds nothing that the map `m` does not. -/
structure Within (c : LfuCache K V) (m : K → Option V) : Prop where
  valid : c.Valid
  noDeadWeight : c.deadWeight = false
  lookup : ∀ k v, c.lookup k = some v → m k = some v

@[simp] theorem touch_deadWeight (c : LfuCache K V) (key : K) :
    (c.touch key).deadWeight = c.deadWeight := by
  unfold touch
  split <;> rfl

@[simp] theorem insert_deadWeight (c : LfuCache K V) (key : K) (value : V) :
    (c.insert env key value).deadWeight = c.deadWeight := by
  unfold insert
  dsimp only
  split <;> exact touch_deadWeight c key

theorem remove_deadWeight {key : K} {r : Option V × LfuCache K V}
    (h : c.remove env key = .ok r) : r.2.deadWeight = c.deadWeight := by
  unfold remove at h
  dsimp only at h
  split at h
  · cases h
    rfl
  · split at h
    · cases h
      rfl
    · split at h
      · cases h
        rfl
      · cases h

theorem Within.step {m : K → Option V} (h : c.Within m) (op : Op K V) :
    ∃ c', c.step env op = .ok c' ∧ c'.Within (op.remember m) := by
  rcases op with key | ⟨key, value⟩ | key | ⟨maxWeight, period⟩
  · refine ⟨_, rfl, h.valid.get key, ?_, ?_⟩
    · rw [← h.noDeadWeight]
      exact touch_deadWeight c key
    · intro k v hv
      rw [lookup_get] at hv
      exact h.lookup k v hv
  · refine ⟨_, rfl, h.valid.insert env key value, ?_, ?_⟩
    · rw [insert_deadWeight, h.noDeadWeight]
    · intro k v hv
      rw [lookup_insert] at hv
      show Function.update m key (some value) k = some v
      by_cases hk : k = key
      · rw [if_pos hk] at hv
        rw [hk, Function.update_self, hv]
      · rw [if_neg hk] at hv
        rw [Function.update_of_ne hk]
        exact h.lookup k v hv
  · obtain ⟨c', hc', hvalid, hlookup⟩ := remove_spec env h.valid key
    refine ⟨c', by rw [LfuCache.step, hc']; rfl, hvalid, ?_, ?_⟩
    · rw [remove_deadWeight env hc', h.noDeadWeight]
    · intro k v hv
      rw [hlookup] at hv
      show Function.update m key none k = some v
      by_cases hk : k = key
      · simp [hk] at hv
      · rw [if_neg hk] at hv
        rw [Function.update_of_ne hk]
        exact h.lookup k v hv
  · have hdead : c.deadWeightOf env = 0 := by simp [deadWeightOf, h.noDeadWeight]
    rcases evictWithPeriod_spec env h.valid maxWeight period with ⟨-, hok⟩ | ⟨-, hbig, -⟩
        | ⟨-, -, c', hvalid, hev, hflag, hok⟩
    · exact ⟨c, by rw [LfuCache.step, hok]; rfl, h⟩
    · omega
    · refine ⟨c', by rw [LfuCache.step, hok]; rfl, hvalid, by rw [hflag, h.noDeadWeight], ?_⟩
      intro k v hv
      exact h.lookup k v (lookup_of_evictedFrom hev hv)

/-- **A cache that does not count dead weight never panics and only forgets**: whatever
calls are made on a new cache, all of them return, the invariant holds in the end, and an
entry that is found holds the value that was inserted last under its key. -/
theorem run_remembers (ops : List (Op K V)) :
    ∃ c, ops.foldlM (step env) (new false) = .ok c
      ∧ c.Within (ops.foldl Op.remember fun _ => none) := by
  induction ops using List.reverseRecOn with
  | nil => exact ⟨new false, rfl, valid_new false, rfl, by simp⟩
  | append_singleton ops op ih =>
    obtain ⟨c, hc, hwithin⟩ := ih
    obtain ⟨c', hc', hwithin'⟩ := hwithin.step env op
    refine ⟨c', ?_, ?_⟩
    · rw [List.foldlM_append, hc]
      show (step env c op >>= pure) = _
      rw [hc']
      rfl
    · rw [List.foldl_append]
      exact hwithin'

end LfuCache

end SplitsSubgraph
