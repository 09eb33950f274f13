/-
SplitsSubgraph/Lib/WriteBehind.lean

Reading through a queue of writes.

A store holds a value under each key as of each time (`View`).  Requests to it, writes and
reverts, are put in a queue and executed later, oldest first.  A reader that wants to see
the store as it will be when the queue is empty looks through the queue, newest request
first, and asks the store if it finds nothing.  Two things are in its way.  A write in the
queue may be reverted by a newer request, and then must not be seen; and while the reader
looks, the store goes on executing requests, so that the store it asks may hold any part
of what the queue held.

A `Tracker` takes care of both.  It remembers the lowest time that was reverted to, and a
time that nothing in the queue can touch, at which the store is asked.  `read_eq_exec` is
the result: with the requests of the queue going forward when they write and backward when
they revert (`Admissible`), the reader sees the store after the whole queue, whatever part
of it was executed when the store was asked.
-/
import Mathlib

namespace WriteBehind

variable {K V : Type*}

/-- What a store holds under each key as of each time. -/
abbrev View (K V : Type*) := ℤ → K → V

/-- A request to a store: change some keys from a time on, or go back to a time. -/
inductive Request (K V : Type*) where
  | write (time : ℤ) (changes : K → Option V)
  | revert (time : ℤ)
  | skip

namespace Request

/-- The store after a request; `top` is a time after all others. -/
def exec (top : ℤ) (v : View K V) : Request K V → View K V
  | .write time changes => fun x k => if x < time then v x k else (changes k).getD (v top k)
  | .revert time => fun x => v (min x time)
  | .skip => v

/-- The head of the store after a request. -/
def head (h : ℤ) : Request K V → ℤ
  | .write time _ => time
  | .revert time => time
  | .skip => h

/-- Writes go forward and reverts go backward. -/
def Admissible (top h : ℤ) : Request K V → Prop
  | .write time _ => h < time ∧ time < top
  | .revert time => time < h
  | .skip => True

end Request

open Request

/-- The store after the requests of a queue, oldest first. -/
def exec (top : ℤ) (v : View K V) (queue : List (Request K V)) : View K V :=
  queue.foldl (Request.exec top) v

/-- The head after the requests of a queue. -/
def head (h : ℤ) (queue : List (Request K V)) : ℤ := queue.foldl Request.head h

/-- Every request of the queue is admissible when its turn comes. -/
def Admissible (top : ℤ) : ℤ → List (Request K V) → Prop
  | _, [] => True
  | h, r :: queue => r.Admissible top h ∧ Admissible top (r.head h) queue

/-- Nothing changes after the head. -/
def Steady (h : ℤ) (v : View K V) : Prop := ∀ x y, h ≤ x → h ≤ y → v x = v y

/-! ### Reading -/

/-- The lowest time that was reverted to, and a time that no request so far affects. -/
structure Tracker where
  revert : ℤ
  block : ℤ

/-- Take note of a request. -/
def Tracker.update (t : Tracker) : Request K V → Tracker
  | .write time _ => { t with block := min t.block (time - 1) }
  | .revert time => ⟨min t.revert time, min t.block time⟩
  | .skip => t

/-- What a request says about a key, unless it is reverted. -/
def Request.found (t : Tracker) (k : K) : Request K V → Option V
  | .write time changes => if time ≤ t.revert then changes k else none
  | .revert _ => none
  | .skip => none

/-- Look for a key in requests, newest first: a value, or the time at which to ask the
store. -/
def scan (k : K) : Tracker → List (Request K V) → V ⊕ ℤ
  | t, [] => .inr t.block
  | t, r :: rest =>
    match r.found (t.update r) k with
    | some value => .inl value
    | none => scan k (t.update r) rest

/-- What the reader makes of it, with the store `v`. -/
def resolve (v : View K V) (k : K) : V ⊕ ℤ → V
  | .inl value => value
  | .inr time => v time k

/-- Read a key through a queue. -/
def read (top : ℤ) (queue : List (Request K V)) (v : View K V) (k : K) : V :=
  resolve v k (scan k ⟨top, top⟩ queue.reverse)

/-! ### Queues -/

section queues

variable {top h : ℤ} {v : View K V} {queue : List (Request K V)}

theorem exec_concat (r : Request K V) :
    exec top v (queue ++ [r]) = (exec top v queue |> r.exec top) := by
  simp [exec, List.foldl_append]

theorem head_concat (r : Request K V) : head h (queue ++ [r]) = r.head (head h queue) := by
  simp [head, List.foldl_append]

theorem admissible_concat {r : Request K V} :
    Admissible top h (queue ++ [r]) ↔ Admissible top h queue ∧ r.Admissible top (head h queue) := by
  induction queue generalizing h with
  | nil => simp [Admissible, head]
  | cons r' queue ih =>
    rw [List.cons_append, Admissible, Admissible, ih, and_assoc]
    rfl

theorem Steady.request {r : Request K V} (hv : Steady h v) (hr : r.Admissible top h) :
    Steady (r.head h) (r.exec top v) := by
  intro x y hx hy
  funext k
  rcases r with ⟨time, changes⟩ | time | -
  · have hx : time ≤ x := hx
    have hy : time ≤ y := hy
    show (if x < time then _ else _) = (if y < time then _ else _)
    rw [if_neg (by omega), if_neg (by omega)]
  · have hx : time ≤ x := hx
    have hy : time ≤ y := hy
    show v (min x time) k = v (min y time) k
    rw [min_eq_right hx, min_eq_right hy]
  · exact congrFun (hv x y hx hy) k

theorem Steady.exec (hv : Steady h v) (hq : Admissible top h queue) :
    Steady (head h queue) (WriteBehind.exec top v queue) := by
  induction queue using List.reverseRecOn with
  | nil => exact hv
  | append_singleton queue r ih =>
    rw [admissible_concat] at hq
    rw [exec_concat, head_concat]
    exact (ih hq.1).request hq.2

/-- The head stays below `top`. -/
theorem head_lt (hh : h < top) (hq : Admissible top h queue) : head h queue < top := by
  induction queue using List.reverseRecOn with
  | nil => exact hh
  | append_singleton queue r ih =>
    rw [admissible_concat] at hq
    have hbelow := ih hq.1
    rw [head_concat]
    rcases r with ⟨time, changes⟩ | time | -
    · exact hq.2.2
    · exact lt_trans hq.2 hbelow
    · exact hbelow

end queues

/-! ### The time at which the store is asked -/

section untouched

variable {top x : ℤ} {v : View K V}

/-- The request leaves everything up to `x` as it is. -/
def Request.Spares (x : ℤ) : Request K V → Prop
  | .write time _ => x < time
  | .revert time => x ≤ time
  | .skip => True

theorem exec_of_spares {queue : List (Request K V)} (h : ∀ r ∈ queue, r.Spares x) :
    exec top v queue x = v x := by
  induction queue using List.reverseRecOn with
  | nil => rfl
  | append_singleton queue r ih =>
    have hlast := h r (by simp)
    rw [exec_concat, ← ih fun r' hr' => h r' (by simp [hr'])]
    funext k
    rcases r with ⟨time, changes⟩ | time | -
    · exact if_pos hlast
    · show exec top v queue (min x time) k = _
      rw [min_eq_left hlast]
    · rfl

theorem Tracker.update_block_le (t : Tracker) (r : Request K V) : (t.update r).block ≤ t.block := by
  rcases r with ⟨time, changes⟩ | time | -
  · exact min_le_left _ _
  · exact min_le_left _ _
  · exact le_rfl

theorem Tracker.spares_update (t : Tracker) (r : Request K V) : r.Spares (t.update r).block := by
  rcases r with ⟨time, changes⟩ | time | -
  · show min t.block (time - 1) < time
    omega
  · exact min_le_right _ _
  · trivial

theorem Request.Spares.mono {r : Request K V} {y : ℤ} (h : r.Spares y) (hxy : x ≤ y) :
    r.Spares x := by
  rcases r with ⟨time, changes⟩ | time | -
  · exact lt_of_le_of_lt hxy h
  · exact le_trans hxy h
  · trivial

end untouched

/-! ### What is read -/

variable {top h : ℤ} {v : View K V} {queue : List (Request K V)}

/-- A tracker that has seen requests newer than a queue with head `h`: they revert to
`revert` at the lowest, and what they affect begins after the head, unless it is
reverted. -/
structure Tracker.Follows (h : ℤ) (t : Tracker) : Prop where
  block_le : t.block ≤ t.revert
  le_block : min h t.revert ≤ t.block

theorem Tracker.Follows.update {t : Tracker} {r : Request K V} (ht : t.Follows (r.head h))
    (hr : r.Admissible top h) : (t.update r).Follows h := by
  obtain ⟨hle, hge⟩ := ht
  rcases r with ⟨time, changes⟩ | time | -
  · have hforward : h < time := hr.1
    have hge : min time t.revert ≤ t.block := hge
    refine ⟨?_, ?_⟩
    · show min t.block (time - 1) ≤ t.revert
      omega
    · show min h t.revert ≤ min t.block (time - 1)
      omega
  · have hge : min time t.revert ≤ t.block := hge
    refine ⟨?_, ?_⟩
    · show min t.block time ≤ min t.revert time
      omega
    · show min h (min t.revert time) ≤ min t.block time
      omega
  · exact ⟨hle, hge⟩

/-- **Reading through a queue**, behind requests that revert to `t.revert` at the lowest:
what is read is the store after the queue, as of that time. -/
theorem resolve_scan (hq : Admissible top h queue) (hv : Steady h v) (hh : h < top) {t : Tracker}
    (ht : t.Follows (head h queue)) (htop : t.revert ≤ top) {w : View K V}
    (hw : ∀ x, (∀ r ∈ queue, r.Spares x) → x ≤ t.block → w x = v x) (k : K) :
    resolve w k (scan k t queue.reverse) = exec top v queue t.revert k := by
  induction queue using List.reverseRecOn generalizing t with
  | nil =>
    obtain ⟨hle, hge⟩ := ht
    have hge : min h t.revert ≤ t.block := hge
    have hask : w t.block = v t.block := hw t.block (by simp) le_rfl
    show w t.block k = v t.revert k
    rw [hask]
    rcases le_total t.revert h with hlow | hhigh
    · have heq : t.block = t.revert := by omega
      rw [heq]
    · exact congrFun (hv _ _ (by omega) hhigh) k
  | append_singleton queue r ih =>
    rw [admissible_concat] at hq
    rw [head_concat] at ht
    obtain ⟨hq, hr⟩ := hq
    have hsteady := hv.exec hq
    have hbelow := head_lt hh hq
    have hnext := ht.update hr
    have hrest := ih hq hnext
    rw [List.reverse_append, List.reverse_singleton, List.singleton_append, scan, exec_concat]
    have hw' : ∀ x, (∀ r' ∈ queue, r'.Spares x) → x ≤ (t.update r).block → w x = v x := by
      intro x hx hle
      apply hw x ?_ (hle.trans (t.update_block_le r))
      intro r' hr'
      rcases List.mem_append.mp hr' with hold | hlast
      · exact hx r' hold
      · obtain rfl : r' = r := by simpa using hlast
        exact (t.spares_update r').mono hle
    rcases r with ⟨time, changes⟩ | time | -
    · have hforward : head h queue < time := hr.1
      have hfound : (Request.write time changes).found (t.update (.write time changes)) k
          = if time ≤ t.revert then changes k else none := rfl
      rw [hfound]
      show _ = if t.revert < time then exec top v queue t.revert k
        else (changes k).getD (exec top v queue top k)
      by_cases hvisible : time ≤ t.revert
      · rw [if_pos hvisible, if_neg (by omega)]
        rcases e : changes k with - | value
        · -- the write does not change the key, and nothing changed between it and the head
          have hsame : exec top v queue top k = exec top v queue t.revert k :=
            congrFun (hsteady _ _ (by omega) (by omega)) k
          rw [Option.getD_none, hsame]
          exact hrest htop hw'
        · rfl
      · rw [if_neg hvisible, if_pos (by omega)]
        exact hrest htop hw'
    · exact hrest ((min_le_left _ _).trans htop) hw'
    · exact hrest htop hw'

/-- **The reader sees the store after the whole queue**, whatever part of the queue was
executed when it asked the store. -/
theorem read_eq_exec (hq : Admissible top h queue) (hv : Steady h v) (hh : h < top)
    {done : List (Request K V)} (hdone : done <+: queue) (k : K) :
    read top queue (exec top v done) k = exec top v queue top k := by
  apply resolve_scan hq hv hh ⟨le_rfl, min_le_right _ _⟩ le_rfl
  intro x hx _
  exact exec_of_spares fun r hr => hx r (hdone.subset hr)

end WriteBehind
