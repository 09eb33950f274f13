/-
SplitsSubgraph/Lib/Replay.lean

Replaying a log of events from an initial state.  That an invariant holds in the end
and that one replay simulates another are `List.foldlRecOn` and `List.foldl_rel`.
Here are the two rules about the part that single events play: what holds in the end
and not at first was brought about by some event (`exists_cause`), and what some event
brings about and none undoes holds in the end (`of_mem`).
-/
import Mathlib

namespace Replay

variable {S E : Type*} {step : S → E → S} {init : S} {events : List E} {Q : S → Prop}

/-- What holds in the end and not at first was brought about by an event. -/
theorem exists_cause (hinit : ¬ Q init) (h : Q (events.foldl step init)) :
    ∃ s, ∃ x ∈ events, ¬ Q s ∧ Q (step s x) := by
  induction events using List.reverseRecOn with
  | nil => exact absurd h hinit
  | append_singleton events x ih =>
    rw [List.foldl_append, List.foldl_cons, List.foldl_nil] at h
    by_cases hbefore : Q (events.foldl step init)
    · obtain ⟨s, y, hy, hcause⟩ := ih hbefore
      exact ⟨s, y, List.mem_append_left _ hy, hcause⟩
    · exact ⟨_, x, by simp, hbefore, h⟩

/-- What an event brings about and no event undoes holds in the end. -/
theorem of_mem (hkeep : ∀ s x, Q s → Q (step s x)) {x : E} (hx : x ∈ events)
    (hset : ∀ s, Q (step s x)) : Q (events.foldl step init) := by
  obtain ⟨pre, post, rfl⟩ := List.append_of_mem hx
  rw [List.foldl_append, List.foldl_cons]
  exact List.foldlRecOn post step (hset _) fun s hs y _ => hkeep s y hs

end Replay
