/-
SplitsSubgraph/Integrity.lean

Referential integrity of the join between splits and recipients.

The relation is stored three times: as a list in each split row, as a list in each
recipient row and as the split recipient rows.  That every listed id is stored
holds in every reachable store.  That the lists have no duplicates, and list every
stored row, needs what SplitMain guarantees of the calls (`SplitMainCalls`): a
split is created once, and its accounts are distinct.  On the ledger this is
`Ledger.Joined`, with `Joined.step` as its step lemma; `Store.Integrity` is what it
says about the five tables.
-/
import SplitsSubgraph.Announce

namespace SplitsSubgraph

open KeyedTable Sweep

/-! ### What SplitMain guarantees -/

/-- The split that a `createSplit` call returns. -/
def Trigger.created : Trigger → Option Address
  | .createSplitCall call => some call.split
  | _ => none

/-- The outputs of the `createSplit` calls of a run. -/
def createdSplits (triggers : List Trigger) : List Address := triggers.filterMap Trigger.created

theorem createdSplits_append (pre post : List Trigger) :
    createdSplits (pre ++ post) = createdSplits pre ++ createdSplits post :=
  List.filterMap_append

theorem createdSplits_call (call : CreateSplitCall) (post : List Trigger) :
    createdSplits (.createSplitCall call :: post) = call.split :: createdSplits post := rfl

/-- Each call returns a new split, and lists distinct accounts, as many as
allocations. -/
structure SplitMainCalls (triggers : List Trigger) : Prop where
  fresh : (createdSplits triggers).Nodup
  distinct : ∀ call, .createSplitCall call ∈ triggers → call.accounts.Nodup
  length : ∀ call, .createSplitCall call ∈ triggers →
    call.accounts.length = call.percentAllocations.length

/-- A split that is created once is created by no other call. -/
theorem notMem_createdSplits {pre post : List Trigger} {call : CreateSplitCall}
    (h : (createdSplits (pre ++ .createSplitCall call :: post)).Nodup) :
    call.split ∉ createdSplits pre ∧ call.split ∉ createdSplits post := by
  rw [createdSplits_append, createdSplits_call, List.nodup_append, List.nodup_cons] at h
  exact ⟨fun hmem => h.2.2 _ hmem _ List.mem_cons_self rfl, h.2.1.1⟩

namespace SplitMainCalls

variable {pre post : List Trigger} {call : CreateSplitCall}

theorem append_left (h : SplitMainCalls (pre ++ post)) : SplitMainCalls pre where
  fresh := by
    have hfresh := h.fresh
    rw [createdSplits_append, List.nodup_append] at hfresh
    exact hfresh.1
  distinct := fun call hmem => h.distinct call (List.mem_append_left _ hmem)
  length := fun call hmem => h.length call (List.mem_append_left _ hmem)

theorem notMem_pre (h : SplitMainCalls (pre ++ .createSplitCall call :: post)) :
    call.split ∉ createdSplits pre :=
  (notMem_createdSplits h.fresh).1

theorem notMem_post (h : SplitMainCalls (pre ++ .createSplitCall call :: post)) :
    call.split ∉ createdSplits post :=
  (notMem_createdSplits h.fresh).2

end SplitMainCalls

/-- The data of a split is known only once a call has returned it. -/
theorem data_eq_none (m : SaveMode) {triggers : List Trigger} {s : Address}
    (h : s ∉ createdSplits triggers) : (ledger m triggers).data s = none := by
  by_contra hne
  obtain ⟨call, hmem, rfl, -⟩ := callHandled_of_isSome_data m (Option.isSome_iff_ne_none.mpr hne)
  exact h (List.mem_filterMap.mpr ⟨_, hmem, rfl⟩)

theorem allocations_eq_none (m : SaveMode) {triggers : List Trigger} {s : Address}
    (h : s ∉ createdSplits triggers) (r : Address) :
    (ledger m triggers).allocations s r = none := by
  by_contra hne
  obtain ⟨fee, rs, e⟩ := (valid_ledger m triggers).priced (Option.isSome_iff_ne_none.mpr hne)
  have hdata := data_eq_none m h
  simp [Ledger.data_eq_some.mpr e] at hdata

/-! ### On the ledger -/

namespace Ledger

variable {A H : Type}

/-- The lists of recipients and of splits are the join, without duplicates. -/
structure Joined (L : Ledger A H) : Prop where
  recipients : ∀ {s f rs}, L.splits s = some (f, rs) → rs.Nodup
  memberships : ∀ {r ss}, L.memberships r = some ss → ss.Nodup
  listed : ∀ {s r}, (L.allocations s r).isSome → ∃ f rs, L.splits s = some (f, rs) ∧ r ∈ rs

theorem joined_empty : Joined (empty : Ledger A H) where
  recipients := by simp [empty]
  memberships := by simp [empty]
  listed := by simp [empty]

namespace Joined

variable [DecidableEq A] {L : Ledger A H} {credit : ℤ → ℤ → ℤ → ℤ}

theorem announce (hj : L.Joined) (keep : Bool) (s : A) :
    (L.announce keep s).Joined := by
  rcases announce_eq_or L keep s with h | ⟨hnone, h⟩
  · rw [h]
    exact hj
  · rw [h]
    refine ⟨?_, hj.memberships, ?_⟩
    · intro s' f rs e
      by_cases hs : s' = s
      · subst hs
        simp only [Function.update_self, Option.some.injEq, Prod.mk.injEq] at e
        exact e.2 ▸ List.nodup_nil
      · simp only [Function.update_of_ne hs] at e
        exact hj.recipients e
    · intro s' r ha
      obtain ⟨f, rs, e, hr⟩ := hj.listed ha
      have hs : s' ≠ s := by
        rintro rfl
        simp [hnone] at e
      exact ⟨f, rs, by simp only [Function.update_of_ne hs, e], hr⟩

theorem create (hj : L.Joined) (hv : L.Valid) {s : A} {fee : ℤ} {accounts : List A}
    {allocations : List ℤ} (hfresh : L.data s = none) (hnd : accounts.Nodup) :
    (L.create s fee accounts allocations).Joined := by
  -- nobody is a member of a split that is not known yet
  have hnone : ∀ r, L.allocations s r = none := by
    intro r
    by_contra hne
    obtain ⟨fee', rs, e⟩ := hv.priced (Option.isSome_iff_ne_none.mpr hne)
    simp [data_eq_some.mpr e] at hfresh
  rcases Nat.lt_or_ge allocations.length accounts.length with hlen | hlen
  · rw [create_of_lt hlen]
    exact hj
  · rw [create_of_le hlen]
    refine ⟨?_, ?_, ?_⟩
    · intro s' f rs e
      by_cases hs : s' = s
      · subst hs
        simp only [Function.update_self, Option.some.injEq, Prod.mk.injEq] at e
        exact e.2 ▸ hnd
      · simp only [Function.update_of_ne hs] at e
        exact hj.recipients e
    · intro r ss e
      dsimp only at e
      split_ifs at e with hr
      · obtain rfl := Option.some.inj e
        rw [List.count_eq_one_of_mem hnd hr, List.replicate_one]
        rcases em : L.memberships r with - | ss
        · simp
        · have hs : s ∉ ss := by
            intro hs
            have ha := hv.member.mpr ⟨ss, em, hs⟩
            simp [hnone r] at ha
          rw [Option.getD_some, List.nodup_append]
          refine ⟨hj.memberships em, List.nodup_singleton s, ?_⟩
          intro x hx y hy
          rw [List.mem_singleton.mp hy]
          exact fun h => hs (h ▸ hx)
      · exact hj.memberships e
    · intro s' r ha
      by_cases hs : s' = s
      · subst hs
        have hr : r ∈ accounts := by
          by_contra hr
          simp [hr, hnone r] at ha
        exact ⟨some fee, accounts, by simp, hr⟩
      · simp only [hs, false_and, if_false] at ha
        obtain ⟨f, rs, e, hr⟩ := hj.listed ha
        exact ⟨f, rs, by simp only [Function.update_of_ne hs, e], hr⟩

theorem distribute (hj : L.Joined) (s t : A) (amount : ℤ) :
    (L.distribute credit s t amount).Joined where
  recipients := fun e => hj.recipients (by rwa [distribute_splits] at e)
  memberships := fun e => hj.memberships (by rwa [distribute_memberships] at e)
  listed := by
    intro s' r ha
    rw [distribute_allocations] at ha
    rw [distribute_splits]
    exact hj.listed ha

theorem withdraw [DecidableEq H] (hj : L.Joined) (h : H) (r : A) (tokens : List A)
    (timestamp : ℤ) : (L.withdraw h r tokens timestamp).Joined where
  recipients := fun e => hj.recipients (by rwa [withdraw_splits] at e)
  memberships := fun e => hj.memberships (by rwa [withdraw_memberships] at e)
  listed := by
    intro s' r' ha
    rw [withdraw_allocations] at ha
    rw [withdraw_splits]
    exact hj.listed ha

end Joined

end Ledger

theorem joined_ledger (m : SaveMode) {triggers : List Trigger} (h : SplitMainCalls triggers) :
    (ledger m triggers).Joined := by
  induction triggers using List.reverseRecOn with
  | nil => exact Ledger.joined_empty
  | append_singleton triggers trigger ih =>
    have hj := ih h.append_left
    have hv := valid_ledger m triggers
    rw [ledger_concat]
    cases trigger with
    | createSplit event => exact hj.announce _ _
    | createSplitCall call =>
      exact hj.create hv (data_eq_none m h.notMem_pre) (h.distinct call (by simp))
    | distributeETH event => exact hj.distribute _ _ _
    | distributeERC20 event => exact hj.distribute _ _ _
    | withdrawal event => exact hj.withdraw _ _ _ _

/-! ### On the store -/

/-- Referential integrity of the five tables. -/
structure Store.Integrity (st : Store) : Prop where
  /-- (i) no duplicates in the two lists -/
  recipients_nodup : ∀ s row ids, st.splits.lookup s = some row → row.recipients = some ids →
    ids.Nodup
  splits_nodup : ∀ r row ids, st.recipients.lookup r = some row → row.splits = some ids →
    ids.Nodup
  /-- (ii) every listed id is the id of a stored row of this split, or this recipient -/
  recipients_stored : ∀ s row ids x, st.splits.lookup s = some row → row.recipients = some ids →
    x ∈ ids → ∃ r join, x = joinIds [s, r] ∧ st.splitRecipients.lookup x = some join
      ∧ join.split = some s ∧ join.recipient = some r
  splits_stored : ∀ r row ids x, st.recipients.lookup r = some row → row.splits = some ids →
    x ∈ ids → ∃ s join, x = joinIds [s, r] ∧ st.splitRecipients.lookup x = some join
      ∧ join.split = some s ∧ join.recipient = some r
  /-- (iii) every stored row is listed exactly once on both sides -/
  joins_listed : ∀ x join, st.splitRecipients.lookup x = some join →
    ∃ s r split recipient ids ids', join.split = some s ∧ join.recipient = some r
      ∧ st.splits.lookup s = some split ∧ split.recipients = some ids ∧ ids.count x = 1
      ∧ st.recipients.lookup r = some recipient ∧ recipient.splits = some ids' ∧ ids'.count x = 1
  /-- (iv) token rows are filed under their split recipient, which is stored -/
  tokens_joined : ∀ id row, st.splitRecipientTokens.lookup id = some row →
    ∃ x t join, row.splitRecipient = some x ∧ row.tokenAddress = some t ∧ id = joinIds [x, t]
      ∧ st.splitRecipients.lookup x = some join
  /-- (v) history rows are about a stored join and one of its token rows -/
  history_joined : ∀ id row, st.splitRecipientWithdrawEvents.lookup id = some row →
    ∃ s r t split recipient join token, row.split = some s ∧ row.recipient = some r
      ∧ row.tokenAddress = some t ∧ st.splits.lookup s = some split
      ∧ st.recipients.lookup r = some recipient
      ∧ st.splitRecipients.lookup (joinIds [s, r]) = some join
      ∧ join.split = some s ∧ join.recipient = some r
      ∧ st.splitRecipientTokens.lookup (joinIds [joinIds [s, r], t]) = some token

section store

variable {st : Store} {L : Ledger Address LogId}

theorem Refines.exists_join (h : Refines st L) {s r : Address} (ha : (L.allocations s r).isSome) :
    ∃ join, st.splitRecipients.lookup (splitRecipientId s r) = some join
      ∧ join.split = some s.toHex ∧ join.recipient = some r.toHex := by
  obtain ⟨a, ea⟩ := Option.isSome_iff_exists.mp ha
  exact ⟨encodeJoin s r a, by rw [h.lookup_splitRecipient, ea, Option.map_some], rfl, rfl⟩

/-- The two rows of a join: the split and the recipient, each of which lists it
once. -/
theorem Refines.exists_sides (h : Refines st L) (hv : L.Valid) (hj : L.Joined) {s r : Address}
    (ha : (L.allocations s r).isSome) :
    ∃ split recipient ids ids', st.splits.lookup s.toHex = some split
      ∧ split.recipients = some ids ∧ ids.count (splitRecipientId s r) = 1
      ∧ st.recipients.lookup r.toHex = some recipient ∧ recipient.splits = some ids'
      ∧ ids'.count (splitRecipientId s r) = 1 := by
  obtain ⟨f, rs, es, hr⟩ := hj.listed ha
  obtain ⟨ss, em, hs⟩ := hv.member.mp ha
  refine ⟨encodeSplit s (f, rs), encodeRecipient r ss, rs.map (splitRecipientId s),
    ss.map fun s => splitRecipientId s r, ?_, rfl, ?_, ?_, rfl, ?_⟩
  · rw [h.lookup_split, es, Option.map_some]
  · rw [List.count_map_of_injective rs _ (fun _ _ e => (splitRecipientId_inj.mp e).2)]
    exact List.count_eq_one_of_mem (hj.recipients es) hr
  · rw [h.lookup_recipient, em, Option.map_some]
  · rw [List.count_map_of_injective ss (fun s => splitRecipientId s r)
      (fun _ _ e => (splitRecipientId_inj.mp e).1)]
    exact List.count_eq_one_of_mem (hj.memberships em) hs

theorem Refines.integrity (h : Refines st L) (hv : L.Valid) (hj : L.Joined) : st.Integrity where
  recipients_nodup := by
    intro id row ids e hids
    obtain ⟨s, ⟨f, rs⟩, rfl, es, rfl⟩ := h.splits.exists_of_lookup e
    obtain rfl := Option.some.inj hids
    exact (hj.recipients es).map fun _ _ e => (splitRecipientId_inj.mp e).2
  splits_nodup := by
    intro id row ids e hids
    obtain ⟨r, ss, rfl, em, rfl⟩ := h.recipients.exists_of_lookup e
    obtain rfl := Option.some.inj hids
    exact (hj.memberships em).map fun _ _ e => (splitRecipientId_inj.mp e).1
  recipients_stored := by
    intro id row ids x e hids hx
    obtain ⟨s, ⟨f, rs⟩, rfl, es, rfl⟩ := h.splits.exists_of_lookup e
    obtain rfl := Option.some.inj hids
    obtain ⟨r, hr, rfl⟩ := List.mem_map.mp hx
    obtain ⟨join, hjoin⟩ := h.exists_join (hv.listed es hr)
    exact ⟨r.toHex, join, rfl, hjoin⟩
  splits_stored := by
    intro id row ids x e hids hx
    obtain ⟨r, ss, rfl, em, rfl⟩ := h.recipients.exists_of_lookup e
    obtain rfl := Option.some.inj hids
    obtain ⟨s, hs, rfl⟩ := List.mem_map.mp hx
    obtain ⟨join, hjoin⟩ := h.exists_join (hv.member.mpr ⟨ss, em, hs⟩)
    exact ⟨s.toHex, join, rfl, hjoin⟩
  joins_listed := by
    intro x join e
    obtain ⟨⟨s, r⟩, a, rfl, ea, rfl⟩ := h.splitRecipients.exists_of_lookup e
    obtain ⟨split, recipient, ids, ids', hsides⟩ :=
      h.exists_sides hv hj (s := s) (r := r) (by rw [ea]; rfl)
    exact ⟨s.toHex, r.toHex, split, recipient, ids, ids', rfl, rfl, hsides⟩
  tokens_joined := by
    intro id row e
    obtain ⟨⟨s, r, t⟩, b, rfl, eb, rfl⟩ := h.tokens.exists_of_lookup e
    obtain ⟨join, hjoin, -⟩ := h.exists_join (hv.credited (by rw [eb]; rfl))
    exact ⟨splitRecipientId s r, t.toHex, join, rfl, rfl, rfl, hjoin⟩
  history_joined := by
    intro id row e
    obtain ⟨⟨log, r⟩, entry, rfl, ee, rfl⟩ := h.history.exists_of_lookup e
    have hb := hv.recorded ee
    have ha := hv.credited hb
    obtain ⟨b, eb⟩ := Option.isSome_iff_exists.mp hb
    obtain ⟨join, hjoin, hs, hr⟩ := h.exists_join ha
    obtain ⟨split, recipient, -, -, hsplit, -, -, hrecipient, -⟩ := h.exists_sides hv hj ha
    refine ⟨entry.split.toHex, r.toHex, entry.token.toHex, split, recipient, join,
      encodeBalance entry.split r entry.token b, rfl, rfl, rfl, hsplit, hrecipient, hjoin, hs, hr,
      ?_⟩
    have hrow := h.lookup_token entry.split r entry.token
    rw [eb, Option.map_some] at hrow
    exact hrow

end store

/-- **Referential integrity**: in every run whose calls are as SplitMain guarantees,
the two lists, the join table, the token rows and the history agree. -/
theorem integrity_run (m : SaveMode) (triggers : List Trigger) (h : SplitMainCalls triggers) :
    (run m triggers).Integrity :=
  (refines_run m triggers).integrity (valid_ledger m triggers) (joined_ledger m h)

theorem integrity_run_oneSplit :
    (run .plain
      [ .createSplitCall
          ⟨[Address.filled 2, Address.filled 3], [500000, 500000], 0, Address.filled 1⟩,
        .createSplit ⟨Address.filled 1⟩, .distributeETH ⟨Address.filled 1, 10⟩ ]).Integrity := by
  refine integrity_run .plain _ ⟨by decide, ?_, ?_⟩
  · intro call hmem
    obtain rfl : call = _ := by simpa using hmem
    decide
  · intro call hmem
    obtain rfl : call = _ := by simpa using hmem
    rfl

end SplitsSubgraph
