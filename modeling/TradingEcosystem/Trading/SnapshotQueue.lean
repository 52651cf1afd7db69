import TradingEcosystem.Trading.MarketDataConsumer

/-!
# The Queued Snapshot

What the queue of snapshot messages may hold between two messages, and what becomes of it: it is
empty or holds the messages `0`, …, `n` of a cycle that is not finished, and one more message
continues it, starts it again or empties it.

- `SnapshotQueue.collect` : the queued messages after one more
- `MarketDataConsumer.queueMessage_snapshot` : the map in the code follows it
- `MarketDataConsumer.Queued` : the invariant, `MarketDataConsumer.queued_run`
-/

namespace TradingEcosystem

open Lib (SortedMap)

namespace SnapshotQueue

/-! ## The abstract queue -/

/-- The queue begins with a `SNAPSHOT_START`. -/
def Started (queued : List MEMarketUpdate) : Prop :=
  ∀ u ∈ queued.head?, u.type_ = .SNAPSHOT_START

/-- The queue does not end with a `SNAPSHOT_END`. -/
def Unfinished (queued : List MEMarketUpdate) : Prop :=
  ∀ u ∈ queued.getLast?, u.type_ ≠ .SNAPSHOT_END

instance (queued : List MEMarketUpdate) : Decidable (Started queued) :=
  inferInstanceAs (Decidable (∀ u ∈ queued.head?, u.type_ = .SNAPSHOT_START))

/-- The messages in order that are there after one more: a message 0 is the first one, and one
that does not follow the last leaves none. -/
def candidate (queued : List MEMarketUpdate) (request : MDPMarketUpdate) : List MEMarketUpdate :=
  if request.seq_num_ = 0 then
    [request.me_market_update_]
  else if request.seq_num_ = queued.length then
    queued ++ [request.me_market_update_]
  else
    []

/-- The queued messages after one more. -/
def collect (queued : List MEMarketUpdate) (request : MDPMarketUpdate) : List MEMarketUpdate :=
  if Started (candidate queued request) then candidate queued request else []

/-- The messages to forward. -/
def events (queued : List MEMarketUpdate) : List MEMarketUpdate :=
  queued.filter fun u => decide u.IsEvent

theorem events_cons_of_isEvent {u : MEMarketUpdate} {queued : List MEMarketUpdate}
    (h : u.IsEvent) : events (u :: queued) = u :: events queued := by
  simp [events, h]

theorem events_cons_of_not_isEvent {u : MEMarketUpdate} {queued : List MEMarketUpdate}
    (h : ¬ u.IsEvent) : events (u :: queued) = events queued := by
  simp [events, h]

theorem started_nil : Started [] := by
  intro u hu
  cases hu

theorem unfinished_nil : Unfinished [] := by
  intro u hu
  cases hu

theorem collect_gap {queued : List MEMarketUpdate} {request : MDPMarketUpdate}
    (hzero : request.seq_num_ ≠ 0) (hnext : request.seq_num_ ≠ queued.length) :
    collect queued request = [] := by
  unfold collect candidate
  rw [if_neg hzero, if_neg hnext, if_pos started_nil]

theorem exists_end_of_not_unfinished {queued : List MEMarketUpdate} (h : ¬ Unfinished queued) :
    ∃ last, queued.getLast? = some last ∧ last.type_ = .SNAPSHOT_END := by
  by_contra hno
  apply h
  intro u hu hend
  exact hno ⟨u, hu, hend⟩

theorem started_collect (queued : List MEMarketUpdate) (request : MDPMarketUpdate) :
    Started (collect queued request) := by
  unfold collect
  split
  · assumption
  · exact started_nil

theorem started_cons_iff {u : MEMarketUpdate} {queued : List MEMarketUpdate} :
    Started (u :: queued) ↔ u.type_ = .SNAPSHOT_START := by
  simp [Started]

end SnapshotQueue

namespace MarketDataConsumer

open SnapshotQueue

variable {c : MarketDataConsumer} {request : MDPMarketUpdate} {queued : List MEMarketUpdate}

/-! ## The loop over the queue -/

theorem collectSnapshot_zipIdx (queued : List MEMarketUpdate) : ∀ first : ℕ,
    collectSnapshot first ((queued.zipIdx first).map Prod.swap) =
      some (events queued) := by
  induction queued with
  | nil =>
    intro first
    rfl
  | cons u queued ih =>
    intro first
    simp only [List.zipIdx_cons, List.map_cons, Prod.swap_prod_mk, collectSnapshot, ne_eq,
      not_true_eq_false, if_false]
    split
    · next h => rw [ih, events_cons_of_isEvent h, Option.map_some]
    · next h => rw [ih, events_cons_of_not_isEvent h]

/-- A message beyond the next number is a gap. -/
theorem collectSnapshot_gap {last : ℕ × MEMarketUpdate} (queued : List MEMarketUpdate) :
    ∀ first : ℕ, last.1 ≠ first + queued.length →
      collectSnapshot first ((queued.zipIdx first).map Prod.swap ++ [last]) = none := by
  induction queued with
  | nil =>
    intro first hlast
    simp only [List.zipIdx_nil, List.map_nil, List.nil_append, collectSnapshot]
    rw [if_pos (by simpa using hlast)]
  | cons u queued ih =>
    intro first hlast
    have hlast' : last.1 ≠ first + 1 + queued.length := by
      rw [List.length_cons] at hlast
      omega
    simp only [List.zipIdx_cons, List.map_cons, Prod.swap_prod_mk, List.cons_append, collectSnapshot,
      ne_eq, not_true_eq_false, if_false, ih (first + 1) hlast']
    split
    · rfl
    · rfl

theorem getLastD_zipIdx (queued : List MEMarketUpdate) (first : ℕ) (p : ℕ × MEMarketUpdate) :
    (((queued.zipIdx first).map Prod.swap).getLastD p).2 = queued.getLastD p.2 := by
  induction queued using List.reverseRecOn with
  | nil => rfl
  | append_singleton queued u _ => simp [List.zipIdx_append]

/-! ## A check of messages in order -/

theorem checkSnapshotSync_enum {u : MEMarketUpdate}
    (hq : c.snapshot_queued_msgs_ = .enum (u :: queued)) (hstart : u.type_ = .SNAPSHOT_START) :
    c.checkSnapshotSync =
      if (queued.getLastD u).type_ ≠ .SNAPSHOT_END then
        c
      else
        c.finishSync (events (u :: queued)) (queued.getLastD u) := by
  have hentries : c.snapshot_queued_msgs_.entries = (0, u) :: (queued.zipIdx 1).map Prod.swap := by
    rw [hq]
    rfl
  have hcollect : collectSnapshot 0 ((0, u) :: (queued.zipIdx 1).map Prod.swap) =
      some (events (u :: queued)) :=
    collectSnapshot_zipIdx (u :: queued) 0
  unfold checkSnapshotSync
  rw [hentries]
  simp only [hstart, ne_eq, not_true_eq_false, if_false, hcollect, getLastD_zipIdx]

/-- Messages in order that are not all there are left as they are. -/
theorem checkSnapshotSync_unfinished (hq : c.snapshot_queued_msgs_ = .enum queued)
    (hstart : Started queued) (hunf : Unfinished queued) : c.checkSnapshotSync = c := by
  cases queued with
  | nil =>
    unfold checkSnapshotSync
    rw [hq]
    rfl
  | cons u queued =>
    rw [checkSnapshotSync_enum hq (started_cons_iff.mp hstart), if_pos]
    rw [List.getLastD_eq_getLast?]
    exact hunf _ List.getLast?_cons

/-- A whole snapshot ends the check one way or the other. -/
theorem checkSnapshotSync_finished {last : MEMarketUpdate}
    (hq : c.snapshot_queued_msgs_ = .enum queued) (hstart : Started queued)
    (hlast : queued.getLast? = some last) (hend : last.type_ = .SNAPSHOT_END) :
    c.checkSnapshotSync = c.finishSync (events queued) last := by
  cases queued with
  | nil => cases hlast
  | cons u queued =>
    rw [List.getLast?_cons, Option.some.injEq, ← List.getLastD_eq_getLast?] at hlast
    rw [checkSnapshotSync_enum hq (started_cons_iff.mp hstart), hlast, if_neg (not_not.mpr hend)]

/-! ## One more message -/

/-- Messages that do not begin with a `SNAPSHOT_START`, or have a gap, are dropped. -/
theorem checkSnapshotSync_dropped {entries : List (ℕ × MEMarketUpdate)}
    (hq : c.snapshot_queued_msgs_.entries = entries) (hne : entries ≠ [])
    (h : (∀ p ∈ entries.head?, p.2.type_ ≠ .SNAPSHOT_START) ∨ collectSnapshot 0 entries = none) :
    c.checkSnapshotSync = c.clearSnapshot := by
  cases entries with
  | nil => exact absurd rfl hne
  | cons p l =>
    unfold checkSnapshotSync
    rw [hq]
    rcases h with h | h
    · exact if_pos (h p rfl)
    · simp only [h]
      split
      · rfl
      · rfl

theorem checkSnapshotSync_not_started (hq : c.snapshot_queued_msgs_ = .enum queued)
    (hstart : ¬ Started queued) : c.checkSnapshotSync = c.clearSnapshot := by
  cases queued with
  | nil => exact absurd started_nil hstart
  | cons u queued =>
    have hentries : c.snapshot_queued_msgs_.entries =
        (0, u) :: (queued.zipIdx 1).map Prod.swap := by
      rw [hq]
      rfl
    refine checkSnapshotSync_dropped hentries (List.cons_ne_nil _ _) (.inl ?_)
    intro p hp
    cases hp
    exact fun hu => hstart (started_cons_iff.mpr hu)

theorem checkSnapshotSync_clear (c : MarketDataConsumer) :
    { c with snapshot_queued_msgs_ := .enum [] }.checkSnapshotSync = c.clearSnapshot :=
  checkSnapshotSync_unfinished rfl started_nil unfinished_nil

/-- A message whose number is not the next one, and not 0, empties the queue. -/
theorem queueMessage_gap (hq : c.snapshot_queued_msgs_ = .enum queued)
    (hzero : request.seq_num_ ≠ 0) (hnext : request.seq_num_ ≠ queued.length) :
    c.queueMessage true request = c.clearSnapshot := by
  unfold queueMessage
  rw [if_pos rfl]
  split
  · -- received for the second time: alone in the queue, and not with the number 0
    refine checkSnapshotSync_dropped rfl (List.cons_ne_nil _ _) (.inr ?_)
    exact if_pos hzero
  · next hcontains =>
    have hlen : queued.length < request.seq_num_ := by
      rw [hq, SortedMap.contains_enum] at hcontains
      omega
    have hentries : (c.snapshot_queued_msgs_.insert request.seq_num_
          request.me_market_update_).entries =
        queued.zipIdx.map Prod.swap ++ [(request.seq_num_, request.me_market_update_)] := by
      rw [hq]
      exact SortedMap.insert_of_forall_lt fun p hp => (SortedMap.lt_of_mem_enum hp).trans hlen
    refine checkSnapshotSync_dropped hentries (List.concat_ne_nil _ _) (.inr ?_)
    apply collectSnapshot_gap
    simpa using hnext

/-- A message with the next number is put behind the others, and one with the number 0 replaces
them. -/
theorem queueMessage_next (hq : c.snapshot_queued_msgs_ = .enum queued)
    (hnext : request.seq_num_ = 0 ∨ request.seq_num_ = queued.length) :
    c.queueMessage true request =
      { c with
        snapshot_queued_msgs_ := .enum (candidate queued request) }.checkSnapshotSync := by
  unfold queueMessage candidate
  rw [if_pos rfl, hq]
  split
  · next hcontains =>
    have hzero : request.seq_num_ = 0 := by
      rw [SortedMap.contains_enum] at hcontains
      omega
    rw [if_pos hzero, hzero]
    rfl
  · next hcontains =>
    have hlen : request.seq_num_ = queued.length := by
      rw [SortedMap.contains_enum] at hcontains
      omega
    rw [hlen, SortedMap.insert_enum]
    split
    · next hzero =>
      rw [List.length_eq_zero_iff.mp hzero]
      rfl
    · rw [if_pos rfl]

/-- **The map in the code follows the abstract queue**: a snapshot message makes of the queued
messages what `collect` says, and they are checked. -/
theorem queueMessage_snapshot (hq : c.snapshot_queued_msgs_ = .enum queued) :
    c.queueMessage true request =
      { c with
        snapshot_queued_msgs_ := .enum (collect queued request) }.checkSnapshotSync := by
  by_cases hnext : request.seq_num_ = 0 ∨ request.seq_num_ = queued.length
  · rw [queueMessage_next hq hnext]
    unfold collect
    split
    · rfl
    · next hstart =>
      rw [checkSnapshotSync_clear]
      exact checkSnapshotSync_not_started rfl hstart
  · rw [not_or] at hnext
    rw [queueMessage_gap hq hnext.1 hnext.2, collect_gap hnext.1 hnext.2, checkSnapshotSync_clear]

/-- An incremental is put into its own queue. -/
theorem queueMessage_incremental (hq : c.snapshot_queued_msgs_ = .enum queued)
    (hstart : Started queued) (hunf : Unfinished queued) :
    c.queueMessage false request =
      { c with
        incremental_queued_msgs_ :=
          c.incremental_queued_msgs_.insert request.seq_num_ request.me_market_update_ } :=
  checkSnapshotSync_unfinished hq hstart hunf

/-! ## The invariant -/

/-- The queue holds the first messages of an unfinished snapshot, and none out of recovery. -/
structure Queued (c : MarketDataConsumer) (queued : List MEMarketUpdate) : Prop where
  queue_eq : c.snapshot_queued_msgs_ = .enum queued
  started : Started queued
  unfinished : Unfinished queued
  in_recovery : queued ≠ [] → c.in_recovery_ = true

theorem queued_nil (hq : c.snapshot_queued_msgs_ = .empty) : Queued c [] where
  queue_eq := hq
  started := started_nil
  unfinished := unfinished_nil
  in_recovery := fun h => absurd rfl h

theorem queued_finishSync (snapshot_events : List MEMarketUpdate) (last : MEMarketUpdate) :
    Queued (c.finishSync snapshot_events last) [] := by
  apply queued_nil
  unfold finishSync
  split
  · rfl
  · rfl

/-- One more snapshot message of a recovery, when it does not finish the snapshot. -/
theorem queueMessage_unfinished (h : Queued c queued)
    (hunf : Unfinished (collect queued request)) :
    c.queueMessage true request =
      { c with snapshot_queued_msgs_ := .enum (collect queued request) } := by
  rw [queueMessage_snapshot h.queue_eq]
  exact checkSnapshotSync_unfinished rfl (started_collect _ _) hunf

theorem Queued.snapshot (h : Queued c queued) (hrec : c.in_recovery_ = true)
    (hunf : Unfinished (collect queued request)) :
    Queued (c.queueMessage true request) (collect queued request) := by
  rw [queueMessage_unfinished h hunf]
  exact ⟨rfl, started_collect _ _, hunf, fun _ => hrec⟩

theorem Queued.incremental (h : Queued c queued) :
    Queued (c.queueMessage false request) queued := by
  rw [queueMessage_incremental h.queue_eq h.started h.unfinished]
  exact ⟨h.queue_eq, h.started, h.unfinished, h.in_recovery⟩

theorem Queued.eq_nil (h : Queued c queued) (hrec : c.in_recovery_ = false) : queued = [] := by
  by_contra hne
  rw [h.in_recovery hne] at hrec
  cases hrec

/-- An incremental does not change what is queued of a snapshot. -/
theorem Queued.onMessage_incremental (h : Queued c queued) :
    Queued (c.onMessage false request) queued := by
  unfold onMessage
  split
  · exact h.incremental
  · next hrec =>
    have hnil := h.eq_nil (by simpa using hrec)
    subst hnil
    split
    · exact (queued_nil rfl).incremental
    · exact queued_nil h.queue_eq

/-- Queueing a message in a recovery keeps the invariant. -/
theorem exists_queued_queueMessage (h : Queued c queued) (hrec : c.in_recovery_ = true)
    (is_snapshot : Bool) : ∃ queued', Queued (c.queueMessage is_snapshot request) queued' := by
  cases is_snapshot with
  | false => exact ⟨queued, h.incremental⟩
  | true =>
    by_cases hunf : Unfinished (collect queued request)
    · exact ⟨_, h.snapshot hrec hunf⟩
    · obtain ⟨last, hlast, hend⟩ := exists_end_of_not_unfinished hunf
      refine ⟨[], ?_⟩
      rw [queueMessage_snapshot h.queue_eq]
      rw [checkSnapshotSync_finished rfl (started_collect _ _) hlast hend]
      exact queued_finishSync ..

theorem exists_queued_onMessage (h : ∃ queued, Queued c queued) (is_snapshot : Bool) :
    ∃ queued, Queued (c.onMessage is_snapshot request) queued := by
  obtain ⟨queued, h⟩ := h
  unfold onMessage
  split
  · next hrec => exact exists_queued_queueMessage h hrec is_snapshot
  · split
    · exact exists_queued_queueMessage (queued_nil rfl) rfl is_snapshot
    · split
      · exact ⟨queued, h⟩
      · exact ⟨queued, h.queue_eq, h.started, h.unfinished, h.in_recovery⟩

/-- **At every moment of every run** the queue holds the first messages of an unfinished
snapshot. -/
theorem exists_queued_run (cbs : List (Callback MDPMarketUpdate)) :
    ∃ queued, Queued (new.run cbs) queued := by
  have hnew : ∃ queued, Queued new queued := ⟨[], queued_nil rfl⟩
  exact invariant_run (I := fun c => ∃ queued, Queued c queued) (D := fun _ _ => True) hnew
    (fun _ is_snapshot _ h _ => exists_queued_onMessage h is_snapshot) cbs fun _ _ _ _ => trivial

end MarketDataConsumer

end TradingEcosystem
