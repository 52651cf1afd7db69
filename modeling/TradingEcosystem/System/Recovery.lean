import TradingEcosystem.Lib.Runs
import TradingEcosystem.Trading.SnapshotQueue
import TradingEcosystem.System.Snapshot

/-!
# Recovery from a Snapshot

The cycles of the snapshot synthesizer and the consumer that recovers from them.

- `isEvent_of_mem_sent` : what the exchange publishes on the incremental stream
- `Snapshot` : a cycle, and `SnapshotSynthesizer.exists_snapshot` : what is published is one
- `MarketDataConsumer.recovery_completes` : a cycle that arrives whole ends the recovery
- `MarketDataConsumer.usesOneCycle` : when a recovery is from one cycle, and
  `MarketDataConsumer.mixedRun`, which mixes two
-/

namespace TradingEcosystem

open Lib (SortedMap)

/-! ## Cycles -/

/-- A snapshot: the number of the last incremental in it, and what it forwards. -/
structure Snapshot where
  last_inc_seq_num_ : ℕ
  events : List MEMarketUpdate
  isEvent : ∀ u ∈ events, u.IsEvent

namespace Snapshot

variable {s : Snapshot}

def startUpdate (s : Snapshot) : MEMarketUpdate :=
  { type_ := .SNAPSHOT_START, order_id_ := s.last_inc_seq_num_ }

def endUpdate (s : Snapshot) : MEMarketUpdate :=
  { type_ := .SNAPSHOT_END, order_id_ := s.last_inc_seq_num_ }

/-- The cycle without its `SNAPSHOT_END`. -/
def opening (s : Snapshot) : List MEMarketUpdate := s.startUpdate :: s.events

def updates (s : Snapshot) : List MEMarketUpdate := s.opening ++ [s.endUpdate]

/-- The messages of the cycle. -/
def messages (s : Snapshot) : List MDPMarketUpdate := numbered 0 s.updates

def endMessage (s : Snapshot) : MDPMarketUpdate where
  seq_num_ := s.opening.length
  me_market_update_ := s.endUpdate

theorem messages_mk (n : ℕ) (events : List MEMarketUpdate) (h : ∀ u ∈ events, u.IsEvent) :
    (Snapshot.mk n events h).messages =
      numbered 0 ({ type_ := .SNAPSHOT_START, order_id_ := n } ::
        (events ++ [{ type_ := .SNAPSHOT_END, order_id_ := n }])) := rfl

theorem messages_eq (s : Snapshot) : s.messages = numbered 0 s.opening ++ [s.endMessage] := by
  unfold messages updates
  rw [numbered_append, Nat.zero_add]
  rfl

theorem events_updates (s : Snapshot) : SnapshotQueue.events s.updates = s.events := by
  have hstart : ¬ s.startUpdate.IsEvent := fun h => h.1 rfl
  have hend : ¬ s.endUpdate.IsEvent := fun h => h.2 rfl
  have hfilter : s.events.filter (fun u => decide u.IsEvent) = s.events :=
    List.filter_eq_self.mpr fun u hu => decide_eq_true (s.isEvent u hu)
  simp [SnapshotQueue.events, updates, opening, hstart, hend, hfilter]

/-- Only the last message is a `SNAPSHOT_END`. -/
theorem type_ne_end {u : MEMarketUpdate} (hu : u ∈ s.opening) : u.type_ ≠ .SNAPSHOT_END := by
  rcases List.mem_cons.mp hu with rfl | hu
  · exact MarketUpdateType.noConfusion
  · exact (s.isEvent u hu).2

theorem unfinished_take (s : Snapshot) (n : ℕ) :
    SnapshotQueue.Unfinished (s.opening.take n) :=
  fun _ hu => type_ne_end (List.mem_of_mem_take (List.mem_of_getLast? hu))

end Snapshot

namespace SnapshotSynthesizer

variable {s s' : SnapshotSynthesizer} {u : MEMarketUpdate}

/-- Whatever the pool holds, it is no marker: an order keeps the type it was added with. -/
theorem isEvent_get_applyUpdate (h : ∀ p, (s.order_pool_.get p).IsEvent)
    (hrun : s.applyUpdate u = .ok s') : ∀ p, (s'.order_pool_.get p).IsEvent := by
  intro p
  unfold applyUpdate at hrun
  split at hrun
  · next htype =>
    obtain ⟨entry, -, hrun⟩ := bind_eq_ok.mp hrun
    cases entry with
    | some _ => cases hrun
    | none =>
      obtain ⟨⟨order, pool⟩, halloc, heq⟩ := bind_eq_ok.mp hrun
      cases heq
      show (pool.get p).IsEvent
      rw [MemPool.get_allocate halloc]
      split
      · exact ⟨by simp [htype], by simp [htype]⟩
      · exact h p
  · obtain ⟨order, -, heq⟩ := bind_eq_ok.mp hrun
    cases heq
    rw [MemPool.get_modify]
    split
    · exact h order
    · exact h p
  · obtain ⟨order, -, hrun⟩ := bind_eq_ok.mp hrun
    obtain ⟨pool, hpool, heq⟩ := bind_eq_ok.mp hrun
    cases heq
    show (pool.get p).IsEvent
    rw [MemPool.get_deallocate hpool]
    exact h p
  all_goals
    cases hrun
    exact h p

theorem isEvent_get_run {market_updates : List MDPMarketUpdate}
    (hrun : new.run market_updates = .ok s) : ∀ p, (s.order_pool_.get p).IsEvent := by
  have hnew : ∀ p, (new.order_pool_.get p).IsEvent :=
    fun _ => ⟨MarketUpdateType.noConfusion, MarketUpdateType.noConfusion⟩
  refine Lib.Runs.invariant_of_step (I := fun s => ∀ p, (s.order_pool_.get p).IsEvent) ?_ hnew hrun
  intro s u s' h hstep
  unfold addToSnapshot at hstep
  split at hstep
  · obtain ⟨s₁, hs₁, hstep⟩ := bind_eq_ok.mp hstep
    have h₁ := isEvent_get_applyUpdate h hs₁
    split at hstep
    · cases hstep
      exact h₁
    · cases hstep
  · cases hstep

/-- **What is published is a cycle**, whatever updates the synthesizer was given. -/
theorem exists_snapshot {market_updates : List MDPMarketUpdate}
    (hrun : new.run market_updates = .ok s) :
    ∃ snapshot : Snapshot, snapshot.last_inc_seq_num_ = s.last_inc_seq_num_ ∧
      s.publishSnapshot = snapshot.messages := by
  have hpool := isEvent_get_run hrun
  refine ⟨⟨s.last_inc_seq_num_, (List.range ME_MAX_TICKERS).flatMap s.tickerUpdates, ?_⟩, rfl,
    (Snapshot.messages_mk ..).symm⟩
  intro u hu
  obtain ⟨t, -, hu⟩ := List.mem_flatMap.mp hu
  rcases List.mem_cons.mp hu with rfl | hu
  · exact ⟨MarketUpdateType.noConfusion, MarketUpdateType.noConfusion⟩
  · obtain ⟨oid, -, hu⟩ := List.mem_filterMap.mp hu
    obtain ⟨order, -, rfl⟩ := Option.map_eq_some_iff.mp hu
    exact hpool order

end SnapshotSynthesizer

/-! ## The incremental stream -/

namespace PriorityBook

open MEOrderBook (Call)

theorem isEvent_sweep {ticker_id : ℕ} {taker : MEOrderInfo} (makers : List MEOrderInfo) :
    ∀ {leaves : ℕ}, ∀ u ∈ marketUpdates (sweep ticker_id taker makers leaves).2.2, u.IsEvent := by
  induction makers with
  | nil =>
    intro leaves u hu
    cases hu
  | cons maker makers ih =>
    intro leaves
    have hfill : ∀ fill rest : ℕ,
        ∀ u ∈ marketUpdates (fillEvents ticker_id taker maker fill rest), u.IsEvent := by
      intro fill rest u hu
      obtain ⟨trade, u', heq, htrade, -, hcancel, hmodify⟩ :=
        marketUpdates_fillEvents ticker_id taker maker fill rest
      rw [heq, List.mem_pair] at hu
      rcases hu with rfl | rfl
      · simp [MEMarketUpdate.IsEvent, htrade]
      · by_cases hqty : maker.qty_ = fill
        · simp [MEMarketUpdate.IsEvent, hcancel hqty]
        · simp [MEMarketUpdate.IsEvent, (hmodify hqty).1]
    simp only [sweep]
    split
    · intro u hu
      cases hu
    · split
      · intro u hu
        rw [marketUpdates_append] at hu
        exact (List.mem_append.mp hu).elim (hfill _ _ u) (ih u)
      · exact hfill _ _

theorem isEvent_step (P : PriorityBook) (ticker_id : ℕ) (c : Call) :
    ∀ u ∈ marketUpdates (P.step ticker_id c).2, u.IsEvent := by
  intro u hu
  cases c with
  | add client_id client_order_id s price qty =>
    unfold step at hu
    rw [marketUpdates_add] at hu
    rcases List.mem_append.mp hu with hu | hu
    · exact isEvent_sweep _ u hu
    · split at hu
      · cases hu
      · rw [List.mem_singleton.mp hu]
        exact ⟨MarketUpdateType.noConfusion, MarketUpdateType.noConfusion⟩
  | cancel client_id order_id =>
    have hu : u ∈ marketUpdates (P.cancel ticker_id client_id order_id).2 := hu
    unfold cancel at hu
    split at hu
    · cases hu
    · rw [List.mem_singleton.mp hu]
      exact ⟨MarketUpdateType.noConfusion, MarketUpdateType.noConfusion⟩

end PriorityBook

/-- **The exchange publishes no snapshot markers as incrementals.** -/
theorem isEvent_of_mem_sent {requests : List MEClientRequest} {e : MatchingEngine}
    (hdis : MatchingEngine.Dispatched requests)
    (hadm : ∀ t, t < ME_MAX_TICKERS → PriorityBook.empty.Admitted t (callsOf t requests))
    (hrun : MatchingEngine.new.run requests = .ok e) :
    ∀ u ∈ marketUpdates e.sent, u.IsEvent := by
  refine List.forall_mem_filterMap.mpr (MatchingEngine.forall_sent (I := fun _ => True)
    (G := fun _ => True) hdis hadm hrun trivial (fun _ _ _ => trivial) fun t _ P c _ _ _ _ => ?_)
  exact ⟨trivial, List.forall_mem_filterMap.mp (P.isEvent_step t c)⟩

namespace MarketDataConsumer

open SnapshotQueue

variable {c c₀ : MarketDataConsumer} {s : Snapshot} {request : MDPMarketUpdate}

/-! ## Replaying the queued incrementals -/

/-- The queued incrementals with a number above `n`. -/
def above (c : MarketDataConsumer) (n : ℕ) : List (ℕ × MEMarketUpdate) :=
  c.incremental_queued_msgs_.entries.filter fun p => decide (n < p.1)

/-- Incrementals with consecutive numbers are all replayed, whatever is queued before them. -/
theorem replay_contiguous {queue : List (ℕ × MEMarketUpdate)} (hevent : ∀ p ∈ queue, p.2.IsEvent) :
    ∀ {n count : ℕ},
      (queue.filter fun p => decide (n < p.1)).map Prod.fst = List.range' (n + 1) count →
      replay (n + 1) queue =
        (n + 1 + count, some ((queue.filter fun p => decide (n < p.1)).map Prod.snd)) := by
  induction queue with
  | nil =>
    intro n count h
    have hcount : count = 0 := by simpa using h
    rw [hcount]
    rfl
  | cons p queue ih =>
    intro n count h
    obtain ⟨seq, u⟩ := p
    obtain ⟨hu, hrest⟩ := List.forall_mem_cons.mp hevent
    rw [replay]
    by_cases hlt : seq < n + 1
    · have hle : seq ≤ n := Nat.le_of_lt_succ hlt
      have hfilter : ((seq, u) :: queue).filter (fun p => decide (n < p.1)) =
          queue.filter fun p => decide (n < p.1) := by simp [hle]
      rw [hfilter] at h ⊢
      rw [if_pos hlt]
      exact ih hrest h
    · have hle : n < seq := by omega
      have hfilter : ((seq, u) :: queue).filter (fun p => decide (n < p.1)) =
          (seq, u) :: queue.filter fun p => decide (n < p.1) := by simp [hle]
      rw [hfilter, List.map_cons] at h
      cases count with
      | zero => cases h
      | succ count =>
        rw [List.range'_succ, List.cons.injEq] at h
        obtain ⟨hseq, hkeys⟩ := h
        have hseq : seq = n + 1 := hseq
        -- the number `n + 1` does not come twice
        have hnext : (queue.filter fun p => decide (n + 1 < p.1)) =
            queue.filter fun p => decide (n < p.1) := by
          apply List.filter_congr
          intro p hp
          rw [decide_eq_decide]
          refine ⟨fun h => by omega, fun h => ?_⟩
          have hmem : p.1 ∈ List.range' (n + 1 + 1) count := by
            rw [← hkeys]
            exact List.mem_map_of_mem (List.mem_filter.mpr ⟨hp, decide_eq_true h⟩)
          exact (List.mem_range'_1.mp hmem).1
        rw [← hnext] at hkeys
        rw [hfilter, ← hnext, if_neg hlt, if_neg (not_not.mpr hseq), if_pos hu, ih hrest hkeys]
        simp only [List.map_cons, Option.map_some]
        rw [Nat.add_assoc (n + 1) 1 count, Nat.add_comm 1 count]

/-! ## A cycle that arrives whole -/

/-- The messages of the snapshot stream that were delivered. -/
def snapshotMessages {μ : Type} (cbs : List (Callback μ)) : List μ :=
  (cbs.filter Callback.is_snapshot).flatMap Callback.messages

@[simp] theorem snapshotMessages_concat_incremental {μ : Type} (cbs : List (Callback μ))
    (ms : List μ) : snapshotMessages (cbs ++ [⟨false, ms⟩]) = snapshotMessages cbs := by
  simp [snapshotMessages]

@[simp] theorem snapshotMessages_concat_snapshot {μ : Type} (cbs : List (Callback μ))
    (ms : List μ) : snapshotMessages (cbs ++ [⟨true, ms⟩]) = snapshotMessages cbs ++ ms := by
  simp [snapshotMessages]

/-- The consumer after `n` messages of the cycle, since it was in the state `c₀`. -/
structure Receiving (s : Snapshot) (c₀ : MarketDataConsumer) (n : ℕ) (c : MarketDataConsumer) :
    Prop where
  in_recovery : c.in_recovery_ = true
  incoming : c.incoming_md_updates_ = c₀.incoming_md_updates_
  queued : ∃ queued, Queued c queued ∧ (0 < n → queued = s.updates.take n)

/-- The next message of the cycle continues the queue, or starts it again. -/
theorem collect_updates {queued : List MEMarketUpdate} {n : ℕ} {u : MEMarketUpdate}
    (hqueued : 0 < n → queued = s.updates.take n) (hu : s.updates[n]? = some u) :
    collect queued ⟨n, u⟩ = s.updates.take (n + 1) := by
  have hcandidate : candidate queued ⟨n, u⟩ = s.updates.take (n + 1) := by
    rw [List.take_add_one, hu]
    unfold candidate
    by_cases hzero : n = 0
    · rw [if_pos hzero, hzero]
      rfl
    · have hlt : n < s.updates.length := (List.getElem?_eq_some_iff.mp hu).1
      have hlen : n = queued.length := by
        rw [hqueued (Nat.pos_of_ne_zero hzero), List.length_take]
        omega
      rw [if_neg hzero, if_pos hlen, ← hqueued (Nat.pos_of_ne_zero hzero)]
      rfl
  unfold collect
  rw [hcandidate, if_pos]
  exact started_cons_iff.mpr rfl

theorem Receiving.snapshot {n : ℕ} (h : Receiving s c₀ n c)
    (hm : (numbered 0 s.opening)[n]? = some request) :
    Receiving s c₀ (n + 1) (c.onMessage true request) := by
  obtain ⟨queued, hq, hqueued⟩ := h.queued
  rw [getElem?_numbered, Option.map_eq_some_iff] at hm
  obtain ⟨u, hu, rfl⟩ := hm
  have hlt : n < s.opening.length := (List.getElem?_eq_some_iff.mp hu).1
  have htake : s.updates.take (n + 1) = s.opening.take (n + 1) :=
    List.take_append_of_le_length hlt
  have hcollect : collect queued ⟨0 + n, u⟩ = s.updates.take (n + 1) := by
    rw [Nat.zero_add]
    apply collect_updates hqueued
    rw [Snapshot.updates, List.getElem?_append_left hlt, hu]
  have hunf : Unfinished (collect queued ⟨0 + n, u⟩) := by
    rw [hcollect, htake]
    exact s.unfinished_take (n + 1)
  have hmsg : c.onMessage true ⟨0 + n, u⟩ = c.queueMessage true ⟨0 + n, u⟩ := if_pos h.in_recovery
  rw [hmsg]
  refine ⟨?_, ?_, _, hq.snapshot h.in_recovery hunf, fun _ => hcollect⟩
  · rw [queueMessage_unfinished hq hunf]
    exact h.in_recovery
  · rw [queueMessage_unfinished hq hunf]
    exact h.incoming

theorem Receiving.incremental {n : ℕ} (h : Receiving s c₀ n c) :
    Receiving s c₀ n (c.onMessage false request) := by
  obtain ⟨queued, hq, hqueued⟩ := h.queued
  have hmsg : c.onMessage false request = c.queueMessage false request := if_pos h.in_recovery
  rw [hmsg]
  refine ⟨?_, ?_, queued, hq.incremental, hqueued⟩
  · rw [queueMessage_incremental hq.queue_eq hq.started hq.unfinished]
    exact h.in_recovery
  · rw [queueMessage_incremental hq.queue_eq hq.started hq.unfinished]
    exact h.incoming

/-- Until its `SNAPSHOT_END` a cycle is only queued, whatever incrementals arrive meanwhile. -/
theorem receiving_run {earlier : List (Callback MDPMarketUpdate)}
    (hrec : (new.run earlier).in_recovery_ = true) (part : List (Callback MDPMarketUpdate)) :
    snapshotMessages part <+: numbered 0 s.opening →
      Receiving s (new.run earlier) (snapshotMessages part).length (new.run (earlier ++ part)) := by
  induction part using moments with
  | nil =>
    intro _
    obtain ⟨queued, hq⟩ := exists_queued_run earlier
    rw [List.append_nil]
    exact ⟨hrec, rfl, queued, hq, fun h => absurd h (Nat.lt_irrefl 0)⟩
  | callback part is_snapshot ih =>
    intro hpart
    have hsame : snapshotMessages (part ++ [⟨is_snapshot, []⟩]) = snapshotMessages part := by
      cases is_snapshot with
      | true => simp
      | false => simp
    rw [hsame] at hpart ⊢
    rw [← List.append_assoc, run_concat, recvCallback_nil]
    exact ih hpart
  | message part is_snapshot ms m ih =>
    intro hpart
    rw [← List.append_assoc] at ih ⊢
    cases is_snapshot with
    | false =>
      rw [snapshotMessages_concat_incremental] at hpart ih ⊢
      have h := ih hpart
      rw [run_concat_message h.in_recovery]
      exact h.incremental
    | true =>
      rw [snapshotMessages_concat_snapshot] at hpart ih ⊢
      rw [← List.append_assoc] at hpart ⊢
      have h := ih ((List.prefix_append ..).trans hpart)
      have hm : (numbered 0 s.opening)[(snapshotMessages part ++ ms).length]? = some m := by
        obtain ⟨rest, hrest⟩ := hpart
        rw [← hrest]
        simp
      rw [run_concat_message h.in_recovery, List.length_append, List.length_singleton]
      exact h.snapshot hm

/-- The `SNAPSHOT_END` finishes the snapshot. -/
theorem Receiving.finish (h : Receiving s c₀ s.opening.length c) :
    c.onMessage true s.endMessage =
      { c with snapshot_queued_msgs_ := .enum s.updates }.finishSync s.events s.endUpdate := by
  obtain ⟨queued, hq, hqueued⟩ := h.queued
  have hend : s.updates[s.opening.length]? = some s.endUpdate := by
    rw [Snapshot.updates]
    exact List.getElem?_concat_length ..
  have hall : s.updates.take (s.opening.length + 1) = s.updates := by
    apply List.take_of_length_le
    simp [Snapshot.updates]
  have hcollect : collect queued s.endMessage = s.updates :=
    (collect_updates hqueued hend).trans hall
  have hlast : s.updates.getLast? = some s.endUpdate := List.getLast?_concat ..
  have hmsg : c.onMessage true s.endMessage = c.queueMessage true s.endMessage :=
    if_pos h.in_recovery
  have hstart : Started s.updates := started_cons_iff.mpr rfl
  rw [hmsg, queueMessage_snapshot hq.queue_eq, hcollect,
    checkSnapshotSync_finished rfl hstart hlast rfl, s.events_updates]

theorem receiving_of_queued (h : Queued c s.opening) (hrec : c.in_recovery_ = true) :
    Receiving s c s.opening.length c where
  in_recovery := hrec
  incoming := rfl
  queued := ⟨s.opening, h, fun _ => by rw [Snapshot.updates, List.take_left]⟩

/-- A callback of the incremental stream brings no snapshot markers. -/
def BringsEvents (cb : Callback MDPMarketUpdate) : Prop :=
  cb.is_snapshot = false → ∀ m ∈ cb.messages, m.me_market_update_.IsEvent

theorem isEvent_queued_run (cbs : List (Callback MDPMarketUpdate))
    (hcbs : ∀ cb ∈ cbs, BringsEvents cb) :
    ∀ p ∈ (new.run cbs).incremental_queued_msgs_.entries, p.2.IsEvent := by
  have hnew : ∀ p ∈ new.incremental_queued_msgs_.entries, p.2.IsEvent := by
    intro p hp
    cases hp
  exact invariant_run (I := fun c => ∀ p ∈ c.incremental_queued_msgs_.entries, p.2.IsEvent)
    (D := fun is_snapshot m => is_snapshot = false → m.me_market_update_.IsEvent) hnew
    (fun _ _ _ h hm => forall_queued_onMessage h hm) cbs
    fun cb hcb m hm hsnapshot => hcbs cb hcb hsnapshot m hm

/-- **A recovery completes when it can**: from any moment in recovery, while a cycle arrives whole
and in order among any incrementals, the consumer stays in recovery and forwards nothing; and if
the queued incrementals above the cycle's number `S` are `S + 1`, …, `S + count` when its
`SNAPSHOT_END` arrives, this message ends the recovery. -/
theorem recovery_completes (s : Snapshot) {earlier : List (Callback MDPMarketUpdate)}
    (hearlier : ∀ cb ∈ earlier, BringsEvents cb) (hrec : (new.run earlier).in_recovery_ = true)
    {part : List (Callback MDPMarketUpdate)} (hpart : ∀ cb ∈ part, BringsEvents cb) :
    (snapshotMessages part <+: numbered 0 s.opening →
      (new.run (earlier ++ part)).in_recovery_ = true ∧
        (new.run (earlier ++ part)).incoming_md_updates_ =
          (new.run earlier).incoming_md_updates_) ∧
    ∀ (before : List MDPMarketUpdate) (count : ℕ) (c c' : MarketDataConsumer),
      snapshotMessages part ++ (before ++ [s.endMessage]) = s.messages →
      c = new.run (earlier ++ part ++ [⟨true, before⟩]) →
      c' = new.run (earlier ++ part ++ [⟨true, before ++ [s.endMessage]⟩]) →
      (c.above s.last_inc_seq_num_).map Prod.fst = List.range' (s.last_inc_seq_num_ + 1) count →
      c'.in_recovery_ = false ∧ c'.snapshot_queued_msgs_ = .empty ∧
        c'.incremental_queued_msgs_ = .empty ∧
        c'.incoming_md_updates_ = (new.run earlier).incoming_md_updates_ ++
          (s.events ++ (c.above s.last_inc_seq_num_).map Prod.snd) ∧
        c'.next_exp_inc_seq_num_ = s.last_inc_seq_num_ + 1 + count := by
  refine ⟨fun hprefix => ?_, ?_⟩
  · have h := receiving_run hrec part hprefix
    exact ⟨h.in_recovery, h.incoming⟩
  · intro before count c c' hcycle hc hc' habove
    have hopening : snapshotMessages (part ++ [⟨true, before⟩]) = numbered 0 s.opening := by
      rw [s.messages_eq, ← List.append_assoc] at hcycle
      rw [snapshotMessages_concat_snapshot]
      exact List.append_cancel_right hcycle
    have hlen : (numbered 0 s.opening).length = s.opening.length := by
      simp [numbered]
    have h := receiving_run (s := s) hrec (part ++ [⟨true, before⟩]) (hopening ▸ List.prefix_rfl)
    rw [hopening, hlen, ← List.append_assoc, ← hc] at h
    have hfinish : c' = c.onMessage true s.endMessage := by
      rw [hc', hc]
      exact run_concat_message (hc ▸ h.in_recovery) s.endMessage
    have hevent : ∀ p ∈ c.incremental_queued_msgs_.entries, p.2.IsEvent := by
      rw [hc]
      apply isEvent_queued_run
      intro cb hcb
      rcases List.mem_append.mp hcb with hcb | hcb
      · exact (List.mem_append.mp hcb).elim (hearlier cb) (hpart cb)
      · rw [List.mem_singleton.mp hcb]
        exact Bool.noConfusion
    -- the queued incrementals have no gap, so the message ends the recovery
    have hreplay := replay_contiguous hevent habove
    rw [hfinish, h.finish, finishSync_of_replay hreplay, ← h.incoming]
    exact ⟨rfl, rfl, rfl, rfl, rfl⟩

/-- A snapshot that contains the lost second incremental. -/
def afterSecond : Snapshot where
  last_inc_seq_num_ := 2
  events := [{ type_ := .CLEAR }, addOf 1, addOf 2]
  isEvent := by decide

/-- The second incremental is lost, and then the end of the first cycle. -/
def lostTail : List (Callback MDPMarketUpdate) :=
  [⟨false, [⟨1, addOf 1⟩, ⟨3, addOf 3⟩]⟩, ⟨true, [⟨0, afterSecond.startUpdate⟩, ⟨2, addOf 1⟩]⟩,
    ⟨true, [⟨0, afterSecond.startUpdate⟩, ⟨1, { type_ := .CLEAR }⟩]⟩]

/-- The next cycle arrives, and the fourth incremental in between. -/
def nextCycle : List (Callback MDPMarketUpdate) :=
  [⟨true, [⟨0, afterSecond.startUpdate⟩, ⟨1, { type_ := .CLEAR }⟩]⟩, ⟨false, [⟨4, addOf 4⟩]⟩]

theorem recovery_completes_nextCycle :
    (new.run (lostTail ++ nextCycle)).in_recovery_ = true ∧
      (new.run (lostTail ++ nextCycle ++
        [⟨true, [⟨2, addOf 1⟩, ⟨3, addOf 2⟩, afterSecond.endMessage]⟩])).in_recovery_ = false ∧
      (new.run (lostTail ++ nextCycle ++
        [⟨true, [⟨2, addOf 1⟩, ⟨3, addOf 2⟩, afterSecond.endMessage]⟩])).next_exp_inc_seq_num_ =
          5 := by
  have hlostTail : ∀ cb ∈ lostTail, BringsEvents cb := by
    simp [lostTail, BringsEvents, MEMarketUpdate.IsEvent, addOf]
  have hnextCycle : ∀ cb ∈ nextCycle, BringsEvents cb := by
    simp [nextCycle, BringsEvents, MEMarketUpdate.IsEvent, addOf]
  obtain ⟨hbefore, hafter⟩ :=
    recovery_completes afterSecond hlostTail (by decide) hnextCycle
  obtain ⟨hrec, -, -, -, hnext⟩ :=
    hafter [⟨2, addOf 1⟩, ⟨3, addOf 2⟩] 2 _ _ (by decide) rfl rfl (by decide)
  exact ⟨(hbefore (by decide)).1, hrec, hnext⟩

/-! ## Cycles that arrive in part -/

/-- What was delivered up to some message of a run. -/
def IsMoment {μ : Type} (moment cbs : List (Callback μ)) : Prop :=
  ∃ cbs' is_snapshot ms more rest,
    moment = cbs' ++ [⟨is_snapshot, ms⟩] ∧ cbs = cbs' ++ ⟨is_snapshot, ms ++ more⟩ :: rest

theorem IsMoment.trans {μ : Type} {m₁ m₂ m₃ : List (Callback μ)} (h : IsMoment m₁ m₂)
    (h' : IsMoment m₂ m₃) : IsMoment m₁ m₃ := by
  obtain ⟨a, b, ms, more, rest, rfl, rfl⟩ := h
  obtain ⟨a', b', ms', more', rest', heq, rfl⟩ := h'
  rcases List.eq_nil_or_concat rest with rfl | ⟨rest, last, rfl⟩
  · obtain ⟨rfl, hlast⟩ := List.append_inj' heq rfl
    cases hlast
    exact ⟨a, b, ms, more ++ more', rest', rfl, by rw [List.append_assoc]⟩
  · have heq : (a ++ ⟨b, ms ++ more⟩ :: rest) ++ [last] = a' ++ [⟨b', ms'⟩] := by
      rw [← heq, List.concat_eq_append, List.append_assoc, List.cons_append]
    obtain ⟨rfl, -⟩ := List.append_inj' heq rfl
    exact ⟨a, b, ms, more, rest ++ ⟨b', ms' ++ more'⟩ :: rest', rfl, by simp⟩

theorem isMoment_concat {μ : Type} (cbs : List (Callback μ)) (is_snapshot : Bool) (ms : List μ)
    (m : μ) : IsMoment (cbs ++ [⟨is_snapshot, ms⟩]) (cbs ++ [⟨is_snapshot, ms ++ [m]⟩]) :=
  ⟨cbs, is_snapshot, ms, [m], [], rfl, rfl⟩

theorem IsMoment.append {μ : Type} {m cbs : List (Callback μ)} (h : IsMoment m cbs)
    (cbs' : List (Callback μ)) : IsMoment m (cbs ++ cbs') := by
  obtain ⟨a, b, ms, more, rest, rfl, rfl⟩ := h
  exact ⟨a, b, ms, more, rest ++ cbs', rfl, by simp⟩

/-- A run of callbacks whose snapshot messages come with the index of their cycle. -/
def received (cbs : List (Callback (ℕ × MDPMarketUpdate))) : MarketDataConsumer :=
  new.run (cbs.map fun cb => ⟨cb.is_snapshot, cb.messages.map Prod.snd⟩)

/-- Everything sent on the snapshot stream in the first `n` cycles. -/
def broadcast (cycles : ℕ → Snapshot) (n : ℕ) : List (ℕ × MDPMarketUpdate) :=
  (List.range n).flatMap fun i => (cycles i).messages.map fun m => (i, m)

/-- The snapshot stream is delivered with losses. -/
def Lossy (cycles : ℕ → Snapshot) (cbs : List (Callback (ℕ × MDPMarketUpdate))) : Prop :=
  ∃ n, (snapshotMessages cbs).Sublist (broadcast cycles n)

/-- The cycle of the latest `SNAPSHOT_START` that was delivered. -/
def latestStart (cbs : List (Callback (ℕ × MDPMarketUpdate))) : Option ℕ :=
  ((snapshotMessages cbs).filter fun p =>
    decide (p.2.me_market_update_.type_ = .SNAPSHOT_START)).getLast?.map Prod.fst

/-- A snapshot message that would be queued behind others is from the cycle of the latest
`SNAPSHOT_START`. -/
def ContinuesCycle (cbs : List (Callback (ℕ × MDPMarketUpdate))) (p : ℕ × MDPMarketUpdate) :
    Prop :=
  (received cbs).in_recovery_ = true → p.2.seq_num_ ≠ 0 →
    p.2.seq_num_ = (received cbs).snapshot_queued_msgs_.entries.length →
    latestStart cbs = some p.1

/-- Every snapshot message of the run does. -/
def AllContinueCycle (cbs : List (Callback (ℕ × MDPMarketUpdate))) : Prop :=
  ∀ cbs' ms p, IsMoment (cbs' ++ [⟨true, ms ++ [p]⟩]) cbs → ContinuesCycle (cbs' ++ [⟨true, ms⟩]) p

instance (cbs : List (Callback (ℕ × MDPMarketUpdate))) (p : ℕ × MDPMarketUpdate) :
    Decidable (ContinuesCycle cbs p) :=
  inferInstanceAs (Decidable (_ → _ → _ → _))

/-- The messages of a run one by one. -/
theorem allContinueCycle_of_forall {cbs : List (Callback (ℕ × MDPMarketUpdate))}
    (h : ∀ i (hi : i < cbs.length), cbs[i].is_snapshot = true →
      ∀ j (hj : j < cbs[i].messages.length),
        ContinuesCycle (cbs.take i ++ [⟨true, cbs[i].messages.take j⟩]) cbs[i].messages[j]) :
    AllContinueCycle cbs := by
  rintro cbs' ms p ⟨a, b, ms', more, rest, heq, rfl⟩
  obtain ⟨rfl, hlast⟩ := List.append_inj' heq rfl
  cases hlast
  have hp := h cbs'.length (by simp) (by simp) ms.length (by simp)
  simpa using hp

/-- Every message of the run that ends a recovery is the `SNAPSHOT_END` of a cycle, the queued
messages are the others of this cycle, and its events are what is forwarded before the
incrementals. -/
def UsesOneCycle (cycles : ℕ → Snapshot) (cbs : List (Callback (ℕ × MDPMarketUpdate))) : Prop :=
  ∀ cbs' is_snapshot ms p c c', IsMoment (cbs' ++ [⟨is_snapshot, ms ++ [p]⟩]) cbs →
    c = received (cbs' ++ [⟨is_snapshot, ms⟩]) → c' = received (cbs' ++ [⟨is_snapshot, ms ++ [p]⟩]) →
    c.in_recovery_ = true → c'.in_recovery_ = false →
    latestStart (cbs' ++ [⟨is_snapshot, ms⟩]) = some p.1 ∧ p.2 = (cycles p.1).endMessage ∧
      c.snapshot_queued_msgs_ = .enum (cycles p.1).opening ∧
      c'.incoming_md_updates_ = c.incoming_md_updates_ ++ ((cycles p.1).events ++ c'.incrementals)

/-! ## What the queue holds in such a run -/

/-- The queued messages are the first ones of the latest cycle. -/
def FromLatest (cycles : ℕ → Snapshot) (latest : Option ℕ) (queued : List MEMarketUpdate) : Prop :=
  queued = [] ∨ ∃ i, latest = some i ∧ queued <+: (cycles i).opening

/-- One more message of a cycle: the queue is again from the latest one, or the message is the
`SNAPSHOT_END` of the queued cycle. -/
theorem fromLatest_collect {cycles : ℕ → Snapshot} {latest : Option ℕ}
    {queued : List MEMarketUpdate} {i : ℕ} (hq : FromLatest cycles latest queued)
    (hm : request ∈ (cycles i).messages)
    (hcont : request.seq_num_ ≠ 0 → request.seq_num_ = queued.length → latest = some i) :
    FromLatest cycles
        (if request.me_market_update_.type_ = .SNAPSHOT_START then some i else latest)
        (collect queued request) ∨
      latest = some i ∧ queued = (cycles i).opening ∧ request = (cycles i).endMessage := by
  by_cases hnext : request.seq_num_ = 0 ∨ request.seq_num_ = queued.length
  swap
  · rw [not_or] at hnext
    rw [collect_gap hnext.1 hnext.2]
    exact .inl (.inl rfl)
  -- what is queued when the message continues it
  have hqueued : request.seq_num_ ≠ 0 →
      latest = some i ∧ queued = (cycles i).opening.take request.seq_num_ := by
    intro hzero
    have hlen := hnext.resolve_left hzero
    have hlatest := hcont hzero hlen
    rcases hq with rfl | ⟨i', hi', hprefix⟩
    · exact absurd hlen hzero
    · rw [hlatest, Option.some.injEq] at hi'
      rw [hi', hlen]
      exact ⟨hi' ▸ hlatest, List.prefix_iff_eq_take.mp hprefix⟩
  rw [(cycles i).messages_eq, List.mem_append, List.mem_singleton] at hm
  rcases hm with hm | rfl
  · left
    obtain ⟨n, hn⟩ := List.getElem?_of_mem hm
    rw [getElem?_numbered, Option.map_eq_some_iff] at hn
    obtain ⟨u, hu, rfl⟩ := hn
    rw [Nat.zero_add] at hqueued ⊢
    have hlt : n < (cycles i).opening.length := (List.getElem?_eq_some_iff.mp hu).1
    have hcollect : collect queued ⟨n, u⟩ = (cycles i).opening.take (n + 1) := by
      have hupdates : (cycles i).updates[n]? = some u := by
        rw [Snapshot.updates, List.getElem?_append_left hlt, hu]
      rw [collect_updates (fun hpos => ?_) hupdates]
      · exact List.take_append_of_le_length hlt
      · rw [(hqueued hpos.ne').2]
        exact (List.take_append_of_le_length hlt.le).symm
    have hlatest : (if u.type_ = .SNAPSHOT_START then some i else latest) = some i := by
      by_cases hzero : n = 0
      · subst hzero
        cases hu
        rfl
      · rw [(hqueued hzero).1, ite_self]
    exact .inr ⟨i, hlatest, hcollect ▸ List.take_prefix ..⟩
  · right
    have hzero : (cycles i).endMessage.seq_num_ ≠ 0 := Nat.succ_ne_zero _
    obtain ⟨hlatest, htake⟩ := hqueued hzero
    rw [htake]
    exact ⟨hlatest, List.take_length, rfl⟩

/-! ## Recoveries from one cycle -/

variable {cycles : ℕ → Snapshot}

theorem received_concat_message {cbs : List (Callback (ℕ × MDPMarketUpdate))} {is_snapshot : Bool}
    {ms : List (ℕ × MDPMarketUpdate)}
    (hrec : (received (cbs ++ [⟨is_snapshot, ms⟩])).in_recovery_ = true)
    (p : ℕ × MDPMarketUpdate) :
    received (cbs ++ [⟨is_snapshot, ms ++ [p]⟩]) =
      onMessage is_snapshot (received (cbs ++ [⟨is_snapshot, ms⟩])) p.2 := by
  unfold received at hrec ⊢
  simp only [List.map_append, List.map_cons, List.map_nil] at hrec ⊢
  exact run_concat_message hrec p.2

/-- One more message is discarded, out of recovery, or handled. -/
theorem received_concat (cbs : List (Callback (ℕ × MDPMarketUpdate))) (is_snapshot : Bool)
    (ms : List (ℕ × MDPMarketUpdate)) (p : ℕ × MDPMarketUpdate) :
    received (cbs ++ [⟨is_snapshot, ms ++ [p]⟩]) =
        onMessage is_snapshot (received (cbs ++ [⟨is_snapshot, ms⟩])) p.2 ∨
      (received (cbs ++ [⟨is_snapshot, ms⟩])).in_recovery_ = false ∧
        received (cbs ++ [⟨is_snapshot, ms ++ [p]⟩]) = received (cbs ++ [⟨is_snapshot, ms⟩]) := by
  cases hrec : (received (cbs ++ [⟨is_snapshot, ms⟩])).in_recovery_ with
  | true => exact .inl (received_concat_message hrec p)
  | false =>
    unfold received
    simp only [List.map_append, List.map_cons, List.map_nil, run_concat, recvCallback_concat]
    split
    · exact .inr ⟨trivial, rfl⟩
    · exact .inl rfl

theorem latestStart_concat_incremental (cbs : List (Callback (ℕ × MDPMarketUpdate)))
    (ms : List (ℕ × MDPMarketUpdate)) : latestStart (cbs ++ [⟨false, ms⟩]) = latestStart cbs := by
  unfold latestStart
  rw [snapshotMessages_concat_incremental]

theorem latestStart_concat_snapshot (cbs : List (Callback (ℕ × MDPMarketUpdate)))
    (ms : List (ℕ × MDPMarketUpdate)) (p : ℕ × MDPMarketUpdate) :
    latestStart (cbs ++ [⟨true, ms ++ [p]⟩]) =
      if p.2.me_market_update_.type_ = .SNAPSHOT_START then some p.1
      else latestStart (cbs ++ [⟨true, ms⟩]) := by
  unfold latestStart
  rw [snapshotMessages_concat_snapshot, snapshotMessages_concat_snapshot, ← List.append_assoc,
    List.filter_append]
  split
  · next h => simp [h]
  · next h => simp [h]

theorem FromLatest.unfinished {latest : Option ℕ} {queued : List MEMarketUpdate}
    (h : FromLatest cycles latest queued) : Unfinished queued := by
  rcases h with rfl | ⟨i, -, hprefix⟩
  · exact unfinished_nil
  · rw [List.prefix_iff_eq_take.mp hprefix]
    exact (cycles i).unfinished_take _

/-- A snapshot message in a recovery keeps the queue from the latest cycle, and it ends the
recovery only as the `SNAPSHOT_END` of the queued cycle. -/
theorem fromLatest_queueMessage {latest : Option ℕ} {queued : List MEMarketUpdate} {i : ℕ}
    (h : Queued c queued) (hq : FromLatest cycles latest queued) (hrec : c.in_recovery_ = true)
    (hm : request ∈ (cycles i).messages)
    (hcont : request.seq_num_ ≠ 0 → request.seq_num_ = queued.length → latest = some i) :
    (∃ queued', Queued (c.queueMessage true request) queued' ∧
      FromLatest cycles
        (if request.me_market_update_.type_ = .SNAPSHOT_START then some i else latest) queued') ∧
    ((c.queueMessage true request).in_recovery_ = false →
      latest = some i ∧ queued = (cycles i).opening ∧ request = (cycles i).endMessage) := by
  rcases fromLatest_collect hq hm hcont with hcollect | ⟨hlatest, rfl, rfl⟩
  · refine ⟨⟨_, h.snapshot hrec hcollect.unfinished, hcollect⟩, fun hdone => ?_⟩
    rw [queueMessage_unfinished h hcollect.unfinished] at hdone
    rw [hrec] at hdone
    cases hdone
  · refine ⟨⟨[], ?_, .inl rfl⟩, fun _ => ⟨hlatest, rfl, rfl⟩⟩
    have hmsg : c.onMessage true (cycles i).endMessage = c.queueMessage true (cycles i).endMessage :=
      if_pos hrec
    rw [← hmsg, (receiving_of_queued h hrec).finish]
    exact queued_finishSync ..

/-- At every moment the queue is from the cycle of the latest `SNAPSHOT_START`. -/
theorem fromLatest_run (cycles : ℕ → Snapshot) (cbs : List (Callback (ℕ × MDPMarketUpdate))) :
    (∀ p ∈ snapshotMessages cbs, p.2 ∈ (cycles p.1).messages) → AllContinueCycle cbs →
      ∃ queued, Queued (received cbs) queued ∧ FromLatest cycles (latestStart cbs) queued := by
  induction cbs using moments with
  | nil =>
    intro _ _
    exact ⟨[], queued_nil rfl, .inl rfl⟩
  | callback cbs is_snapshot ih =>
    intro hmem hcont
    have hcont : AllContinueCycle cbs := fun cbs' ms p h => hcont cbs' ms p (h.append _)
    have hrun : received (cbs ++ [⟨is_snapshot, []⟩]) = received cbs := by
      unfold received
      rw [List.map_append, List.map_singleton, run_concat]
      exact recvCallback_nil ..
    have hsame : snapshotMessages (cbs ++ [⟨is_snapshot, []⟩]) = snapshotMessages cbs := by
      cases is_snapshot with
      | true => simp
      | false => simp
    have hlatest : latestStart (cbs ++ [⟨is_snapshot, []⟩]) = latestStart cbs := by
      unfold latestStart
      rw [hsame]
    rw [hsame] at hmem
    rw [hrun, hlatest]
    exact ih hmem hcont
  | message cbs is_snapshot ms p ih =>
    intro hmem hcont
    have hbefore : AllContinueCycle (cbs ++ [⟨is_snapshot, ms⟩]) :=
      fun cbs' ms' p' h => hcont cbs' ms' p' (h.trans (isMoment_concat ..))
    cases is_snapshot with
    | false =>
      rw [snapshotMessages_concat_incremental] at hmem ih
      rw [latestStart_concat_incremental] at ih ⊢
      obtain ⟨queued, h, hq⟩ := ih hmem hbefore
      -- an incremental leaves the snapshot queue as it is
      rcases received_concat cbs false ms p with hrun | ⟨-, hrun⟩
      · rw [hrun]
        exact ⟨queued, h.onMessage_incremental, hq⟩
      · rw [hrun]
        exact ⟨queued, h, hq⟩
    | true =>
      rw [snapshotMessages_concat_snapshot] at hmem ih
      have hp : p.2 ∈ (cycles p.1).messages := hmem p (by simp)
      obtain ⟨queued, h, hq⟩ :=
        ih (fun q hq => hmem q (by
          rw [← List.append_assoc]
          exact List.mem_append_left _ hq)) hbefore
      rw [latestStart_concat_snapshot]
      rcases received_concat cbs true ms p with hrun | ⟨hrec, hrun⟩
      · rw [hrun]
        unfold onMessage
        split
        · next hrec =>
          have hnext := hcont cbs ms p ⟨cbs, true, ms ++ [p], [], [], rfl, by simp⟩ hrec
          rw [h.queue_eq, SortedMap.length_enum] at hnext
          exact (fromLatest_queueMessage h hq hrec hp hnext).1
        · next hrec =>
          split
          · -- the message starts a recovery, with an empty queue
            have hstart : Queued (received (cbs ++ [⟨true, ms⟩])).startSnapshotSync [] :=
              queued_nil rfl
            exact (fromLatest_queueMessage hstart (.inl rfl) rfl hp fun h h' => absurd h' h).1
          · have hnil := h.eq_nil (by simpa using hrec)
            exact ⟨[], hnil ▸ h, .inl rfl⟩
      · rw [hrun]
        have hnil := h.eq_nil hrec
        exact ⟨[], hnil ▸ h, .inl rfl⟩

theorem mem_messages_of_lossy {cbs : List (Callback (ℕ × MDPMarketUpdate))}
    (h : Lossy cycles cbs) : ∀ p ∈ snapshotMessages cbs, p.2 ∈ (cycles p.1).messages := by
  intro p hp
  obtain ⟨n, hsub⟩ := h
  obtain ⟨i, -, hi⟩ := List.mem_flatMap.mp (hsub.subset hp)
  obtain ⟨m, hm, rfl⟩ := List.mem_map.mp hi
  exact hm

theorem IsMoment.snapshotMessages_subset {μ : Type} {m cbs : List (Callback μ)}
    (h : IsMoment m cbs) : snapshotMessages m ⊆ snapshotMessages cbs := by
  obtain ⟨cbs', is_snapshot, ms, more, rest, rfl, rfl⟩ := h
  intro p hp
  cases is_snapshot with
  | true =>
    simp only [snapshotMessages, List.filter_append, List.flatMap_append, List.mem_append,
      List.filter_cons, if_true, List.flatMap_cons] at hp ⊢
    tauto
  | false =>
    rw [snapshotMessages_concat_incremental] at hp
    simp only [snapshotMessages, List.filter_append, List.flatMap_append, List.mem_append] at hp ⊢
    exact .inl hp

/-- **A snapshot stream whose cycles are not mixed is used one cycle at a time**: in a run of lossy
deliveries in which no message continues the queued messages of another cycle, every recovery is
from one cycle. -/
theorem usesOneCycle {cbs : List (Callback (ℕ × MDPMarketUpdate))} (hlossy : Lossy cycles cbs)
    (hcont : AllContinueCycle cbs) : UsesOneCycle cycles cbs := by
  intro cbs' is_snapshot ms p c c' hmoment hc hc' hrec hdone
  have hbefore : IsMoment (cbs' ++ [⟨is_snapshot, ms⟩]) cbs := (isMoment_concat ..).trans hmoment
  have hmem := mem_messages_of_lossy hlossy
  obtain ⟨queued, h, hq⟩ :=
    fromLatest_run cycles (cbs' ++ [⟨is_snapshot, ms⟩])
      (fun q hq => hmem q (hbefore.snapshotMessages_subset hq))
      fun a ms' q hm => hcont a ms' q (hm.trans hbefore)
  rw [← hc] at h
  have hstep : c' = c.queueMessage is_snapshot p.2 := by
    rw [hc', received_concat_message (hc ▸ hrec), ← hc]
    exact if_pos hrec
  cases is_snapshot with
  | false =>
    -- an incremental does not end a recovery
    rw [hstep, queueMessage_incremental h.queue_eq h.started h.unfinished] at hdone
    exact absurd (hrec.symm.trans hdone) Bool.noConfusion
  | true =>
    have hp : p.2 ∈ (cycles p.1).messages :=
      hmem p (hmoment.snapshotMessages_subset (by simp))
    have hnext := hcont cbs' ms p hmoment (hc ▸ hrec)
    rw [← hc, h.queue_eq, SortedMap.length_enum] at hnext
    obtain ⟨hlatest, rfl, hend⟩ := (fromLatest_queueMessage h hq hrec hp hnext).2 (hstep ▸ hdone)
    refine ⟨hlatest, hend, h.queue_eq, ?_⟩
    have hfinish : c' =
        { c with snapshot_queued_msgs_ := .enum (cycles p.1).updates }.finishSync
          (cycles p.1).events (cycles p.1).endUpdate := by
      rw [hstep, hend, ← (receiving_of_queued h hrec).finish]
      exact (if_pos hrec).symm
    rw [hfinish] at hdone ⊢
    exact incoming_finishSync hrec hdone

/-! ## Two cycles -/

def clearOf (ticker_id : ℕ) : MEMarketUpdate := { type_ := .CLEAR, ticker_id_ := ticker_id }

/-- The only order of the example, added by the first incremental. -/
def firstOrder : MEMarketUpdate :=
  { type_ := .ADD, order_id_ := 1, ticker_id_ := 0, side_ := .BUY, price_ := 100, qty_ := 10,
    priority_ := 1 }

/-- What is published before any incremental. -/
def emptyCycle : Snapshot where
  last_inc_seq_num_ := 0
  events := (List.range 8).map clearOf
  isEvent := by decide

/-- What is published after the first incremental. -/
def orderCycle : Snapshot where
  last_inc_seq_num_ := 1
  events := clearOf 0 :: firstOrder :: (List.range' 1 7).map clearOf
  isEvent := by decide

def twoCycles (i : ℕ) : Snapshot := if i = 0 then emptyCycle else orderCycle

theorem publishSnapshot_new : SnapshotSynthesizer.new.publishSnapshot = emptyCycle.messages := by
  have hticker : SnapshotSynthesizer.new.tickerUpdates = fun t => [clearOf t] := by
    funext t
    have hnone : (List.range ME_MAX_ORDER_IDS).filterMap (fun order_id =>
        (SnapshotSynthesizer.new.ticker_orders_ t order_id).map
          SnapshotSynthesizer.new.order_pool_.get) = [] :=
      List.filterMap_eq_nil_iff.mpr fun _ _ => rfl
    unfold SnapshotSynthesizer.tickerUpdates
    rw [hnone]
    rfl
  unfold SnapshotSynthesizer.publishSnapshot
  rw [hticker]
  rfl

/-- Going through a table with one entry. -/
theorem filterMap_range_update {α β : Type} (f : α → β) (a : α) (i n : ℕ) :
    (List.range n).filterMap (fun j => (Function.update (fun _ => none) i (some a) j).map f) =
      if i < n then [f a] else [] := by
  induction n with
  | zero => rfl
  | succ n ih =>
    rw [List.range_succ, List.filterMap_append, ih]
    rcases Nat.lt_trichotomy i n with hlt | rfl | hgt
    · have hne : n ≠ i := hlt.ne'
      simp [hlt, Nat.lt_succ_of_lt hlt, hne]
    · simp
    · have hne : n ≠ i := hgt.ne
      have h₁ : ¬ i < n := hgt.not_gt
      have h₂ : ¬ i < n + 1 := by omega
      simp [h₁, h₂, hne]

theorem publishSnapshot_firstOrder : ∃ syn,
    SnapshotSynthesizer.new.run [⟨1, firstOrder⟩] = .ok syn ∧
      syn.publishSnapshot = orderCycle.messages := by
  have hrun : ∃ syn, SnapshotSynthesizer.new.run [⟨1, firstOrder⟩] = .ok syn ∧
      syn.last_inc_seq_num_ = 1 ∧ syn.order_pool_.get 0 = firstOrder ∧
      syn.ticker_orders_ =
        Function.update (fun _ _ => none) 0 (Function.update (fun _ => none) 1 (some 0)) :=
    ⟨_, rfl, rfl, rfl, rfl⟩
  obtain ⟨syn, hrun, hlast, hget, horders⟩ := hrun
  have hticker : syn.tickerUpdates =
      fun t => if t = 0 then [clearOf 0, firstOrder] else [clearOf t] := by
    funext t
    unfold SnapshotSynthesizer.tickerUpdates
    rw [horders]
    split
    · next ht =>
      rw [ht, Function.update_self, filterMap_range_update, if_pos (by decide), hget]
      rfl
    · next ht =>
      rw [Function.update_of_ne ht]
      have hnone : (List.range ME_MAX_ORDER_IDS).filterMap
          (fun _ => (none : Option ℕ).map syn.order_pool_.get) = [] :=
        List.filterMap_eq_nil_iff.mpr fun _ _ => rfl
      rw [hnone]
      rfl
  refine ⟨syn, hrun, ?_⟩
  unfold SnapshotSynthesizer.publishSnapshot
  rw [hticker, hlast]
  rfl

/-- Parts of the two cycles, one after the other. -/
theorem lossy_twoCycles {cbs : List (Callback (ℕ × MDPMarketUpdate))}
    {first second : List MDPMarketUpdate} (hfirst : first.Sublist emptyCycle.messages)
    (hsecond : second.Sublist orderCycle.messages)
    (hcbs : snapshotMessages cbs =
      first.map (fun m => (0, m)) ++ second.map fun m => (1, m)) : Lossy twoCycles cbs := by
  refine ⟨2, ?_⟩
  have hbroadcast : broadcast twoCycles 2 =
      emptyCycle.messages.map (fun m => (0, m)) ++ orderCycle.messages.map fun m => (1, m) := by
    simp [broadcast, List.range_succ, twoCycles]
  rw [hbroadcast, hcbs]
  exact (hfirst.map _).append (hsecond.map _)

/-- The first incremental is lost, then the messages of the first cycle from number 3 on and
those of the second up to number 2. -/
def mixedRun : List (Callback (ℕ × MDPMarketUpdate)) :=
  [⟨false, [(0, ⟨2, addOf 2⟩)]⟩, ⟨true, ((numbered 0 emptyCycle.opening).take 3).map fun m => (0, m)⟩,
    ⟨true, ((numbered 0 orderCycle.opening).drop 3).map (fun m => (1, m)) ++
      [(1, orderCycle.endMessage)]⟩]

theorem take_sublist_messages (s : Snapshot) (n : ℕ) :
    ((numbered 0 s.opening).take n).Sublist s.messages := by
  rw [s.messages_eq]
  exact (List.take_sublist ..).trans (List.sublist_append_left ..)

theorem lossy_mixedRun : Lossy twoCycles mixedRun := by
  have hsecond : ((numbered 0 orderCycle.opening).drop 3 ++ [orderCycle.endMessage]).Sublist
      orderCycle.messages := by
    rw [orderCycle.messages_eq]
    exact (List.drop_sublist ..).append (List.Sublist.refl _)
  exact lossy_twoCycles (take_sublist_messages emptyCycle 3) hsecond rfl

/-- The consumer recovers to the number of the second cycle without the order it contains. -/
theorem not_usesOneCycle_mixedRun :
    SnapshotSynthesizer.new.publishSnapshot = (twoCycles 0).messages ∧
      (∃ syn, SnapshotSynthesizer.new.run [⟨1, firstOrder⟩] = .ok syn ∧
        syn.publishSnapshot = (twoCycles 1).messages) ∧
      Lossy twoCycles mixedRun ∧ ¬ UsesOneCycle twoCycles mixedRun ∧
      (received mixedRun).in_recovery_ = false ∧ (received mixedRun).synced = 1 ∧
      firstOrder ∈ orderCycle.events ∧ firstOrder ∉ (received mixedRun).incoming_md_updates_ := by
  refine ⟨publishSnapshot_new, publishSnapshot_firstOrder, lossy_mixedRun, fun h => ?_,
    by decide, by decide, by decide, by decide⟩
  have hmoment : IsMoment mixedRun mixedRun :=
    ⟨mixedRun.take 2, true, _, [], [], rfl, by rw [List.append_nil]; rfl⟩
  obtain ⟨hlatest, -⟩ :=
    h (mixedRun.take 2) true (((numbered 0 orderCycle.opening).drop 3).map fun m => (1, m))
      (1, orderCycle.endMessage) _ _ hmoment rfl rfl (by decide) (by decide)
  exact absurd hlatest (by decide)

/-- The same losses, but for those in the second cycle. -/
def unmixedRun : List (Callback (ℕ × MDPMarketUpdate)) :=
  [⟨false, [(0, ⟨2, addOf 2⟩)]⟩, ⟨true, ((numbered 0 emptyCycle.opening).take 3).map fun m => (0, m)⟩,
    ⟨true, orderCycle.messages.map fun m => (1, m)⟩]

theorem usesOneCycle_unmixedRun :
    UsesOneCycle twoCycles unmixedRun ∧ (received unmixedRun).synced = 1 ∧
      firstOrder ∈ (received unmixedRun).incoming_md_updates_ := by
  have hlossy : Lossy twoCycles unmixedRun :=
    lossy_twoCycles (take_sublist_messages emptyCycle 3) (List.Sublist.refl _) rfl
  have hcont : AllContinueCycle unmixedRun := allContinueCycle_of_forall (by decide)
  exact ⟨usesOneCycle hlossy hcont, by decide, by decide⟩

end MarketDataConsumer

end TradingEcosystem
