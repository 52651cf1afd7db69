import Mathlib.Data.List.Basic
import Mathlib.Data.List.Induction
import TradingEcosystem.Lib.SortedMap
import TradingEcosystem.Common.Types

/-!
# Market Data Consumer

`trading/market_data/market_data_consumer.{h,cpp}`: the consumer of the incremental and of the
snapshot stream of market updates, which forwards the updates to the trade engine and, after a
gap in the incremental stream, recovers from a snapshot.

The counters are natural numbers: none of them gets near 2^64.

- `MarketDataConsumer.recvCallback`, `MarketDataConsumer.checkSnapshotSync` : the code
- `MarketDataConsumer.moments` : induction on the messages of a run
- `MarketDataConsumer.incrementals_exact` : the incrementals forwarded since the latest recovery
-/

namespace TradingEcosystem

open Lib (SortedMap)

/-- Every update but the two markers of a snapshot cycle. -/
def MEMarketUpdate.IsEvent (u : MEMarketUpdate) : Prop :=
  u.type_ ≠ .SNAPSHOT_START ∧ u.type_ ≠ .SNAPSHOT_END

instance : DecidablePred MEMarketUpdate.IsEvent := fun _ => instDecidableAnd

/-- The messages a call of `recvCallback` finds in the buffer of its socket. -/
structure Callback (μ : Type) where
  is_snapshot : Bool
  messages : List μ

structure MarketDataConsumer where
  next_exp_inc_seq_num_ : ℕ := 1
  in_recovery_ : Bool := false
  snapshot_queued_msgs_ : SortedMap ℕ MEMarketUpdate := .empty
  incremental_queued_msgs_ : SortedMap ℕ MEMarketUpdate := .empty
  /-- Everything written to the queue to the trade engine so far. -/
  incoming_md_updates_ : List MEMarketUpdate := []
  /-- The number that the `SNAPSHOT_END` of the latest completed recovery carried. -/
  synced : ℕ := 0
  /-- The incrementals among what was written since then. -/
  incrementals : List MEMarketUpdate := []

namespace MarketDataConsumer

/-! ## The code -/

def new : MarketDataConsumer := {}

/-- The loop over the queued snapshot messages: the events among them, when there is no gap. -/
def collectSnapshot (next_snapshot_seq : ℕ) :
    List (ℕ × MEMarketUpdate) → Option (List MEMarketUpdate)
  | [] => some []
  | (seq, u) :: snapshot_itr =>
    -- a gap in the snapshot stream
    if seq ≠ next_snapshot_seq then
      none
    else if u.IsEvent then
      (collectSnapshot (next_snapshot_seq + 1) snapshot_itr).map (u :: ·)
    else
      collectSnapshot (next_snapshot_seq + 1) snapshot_itr

/-- The loop over the queued incrementals: the number expected when it ends, and the events to
replay when there is no gap. -/
def replay (next_exp_inc_seq_num : ℕ) :
    List (ℕ × MEMarketUpdate) → ℕ × Option (List MEMarketUpdate)
  | [] => (next_exp_inc_seq_num, some [])
  | (seq, u) :: inc_itr =>
    -- part of the snapshot already
    if seq < next_exp_inc_seq_num then
      replay next_exp_inc_seq_num inc_itr
    -- a gap in the queued incrementals
    else if seq ≠ next_exp_inc_seq_num then
      (next_exp_inc_seq_num, none)
    else if u.IsEvent then
      ((replay (next_exp_inc_seq_num + 1) inc_itr).1,
        (replay (next_exp_inc_seq_num + 1) inc_itr).2.map (u :: ·))
    else
      replay (next_exp_inc_seq_num + 1) inc_itr

def clearSnapshot (c : MarketDataConsumer) : MarketDataConsumer :=
  { c with snapshot_queued_msgs_ := .empty }

/-- The end of `checkSnapshotSync`, reached with a whole snapshot. -/
def finishSync (c : MarketDataConsumer) (snapshot_events : List MEMarketUpdate)
    (last_snapshot_msg : MEMarketUpdate) : MarketDataConsumer :=
  match replay (last_snapshot_msg.order_id_ + 1) c.incremental_queued_msgs_.entries with
  -- the number expected next has been overwritten even when the recovery is given up
  | (next_exp, none) => { c with next_exp_inc_seq_num_ := next_exp }.clearSnapshot
  | (next_exp, some events) =>
    { next_exp_inc_seq_num_ := next_exp
      in_recovery_ := false
      snapshot_queued_msgs_ := .empty
      incremental_queued_msgs_ := .empty
      incoming_md_updates_ := c.incoming_md_updates_ ++ (snapshot_events ++ events)
      synced := last_snapshot_msg.order_id_
      incrementals := events }

/-- Check if the queued updates of the two streams allow to recover. -/
def checkSnapshotSync (c : MarketDataConsumer) : MarketDataConsumer :=
  match c.snapshot_queued_msgs_.entries with
  | [] => c
  | first_snapshot_msg :: snapshot_itr =>
    if first_snapshot_msg.2.type_ ≠ .SNAPSHOT_START then
      c.clearSnapshot
    else
      match collectSnapshot 0 (first_snapshot_msg :: snapshot_itr) with
      | none => c.clearSnapshot
      | some snapshot_events =>
        -- the snapshot is not complete yet, and what came of it stays queued
        if (snapshot_itr.getLastD first_snapshot_msg).2.type_ ≠ .SNAPSHOT_END then
          c
        else
          c.finishSync snapshot_events (snapshot_itr.getLastD first_snapshot_msg).2

def queueMessage (c : MarketDataConsumer) (is_snapshot : Bool) (request : MDPMarketUpdate) :
    MarketDataConsumer :=
  if is_snapshot then
    -- a number seen before: packets were dropped, and the snapshot is started over
    if c.snapshot_queued_msgs_.contains request.seq_num_ then
      { c with
        snapshot_queued_msgs_ :=
          SortedMap.empty.insert request.seq_num_ request.me_market_update_ }.checkSnapshotSync
    else
      { c with
        snapshot_queued_msgs_ :=
          c.snapshot_queued_msgs_.insert request.seq_num_
            request.me_market_update_ }.checkSnapshotSync
  else
    { c with
      incremental_queued_msgs_ :=
        c.incremental_queued_msgs_.insert request.seq_num_
          request.me_market_update_ }.checkSnapshotSync

/-- Enter recovery: `in_recovery_` and `startSnapshotSync`. -/
def startSnapshotSync (c : MarketDataConsumer) : MarketDataConsumer :=
  { c with
    in_recovery_ := true, snapshot_queued_msgs_ := .empty, incremental_queued_msgs_ := .empty }

/-- Process an incremental that came in order. -/
def writeIncremental (c : MarketDataConsumer) (request : MDPMarketUpdate) : MarketDataConsumer :=
  { c with
    next_exp_inc_seq_num_ := c.next_exp_inc_seq_num_ + 1
    incoming_md_updates_ := c.incoming_md_updates_ ++ [request.me_market_update_]
    incrementals := c.incrementals ++ [request.me_market_update_] }

/-- The body of the loop of `recvCallback`. -/
def onMessage (is_snapshot : Bool) (c : MarketDataConsumer) (request : MDPMarketUpdate) :
    MarketDataConsumer :=
  if c.in_recovery_ then
    c.queueMessage is_snapshot request
  else if request.seq_num_ ≠ c.next_exp_inc_seq_num_ then
    c.startSnapshotSync.queueMessage is_snapshot request
  else if is_snapshot then
    -- a snapshot message with the expected number is neither written nor counted
    c
  else
    c.writeIncremental request

def recvCallback (c : MarketDataConsumer) (socket : Callback MDPMarketUpdate) :
    MarketDataConsumer :=
  if socket.is_snapshot && !c.in_recovery_ then
    c
  else
    socket.messages.foldl (onMessage socket.is_snapshot) c

def run (c : MarketDataConsumer) (sockets : List (Callback MDPMarketUpdate)) :
    MarketDataConsumer :=
  sockets.foldl recvCallback c

/-! ## The moments of a run -/

variable {c : MarketDataConsumer} {is_snapshot : Bool} {request : MDPMarketUpdate}
  {u : MEMarketUpdate}

/-- **Induction on the messages of a run**: what holds at the start, is not changed by a new
callback and is kept by one more message of the last callback holds at every moment. -/
theorem moments {μ : Type} {P : List (Callback μ) → Prop} (nil : P [])
    (callback : ∀ cbs is_snapshot, P cbs → P (cbs ++ [⟨is_snapshot, []⟩]))
    (message : ∀ cbs is_snapshot ms m,
      P (cbs ++ [⟨is_snapshot, ms⟩]) → P (cbs ++ [⟨is_snapshot, ms ++ [m]⟩])) :
    ∀ cbs, P cbs := by
  intro cbs
  induction cbs using List.reverseRecOn with
  | nil => exact nil
  | append_singleton cbs cb ih =>
    obtain ⟨is_snapshot, ms⟩ := cb
    induction ms using List.reverseRecOn with
    | nil => exact callback cbs is_snapshot ih
    | append_singleton ms m ihm => exact message cbs is_snapshot ms m ihm

theorem run_concat (c : MarketDataConsumer) (cbs : List (Callback MDPMarketUpdate))
    (cb : Callback MDPMarketUpdate) : c.run (cbs ++ [cb]) = (c.run cbs).recvCallback cb := by
  unfold run
  rw [List.foldl_concat]

@[simp] theorem recvCallback_nil (c : MarketDataConsumer) (is_snapshot : Bool) :
    c.recvCallback ⟨is_snapshot, []⟩ = c := by
  unfold recvCallback
  split
  · rfl
  · rfl

/-- One more message of a callback. -/
theorem recvCallback_concat (c : MarketDataConsumer) (is_snapshot : Bool)
    (ms : List MDPMarketUpdate) (m : MDPMarketUpdate) :
    c.recvCallback ⟨is_snapshot, ms ++ [m]⟩ =
      if is_snapshot && !c.in_recovery_ then
        c.recvCallback ⟨is_snapshot, ms⟩
      else
        onMessage is_snapshot (c.recvCallback ⟨is_snapshot, ms⟩) m := by
  unfold recvCallback
  split
  · rfl
  · exact List.foldl_concat ..

/-- A snapshot callback outside of a recovery is discarded. -/
theorem recvCallback_discard (hrec : c.in_recovery_ = false) (ms : List MDPMarketUpdate) :
    c.recvCallback ⟨true, ms⟩ = c := by
  simp [recvCallback, hrec]

/-- One more message of a callback that finds the consumer in recovery. -/
theorem run_concat_message {cbs : List (Callback MDPMarketUpdate)} {ms : List MDPMarketUpdate}
    (hrec : (c.run (cbs ++ [⟨is_snapshot, ms⟩])).in_recovery_ = true) (m : MDPMarketUpdate) :
    c.run (cbs ++ [⟨is_snapshot, ms ++ [m]⟩]) =
      onMessage is_snapshot (c.run (cbs ++ [⟨is_snapshot, ms⟩])) m := by
  rw [run_concat] at hrec ⊢
  rw [run_concat, recvCallback_concat]
  split
  · next hdiscard =>
    -- a discarded callback leaves the consumer out of recovery
    rw [Bool.and_eq_true, Bool.not_eq_true'] at hdiscard
    rw [hdiscard.1, recvCallback_discard hdiscard.2, hdiscard.2] at hrec
    cases hrec
  · rfl

/-- **What every message keeps holds of a run**, `D` being what is known of its messages. -/
theorem invariant_run {I : MarketDataConsumer → Prop} {D : Bool → MDPMarketUpdate → Prop}
    (hnew : I new) (hstep : ∀ c is_snapshot m, I c → D is_snapshot m → I (c.onMessage is_snapshot m))
    (cbs : List (Callback MDPMarketUpdate)) :
    (∀ cb ∈ cbs, ∀ m ∈ cb.messages, D cb.is_snapshot m) → I (new.run cbs) := by
  induction cbs using moments with
  | nil => exact fun _ => hnew
  | callback cbs is_snapshot ih =>
    intro hD
    rw [run_concat, recvCallback_nil]
    exact ih fun cb hcb => hD cb (List.mem_append_left _ hcb)
  | message cbs is_snapshot ms m ih =>
    intro hD
    have hlast := hD ⟨is_snapshot, ms ++ [m]⟩ (by simp)
    have h : I (new.run (cbs ++ [⟨is_snapshot, ms⟩])) := by
      refine ih fun cb hcb => ?_
      rcases List.mem_append.mp hcb with hcb | hcb
      · exact hD cb (List.mem_append_left _ hcb)
      · rw [List.mem_singleton.mp hcb]
        exact fun m' hm' => hlast m' (List.mem_append_left _ hm')
    rw [run_concat] at h ⊢
    rw [recvCallback_concat]
    split
    · exact h
    · exact hstep _ _ _ h (hlast m (by simp))

/-! ## What a check does -/

/-- The consumer after a check: as it was, without the queued snapshot, or recovered. -/
inductive Checked (c : MarketDataConsumer) : MarketDataConsumer → Prop where
  | unchanged : Checked c c
  | dropped (next_exp : ℕ) : Checked c { c with next_exp_inc_seq_num_ := next_exp }.clearSnapshot
  | recovered (snapshot_events : List MEMarketUpdate) (last : MEMarketUpdate) (next_exp : ℕ)
      (events : List MEMarketUpdate)
      (hreplay : replay (last.order_id_ + 1) c.incremental_queued_msgs_.entries =
        (next_exp, some events)) :
      Checked c
        { next_exp_inc_seq_num_ := next_exp
          in_recovery_ := false
          snapshot_queued_msgs_ := .empty
          incremental_queued_msgs_ := .empty
          incoming_md_updates_ := c.incoming_md_updates_ ++ (snapshot_events ++ events)
          synced := last.order_id_
          incrementals := events }

theorem finishSync_checked (c : MarketDataConsumer) (snapshot_events : List MEMarketUpdate)
    (last : MEMarketUpdate) : Checked c (c.finishSync snapshot_events last) := by
  unfold finishSync
  split
  · exact .dropped _
  · next heq => exact .recovered snapshot_events last _ _ heq

theorem finishSync_of_replay {snapshot_events events : List MEMarketUpdate} {last : MEMarketUpdate}
    {next_exp : ℕ}
    (h : replay (last.order_id_ + 1) c.incremental_queued_msgs_.entries = (next_exp, some events)) :
    c.finishSync snapshot_events last =
      { next_exp_inc_seq_num_ := next_exp
        in_recovery_ := false
        snapshot_queued_msgs_ := .empty
        incremental_queued_msgs_ := .empty
        incoming_md_updates_ := c.incoming_md_updates_ ++ (snapshot_events ++ events)
        synced := last.order_id_
        incrementals := events } := by
  unfold finishSync
  rw [h]

/-- What is forwarded when a recovery ends. -/
theorem incoming_finishSync {snapshot_events : List MEMarketUpdate} {last : MEMarketUpdate}
    (hrec : c.in_recovery_ = true) (hdone : (c.finishSync snapshot_events last).in_recovery_ = false) :
    (c.finishSync snapshot_events last).incoming_md_updates_ =
      c.incoming_md_updates_ ++
        (snapshot_events ++ (c.finishSync snapshot_events last).incrementals) := by
  unfold finishSync at hdone ⊢
  split
  · next heq =>
    rw [heq] at hdone
    exact absurd (hrec.symm.trans hdone) Bool.noConfusion
  · rfl

theorem checkSnapshotSync_checked (c : MarketDataConsumer) : Checked c c.checkSnapshotSync := by
  unfold checkSnapshotSync
  split
  · exact .unchanged
  · split
    · exact .dropped c.next_exp_inc_seq_num_
    · split
      · exact .dropped c.next_exp_inc_seq_num_
      · split
        · exact .unchanged
        · exact finishSync_checked ..

/-- Queueing a message is writing it into a queue and a check. -/
theorem queueMessage_checked (c : MarketDataConsumer) (is_snapshot : Bool)
    (request : MDPMarketUpdate) :
    ∃ snapshot_queue,
      Checked
        { c with
          snapshot_queued_msgs_ := snapshot_queue
          incremental_queued_msgs_ :=
            if is_snapshot then c.incremental_queued_msgs_
            else c.incremental_queued_msgs_.insert request.seq_num_ request.me_market_update_ }
        (c.queueMessage is_snapshot request) := by
  unfold queueMessage
  cases is_snapshot with
  | false => exact ⟨_, checkSnapshotSync_checked _⟩
  | true =>
    simp only [if_true]
    split
    · exact ⟨_, checkSnapshotSync_checked _⟩
    · exact ⟨_, checkSnapshotSync_checked _⟩

theorem forall_mem_queue {P : ℕ × MEMarketUpdate → Prop}
    (h : ∀ p ∈ c.incremental_queued_msgs_.entries, P p)
    (hm : is_snapshot = false → P (request.seq_num_, request.me_market_update_)) :
    ∀ p ∈ (if is_snapshot then c.incremental_queued_msgs_
      else c.incremental_queued_msgs_.insert request.seq_num_ request.me_market_update_).entries,
      P p := by
  cases is_snapshot with
  | true => exact h
  | false =>
    intro p hp
    rcases SortedMap.mem_insert.mp hp with rfl | ⟨hp, -⟩
    · exact hm rfl
    · exact h p hp

/-- What is known of the incrementals that arrive is known of the queued ones. -/
theorem forall_queued_queueMessage {P : ℕ × MEMarketUpdate → Prop}
    (h : ∀ p ∈ c.incremental_queued_msgs_.entries, P p)
    (hm : is_snapshot = false → P (request.seq_num_, request.me_market_update_)) :
    ∀ p ∈ (c.queueMessage is_snapshot request).incremental_queued_msgs_.entries, P p := by
  obtain ⟨snapshot_queue, hchecked⟩ := queueMessage_checked c is_snapshot request
  generalize c.queueMessage is_snapshot request = c' at hchecked
  cases hchecked with
  | unchanged => exact forall_mem_queue h hm
  | dropped => exact forall_mem_queue h hm
  | recovered =>
    intro p hp
    cases hp

theorem forall_queued_onMessage {P : ℕ × MEMarketUpdate → Prop}
    (h : ∀ p ∈ c.incremental_queued_msgs_.entries, P p)
    (hm : is_snapshot = false → P (request.seq_num_, request.me_market_update_)) :
    ∀ p ∈ (c.onMessage is_snapshot request).incremental_queued_msgs_.entries, P p := by
  unfold onMessage
  split
  · exact forall_queued_queueMessage h hm
  · split
    · refine forall_queued_queueMessage ?_ hm
      intro p hp
      cases hp
    · split
      · exact h
      · exact h

/-! ## The incrementals since the latest recovery -/

/-- A callback of the incremental stream brings updates under the numbers they were published
with: lost, repeated and out of order as it may be. -/
def Delivers (published : ℕ → MEMarketUpdate) (cb : Callback MDPMarketUpdate) : Prop :=
  cb.is_snapshot = false →
    ∀ m ∈ cb.messages, 1 ≤ m.seq_num_ ∧ m.me_market_update_ = published m.seq_num_

variable {published : ℕ → MEMarketUpdate}

/-- What is replayed are the updates from the first expected number up to the last. -/
theorem replay_eq (hevent : ∀ n, 1 ≤ n → (published n).IsEvent)
    {queue : List (ℕ × MEMarketUpdate)} (hqueue : ∀ p ∈ queue, 1 ≤ p.1 ∧ p.2 = published p.1) :
    ∀ {next_exp next_exp' : ℕ} {events : List MEMarketUpdate},
      replay next_exp queue = (next_exp', some events) →
      next_exp ≤ next_exp' ∧
        events = (List.range' next_exp (next_exp' - next_exp)).map published := by
  induction queue with
  | nil =>
    intro next_exp next_exp' events h
    cases h
    simp
  | cons p queue ih =>
    intro next_exp next_exp' events h
    obtain ⟨seq, u⟩ := p
    obtain ⟨⟨hpos, hu⟩, hrest⟩ := List.forall_mem_cons.mp hqueue
    rw [replay] at h
    split at h
    · -- an old entry is skipped
      exact ih hrest h
    · split at h
      · cases h
      · next hseq =>
        -- the entry is the one expected next
        have hseq : seq = next_exp := not_not.mp hseq
        subst hseq
        have hu : u = published seq := hu
        subst hu
        rw [if_pos (hevent seq hpos), Prod.mk.injEq, Option.map_eq_some_iff] at h
        obtain ⟨hnext, events', hevents', rfl⟩ := h
        obtain ⟨hle, rfl⟩ := ih hrest (Prod.ext hnext hevents')
        have hcount : next_exp' - seq = next_exp' - (seq + 1) + 1 := by omega
        rw [hcount, List.range'_succ]
        exact ⟨by omega, rfl⟩

/-- What holds between any two messages. -/
structure Inv (published : ℕ → MEMarketUpdate) (c : MarketDataConsumer) : Prop where
  queued : ∀ p ∈ c.incremental_queued_msgs_.entries, 1 ≤ p.1 ∧ p.2 = published p.1
  synced_lt : c.in_recovery_ = false → c.synced + 1 ≤ c.next_exp_inc_seq_num_
  incrementals_eq : c.in_recovery_ = false →
    c.incrementals =
      (List.range' (c.synced + 1) (c.next_exp_inc_seq_num_ - (c.synced + 1))).map published
  forwarded : c.in_recovery_ = false → c.incrementals <:+ c.incoming_md_updates_

theorem inv_new : Inv published new where
  queued := by
    intro p hp
    cases hp
  synced_lt := fun _ => le_rfl
  incrementals_eq := fun _ => rfl
  forwarded := fun _ => List.suffix_rfl

/-- In a recovery only the queued incrementals matter. -/
theorem Inv.of_recovery (hrec : c.in_recovery_ = true)
    (hqueue : ∀ p ∈ c.incremental_queued_msgs_.entries, 1 ≤ p.1 ∧ p.2 = published p.1) :
    Inv published c := by
  have hne : c.in_recovery_ ≠ false := by
    rw [hrec]
    exact Bool.noConfusion
  exact ⟨hqueue, fun h => absurd h hne, fun h => absurd h hne, fun h => absurd h hne⟩

theorem Inv.checked {c' : MarketDataConsumer} (hevent : ∀ n, 1 ≤ n → (published n).IsEvent)
    (hrec : c.in_recovery_ = true)
    (hqueue : ∀ p ∈ c.incremental_queued_msgs_.entries, 1 ≤ p.1 ∧ p.2 = published p.1)
    (h : Checked c c') : Inv published c' := by
  cases h with
  | unchanged => exact .of_recovery hrec hqueue
  | dropped => exact .of_recovery hrec hqueue
  | recovered snapshot_events last next_exp events hreplay =>
    obtain ⟨hle, hevents⟩ := replay_eq hevent hqueue hreplay
    exact
      { queued := by
          intro p hp
          cases hp
        synced_lt := fun _ => hle
        incrementals_eq := fun _ => hevents
        forwarded := fun _ => ⟨c.incoming_md_updates_ ++ snapshot_events, List.append_assoc ..⟩ }

/-- Queueing a message in a recovery. -/
theorem inv_queueMessage (hevent : ∀ n, 1 ≤ n → (published n).IsEvent)
    (hrec : c.in_recovery_ = true)
    (hqueue : ∀ p ∈ c.incremental_queued_msgs_.entries, 1 ≤ p.1 ∧ p.2 = published p.1)
    (hm : is_snapshot = false →
      1 ≤ request.seq_num_ ∧ request.me_market_update_ = published request.seq_num_) :
    Inv published (c.queueMessage is_snapshot request) := by
  obtain ⟨snapshot_queue, hchecked⟩ := queueMessage_checked c is_snapshot request
  refine Inv.checked hevent ?_ ?_ hchecked
  · exact hrec
  · exact forall_mem_queue hqueue hm

theorem Inv.writeIncremental (h : Inv published c) (hrec : c.in_recovery_ = false)
    (hseq : request.seq_num_ = c.next_exp_inc_seq_num_)
    (hm : request.me_market_update_ = published request.seq_num_) :
    Inv published (c.writeIncremental request) where
  queued := h.queued
  synced_lt := fun _ => Nat.le_succ_of_le (h.synced_lt hrec)
  incrementals_eq := by
    intro _
    have hle := h.synced_lt hrec
    have hcount : c.next_exp_inc_seq_num_ + 1 - (c.synced + 1) =
        c.next_exp_inc_seq_num_ - (c.synced + 1) + 1 := by omega
    have hlast : c.synced + 1 + (c.next_exp_inc_seq_num_ - (c.synced + 1)) =
        c.next_exp_inc_seq_num_ := by omega
    show c.incrementals ++ [request.me_market_update_] = _
    rw [h.incrementals_eq hrec, hm, hseq]
    simp only [MarketDataConsumer.writeIncremental]
    rw [hcount, List.range'_1_concat, List.map_append, hlast]
    rfl
  forwarded := by
    intro _
    obtain ⟨before, hbefore⟩ := h.forwarded hrec
    refine ⟨before, ?_⟩
    show before ++ (c.incrementals ++ _) = c.incoming_md_updates_ ++ _
    rw [← hbefore, List.append_assoc]

/-- **One message keeps the invariant.** -/
theorem Inv.onMessage (hevent : ∀ n, 1 ≤ n → (published n).IsEvent) (h : Inv published c)
    (hm : is_snapshot = false →
      1 ≤ request.seq_num_ ∧ request.me_market_update_ = published request.seq_num_) :
    Inv published (c.onMessage is_snapshot request) := by
  unfold MarketDataConsumer.onMessage
  split
  · next hrec => exact inv_queueMessage hevent hrec h.queued hm
  · next hrec =>
    split
    · refine inv_queueMessage hevent rfl ?_ hm
      intro p hp
      cases hp
    · next hseq =>
      split
      · exact h
      · next hsnapshot =>
        have hm := hm (by simpa using hsnapshot)
        exact h.writeIncremental (by simpa using hrec) (not_not.mp hseq) hm.2

theorem inv_run (hevent : ∀ n, 1 ≤ n → (published n).IsEvent)
    (cbs : List (Callback MDPMarketUpdate)) (hcbs : ∀ cb ∈ cbs, Delivers published cb) :
    Inv published (new.run cbs) :=
  invariant_run inv_new (fun _ _ _ h hm => h.onMessage hevent hm) cbs
    fun cb hcb m hm hsnapshot => hcbs cb hcb hsnapshot m hm

/-- A message that leaves the consumer in recovery writes nothing. -/
theorem incoming_queueMessage (hrec : (c.queueMessage is_snapshot request).in_recovery_ = true) :
    (c.queueMessage is_snapshot request).incoming_md_updates_ = c.incoming_md_updates_ := by
  obtain ⟨snapshot_queue, hchecked⟩ := queueMessage_checked c is_snapshot request
  generalize c.queueMessage is_snapshot request = c' at hchecked hrec
  cases hchecked with
  | unchanged => rfl
  | dropped => rfl
  | recovered => cases hrec

theorem incoming_onMessage (hrec : (c.onMessage is_snapshot request).in_recovery_ = true) :
    (c.onMessage is_snapshot request).incoming_md_updates_ = c.incoming_md_updates_ := by
  unfold onMessage at hrec ⊢
  split at hrec
  · next h =>
    rw [if_pos h]
    exact incoming_queueMessage hrec
  · next h =>
    rw [if_neg h]
    split at hrec
    · next hseq =>
      rw [if_pos hseq]
      exact incoming_queueMessage hrec
    · next hseq =>
      split at hrec
      · exact absurd hrec h
      · exact absurd hrec h

/-- **No incremental is skipped, repeated or reordered**: outside of a recovery the incrementals
forwarded since the latest one are those numbered from one past its snapshot up to the next
expected number, and a message that leaves the consumer in recovery forwards nothing.  A moment
inside a callback is the run whose last callback stops there. -/
theorem incrementals_exact (hevent : ∀ n, 1 ≤ n → (published n).IsEvent)
    (cbs : List (Callback MDPMarketUpdate)) (hcbs : ∀ cb ∈ cbs, Delivers published cb) :
    ((new.run cbs).in_recovery_ = false →
      (new.run cbs).synced + 1 ≤ (new.run cbs).next_exp_inc_seq_num_ ∧
      (new.run cbs).incrementals =
        (List.range' ((new.run cbs).synced + 1)
          ((new.run cbs).next_exp_inc_seq_num_ - ((new.run cbs).synced + 1))).map published ∧
      (new.run cbs).incrementals <:+ (new.run cbs).incoming_md_updates_) ∧
    ∀ cbs' is_snapshot ms m, cbs = cbs' ++ [⟨is_snapshot, ms ++ [m]⟩] →
      (new.run cbs).in_recovery_ = true →
      (new.run cbs).incoming_md_updates_ =
        (new.run (cbs' ++ [⟨is_snapshot, ms⟩])).incoming_md_updates_ := by
  have hinv := inv_run hevent cbs hcbs
  refine ⟨fun hrec => ⟨hinv.synced_lt hrec, hinv.incrementals_eq hrec, hinv.forwarded hrec⟩, ?_⟩
  rintro cbs' is_snapshot ms m rfl hrec
  rw [run_concat, recvCallback_concat] at hrec
  rw [run_concat, run_concat, recvCallback_concat]
  split at hrec
  · next h => rw [if_pos h]
  · next h =>
    rw [if_neg h]
    exact incoming_onMessage hrec

/-- The update that adds the order `n`. -/
def addOf (n : ℕ) : MEMarketUpdate := { type_ := .ADD, order_id_ := n }

/-- The second incremental is lost, and a snapshot that contains it arrives in two parts. -/
def lostSecond : List (Callback MDPMarketUpdate) :=
  [⟨false, [⟨1, addOf 1⟩, ⟨3, addOf 3⟩]⟩,
    ⟨true, [⟨0, { type_ := .SNAPSHOT_START, order_id_ := 2 }⟩, ⟨1, { type_ := .CLEAR }⟩]⟩,
    ⟨false, [⟨3, addOf 3⟩]⟩,
    ⟨true, [⟨2, addOf 1⟩, ⟨3, addOf 2⟩, ⟨4, { type_ := .SNAPSHOT_END, order_id_ := 2 }⟩]⟩,
    ⟨false, [⟨4, addOf 4⟩]⟩]

theorem incrementals_exact_lostSecond :
    (new.run lostSecond).incrementals = [addOf 3, addOf 4] ∧
      (new.run lostSecond).incrementals <:+ (new.run lostSecond).incoming_md_updates_ := by
  have hevent : ∀ n, 1 ≤ n → (addOf n).IsEvent := fun n _ => ⟨by simp [addOf], by simp [addOf]⟩
  have hdelivers : ∀ cb ∈ lostSecond, Delivers addOf cb := by
    simp [lostSecond, Delivers]
  have hrec : (new.run lostSecond).in_recovery_ = false := by decide
  have hsynced : (new.run lostSecond).synced = 2 := by decide
  have hnext : (new.run lostSecond).next_exp_inc_seq_num_ = 5 := by decide
  obtain ⟨-, hinc, hforwarded⟩ := (incrementals_exact hevent lostSecond hdelivers).1 hrec
  rw [hsynced, hnext] at hinc
  exact ⟨hinc, hforwarded⟩

end MarketDataConsumer

end TradingEcosystem
