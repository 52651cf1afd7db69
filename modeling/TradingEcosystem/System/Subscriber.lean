import TradingEcosystem.Exchange.Addressed
import TradingEcosystem.System.Recovery
import TradingEcosystem.Trading.Reset
import TradingEcosystem.Trading.TradeEngine

/-!
# A Client's Books Follow the Exchange

The whole way of the market data: the updates of the matching engine, the incremental stream and
the snapshot cycles made of them, the consumer that recovers from gaps, and the books of the trade
engine behind it.

- `MarketDataConsumer.Follows` : what a consumer forwards, and which update it stands at
- `MarketDataConsumer.follows_run` : every run forwards that
- `MarketDataConsumer.Follows.quotes` : the forwarded updates quote what the exchange quoted then
- `tradeEngine_follows` : the books of the trade engine are those of the exchange
-/

namespace TradingEcosystem

open Lib (SortedMap)
open LimitBook
open MEOrderBook (Call)

theorem mem_numbered {us : List MEMarketUpdate} {m : MDPMarketUpdate} :
    m ∈ numbered 1 us ↔ ∃ k, m.seq_num_ = k + 1 ∧ us[k]? = some m.me_market_update_ := by
  rw [List.mem_iff_getElem?]
  simp only [getElem?_numbered, Option.map_eq_some_iff]
  constructor
  · rintro ⟨k, u, hu, rfl⟩
    exact ⟨k, Nat.add_comm 1 k, hu⟩
  · rintro ⟨k, hseq, hu⟩
    refine ⟨k, m.me_market_update_, hu, ?_⟩
    rw [Nat.add_comm, ← hseq]

namespace MarketDataConsumer

open SnapshotQueue

/-! ## What is forwarded -/

/-- What a consumer may forward of the updates `us`: one after the other, and from time to time the
events of a whole cycle.  The number is that of the last update that has gone into it. -/
inductive Follows (us : List MEMarketUpdate) (cycles : ℕ → Snapshot) :
    List MEMarketUpdate → ℕ → Prop where
  | start : Follows us cycles [] 0
  | update {fs : List MEMarketUpdate} {k : ℕ} {u : MEMarketUpdate} (h : Follows us cycles fs k)
      (hu : us[k]? = some u) : Follows us cycles (fs ++ [u]) (k + 1)
  | snapshot {fs : List MEMarketUpdate} {k : ℕ} (h : Follows us cycles fs k) (i : ℕ) :
      Follows us cycles (fs ++ (cycles i).events) (cycles i).last_inc_seq_num_

variable {us : List MEMarketUpdate} {cycles : ℕ → Snapshot} {c c' : MarketDataConsumer}

/-- The replayed incrementals come one after the other; induction on the queue. -/
theorem Follows.replay {queue : List (ℕ × MEMarketUpdate)} (hevent : ∀ u ∈ us, u.IsEvent)
    (hqueue : ∀ p ∈ queue, ⟨p.1, p.2⟩ ∈ numbered 1 us) :
    ∀ {k next_exp : ℕ} {fs events : List MEMarketUpdate}, Follows us cycles fs k →
      MarketDataConsumer.replay (k + 1) queue = (next_exp, some events) →
      ∃ k', next_exp = k' + 1 ∧ Follows us cycles (fs ++ events) k' := by
  induction queue with
  | nil =>
    intro k next_exp fs events h hreplay
    cases hreplay
    exact ⟨k, rfl, (List.append_nil fs).symm ▸ h⟩
  | cons p queue ih =>
    intro k next_exp fs events h hreplay
    obtain ⟨seq, u⟩ := p
    obtain ⟨hp, hrest⟩ := List.forall_mem_cons.mp hqueue
    rw [MarketDataConsumer.replay] at hreplay
    split at hreplay
    · exact ih hrest h hreplay
    · split at hreplay
      · cases hreplay
      · next hseq =>
        obtain rfl : seq = k + 1 := not_not.mp hseq
        obtain ⟨k', hk', hu⟩ := mem_numbered.mp hp
        obtain rfl : k = k' := Nat.succ_injective hk'
        rw [if_pos (hevent u (List.mem_of_getElem? hu)), Prod.mk.injEq,
          Option.map_eq_some_iff] at hreplay
        obtain ⟨hnext, events', hevents', rfl⟩ := hreplay
        obtain ⟨k', hk', h'⟩ := ih hrest (h.update hu) (Prod.ext hnext hevents')
        rw [List.append_assoc, List.singleton_append] at h'
        exact ⟨k', hk', h'⟩

/-- The end of a recovery from the cycle `i`. -/
theorem Follows.finishSync {fs : List MEMarketUpdate} {k i : ℕ} (hevent : ∀ u ∈ us, u.IsEvent)
    (hqueue : ∀ p ∈ c.incremental_queued_msgs_.entries, ⟨p.1, p.2⟩ ∈ numbered 1 us)
    (h : Follows us cycles fs k) (hfs : c.incoming_md_updates_ = fs)
    (hrec : c.in_recovery_ = true)
    (hdone : (c.finishSync (cycles i).events (cycles i).endUpdate).in_recovery_ = false) :
    ∃ k', (c.finishSync (cycles i).events (cycles i).endUpdate).next_exp_inc_seq_num_ = k' + 1 ∧
      Follows us cycles
        (c.finishSync (cycles i).events (cycles i).endUpdate).incoming_md_updates_ k' := by
  unfold MarketDataConsumer.finishSync at hdone ⊢
  split at hdone
  · exact absurd (hrec.symm.trans hdone) Bool.noConfusion
  · next next_exp events hreplay =>
    have hreplay : MarketDataConsumer.replay ((cycles i).last_inc_seq_num_ + 1)
        c.incremental_queued_msgs_.entries = (next_exp, some events) := hreplay
    obtain ⟨k', hk', h'⟩ := (h.snapshot i).replay hevent hqueue hreplay
    simp only [hfs]
    exact ⟨k', hk', by rwa [List.append_assoc] at h'⟩

/-! ## A run of the consumer -/

/-- What holds of a consumer between any two messages. -/
structure Tracks (us : List MEMarketUpdate) (cycles : ℕ → Snapshot) (c : MarketDataConsumer) :
    Prop where
  queued : ∀ p ∈ c.incremental_queued_msgs_.entries, ⟨p.1, p.2⟩ ∈ numbered 1 us
  forwarded : ∃ k, Follows us cycles c.incoming_md_updates_ k ∧
    (c.in_recovery_ = false → c.next_exp_inc_seq_num_ = k + 1)

theorem tracks_new : Tracks us cycles new where
  queued := by
    intro p hp
    cases hp
  forwarded := ⟨0, .start, fun _ => rfl⟩

/-- A message that leaves the consumer in recovery. -/
theorem Tracks.of_recovery (h : Tracks us cycles c) (hrec : c'.in_recovery_ = true)
    (hqueue : ∀ p ∈ c'.incremental_queued_msgs_.entries, ⟨p.1, p.2⟩ ∈ numbered 1 us)
    (hsame : c'.incoming_md_updates_ = c.incoming_md_updates_) : Tracks us cycles c' where
  queued := hqueue
  forwarded := by
    obtain ⟨k, hk, -⟩ := h.forwarded
    refine ⟨k, hsame ▸ hk, fun hdone => ?_⟩
    rw [hrec] at hdone
    cases hdone

theorem Tracks.writeIncremental {request : MDPMarketUpdate} (h : Tracks us cycles c)
    (hrec : c.in_recovery_ = false) (hseq : request.seq_num_ = c.next_exp_inc_seq_num_)
    (hm : request ∈ numbered 1 us) : Tracks us cycles (c.writeIncremental request) where
  queued := h.queued
  forwarded := by
    obtain ⟨k, hk, hnext⟩ := h.forwarded
    obtain ⟨k', hk', hu⟩ := mem_numbered.mp hm
    have hsame : k = k' := Nat.succ_injective ((hnext hrec).symm.trans (hseq.symm.trans hk'))
    exact ⟨k + 1, hk.update (hsame ▸ hu), fun _ => congrArg (· + 1) (hnext hrec)⟩

/-- Queueing a message in a recovery: it goes on, or it ended with the `SNAPSHOT_END` of the cycle
that is queued. -/
theorem Tracks.queueMessage {request : MDPMarketUpdate} {is_snapshot : Bool}
    {queued : List MEMarketUpdate} (hevent : ∀ u ∈ us, u.IsEvent)
    (h : Tracks us cycles c) (hrec : c.in_recovery_ = true) (hqueued : Queued c queued)
    (hm : is_snapshot = false → request ∈ numbered 1 us)
    (hend : is_snapshot = true → (c.queueMessage true request).in_recovery_ = false →
      ∃ i, queued = (cycles i).opening ∧ request = (cycles i).endMessage) :
    Tracks us cycles (c.queueMessage is_snapshot request) := by
  have hqueue : ∀ p ∈ (c.queueMessage is_snapshot request).incremental_queued_msgs_.entries,
      ⟨p.1, p.2⟩ ∈ numbered 1 us :=
    forall_queued_queueMessage (P := fun p => ⟨p.1, p.2⟩ ∈ numbered 1 us) h.queued fun hs => hm hs
  cases hdone : (c.queueMessage is_snapshot request).in_recovery_ with
  | true => exact h.of_recovery hdone hqueue (incoming_queueMessage hdone)
  | false =>
    cases is_snapshot with
    | false =>
      -- an incremental does not end a recovery
      rw [queueMessage_incremental hqueued.queue_eq hqueued.started hqueued.unfinished] at hdone
      exact absurd (hrec.symm.trans hdone) Bool.noConfusion
    | true =>
      obtain ⟨i, rfl, rfl⟩ := hend rfl hdone
      have hfinish := (receiving_of_queued hqueued hrec).finish
      rw [onMessage, if_pos hrec] at hfinish
      obtain ⟨k, hk, -⟩ := h.forwarded
      rw [hfinish] at hdone hqueue ⊢
      obtain ⟨k', hk', h'⟩ :=
        hk.finishSync (c := { c with snapshot_queued_msgs_ := .enum (cycles i).updates })
          hevent h.queued rfl hrec hdone
      exact ⟨hqueue, k', h', fun _ => hk'⟩

/-- **Every run forwards what follows the exchange**: incrementals lost, repeated and out of order,
and snapshot cycles with losses as long as no two of them are mixed; induction on the messages. -/
theorem tracks_run (hevent : ∀ u ∈ us, u.IsEvent)
    (cbs : List (Callback (ℕ × MDPMarketUpdate))) :
    (∀ p ∈ snapshotMessages cbs, p.2 ∈ (cycles p.1).messages) → AllContinueCycle cbs →
      (∀ cb ∈ cbs, cb.is_snapshot = false → ∀ p ∈ cb.messages, p.2 ∈ numbered 1 us) →
      Tracks us cycles (received cbs) := by
  induction cbs using moments with
  | nil =>
    intro _ _ _
    exact tracks_new
  | callback cbs is_snapshot ih =>
    intro hmem hcont hinc
    have hrun : received (cbs ++ [⟨is_snapshot, []⟩]) = received cbs := by
      unfold received
      rw [List.map_append, List.map_singleton, run_concat]
      exact recvCallback_nil ..
    have hsub : snapshotMessages cbs ⊆ snapshotMessages (cbs ++ [⟨is_snapshot, []⟩]) := by
      cases is_snapshot with
      | true => simp
      | false => simp
    rw [hrun]
    exact ih (fun p hp => hmem p (hsub hp)) (fun cbs' ms p h => hcont cbs' ms p (h.append _))
      fun cb hcb => hinc cb (List.mem_append_left _ hcb)
  | message cbs is_snapshot ms p ih =>
    intro hmem hcont hinc
    have hmoment := isMoment_concat cbs is_snapshot ms p
    have hmem' := fun q hq => hmem q (hmoment.snapshotMessages_subset hq)
    have hcont' : AllContinueCycle (cbs ++ [⟨is_snapshot, ms⟩]) :=
      fun cbs' ms' p' h => hcont cbs' ms' p' (h.trans hmoment)
    have hinc' : ∀ cb ∈ cbs ++ [⟨is_snapshot, ms⟩], cb.is_snapshot = false →
        ∀ q ∈ cb.messages, q.2 ∈ numbered 1 us := by
      intro cb hcb hs q hq
      rcases List.mem_append.mp hcb with hcb | hcb
      · exact hinc cb (List.mem_append_left _ hcb) hs q hq
      · obtain rfl := List.mem_singleton.mp hcb
        exact hinc ⟨is_snapshot, ms ++ [p]⟩ (by simp) hs q (List.mem_append_left _ hq)
    have h := ih hmem' hcont' hinc'
    obtain ⟨queued, hqueued, hlatest⟩ := fromLatest_run cycles _ hmem' hcont'
    have hp : is_snapshot = false → p.2 ∈ numbered 1 us := fun hs =>
      hinc ⟨is_snapshot, ms ++ [p]⟩ (by simp) hs p (by simp)
    have hps : is_snapshot = true → p.2 ∈ (cycles p.1).messages := by
      rintro rfl
      exact hmem p (by simp)
    rcases received_concat cbs is_snapshot ms p with hrun | ⟨-, hrun⟩
    swap
    · rw [hrun]
      exact h
    rw [hrun]
    unfold onMessage
    split
    · next hrec =>
      refine h.queueMessage hevent hrec hqueued hp fun hs hdone => ?_
      subst hs
      have hnext := hcont cbs ms p ⟨cbs, true, ms ++ [p], [], [], rfl, by simp⟩ hrec
      rw [hqueued.queue_eq, SortedMap.length_enum] at hnext
      obtain ⟨-, hopening, hend⟩ :=
        (fromLatest_queueMessage hqueued hlatest hrec (hps rfl) hnext).2 hdone
      exact ⟨p.1, hopening, hend⟩
    · next hrec =>
      have hrec : (received (cbs ++ [⟨is_snapshot, ms⟩])).in_recovery_ = false := by simpa using hrec
      split
      · -- a recovery starts, with empty queues
        have hstart : Queued (received (cbs ++ [⟨is_snapshot, ms⟩])).startSnapshotSync [] :=
          queued_nil rfl
        have htracks : Tracks us cycles
            (received (cbs ++ [⟨is_snapshot, ms⟩])).startSnapshotSync :=
          h.of_recovery rfl (by
            intro q hq
            cases hq) rfl
        refine htracks.queueMessage hevent rfl hstart hp fun hs hdone => ?_
        subst hs
        have hnone : FromLatest cycles none [] := .inl rfl
        obtain ⟨-, hopening, hend⟩ := (fromLatest_queueMessage hstart hnone rfl (hps rfl)
          fun hzero hlen => absurd hlen hzero).2 hdone
        exact ⟨p.1, hopening, hend⟩
      · next hseq =>
        split
        · exact h
        · next hs =>
          exact h.writeIncremental hrec (not_not.mp hseq) (hp (by simpa using hs))

end MarketDataConsumer

/-! ## What the exchange publishes -/

theorem updatesOf_append (t : ℕ) (us us' : List MEMarketUpdate) :
    updatesOf t (us ++ us') = updatesOf t us ++ updatesOf t us' :=
  List.filter_append ..

theorem updatesOf_cons_self {u : MEMarketUpdate} {us : List MEMarketUpdate} :
    updatesOf u.ticker_id_ (u :: us) = u :: updatesOf u.ticker_id_ us :=
  List.filter_cons_of_pos (by simp)

theorem updatesOf_cons_of_ne {t : ℕ} {u : MEMarketUpdate} {us : List MEMarketUpdate}
    (h : u.ticker_id_ ≠ t) : updatesOf t (u :: us) = updatesOf t us :=
  List.filter_cons_of_neg (by simpa using h)

/-- The updates of an exchange that accepts valid requests. -/
structure PublishedUpdates (us : List MEMarketUpdate) : Prop where
  tickers : ∀ u ∈ us, u.ticker_id_ < ME_MAX_TICKERS
  published : ∀ t, Quotes.empty.Along Quotes.Published (updatesOf t us)
  adds : us.countP (fun u => decide (u.type_ = .ADD)) < ME_MAX_ORDER_IDS
  events : ∀ u ∈ us, u.IsEvent

namespace PublishedUpdates

variable {us : List MEMarketUpdate}

theorem take (h : PublishedUpdates us) (k : ℕ) : PublishedUpdates (us.take k) where
  tickers := fun u hu => h.tickers u (List.mem_of_mem_take hu)
  published := by
    intro t
    have hall := h.published t
    rw [← List.take_append_drop k us, updatesOf_append] at hall
    exact (Quotes.along_append.mp hall).1
  adds := (List.take_sublist k us).countP_le.trans_lt h.adds
  events := fun u hu => h.events u (List.mem_of_mem_take hu)

theorem of_isPrefix {us' : List MEMarketUpdate} (h : PublishedUpdates us) (hus : us' <+: us) :
    PublishedUpdates us' := by
  rw [List.prefix_iff_eq_take.mp hus]
  exact h.take us'.length

theorem wf (h : PublishedUpdates us) (t : ℕ) : (Quotes.empty.applyAll (updatesOf t us)).WF :=
  Quotes.WF.empty.applyAll (h.published t)

theorem admits (h : PublishedUpdates us) (t : ℕ) : Quotes.empty.AdmitsAll (updatesOf t us) :=
  (h.published t).imp fun _ _ hpub => hpub.1

/-- What the synthesizer holds after them. -/
theorem synthesized (h : PublishedUpdates us) : ∃ syn adds,
    SnapshotSynthesizer.new.run (numbered 1 us) = .ok syn ∧
    SnapshotSynthesizer.Synthesized syn (fun t => Quotes.empty.applyAll (updatesOf t us))
      us.length adds := by
  have hadds := h.adds
  rw [← Nat.zero_add (us.countP _)] at hadds
  obtain ⟨syn, hrun, hheld⟩ := SnapshotSynthesizer.run_spec SnapshotSynthesizer.synthesized_new
    (fun _ => Quotes.WF.empty) h.tickers h.published hadds
  rw [Nat.zero_add us.length] at hheld
  exact ⟨syn, _, hrun, hheld⟩

end PublishedUpdates

/-- Every cycle is what the synthesizer publishes when it has taken in some first part of the
updates. -/
def PublishedCycles (us : List MEMarketUpdate) (cycles : ℕ → Snapshot) : Prop :=
  ∀ i, ∃ k syn, k ≤ us.length ∧ SnapshotSynthesizer.new.run (numbered 1 (us.take k)) = .ok syn ∧
    (cycles i).messages = syn.publishSnapshot

namespace PublishedCycles

variable {us : List MEMarketUpdate} {cycles : ℕ → Snapshot}

/-- The synthesizer that a published cycle is of. -/
theorem synthesized (hus : PublishedUpdates us) (h : PublishedCycles us cycles) (i : ℕ) :
    (cycles i).last_inc_seq_num_ ≤ us.length ∧ ∃ syn adds,
      SnapshotSynthesizer.Synthesized syn
        (fun t => Quotes.empty.applyAll (updatesOf t (us.take (cycles i).last_inc_seq_num_)))
        (cycles i).last_inc_seq_num_ adds ∧
      (cycles i).updates = syn.publishSnapshot.map MDPMarketUpdate.me_market_update_ := by
  obtain ⟨k, syn, hk, hsyn, hmessages⟩ := h i
  obtain ⟨syn', adds, hsyn', hheld⟩ := (hus.take k).synthesized
  rw [hsyn, Except.ok.injEq] at hsyn'
  subst hsyn'
  rw [List.length_take, Nat.min_eq_left hk] at hheld
  -- the cycle without its numbers
  have hupdates : (cycles i).updates = syn.publishSnapshot.map MDPMarketUpdate.me_market_update_ := by
    rw [← hmessages]
    exact (map_me_market_update_numbered ..).symm
  have hlast : (cycles i).last_inc_seq_num_ = k := by
    have hstart := hupdates
    rw [SnapshotSynthesizer.publishSnapshot_updates, hheld.last] at hstart
    have hhead := congrArg List.head? hstart
    exact congrArg MEMarketUpdate.order_id_ (Option.some.inj hhead)
  rw [hlast]
  exact ⟨hk, syn, adds, hheld, hupdates⟩

/-- What a published cycle forwards for a ticker: a `CLEAR`, and the orders quoted after the update
whose number it carries. -/
theorem updatesOf_events (hus : PublishedUpdates us) (h : PublishedCycles us cycles) (i : ℕ) {t : ℕ}
    (ht : t < ME_MAX_TICKERS) :
    updatesOf t (cycles i).events =
      { type_ := .CLEAR, ticker_id_ := t } ::
        (SnapshotSynthesizer.ordersById (Quotes.empty.applyAll
          (updatesOf t (us.take (cycles i).last_inc_seq_num_)))).map (Quotes.addOf t) := by
  obtain ⟨-, syn, adds, hheld, hupdates⟩ := synthesized hus h i
  have hmarker : TickerId_INVALID ≠ t := by
    unfold TickerId_INVALID
    unfold ME_MAX_TICKERS at ht
    omega
  have hevents : updatesOf t (cycles i).events = updatesOf t (cycles i).updates := by
    have hend : updatesOf t [(cycles i).endUpdate] = [] := updatesOf_cons_of_ne hmarker
    unfold Snapshot.updates Snapshot.opening
    rw [List.cons_append, updatesOf_cons_of_ne hmarker, updatesOf_append, hend, List.append_nil]
  rw [hevents, hupdates, SnapshotSynthesizer.updatesOf_publishSnapshot hheld ht,
    SnapshotSynthesizer.tickerUpdates_eq hheld]

/-- A cycle forwards updates of known tickers. -/
theorem tickers (hus : PublishedUpdates us) (h : PublishedCycles us cycles) (i : ℕ) :
    ∀ u ∈ (cycles i).events, u.ticker_id_ < ME_MAX_TICKERS := by
  obtain ⟨-, syn, adds, hheld, hupdates⟩ := synthesized hus h i
  rw [SnapshotSynthesizer.publishSnapshot_updates] at hupdates
  have hevents := (List.append_inj' (List.cons.inj hupdates).2 rfl).1
  intro u hu
  rw [hevents] at hu
  obtain ⟨t, ht, hu⟩ := List.mem_flatMap.mp hu
  rw [hheld.ticker_id u hu]
  exact List.mem_range.mp ht

end PublishedCycles

/-! ## The books behind a consumer -/

/-- Every `CLEAR` for the ticker comes when its book is empty. -/
def ClearsMeetEmpty (t : ℕ) (fs : List MEMarketUpdate) : Prop :=
  ∀ before u after, updatesOf t fs = before ++ u :: after → u.type_ = .CLEAR →
    ∀ m, (MarketOrderBook.new t).run before = .ok m →
      ∀ s, s.IsTrading → m.book.levelsView s = []

theorem ClearsMeetEmpty.of_append {t : ℕ} {fs fs' : List MEMarketUpdate}
    (h : ClearsMeetEmpty t (fs ++ fs')) : ClearsMeetEmpty t fs := by
  intro before u after hsplit
  apply h before u (after ++ updatesOf t fs')
  rw [updatesOf_append, hsplit, List.append_assoc, List.cons_append]

/-- A consumer that recovers before it has forwarded anything for the ticker. -/
theorem clearsMeetEmpty_of_tail {t : ℕ} {fs : List MEMarketUpdate}
    (h : ∀ u ∈ (updatesOf t fs).tail, u.type_ ≠ .CLEAR) : ClearsMeetEmpty t fs := by
  intro before u after hsplit hu m hm s hs
  cases before with
  | nil =>
    cases hm
    rcases hs with rfl | rfl
    · rfl
    · rfl
  | cons u' before =>
    refine absurd hu (h u ?_)
    rw [hsplit]
    simp

namespace MarketDataConsumer

variable {us fs : List MEMarketUpdate} {cycles : ℕ → Snapshot} {k t : ℕ}

/-- A consumer never stands past the last update. -/
theorem Follows.le_length (hus : PublishedUpdates us) (hcycles : PublishedCycles us cycles)
    (h : Follows us cycles fs k) : k ≤ us.length := by
  cases h with
  | start => exact Nat.zero_le _
  | update _ hu => exact (List.getElem?_eq_some_iff.mp hu).1
  | snapshot _ i => exact (PublishedCycles.synthesized hus hcycles i).1

theorem Follows.tickers (hus : PublishedUpdates us) (hcycles : PublishedCycles us cycles)
    (h : Follows us cycles fs k) : ∀ u ∈ fs, u.ticker_id_ < ME_MAX_TICKERS := by
  induction h with
  | start =>
    intro u hu
    cases hu
  | update _ hu ih =>
    exact List.forall_mem_append.mpr
      ⟨ih, List.forall_mem_singleton.mpr (hus.tickers _ (List.mem_of_getElem? hu))⟩
  | snapshot _ i ih =>
    exact List.forall_mem_append.mpr ⟨ih, PublishedCycles.tickers hus hcycles i⟩

/-- **The forwarded updates quote what the exchange quoted** after the update the consumer stands
at; induction on what is forwarded. -/
theorem Follows.quotes (hus : PublishedUpdates us) (hcycles : PublishedCycles us cycles)
    (ht : t < ME_MAX_TICKERS) (h : Follows us cycles fs k) (hclear : ClearsMeetEmpty t fs) :
    Quotes.empty.AdmitsAll (updatesOf t fs) ∧
      Quotes.empty.applyAll (updatesOf t fs) =
        Quotes.empty.applyAll (updatesOf t (us.take k)) := by
  induction h with
  | start => exact ⟨trivial, rfl⟩
  | @update fs k u _ hu ih =>
    obtain ⟨hadm, hquotes⟩ := ih hclear.of_append
    have htake : us.take (k + 1) = us.take k ++ [u] := by
      rw [List.take_add_one, hu]
      rfl
    have hadm' := (hus.take (k + 1)).admits t
    rw [htake, updatesOf_append, Quotes.admitsAll_append, ← hquotes] at hadm'
    rw [htake, updatesOf_append, updatesOf_append, Quotes.applyAll_append, Quotes.applyAll_append,
      hquotes]
    exact ⟨Quotes.admitsAll_append.mpr ⟨hadm, hadm'.2⟩, rfl⟩
  | @snapshot fs k _ i ih =>
    obtain ⟨hadm, -⟩ := ih hclear.of_append
    have hevents := PublishedCycles.updatesOf_events hus hcycles i ht
    -- the `CLEAR` of the cycle meets an empty book
    have hempty : Quotes.empty.applyAll (updatesOf t fs) = Quotes.empty := by
      obtain ⟨m, sh, hrun, hholds, -⟩ := MarketOrderBook.run_spec (MarketOrderBook.holds_new t) hadm
      have hnil := hclear (updatesOf t fs) _ _ (by rw [updatesOf_append, hevents]) rfl m hrun
      refine Quotes.ext_side fun s hs => ?_
      by_contra hne
      refine MarketOrderBook.levelsView_ne_nil hholds hs (fun hside => hne ?_) (hnil s hs)
      rw [hside]
      rcases hs with rfl | rfl
      · rfl
      · rfl
    have hwf := (hus.take (cycles i).last_inc_seq_num_).wf t
    obtain ⟨hadm', hreplay⟩ := Quotes.replay_clear t hwf
      (SnapshotSynthesizer.ordersById_perm hwf) (SnapshotSynthesizer.ordersById_sorted hwf)
    rw [updatesOf_append, hevents, Quotes.applyAll_append, Quotes.admitsAll_append, hempty]
    exact ⟨⟨hadm, hadm'⟩, hreplay⟩

/-- A book can follow what is forwarded for its ticker. -/
theorem Follows.exists_run (hus : PublishedUpdates us) (hcycles : PublishedCycles us cycles)
    (ht : t < ME_MAX_TICKERS) (h : Follows us cycles fs k) (hclear : ClearsMeetEmpty t fs) :
    ∃ m, (MarketOrderBook.new t).run (updatesOf t fs) = .ok m := by
  obtain ⟨m, sh, hm, -⟩ := MarketOrderBook.run_spec (MarketOrderBook.holds_new t)
    (h.quotes hus hcycles ht hclear).1
  exact ⟨m, hm⟩

end MarketDataConsumer

namespace TradeEngine

variable {F : Type} {S : Setup F} {e e' : TradeEngine F}

def Event.update? : Event → Option MEMarketUpdate
  | .response _ => none
  | .update u => some u

def Event.response? : Event → Option MEClientResponse
  | .response r => some r
  | .update _ => none

/-- The client responses among the messages. -/
def responsesIn (events : List Event) : List MEClientResponse := events.filterMap Event.response?

/-- The market updates among the messages. -/
def updatesIn (events : List Event) : List MEMarketUpdate := events.filterMap Event.update?

theorem ticker_order_book_notify {bbo : BBO} {call : Notification}
    (h : notify S bbo e call = .ok e') : e'.ticker_order_book_ = e.ticker_order_book_ := by
  cases call with
  | onTradeUpdate u =>
    obtain ⟨m, -, h⟩ := bind_eq_ok.mp h
    cases h
    rfl
  | onOrderBookUpdate ticker_id price side =>
    simp only [notify, onOrderBookUpdate] at h
    split at h
    · obtain ⟨m, -, h⟩ := bind_eq_ok.mp h
      cases h
      rfl
    · cases h

/-- The book of the ticker takes the update, whatever the strategy then does. -/
theorem ticker_order_book_onMarketUpdate {u : MEMarketUpdate} (h : e.onMarketUpdate S u = .ok e') :
    ∃ book, (e.ticker_order_book_ u.ticker_id_).onMarketUpdate u = .ok book ∧
      e'.ticker_order_book_ = Function.update e.ticker_order_book_ u.ticker_id_ book := by
  have ht := (onMarketUpdate_spec h).ticker_id
  rw [onMarketUpdate_eq ht] at h
  obtain ⟨book, hbook, h⟩ := bind_eq_ok.mp h
  exact ⟨book, hbook, ticker_order_book_notify h⟩

/-- **Each book of the engine is run on the updates of its ticker**, whatever responses come in
between. -/
theorem books_run {events : List Event} (t : ℕ) :
    ∀ {e e' : TradeEngine F}, e.run S events = .ok e' →
      (e.ticker_order_book_ t).run (updatesOf t (updatesIn events)) =
        .ok (e'.ticker_order_book_ t) := by
  induction events with
  | nil =>
    intro e e' h
    cases h
    rfl
  | cons event events ih =>
    intro e e' h
    obtain ⟨e₁, hstep, hrun⟩ := Lib.Runs.foldlM_cons_eq_ok.mp h
    cases event with
    | response r =>
      have hbook : e₁.ticker_order_book_ = e.ticker_order_book_ := (onOrderUpdate_spec hstep).book
      rw [← hbook]
      exact ih hrun
    | update u =>
      obtain ⟨book, hbook, heq⟩ := ticker_order_book_onMarketUpdate hstep
      have hrest := ih hrun
      rw [heq] at hrest
      show (e.ticker_order_book_ t).run (updatesOf t (u :: updatesIn events)) = _
      by_cases ht : t = u.ticker_id_
      · subst ht
        rw [Function.update_self] at hrest
        rw [updatesOf_cons_self]
        exact Lib.Runs.foldlM_cons_eq_ok.mpr ⟨book, hbook, hrest⟩
      · rw [Function.update_of_ne ht] at hrest
        rw [updatesOf_cons_of_ne (Ne.symm ht)]
        exact hrest

/-- The engine has an order and a position for the response, as far as it looks for them. -/
def Takes (S : Setup F) (r : MEClientResponse) : Prop :=
  S.Trades ∨ r.type_ = .FILLED → r.ticker_id_ < ME_MAX_TICKERS ∧ r.side_.hasIndex = true

theorem onOrderUpdate_isOk_iff {r : MEClientResponse} :
    (∃ e', e.onOrderUpdate S r = .ok e') ↔ Takes S r := by
  constructor
  · rintro ⟨e', h⟩ hlooks
    obtain ⟨e₁, hfill, h⟩ := bind_eq_ok.mp h
    obtain ⟨m, halgo, -⟩ := bind_eq_ok.mp h
    by_cases htype : r.type_ = .FILLED
    · unfold keepFill at hfill
      rw [if_pos htype] at hfill
      split at hfill
      · next hindex => exact hindex
      · cases hfill
    · rw [algoOnOrderUpdate_eq (hlooks.resolve_right htype)] at halgo
      unfold OrderManager.onOrderUpdate at halgo
      split at halgo
      · next hindex => exact hindex
      · cases halgo
  · intro h
    have hfill : ∃ e₁, e.keepFill S r = .ok e₁ := by
      unfold keepFill
      split
      · next htype => exact ⟨_, if_pos (h (.inr htype))⟩
      · exact ⟨_, rfl⟩
    obtain ⟨e₁, hfill⟩ := hfill
    have halgo : ∃ m, e₁.algoOnOrderUpdate S r = .ok m := by
      by_cases htrades : S.Trades
      · rw [algoOnOrderUpdate_eq htrades]
        exact ⟨_, if_pos (h (.inl htrades))⟩
      · unfold algoOnOrderUpdate
        split
        · next hmaker => exact absurd (.inl hmaker) htrades
        · next htaker => exact absurd (.inr htaker) htrades
        · exact ⟨_, rfl⟩
    obtain ⟨m, halgo⟩ := halgo
    exact ⟨_, bind_eq_ok.mpr ⟨e₁, hfill, bind_eq_ok.mpr ⟨m, halgo, rfl⟩⟩⟩

/-- A strategy has an order for every side of a known ticker. -/
theorem exists_moveOrders (N : Arith F) (risk : RiskInfo F) (m : OrderManager) {t : ℕ}
    (ht : t < ME_MAX_TICKERS) (bid_price ask_price : ℤ) (clip : ℕ) :
    ∃ m', m.moveOrders N risk t bid_price ask_price clip = .ok m' :=
  ⟨_, if_pos ht⟩

/-- The strategy answers every call of a book. -/
theorem exists_notify (S : Setup F) (bbo : BBO) (e : TradeEngine F) {u : MEMarketUpdate}
    (ht : u.ticker_id_ < ME_MAX_TICKERS) :
    ∃ e', notify S bbo e (MarketOrderBook.notification u) = .ok e' := by
  unfold MarketOrderBook.notification
  split
  · -- a trade
    set e₁ : TradeEngine F :=
      { e with feature_engine_ := e.feature_engine_.onTradeUpdate S.toArith u bbo }
    have halgo : ∃ m, e₁.algoOnTradeUpdate S u bbo = .ok m := by
      unfold algoOnTradeUpdate
      split
      · unfold LiquidityTaker.onTradeUpdate
        simp only
        split
        · split
          · exact exists_moveOrders _ _ _ ht ..
          · exact exists_moveOrders _ _ _ ht ..
        · exact ⟨_, rfl⟩
      · exact ⟨_, rfl⟩
    obtain ⟨m, halgo⟩ := halgo
    exact ⟨_, bind_eq_ok.mpr ⟨m, halgo, rfl⟩⟩
  · -- a change of the book
    set e₁ : TradeEngine F :=
      { e with
        position_keeper_ := Function.update e.position_keeper_ u.ticker_id_
          ((e.position_keeper_ u.ticker_id_).updateBBO S.toArith bbo)
        feature_engine_ := e.feature_engine_.onOrderBookUpdate S.toArith bbo }
    have halgo : ∃ m, e₁.algoOnOrderBookUpdate S u.ticker_id_ bbo = .ok m := by
      unfold algoOnOrderBookUpdate
      split
      · unfold MarketMaker.onOrderBookUpdate
        simp only
        split
        · exact exists_moveOrders _ _ _ ht ..
        · exact ⟨_, rfl⟩
      · exact ⟨_, rfl⟩
    obtain ⟨m, halgo⟩ := halgo
    exact ⟨_, (if_pos ht).trans (bind_eq_ok.mpr ⟨m, halgo, rfl⟩)⟩

/-- An update goes through if the book of its ticker can take it. -/
theorem exists_onMarketUpdate {u : MEMarketUpdate} {book : MarketOrderBook}
    (ht : u.ticker_id_ < ME_MAX_TICKERS)
    (hbook : (e.ticker_order_book_ u.ticker_id_).onMarketUpdate u = .ok book) :
    ∃ e', e.onMarketUpdate S u = .ok e' := by
  rw [onMarketUpdate_eq ht, hbook]
  exact exists_notify S _ _ ht

/-- **What a trade engine survives**, whatever its strategy: the responses it has an index for, and the
updates of known tickers that their books can follow; induction on the messages. -/
theorem run_isOk_iff {events : List Event} :
    ∀ {e : TradeEngine F}, (∃ e', e.run S events = .ok e') ↔
      (∀ r ∈ responsesIn events, Takes S r) ∧
        (∀ u ∈ updatesIn events, u.ticker_id_ < ME_MAX_TICKERS) ∧
        ∀ t, t < ME_MAX_TICKERS →
          ∃ m, (e.ticker_order_book_ t).run (updatesOf t (updatesIn events)) = .ok m := by
  induction events with
  | nil =>
    intro e
    refine ⟨fun _ => ⟨?_, ?_, fun t _ => ⟨_, rfl⟩⟩, fun _ => ⟨e, rfl⟩⟩
    · intro r hr
      cases hr
    · intro u hu
      cases hu
  | cons event events ih =>
    intro e
    constructor
    · rintro ⟨e', h⟩
      obtain ⟨e₁, hstep, hrun⟩ := Lib.Runs.foldlM_cons_eq_ok.mp h
      obtain ⟨hresponses, hupdates, -⟩ := ih.mp ⟨e', hrun⟩
      have hbooks : ∀ t, t < ME_MAX_TICKERS →
          ∃ m, (e.ticker_order_book_ t).run (updatesOf t (updatesIn (event :: events))) = .ok m :=
        fun t _ => ⟨_, books_run t h⟩
      cases event with
      | response r =>
        exact ⟨List.forall_mem_cons.mpr ⟨onOrderUpdate_isOk_iff.mp ⟨e₁, hstep⟩, hresponses⟩,
          hupdates, hbooks⟩
      | update u =>
        exact ⟨hresponses,
          List.forall_mem_cons.mpr ⟨(onMarketUpdate_spec hstep).ticker_id, hupdates⟩, hbooks⟩
    · rintro ⟨hresponses, hupdates, hbooks⟩
      cases event with
      | response r =>
        obtain ⟨hr, hresponses⟩ := List.forall_mem_cons.mp hresponses
        obtain ⟨e₁, hstep⟩ := (onOrderUpdate_isOk_iff (e := e)).mpr hr
        have hbook := (onOrderUpdate_spec hstep).book
        obtain ⟨e', hrun⟩ := ih.mpr ⟨hresponses, hupdates, hbook ▸ hbooks⟩
        exact ⟨e', Lib.Runs.foldlM_cons_eq_ok.mpr ⟨e₁, hstep, hrun⟩⟩
      | update u =>
        obtain ⟨ht, hupdates⟩ := List.forall_mem_cons.mp hupdates
        have hsplit : updatesIn (.update u :: events) = u :: updatesIn events := rfl
        rw [hsplit] at hbooks
        obtain ⟨m, hm⟩ := hbooks _ ht
        rw [updatesOf_cons_self] at hm
        obtain ⟨book, hbook, -⟩ := Lib.Runs.foldlM_cons_eq_ok.mp hm
        obtain ⟨e₁, hstep⟩ := exists_onMarketUpdate (S := S) ht hbook
        -- the other books have not changed
        obtain ⟨book', hbook', heq⟩ := ticker_order_book_onMarketUpdate hstep
        obtain rfl : book = book' := Except.ok.inj (hbook.symm.trans hbook')
        have hbooks' : ∀ t, t < ME_MAX_TICKERS →
            ∃ m, (e₁.ticker_order_book_ t).run (updatesOf t (updatesIn events)) = .ok m := by
          intro t ht'
          obtain ⟨m', hm'⟩ := hbooks t ht'
          rw [heq]
          by_cases htu : t = u.ticker_id_
          · subst htu
            rw [updatesOf_cons_self] at hm'
            obtain ⟨book', hbook', hrest⟩ := Lib.Runs.foldlM_cons_eq_ok.mp hm'
            obtain rfl : book = book' := Except.ok.inj (hbook.symm.trans hbook')
            rw [Function.update_self]
            exact ⟨m', hrest⟩
          · rw [updatesOf_cons_of_ne (Ne.symm htu)] at hm'
            rw [Function.update_of_ne htu]
            exact ⟨m', hm'⟩
        obtain ⟨e', hrun⟩ := ih.mpr ⟨hresponses, hupdates, hbooks'⟩
        exact ⟨e', Lib.Runs.foldlM_cons_eq_ok.mpr ⟨e₁, hstep, hrun⟩⟩

theorem responsesIn_append (events events' : List Event) :
    responsesIn (events ++ events') = responsesIn events ++ responsesIn events' :=
  List.filterMap_append

theorem updatesIn_append (events events' : List Event) :
    updatesIn (events ++ events') = updatesIn events ++ updatesIn events' :=
  List.filterMap_append

theorem responsesIn_map_update (us : List MEMarketUpdate) : responsesIn (us.map .update) = [] := by
  unfold responsesIn
  rw [List.filterMap_map]
  exact List.filterMap_eq_nil_iff.mpr fun _ _ => rfl

theorem updatesIn_map_update (us : List MEMarketUpdate) : updatesIn (us.map .update) = us := by
  unfold updatesIn
  rw [List.filterMap_map]
  exact List.filterMap_some

/-- Updates alone. -/
theorem exists_run_updates {us : List MEMarketUpdate}
    (htickers : ∀ u ∈ us, u.ticker_id_ < ME_MAX_TICKERS)
    (hbooks : ∀ t, t < ME_MAX_TICKERS →
      ∃ m, (e.ticker_order_book_ t).run (updatesOf t us) = .ok m) :
    ∃ e', e.run S (us.map .update) = .ok e' := by
  rw [run_isOk_iff, responsesIn_map_update, updatesIn_map_update]
  exact ⟨fun r hr => (by cases hr), htickers, hbooks⟩

end TradeEngine

/-! ## The whole way -/

namespace MatchingEngine

variable {base : ℕ → ℤ} {requests : List MEClientRequest} {e : MatchingEngine}

/-- What a run of valid requests publishes, and the quotes of every book at its end. -/
theorem run_publishes (hdis : Dispatched requests)
    (hvalid : ∀ t, t < ME_MAX_TICKERS → ValidCalls (base t) (callsOf t requests))
    (hadds : newCount requests < ME_MAX_ORDER_IDS)
    (hrun : MatchingEngine.new.run requests = .ok e) :
    PublishedUpdates (marketUpdates e.sent) ∧ ∀ t, t < ME_MAX_TICKERS → ∃ sh P,
      (e.ticker_order_book_ t).Refines sh P ∧
      Quotes.empty.applyAll (updatesOf t (marketUpdates e.sent)) = P.quotes := by
  have hadm : ∀ t, t < ME_MAX_TICKERS → PriorityBook.empty.Admitted t (callsOf t requests) :=
    fun t ht => PriorityBook.ValidCalls.admitted t (hvalid t ht)
  rcases run_spec refines_new hdis hadm with
    ⟨e', events, hrun', hsent, htickers, hcount, hbooks⟩ | herr
  swap
  · rw [hrun] at herr
    cases herr
  rw [hrun] at hrun'
  cases hrun'
  have hsent : e.sent = events := hsent
  rw [← hsent] at htickers hcount hbooks
  have hnew : ∀ t, t < ME_MAX_TICKERS →
      (MEOrderBook.new t).run (callsOf t requests) = .ok (e.ticker_order_book_ t) ∧
      updatesOf t (marketUpdates e.sent) =
        marketUpdates (PriorityBook.run t .empty (callsOf t requests)).2 := by
    intro t ht
    obtain ⟨hbook, hevents⟩ := hbooks t ht
    rw [← marketUpdates_eventsOf, hevents]
    exact ⟨hbook, rfl⟩
  have hspace : ∀ t, t < ME_MAX_TICKERS →
      (MEOrderBook.new t).run (callsOf t requests) ≠ .error .outOfSpace := by
    intro t ht
    rw [(hnew t ht).1]
    exact fun herr => by cases herr
  have hticker : ∀ u ∈ marketUpdates e.sent, u.ticker_id_ < ME_MAX_TICKERS := by
    intro u hu
    obtain ⟨event, hevent, hu⟩ := List.mem_filterMap.mp hu
    cases event with
    | response r => cases hu
    | update u' =>
      obtain rfl := Option.some.inj hu
      exact htickers _ hevent
  refine ⟨⟨hticker, fun t => ?published, hcount.trans_lt hadds,
    isEvent_of_mem_sent hdis hadm hrun⟩, fun t ht => ?books⟩
  case published =>
    by_cases ht : t < ME_MAX_TICKERS
    · rw [(hnew t ht).2]
      exact engine_published (hvalid t ht) hadds (hnew t ht).1
    · -- no update is of another ticker
      have hnil : updatesOf t (marketUpdates e.sent) = [] := by
        apply List.filter_eq_nil_iff.mpr
        intro u hu
        rw [decide_eq_true_eq]
        rintro rfl
        exact ht (hticker u hu)
      rw [hnil]
      trivial
  case books =>
    obtain ⟨b, sh, hb, href, -⟩ := MEOrderBook.run_new (hadm t ht) (hspace t ht)
    rw [(hnew t ht).1] at hb
    cases hb
    refine ⟨sh, _, href, ?_⟩
    rw [(hnew t ht).2]
    exact (PriorityBook.run_quotes (hadm t ht)
      ((length_newKey_callsOf_le t requests).trans_lt hadds) (hspace t ht)).2

theorem sent_run {requests : List MEClientRequest} {e e' : MatchingEngine}
    (hrun : e.run requests = .ok e') : e.sent <+: e'.sent :=
  Lib.Runs.invariant_of_step (I := fun e' => e.sent <+: e'.sent)
    (fun _ _ _ h hstep => h.trans (sent_process hstep)) List.prefix_rfl hrun

end MatchingEngine

/-- A book of the exchange and one that holds its quotes have the same levels and queues. -/
theorem levelsView_quoted {b : MEOrderBook} {sh msh : Shape} {P : PriorityBook}
    {m : MarketOrderBook} (href : b.Refines sh P) (hholds : MarketOrderBook.Holds m.book msh P.quotes)
    {s : Side} (hs : s.IsTrading) :
    m.book.levelsView s = (b.book.levelsView s).map quotedLevel := by
  apply levelsView_eq_map (f := MEOrderInfo.quoted) (fun _ => rfl) href.rep hholds.rep hs
  rw [hholds.rep.orderList_eq hs, href.rep.orderList_eq hs, hholds.infos s hs, href.infos s hs,
    PriorityBook.side_quotes _ hs]

/-- The books of a trade engine that has taken what a tracked consumer forwarded: where the consumer
stands, and what the books of the exchange are there. -/
theorem MarketDataConsumer.Tracks.books {base : ℕ → ℤ} {requests : List MEClientRequest}
    {e : MatchingEngine} {us : List MEMarketUpdate} {cycles : ℕ → Snapshot} {c : MarketDataConsumer}
    {F : Type} {S : Setup F} {events : List TradeEngine.Event} {te : TradeEngine F}
    (hdis : MatchingEngine.Dispatched requests)
    (hvalid : ∀ t, t < ME_MAX_TICKERS → ValidCalls (base t) (callsOf t requests))
    (hadds : newCount requests < ME_MAX_ORDER_IDS)
    (hrun : MatchingEngine.new.run requests = .ok e) (hsent : us <+: marketUpdates e.sent)
    (hcycles : PublishedCycles us cycles) (h : Tracks us cycles c)
    (hsynced : c.in_recovery_ = false)
    (hevents : TradeEngine.updatesIn events = c.incoming_md_updates_)
    (hte : TradeEngine.run S (TradeEngine.new S) events = .ok te) :
    ∃ k, c.next_exp_inc_seq_num_ = k + 1 ∧ k ≤ us.length ∧
      ∀ t, t < ME_MAX_TICKERS → ClearsMeetEmpty t c.incoming_md_updates_ →
        (∃ m, (MarketOrderBook.new t).run (updatesOf t (us.take k)) = .ok m ∧
          ∀ s, s.IsTrading → (te.ticker_order_book_ t).book.levelsView s = m.book.levelsView s) ∧
        ∀ done e₁, done <+: requests → MatchingEngine.new.run done = .ok e₁ →
          (marketUpdates e₁.sent).length = k → ∀ s, s.IsTrading →
            (te.ticker_order_book_ t).book.levelsView s =
              ((e₁.ticker_order_book_ t).book.levelsView s).map quotedLevel := by
  have hus : PublishedUpdates us :=
    (MatchingEngine.run_publishes hdis hvalid hadds hrun).1.of_isPrefix hsent
  obtain ⟨k, hfollows, hnext⟩ := h.forwarded
  have hk := hfollows.le_length hus hcycles
  refine ⟨k, hnext hsynced, hk, fun t ht hclear => ?_⟩
  obtain ⟨hadm, hquotes⟩ := hfollows.quotes hus hcycles ht hclear
  obtain ⟨m, sh, hm, hholds, -⟩ := MarketOrderBook.run_spec (MarketOrderBook.holds_new t) hadm
  have hbook : te.ticker_order_book_ t = m := by
    have hbooks := TradeEngine.books_run t hte
    rw [hevents] at hbooks
    exact Except.ok.inj (hbooks.symm.trans hm)
  rw [hbook]
  rw [hquotes] at hholds
  constructor
  · obtain ⟨m', sh', hm', hholds', -⟩ :=
      MarketOrderBook.run_spec (MarketOrderBook.holds_new t) ((hus.take k).admits t)
    exact ⟨m', hm', fun s hs => hholds'.levelsView_eq hholds hs⟩
  · intro done e₁ hdone hrun₁ hlen s hs
    obtain ⟨rest, rfl⟩ := hdone
    obtain ⟨e₁', hrun₁', hrest⟩ := Lib.Runs.foldlM_append_eq_ok.mp hrun
    obtain rfl : e₁ = e₁' := Except.ok.inj (hrun₁.symm.trans hrun₁')
    -- the updates of the first requests are the first `k` updates
    have htake : us.take k = marketUpdates e₁.sent := by
      obtain ⟨more, hmore⟩ := hsent
      obtain ⟨more₁, hmore₁⟩ := MatchingEngine.sent_run hrest
      have hfirst : (marketUpdates e.sent).take k = marketUpdates e₁.sent := by
        rw [← hmore₁, marketUpdates_append, ← hlen, List.take_left]
      rw [← hfirst, ← hmore, List.take_append_of_le_length hk]
    have hdis₁ : MatchingEngine.Dispatched done := fun r hr => hdis r (List.mem_append_left _ hr)
    have hvalid₁ : ∀ t, t < ME_MAX_TICKERS → ValidCalls (base t) (callsOf t done) :=
      fun t ht => (hvalid t ht).of_isPrefix ((List.prefix_append done rest).filterMap _)
    have hadds₁ : newCount done < ME_MAX_ORDER_IDS :=
      ((List.sublist_append_left done rest).countP_le).trans_lt hadds
    obtain ⟨sh₁, P, href, hP⟩ := (MatchingEngine.run_publishes hdis₁ hvalid₁ hadds₁ hrun₁).2 t ht
    rw [htake, hP] at hholds
    exact levelsView_quoted href hholds hs

/-- A buy order that is filled in part. -/
def lateRequests : List MEClientRequest :=
  [{ type_ := .NEW, client_id_ := 1, ticker_id_ := 0, order_id_ := 1, side_ := .BUY, price_ := 100,
     qty_ := 10 },
   { type_ := .NEW, client_id_ := 2, ticker_id_ := 0, order_id_ := 1, side_ := .SELL, price_ := 100,
     qty_ := 4 }]

def lateTrade : MEMarketUpdate :=
  { type_ := .TRADE, order_id_ := OrderId_INVALID, ticker_id_ := 0, side_ := .SELL, price_ := 100,
    qty_ := 4, priority_ := Priority_INVALID }

def lateModify : MEMarketUpdate :=
  { type_ := .MODIFY, order_id_ := 1, ticker_id_ := 0, side_ := .BUY, price_ := 100, qty_ := 6,
    priority_ := 1 }

/-- The first incremental came before the client; a part of one cycle and the next cycle follow. -/
def lateRun : List (Callback (ℕ × MDPMarketUpdate)) :=
  [⟨false, [(0, ⟨2, lateTrade⟩)]⟩,
    ⟨true, ((numbered 0 MarketDataConsumer.emptyCycle.opening).take 3).map fun m => (0, m)⟩,
    ⟨true, MarketDataConsumer.orderCycle.messages.map fun m => (1, m)⟩,
    ⟨false, [(0, ⟨3, lateModify⟩)]⟩]

/-- An engine that only watches. -/
def watcherSetup : Setup (Option ℚ) := { TradeEngine.makerSetup with algo_type := .RANDOM }

theorem publishedCycles_late :
    PublishedCycles [MarketDataConsumer.firstOrder, lateTrade, lateModify]
      MarketDataConsumer.twoCycles := by
  intro i
  unfold MarketDataConsumer.twoCycles
  split
  · exact ⟨0, _, Nat.zero_le _, rfl, MarketDataConsumer.publishSnapshot_new.symm⟩
  · obtain ⟨syn, hrun, hcycle⟩ := MarketDataConsumer.publishSnapshot_firstOrder
    exact ⟨1, syn, by decide, hrun, hcycle.symm⟩

theorem validCalls_late (t : ℕ) (_ : t < ME_MAX_TICKERS) :
    ValidCalls 0 (callsOf t lateRequests) := by
  by_cases ht : t = 0
  · subst ht
    exact ⟨by simp [callsOf, lateRequests, MEClientRequest.call?, Call.Valid, Side.IsTrading,
      ME_MAX_NUM_CLIENTS, ME_MAX_ORDER_IDS, ME_MAX_PRICE_LEVELS], by decide⟩
  · have hnil : callsOf t lateRequests = [] := by
      simp [callsOf, lateRequests, Ne.symm ht]
    rw [hnil]
    exact ⟨by simp, List.nodup_nil⟩

end TradingEcosystem
