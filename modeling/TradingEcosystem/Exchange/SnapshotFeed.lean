import TradingEcosystem.Exchange.MarketDataPublisher
import TradingEcosystem.Exchange.SnapshotSynthesizer

/-!
# The Snapshot Thread

`SnapshotSynthesizer::run`: the third thread of the market data path, behind the matching engine and
the publisher.  It reads the records of `snapshot_md_updates_` through a pointer to the slot, and
between two records it may publish a snapshot.

The publisher never tests whether that queue is full, so it may come round to a slot that is still to
be read.

- `SnapshotFeed` : the two queues and the three threads
- `SnapshotFeed.Inv` : what holds between any two steps
- `SnapshotFeed.overrun_is_caught` : the ASSERT on the sequence numbers stops every late read
-/

namespace TradingEcosystem

open Lib.RingLog (Holds HoldsBehind)

/-- The next statement of `SnapshotSynthesizer::run`; `slot` is where `market_update` points to. -/
inductive SynthesizerPc where
  | getNextToRead
  | test (market_update : Option ℕ)
  | addToSnapshot (slot : ℕ)
  | readIndex
  | count
  | timer
  deriving DecidableEq, Repr

structure SnapshotFeed where
  feed : MarketFeed
  synthesizer : SnapshotSynthesizer := .new
  pc : SynthesizerPc := .getNextToRead
  /-- Every snapshot published so far. -/
  cycles : List (List MDPMarketUpdate) := []

namespace SnapshotFeed

def new (num_elems : ℕ) : SnapshotFeed where
  feed := .new num_elems

def snapshot_md_updates_ (f : SnapshotFeed) : LFQueue MDPMarketUpdate := f.feed.snapshot_md_updates_

def setQueue (f : SnapshotFeed) (queue : LFQueue MDPMarketUpdate) : SnapshotFeed :=
  { f with feed := { f.feed with snapshot_md_updates_ := queue } }

/-- A step of `SnapshotSynthesizer::run`; `elapsed` is the answer of the clock. -/
def synthesize (f : SnapshotFeed) (elapsed : Bool) : Except Fault SnapshotFeed :=
  match f.pc with
  | .getNextToRead => .ok { f with pc := .test f.snapshot_md_updates_.getNextToRead }
  | .test market_update =>
    match market_update with
    | none => .ok { f with pc := .timer }
    | some slot =>
      -- as in the publisher, the count is tested besides the pointer
      if f.snapshot_md_updates_.size ≠ 0 then
        .ok { f with pc := .addToSnapshot slot }
      else
        .ok { f with pc := .timer }
  | .addToSnapshot slot => do
    let synthesizer ← f.synthesizer.addToSnapshot (f.snapshot_md_updates_.store_ slot)
    .ok { f with synthesizer := synthesizer, pc := .readIndex }
  | .readIndex =>
    .ok { f.setQueue f.snapshot_md_updates_.advanceReadIndex with pc := .count }
  | .count => do
    let queue ← f.snapshot_md_updates_.countRead
    .ok { f.setQueue queue with pc := .getNextToRead }
  | .timer =>
    if elapsed then
      .ok { f with cycles := f.cycles ++ [f.synthesizer.publishSnapshot], pc := .getNextToRead }
    else
      .ok { f with pc := .getNextToRead }

/-- Who takes the next step. -/
inductive Party where
  | feed (party : MarketFeed.Party)
  | synthesizer (elapsed : Bool)
  deriving DecidableEq, Repr

/-- The updates the engine stores are `updates 0`, `updates 1`, and so on. -/
def step (updates : ℕ → MEMarketUpdate) (f : SnapshotFeed) : Party → Except Fault SnapshotFeed
  | .feed party => do
    let feed ← f.feed.step updates party
    .ok { f with feed := feed }
  | .synthesizer elapsed => f.synthesize elapsed

/-- The three threads take their steps in the order of `schedule`. -/
def run (updates : ℕ → MEMarketUpdate) (f : SnapshotFeed) (schedule : List Party) :
    Except Fault SnapshotFeed :=
  schedule.foldlM (step updates) f

/-! ## What the publisher leaves in the queue -/

/-- The record after the completed ones that has its number already. -/
def staged : PublisherPc → ℕ
  | .copy _ => 1
  | _ => 0

/-- Updates of the write index and of the counter that the publisher still owes. -/
def owedWrites : PublisherPc → ℕ
  | .writeIndex => 1
  | _ => 0

/-- The records completed, and the number of the one that is not, are in the slots. -/
structure Forwarded (m : ℕ) (feed : MarketFeed) : Prop where
  num_elems : feed.snapshot_md_updates_.num_elems = m
  records : HoldsBehind (staged feed.publisher) m feed.snapshot_md_updates_.store_ feed.forwarded
  seq_nums : Holds m (fun i => (feed.snapshot_md_updates_.store_ i).seq_num_)
    (List.range' 1 (feed.forwarded.length + staged feed.publisher))
  write_index : ∃ i, i + owedWrites feed.publisher = feed.forwarded.length ∧
    feed.snapshot_md_updates_.next_write_index_ = i % m

theorem forwarded_new (n : ℕ) : Forwarded ME_MAX_MARKET_UPDATES (MarketFeed.new n) where
  num_elems := rfl
  records := Lib.RingLog.holds_nil
  seq_nums := Lib.RingLog.holds_nil
  write_index := ⟨0, rfl, (Nat.zero_mod _).symm⟩

variable {n m k : ℕ} {feed feed' : MarketFeed} {f f' : SnapshotFeed}
  {updates : ℕ → MEMarketUpdate} {party : Party} {schedule : List Party}

/-- The steps in which the publisher does nothing to the queue. -/
theorem Forwarded.of_eq (h : Forwarded m feed)
    (hqueue : feed'.snapshot_md_updates_ = feed.snapshot_md_updates_)
    (hforwarded : feed'.forwarded = feed.forwarded)
    (hstaged : staged feed'.publisher = staged feed.publisher)
    (howed : owedWrites feed'.publisher = owedWrites feed.publisher) : Forwarded m feed' := by
  obtain ⟨hnum, hrecords, hseq, hwrite⟩ := h
  constructor
  · rw [hqueue]
    exact hnum
  · rw [hqueue, hforwarded, hstaged]
    exact hrecords
  · rw [hqueue, hforwarded, hstaged]
    exact hseq
  · rw [hqueue, hforwarded, howed]
    exact hwrite

/-- **A step of the publisher keeps what is in the queue**, and counts what it completes. -/
theorem Forwarded.publish (hinv : MarketFeed.Inv n k feed) (h : Forwarded m feed)
    (hstep : feed.publish = .ok feed') :
    Forwarded m feed' ∧
      feed'.snapshot_md_updates_.next_read_index_ = feed.snapshot_md_updates_.next_read_index_ ∧
      feed.snapshot_md_updates_.num_elements_ ≤ feed'.snapshot_md_updates_.num_elements_ ∧
      feed'.snapshot_md_updates_.num_elements_ + feed.forwarded.length +
          owedWrites feed'.publisher =
        feed.snapshot_md_updates_.num_elements_ + feed'.forwarded.length +
          owedWrites feed.publisher := by
  have hcopies := hinv.copies
  have hnumber := hinv.seq_num
  have hstage := hinv.staged
  unfold MarketFeed.publish at hstep
  cases hpc : feed.publisher with
  | writeSeqNum slot =>
    simp only [hpc] at hstep hcopies
    cases hstep
    obtain ⟨hnum, hrecords, hseq, i, hi, hwrite⟩ := h
    simp only [hpc, staged, owedWrites, Nat.add_zero] at hrecords hseq hi
    obtain rfl : i = feed.forwarded.length := hi
    refine ⟨⟨hnum, ?_, ?_, ⟨_, rfl, hwrite⟩⟩, rfl, le_rfl, rfl⟩
    · simp only [LFQueue.store, hwrite]
      exact Lib.RingLog.Holds.stage hrecords _
    · -- the number is that of the next record
      have hnext := hseq.snoc (feed.forwarded.length + 1)
      rw [List.length_range'] at hnext
      simp only [staged, LFQueue.store, hwrite]
      rw [List.range'_concat, Nat.one_mul, Nat.add_comm 1]
      convert hnext using 1
      funext i
      by_cases hi : i = feed.forwarded.length % m
      · subst hi
        rw [Function.update_self, Function.update_self]
        show feed.next_inc_seq_num_ = _
        rw [hnumber, hcopies]
        rfl
      · rw [Function.update_of_ne hi, Function.update_of_ne hi]
  | copy slot =>
    simp only [hpc] at hstep hcopies
    cases hstep
    have hrecord := hinv.record_eq hpc
    obtain ⟨hnum, hrecords, hseq, i, hi, hwrite⟩ := h
    simp only [hpc, staged, owedWrites, Nat.add_zero] at hrecords hseq hi
    obtain rfl : i = feed.forwarded.length := hi
    refine ⟨⟨hnum, ?_, ?_, ⟨_, ?_, hwrite⟩⟩, rfl, le_rfl, ?_⟩
    · simp only [LFQueue.store, hwrite]
      exact hrecords.snoc _
    · -- it has its number already
      simp only [LFQueue.store, staged, hwrite, List.length_append, List.length_singleton]
      convert hseq using 1
      funext i
      by_cases hi : i = feed.forwarded.length % m
      · subst hi
        rw [Function.update_self, ← hwrite]
        rfl
      · rw [Function.update_of_ne hi]
    · simp only [owedWrites, List.length_append, List.length_singleton]
    · simp only [LFQueue.store, owedWrites, List.length_append, List.length_singleton]
      omega
  | writeIndex =>
    simp only [hpc] at hstep
    cases hstep
    obtain ⟨hnum, hrecords, hseq, i, hi, hwrite⟩ := h
    simp only [hpc, owedWrites] at hi
    rw [hpc] at hrecords hseq
    refine ⟨⟨hnum, hrecords, hseq, ⟨i + 1, hi, ?_⟩⟩, rfl, Nat.le_succ _, ?_⟩
    · simp only [LFQueue.countWrite, LFQueue.advanceWriteIndex, hwrite, hnum]
      exact Lib.RingLog.succ_mod i
    · simp only [LFQueue.countWrite, LFQueue.advanceWriteIndex, owedWrites]
      omega
  | count slot =>
    simp only [hpc] at hstep
    obtain ⟨queue, -, hstep⟩ := bind_eq_ok.mp hstep
    cases hstep
    exact ⟨h.of_eq rfl rfl (by rw [hpc]; rfl) (by rw [hpc]; rfl), rfl, le_rfl, rfl⟩
  | test market_update =>
    have hquiet : staged feed.publisher = 0 ∧ owedWrites feed.publisher = 0 := by
      rw [hpc]
      exact ⟨rfl, rfl⟩
    cases market_update with
    | none =>
      simp only [hpc] at hstep
      cases hstep
      exact ⟨h.of_eq rfl rfl hquiet.1.symm hquiet.2.symm, rfl, le_rfl, rfl⟩
    | some slot =>
      simp only [hpc] at hstep
      split at hstep
      · cases hstep
        exact ⟨h.of_eq rfl rfl hquiet.1.symm hquiet.2.symm, rfl, le_rfl, rfl⟩
      · cases hstep
        exact ⟨h.of_eq rfl rfl hquiet.1.symm hquiet.2.symm, rfl, le_rfl, rfl⟩
  | _ =>
    simp only [hpc] at hstep
    cases hstep
    exact ⟨h.of_eq rfl rfl (by rw [hpc]; rfl) (by rw [hpc]; rfl), rfl, le_rfl, rfl⟩

/-! ## What holds between two steps -/

/-- Updates of the read index and of the counter that the synthesizer still owes. -/
def owedReads : SynthesizerPc → ℕ × ℕ
  | .readIndex => (1, 1)
  | .count => (0, 1)
  | _ => (0, 0)

/-- The slot that the synthesizer points to. -/
def pointer : SynthesizerPc → Option ℕ
  | .test market_update => market_update
  | .addToSnapshot slot => some slot
  | _ => none

/-- The synthesizer has seen an element that it has not counted as read. -/
def Holding (pc : SynthesizerPc) : Prop := (pointer pc).isSome ∨ (owedReads pc).2 = 1

theorem not_holding {pc : SynthesizerPc} (hpointer : pointer pc = none)
    (howed : (owedReads pc).2 = 0) : ¬ Holding pc := by
  intro h
  rcases h with h | h
  · rw [hpointer] at h
    cases h
  · rw [howed] at h
    cases h

/-- The state after the first `k` updates. -/
def SnapshotOf (us : List MEMarketUpdate) (k : ℕ) (s : SnapshotSynthesizer) : Prop :=
  SnapshotSynthesizer.new.run (numbered 1 (us.take k)) = .ok s

/-- The synthesizer has taken in as many updates as its last number says. -/
structure Inv (m : ℕ) (f : SnapshotFeed) : Prop where
  queue : Forwarded m f.feed
  right : f.feed.forwarded <+: numbered 1 f.feed.written
  read_index : ∃ i, i + (owedReads f.pc).1 = f.synthesizer.last_inc_seq_num_ ∧
    f.snapshot_md_updates_.next_read_index_ = i % m
  num_elements : f.snapshot_md_updates_.num_elements_ + f.synthesizer.last_inc_seq_num_ +
    owedWrites f.feed.publisher = f.feed.forwarded.length + (owedReads f.pc).2
  nonempty : Holding f.pc → 0 < f.snapshot_md_updates_.num_elements_
  slot : ∀ slot, pointer f.pc = some slot → slot = f.synthesizer.last_inc_seq_num_ % m
  synthesized : SnapshotOf f.feed.written f.synthesizer.last_inc_seq_num_ f.synthesizer
  cycles : ∀ cycle ∈ f.cycles, ∃ k s, k ≤ f.synthesizer.last_inc_seq_num_ ∧
    SnapshotOf f.feed.written k s ∧ cycle = s.publishSnapshot

theorem inv_new (n : ℕ) : Inv ME_MAX_MARKET_UPDATES (new n) where
  queue := forwarded_new n
  right := List.prefix_rfl
  read_index := ⟨0, rfl, (Nat.zero_mod _).symm⟩
  num_elements := rfl
  nonempty := fun h => absurd h (not_holding rfl rfl)
  slot := fun _ h => by cases h
  synthesized := rfl
  cycles := fun _ h => by cases h

/-- No more was taken in than was forwarded. -/
theorem Inv.last_le (h : Inv m f) :
    f.synthesizer.last_inc_seq_num_ ≤ f.feed.forwarded.length := by
  have hnum := h.num_elements
  have hpos := h.nonempty
  cases hpc : f.pc with
  | readIndex | count =>
    have := hpos (by rw [hpc]; exact .inr rfl)
    simp only [hpc, owedReads] at hnum
    omega
  | _ =>
    simp only [hpc, owedReads] at hnum
    omega

theorem Inv.forwarded_le (h : Inv m f) : f.feed.forwarded.length ≤ f.feed.written.length := by
  have hlen := h.right.length_le
  unfold numbered at hlen
  rwa [List.length_map, List.length_zipIdx] at hlen

/-- A snapshot of a first part of the updates does not depend on the later ones. -/
theorem SnapshotOf.of_isPrefix {us us' : List MEMarketUpdate} {s : SnapshotSynthesizer}
    (h : SnapshotOf us k s) (hk : k ≤ us.length) (hpast : us <+: us') : SnapshotOf us' k s := by
  obtain ⟨more, rfl⟩ := hpast
  unfold SnapshotOf at *
  rw [List.take_append_of_le_length hk]
  exact h

/-! ## Steps of the engine and the publisher -/

/-- The copies of the publisher are in time. -/
def CopiesInTime (n : ℕ) (f : SnapshotFeed) (party : Party) : Prop :=
  ∀ p, party = .feed p → MarketFeed.CopiesInTime n f.feed p

/-- The steps of the engine leave the queue of the synthesizer alone. -/
theorem write_frame (feed : MarketFeed) (u : MEMarketUpdate) :
    (feed.write u).snapshot_md_updates_ = feed.snapshot_md_updates_ ∧
      (feed.write u).forwarded = feed.forwarded ∧ (feed.write u).publisher = feed.publisher := by
  unfold MarketFeed.write
  split
  · split
    · exact ⟨rfl, rfl, rfl⟩
    · exact ⟨rfl, rfl, rfl⟩
  · exact ⟨rfl, rfl, rfl⟩
  · exact ⟨rfl, rfl, rfl⟩
  · exact ⟨rfl, rfl, rfl⟩

/-- What the engine and the publisher do keeps what the synthesizer relies on. -/
theorem Inv.of_feed (h : Inv m f) (hqueue : Forwarded m feed')
    (hright : feed'.forwarded <+: numbered 1 feed'.written)
    (hwritten : f.feed.written <+: feed'.written)
    (hread : feed'.snapshot_md_updates_.next_read_index_ =
      f.snapshot_md_updates_.next_read_index_)
    (hnum : feed'.snapshot_md_updates_.num_elements_ + f.feed.forwarded.length +
        owedWrites feed'.publisher =
      f.snapshot_md_updates_.num_elements_ + feed'.forwarded.length + owedWrites f.feed.publisher)
    (hgrows : f.snapshot_md_updates_.num_elements_ ≤ feed'.snapshot_md_updates_.num_elements_) :
    Inv m { f with feed := feed' } := by
  have hlast := h.last_le.trans h.forwarded_le
  have hnum' := h.num_elements
  refine ⟨hqueue, hright, ?_, ?_, fun hholding => (h.nonempty hholding).trans_le hgrows, h.slot,
    h.synthesized.of_isPrefix hlast hwritten, fun cycle hcycle => ?_⟩
  · obtain ⟨i, hi, hindex⟩ := h.read_index
    exact ⟨i, hi, hread.trans hindex⟩
  · show feed'.snapshot_md_updates_.num_elements_ + _ + _ = _
    dsimp only
    omega
  · obtain ⟨k, s, hk, hs, heq⟩ := h.cycles cycle hcycle
    exact ⟨k, s, hk, hs.of_isPrefix (hk.trans hlast) hwritten, heq⟩

/-- **The first two threads never fault**, and their steps keep the invariant as long as the
publisher copies in time. -/
theorem Inv.feed_step (updates : ℕ → MEMarketUpdate) (hn : 0 < n) (h : Inv m f) (hinv : MarketFeed.Inv n k f.feed)
    {p : MarketFeed.Party} (htime : MarketFeed.CopiesInTime n f.feed p) :
    ∃ k' f', f.step updates (.feed p) = .ok f' ∧ MarketFeed.Inv n k' f'.feed ∧ Inv m f' := by
  obtain ⟨k', feed', hstep, hinv'⟩ := hinv.step updates p
  refine ⟨k', { f with feed := feed' }, bind_eq_ok.mpr ⟨feed', hstep, rfl⟩, hinv', ?_⟩
  have hrun : f.feed.run updates [p] = .ok feed' := Lib.Runs.foldlM_cons_eq_ok.mpr ⟨_, hstep, rfl⟩
  have hright : feed'.forwarded <+: numbered 1 feed'.written :=
    (hinv.forwarded_iff hn h.right hrun).mpr ⟨htime, fun _ _ => trivial⟩
  have hwritten := (MarketFeed.prefix_run hrun).1
  cases p with
  | engine =>
    obtain rfl := Except.ok.inj hstep
    obtain ⟨hqueue, hforwarded, hpublisher⟩ :=
      write_frame f.feed (updates f.feed.written.length)
    refine h.of_feed (h.queue.of_eq hqueue hforwarded (by rw [hpublisher]) (by rw [hpublisher]))
      hright hwritten (by rw [hqueue]; rfl) ?_ (by rw [hqueue]; exact le_rfl)
    rw [hqueue, hforwarded, hpublisher]
    rfl
  | publisher =>
    obtain ⟨hqueue, hread, hgrows, hnum⟩ := h.queue.publish hinv hstep
    exact h.of_feed hqueue hright hwritten hread hnum hgrows

/-! ## Steps of the synthesizer -/

/-- A record is read before the publisher starts on the record that goes to the same slot next. -/
def ReadsInTime (m : ℕ) (f : SnapshotFeed) (party : Party) : Prop :=
  ∀ elapsed slot, party = .synthesizer elapsed → f.pc = .addToSnapshot slot →
    f.feed.forwarded.length + staged f.feed.publisher ≤ f.synthesizer.last_inc_seq_num_ + m

variable {elapsed : Bool} {slot : ℕ}

/-- The synthesizer reads only what was forwarded. -/
theorem Inv.last_lt (h : Inv m f) (hpc : f.pc = .addToSnapshot slot) :
    f.synthesizer.last_inc_seq_num_ < f.feed.forwarded.length := by
  have hnum := h.num_elements
  have hpos := h.nonempty (by rw [hpc]; exact .inl rfl)
  simp only [hpc, owedReads] at hnum
  omega

/-- What is read in time is the next update. -/
theorem Inv.read_eq (h : Inv m f) (hpc : f.pc = .addToSnapshot slot)
    (htime : f.feed.forwarded.length + staged f.feed.publisher ≤
      f.synthesizer.last_inc_seq_num_ + m) :
    ∃ u, f.feed.written[f.synthesizer.last_inc_seq_num_]? = some u ∧
      f.snapshot_md_updates_.store_ slot = ⟨f.synthesizer.last_inc_seq_num_ + 1, u⟩ := by
  have hlt := h.last_lt hpc
  have hv := List.getElem?_eq_getElem hlt
  have hnumbered := Channel.getElem?_of_isPrefix h.right hv
  rw [getElem?_numbered, Option.map_eq_some_iff] at hnumbered
  obtain ⟨u, hu, hrecord⟩ := hnumbered
  refine ⟨u, hu, ?_⟩
  rw [h.slot slot (by rw [hpc]; rfl), Nat.add_comm _ 1, hrecord]
  exact h.queue.records _ _ hv htime

/-- **What is read late has another number**, whether or not it is complete. -/
theorem Inv.seq_num_ne (hm : 0 < m) (h : Inv m f) (hpc : f.pc = .addToSnapshot slot)
    (hlate : ¬ f.feed.forwarded.length + staged f.feed.publisher ≤
      f.synthesizer.last_inc_seq_num_ + m) :
    (f.snapshot_md_updates_.store_ slot).seq_num_ ≠ f.synthesizer.last_inc_seq_num_ + 1 := by
  have hlt := h.last_lt hpc
  intro heq
  rw [h.slot slot (by rw [hpc]; rfl)] at heq
  refine hlate ?_
  have hkept := (h.queue.seq_nums.eq_iff hm List.nodup_range'
    (show (List.range' 1 _)[f.synthesizer.last_inc_seq_num_]? = _ by
      rw [List.getElem?_range' (by omega), Nat.one_mul, Nat.add_comm])).mp heq
  rwa [List.length_range'] at hkept

/-- What the synthesizer does to its queue does not concern the other two. -/
theorem feed_inv_setQueue (hinv : MarketFeed.Inv n k feed) {queue : LFQueue MDPMarketUpdate}
    (hstore : queue.store_ = feed.snapshot_md_updates_.store_)
    (hindex : queue.next_write_index_ = feed.snapshot_md_updates_.next_write_index_) :
    MarketFeed.Inv n k { feed with snapshot_md_updates_ := queue } :=
  { hinv with
    staged := fun slot hpc => by
      rw [← hinv.staged slot hpc]
      unfold MarketFeed.next_write
      dsimp only
      rw [hstore, hindex] }

theorem Forwarded.setQueue (h : Forwarded m feed) {queue : LFQueue MDPMarketUpdate}
    (hstore : queue.store_ = feed.snapshot_md_updates_.store_)
    (hindex : queue.next_write_index_ = feed.snapshot_md_updates_.next_write_index_)
    (hnum : queue.num_elems = feed.snapshot_md_updates_.num_elems) :
    Forwarded m { feed with snapshot_md_updates_ := queue } where
  num_elems := hnum.trans h.num_elems
  records := hstore ▸ h.records
  seq_nums := hstore ▸ h.seq_nums
  write_index := hindex ▸ h.write_index

/-- The synthesizer writes nothing to the engine's queue. -/
theorem written_synthesize (h : f.synthesize elapsed = .ok f') :
    f'.feed.written = f.feed.written := by
  unfold SnapshotFeed.synthesize at h
  cases hpc : f.pc with
  | test market_update =>
    cases market_update with
    | none =>
      simp only [hpc] at h
      cases h
      rfl
    | some slot =>
      simp only [hpc] at h
      split at h
      · cases h
        rfl
      · cases h
        rfl
  | addToSnapshot slot | count =>
    simp only [hpc] at h
    obtain ⟨_, -, h⟩ := bind_eq_ok.mp h
    cases h
    rfl
  | timer =>
    simp only [hpc] at h
    split at h
    · cases h
      rfl
    · cases h
      rfl
  | _ =>
    simp only [hpc] at h
    cases h
    rfl

/-- **A step of the synthesizer that reads in time does not fault**, and keeps the invariants. -/
theorem Inv.synthesize (h : Inv m f) (hinv : MarketFeed.Inv n k f.feed)
    (haccepted : ∀ k, ∃ s, SnapshotOf f.feed.written k s)
    (htime : ReadsInTime m f (.synthesizer elapsed)) :
    ∃ f', f.synthesize elapsed = .ok f' ∧ MarketFeed.Inv n k f'.feed ∧ Inv m f' := by
  have hread := @h.read_eq
  obtain ⟨hqueue, hright, ⟨i, hi, hindex⟩, hnum, hpos, hslot, hsynthesized, hcycles⟩ := h
  unfold SnapshotFeed.synthesize
  cases hpc : f.pc with
  | getNextToRead =>
    simp only [hpc, owedReads] at hi hnum
    obtain rfl : i = f.synthesizer.last_inc_seq_num_ := hi
    unfold LFQueue.getNextToRead LFQueue.size
    by_cases hsize : f.snapshot_md_updates_.num_elements_ ≠ 0
    · rw [if_pos hsize]
      refine ⟨_, rfl, hinv, ⟨hqueue, hright, ⟨_, rfl, hindex⟩, hnum,
        fun _ => Nat.pos_of_ne_zero hsize, fun slot heq => ?_, hsynthesized, hcycles⟩⟩
      cases heq
      exact hindex
    · rw [if_neg hsize]
      exact ⟨_, rfl, hinv, ⟨hqueue, hright, ⟨_, rfl, hindex⟩, hnum,
        fun hholding => absurd hholding (not_holding rfl rfl), fun _ heq => by (cases heq),
        hsynthesized, hcycles⟩⟩
  | test market_update =>
    simp only [hpc, owedReads] at hi hnum
    have htimer : Inv m { f with pc := .timer } :=
      ⟨hqueue, hright, ⟨i, hi, hindex⟩, hnum,
        fun hholding => absurd hholding (not_holding rfl rfl), fun _ heq => by (cases heq), hsynthesized, hcycles⟩
    cases market_update with
    | none => exact ⟨_, rfl, hinv, htimer⟩
    | some slot =>
      -- only the synthesizer takes records away, so the second test passes as well
      have hsome : 0 < f.snapshot_md_updates_.num_elements_ := hpos (by rw [hpc]; exact .inl rfl)
      have hsize : f.snapshot_md_updates_.size ≠ 0 := Nat.ne_of_gt hsome
      simp only [if_pos hsize]
      rw [hpc] at hslot
      exact ⟨_, rfl, hinv, ⟨hqueue, hright, ⟨i, hi, hindex⟩, hnum, fun _ => hsome, hslot,
        hsynthesized, hcycles⟩⟩
  | addToSnapshot slot =>
    simp only [hpc, owedReads] at hi hnum
    have hsome : 0 < f.snapshot_md_updates_.num_elements_ := hpos (by rw [hpc]; exact .inl rfl)
    obtain ⟨u, hu, hrecord⟩ := hread slot hpc (htime elapsed slot rfl hpc)
    -- the run on the updates so far goes one step further
    obtain ⟨s, hs⟩ := haccepted (f.synthesizer.last_inc_seq_num_ + 1)
    have hrun := hs
    unfold SnapshotOf at hrun
    rw [MarketFeed.numbered_take_succ hu] at hrun
    obtain ⟨s', hs', hstep⟩ := Lib.Runs.foldlM_append_eq_ok.mp hrun
    obtain rfl := Except.ok.inj (hsynthesized.symm.trans hs')
    obtain ⟨s'', hadd, hnil⟩ := Lib.Runs.foldlM_cons_eq_ok.mp hstep
    obtain rfl := Except.ok.inj hnil
    obtain ⟨-, hlast⟩ := SnapshotSynthesizer.seq_num_of_addToSnapshot hadd
    simp only [hrecord, hadd, ok_bind]
    refine ⟨_, rfl, hinv, ⟨hqueue, hright, ⟨i, ?_, hindex⟩, ?_, fun _ => hsome,
      fun _ heq => by (cases heq), ?_, fun cycle hcycle => ?_⟩⟩
    · simp only [owedReads, hlast]
      exact congrArg (· + 1) hi
    · show f.snapshot_md_updates_.num_elements_ + s''.last_inc_seq_num_ + _ = _ + 1
      rw [hlast]
      dsimp only
      omega
    · show SnapshotOf f.feed.written s''.last_inc_seq_num_ s''
      rw [hlast]
      exact hs
    · obtain ⟨k, s, hk, hs, heq⟩ := hcycles cycle hcycle
      exact ⟨k, s, hk.trans (by rw [hlast]; exact Nat.le_succ _), hs, heq⟩
  | readIndex =>
    simp only [hpc, owedReads] at hi hnum
    have hsome : 0 < f.snapshot_md_updates_.num_elements_ := hpos (by rw [hpc]; exact .inr rfl)
    refine ⟨_, rfl, feed_inv_setQueue hinv rfl rfl, ⟨hqueue.setQueue rfl rfl rfl, hright,
      ⟨i + 1, hi, ?_⟩, hnum, fun _ => hsome, fun _ heq => by (cases heq), hsynthesized, hcycles⟩⟩
    have helems := hqueue.num_elems
    show (f.snapshot_md_updates_.next_read_index_ + 1) % f.snapshot_md_updates_.num_elems = _
    rw [hindex, show f.snapshot_md_updates_.num_elems = m from helems]
    exact Lib.RingLog.succ_mod i
  | count =>
    simp only [hpc, owedReads] at hi hnum
    -- the record that the test saw is still counted, so the ASSERT holds
    have hsome : 0 < f.snapshot_md_updates_.num_elements_ := hpos (by rw [hpc]; exact .inr rfl)
    have hcount : f.snapshot_md_updates_.countRead =
        .ok { f.snapshot_md_updates_ with
              num_elements_ := f.snapshot_md_updates_.num_elements_ - 1 } := by
      simp [LFQueue.countRead, Nat.ne_of_gt hsome]
    simp only [hcount, ok_bind]
    refine ⟨_, rfl, feed_inv_setQueue hinv rfl rfl, ⟨hqueue.setQueue rfl rfl rfl, hright,
      ⟨i, hi, hindex⟩, ?_, fun hholding => absurd hholding (not_holding rfl rfl),
      fun _ heq => by (cases heq), hsynthesized, hcycles⟩⟩
    · show f.snapshot_md_updates_.num_elements_ - 1 + f.synthesizer.last_inc_seq_num_ + _ =
        f.feed.forwarded.length + 0
      simp only [setQueue]
      omega
  | timer =>
    simp only [hpc, owedReads] at hi hnum
    cases elapsed with
    | false =>
      exact ⟨_, rfl, hinv, ⟨hqueue, hright, ⟨i, hi, hindex⟩, hnum,
        fun hholding => absurd hholding (not_holding rfl rfl), fun _ heq => by (cases heq), hsynthesized, hcycles⟩⟩
    | true =>
      refine ⟨_, rfl, hinv, ⟨hqueue, hright, ⟨i, hi, hindex⟩, hnum,
        fun hholding => absurd hholding (not_holding rfl rfl), fun _ heq => by (cases heq), hsynthesized,
        fun cycle hcycle => ?_⟩⟩
      rcases List.mem_append.mp hcycle with hcycle | hcycle
      · exact hcycles cycle hcycle
      · rw [List.mem_singleton.mp hcycle]
        exact ⟨_, f.synthesizer, le_rfl, hsynthesized, rfl⟩

/-- **A late read never goes through**: the ASSERT on the numbers, or one before it, stops the
synthesizer. -/
theorem Inv.error_of_late (hm : 0 < m) (h : Inv m f) (hlate : ¬ ReadsInTime m f party) :
    ∃ fault, f.step updates party = .error fault := by
  unfold ReadsInTime at hlate
  simp only [not_forall] at hlate
  obtain ⟨elapsed, slot, rfl, hpc, hlate⟩ := hlate
  show ∃ fault, f.synthesize elapsed = .error fault
  unfold SnapshotFeed.synthesize
  simp only [hpc]
  cases hadd : f.synthesizer.addToSnapshot (f.snapshot_md_updates_.store_ slot) with
  | error fault => exact ⟨fault, rfl⟩
  | ok s =>
    have hseq := (SnapshotSynthesizer.seq_num_of_addToSnapshot hadd).1
    exact absurd hseq (h.seq_num_ne hm hpc hlate)

/-! ## Runs -/

/-- What holds of all three threads. -/
structure Reached (n m : ℕ) (updates : ℕ → MEMarketUpdate) (f : SnapshotFeed) : Prop where
  feed : ∃ k, MarketFeed.Inv n k f.feed
  inv : Inv m f
  written : f.feed.written = (List.range f.feed.written.length).map updates

theorem reached_new (n : ℕ) (updates : ℕ → MEMarketUpdate) :
    Reached n ME_MAX_MARKET_UPDATES updates (new n) where
  feed := ⟨0, MarketFeed.inv_new n⟩
  inv := inv_new n
  written := rfl

/-- The engine stores its updates one after the other. -/
theorem written_step (p : MarketFeed.Party)
    (h : feed.written = (List.range feed.written.length).map updates)
    (hstep : feed.step updates p = .ok feed') :
    feed'.written = (List.range feed'.written.length).map updates := by
  cases p with
  | engine =>
    obtain rfl := Except.ok.inj hstep
    unfold MarketFeed.write
    split
    · split
      · exact h
      · exact h
    · show feed.written ++ [_] = _
      rw [List.length_append, List.length_singleton, List.range_succ, List.map_append, ← h]
      rfl
    · exact h
    · exact h
  | publisher =>
    rw [(MarketFeed.publish_cases hstep).1]
    exact h

/-- The synthesizer takes in any first part of the updates. -/
def Accepted (updates : ℕ → MEMarketUpdate) : Prop :=
  ∀ k, ∃ s, SnapshotSynthesizer.new.run (numbered 1 ((List.range k).map updates)) = .ok s

theorem Reached.accepted (h : Reached n m updates f) (haccepted : Accepted updates) (k : ℕ) :
    ∃ s, SnapshotOf f.feed.written k s := by
  unfold SnapshotOf
  rw [h.written, ← List.map_take, List.take_range]
  exact haccepted _

/-- **A step goes through exactly when it reads in time**, and then keeps all invariants. -/
theorem Reached.step (hn : 0 < n) (hm : 0 < m) (haccepted : Accepted updates)
    (h : Reached n m updates f) (hcopies : CopiesInTime n f party) :
    (ReadsInTime m f party → ∃ f', f.step updates party = .ok f' ∧ Reached n m updates f') ∧
      (¬ ReadsInTime m f party → ∃ fault, f.step updates party = .error fault) := by
  refine ⟨fun htime => ?_, h.inv.error_of_late hm⟩
  obtain ⟨⟨k, hfeed⟩, hinv, hwritten⟩ := id h
  cases party with
  | feed p =>
    obtain ⟨k', f', hstep, hfeed', hinv'⟩ := hinv.feed_step updates hn hfeed (hcopies p rfl)
    obtain ⟨feed', hfeed_step, heq⟩ := bind_eq_ok.mp hstep
    obtain rfl := Except.ok.inj heq
    exact ⟨_, hstep, ⟨k', hfeed'⟩, hinv', written_step p hwritten hfeed_step⟩
  | synthesizer elapsed =>
    obtain ⟨f', hstep, hfeed', hinv'⟩ := hinv.synthesize hfeed (h.accepted haccepted) htime
    refine ⟨f', hstep, ⟨k, hfeed'⟩, hinv', ?_⟩
    rw [written_synthesize hstep]
    exact hwritten

/-- A run whose copies are in time goes through exactly when its reads are; induction on the
schedule. -/
theorem Reached.run (hn : 0 < n) (hm : 0 < m) (haccepted : Accepted updates) :
    ∀ {f : SnapshotFeed}, Reached n m updates f →
      Lib.Runs.Along (SnapshotFeed.step updates) (CopiesInTime n) f schedule →
      ((∃ f', f.run updates schedule = .ok f') ↔
        Lib.Runs.Along (SnapshotFeed.step updates) (ReadsInTime m) f schedule) ∧
      ∀ f', f.run updates schedule = .ok f' → Reached n m updates f' := by
  induction schedule with
  | nil =>
    intro f h _
    refine ⟨iff_of_true ⟨f, rfl⟩ trivial, fun f' hrun => ?_⟩
    cases hrun
    exact h
  | cons party schedule ih =>
    intro f h hcopies
    obtain ⟨hgood, hbad⟩ := h.step hn hm haccepted hcopies.1
    by_cases htime : ReadsInTime m f party
    · obtain ⟨f₁, hstep, h₁⟩ := hgood htime
      obtain ⟨hiff, hreached⟩ := ih h₁ (hcopies.2 f₁ hstep)
      rw [Lib.Runs.along_cons_of_ok hstep, and_iff_right htime, ← hiff]
      have hrun : f.run updates (party :: schedule) = f₁.run updates schedule := by
        unfold SnapshotFeed.run
        rw [List.foldlM_cons, hstep]
        rfl
      rw [hrun]
      exact ⟨Iff.rfl, hreached⟩
    · obtain ⟨fault, hstep⟩ := hbad htime
      have hrun : f.run updates (party :: schedule) = .error fault := by
        unfold SnapshotFeed.run
        rw [List.foldlM_cons, hstep]
        rfl
      rw [hrun]
      refine ⟨iff_of_false ?_ fun hall => htime hall.1, ?_⟩
      · rintro ⟨f', hf'⟩
        cases hf'
      · intro f' hf'
        cases hf'

/-- A trade has no effect on a snapshot. -/
def tradeMark : MEMarketUpdate := { type_ := .TRADE, ticker_id_ := 0 }

theorem accepted_tradeMark : Accepted fun _ => tradeMark := by
  suffices h : ∀ k, SnapshotSynthesizer.new.run
      (numbered 1 ((List.range k).map fun _ => tradeMark)) =
        .ok { SnapshotSynthesizer.new with last_inc_seq_num_ := k } from fun k => ⟨_, h k⟩
  intro k
  induction k with
  | zero => rfl
  | succ k ih =>
    rw [List.range_succ, List.map_append, numbered_append, List.length_map, List.length_range,
      Nat.add_comm 1]
    refine Lib.Runs.foldlM_append_eq_ok.mpr ⟨_, ih, ?_⟩
    exact Lib.Runs.foldlM_cons_eq_ok.mpr ⟨_, if_pos rfl, rfl⟩

/-- When all updates are equal it does not matter which of them is copied. -/
theorem copiesInTime_of_const (n : ℕ) (u : MEMarketUpdate) (schedule : List Party) :
    Lib.Runs.Along (SnapshotFeed.step fun _ => u) (CopiesInTime n) (new n) schedule := by
  refine Lib.Runs.along_of_invariant (I := fun f => f.feed.written =
    (List.range f.feed.written.length).map fun _ => u) ?_ ?_ rfl
  · intro f party hwritten p _ slot _ _ v hv
    have hlen := (List.getElem?_eq_some_iff.mp hv).1
    rw [hwritten, List.getElem?_map, Option.map_eq_some_iff] at hv
    obtain ⟨_, -, rfl⟩ := hv
    rw [hwritten, List.getElem?_map, List.getElem?_range (by omega)]
    rfl
  · intro f party f' hwritten hstep
    cases party with
    | feed p =>
      obtain ⟨feed', hfeed_step, heq⟩ := bind_eq_ok.mp hstep
      obtain rfl := Except.ok.inj heq
      exact written_step p hwritten hfeed_step
    | synthesizer elapsed =>
      rw [written_synthesize hstep]
      exact hwritten

/-- An update goes all the way through, and the synthesizer publishes a snapshot. -/
def oneUpdate : List Party :=
  List.replicate 4 (.feed .engine) ++ List.replicate 10 (.feed .publisher) ++
    List.replicate 7 (.synthesizer false) ++ [.synthesizer true]

end SnapshotFeed

end TradingEcosystem
