import TradingEcosystem.Common.LFQueue

/-!
# Market Data Publisher

`exchange/market_data/market_data_publisher.{h,cpp}`: the loop that takes the updates of the
matching engine off their queue, sends each on the incremental socket and copies it to the queue
of the snapshot synthesizer.

The loop gives its slot back (`updateReadIndex`) between the send and the copy, and reads the slot
once more for the copy.

- `MarketFeed` : the two queues, the socket, and where the engine and the publisher are in their
  code
- `MarketFeed.Inv` : what holds between any two steps
- `MarketFeed.sameMessages_iff` : the socket carries what the engine wrote, and so does the queue
  of the synthesizer exactly when no copy comes after the slot was written again
-/

namespace TradingEcosystem

/-- What one call of the socket's `send` passes on. -/
inductive Packet where
  | seq_num (n : ℕ)
  | market_update (u : MEMarketUpdate)
  deriving DecidableEq, Repr

/-- Each record is sent as its number and its update. -/
def packets (records : List MDPMarketUpdate) : List Packet :=
  records.flatMap fun r => [.seq_num r.seq_num_, .market_update r.me_market_update_]

theorem packets_append (records records' : List MDPMarketUpdate) :
    packets (records ++ records') = packets records ++ packets records' :=
  List.flatMap_append

theorem packets_isPrefix {records records' : List MDPMarketUpdate} (h : records <+: records') :
    packets records <+: packets records' := by
  obtain ⟨more, rfl⟩ := h
  rw [packets_append]
  exact List.prefix_append ..

/-- The next statement of the engine, which writes only when there is room. -/
inductive WriterPc where
  | test
  | store
  | writeIndex
  | count
  deriving DecidableEq, Repr

/-- The next statement of the publisher's loop; `slot` is where `market_update` points to. -/
inductive PublisherPc where
  | getNextToRead
  | test (market_update : Option ℕ)
  | sendSeqNum (slot : ℕ)
  | sendUpdate (slot : ℕ)
  | readIndex (slot : ℕ)
  | count (slot : ℕ)
  | writeSeqNum (slot : ℕ)
  | copy (slot : ℕ)
  | writeIndex
  | increment
  | sendAndRecv
  deriving DecidableEq, Repr

structure MarketFeed where
  outgoing_md_updates_ : LFQueue MEMarketUpdate
  snapshot_md_updates_ : LFQueue MDPMarketUpdate
  next_inc_seq_num_ : ℕ := 1
  /-- Everything sent on the socket so far. -/
  incremental_socket_ : List Packet := []
  engine : WriterPc := .test
  publisher : PublisherPc := .getNextToRead
  /-- Every update the engine stored so far. -/
  written : List MEMarketUpdate := []
  /-- Every record completed in a slot of `snapshot_md_updates_` so far. -/
  forwarded : List MDPMarketUpdate := []

namespace MarketFeed

def new (num_elems : ℕ) : MarketFeed where
  outgoing_md_updates_ := .new num_elems default
  snapshot_md_updates_ := .new ME_MAX_MARKET_UPDATES default

/-- A step of the engine, which is going to store `u` next. -/
def write (f : MarketFeed) (u : MEMarketUpdate) : MarketFeed :=
  match f.engine with
  | .test =>
    if f.outgoing_md_updates_.size < f.outgoing_md_updates_.num_elems then
      { f with engine := .store }
    else
      -- full, so the engine waits
      f
  | .store =>
    { f with outgoing_md_updates_ := f.outgoing_md_updates_.store u, engine := .writeIndex,
             written := f.written ++ [u] }
  | .writeIndex =>
    { f with outgoing_md_updates_ := f.outgoing_md_updates_.advanceWriteIndex, engine := .count }
  | .count => { f with outgoing_md_updates_ := f.outgoing_md_updates_.countWrite, engine := .test }

/-- The record in the slot of `snapshot_md_updates_` that is written next. -/
def next_write (f : MarketFeed) : MDPMarketUpdate :=
  f.snapshot_md_updates_.store_ f.snapshot_md_updates_.next_write_index_

/-- A step of `MarketDataPublisher::run`. -/
def publish (f : MarketFeed) : Except Fault MarketFeed :=
  match f.publisher with
  | .getNextToRead => .ok { f with publisher := .test f.outgoing_md_updates_.getNextToRead }
  | .test market_update =>
    match market_update with
    | none => .ok { f with publisher := .sendAndRecv }
    | some slot =>
      -- the loop tests the count once more, besides the pointer
      if f.outgoing_md_updates_.size ≠ 0 then
        .ok { f with publisher := .sendSeqNum slot }
      else
        .ok { f with publisher := .sendAndRecv }
  | .sendSeqNum slot =>
    .ok { f with incremental_socket_ := f.incremental_socket_ ++ [.seq_num f.next_inc_seq_num_],
                 publisher := .sendUpdate slot }
  | .sendUpdate slot =>
    .ok { f with
          incremental_socket_ :=
            f.incremental_socket_ ++ [.market_update (f.outgoing_md_updates_.store_ slot)]
          publisher := .readIndex slot }
  | .readIndex slot =>
    .ok { f with outgoing_md_updates_ := f.outgoing_md_updates_.advanceReadIndex,
                 publisher := .count slot }
  | .count slot => do
    let queue ← f.outgoing_md_updates_.countRead
    .ok { f with outgoing_md_updates_ := queue, publisher := .writeSeqNum slot }
  | .writeSeqNum slot =>
    .ok { f with
          snapshot_md_updates_ :=
            f.snapshot_md_updates_.store { f.next_write with seq_num_ := f.next_inc_seq_num_ }
          publisher := .copy slot }
  | .copy slot =>
    -- the engine's slot is read again here, after it was given back
    let record :=
      { f.next_write with me_market_update_ := f.outgoing_md_updates_.store_ slot }
    .ok { f with snapshot_md_updates_ := f.snapshot_md_updates_.store record,
                 publisher := .writeIndex, forwarded := f.forwarded ++ [record] }
  | .writeIndex =>
    .ok { f with snapshot_md_updates_ := f.snapshot_md_updates_.advanceWriteIndex.countWrite,
                 publisher := .increment }
  | .increment =>
    .ok { f with next_inc_seq_num_ := f.next_inc_seq_num_ + 1, publisher := .getNextToRead }
  | .sendAndRecv => .ok { f with publisher := .getNextToRead }

/-! ## What holds between two steps -/

/-- Updates of the write index and of the counter that the engine still owes. -/
def owedWrites : WriterPc → ℕ × ℕ
  | .test => (0, 0)
  | .store => (0, 0)
  | .writeIndex => (1, 1)
  | .count => (0, 1)

/-- Updates of the read index and of the counter that the publisher has made since it last
incremented its number. -/
def madeReads : PublisherPc → ℕ × ℕ
  | .count _ => (1, 0)
  | .writeSeqNum _ | .copy _ | .writeIndex | .increment => (1, 1)
  | _ => (0, 0)

/-- Updates it has sent, and copied, since then. -/
def madeCopies : PublisherPc → ℕ × ℕ
  | .readIndex _ | .count _ | .writeSeqNum _ | .copy _ => (1, 0)
  | .writeIndex | .increment => (1, 1)
  | _ => (0, 0)

/-- A number that was sent without its update so far. -/
def half (k : ℕ) : PublisherPc → List Packet
  | .sendUpdate _ => [.seq_num (k + 1)]
  | _ => []

/-- The slot that the publisher still points to. -/
def pointer : PublisherPc → Option ℕ
  | .test market_update => market_update
  | .sendSeqNum slot | .sendUpdate slot | .readIndex slot | .count slot | .writeSeqNum slot
  | .copy slot => some slot
  | _ => none

/-- The publisher has seen an element that it has not counted as read. -/
def Holding (pc : PublisherPc) : Prop := (pointer pc).isSome ∧ (madeReads pc).2 = 0

/-- The publisher has `k` updates behind it. -/
structure Inv (n k : ℕ) (f : MarketFeed) : Prop where
  num_elems : f.outgoing_md_updates_.num_elems = n
  slots : Lib.RingLog.Holds n f.outgoing_md_updates_.store_ f.written
  seq_num : f.next_inc_seq_num_ = k + 1
  write_index : ∃ i, i + (owedWrites f.engine).1 = f.written.length ∧
    f.outgoing_md_updates_.next_write_index_ = i % n
  read_index : f.outgoing_md_updates_.next_read_index_ = (k + (madeReads f.publisher).1) % n
  num_elements : f.outgoing_md_updates_.num_elements_ + (k + (madeReads f.publisher).2) +
    (owedWrites f.engine).2 = f.written.length
  /-- The engine is never more than the capacity ahead of the counted reads. -/
  room : f.written.length ≤ k + (madeReads f.publisher).2 + n
  space : f.engine = .store → f.outgoing_md_updates_.num_elements_ < n
  nonempty : Holding f.publisher → 0 < f.outgoing_md_updates_.num_elements_
  slot : ∀ slot, pointer f.publisher = some slot → slot = k % n
  socket : f.incremental_socket_ =
    packets (numbered 1 (f.written.take (k + (madeCopies f.publisher).1))) ++ half k f.publisher
  copies : f.forwarded.length = k + (madeCopies f.publisher).2
  staged : ∀ slot, f.publisher = .copy slot → f.next_write.seq_num_ = k + 1

theorem inv_new (n : ℕ) : Inv n 0 (new n) where
  num_elems := rfl
  slots := Lib.RingLog.holds_nil
  seq_num := rfl
  write_index := ⟨0, rfl, (Nat.zero_mod n).symm⟩
  read_index := (Nat.zero_mod n).symm
  num_elements := rfl
  room := Nat.zero_le _
  space := fun h => by cases h
  nonempty := fun h => by cases h.1
  slot := fun _ h => by cases h
  socket := rfl
  copies := rfl
  staged := fun _ h => by cases h

variable {n k : ℕ} {f f' : MarketFeed} {u : MEMarketUpdate}

/-- The updates that are behind the publisher were all written. -/
theorem Inv.behind (h : Inv n k f) : k + (madeCopies f.publisher).1 ≤ f.written.length := by
  obtain ⟨-, -, -, -, -, hnum, -, -, hpos, -, -, -, -⟩ := h
  cases hpc : f.publisher with
  | readIndex slot | count slot =>
    have := hpos ⟨by simp [hpc, pointer], by simp [hpc, madeReads]⟩
    simp only [hpc, madeReads] at hnum
    simp only [madeCopies]
    omega
  | _ =>
    simp only [hpc, madeReads] at hnum
    simp only [madeCopies]
    omega

/-- Every step of the engine keeps the invariant. -/
theorem Inv.write (h : Inv n k f) (u : MEMarketUpdate) : Inv n k (f.write u) := by
  have hbehind := h.behind
  obtain ⟨hn, hslots, hseq, ⟨i, hi, hwrite⟩, hread, hnum, hroom, hspace, hpos, hslot, hsocket,
    hcopies, hstaged⟩ := h
  unfold MarketFeed.write
  cases hpc : f.engine with
  | test =>
    simp only [hpc, owedWrites] at hi hnum
    simp only [LFQueue.size, hn]
    split
    · rename_i hlt
      exact ⟨hn, hslots, hseq, ⟨i, hi, hwrite⟩, hread, hnum, hroom, fun _ => hlt, hpos, hslot,
        hsocket, hcopies, hstaged⟩
    · refine ⟨hn, hslots, hseq, ⟨i, ?_, hwrite⟩, hread, ?_, hroom, hspace, hpos, hslot, hsocket,
        hcopies, hstaged⟩
      · simpa [hpc, owedWrites] using hi
      · simpa [hpc, owedWrites] using hnum
  | store =>
    simp only [hpc, owedWrites] at hi hnum
    obtain rfl : i = f.written.length := hi
    -- the engine found room, and the publisher has only made more since
    have hlt := hspace hpc
    refine ⟨hn, ?_, hseq, ⟨f.written.length, by simp [owedWrites], hwrite⟩, hread, ?_, ?_,
      (fun h => by cases h), hpos, hslot, ?_, hcopies, hstaged⟩
    · simp only [LFQueue.store, hwrite]
      exact hslots.snoc u
    · simp only [LFQueue.store, owedWrites, List.length_append, List.length_singleton]
      omega
    · simp only [List.length_append, List.length_singleton]
      omega
    · rw [List.take_append_of_le_length hbehind]
      exact hsocket
  | writeIndex =>
    simp only [hpc, owedWrites] at hi hnum
    refine ⟨hn, hslots, hseq, ⟨i + 1, hi, ?_⟩, hread, hnum, hroom, (fun h => by cases h), hpos,
      hslot, hsocket, hcopies, hstaged⟩
    simp only [LFQueue.advanceWriteIndex, hwrite, hn]
    exact Lib.RingLog.succ_mod i
  | count =>
    simp only [hpc, owedWrites] at hi hnum
    refine ⟨hn, hslots, hseq, ⟨i, hi, hwrite⟩, hread, ?_, hroom, (fun h => by cases h),
      fun _ => Nat.succ_pos _, hslot, hsocket, hcopies, hstaged⟩
    simp only [LFQueue.countWrite, owedWrites]
    omega

/-- The next entry of a log, numbered. -/
theorem numbered_take_succ {log : List MEMarketUpdate} (hk : log[k]? = some u) :
    numbered 1 (log.take (k + 1)) =
      numbered 1 (log.take k) ++ [{ seq_num_ := k + 1, me_market_update_ := u }] := by
  have hlt := (List.getElem?_eq_some_iff.mp hk).1
  rw [List.take_add_one, hk, Option.toList_some, numbered_append, List.length_take,
    Nat.min_eq_left hlt.le, Nat.add_comm 1]
  rfl

/-- While the publisher holds an element, its slot has what the engine wrote there. -/
theorem Inv.held (h : Inv n k f) (hheld : Holding f.publisher) {slot : ℕ}
    (hslot : pointer f.publisher = some slot) :
    f.written[k]? = some (f.outgoing_md_updates_.store_ slot) := by
  have hnum := h.num_elements
  have hroom := h.room
  have hpos := h.nonempty hheld
  rw [hheld.2] at hnum hroom
  have hk : k < f.written.length := by omega
  rw [h.slot slot hslot, List.getElem?_eq_getElem hk]
  exact congrArg some (h.slots _ _ (List.getElem?_eq_getElem hk) hroom).symm

/-- **The publisher never faults**, and its steps keep the invariant. -/
theorem Inv.publish (h : Inv n k f) : ∃ k' f', f.publish = .ok f' ∧ Inv n k' f' := by
  have hheld := h.held
  obtain ⟨hn, hslots, hseq, hwrite, hread, hnum, hroom, hspace, hpos, hslot, hsocket, hcopies,
    hstaged⟩ := h
  unfold MarketFeed.publish
  cases hpc : f.publisher with
  | getNextToRead =>
    simp only [hpc, madeReads, madeCopies, half] at hread hnum hroom hsocket hcopies
    unfold LFQueue.getNextToRead LFQueue.size
    by_cases hsize : f.outgoing_md_updates_.num_elements_ ≠ 0
    · -- the pointer goes to the slot of the next update
      rw [if_pos hsize]
      refine ⟨k, _, rfl, hn, hslots, hseq, hwrite, hread, hnum, hroom, hspace,
        fun _ => Nat.pos_of_ne_zero hsize, fun slot heq => ?_, hsocket, hcopies,
        fun _ heq => by cases heq⟩
      cases heq
      exact hread
    · rw [if_neg hsize]
      exact ⟨k, _, rfl, hn, hslots, hseq, hwrite, hread, hnum, hroom, hspace,
        (fun h => by cases h.1), (fun _ heq => by cases heq), hsocket, hcopies,
        (fun _ heq => by cases heq)⟩
  | test market_update =>
    simp only [hpc, madeReads, madeCopies, half] at hread hnum hroom hsocket hcopies
    cases market_update with
    | none =>
      exact ⟨k, _, rfl, hn, hslots, hseq, hwrite, hread, hnum, hroom, hspace,
        (fun h => by cases h.1), (fun _ heq => by cases heq), hsocket, hcopies,
        (fun _ heq => by cases heq)⟩
    | some slot =>
      -- only the publisher takes elements away, so the second test passes as well
      have hsome : 0 < f.outgoing_md_updates_.num_elements_ :=
        hpos (by simp [hpc, Holding, pointer, madeReads])
      have hsize : f.outgoing_md_updates_.size ≠ 0 := Nat.ne_of_gt hsome
      rw [hpc] at hslot
      simp only [if_pos hsize]
      exact ⟨k, _, rfl, hn, hslots, hseq, hwrite, hread, hnum, hroom, hspace, fun _ => hsome,
        hslot, hsocket, hcopies, (fun _ heq => by cases heq)⟩
  | sendSeqNum slot =>
    rw [hpc] at hslot hpos
    simp only [hpc, madeReads, madeCopies, half] at hread hnum hroom hsocket hcopies
    refine ⟨k, _, rfl, hn, hslots, hseq, hwrite, hread, hnum, hroom, hspace,
      fun _ => hpos ⟨rfl, rfl⟩, hslot, ?_, hcopies, (fun _ heq => by cases heq)⟩
    simp [hsocket, hseq, half, madeCopies]
  | sendUpdate slot =>
    -- the half sent so far is completed to the next record
    have hv := hheld (by simp [hpc, Holding, pointer, madeReads]) (congrArg pointer hpc)
    rw [hpc] at hslot hpos
    simp only [hpc, madeReads, madeCopies, half] at hread hnum hroom hsocket hcopies
    refine ⟨k, _, rfl, hn, hslots, hseq, hwrite, hread, hnum, hroom, hspace,
      fun _ => hpos ⟨rfl, rfl⟩, hslot, ?_, hcopies, (fun _ heq => by cases heq)⟩
    simp only [madeCopies, numbered_take_succ hv, packets_append, hsocket]
    simp [packets, half]
  | readIndex slot =>
    rw [hpc] at hslot hpos
    simp only [hpc, madeReads, madeCopies, half] at hread hnum hroom hsocket hcopies
    refine ⟨k, _, rfl, hn, hslots, hseq, hwrite, ?_, hnum, hroom, hspace,
      fun _ => hpos ⟨rfl, rfl⟩, hslot, hsocket, hcopies, (fun _ heq => by cases heq)⟩
    simp only [LFQueue.advanceReadIndex, hread, hn]
    exact Lib.RingLog.succ_mod k
  | count slot =>
    rw [hpc] at hslot hpos
    simp only [hpc, madeReads, madeCopies, half] at hread hnum hroom hsocket hcopies
    -- the update it points to is still counted, so the ASSERT holds
    have hsome : 0 < f.outgoing_md_updates_.num_elements_ := hpos ⟨rfl, rfl⟩
    have hcount : f.outgoing_md_updates_.countRead =
        .ok { f.outgoing_md_updates_ with
              num_elements_ := f.outgoing_md_updates_.num_elements_ - 1 } := by
      simp [LFQueue.countRead, Nat.ne_of_gt hsome]
    simp only [hcount, ok_bind]
    refine ⟨k, _, rfl, hn, hslots, hseq, hwrite, hread, ?_, ?_, ?_, (fun h => by cases h.2), hslot,
      hsocket, hcopies, (fun _ heq => by cases heq)⟩
    · simp only [madeReads]
      omega
    · simp only [madeReads]
      omega
    · intro hstore
      have := hspace hstore
      simp only
      omega
  | writeSeqNum slot =>
    rw [hpc] at hslot
    simp only [hpc, madeReads, madeCopies, half] at hread hnum hroom hsocket hcopies
    refine ⟨k, _, rfl, hn, hslots, hseq, hwrite, hread, hnum, hroom, hspace,
      (fun h => by cases h.2), hslot, hsocket, hcopies, fun _ _ => ?_⟩
    simp [next_write, LFQueue.store, hseq]
  | copy slot =>
    simp only [hpc, madeReads, madeCopies, half] at hread hnum hroom hsocket hcopies
    refine ⟨k, _, rfl, hn, hslots, hseq, hwrite, hread, hnum, hroom, hspace,
      (fun h => by cases h.2), (fun _ heq => by cases heq), hsocket, ?_,
      (fun _ heq => by cases heq)⟩
    simp [hcopies, madeCopies]
  | writeIndex =>
    simp only [hpc, madeReads, madeCopies, half] at hread hnum hroom hsocket hcopies
    exact ⟨k, _, rfl, hn, hslots, hseq, hwrite, hread, hnum, hroom, hspace,
      (fun h => by cases h.2), (fun _ heq => by cases heq), hsocket, hcopies,
      (fun _ heq => by cases heq)⟩
  | increment =>
    -- the update is behind the publisher now
    simp only [hpc, madeReads, madeCopies, half] at hread hnum hroom hsocket hcopies
    refine ⟨k + 1, _, rfl, hn, hslots, congrArg (· + 1) hseq, hwrite, hread, hnum, hroom, hspace,
      (fun h => by cases h.1), (fun _ heq => by cases heq), hsocket, hcopies,
      (fun _ heq => by cases heq)⟩
  | sendAndRecv =>
    simp only [hpc, madeReads, madeCopies, half] at hread hnum hroom hsocket hcopies
    exact ⟨k, _, rfl, hn, hslots, hseq, hwrite, hread, hnum, hroom, hspace,
      (fun h => by cases h.1), (fun _ heq => by cases heq), hsocket, hcopies,
      (fun _ heq => by cases heq)⟩

/-! ## Runs -/

/-- Who takes the next step. -/
inductive Party where
  | engine
  | publisher
  deriving DecidableEq, Repr

/-- The updates the engine stores are `updates 0`, `updates 1`, and so on. -/
def step (updates : ℕ → MEMarketUpdate) (f : MarketFeed) : Party → Except Fault MarketFeed
  | .engine => .ok (f.write (updates f.written.length))
  | .publisher => f.publish

/-- The two parties take their steps in the order of `schedule`. -/
def run (updates : ℕ → MEMarketUpdate) (f : MarketFeed) (schedule : List Party) :
    Except Fault MarketFeed :=
  schedule.foldlM (step updates) f

/-- What was sent, and what was copied for the synthesizer, is what the engine wrote, numbered
from one. -/
def SameMessages (f : MarketFeed) : Prop :=
  f.incremental_socket_ <+: packets (numbered 1 f.written) ∧ f.forwarded <+: numbered 1 f.written

/-- When an update is copied, the engine has not yet written the update that goes to the same
slot next, unless the two are equal. -/
def CopiesInTime (n : ℕ) (f : MarketFeed) (party : Party) : Prop :=
  ∀ slot, party = .publisher → f.publisher = .copy slot →
    ∀ u, f.written[f.forwarded.length + n]? = some u → f.written[f.forwarded.length]? = some u

variable {updates : ℕ → MEMarketUpdate} {party : Party} {schedule : List Party}

theorem Inv.step (h : Inv n k f) (updates : ℕ → MEMarketUpdate) (party : Party) :
    ∃ k' f', f.step updates party = .ok f' ∧ Inv n k' f' := by
  cases party with
  | engine => exact ⟨k, _, rfl, h.write _⟩
  | publisher => exact h.publish

/-- **The socket never carries anything else** than what the engine wrote. -/
theorem Inv.socket_isPrefix (h : Inv n k f) :
    f.incremental_socket_ <+: packets (numbered 1 f.written) := by
  have hheld := h.held
  rw [h.socket]
  cases hpc : f.publisher with
  | sendUpdate slot =>
    -- the number that was sent alone is the first half of the next record
    have hv := hheld (by simp [hpc, Holding, pointer, madeReads]) (congrArg pointer hpc)
    refine List.IsPrefix.trans ?_ (packets_isPrefix (numbered_take 1 f.written (k + 1) ▸
      List.take_prefix ..))
    rw [numbered_take_succ hv, packets_append]
    exact List.prefix_append_right_inj _ |>.mpr (List.prefix_append [_] [_])
  | _ =>
    simp only [half, List.append_nil]
    rw [numbered_take]
    exact packets_isPrefix (List.take_prefix ..)

/-- What a step of the publisher adds to the records copied. -/
theorem publish_cases (h : f.publish = .ok f') :
    f'.written = f.written ∧
      (f'.forwarded = f.forwarded ∧ (∀ slot, f.publisher ≠ .copy slot) ∨
        ∃ slot, f.publisher = .copy slot ∧ f'.forwarded = f.forwarded ++
          [{ f.next_write with
             me_market_update_ := f.outgoing_md_updates_.store_ slot }]) := by
  unfold publish at h
  cases hpc : f.publisher with
  | copy slot =>
    simp only [hpc] at h
    cases h
    exact ⟨rfl, .inr ⟨slot, rfl, rfl⟩⟩
  | count slot =>
    simp only [hpc] at h
    obtain ⟨queue, -, h⟩ := bind_eq_ok.mp h
    cases h
    exact ⟨rfl, .inl ⟨rfl, by simp⟩⟩
  | test market_update =>
    cases market_update with
    | none =>
      simp only [hpc] at h
      cases h
      exact ⟨rfl, .inl ⟨rfl, by simp⟩⟩
    | some slot =>
      simp only [hpc] at h
      split at h
      · cases h
        exact ⟨rfl, .inl ⟨rfl, by simp⟩⟩
      · cases h
        exact ⟨rfl, .inl ⟨rfl, by simp⟩⟩
  | _ =>
    simp only [hpc] at h
    cases h
    exact ⟨rfl, .inl ⟨rfl, by simp⟩⟩

/-- A step of the engine copies nothing and only adds to what was written. -/
theorem write_logs (f : MarketFeed) (u : MEMarketUpdate) :
    (f.write u).forwarded = f.forwarded ∧ f.written <+: (f.write u).written := by
  unfold write
  split
  · split
    · exact ⟨rfl, List.prefix_rfl⟩
    · exact ⟨rfl, List.prefix_rfl⟩
  · exact ⟨rfl, List.prefix_append ..⟩
  · exact ⟨rfl, List.prefix_rfl⟩
  · exact ⟨rfl, List.prefix_rfl⟩

/-- The logs only grow. -/
theorem prefix_run (hrun : f.run updates schedule = .ok f') :
    f.written <+: f'.written ∧ f.forwarded <+: f'.forwarded := by
  have hstep : ∀ (f₁ : MarketFeed) (party : Party) (f₂ : MarketFeed),
      f.written <+: f₁.written ∧ f.forwarded <+: f₁.forwarded → f₁.step updates party = .ok f₂ →
      f.written <+: f₂.written ∧ f.forwarded <+: f₂.forwarded := by
    intro f₁ party f₂ h hstep
    cases party with
    | engine =>
      obtain rfl := Except.ok.inj hstep
      obtain ⟨hforwarded, hwritten⟩ := f₁.write_logs (updates f₁.written.length)
      rw [hforwarded]
      exact ⟨h.1.trans hwritten, h.2⟩
    | publisher =>
      obtain ⟨hwritten, ⟨hforwarded, -⟩ | ⟨slot, -, hforwarded⟩⟩ := publish_cases hstep
      · rw [hwritten, hforwarded]
        exact h
      · rw [hwritten, hforwarded]
        exact ⟨h.1, h.2.trans (List.prefix_append ..)⟩
  exact Lib.Runs.invariant_of_step hstep ⟨List.prefix_rfl, List.prefix_rfl⟩ hrun

/-- **The second look at the slot** finds the update that was sent, exactly when the slot was not
written again with another one. -/
theorem Inv.copy_iff (hn : 0 < n) (h : Inv n k f) {slot : ℕ} (hpc : f.publisher = .copy slot) :
    f.written[k]? = some (f.outgoing_md_updates_.store_ slot) ↔
      CopiesInTime n f .publisher := by
  have hnum := h.num_elements
  have hroom := h.room
  have hcopies := h.copies
  simp only [hpc, madeReads, madeCopies] at hnum hroom hcopies
  have hk : k < f.written.length := by omega
  have hslot : slot = k % n := h.slot slot (congrArg pointer hpc)
  unfold CopiesInTime
  rw [hcopies, Nat.add_zero]
  by_cases hlast : f.written.length ≤ k + n
  · -- the slot was not written again
    apply iff_of_true
    · rw [hslot, List.getElem?_eq_getElem hk]
      exact congrArg some (h.slots _ _ (List.getElem?_eq_getElem hk) hlast).symm
    · intro _ _ _ u hu
      have := (List.getElem?_eq_some_iff.mp hu).1
      omega
  · -- it holds the one update that fits behind the released slot
    have hnext : k + n < f.written.length := by omega
    have hu := List.getElem?_eq_getElem hnext
    have hstore : f.outgoing_md_updates_.store_ slot = f.written[k + n] := by
      rw [hslot, ← Nat.add_mod_right k n]
      exact h.slots _ _ hu (by omega)
    rw [hstore]
    constructor
    · intro heq _ _ _ u hu'
      rw [heq, ← hu, hu']
    · intro hcopy
      exact hcopy slot rfl hpc _ hu

/-- A record that was copied is the next one, numbered, with what the slot held. -/
theorem Inv.record_eq (h : Inv n k f) {slot : ℕ} (hpc : f.publisher = .copy slot) :
    { f.next_write with me_market_update_ := f.outgoing_md_updates_.store_ slot } =
      { seq_num_ := k + 1, me_market_update_ := f.outgoing_md_updates_.store_ slot } :=
  MDPMarketUpdate.mk.injEq .. ▸ ⟨h.staged slot hpc, rfl⟩

/-- A record that is right stays the next of the numbered log. -/
theorem snoc_isPrefix {forwarded : List MDPMarketUpdate} {log : List MEMarketUpdate}
    (h : forwarded <+: numbered 1 log) (hk : forwarded.length = k) (hu : log[k]? = some u) :
    forwarded ++ [{ seq_num_ := k + 1, me_market_update_ := u }] <+: numbered 1 log := by
  have htake : forwarded = numbered 1 (log.take k) := by
    rw [numbered_take, ← hk]
    exact List.prefix_iff_eq_take.mp h
  rw [htake, ← numbered_take_succ hu, numbered_take]
  exact List.take_prefix ..

/-- A record that is wrong can not be made right later on. -/
theorem not_prefix_of_ne {forwarded forwarded' : List MDPMarketUpdate}
    {log log' : List MEMarketUpdate} {v : MEMarketUpdate} (hk : forwarded.length = k)
    (hgrow : forwarded ++ [{ seq_num_ := k + 1, me_market_update_ := u }] <+: forwarded')
    (hlog : log <+: log') (hv : log[k]? = some v) (hne : v ≠ u) :
    ¬ forwarded' <+: numbered 1 log' := by
  intro h
  have hrecord := Channel.getElem?_of_isPrefix (hgrow.trans h)
    (show (forwarded ++ [_])[k]? = some _ by rw [← hk, List.getElem?_concat_length])
  rw [getElem?_numbered, Channel.getElem?_of_isPrefix hlog hv, Option.map_some, Option.some.injEq,
    MDPMarketUpdate.mk.injEq] at hrecord
  exact hne hrecord.2

/-- **The law of a run**, from any state in which the copies were right so far; induction on the
schedule. -/
theorem Inv.forwarded_iff (hn : 0 < n) :
    ∀ {k : ℕ} {f : MarketFeed}, Inv n k f → f.forwarded <+: numbered 1 f.written →
      f.run updates schedule = .ok f' →
      (f'.forwarded <+: numbered 1 f'.written ↔
        Lib.Runs.Along (MarketFeed.step updates) (CopiesInTime n) f schedule) := by
  induction schedule with
  | nil =>
    intro k f _ hright hrun
    cases hrun
    exact iff_of_true hright trivial
  | cons party schedule ih =>
    intro k f h hright hrun
    obtain ⟨f₁, hstep, hrest⟩ := Lib.Runs.foldlM_cons_eq_ok.mp hrun
    obtain ⟨k', f₁', hstep', h₁⟩ := h.step updates party
    obtain rfl := Except.ok.inj (hstep.symm.trans hstep')
    obtain ⟨hwritten, hforwarded⟩ := prefix_run hrest
    rw [Lib.Runs.along_cons_of_ok hstep]
    cases party with
    | engine =>
      obtain rfl := Except.ok.inj hstep
      obtain ⟨hsame, hgrow⟩ := f.write_logs (updates f.written.length)
      have hright₁ : (f.write (updates f.written.length)).forwarded <+:
          numbered 1 (f.write (updates f.written.length)).written := by
        obtain ⟨more, hmore⟩ := hgrow
        rw [hsame, ← hmore, numbered_append]
        exact hright.trans (List.prefix_append ..)
      rw [ih h₁ hright₁ hrest]
      exact (and_iff_right fun slot hparty => by cases hparty).symm
    | publisher =>
      obtain ⟨hlog, ⟨hsame, hnone⟩ | ⟨slot, hpc, hcopy⟩⟩ := publish_cases hstep
      · rw [ih h₁ (hlog ▸ hsame ▸ hright) hrest]
        exact (and_iff_right fun slot _ hpc => absurd hpc (hnone slot)).symm
      · have hcopies : f.forwarded.length = k := by
          simpa [hpc, madeCopies] using h.copies
        rw [h.record_eq hpc] at hcopy
        by_cases htime : CopiesInTime n f .publisher
        · have hu := (h.copy_iff hn hpc).mpr htime
          have hright₁ : f₁.forwarded <+: numbered 1 f₁.written := by
            rw [hcopy, hlog]
            exact snoc_isPrefix hright hcopies hu
          rw [ih h₁ hright₁ hrest]
          exact (and_iff_right htime).symm
        · -- what is copied in this step is not what was sent
          have hk : k < f.written.length := by
            have hnum := h.num_elements
            simp only [hpc, madeReads] at hnum
            omega
          have hv := List.getElem?_eq_getElem hk
          apply iff_of_false
          · apply not_prefix_of_ne hcopies (hcopy ▸ hforwarded) (hlog ▸ hwritten) hv
            intro heq
            rw [heq] at hv
            exact htime ((h.copy_iff hn hpc).mp hv)
          · intro hall
            exact htime hall.1

/-- **The incremental stream and the snapshot feed**, for every interleaving: no ASSERT fires, the
socket carries the updates of the engine in order, numbered from one, and so does the queue of the
synthesizer exactly when no update is copied after the engine has written another one to its
slot. -/
theorem sameMessages_iff (hn : 0 < n) (updates : ℕ → MEMarketUpdate) (schedule : List Party) :
    ∃ f, (new n).run updates schedule = .ok f ∧
      (f.SameMessages ↔
        Lib.Runs.Along (MarketFeed.step updates) (CopiesInTime n) (new n) schedule) := by
  have hstep : ∀ (f : MarketFeed) (party : Party), (∃ k, Inv n k f) → True →
      ∃ f', f.step updates party = .ok f' ∧ ∃ k, Inv n k f' := by
    rintro f party ⟨k, h⟩ -
    obtain ⟨k', f', hf', h'⟩ := h.step updates party
    exact ⟨f', hf', k', h'⟩
  have hall : Lib.Runs.Along (step updates) (fun _ _ => True) (new n) schedule :=
    Lib.Runs.along_trivial
  obtain ⟨f, hrun, k, h⟩ := Lib.Runs.exists_ok hstep ⟨0, inv_new n⟩ hall
  refine ⟨f, hrun, ?_⟩
  rw [← (inv_new n).forwarded_iff hn List.nil_prefix hrun]
  exact and_iff_right h.socket_isPrefix

/-! ## A full queue -/

/-- The engine has written `i` updates, and neither party is in the middle of one. -/
structure Filled (n i : ℕ) (updates : ℕ → MEMarketUpdate) (f : MarketFeed) : Prop where
  inv : Inv n 0 f
  engine : f.engine = .test
  publisher : f.publisher = .getNextToRead
  written : f.written = (List.range i).map updates

theorem Filled.num_elements {i : ℕ} (h : Filled n i updates f) :
    f.outgoing_md_updates_.num_elements_ = i := by
  have hnum := h.inv.num_elements
  rw [h.engine, h.publisher, h.written] at hnum
  simpa [madeReads, owedWrites] using hnum

/-- One more update, which takes the engine four steps. -/
theorem Filled.round {i : ℕ} (h : Filled n i updates f) (hi : i < n) :
    ∃ f', f.run updates (List.replicate 4 .engine) = .ok f' ∧ Filled n (i + 1) updates f' := by
  have hsize : f.outgoing_md_updates_.size < f.outgoing_md_updates_.num_elems := by
    rw [h.inv.num_elems]
    exact lt_of_eq_of_lt h.num_elements hi
  have hlen : f.written.length = i := by simp [h.written]
  have hinv := (((h.inv.write (updates i)).write (updates i)).write (updates i)).write (updates i)
  simp only [write, h.engine, if_pos hsize] at hinv
  refine ⟨_, ?_, hinv, rfl, h.publisher, ?_⟩
  · simp [run, step, write, h.engine, if_pos hsize, hlen]
  · simp [h.written, List.range_succ]

/-- The engine fills the queue while the publisher waits. -/
theorem filled (n : ℕ) (updates : ℕ → MEMarketUpdate) :
    ∀ i ≤ n, ∃ f, (new n).run updates (List.replicate (i * 4) .engine) = .ok f ∧
      Filled n i updates f := by
  intro i
  induction i with
  | zero =>
    intro _
    exact ⟨new n, rfl, inv_new n, rfl, rfl, rfl⟩
  | succ i ih =>
    intro hi
    obtain ⟨f, hrun, hf⟩ := ih (Nat.le_of_succ_le hi)
    obtain ⟨f', hround, hf'⟩ := hf.round hi
    refine ⟨f', ?_, hf'⟩
    rw [Nat.succ_mul, ← List.replicate_append_replicate]
    exact Lib.Runs.foldlM_append_eq_ok.mpr ⟨f, hrun, hround⟩

/-- The engine fills the queue, the publisher sends the first update and gives its slot back, and
the engine writes the next update there before the publisher makes its copy. -/
def overtaken (n : ℕ) : List Party :=
  List.replicate (n * 4) .engine ++
    (List.replicate 6 .publisher ++ List.replicate 2 .engine ++ List.replicate 2 .publisher)

/-- The update copied is then the one written last. -/
theorem run_overtaken (hn : 0 < n) (updates : ℕ → MEMarketUpdate) :
    ∃ f, (new n).run updates (overtaken n) = .ok f ∧
      f.written[0]? = some (updates 0) ∧
      f.forwarded = [{ seq_num_ := 1, me_market_update_ := updates n }] := by
  obtain ⟨f, hrun, hf⟩ := filled n updates n le_rfl
  have hlen : f.written.length = n := by simp [hf.written]
  have hnum := hf.num_elements
  have helems := hf.inv.num_elems
  have hread : f.outgoing_md_updates_.next_read_index_ = 0 := by
    simpa [hf.publisher, madeReads] using hf.inv.read_index
  have hwrite : f.outgoing_md_updates_.next_write_index_ = 0 := by
    obtain ⟨i, hi, hwrite⟩ := hf.inv.write_index
    simp only [hf.engine, owedWrites, hlen] at hi
    rw [hwrite, show i = n from hi, Nat.mod_self]
  have hforwarded : f.forwarded = [] := by
    simpa [hf.publisher, madeCopies] using hf.inv.copies
  have hseq : f.next_inc_seq_num_ = 1 := hf.inv.seq_num
  -- the first update is sent and its slot given back
  have hsend : ∃ f₁, f.run updates (List.replicate 6 .publisher) = .ok f₁ ∧
      f₁.engine = .test ∧ f₁.publisher = .writeSeqNum 0 ∧
      f₁.outgoing_md_updates_.num_elements_ < f₁.outgoing_md_updates_.num_elems ∧
      f₁.outgoing_md_updates_.next_write_index_ = 0 ∧ f₁.next_inc_seq_num_ = 1 ∧
      f₁.written = f.written ∧ f₁.forwarded = [] := by
    simp [run, step, publish, hf.publisher, hf.engine, LFQueue.getNextToRead, LFQueue.size, hnum,
      hn.ne', hread, hseq, LFQueue.advanceReadIndex, LFQueue.countRead, helems, hforwarded, hn,
      hwrite]
  obtain ⟨f₁, hrun₁, hengine₁, hpublisher₁, hroom₁, hwrite₁, hseq₁, hwritten₁, hforwarded₁⟩ :=
    hsend
  -- the engine finds room and overwrites it
  have hstore : ∃ f₂, f₁.run updates (List.replicate 2 .engine) = .ok f₂ ∧
      f₂.publisher = .writeSeqNum 0 ∧ f₂.outgoing_md_updates_.store_ 0 = updates n ∧
      f₂.next_inc_seq_num_ = 1 ∧ f₂.written = f.written ++ [updates n] ∧ f₂.forwarded = [] := by
    simp [run, step, write, hengine₁, LFQueue.size, hroom₁, LFQueue.store, hwrite₁, hwritten₁,
      hlen, hpublisher₁, hseq₁, hforwarded₁]
  obtain ⟨f₂, hrun₂, hpublisher₂, hslot₂, hseq₂, hwritten₂, hforwarded₂⟩ := hstore
  have hcopy : ∃ f₃, f₂.run updates (List.replicate 2 .publisher) = .ok f₃ ∧
      f₃.written = f.written ++ [updates n] ∧
      f₃.forwarded = [{ seq_num_ := 1, me_market_update_ := updates n }] := by
    simp [run, step, publish, hpublisher₂, hslot₂, hseq₂, hwritten₂, hforwarded₂, next_write,
      LFQueue.store]
  obtain ⟨f₃, hrun₃, hwritten₃, hforwarded₃⟩ := hcopy
  refine ⟨f₃, Lib.Runs.foldlM_append_eq_ok.mpr ⟨f, hrun, Lib.Runs.foldlM_append_eq_ok.mpr
    ⟨f₂, Lib.Runs.foldlM_append_eq_ok.mpr ⟨f₁, hrun₁, hrun₂⟩, hrun₃⟩⟩, ?_, hforwarded₃⟩
  rw [hwritten₃, hf.written, List.getElem?_append_left (by simpa using hn)]
  simp [hn]

/-- **What the synthesizer gets is not what was sent**: at the real capacity, the first record
copied carries the update written 262144 updates later. -/
theorem not_sameMessages_overtaken :
    ∃ f, (new ME_MAX_MARKET_UPDATES).run (fun i => { type_ := .ADD, order_id_ := i + 1 })
        (overtaken ME_MAX_MARKET_UPDATES) = .ok f ∧ ¬ f.SameMessages := by
  obtain ⟨f, hrun, hwritten, hforwarded⟩ :=
    run_overtaken (show 0 < ME_MAX_MARKET_UPDATES by decide)
      (fun i => { type_ := .ADD, order_id_ := i + 1 })
  refine ⟨f, hrun, fun h => ?_⟩
  have hrecord := Channel.getElem?_of_isPrefix h.2 (k := 0) (by rw [hforwarded]; rfl)
  rw [getElem?_numbered, hwritten] at hrecord
  cases hrecord

/-- With two slots the publisher is not overtaken when it copies at once. -/
theorem sameMessages_iff_prompt :
    ∃ f, (new 2).run (fun i => { type_ := .ADD, order_id_ := i + 1 })
        (List.replicate 4 .engine ++ List.replicate 10 .publisher) = .ok f ∧
      (f.SameMessages ↔
        Lib.Runs.Along (MarketFeed.step fun i => { type_ := .ADD, order_id_ := i + 1 })
          (CopiesInTime 2) (new 2)
          (List.replicate 4 .engine ++ List.replicate 10 .publisher)) :=
  sameMessages_iff Nat.two_pos _ _

end MarketFeed

end TradingEcosystem
