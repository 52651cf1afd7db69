import Mathlib.Algebra.Order.BigOperators.Group.List
import TradingEcosystem.Exchange.Datagrams
import TradingEcosystem.Trading.MarketDataConsumer

/-!
# Market Data over Multicast

The two streams byte by byte: what the exchange hands to the network, datagrams that are lost,
repeated and reordered on the way, and the receive buffers of the consumer.

- `McastConsumer` : the consumer with its two sockets; the snapshot socket is only open in a recovery
- `McastConsumer.sendAndRecv_encode` : a datagram of whole records is a call of `recvCallback`
- `streams_read_back` : what goes out can be read back
- `multicast_delivers` : the consumer's run on the datagrams is its run on the records
-/

namespace TradingEcosystem

open McastSocket (encode length_encode encode_eq_nil whole_encode rest_encode Packed packed_refl)

/-! ## Records that can be read back -/

/-- The fields of the record fit their types. -/
def MDPMarketUpdate.OnWire (m : MDPMarketUpdate) : Prop :=
  m.seq_num_ < 2 ^ 64 ∧ m.me_market_update_.OnWire

theorem MDPMarketUpdate.OnWire.read {m : MDPMarketUpdate} (h : m.OnWire) :
    MDPMarketUpdate.ofBytes m.toBytes = m :=
  MDPMarketUpdate.ofBytes_toBytes h.1 h.2

/-- The updates that only mark something. -/
theorem onWire_marker (t : MarketUpdateType) {order_id ticker_id : ℕ} (hid : order_id < 2 ^ 64)
    (hticker : ticker_id < 2 ^ 32) :
    ({ type_ := t, order_id_ := order_id, ticker_id_ := ticker_id } : MEMarketUpdate).OnWire where
  order_id := hid
  ticker_id := hticker
  side := ⟨Nat.zero_lt_succ _, rfl⟩
  price := by
    show PriceOnWire Price_INVALID
    unfold PriceOnWire Price_INVALID
    omega
  qty := Nat.sub_one_lt (by decide)
  priority := Nat.sub_one_lt (by decide)

theorem onWire_numbered {first : ℕ} {us : List MEMarketUpdate} (hus : ∀ u ∈ us, u.OnWire)
    (hlen : first + us.length ≤ 2 ^ 64) : ∀ m ∈ numbered first us, m.OnWire := by
  intro m hm
  obtain ⟨i, hi⟩ := List.getElem?_of_mem hm
  rw [getElem?_numbered, Option.map_eq_some_iff] at hi
  obtain ⟨u, hu, rfl⟩ := hi
  have hlt : i < us.length := (List.getElem?_eq_some_iff.mp hu).1
  exact ⟨by show first + i < 2 ^ 64; omega, hus u (List.mem_of_getElem? hu)⟩

/-! ## The streams read back -/

/-- The records of a datagram. -/
def readDatagram (d : List UInt8) : List MDPMarketUpdate :=
  (Lib.Wire.whole MDPMarketUpdate.size d).map MDPMarketUpdate.ofBytes

theorem readDatagram_encode {ms : List MDPMarketUpdate} (hms : ∀ m ∈ ms, m.OnWire) :
    readDatagram (encode ms) = ms := by
  unfold readDatagram
  rw [whole_encode, List.map_map]
  exact (List.map_congr_left fun m hm => (hms m hm).read).trans (List.map_id ms)

/-- The records of datagrams one after the other; induction on the datagrams. -/
theorem flatMap_readDatagram_encode (parts : List (List MDPMarketUpdate))
    (hparts : ∀ m ∈ parts.flatten, m.OnWire) :
    (parts.map encode).flatMap readDatagram = parts.flatten := by
  induction parts with
  | nil => rfl
  | cons part parts ih =>
    rw [List.flatten_cons] at hparts ⊢
    rw [List.map_cons, List.flatMap_cons,
      readDatagram_encode fun m hm => hparts m (List.mem_append_left _ hm),
      ih fun m hm => hparts m (List.mem_append_right _ hm)]

/-! ## What the synthesizer stores -/

namespace SnapshotSynthesizer

variable {s s' : SnapshotSynthesizer} {u : MEMarketUpdate}

/-- What the pool holds came with the updates, and so did the number in the markers. -/
structure StoresWire (s : SnapshotSynthesizer) : Prop where
  last : s.last_inc_seq_num_ < 2 ^ 64
  pool : ∀ p, (s.order_pool_.get p).OnWire

theorem storesWire_new : StoresWire new where
  last := by
    show 0 < 2 ^ 64
    decide
  pool := fun _ => onWire_marker .INVALID (Nat.sub_one_lt (by decide)) (Nat.sub_one_lt (by decide))

theorem onWire_get_applyUpdate (h : ∀ p, (s.order_pool_.get p).OnWire) (hu : u.OnWire)
    (hrun : s.applyUpdate u = .ok s') :
    ∀ p, (s'.order_pool_.get p).OnWire := by
  unfold applyUpdate at hrun
  split at hrun
  · obtain ⟨entry, -, hrun⟩ := bind_eq_ok.mp hrun
    cases entry with
    | some _ => cases hrun
    | none =>
      obtain ⟨⟨order, pool⟩, halloc, heq⟩ := bind_eq_ok.mp hrun
      cases heq
      intro p
      show (pool.get p).OnWire
      rw [MemPool.get_allocate halloc]
      split
      · exact hu
      · exact h p
  · obtain ⟨order, -, heq⟩ := bind_eq_ok.mp hrun
    cases heq
    intro p
    rw [MemPool.get_modify]
    split
    · exact { h order with price := hu.price, qty := hu.qty }
    · exact h p
  · obtain ⟨order, -, hrun⟩ := bind_eq_ok.mp hrun
    obtain ⟨pool, hpool, heq⟩ := bind_eq_ok.mp hrun
    cases heq
    intro p
    show (pool.get p).OnWire
    rw [MemPool.get_deallocate hpool]
    exact h p
  all_goals
    cases hrun
    exact h

theorem storesWire_run {market_updates : List MDPMarketUpdate}
    (hwire : ∀ m ∈ market_updates, m.OnWire) (hrun : new.run market_updates = .ok s) :
    StoresWire s := by
  refine Lib.Runs.invariant (P := fun _ m => True ∧ m.OnWire) ?_ storesWire_new
    (Lib.Runs.along_trivial.and_forall hwire) hrun
  intro s m s' h hm hstep
  unfold addToSnapshot at hstep
  split at hstep
  · obtain ⟨s₁, hs₁, hstep⟩ := bind_eq_ok.mp hstep
    have hpool := onWire_get_applyUpdate h.pool hm.2.2 hs₁
    split at hstep
    · cases hstep
      exact ⟨hm.2.1, hpool⟩
    · cases hstep
  · cases hstep

/-- Every message of a cycle can be read back. -/
theorem StoresWire.publishSnapshot (h : StoresWire s) : ∀ m ∈ s.publishSnapshot, m.OnWire := by
  have hinvalid : TickerId_INVALID < 2 ^ 32 := by decide
  unfold SnapshotSynthesizer.publishSnapshot
  apply onWire_numbered
  · intro u hu
    rcases List.mem_cons.mp hu with rfl | hu
    · exact onWire_marker _ h.last hinvalid
    · rcases List.mem_append.mp hu with hu | hu
      · obtain ⟨t, ht, hu⟩ := List.mem_flatMap.mp hu
        have ht := List.mem_range.mp ht
        rw [tickerUpdates_eq_cons] at hu
        rcases List.mem_append.mp hu with hu | hu
        · rw [List.mem_singleton.mp hu]
          refine onWire_marker _ (by decide) ?_
          unfold ME_MAX_TICKERS at ht
          omega
        · obtain ⟨order_id, -, hu⟩ := List.mem_filterMap.mp hu
          obtain ⟨order, -, rfl⟩ := Option.map_eq_some_iff.mp hu
          exact h.pool order
      · rw [List.mem_singleton.mp hu]
        exact onWire_marker _ h.last hinvalid
  · -- at most all the orders of all the tickers
    have hticker : ∀ t, (s.tickerUpdates t).length ≤ 1 + ME_MAX_ORDER_IDS := by
      intro t
      rw [tickerUpdates_eq_cons, List.length_append]
      refine Nat.add_le_add_left ?_ 1
      exact (List.length_filterMap_le ..).trans (List.length_range ..).le
    have hall : ((List.range ME_MAX_TICKERS).flatMap s.tickerUpdates).length ≤
        ME_MAX_TICKERS * (1 + ME_MAX_ORDER_IDS) := by
      rw [List.length_flatMap]
      refine (List.sum_le_card_nsmul _ (1 + ME_MAX_ORDER_IDS) ?_).trans ?_
      · intro n hn
        obtain ⟨t, -, rfl⟩ := List.mem_map.mp hn
        exact hticker t
      · rw [List.length_map, List.length_range]
        exact le_rfl
    rw [List.length_cons, List.length_append, List.length_singleton]
    have hsize : 0 + (ME_MAX_TICKERS * (1 + ME_MAX_ORDER_IDS) + 1 + 1) ≤ 2 ^ 64 := by decide
    omega

/-- A cycle published after some of the updates. -/
theorem onWire_publishSnapshot {us : List MEMarketUpdate} {k : ℕ} (hwire : ∀ u ∈ us, u.OnWire)
    (hlen : us.length < 2 ^ 64) (hrun : new.run (numbered 1 (us.take k)) = .ok s) :
    ∀ m ∈ s.publishSnapshot, m.OnWire := by
  have hnumbered : ∀ m ∈ numbered 1 us, m.OnWire := onWire_numbered hwire (by omega)
  have hbefore : ∀ m ∈ numbered 1 (us.take k), m.OnWire := by
    intro m hm
    rw [numbered_take] at hm
    exact hnumbered m (List.mem_of_mem_take hm)
  exact (storesWire_run hbefore hrun).publishSnapshot

end SnapshotSynthesizer

/-- A datagram of the incremental stream: records one after the other, not more than a buffer
holds. -/
theorem MarketDataPublisher.mem_sent {rounds : List (List MEMarketUpdate)} {p : MarketDataPublisher}
    (hrun : ({} : MarketDataPublisher).run rounds = .ok p) {d : List UInt8}
    (hd : d ∈ p.incremental_socket_.sent) :
    ∃ batch, d = encode batch ∧ batch <:+: numbered 1 rounds.flatten ∧
      batch.length * MDPMarketUpdate.size ≤ McastBufferSize := by
  obtain ⟨hfits, hsent⟩ := MarketDataPublisher.datagrams_spec rounds
  obtain ⟨hsent, -, hall⟩ := hsent p hrun
  rw [hsent] at hd
  obtain ⟨batch, hbatch, rfl⟩ := List.mem_map.mp hd
  have hbatch := (List.mem_filter.mp hbatch).1
  refine ⟨batch, rfl, ?_, (MarketDataPublisher.fits_of_mem_batches (hfits.mp ⟨p, hrun⟩) hbatch).le⟩
  rw [← hall]
  exact List.infix_of_mem_flatten hbatch

/-- **Both streams can be read back.**  Whatever updates come, and in whatever turns the publisher
finds them: it gets through exactly when no turn fills its send buffer, and then the records of its
datagrams are the updates numbered from one, no datagram mixing two turns or ending inside a record;
and a snapshot cycle of any moment goes out complete, in datagrams of at most ten records. -/
theorem streams_read_back {rounds : List (List MEMarketUpdate)}
    (hwire : ∀ u ∈ rounds.flatten, u.OnWire) (hlen : rounds.flatten.length < 2 ^ 64) :
    ((∃ p, ({} : MarketDataPublisher).run rounds = .ok p) ↔
        ∀ us ∈ rounds, MarketDataPublisher.FitsBuffer us) ∧
      (∀ p, ({} : MarketDataPublisher).run rounds = .ok p →
        p.incremental_socket_.sent.flatMap readDatagram = numbered 1 rounds.flatten ∧
        ∀ d ∈ p.incremental_socket_.sent, Lib.Wire.rest MDPMarketUpdate.size d = [] ∧
          (readDatagram d).map (·.me_market_update_) ∈ rounds) ∧
      ∀ k s, SnapshotSynthesizer.new.run (numbered 1 (rounds.flatten.take k)) = .ok s →
        ∃ socket, s.sendSnapshot {} = .ok socket ∧
          socket.sent.flatMap readDatagram = s.publishSnapshot ∧
          ∀ d ∈ socket.sent, Lib.Wire.rest MDPMarketUpdate.size d = [] ∧
            (readDatagram d).length ≤ ME_MAX_TICKERS + 2 := by
  have hnumbered : ∀ m ∈ numbered 1 rounds.flatten, m.OnWire :=
    onWire_numbered hwire (by omega)
  obtain ⟨hrun, hsent⟩ := MarketDataPublisher.datagrams_spec rounds
  refine ⟨hrun, fun p hp => ?_, fun k s hs => ?_⟩
  · obtain ⟨hsent, -, hall⟩ := hsent p hp
    have hnonempty : ((MarketDataPublisher.batches 1 rounds).filter fun b => !b.isEmpty).flatten =
        numbered 1 rounds.flatten :=
      List.flatten_filter_not_isEmpty.trans hall
    refine ⟨?_, fun d hd => ?_⟩
    · rw [hsent, flatMap_readDatagram_encode _ (by rwa [hnonempty]), hnonempty]
    · rw [hsent] at hd
      obtain ⟨batch, hbatch, rfl⟩ := List.mem_map.mp hd
      have hmem := (List.mem_filter.mp hbatch).1
      refine ⟨rest_encode batch, ?_⟩
      rw [readDatagram_encode fun m hm => hnumbered m (by
        rw [← hall]
        exact List.mem_flatten_of_mem hmem hm)]
      exact MarketDataPublisher.updates_of_mem_batches hmem
  · have hcycle := SnapshotSynthesizer.onWire_publishSnapshot hwire hlen hs
    obtain ⟨socket, hsend, -, parts, hsent, hall, hparts⟩ :=
      @SnapshotSynthesizer.sendSnapshot_spec {} s rfl
    rw [List.nil_append] at hsent
    refine ⟨socket, hsend, ?_, fun d hd => ?_⟩
    · rw [hsent, flatMap_readDatagram_encode parts (by rwa [hall]), hall]
    · rw [hsent] at hd
      obtain ⟨part, hpart, rfl⟩ := List.mem_map.mp hd
      refine ⟨rest_encode part, ?_⟩
      rw [readDatagram_encode fun m hm => hcycle m (by
        rw [← hall]
        exact List.mem_flatten_of_mem hpart hm)]
      exact (hparts part hpart).2

/-- An order of the first client on the first ticker. -/
def addedOrder : MEMarketUpdate :=
  { type_ := .ADD, order_id_ := 1, ticker_id_ := 0, side_ := .BUY, price_ := 100, qty_ := 10,
    priority_ := 1 }

theorem onWire_addedOrder : addedOrder.OnWire where
  order_id := by decide
  ticker_id := by decide
  side := ⟨by decide, rfl⟩
  price := ⟨by decide, by decide⟩
  qty := by decide
  priority := by decide

theorem streams_read_back_addedOrder : ∃ p,
    ({} : MarketDataPublisher).run [[addedOrder], [], [addedOrder]] = .ok p ∧
      p.incremental_socket_.sent.flatMap readDatagram = [⟨1, addedOrder⟩, ⟨2, addedOrder⟩] := by
  have hwire : ∀ u ∈ [[addedOrder], [], [addedOrder]].flatten, u.OnWire := by
    intro u hu
    have hu : u ∈ [addedOrder, addedOrder] := hu
    obtain rfl : u = addedOrder := by simpa using hu
    exact onWire_addedOrder
  obtain ⟨hrun, hsent, -⟩ := streams_read_back hwire (by decide)
  obtain ⟨p, hp⟩ := hrun.mpr (by decide)
  exact ⟨p, hp, (hsent p hp).1⟩

/-! ## The consumer with its sockets -/

structure McastConsumer where
  consumer : MarketDataConsumer := .new
  incremental_mcast_socket_ : McastSocket := {}
  snapshot_mcast_socket_ : McastSocket := {}
  /-- The snapshot socket has a descriptor. -/
  joined : Bool := false

namespace McastConsumer

def socket (s : McastConsumer) (is_snapshot : Bool) : McastSocket :=
  if is_snapshot then s.snapshot_mcast_socket_ else s.incremental_mcast_socket_

def setSocket (s : McastConsumer) (is_snapshot : Bool) (socket : McastSocket) : McastConsumer :=
  if is_snapshot then { s with snapshot_mcast_socket_ := socket }
  else { s with incremental_mcast_socket_ := socket }

/-- The body of the loop of `recvCallback`, with what it does to the snapshot socket: the start of a
recovery opens it, and the end of one closes it. -/
def onMessage (is_snapshot : Bool) (s : McastConsumer) (request : MDPMarketUpdate) : McastConsumer :=
  let entering := !s.consumer.in_recovery_ &&
    decide (request.seq_num_ ≠ s.consumer.next_exp_inc_seq_num_)
  let consumer := s.consumer.onMessage is_snapshot request
  { s with
    consumer := consumer
    joined :=
      if (s.consumer.in_recovery_ || entering) && !consumer.in_recovery_ then false
      else s.joined || entering }

/-- Read the records from the receive buffer of a socket; what is left of it is moved to the
front. -/
def recvCallback (s : McastConsumer) (is_snapshot : Bool) : McastConsumer :=
  let inbound := (s.socket is_snapshot).inbound_data_
  if is_snapshot && !s.consumer.in_recovery_ then
    s.setSocket is_snapshot { s.socket is_snapshot with inbound_data_ := [] }
  else if inbound.length ≥ MDPMarketUpdate.size then
    let s := ((Lib.Wire.whole MDPMarketUpdate.size inbound).map MDPMarketUpdate.ofBytes).foldl
      (onMessage is_snapshot) s
    s.setSocket is_snapshot
      { s.socket is_snapshot with inbound_data_ := Lib.Wire.rest MDPMarketUpdate.size inbound }
  else
    s

/-- `sendAndRecv` of one of the sockets finds a datagram.  Nothing is read without a descriptor. -/
def sendAndRecv (s : McastConsumer) (is_snapshot : Bool) (datagram : List UInt8) : McastConsumer :=
  if is_snapshot && !s.joined then s
  else
    let read := datagram.take (McastBufferSize - (s.socket is_snapshot).inbound_data_.length)
    if read.length > 0 then
      (s.setSocket is_snapshot ((s.socket is_snapshot).recv datagram)).recvCallback is_snapshot
    else s

/-- The datagrams found in the turns of `run`, each with the socket. -/
def run (s : McastConsumer) (reads : List (Bool × List UInt8)) : McastConsumer :=
  reads.foldl (fun s r => s.sendAndRecv r.1 r.2) s

/-- No byte is left in the receive buffers, and the snapshot socket is open in a recovery. -/
structure Idle (s : McastConsumer) : Prop where
  inbound : ∀ is_snapshot, (s.socket is_snapshot).inbound_data_ = []
  joined : s.joined = s.consumer.in_recovery_

variable {s : McastConsumer} {is_snapshot : Bool} {ms : List MDPMarketUpdate}

theorem idle_new : Idle {} where
  inbound := fun is_snapshot => by cases is_snapshot <;> rfl
  joined := rfl

@[simp] theorem socket_setSocket (s : McastConsumer) (is_snapshot : Bool) (socket : McastSocket) :
    (s.setSocket is_snapshot socket).socket is_snapshot = socket := by
  cases is_snapshot <;> rfl

theorem socket_setSocket_of_ne {is_snapshot' : Bool} (h : is_snapshot' ≠ is_snapshot)
    (socket : McastSocket) : (s.setSocket is_snapshot socket).socket is_snapshot' =
      s.socket is_snapshot' := by
  cases is_snapshot <;> cases is_snapshot' <;> first | rfl | exact absurd rfl h

@[simp] theorem consumer_setSocket (s : McastConsumer) (is_snapshot : Bool) (socket : McastSocket) :
    (s.setSocket is_snapshot socket).consumer = s.consumer := by
  cases is_snapshot <;> rfl

@[simp] theorem joined_setSocket (s : McastConsumer) (is_snapshot : Bool) (socket : McastSocket) :
    (s.setSocket is_snapshot socket).joined = s.joined := by
  cases is_snapshot <;> rfl

/-! ## A datagram -/

/-- A message that starts no recovery leaves the consumer out of it. -/
theorem in_recovery_onMessage {c : MarketDataConsumer} {request : MDPMarketUpdate}
    (hrec : c.in_recovery_ = false) (hseq : request.seq_num_ = c.next_exp_inc_seq_num_) :
    (c.onMessage is_snapshot request).in_recovery_ = false := by
  unfold MarketDataConsumer.onMessage
  rw [if_neg (by simp [hrec]), if_neg (not_not.mpr hseq)]
  split
  · exact hrec
  · exact hrec

/-- **The snapshot socket is open in a recovery**, after every message. -/
theorem joined_onMessage (h : s.joined = s.consumer.in_recovery_) (request : MDPMarketUpdate) :
    (onMessage is_snapshot s request).joined =
      (onMessage is_snapshot s request).consumer.in_recovery_ := by
  simp only [onMessage, h]
  cases hrec : s.consumer.in_recovery_ with
  | true =>
    cases (s.consumer.onMessage is_snapshot request).in_recovery_ with
    | true => simp
    | false => simp
  | false =>
    by_cases hseq : request.seq_num_ = s.consumer.next_exp_inc_seq_num_
    · simp [hseq, in_recovery_onMessage hrec hseq]
    · cases (s.consumer.onMessage is_snapshot request).in_recovery_ with
      | true => simp [hseq]
      | false => simp [hseq]

/-- The messages of a datagram; induction on them. -/
theorem foldl_onMessage (is_snapshot : Bool) (ms : List MDPMarketUpdate) :
    ∀ {s : McastConsumer}, s.joined = s.consumer.in_recovery_ →
      (ms.foldl (onMessage is_snapshot) s).consumer =
        ms.foldl (MarketDataConsumer.onMessage is_snapshot) s.consumer ∧
      (ms.foldl (onMessage is_snapshot) s).joined =
        (ms.foldl (onMessage is_snapshot) s).consumer.in_recovery_ ∧
      ∀ is_snapshot', (ms.foldl (onMessage is_snapshot) s).socket is_snapshot' =
        s.socket is_snapshot' := by
  induction ms with
  | nil =>
    intro s h
    exact ⟨rfl, h, fun _ => rfl⟩
  | cons m ms ih =>
    intro s h
    exact ih (joined_onMessage h m)

/-- **A datagram of whole records is one call of `recvCallback`** of the consumer, and nothing of it
stays in the buffer. -/
theorem sendAndRecv_encode (is_snapshot : Bool) (h : s.Idle) (hms : ∀ m ∈ ms, m.OnWire)
    (hsize : ms.length * MDPMarketUpdate.size ≤ McastBufferSize) :
    (s.sendAndRecv is_snapshot (encode ms)).consumer =
        s.consumer.recvCallback ⟨is_snapshot, ms⟩ ∧
      (s.sendAndRecv is_snapshot (encode ms)).Idle := by
  unfold sendAndRecv
  split
  · next hclosed =>
    -- no descriptor: the consumer is not in a recovery, and would discard the messages
    rw [Bool.and_eq_true, Bool.not_eq_true', h.joined] at hclosed
    rw [hclosed.1, MarketDataConsumer.recvCallback_discard hclosed.2]
    exact ⟨rfl, h⟩
  · next hopen =>
    have hread : (encode ms).take (McastBufferSize - (s.socket is_snapshot).inbound_data_.length) =
        encode ms := by
      apply List.take_of_length_le
      rw [h.inbound, length_encode]
      exact hsize
    simp only [hread]
    split
    swap
    · next hnone =>
      have hnil : ms = [] :=
        encode_eq_nil.mp (List.length_eq_zero_iff.mp (Nat.eq_zero_of_not_pos hnone))
      rw [hnil]
      exact ⟨(MarketDataConsumer.recvCallback_nil ..).symm, h⟩
    · next hsome =>
      have hinbound : ((s.socket is_snapshot).recv (encode ms)).inbound_data_ = encode ms := by
        unfold McastSocket.recv
        rw [hread, h.inbound, List.nil_append]
      have hdiscard : (is_snapshot && !s.consumer.in_recovery_) = false := by
        rw [← h.joined]
        exact Bool.eq_false_iff.mpr hopen
      have hlong : (encode ms).length ≥ MDPMarketUpdate.size := by
        rw [length_encode] at hsome ⊢
        exact Nat.le_mul_of_pos_left _ (Nat.pos_of_mul_pos_right hsome)
      have hrecords : (Lib.Wire.whole MDPMarketUpdate.size (encode ms)).map
          MDPMarketUpdate.ofBytes = ms := by
        rw [whole_encode, List.map_map]
        exact (List.map_congr_left fun m hm => (hms m hm).read).trans (List.map_id ms)
      unfold recvCallback MarketDataConsumer.recvCallback
      simp only [socket_setSocket, consumer_setSocket, hinbound, hdiscard, Bool.false_eq_true,
        if_false, if_pos hlong, hrecords, rest_encode]
      set s₁ := s.setSocket is_snapshot ((s.socket is_snapshot).recv (encode ms)) with hs₁
      have hjoined : s₁.joined = s₁.consumer.in_recovery_ := by
        rw [hs₁, joined_setSocket, consumer_setSocket]
        exact h.joined
      obtain ⟨hconsumer, hjoined', hsockets⟩ := foldl_onMessage is_snapshot ms hjoined
      rw [hs₁, consumer_setSocket, ← hs₁] at hconsumer
      refine ⟨hconsumer, fun is_snapshot' => ?_, by rw [joined_setSocket, consumer_setSocket, hjoined']⟩
      by_cases hs : is_snapshot' = is_snapshot
      · subst hs
        rw [socket_setSocket]
      · rw [socket_setSocket_of_ne hs, hsockets, hs₁, socket_setSocket_of_ne hs]
        exact h.inbound is_snapshot'

/-- A run on datagrams of whole records. -/
theorem run_encode (cbs : List (Callback MDPMarketUpdate))
    (hcbs : ∀ cb ∈ cbs, (∀ m ∈ cb.messages, m.OnWire) ∧
      cb.messages.length * MDPMarketUpdate.size ≤ McastBufferSize) :
    ∀ {s : McastConsumer}, s.Idle →
      (s.run (cbs.map fun cb => (cb.is_snapshot, encode cb.messages))).consumer =
          s.consumer.run cbs ∧
        (s.run (cbs.map fun cb => (cb.is_snapshot, encode cb.messages))).Idle := by
  induction cbs with
  | nil =>
    intro s h
    exact ⟨rfl, h⟩
  | cons cb cbs ih =>
    intro s h
    obtain ⟨⟨hwire, hsize⟩, hrest⟩ := List.forall_mem_cons.mp hcbs
    obtain ⟨hconsumer, hidle⟩ := sendAndRecv_encode cb.is_snapshot h hwire hsize
    obtain ⟨hrun, hidle'⟩ := ih hrest hidle
    rw [hconsumer] at hrun
    exact ⟨hrun, hidle'⟩

end McastConsumer

/-! ## From the exchange to the consumer -/

/-- The snapshot cycles of the exchange, one after the other on one socket. -/
def sendSnapshots (socket : McastSocket) (cycles : List SnapshotSynthesizer) :
    Except Fault McastSocket :=
  cycles.foldlM (fun socket s => s.sendSnapshot socket) socket

/-- Every datagram of the snapshot stream holds a part of one cycle. -/
theorem sendSnapshots_spec (cycles : List SnapshotSynthesizer) :
    ∀ {socket : McastSocket}, socket.outbound_data_ = [] →
      ∃ socket', sendSnapshots socket cycles = .ok socket' ∧ socket'.outbound_data_ = [] ∧
        ∀ d ∈ socket'.sent, d ∈ socket.sent ∨ ∃ s ∈ cycles, ∃ part : List MDPMarketUpdate,
          d = encode part ∧ part <:+: s.publishSnapshot ∧ part.length ≤ ME_MAX_TICKERS + 2 := by
  induction cycles with
  | nil =>
    intro socket h
    exact ⟨socket, rfl, h, fun d hd => .inl hd⟩
  | cons s cycles ih =>
    intro socket h
    obtain ⟨socket₁, hsend, hout, parts, hsent, hall, hparts⟩ := s.sendSnapshot_spec h
    obtain ⟨socket', hrun, hout', hrest⟩ := ih hout
    refine ⟨socket', Lib.Runs.foldlM_cons_eq_ok.mpr ⟨socket₁, hsend, hrun⟩, hout', fun d hd => ?_⟩
    rcases hrest d hd with hd | ⟨s', hs', hpart⟩
    · rw [hsent] at hd
      rcases List.mem_append.mp hd with hd | hd
      · exact .inl hd
      · obtain ⟨part, hpart, rfl⟩ := List.mem_map.mp hd
        refine .inr ⟨s, List.mem_cons_self .., part, rfl, ?_, (hparts part hpart).2⟩
        rw [← hall]
        exact List.infix_of_mem_flatten hpart
    · exact .inr ⟨s', List.mem_cons_of_mem _ hs', hpart⟩

/-- What a datagram of one of the streams brings: records that the exchange published one after the
other, unaltered. -/
def Brings (us : List MEMarketUpdate) (cycles : List SnapshotSynthesizer)
    (r : Bool × List UInt8) (cb : Callback MDPMarketUpdate) : Prop :=
  cb.is_snapshot = r.1 ∧ r.2 = encode cb.messages ∧
    if r.1 then ∃ s ∈ cycles, cb.messages <:+: s.publishSnapshot
    else cb.messages <:+: numbered 1 us

/-- **What arrives is what was published.**  The publisher sends its updates in whatever turns, the
synthesizer publishes its cycles, and the network loses, repeats and reorders the datagrams: the
consumer does with the bytes it reads what it would do with the records, each datagram being records
published one after the other; no byte stays in a receive buffer, and the snapshot socket is open
exactly in a recovery. -/
theorem multicast_delivers {rounds : List (List MEMarketUpdate)} {p : MarketDataPublisher}
    {cycles : List SnapshotSynthesizer} {snapshot_socket : McastSocket}
    {reads : List (Bool × List UInt8)}
    (hwire : ∀ u ∈ rounds.flatten, u.OnWire) (hlen : rounds.flatten.length < 2 ^ 64)
    (hpublisher : ({} : MarketDataPublisher).run rounds = .ok p)
    (hcycles : ∀ s ∈ cycles, ∃ k,
      SnapshotSynthesizer.new.run (numbered 1 (rounds.flatten.take k)) = .ok s)
    (hsnapshots : sendSnapshots {} cycles = .ok snapshot_socket)
    (hreads : ∀ r ∈ reads,
      r.2 ∈ if r.1 then snapshot_socket.sent else p.incremental_socket_.sent) :
    ∃ cbs, List.Forall₂ (Brings rounds.flatten cycles) reads cbs ∧
      (({} : McastConsumer).run reads).consumer = MarketDataConsumer.new.run cbs ∧
      (({} : McastConsumer).run reads).Idle := by
  have hnumbered : ∀ m ∈ numbered 1 rounds.flatten, m.OnWire :=
    onWire_numbered hwire (by omega)
  -- each datagram on its own
  have hone : ∀ r ∈ reads, ∃ cb, Brings rounds.flatten cycles r cb ∧
      (∀ m ∈ cb.messages, m.OnWire) ∧
      cb.messages.length * MDPMarketUpdate.size ≤ McastBufferSize := by
    intro r hr
    have hmem := hreads r hr
    obtain ⟨is_snapshot, d⟩ := r
    cases is_snapshot with
    | false =>
      rw [if_neg Bool.false_ne_true] at hmem
      obtain ⟨batch, rfl, hpart, hsize⟩ := MarketDataPublisher.mem_sent hpublisher hmem
      exact ⟨⟨false, batch⟩, ⟨rfl, rfl, hpart⟩, fun m hm => hnumbered m (hpart.subset hm), hsize⟩
    | true =>
      obtain ⟨socket', hrun, -, hparts⟩ := @sendSnapshots_spec cycles {} rfl
      rw [hsnapshots] at hrun
      cases hrun
      rw [if_pos rfl] at hmem
      rcases hparts d hmem with hnone | ⟨s, hs, part, rfl, hpart, hshort⟩
      · cases hnone
      · obtain ⟨k, hs'⟩ := hcycles s hs
        have hcycle := SnapshotSynthesizer.onWire_publishSnapshot hwire hlen hs'
        refine ⟨⟨true, part⟩, ⟨rfl, rfl, s, hs, hpart⟩,
          fun m hm => hcycle m (hpart.subset hm), ?_⟩
        refine (Nat.mul_le_mul_right _ hshort).trans ?_
        decide
  obtain ⟨cbs, hcbs⟩ : ∃ cbs, List.Forall₂ (fun r cb => Brings rounds.flatten cycles r cb ∧
      (∀ m ∈ cb.messages, m.OnWire) ∧
      cb.messages.length * MDPMarketUpdate.size ≤ McastBufferSize) reads cbs := by
    clear hreads
    induction reads with
    | nil => exact ⟨[], .nil⟩
    | cons r reads ih =>
      obtain ⟨⟨cb, hcb⟩, hrest⟩ := List.forall_mem_cons.mp hone
      obtain ⟨cbs, hcbs⟩ := ih hrest
      exact ⟨cb :: cbs, .cons hcb hcbs⟩
  have hreads_eq : reads = cbs.map fun cb => (cb.is_snapshot, encode cb.messages) := by
    clear hreads hone
    induction hcbs with
    | nil => rfl
    | cons hcb _ ih =>
      rw [List.map_cons, ← ih, hcb.1.1, ← hcb.1.2.1]
  have hall : ∀ cb ∈ cbs, (∀ m ∈ cb.messages, m.OnWire) ∧
      cb.messages.length * MDPMarketUpdate.size ≤ McastBufferSize := by
    clear hreads hone hreads_eq
    induction hcbs with
    | nil => exact fun cb hcb => by cases hcb
    | cons hcb _ ih => exact List.forall_mem_cons.mpr ⟨hcb.2, ih⟩
  have hrun := McastConsumer.run_encode cbs hall McastConsumer.idle_new
  rw [← hreads_eq] at hrun
  exact ⟨cbs, hcbs.imp fun _ _ h => h.1, hrun.1, hrun.2⟩

/-- The first datagram twice, and then all of a cycle. -/
theorem multicast_delivers_repeated : ∃ p snapshot_socket cbs,
    ({} : MarketDataPublisher).run [[addedOrder], []] = .ok p ∧
      sendSnapshots {} [SnapshotSynthesizer.new] = .ok snapshot_socket ∧
      let reads := [(false, encode [⟨1, addedOrder⟩]), (false, encode [⟨1, addedOrder⟩])] ++
        snapshot_socket.sent.map fun d => (true, d)
      List.Forall₂ (Brings [addedOrder] [SnapshotSynthesizer.new]) reads cbs ∧
        (({} : McastConsumer).run reads).consumer = MarketDataConsumer.new.run cbs ∧
        (({} : McastConsumer).run reads).Idle := by
  obtain ⟨hrun, hsent⟩ := MarketDataPublisher.datagrams_spec [[addedOrder], []]
  obtain ⟨p, hpublisher⟩ := hrun.mpr (by decide)
  obtain ⟨hsent, -⟩ := hsent p hpublisher
  obtain ⟨snapshot_socket, hsnapshots, -⟩ := @sendSnapshots_spec [SnapshotSynthesizer.new] {} rfl
  have hd : encode [⟨1, addedOrder⟩] ∈ p.incremental_socket_.sent := by
    rw [hsent]
    exact List.mem_cons_self ..
  have hreads : ∀ r ∈ [(false, encode [⟨1, addedOrder⟩]), (false, encode [⟨1, addedOrder⟩])] ++
      snapshot_socket.sent.map fun d => (true, d),
      r.2 ∈ if r.1 then snapshot_socket.sent else p.incremental_socket_.sent := by
    intro r hr
    rcases List.mem_append.mp hr with hr | hr
    · rcases List.mem_cons.mp hr with rfl | hr
      · exact hd
      · rw [List.mem_singleton.mp hr]
        exact hd
    · obtain ⟨d, hd, rfl⟩ := List.mem_map.mp hr
      exact hd
  have hwire : ∀ u ∈ [[addedOrder], []].flatten, u.OnWire := by
    intro u hu
    rw [List.mem_singleton.mp hu]
    exact onWire_addedOrder
  obtain ⟨cbs, hcbs⟩ := multicast_delivers hwire (by decide) hpublisher
    (fun s hs => ⟨0, by rw [List.mem_singleton.mp hs]; rfl⟩) hsnapshots hreads
  exact ⟨p, snapshot_socket, cbs, hpublisher, hsnapshots, hcbs⟩

end TradingEcosystem
