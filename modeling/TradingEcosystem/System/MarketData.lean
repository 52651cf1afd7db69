import TradingEcosystem.System.Multicast
import TradingEcosystem.System.Subscriber

/-!
# Market Data from End to End

From the requests of the matching engine to the books of a trade engine, byte by byte: the engine's
updates go out on two multicast streams, datagrams get lost, repeated and reordered, and a trade
engine takes what its consumer makes of them.

- `MatchingEngine.onWire_run` : all updates of the engine fit the fields of a record
- `Unmixed` : the datagrams of a snapshot cycle come behind its first one
- `books_follow_datagrams` : out of recovery the books are those of the exchange
-/

namespace TradingEcosystem

open MEOrderBook (Call)

/-! ## Updates on the wire -/

theorem Side.IsTrading.onWire {s : Side} (hs : s.IsTrading) : s.OnWire := by
  rcases hs with rfl | rfl
  · exact ⟨by decide, rfl⟩
  · exact ⟨by decide, rfl⟩

namespace MEOrderBook.Call

/-- The price fits its type. -/
def PricesOnWire : Call → Prop
  | .add _ _ _ price _ => PriceOnWire price
  | .cancel _ _ => True

end MEOrderBook.Call

namespace PriorityBook

variable {P : PriorityBook} {ticker_id : ℕ}

/-- What resting orders must be for their updates to fit: a priority counts accepted orders. -/
structure OnWire (P : PriorityBook) : Prop where
  next_id : 0 < P.next_id ∧ P.next_id ≤ 2 ^ 32
  price : ∀ x ∈ P.orders, PriceOnWire x.price_
  priority : ∀ x ∈ P.orders, x.priority_ < P.next_id

theorem onWire_empty : empty.OnWire where
  next_id := by decide
  price := fun x hx => by cases hx
  priority := fun x hx => by cases hx

theorem OnWire.nextPriority_le (h : P.OnWire) {s : Side} (hs : s.IsTrading) (price : ℤ) :
    P.nextPriority s price ≤ P.next_id := by
  unfold nextPriority
  cases hlast : ((P.side s).filter fun o => decide (o.price_ = price)).getLast? with
  | none => exact h.next_id.1
  | some o =>
    have ho : o ∈ P.side s := (List.mem_filter.mp (List.mem_of_getLast? hlast)).1
    exact h.priority o (mem_orders.mpr ⟨s, hs, ho⟩)

/-- The updates about a resting order that trades. -/
theorem onWire_fillEvents (hticker : ticker_id < 2 ^ 32) {t m : MEOrderInfo}
    (ht : t.side_.IsTrading) (hm : m.side_.IsTrading) (hid : m.market_order_id_ < 2 ^ 64)
    (hprice : PriceOnWire m.price_) (hqty : m.qty_ < 2 ^ 32) (hpriority : m.priority_ < 2 ^ 64)
    {fill : ℕ} (hfill : fill ≤ m.qty_) (leaves : ℕ) :
    ∀ u ∈ marketUpdates (fillEvents ticker_id t m fill leaves), u.OnWire := by
  have hinvalid : OrderId_INVALID < 2 ^ 64 ∧ Priority_INVALID < 2 ^ 64 := ⟨by decide, by decide⟩
  intro u hu
  have hupdates : ∃ trade last, marketUpdates (fillEvents ticker_id t m fill leaves) =
      [trade, last] ∧ trade.OnWire ∧ last.OnWire := by
    refine ⟨_, _, rfl, ⟨hinvalid.1, hticker, ht.onWire, hprice, ?_, hinvalid.2⟩, ?_⟩
    · exact hfill.trans_lt hqty
    · split
      · exact ⟨hid, hticker, hm.onWire, hprice, hqty, hinvalid.2⟩
      · exact ⟨hid, hticker, hm.onWire, hprice, (Nat.sub_le ..).trans_lt hqty, hpriority⟩
  obtain ⟨trade, last, heq, htrade, hlast⟩ := hupdates
  rw [heq, List.mem_pair] at hu
  rcases hu with rfl | rfl
  · exact htrade
  · exact hlast

/-- The updates of a match; induction on the makers. -/
theorem onWire_sweep (hticker : ticker_id < 2 ^ 32) {t : MEOrderInfo} (ht : t.side_.IsTrading)
    {makers : List MEOrderInfo} :
    (∀ m ∈ makers, m.side_.IsTrading ∧ m.market_order_id_ < 2 ^ 64 ∧ PriceOnWire m.price_ ∧
      m.qty_ < 2 ^ 32 ∧ m.priority_ < 2 ^ 64) →
    ∀ leaves, ∀ u ∈ marketUpdates (sweep ticker_id t makers leaves).2.2, u.OnWire := by
  induction makers with
  | nil =>
    intro _ leaves u hu
    cases hu
  | cons m makers ih =>
    intro h leaves
    obtain ⟨⟨hm, hid, hprice, hqty, hpriority⟩, hrest⟩ := List.forall_mem_cons.mp h
    have hfill := onWire_fillEvents hticker ht hm hid hprice hqty hpriority
      (Nat.min_le_right leaves m.qty_) (leaves - min leaves m.qty_)
    simp only [sweep]
    split
    · intro u hu
      cases hu
    · split
      · intro u hu
        rw [marketUpdates_append] at hu
        exact (List.mem_append.mp hu).elim (hfill u) (ih hrest _ u)
      · exact hfill

/-- **The updates of a call fit**, and those of the next call will. -/
theorem OnWire.step (h : P.OnWire) (hwf : P.WF) (hticker : ticker_id < 2 ^ 32) {c : Call}
    (hadm : P.Admits c) (hprice : c.PricesOnWire) :
    (P.step ticker_id c).1.OnWire ∧ ∀ u ∈ marketUpdates (P.step ticker_id c).2, u.OnWire := by
  have hbound : P.next_id < 2 ^ 64 := h.next_id.2.trans_lt (by decide)
  cases c with
  | add client_id client_order_id s price qty =>
    obtain ⟨hs, -, -, hqty, hnext, -, -⟩ := hadm
    have hpriority := h.nextPriority_le hs price
    have hmakers : ∀ m ∈ P.side s.opposite, m.side_.IsTrading ∧ m.market_order_id_ < 2 ^ 64 ∧
        PriceOnWire m.price_ ∧ m.qty_ < 2 ^ 32 ∧ m.priority_ < 2 ^ 64 := by
      intro m hm
      have ho : m ∈ P.orders := mem_orders.mpr ⟨_, hs.opposite, hm⟩
      refine ⟨?_, (hwf.ids m ho).trans hbound, h.price m ho, (hwf.qty m ho).2,
        (h.priority m ho).trans hbound⟩
      rw [hwf.side _ hs.opposite m hm]
      exact hs.opposite
    constructor
    · obtain ⟨hopp, hid, hown⟩ := P.side_add ticker_id client_id client_order_id price qty hs
      -- an order of the new book rested before, or is the new one
      have hall : ∀ x ∈ (P.add ticker_id client_id client_order_id s price qty).1.orders,
          PriceOnWire x.price_ ∧ x.priority_ ≤ P.next_id := by
        intro x hx
        rw [(orders_perm _ hs).mem_iff, hopp, hown] at hx
        rcases List.mem_append.mp hx with hx | hx
        · split at hx
          · have hx := mem_orders.mpr ⟨s, hs, hx⟩
            exact ⟨h.price x hx, (h.priority x hx).le⟩
          · rcases (List.mem_orderedInsert _).mp hx with rfl | hx
            · exact ⟨hprice, hpriority⟩
            · have hx := mem_orders.mpr ⟨s, hs, hx⟩
              exact ⟨h.price x hx, (h.priority x hx).le⟩
        · refine forall_sweep (p := fun x => PriceOnWire x.price_ ∧ x.priority_ ≤ P.next_id)
            (fun _ => Iff.rfl) (fun m hm => ?_) x hx
          have ho : m ∈ P.orders := mem_orders.mpr ⟨_, hs.opposite, hm⟩
          exact ⟨h.price m ho, (h.priority m ho).le⟩
      refine ⟨?_, fun x hx => (hall x hx).1, fun x hx => ?_⟩
      · rw [PriorityBook.step, hid]
        exact ⟨Nat.succ_pos _, hnext⟩
      · rw [PriorityBook.step, hid]
        exact Nat.lt_succ_of_le (hall x hx).2
    · intro u hu
      unfold PriorityBook.step at hu
      rw [marketUpdates_add] at hu
      rcases List.mem_append.mp hu with hu | hu
      · exact onWire_sweep hticker hs hmakers qty u hu
      · split at hu
        · cases hu
        · rw [List.mem_singleton.mp hu]
          exact ⟨hbound, hticker, hs.onWire, hprice, (sweep_leaves_le ..).trans_lt hqty,
            hpriority.trans_lt hbound⟩
  | cancel client_id order_id =>
    have hcancel : P.step ticker_id (.cancel client_id order_id) =
        P.cancel ticker_id client_id order_id := rfl
    rw [hcancel]
    unfold PriorityBook.cancel
    split
    · refine ⟨h, fun u hu => ?_⟩
      cases hu
    · next o hfind =>
      have ho : o ∈ P.orders := List.mem_of_find?_eq_some hfind
      obtain ⟨s, hs, hside⟩ := mem_orders.mp ho
      have hsub : ∀ x ∈ (P.erase (client_id, order_id)).orders, x ∈ P.orders := fun x hx =>
        ((List.filter_sublist).append (List.filter_sublist)).subset hx
      refine ⟨⟨h.next_id, fun x hx => h.price x (hsub x hx), fun x hx => h.priority x (hsub x hx)⟩,
        fun u hu => ?_⟩
      rw [List.mem_singleton.mp hu]
      have hoside : o.side_.IsTrading := by
        rw [hwf.side s hs o hside]
        exact hs
      exact ⟨(hwf.ids o ho).trans hbound, hticker, hoside.onWire, h.price o ho, Nat.two_pow_pos 32,
        (h.priority o ho).trans hbound⟩

end PriorityBook

/-- **What the engine publishes fits a record**, if the prices of the requests do. -/
theorem MatchingEngine.onWire_run {base : ℕ → ℤ} {requests : List MEClientRequest}
    {e : MatchingEngine} (hdis : MatchingEngine.Dispatched requests)
    (hvalid : ∀ t, t < ME_MAX_TICKERS → ValidCalls (base t) (callsOf t requests))
    (hprices : ∀ r ∈ requests, PriceOnWire r.price_)
    (hrun : MatchingEngine.new.run requests = .ok e) : ∀ u ∈ marketUpdates e.sent, u.OnWire := by
  have hadm : ∀ t, t < ME_MAX_TICKERS → PriorityBook.empty.Admitted t (callsOf t requests) :=
    fun t ht => PriorityBook.ValidCalls.admitted t (hvalid t ht)
  have hcalls : ∀ t, ∀ c ∈ callsOf t requests, c.PricesOnWire := by
    intro t c hc
    obtain ⟨r, hr, hsome⟩ := List.mem_filterMap.mp hc
    split at hsome
    · unfold MEClientRequest.call? at hsome
      cases htype : r.type_ with
      | NEW =>
        simp only [htype] at hsome
        rw [← Option.some.inj hsome]
        exact hprices r hr
      | CANCEL =>
        simp only [htype] at hsome
        rw [← Option.some.inj hsome]
        trivial
      | INVALID | UNKNOWN _ =>
        simp only [htype] at hsome
        cases hsome
    · cases hsome
  refine List.forall_mem_filterMap.mpr (MatchingEngine.forall_sent hdis hadm hrun
    PriorityBook.onWire_empty hcalls fun t ht P c hP hwf hc hprice => ?_)
  obtain ⟨hP', hupdates⟩ := hP.step hwf (ht.trans (by decide)) hc hprice
  exact ⟨hP', List.forall_mem_filterMap.mp hupdates⟩

/-! ## Datagrams -/

open McastSocket (encode)
open MarketDataConsumer (AllContinueCycle latestStart received snapshotMessages)

/-- The socket of the synthesizer after some cycles. -/
def snapshotSocket (cycles : ℕ → SnapshotSynthesizer) : ℕ → Except Fault McastSocket
  | 0 => .ok {}
  | i + 1 => do
    let socket ← snapshotSocket cycles i
    (cycles i).sendSnapshot socket

/-- A datagram that arrives, with the snapshot cycle it is of, or none for an incremental one. -/
structure Datagram where
  cycle : Option ℕ
  bytes : List UInt8

namespace Datagram

/-- The first record is a `SNAPSHOT_START`. -/
def StartsCycle (d : Datagram) : Prop :=
  (readDatagram d.bytes).head?.map (·.me_market_update_.type_) = some .SNAPSHOT_START

/-- The records for the consumer, each with the index of its cycle. -/
def callback (d : Datagram) : Callback (ℕ × MDPMarketUpdate) where
  is_snapshot := d.cycle.isSome
  messages := (readDatagram d.bytes).map fun m => (d.cycle.getD 0, m)

/-- The datagram was sent by the exchange. -/
def Sent (p : MarketDataPublisher) (cycles : ℕ → SnapshotSynthesizer) (d : Datagram) : Prop :=
  match d.cycle with
  | none => d.bytes ∈ p.incremental_socket_.sent
  | some i => ∃ before after, snapshotSocket cycles i = .ok before ∧
      snapshotSocket cycles (i + 1) = .ok after ∧
      d.bytes ∈ after.sent.drop before.sent.length

end Datagram

/-- The consumer after some datagrams. -/
def consumerAfter (ds : List Datagram) : MarketDataConsumer :=
  (({} : McastConsumer).run (ds.map fun d => (d.cycle.isSome, d.bytes))).consumer

/-- A datagram of a cycle starts it, or comes after another one of this cycle. -/
def Unmixed (ds : List Datagram) : Prop :=
  ∀ before d after i, ds = before ++ d :: after → d.cycle = some i →
    d.StartsCycle ∨ (before.filterMap Datagram.cycle).getLast? = some i

section stream

variable {us : List MEMarketUpdate} {rounds : List (List MEMarketUpdate)} {p : MarketDataPublisher}
  {cycles : ℕ → SnapshotSynthesizer} {d : Datagram} {ds : List Datagram}

/-- The synthesizer publishes after some of the updates each time. -/
def PublishesAfter (us : List MEMarketUpdate) (cycles : ℕ → SnapshotSynthesizer) : Prop :=
  ∀ i, ∃ k, SnapshotSynthesizer.new.run (numbered 1 (us.take k)) = .ok (cycles i)

theorem snapshotSocket_spec (cycles : ℕ → SnapshotSynthesizer) (i : ℕ) :
    ∃ socket, snapshotSocket cycles i = .ok socket ∧ socket.outbound_data_ = [] := by
  induction i with
  | zero => exact ⟨{}, rfl, rfl⟩
  | succ i ih =>
    obtain ⟨socket, hsocket, hout⟩ := ih
    obtain ⟨socket', hsend, hout', -⟩ := (cycles i).sendSnapshot_spec hout
    exact ⟨socket', bind_eq_ok.mpr ⟨socket, hsocket, hsend⟩, hout'⟩

/-- The publisher sends a datagram for each turn with updates. -/
theorem exists_publisher (cycles : ℕ → SnapshotSynthesizer)
    (hfits : ∀ us ∈ rounds, MarketDataPublisher.FitsBuffer us) :
    ∃ p, ({} : MarketDataPublisher).run rounds = .ok p ∧
      ∀ batch ∈ MarketDataPublisher.batches 1 rounds, batch ≠ [] →
        Datagram.Sent p cycles ⟨none, encode batch⟩ := by
  obtain ⟨hpublishes, hdatagrams⟩ := MarketDataPublisher.datagrams_spec rounds
  obtain ⟨p, hpublisher⟩ := hpublishes.mpr hfits
  obtain ⟨hp, -⟩ := hdatagrams p hpublisher
  refine ⟨p, hpublisher, fun batch hbatch hne => ?_⟩
  show encode batch ∈ p.incremental_socket_.sent
  rw [hp]
  exact List.mem_map_of_mem (List.mem_filter.mpr ⟨hbatch, by simpa using hne⟩)

/-- What a datagram holds: whole records, of the updates or of its cycle. -/
structure Datagram.Holds (us : List MEMarketUpdate) (cycles : ℕ → SnapshotSynthesizer)
    (d : Datagram) : Prop where
  bytes : d.bytes = encode (readDatagram d.bytes)
  onWire : ∀ m ∈ readDatagram d.bytes, m.OnWire
  size : (readDatagram d.bytes).length * MDPMarketUpdate.size ≤ McastBufferSize
  incremental : d.cycle = none → ∀ m ∈ readDatagram d.bytes, m ∈ numbered 1 us
  snapshot : ∀ i, d.cycle = some i → ∀ m ∈ readDatagram d.bytes, m ∈ (cycles i).publishSnapshot

theorem Datagram.Sent.holds (hwire : ∀ u ∈ rounds.flatten, u.OnWire)
    (hlen : rounds.flatten.length < 2 ^ 64)
    (hpublisher : ({} : MarketDataPublisher).run rounds = .ok p)
    (hcycles : PublishesAfter rounds.flatten cycles) (h : d.Sent p cycles) :
    d.Holds rounds.flatten cycles := by
  obtain ⟨cycle, bytes⟩ := d
  cases cycle with
  | none =>
    -- the records of one turn of the publisher
    obtain ⟨batch, rfl, hpart, hsize⟩ := MarketDataPublisher.mem_sent hpublisher h
    have honWire : ∀ m ∈ batch, m.OnWire := fun m hm =>
      onWire_numbered hwire (by omega) m (hpart.subset hm)
    have hread := readDatagram_encode honWire
    refine ⟨?_, ?_, ?_, fun _ => ?_, fun i hi => by cases hi⟩
    · rw [hread]
    · rwa [hread]
    · rwa [hread]
    · rw [hread]
      exact fun m hm => hpart.subset hm
  | some i =>
    -- a part of the cycle, as the synthesizer flushed its socket
    obtain ⟨before, after, hbefore, hafter, hmem⟩ := h
    obtain ⟨socket, hsocket, hout⟩ := snapshotSocket_spec cycles i
    obtain rfl : before = socket := Except.ok.inj (hbefore.symm.trans hsocket)
    obtain ⟨socket', hsend, -, parts, hsent, hall, hparts⟩ := (cycles i).sendSnapshot_spec hout
    have hsame : snapshotSocket cycles (i + 1) = .ok socket' :=
      bind_eq_ok.mpr ⟨before, hsocket, hsend⟩
    obtain rfl : after = socket' := Except.ok.inj (hafter.symm.trans hsame)
    rw [hsent, List.drop_left] at hmem
    obtain ⟨part, hpart, rfl⟩ := List.mem_map.mp hmem
    have hsub : ∀ m ∈ part, m ∈ (cycles i).publishSnapshot := fun m hm => by
      rw [← hall]
      exact List.mem_flatten_of_mem hpart hm
    obtain ⟨k, hk⟩ := hcycles i
    have hcycle := SnapshotSynthesizer.onWire_publishSnapshot hwire hlen hk
    have hread := readDatagram_encode fun m hm => hcycle m (hsub m hm)
    refine ⟨?_, ?_, ?_, fun hi => (by cases hi), fun i' hi' => ?_⟩
    · rw [hread]
    · rw [hread]
      exact fun m hm => hcycle m (hsub m hm)
    · rw [hread]
      refine (Nat.mul_le_mul_right _ (hparts part hpart).2).trans ?_
      decide
    · obtain rfl := Option.some.inj hi'
      rw [hread]
      exact hsub

/-- The consumer's run on the datagrams is its run on their records. -/
theorem received_callbacks (h : ∀ d ∈ ds, d.Holds us cycles) :
    received (ds.map Datagram.callback) = consumerAfter ds := by
  have hall : ∀ cb ∈ ds.map fun d => (⟨d.cycle.isSome, readDatagram d.bytes⟩ : Callback _),
      (∀ m ∈ cb.messages, m.OnWire) ∧
        cb.messages.length * MDPMarketUpdate.size ≤ McastBufferSize := by
    intro cb hcb
    obtain ⟨d, hd, rfl⟩ := List.mem_map.mp hcb
    exact ⟨(h d hd).onWire, (h d hd).size⟩
  have hrun := (McastConsumer.run_encode _ hall McastConsumer.idle_new).1
  rw [List.map_map] at hrun
  have hreads : ds.map (fun d => (d.cycle.isSome, d.bytes)) =
      ds.map fun d => (d.cycle.isSome, encode (readDatagram d.bytes)) :=
    List.map_congr_left fun d hd => congrArg _ (h d hd).bytes
  unfold consumerAfter
  rw [hreads]
  refine Eq.trans ?_ hrun.symm
  unfold received
  rw [List.map_map]
  refine congrArg MarketDataConsumer.new.run (List.map_congr_left fun d _ => ?_)
  have hmessages : d.callback.messages.map Prod.snd = readDatagram d.bytes := by
    unfold Datagram.callback
    rw [List.map_map]
    exact List.map_id _
  exact congrArg (Callback.mk d.cycle.isSome) hmessages

/-- A `SNAPSHOT_START` is the first message of its cycle. -/
theorem Snapshot.seq_num_eq_zero {s : Snapshot} {m : MDPMarketUpdate} (hm : m ∈ s.messages)
    (hstart : m.me_market_update_.type_ = .SNAPSHOT_START) : m.seq_num_ = 0 := by
  obtain ⟨n, hn⟩ := List.getElem?_of_mem hm
  unfold Snapshot.messages at hn
  rw [getElem?_numbered, Option.map_eq_some_iff] at hn
  obtain ⟨u, hu, rfl⟩ := hn
  cases n with
  | zero => rfl
  | succ n =>
    -- the updates behind the first one are no markers of a start
    have hlater : u ∈ s.events ++ [s.endUpdate] := List.mem_of_getElem? hu
    rcases List.mem_append.mp hlater with hevent | hend
    · exact absurd hstart (s.isEvent u hevent).1
    · rw [List.mem_singleton.mp hend] at hstart
      cases hstart

/-- After messages of a cycle, behind its start; induction on them. -/
theorem latestStart_cycle {cbs : List (Callback (ℕ × MDPMarketUpdate))} {i : ℕ}
    (ms : List MDPMarketUpdate) :
    (latestStart cbs = some i ∨ ∃ m ∈ ms, m.me_market_update_.type_ = .SNAPSHOT_START) →
      latestStart (cbs ++ [⟨true, ms.map fun m => (i, m)⟩]) = some i := by
  induction ms using List.reverseRecOn with
  | nil =>
    intro h
    have hsame : latestStart (cbs ++ [⟨true, []⟩]) = latestStart cbs := by
      unfold latestStart
      rw [MarketDataConsumer.snapshotMessages_concat_snapshot, List.append_nil]
    rcases h with h | ⟨m, hm, -⟩
    · exact hsame.trans h
    · cases hm
  | append_singleton ms m ih =>
    intro h
    rw [List.map_append, List.map_singleton, MarketDataConsumer.latestStart_concat_snapshot]
    split
    · rfl
    · next hm =>
      apply ih
      rcases h with h | ⟨m', hm', hstart⟩
      · exact .inl h
      · rcases List.mem_append.mp hm' with hm' | hm'
        · exact .inr ⟨m', hm', hstart⟩
        · rw [List.mem_singleton.mp hm'] at hstart
          exact absurd hstart hm

theorem Datagram.StartsCycle.exists_start (h : d.StartsCycle) :
    ∃ m rest, readDatagram d.bytes = m :: rest ∧
      m.me_market_update_.type_ = .SNAPSHOT_START := by
  unfold Datagram.StartsCycle at h
  cases hread : readDatagram d.bytes with
  | nil =>
    rw [hread] at h
    cases h
  | cons m rest =>
    rw [hread] at h
    exact ⟨m, rest, rfl, Option.some.inj h⟩

theorem Unmixed.of_append {ds' : List Datagram} (h : Unmixed (ds ++ ds')) : Unmixed ds := by
  rintro before d after i rfl hd
  exact h before d (after ++ ds') i (by simp) hd

/-- The latest start is that of the cycle that came last; induction on the datagrams. -/
theorem latestStart_callbacks {i : ℕ} :
    Unmixed ds → (ds.filterMap Datagram.cycle).getLast? = some i →
      latestStart (ds.map Datagram.callback) = some i := by
  induction ds using List.reverseRecOn with
  | nil =>
    intro _ hlast
    cases hlast
  | append_singleton ds d ih =>
    intro h hlast
    rw [List.map_append, List.map_singleton]
    have hbefore := ih h.of_append
    obtain ⟨cycle, bytes⟩ := d
    cases cycle with
    | none =>
      rw [List.filterMap_append, List.filterMap_cons_none rfl, List.filterMap_nil,
        List.append_nil] at hlast
      exact (MarketDataConsumer.latestStart_concat_incremental ..).trans (hbefore hlast)
    | some j =>
      have hconcat : (ds.filterMap Datagram.cycle ++ [j]).getLast? = some i := by
        rw [List.filterMap_append] at hlast
        exact hlast
      rw [List.getLast?_concat] at hconcat
      obtain rfl := Option.some.inj hconcat
      apply latestStart_cycle
      rcases h ds _ [] j rfl rfl with hstarts | hlast
      · obtain ⟨m, rest, hread, hstart⟩ := hstarts.exists_start
        exact .inr ⟨m, hread ▸ List.mem_cons_self .., hstart⟩
      · exact .inl (hbefore hlast)

/-- **Unmixed datagrams never mix two cycles** in the consumer's queue. -/
theorem Unmixed.allContinueCycle {snapshots : ℕ → Snapshot}
    (hsnapshots : ∀ i, (cycles i).publishSnapshot = (snapshots i).messages)
    (hholds : ∀ d ∈ ds, d.Holds us cycles) (h : Unmixed ds) :
    AllContinueCycle (ds.map Datagram.callback) := by
  rintro cbs' ms p ⟨a, b, ms', more, rest, heq, hcbs⟩ - hseq -
  obtain ⟨rfl, hlast⟩ := List.append_inj' heq rfl
  cases hlast
  obtain ⟨before, ds', rfl, rfl, hds'⟩ := List.map_eq_append_iff.mp hcbs
  obtain ⟨d, after, rfl, hd, -⟩ := List.map_eq_cons_iff.mp hds'
  -- the message is in the datagram `d`, of the cycle `i`
  obtain ⟨hsnapshot, hmessages⟩ := Callback.mk.inj hd
  obtain ⟨i, hi⟩ := Option.isSome_iff_exists.mp hsnapshot
  rw [hi] at hmessages
  obtain ⟨records, later, hread, hrecords, -⟩ := List.map_eq_append_iff.mp hmessages
  obtain ⟨records, last, rfl, rfl, hlast⟩ := List.map_eq_append_iff.mp hrecords
  obtain ⟨m, rfl, rfl⟩ := List.map_eq_singleton_iff.mp hlast
  apply latestStart_cycle
  rcases h before d after i rfl hi with hstarts | hlast
  · -- the start of the cycle is not the message itself, which has another number
    obtain ⟨start, rest, hread', hstart⟩ := hstarts.exists_start
    rw [hread'] at hread
    cases records with
    | nil =>
      obtain ⟨rfl, -⟩ := List.cons.inj hread
      have hmem := (hholds d (by simp)).snapshot i hi start (hread' ▸ List.mem_cons_self ..)
      rw [hsnapshots] at hmem
      exact absurd (Snapshot.seq_num_eq_zero hmem hstart) hseq
    | cons first records =>
      obtain ⟨rfl, -⟩ := List.cons.inj hread
      exact .inr ⟨start, List.mem_cons_self .., hstart⟩
  · exact .inl (latestStart_callbacks h.of_append hlast)

/-- The snapshot messages for the consumer are of their cycles, and the others are updates. -/
theorem messages_callbacks {snapshots : ℕ → Snapshot}
    (hsnapshots : ∀ i, (cycles i).publishSnapshot = (snapshots i).messages)
    (hholds : ∀ d ∈ ds, d.Holds us cycles) :
    (∀ q ∈ snapshotMessages (ds.map Datagram.callback), q.2 ∈ (snapshots q.1).messages) ∧
      ∀ cb ∈ ds.map Datagram.callback, cb.is_snapshot = false →
        ∀ q ∈ cb.messages, q.2 ∈ numbered 1 us := by
  constructor
  · intro q hq
    obtain ⟨cb, hcb, hq⟩ := List.mem_flatMap.mp hq
    obtain ⟨hcb, hsnapshot⟩ := List.mem_filter.mp hcb
    obtain ⟨d, hd, rfl⟩ := List.mem_map.mp hcb
    obtain ⟨m, hm, rfl⟩ := List.mem_map.mp hq
    obtain ⟨i, hi⟩ := Option.isSome_iff_exists.mp hsnapshot
    have hmem := (hholds d hd).snapshot i hi m hm
    rw [hsnapshots] at hmem
    simp only [hi, Option.getD_some]
    exact hmem
  · intro cb hcb hincremental q hq
    obtain ⟨d, hd, rfl⟩ := List.mem_map.mp hcb
    obtain ⟨m, hm, rfl⟩ := List.mem_map.mp hq
    have hnone : d.cycle = none :=
      Option.isNone_iff_eq_none.mp (Option.isSome_eq_false_iff.mp hincremental)
    exact (hholds d hd).incremental hnone m hm

/-- **The consumer tracks the exchange**, whatever datagrams it gets. -/
theorem tracks_datagrams (hwire : ∀ u ∈ rounds.flatten, u.OnWire)
    (hevent : ∀ u ∈ rounds.flatten, u.IsEvent) (hlen : rounds.flatten.length < 2 ^ 64)
    (hpublisher : ({} : MarketDataPublisher).run rounds = .ok p)
    (hcycles : PublishesAfter rounds.flatten cycles) (hsent : ∀ d ∈ ds, d.Sent p cycles)
    (hunmixed : Unmixed ds) :
    ∃ snapshots, PublishedCycles rounds.flatten snapshots ∧
      MarketDataConsumer.Tracks rounds.flatten snapshots (consumerAfter ds) := by
  have hholds : ∀ d ∈ ds, d.Holds rounds.flatten cycles := fun d hd =>
    (hsent d hd).holds hwire hlen hpublisher hcycles
  choose number hnumber using hcycles
  choose snapshots hlast hsnapshots using fun i =>
    SnapshotSynthesizer.exists_snapshot (hnumber i)
  obtain ⟨hmem, hinc⟩ := messages_callbacks hsnapshots hholds
  refine ⟨snapshots, fun i => ?_, ?_⟩
  · refine ⟨min (number i) rounds.flatten.length, cycles i, Nat.min_le_right .., ?_,
      (hsnapshots i).symm⟩
    have hi := hnumber i
    rw [List.take_eq_take_min] at hi
    exact hi
  · rw [← received_callbacks hholds]
    exact MarketDataConsumer.tracks_run hevent _ hmem (hunmixed.allContinueCycle hsnapshots hholds)
      hinc

/-- The consumer behind an exchange that has published a first part of its updates. -/
theorem tracks_exchange {base : ℕ → ℤ} {requests : List MEClientRequest} {e : MatchingEngine}
    (hdis : MatchingEngine.Dispatched requests)
    (hvalid : ∀ t, t < ME_MAX_TICKERS → ValidCalls (base t) (callsOf t requests))
    (hadds : newCount requests < ME_MAX_ORDER_IDS)
    (hprices : ∀ r ∈ requests, PriceOnWire r.price_)
    (hrun : MatchingEngine.new.run requests = .ok e)
    (hrounds : rounds.flatten <+: marketUpdates e.sent) (hlen : rounds.flatten.length < 2 ^ 64)
    (hpublisher : ({} : MarketDataPublisher).run rounds = .ok p)
    (hcycles : PublishesAfter rounds.flatten cycles) (hsent : ∀ d ∈ ds, d.Sent p cycles)
    (hunmixed : Unmixed ds) :
    PublishedUpdates rounds.flatten ∧ ∃ snapshots, PublishedCycles rounds.flatten snapshots ∧
      MarketDataConsumer.Tracks rounds.flatten snapshots (consumerAfter ds) := by
  have hwire : ∀ u ∈ rounds.flatten, u.OnWire := fun u hu =>
    MatchingEngine.onWire_run hdis hvalid hprices hrun u (hrounds.subset hu)
  have hpublished : PublishedUpdates rounds.flatten :=
    (MatchingEngine.run_publishes hdis hvalid hadds hrun).1.of_isPrefix hrounds
  exact ⟨hpublished,
    tracks_datagrams hwire hpublished.events hlen hpublisher hcycles hsent hunmixed⟩

end stream

open MarketDataConsumer (firstOrder emptyCycle)

/-- The updates of `lateRequests`, a turn of the publisher for each. -/
def lateRounds : List (List MEMarketUpdate) := [[firstOrder], [lateTrade], [lateModify]]

/-- The first datagram is overtaken by the second one, so that the consumer has to recover, from a
snapshot of nothing. -/
def overtaken : List Datagram :=
  [⟨none, encode [⟨2, lateTrade⟩]⟩, ⟨none, encode [⟨1, firstOrder⟩]⟩,
    ⟨some 0, encode emptyCycle.messages⟩, ⟨none, encode [⟨3, lateModify⟩]⟩]

/-- A synthesizer without orders sends one datagram. -/
theorem sendSnapshot_new : ∃ socket, SnapshotSynthesizer.new.sendSnapshot {} = .ok socket ∧
    socket.sent = [encode emptyCycle.messages] := by
  have hticker : SnapshotSynthesizer.new.sendTicker = fun st t =>
      st.2.send (MDPMarketUpdate.mk st.1 { type_ := .CLEAR, ticker_id_ := t }).toBytes >>=
        fun socket => .ok (st.1 + 1, socket) := by
    funext st t
    have hnone : SnapshotSynthesizer.new.orders t = [] :=
      List.filterMap_eq_nil_iff.mpr fun _ _ => rfl
    unfold SnapshotSynthesizer.sendTicker
    rw [hnone]
    rfl
  have hsent : (SnapshotSynthesizer.new.sendSnapshot {}).toOption.map McastSocket.sent =
      some [encode emptyCycle.messages] := by
    unfold SnapshotSynthesizer.sendSnapshot
    rw [hticker]
    decide +kernel
  obtain ⟨socket, hsend, -⟩ := @SnapshotSynthesizer.sendSnapshot_spec {} SnapshotSynthesizer.new rfl
  rw [hsend] at hsent
  exact ⟨socket, hsend, Option.some.inj hsent⟩

theorem consumerAfter_overtaken : (consumerAfter overtaken).in_recovery_ = false ∧
    (consumerAfter overtaken).next_exp_inc_seq_num_ = 4 ∧
    (consumerAfter overtaken).incoming_md_updates_ =
      (List.range 8).map MarketDataConsumer.clearOf ++ lateRounds.flatten := by
  refine ⟨?_, ?_, ?_⟩
  · decide +kernel
  · decide +kernel
  · decide +kernel

/-- The datagrams are those of the publisher and of the first cycle. -/
theorem sent_overtaken : ∃ p, ({} : MarketDataPublisher).run lateRounds = .ok p ∧
    ∀ d ∈ overtaken, d.Sent p fun _ => SnapshotSynthesizer.new := by
  obtain ⟨p, hpublisher, hincremental⟩ := @exists_publisher lateRounds
    (fun _ => SnapshotSynthesizer.new) (by decide)
  obtain ⟨socket, hsocket, hcycle⟩ := sendSnapshot_new
  refine ⟨p, hpublisher, fun d hd => ?_⟩
  simp only [overtaken, List.mem_cons, List.not_mem_nil, or_false] at hd
  rcases hd with rfl | rfl | rfl | rfl
  · exact hincremental _ (by decide) (by decide)
  · exact hincremental _ (by decide) (by decide)
  · refine ⟨{}, socket, rfl, bind_eq_ok.mpr ⟨{}, rfl, hsocket⟩, ?_⟩
    rw [hcycle]
    exact List.mem_cons_self ..
  · exact hincremental _ (by decide) (by decide)

theorem unmixed_overtaken : Unmixed overtaken := by
  intro before d after i hsplit hcycle
  have hd : d ∈ overtaken := by
    rw [hsplit]
    simp
  simp only [overtaken, List.mem_cons, List.not_mem_nil, or_false] at hd
  rcases hd with rfl | rfl | rfl | rfl
  · cases hcycle
  · cases hcycle
  · left
    unfold Datagram.StartsCycle
    decide +kernel
  · cases hcycle

theorem clearsMeetEmpty_overtaken (t : ℕ) (ht : t < ME_MAX_TICKERS) :
    ClearsMeetEmpty t (consumerAfter overtaken).incoming_md_updates_ := by
  rw [consumerAfter_overtaken.2.2]
  have htails : ∀ t < ME_MAX_TICKERS, ∀ u ∈ (updatesOf t ((List.range 8).map
      MarketDataConsumer.clearOf ++ lateRounds.flatten)).tail, u.type_ ≠ .CLEAR := by decide
  exact clearsMeetEmpty_of_tail (htails t ht)

theorem dispatched_late : MatchingEngine.Dispatched lateRequests := by
  simp [MatchingEngine.Dispatched, lateRequests, MEClientRequest.call?, ME_MAX_TICKERS]

theorem prices_late : ∀ r ∈ lateRequests, PriceOnWire r.price_ := by
  simp [lateRequests, PriceOnWire]

theorem marketUpdates_late : ∃ e, MatchingEngine.new.run lateRequests = .ok e ∧
    marketUpdates e.sent = lateRounds.flatten := by
  obtain ⟨e, hrun⟩ : ∃ e, MatchingEngine.new.run lateRequests = .ok e :=
    exists_ok_of_isOk (by decide +kernel)
  have hsome : (MatchingEngine.new.run lateRequests).toOption.map (fun e => marketUpdates e.sent) =
      some lateRounds.flatten := by decide +kernel
  rw [hrun] at hsome
  exact ⟨e, hrun, Option.some.inj hsome⟩

end TradingEcosystem
