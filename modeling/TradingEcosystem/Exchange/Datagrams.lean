import TradingEcosystem.Common.McastSocket
import TradingEcosystem.Exchange.SnapshotSynthesizer
import TradingEcosystem.Lib.Runs

/-!
# Datagrams of the Exchange

How `MarketDataPublisher::run` and `SnapshotSynthesizer::publishSnapshot` cut what they publish into
datagrams: the publisher sends whatever its queue held at once, the synthesizer sends after every
order.

- `MarketDataPublisher.datagrams_spec` : the publisher cuts its updates into whole records, exactly
  when no turn of its loop fills the send buffer
- `SnapshotSynthesizer.sendSnapshot_spec` : a cycle goes out in small datagrams
-/

namespace TradingEcosystem

open McastSocket (encode encode_append Packed packed_refl)

/-! ## The incremental stream -/

structure MarketDataPublisher where
  next_inc_seq_num_ : ℕ := 1
  incremental_socket_ : McastSocket := {}

namespace MarketDataPublisher

/-- What the inner loop does with an update on the socket. -/
def publishUpdate (p : MarketDataPublisher) (market_update : MEMarketUpdate) :
    Except Fault MarketDataPublisher := do
  let socket ← p.incremental_socket_.send (Lib.Wire.toBytes 8 p.next_inc_seq_num_)
  let socket ← socket.send market_update.toBytes
  .ok { next_inc_seq_num_ := p.next_inc_seq_num_ + 1, incremental_socket_ := socket }

/-- A turn of the outer loop that finds the updates `us` in the queue. -/
def publishRound (p : MarketDataPublisher) (us : List MEMarketUpdate) :
    Except Fault MarketDataPublisher := do
  let p ← us.foldlM publishUpdate p
  .ok { p with incremental_socket_ := p.incremental_socket_.flush }

def run (p : MarketDataPublisher) (rounds : List (List MEMarketUpdate)) :
    Except Fault MarketDataPublisher :=
  rounds.foldlM publishRound p

/-- The updates of each turn, numbered through. -/
def batches (first : ℕ) : List (List MEMarketUpdate) → List (List MDPMarketUpdate)
  | [] => []
  | us :: rounds => numbered first us :: batches (first + us.length) rounds

theorem flatten_batches (rounds : List (List MEMarketUpdate)) :
    ∀ first, (batches first rounds).flatten = numbered first rounds.flatten := by
  induction rounds with
  | nil =>
    intro first
    rfl
  | cons us rounds ih =>
    intro first
    rw [batches, List.flatten_cons, List.flatten_cons, ih, numbered_append]

theorem numbered_eq_nil {first : ℕ} {us : List MEMarketUpdate} : numbered first us = [] ↔ us = [] := by
  unfold numbered
  simp

theorem map_update_numbered (first : ℕ) (us : List MEMarketUpdate) :
    (numbered first us).map (·.me_market_update_) = us := by
  unfold numbered
  rw [List.map_map]
  exact List.zipIdx_map_fst ..

/-- The updates of a turn leave the send buffer with room to spare. -/
def FitsBuffer (us : List MEMarketUpdate) : Prop :=
  us.length * MDPMarketUpdate.size < McastBufferSize

instance (us : List MEMarketUpdate) : Decidable (FitsBuffer us) :=
  inferInstanceAs (Decidable (_ < _))

variable {p : MarketDataPublisher} {before : McastSocket} {parts : List (List MDPMarketUpdate)}
  {pending : List MDPMarketUpdate}

/-- One update is one record more in the buffer, or the buffer is full. -/
theorem publishUpdate_spec (h : Packed before p.incremental_socket_ parts pending)
    (u : MEMarketUpdate) :
    ((pending.length + 1) * MDPMarketUpdate.size < McastBufferSize →
      ∃ socket, p.publishUpdate u = .ok ⟨p.next_inc_seq_num_ + 1, socket⟩ ∧
        Packed before socket parts (pending ++ [⟨p.next_inc_seq_num_, u⟩])) ∧
    (McastBufferSize ≤ (pending.length + 1) * MDPMarketUpdate.size →
      ∃ fault, p.publishUpdate u = .error fault) := by
  have hout : p.incremental_socket_.outbound_data_.length = pending.length * MDPMarketUpdate.size := by
    rw [h.outbound, McastSocket.length_encode]
  have hseq : (Lib.Wire.toBytes 8 p.next_inc_seq_num_).length = 8 := Lib.Wire.length_toBytes 8 _
  have hsum : pending.length * MDPMarketUpdate.size + 8 + 34 =
      (pending.length + 1) * MDPMarketUpdate.size := by
    unfold MDPMarketUpdate.size
    omega
  constructor
  · intro hroom
    -- the number and the update are sent apart, and make one record
    have hlen : (p.incremental_socket_.outbound_data_ ++
        Lib.Wire.toBytes 8 p.next_inc_seq_num_).length + u.toBytes.length < McastBufferSize := by
      rw [List.length_append, hout, hseq, u.length_toBytes]
      omega
    have hfirst : p.incremental_socket_.send (Lib.Wire.toBytes 8 p.next_inc_seq_num_) = _ :=
      McastSocket.send_of_lt (by rw [hout, hseq]; omega)
    have hsecond : ({ p.incremental_socket_ with
        outbound_data_ := p.incremental_socket_.outbound_data_ ++
          Lib.Wire.toBytes 8 p.next_inc_seq_num_ } : McastSocket).send u.toBytes = _ :=
      McastSocket.send_of_lt hlen
    refine ⟨_, bind_eq_ok.mpr ⟨_, hfirst, bind_eq_ok.mpr ⟨_, hsecond, rfl⟩⟩, ?_, h.sent⟩
    show p.incremental_socket_.outbound_data_ ++ _ ++ u.toBytes = _
    rw [h.outbound, encode_append, List.append_assoc]
    exact congrArg _ (List.append_nil _).symm
  · intro hfull
    unfold publishUpdate
    cases hfirst : p.incremental_socket_.send (Lib.Wire.toBytes 8 p.next_inc_seq_num_) with
    | error fault => exact ⟨fault, rfl⟩
    | ok socket =>
      have hsocket : socket.outbound_data_.length = pending.length * MDPMarketUpdate.size + 8 := by
        unfold McastSocket.send at hfirst
        split at hfirst
        · obtain rfl := Except.ok.inj hfirst
          simp only [List.length_append, hout, hseq]
        · split at hfirst
          · cases hfirst
          · cases hfirst
      have hlen : McastBufferSize ≤ socket.outbound_data_.length + u.toBytes.length := by
        rw [hsocket, u.length_toBytes]
        omega
      obtain ⟨fault, hsecond⟩ := McastSocket.send_error hlen
      refine ⟨fault, ?_⟩
      rw [ok_bind, hsecond]
      rfl

/-- The inner loop; induction on the updates it finds. -/
theorem publishUpdates_spec (us : List MEMarketUpdate) :
    ∀ {p : MarketDataPublisher} {pending : List MDPMarketUpdate},
      Packed before p.incremental_socket_ parts pending →
      pending.length * MDPMarketUpdate.size < McastBufferSize →
      ((pending.length + us.length) * MDPMarketUpdate.size < McastBufferSize →
        ∃ socket, us.foldlM publishUpdate p = .ok ⟨p.next_inc_seq_num_ + us.length, socket⟩ ∧
          Packed before socket parts (pending ++ numbered p.next_inc_seq_num_ us)) ∧
      (McastBufferSize ≤ (pending.length + us.length) * MDPMarketUpdate.size →
        ∃ fault, us.foldlM publishUpdate p = .error fault) := by
  induction us with
  | nil =>
    intro p pending h hroom
    refine ⟨fun _ => ⟨p.incremental_socket_, rfl, ?_⟩, fun hfull => ?_⟩
    · exact (List.append_nil pending).symm ▸ h
    · rw [List.length_nil, Nat.add_zero] at hfull
      omega
  | cons u us ih =>
    intro p pending h hroom
    obtain ⟨hok, herror⟩ := publishUpdate_spec h u
    have hstep : (u :: us).foldlM publishUpdate p =
        p.publishUpdate u >>= fun p => us.foldlM publishUpdate p := List.foldlM_cons ..
    have hlen : pending.length + (u :: us).length = (pending.length + 1) + us.length := by
      rw [List.length_cons]
      omega
    rw [hstep, hlen]
    by_cases hone : (pending.length + 1) * MDPMarketUpdate.size < McastBufferSize
    · obtain ⟨socket, hrun, h'⟩ := hok hone
      have hlen' : (pending ++ [(⟨p.next_inc_seq_num_, u⟩ : MDPMarketUpdate)]).length =
          pending.length + 1 := List.length_append
      have hrest := ih (p := ⟨p.next_inc_seq_num_ + 1, socket⟩) h' (by rw [hlen']; exact hone)
      rw [hlen'] at hrest
      rw [hrun, ok_bind]
      refine ⟨fun hall => ?_, hrest.2⟩
      obtain ⟨socket', hrun', h''⟩ := hrest.1 hall
      refine ⟨socket', ?_, ?_⟩
      · rw [hrun', List.length_cons, Nat.add_comm us.length, ← Nat.add_assoc]
      · rw [numbered_cons, ← List.singleton_append, ← List.append_assoc]
        exact h''
    · -- the first update already fills the buffer
      have hfull : McastBufferSize ≤ (pending.length + 1) * MDPMarketUpdate.size := by omega
      obtain ⟨fault, hfault⟩ := herror hfull
      rw [hfault]
      refine ⟨fun hall => absurd hall ?_, fun _ => ⟨fault, rfl⟩⟩
      have hle : (pending.length + 1) * MDPMarketUpdate.size ≤
          (pending.length + 1 + us.length) * MDPMarketUpdate.size :=
        Nat.mul_le_mul_right _ (Nat.le_add_right _ _)
      omega

/-- A turn of the outer loop: one datagram with all the updates, if there are any. -/
theorem publishRound_spec (us : List MEMarketUpdate)
    (h : Packed before p.incremental_socket_ parts []) :
    (FitsBuffer us → ∃ socket, p.publishRound us = .ok ⟨p.next_inc_seq_num_ + us.length, socket⟩ ∧
      Packed before socket
        (parts ++ if us = [] then [] else [numbered p.next_inc_seq_num_ us]) []) ∧
    (¬ FitsBuffer us → ∃ fault, p.publishRound us = .error fault) := by
  obtain ⟨hok, herror⟩ := publishUpdates_spec us h (by decide)
  rw [List.length_nil, Nat.zero_add] at hok herror
  unfold publishRound
  constructor
  · intro hfits
    obtain ⟨socket, hrun, h'⟩ := hok hfits
    refine ⟨socket.flush, ?_, ?_⟩
    · rw [hrun]
      rfl
    · have hflush := h'.flush
      simp only [List.nil_append, numbered_eq_nil] at hflush
      exact hflush
  · intro hfull
    obtain ⟨fault, hfault⟩ := herror (Nat.not_lt.mp hfull)
    refine ⟨fault, ?_⟩
    rw [hfault]
    rfl

/-- The turns; induction on them. -/
theorem run_spec (rounds : List (List MEMarketUpdate)) :
    ∀ {p : MarketDataPublisher} {parts : List (List MDPMarketUpdate)},
      Packed before p.incremental_socket_ parts [] →
      ((∀ us ∈ rounds, FitsBuffer us) → ∃ p', p.run rounds = .ok p' ∧
        Packed before p'.incremental_socket_
          (parts ++ (batches p.next_inc_seq_num_ rounds).filter fun b => !b.isEmpty) []) ∧
      (¬ (∀ us ∈ rounds, FitsBuffer us) → ∃ fault, p.run rounds = .error fault) := by
  induction rounds with
  | nil =>
    intro p parts h
    refine ⟨fun _ => ⟨p, rfl, ?_⟩, fun hfull => absurd (fun us hus => by cases hus) hfull⟩
    exact (List.append_nil parts).symm ▸ h
  | cons us rounds ih =>
    intro p parts h
    obtain ⟨hok, herror⟩ := publishRound_spec us h
    have hstep : p.run (us :: rounds) = p.publishRound us >>= fun p => p.run rounds :=
      List.foldlM_cons ..
    rw [hstep, List.forall_mem_cons]
    by_cases hfits : FitsBuffer us
    · obtain ⟨socket, hrun, h'⟩ := hok hfits
      obtain ⟨hok', herror'⟩ := ih (p := ⟨p.next_inc_seq_num_ + us.length, socket⟩) h'
      rw [hrun, ok_bind]
      refine ⟨fun hall => ?_, fun hnot => herror' fun hrest => hnot ⟨hfits, hrest⟩⟩
      obtain ⟨p', hrun', h''⟩ := hok' hall.2
      refine ⟨p', hrun', ?_⟩
      rw [batches, List.filter_cons]
      rw [List.append_assoc] at h''
      by_cases hnil : us = []
      · subst hnil
        exact h''
      · have hne : (!(numbered p.next_inc_seq_num_ us).isEmpty) = true := by
          rw [Bool.not_eq_true', List.isEmpty_eq_false_iff]
          exact fun heq => hnil (numbered_eq_nil.mp heq)
        rw [if_pos hne]
        rw [if_neg hnil] at h''
        exact h''
    · obtain ⟨fault, hfault⟩ := herror hfits
      rw [hfault]
      exact ⟨fun hall => absurd hall.1 hfits, fun _ => ⟨fault, rfl⟩⟩

theorem fits_of_mem_batches {rounds : List (List MEMarketUpdate)} {batch : List MDPMarketUpdate} :
    ∀ {first : ℕ}, (∀ us ∈ rounds, FitsBuffer us) → batch ∈ batches first rounds →
      batch.length * MDPMarketUpdate.size < McastBufferSize := by
  induction rounds with
  | nil =>
    intro first _ hbatch
    cases hbatch
  | cons us rounds ih =>
    intro first hfits hbatch
    obtain ⟨hus, hrounds⟩ := List.forall_mem_cons.mp hfits
    rcases List.mem_cons.mp hbatch with rfl | hbatch
    · have hlen : (numbered first us).length = us.length := by simp [numbered]
      rw [hlen]
      exact hus
    · exact ih hrounds hbatch

theorem updates_of_mem_batches {rounds : List (List MEMarketUpdate)} {batch : List MDPMarketUpdate} :
    ∀ {first : ℕ}, batch ∈ batches first rounds → batch.map (·.me_market_update_) ∈ rounds := by
  induction rounds with
  | nil =>
    intro first h
    cases h
  | cons us rounds ih =>
    intro first h
    rcases List.mem_cons.mp h with rfl | h
    · rw [map_update_numbered]
      exact List.mem_cons_self ..
    · exact List.mem_cons_of_mem _ (ih h)

/-- **The datagrams of the incremental stream.**  However the updates come, the publisher gets
through its turns exactly when the updates of no turn fill the send buffer; then every datagram holds
the records of one turn, and together they are all the updates, numbered from one. -/
theorem datagrams_spec (rounds : List (List MEMarketUpdate)) :
    ((∃ p, ({} : MarketDataPublisher).run rounds = .ok p) ↔ ∀ us ∈ rounds, FitsBuffer us) ∧
    ∀ p, ({} : MarketDataPublisher).run rounds = .ok p →
      p.incremental_socket_.sent =
          ((batches 1 rounds).filter fun b => !b.isEmpty).map encode ∧
        p.incremental_socket_.outbound_data_ = [] ∧
        (batches 1 rounds).flatten = numbered 1 rounds.flatten := by
  have hnew : Packed {} ({} : MarketDataPublisher).incremental_socket_ [] [] := packed_refl rfl
  obtain ⟨hok, herror⟩ := run_spec rounds hnew
  by_cases hfits : ∀ us ∈ rounds, FitsBuffer us
  · obtain ⟨p, hrun, h⟩ := hok hfits
    refine ⟨⟨fun _ => hfits, fun _ => ⟨p, hrun⟩⟩, fun p' hrun' => ?_⟩
    rw [hrun] at hrun'
    cases hrun'
    exact ⟨h.sent, h.outbound, flatten_batches rounds 1⟩
  · obtain ⟨fault, hfault⟩ := herror hfits
    refine ⟨⟨fun hex => ?_, fun hall => absurd hall hfits⟩, fun p hrun => ?_⟩
    · obtain ⟨p, hrun⟩ := hex
      rw [hfault] at hrun
      cases hrun
    · rw [hfault] at hrun
      cases hrun

end MarketDataPublisher

/-! ## The snapshot stream -/

namespace SnapshotSynthesizer

/-- The orders of a ticker by ascending id. -/
def orders (s : SnapshotSynthesizer) (ticker_id : ℕ) : List MEMarketUpdate :=
  (List.range ME_MAX_ORDER_IDS).filterMap fun order_id =>
    (s.ticker_orders_ ticker_id order_id).map s.order_pool_.get

/-- Send an order at once.  The state is `snapshot_size` and the socket. -/
def sendOrder (st : ℕ × McastSocket) (order : MEMarketUpdate) : Except Fault (ℕ × McastSocket) := do
  let socket ← st.2.send (MDPMarketUpdate.mk st.1 order).toBytes
  .ok (st.1 + 1, socket.flush)

/-- The `CLEAR` of a ticker, and its orders. -/
def sendTicker (s : SnapshotSynthesizer) (st : ℕ × McastSocket) (ticker_id : ℕ) :
    Except Fault (ℕ × McastSocket) := do
  let socket ← st.2.send
    (MDPMarketUpdate.mk st.1 { type_ := .CLEAR, ticker_id_ := ticker_id }).toBytes
  (s.orders ticker_id).foldlM sendOrder (st.1 + 1, socket)

/-- Publish a full snapshot cycle on the socket. -/
def sendSnapshot (s : SnapshotSynthesizer) (socket : McastSocket) : Except Fault McastSocket := do
  let socket ← socket.send (MDPMarketUpdate.mk 0
    { type_ := .SNAPSHOT_START, order_id_ := s.last_inc_seq_num_ }).toBytes
  let st ← (List.range ME_MAX_TICKERS).foldlM s.sendTicker (1, socket)
  let socket ← st.2.send (MDPMarketUpdate.mk st.1
    { type_ := .SNAPSHOT_END, order_id_ := s.last_inc_seq_num_ }).toBytes
  .ok socket.flush

/-- What has been sent of a cycle: the updates `us`, in datagrams of at most ten records, and what
still is in the buffer. -/
structure Sending (before : McastSocket) (us : List MEMarketUpdate) (count : ℕ)
    (st : ℕ × McastSocket) : Prop where
  snapshot_size : st.1 = us.length
  packed : ∃ parts pending, Packed before st.2 parts pending ∧
    parts.flatten ++ pending = numbered 0 us ∧ pending.length ≤ count ∧
    ∀ part ∈ parts, part ≠ [] ∧ part.length ≤ ME_MAX_TICKERS + 2

variable {s : SnapshotSynthesizer} {before socket : McastSocket} {us : List MEMarketUpdate}
  {count : ℕ} {st : ℕ × McastSocket}

/-- One more record in the buffer. -/
theorem Sending.send (h : Sending before us count st) (hcount : count ≤ ME_MAX_TICKERS + 1)
    (u : MEMarketUpdate) :
    ∃ socket, st.2.send (MDPMarketUpdate.mk st.1 u).toBytes = .ok socket ∧
      Sending before (us ++ [u]) (count + 1) (st.1 + 1, socket) := by
  obtain ⟨hsize, parts, pending, hpacked, hall, hlen, hparts⟩ := h
  have hroom : (pending.length + 1) * MDPMarketUpdate.size < McastBufferSize := by
    unfold MDPMarketUpdate.size McastBufferSize
    unfold ME_MAX_TICKERS at hcount
    omega
  obtain ⟨socket, hsend, hpacked'⟩ := hpacked.send ⟨st.1, u⟩ hroom
  refine ⟨socket, hsend, ?_, parts, pending ++ [⟨st.1, u⟩], hpacked', ?_, ?_, hparts⟩
  · rw [List.length_append, hsize]
    rfl
  · rw [← List.append_assoc, hall, numbered_append, hsize, Nat.zero_add]
    rfl
  · rw [List.length_append]
    exact Nat.succ_le_succ hlen

/-- The buffer goes out. -/
theorem Sending.flush (h : Sending before us count st) (hcount : count ≤ ME_MAX_TICKERS + 2) :
    Sending before us 0 (st.1, st.2.flush) := by
  obtain ⟨hsize, parts, pending, hpacked, hall, hlen, hparts⟩ := h
  refine ⟨hsize, _, [], hpacked.flush, ?_, Nat.le_refl 0, fun part hpart => ?_⟩
  · rw [← hall, List.append_nil, List.flatten_append]
    split
    · next hnil =>
      rw [hnil]
      rfl
    · simp
  · rcases List.mem_append.mp hpart with hpart | hpart
    · exact hparts part hpart
    · split at hpart
      · cases hpart
      · next hne =>
        obtain rfl := List.mem_singleton.mp hpart
        exact ⟨hne, hlen.trans hcount⟩

/-- The orders of a ticker; induction on them. -/
theorem sendOrders_spec (orders : List MEMarketUpdate) :
    ∀ {us : List MEMarketUpdate} {count : ℕ} {st : ℕ × McastSocket},
      Sending before us count st → count ≤ ME_MAX_TICKERS + 1 →
      ∃ st', orders.foldlM sendOrder st = .ok st' ∧ Sending before (us ++ orders) count st' := by
  induction orders with
  | nil =>
    intro us count st h _
    exact ⟨st, rfl, (List.append_nil us).symm ▸ h⟩
  | cons order orders ih =>
    intro us count st h hcount
    obtain ⟨socket, hsend, h'⟩ := h.send hcount order
    have hflush := h'.flush (Nat.succ_le_succ hcount)
    -- the next order finds an empty buffer
    have hfewer : Sending before (us ++ [order]) count (st.1 + 1, socket.flush) := by
      obtain ⟨hsize, parts, pending, hpacked, hall, hlen, hparts⟩ := hflush
      exact ⟨hsize, parts, pending, hpacked, hall, hlen.trans (Nat.zero_le count), hparts⟩
    obtain ⟨st', hrun, hst'⟩ := ih hfewer hcount
    refine ⟨st', Lib.Runs.foldlM_cons_eq_ok.mpr ⟨_, bind_eq_ok.mpr ⟨_, hsend, rfl⟩, hrun⟩, ?_⟩
    rw [List.append_assoc] at hst'
    exact hst'

theorem tickerUpdates_eq_cons (s : SnapshotSynthesizer) (t : ℕ) :
    s.tickerUpdates t = [{ type_ := .CLEAR, ticker_id_ := t }] ++ s.orders t := by
  unfold tickerUpdates orders
  rw [List.singleton_append]

theorem sendTicker_spec (s : SnapshotSynthesizer) (t : ℕ) (h : Sending before us count st)
    (hcount : count < ME_MAX_TICKERS + 1) :
    ∃ st', s.sendTicker st t = .ok st' ∧
      Sending before (us ++ s.tickerUpdates t) (count + 1) st' := by
  obtain ⟨socket, hsend, h'⟩ :=
    h.send (Nat.le_of_lt hcount) { type_ := .CLEAR, ticker_id_ := t }
  obtain ⟨st', hrun, hst'⟩ := sendOrders_spec (s.orders t) h' hcount
  refine ⟨st', bind_eq_ok.mpr ⟨_, hsend, hrun⟩, ?_⟩
  rw [List.append_assoc, ← tickerUpdates_eq_cons] at hst'
  exact hst'

/-- The tickers; induction on how many of them. -/
theorem sendTickers_spec (s : SnapshotSynthesizer) (h : Sending before us count st) :
    ∀ n, count + n ≤ ME_MAX_TICKERS + 1 →
      ∃ st', (List.range n).foldlM s.sendTicker st = .ok st' ∧
        Sending before (us ++ (List.range n).flatMap s.tickerUpdates) (count + n) st' := by
  intro n
  induction n with
  | zero =>
    intro _
    exact ⟨st, rfl, (List.append_nil us).symm ▸ h⟩
  | succ n ih =>
    intro hn
    obtain ⟨st', hrun, hst'⟩ := ih (by omega)
    obtain ⟨st'', hstep, hst''⟩ := sendTicker_spec s n hst' (by omega)
    refine ⟨st'', ?_, ?_⟩
    · rw [List.range_succ]
      refine Lib.Runs.foldlM_append_eq_ok.mpr ⟨st', hrun, ?_⟩
      exact Lib.Runs.foldlM_cons_eq_ok.mpr ⟨st'', hstep, rfl⟩
    · rw [List.range_succ, List.flatMap_append, List.flatMap_singleton, ← List.append_assoc]
      exact hst''

/-- **A cycle goes out in small datagrams**: from whatever state, the send buffer is never filled,
each datagram holds at most ten records, and together they are the messages of the cycle. -/
theorem sendSnapshot_spec (s : SnapshotSynthesizer) (h : socket.outbound_data_ = []) :
    ∃ socket', s.sendSnapshot socket = .ok socket' ∧ socket'.outbound_data_ = [] ∧
      ∃ parts : List (List MDPMarketUpdate), socket'.sent = socket.sent ++ parts.map encode ∧
        parts.flatten = s.publishSnapshot ∧
        ∀ part ∈ parts, part ≠ [] ∧ part.length ≤ ME_MAX_TICKERS + 2 := by
  have hnew : Sending socket [] 0 (0, socket) :=
    ⟨rfl, [], [], packed_refl h, rfl, Nat.le_refl 0, fun part hpart => by cases hpart⟩
  obtain ⟨socket₁, hstart, h₁⟩ := hnew.send (Nat.zero_le _)
    { type_ := .SNAPSHOT_START, order_id_ := s.last_inc_seq_num_ }
  obtain ⟨st, htickers, h₂⟩ := sendTickers_spec s h₁ ME_MAX_TICKERS (by omega)
  obtain ⟨socket₃, hend, h₃⟩ := h₂.send (by omega)
    { type_ := .SNAPSHOT_END, order_id_ := s.last_inc_seq_num_ }
  have hflush := h₃.flush (by omega)
  obtain ⟨-, parts, pending, hpacked, hall, hlen, hparts⟩ := hflush
  obtain rfl : pending = [] := List.length_eq_zero_iff.mp (Nat.le_zero.mp hlen)
  refine ⟨socket₃.flush, ?_, hpacked.outbound, parts, hpacked.sent, ?_, hparts⟩
  · exact bind_eq_ok.mpr ⟨_, hstart, bind_eq_ok.mpr ⟨_, htickers, bind_eq_ok.mpr ⟨_, hend, rfl⟩⟩⟩
  · rw [List.append_nil] at hall
    rw [hall]
    unfold publishSnapshot
    rw [List.nil_append, List.append_assoc]
    rfl

end SnapshotSynthesizer

end TradingEcosystem
