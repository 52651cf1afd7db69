import TradingEcosystem.Exchange.Sessions

/-!
# Receive Buffers

`OrderServer::recvCallback` byte by byte: `recvmsg` stores what it reads behind the valid bytes, an
index goes through the buffer one record at a time, and `memcpy` moves what is left to the front.

- `BufferedServer.decode_eq` : the loop decodes the records of the valid bytes
- `BufferedServer.toServer_step` : the order server does the same with its lists of bytes
- `BufferedServer.cut_run` : it makes no difference how the stream of a client is cut
-/

namespace TradingEcosystem

open OrderServer (Event records bytesOn onSocket size_pos)
open Lib.Runs (Along)

/-- A receive buffer: all its bytes, and how many of them are valid. -/
structure RecvBuffer where
  inbound_data_ : List UInt8
  next_rcv_valid_index_ : ℕ

namespace RecvBuffer

/-- A buffer that nothing was read into yet. -/
def empty (inbound_data : List UInt8) : RecvBuffer where
  inbound_data_ := inbound_data
  next_rcv_valid_index_ := 0

/-- The bytes to be decoded. -/
def valid (b : RecvBuffer) : List UInt8 := b.inbound_data_.take b.next_rcv_valid_index_

/-- `recvmsg` reads `bytes`. -/
def recvmsg (b : RecvBuffer) (bytes : List UInt8) : RecvBuffer where
  inbound_data_ := b.inbound_data_.take b.next_rcv_valid_index_ ++ bytes ++
    b.inbound_data_.drop (b.next_rcv_valid_index_ + bytes.length)
  next_rcv_valid_index_ := b.next_rcv_valid_index_ + bytes.length

/-- `reinterpret_cast<const OMClientRequest *>(inbound_data_.data() + i)`. -/
def request (b : RecvBuffer) (i : ℕ) : OMClientRequest :=
  .ofBytes ((b.inbound_data_.drop i).take OMClientRequest.size)

/-- Move `count` bytes from index `src` to the front. -/
def memcpyFront (b : RecvBuffer) (src count : ℕ) : RecvBuffer where
  inbound_data_ := (b.inbound_data_.drop src).take count ++ b.inbound_data_.drop count
  next_rcv_valid_index_ := count

end RecvBuffer

/-- A call of `memcpy` within a buffer. -/
structure Memcpy where
  dest : ℕ
  src : ℕ
  count : ℕ
  deriving DecidableEq, Repr

/-- A byte is both read and written. -/
def Memcpy.Overlaps (m : Memcpy) : Prop :=
  ∃ k, (m.dest ≤ k ∧ k < m.dest + m.count) ∧ m.src ≤ k ∧ k < m.src + m.count

/-- The order server with its receive buffers.  The `inbound_data_` of `server` is not used. -/
structure BufferedServer where
  server : OrderServer
  buffers : ℕ → RecvBuffer
  /-- Every call of `memcpy` so far. -/
  memcpys : List Memcpy := []

namespace BufferedServer

/-- The loop of `recvCallback` from index `i` on, and where it stops. -/
def decode (socket : ℕ) (rx_time : ℤ) (buffer : RecvBuffer) (s : OrderServer) (i : ℕ) :
    Except Fault (OrderServer × ℕ) :=
  if i + OMClientRequest.size ≤ buffer.next_rcv_valid_index_ then do
    let s ← s.onRequest socket rx_time (buffer.request i)
    decode socket rx_time buffer s (i + OMClientRequest.size)
  else
    .ok (s, i)
termination_by buffer.next_rcv_valid_index_ - i
decreasing_by
  simp only [OMClientRequest.size] at *
  omega

/-- Read the client requests from the receive buffer of a socket. -/
def recvCallback (r : BufferedServer) (socket : ℕ) (rx_time : ℤ) : Except Fault BufferedServer :=
  let buffer := r.buffers socket
  if buffer.next_rcv_valid_index_ ≥ OMClientRequest.size then do
    let decoded ← decode socket rx_time buffer r.server 0
    -- the bytes of the record still incomplete are moved to the front
    let count := buffer.next_rcv_valid_index_ - decoded.2
    .ok {
      server := decoded.1
      buffers := Function.update r.buffers socket (buffer.memcpyFront decoded.2 count)
      memcpys := r.memcpys ++ [⟨0, decoded.2, count⟩] }
  else
    .ok r

/-- `sendAndRecv` reads `bytes` off a socket; the callback is only called if there are any. -/
def read (r : BufferedServer) (socket : ℕ) (rx_time : ℤ) (bytes : List UInt8) :
    Except Fault BufferedServer :=
  if bytes.length > 0 then
    ({ r with buffers := Function.update r.buffers socket ((r.buffers socket).recvmsg bytes) } :
      BufferedServer).recvCallback socket rx_time
  else
    .ok r

def step (r : BufferedServer) : Event → Except Fault BufferedServer
  | .read socket rx_time bytes => r.read socket rx_time bytes
  | .readFinished std_sort => .ok { r with server := r.server.recvFinishedCallback std_sort }

def run (r : BufferedServer) (events : List Event) : Except Fault BufferedServer :=
  events.foldlM step r

/-- `recvmsg` reads no more than the buffer has room for. -/
def HasRoom (r : BufferedServer) : Event → Prop
  | .read socket _ bytes => (r.buffers socket).next_rcv_valid_index_ + bytes.length ≤
      (r.buffers socket).inbound_data_.length
  | .readFinished _ => True

instance (r : BufferedServer) (event : Event) : Decidable (r.HasRoom event) :=
  match event with
  | .read _ _ _ => inferInstanceAs (Decidable (_ ≤ _))
  | .readFinished _ => inferInstanceAs (Decidable True)

/-- **Less than a record is left** in every buffer. -/
structure Ready (r : BufferedServer) : Prop where
  short : ∀ socket, (r.buffers socket).next_rcv_valid_index_ < OMClientRequest.size
  sized : ∀ socket,
    (r.buffers socket).next_rcv_valid_index_ ≤ (r.buffers socket).inbound_data_.length
  /-- No byte was read and written by one `memcpy`. -/
  apart : ∀ m ∈ r.memcpys, ¬ m.Overlaps

/-- The order server with the valid bytes. -/
def toServer (r : BufferedServer) : OrderServer :=
  { r.server with
    sockets := fun socket =>
      { r.server.sockets socket with inbound_data_ := (r.buffers socket).valid } }

/-! ## The loop -/

variable {r r' : BufferedServer} {socket : ℕ} {rx_time : ℤ} {buffer : RecvBuffer}
  {bytes : List UInt8} {s s' : OrderServer}

theorem length_valid (h : buffer.next_rcv_valid_index_ ≤ buffer.inbound_data_.length) :
    buffer.valid.length = buffer.next_rcv_valid_index_ :=
  List.length_take_of_le h

/-- A record that ends within the valid bytes is one of theirs. -/
theorem request_eq {i : ℕ} (h : i + OMClientRequest.size ≤ buffer.next_rcv_valid_index_) :
    buffer.request i = .ofBytes ((buffer.valid.drop i).take OMClientRequest.size) := by
  unfold RecvBuffer.request RecvBuffer.valid
  rw [List.drop_take, List.take_take, min_eq_left (by omega)]

/-- **The loop decodes the complete records** behind the index, and stops behind the last one;
induction on its iterations. -/
theorem decode_eq (h : buffer.next_rcv_valid_index_ ≤ buffer.inbound_data_.length)
    (s : OrderServer) (i : ℕ) :
    decode socket rx_time buffer s i =
      (records (buffer.valid.drop i)).foldlM (fun s x => s.onRequest socket rx_time x) s >>=
        fun s => .ok (s, i + (buffer.valid.length - i) / OMClientRequest.size *
          OMClientRequest.size) := by
  have hlength := length_valid h
  induction s, i using decode.induct buffer with
  | case1 s i hmore ih =>
    have htake : ((buffer.valid.drop i).take OMClientRequest.size).length =
        OMClientRequest.size := by
      rw [List.length_take, List.length_drop]
      omega
    have hrecords : records (buffer.valid.drop i) =
        buffer.request i :: records (buffer.valid.drop (i + OMClientRequest.size)) := by
      unfold records
      conv_lhs => rw [← List.take_append_drop OMClientRequest.size (buffer.valid.drop i)]
      rw [Lib.Wire.whole_record size_pos htake, List.drop_drop, List.map_cons, request_eq hmore]
    have hindex : i + OMClientRequest.size + (buffer.valid.length - (i + OMClientRequest.size)) /
          OMClientRequest.size * OMClientRequest.size =
        i + (buffer.valid.length - i) / OMClientRequest.size * OMClientRequest.size := by
      rw [Nat.div_eq_sub_div size_pos (show OMClientRequest.size ≤ buffer.valid.length - i by omega),
        Nat.sub_sub, Nat.add_one_mul]
      omega
    rw [decode, if_pos hmore, hrecords, List.foldlM_cons, bind_assoc]
    simp only [ih, hindex]
  | case2 s i hdone =>
    have hpos := size_pos
    have hnone : records (buffer.valid.drop i) = [] := by
      unfold records
      rw [Lib.Wire.whole_of_lt (by rw [List.length_drop]; omega)]
      rfl
    rw [decode, if_neg hdone, hnone, Nat.div_eq_of_lt (by omega), Nat.zero_mul]
    rfl

/-! ## The buffer -/

theorem valid_recvmsg (h : buffer.next_rcv_valid_index_ ≤ buffer.inbound_data_.length)
    (bytes : List UInt8) : (buffer.recvmsg bytes).valid = buffer.valid ++ bytes := by
  unfold RecvBuffer.valid RecvBuffer.recvmsg
  apply List.take_left'
  rw [List.length_append, List.length_take_of_le h]

theorem length_recvmsg
    (h : buffer.next_rcv_valid_index_ + bytes.length ≤ buffer.inbound_data_.length) :
    (buffer.recvmsg bytes).inbound_data_.length = buffer.inbound_data_.length := by
  simp only [RecvBuffer.recvmsg, List.length_append, List.length_take, List.length_drop]
  omega

/-- What is moved to the front are the valid bytes from `src` on. -/
theorem valid_memcpyFront {src : ℕ} (hsrc : src ≤ buffer.next_rcv_valid_index_)
    (h : buffer.next_rcv_valid_index_ ≤ buffer.inbound_data_.length) :
    (buffer.memcpyFront src (buffer.next_rcv_valid_index_ - src)).valid =
      buffer.valid.drop src := by
  unfold RecvBuffer.valid RecvBuffer.memcpyFront
  rw [List.drop_take]
  apply List.take_left'
  simp only [List.length_take, List.length_drop]
  omega

theorem length_memcpyFront {src : ℕ} (hsrc : src ≤ buffer.next_rcv_valid_index_)
    (h : buffer.next_rcv_valid_index_ ≤ buffer.inbound_data_.length) :
    (buffer.memcpyFront src (buffer.next_rcv_valid_index_ - src)).inbound_data_.length =
      buffer.inbound_data_.length := by
  simp only [RecvBuffer.memcpyFront, List.length_append, List.length_take, List.length_drop]
  omega

/-- Moving no more bytes to the front than lie before them. -/
theorem not_overlaps {src count : ℕ} (h : count ≤ src) : ¬ (Memcpy.mk 0 src count).Overlaps := by
  rintro ⟨k, ⟨-, hdest⟩, hsrc, -⟩
  simp only at hdest hsrc
  omega

/-- What `recvCallback` leaves in the buffer of its socket. -/
structure Compacted (r r' : BufferedServer) (socket : ℕ) : Prop where
  valid : (r'.buffers socket).valid =
    Lib.Wire.rest OMClientRequest.size (r.buffers socket).valid
  short : (r'.buffers socket).next_rcv_valid_index_ < OMClientRequest.size
  sized : (r'.buffers socket).next_rcv_valid_index_ ≤ (r'.buffers socket).inbound_data_.length
  others : ∀ socket', socket' ≠ socket → r'.buffers socket' = r.buffers socket'
  apart : (∀ m ∈ r.memcpys, ¬ m.Overlaps) → ∀ m ∈ r'.memcpys, ¬ m.Overlaps

/-- **One call of `recvCallback`**: the complete records are processed in turn, and what is left of
the valid bytes is moved to the front. -/
theorem recvCallback_spec (hsized : (r.buffers socket).next_rcv_valid_index_ ≤
      (r.buffers socket).inbound_data_.length)
    (h : r.recvCallback socket rx_time = .ok r') :
    (records (r.buffers socket).valid).foldlM (fun s x => s.onRequest socket rx_time x) r.server =
      .ok r'.server ∧ Compacted r r' socket := by
  have hlength := length_valid hsized
  have hpos := size_pos
  unfold recvCallback at h
  simp only at h
  split at h
  · rename_i hrecord
    obtain ⟨decoded, hdecode, h⟩ := bind_eq_ok.mp h
    obtain rfl := Except.ok.inj h
    rw [decode_eq hsized, List.drop_zero, Nat.sub_zero, Nat.zero_add] at hdecode
    obtain ⟨s₁, hrecords, hdecoded⟩ := bind_eq_ok.mp hdecode
    obtain rfl := Except.ok.inj hdecoded
    -- the loop stops less than a record before the end, behind at least one record
    have hsum := Nat.div_add_mod' (r.buffers socket).valid.length OMClientRequest.size
    have hleft := Nat.mod_lt (r.buffers socket).valid.length hpos
    have hone : 1 * OMClientRequest.size ≤
        (r.buffers socket).valid.length / OMClientRequest.size * OMClientRequest.size :=
      Nat.mul_le_mul_right _ ((Nat.one_le_div_iff hpos).mpr (by omega))
    refine ⟨hrecords, ?_, ?_, ?_, fun socket' hne => ?_, fun hbefore m hm => ?_⟩
    · simp only [Function.update_self]
      exact valid_memcpyFront (by omega) hsized
    · simp only [Function.update_self, RecvBuffer.memcpyFront]
      omega
    · simp only [Function.update_self]
      rw [length_memcpyFront (by omega) hsized]
      simp only [RecvBuffer.memcpyFront]
      omega
    · exact Function.update_of_ne hne ..
    · rcases List.mem_append.mp hm with hm | hm
      · exact hbefore m hm
      · rw [List.mem_singleton.mp hm]
        exact not_overlaps (by omega)
  · rename_i hshort
    obtain rfl := Except.ok.inj h
    have hlt : (r.buffers socket).valid.length < OMClientRequest.size := by omega
    refine ⟨?_, ?_, by omega, hsized, fun _ _ => rfl, fun hbefore => hbefore⟩
    · unfold records
      rw [Lib.Wire.whole_of_lt hlt]
      rfl
    · rw [Lib.Wire.rest_of_lt hlt]

/-! ## The order server with its lists of bytes -/

/-- A record is processed without a look at the buffers. -/
theorem onRequest_withSockets {request : OMClientRequest} (sockets : ℕ → TCPSocket)
    (h : s.onRequest socket rx_time request = .ok s') :
    ({ s with sockets := sockets } : OrderServer).onRequest socket rx_time request =
      .ok { s' with sockets := sockets } := by
  have hnoted : ({ s with sockets := sockets } : OrderServer).noted socket request =
      { s.noted socket request with sockets := sockets } := by
    unfold OrderServer.noted OrderServer.bindSocket
    simp only
    split
    · rfl
    · rfl
  unfold OrderServer.onRequest at h ⊢
  split at h
  · rename_i hclient
    rw [if_pos hclient]
    simp only [hnoted] at h ⊢
    split at h
    · rename_i hin
      rw [if_pos (show OrderServer.InSession { s.noted socket request with sockets := sockets }
        socket request from hin)]
      obtain ⟨fifo, hfifo, h⟩ := bind_eq_ok.mp h
      obtain rfl := Except.ok.inj h
      exact bind_eq_ok.mpr ⟨fifo, hfifo, rfl⟩
    · rename_i hout
      obtain rfl := Except.ok.inj h
      exact if_neg hout
  · cases h

theorem records_withSockets (sockets : ℕ → TCPSocket) {rs : List OMClientRequest} :
    ∀ {s : OrderServer}, rs.foldlM (fun s x => s.onRequest socket rx_time x) s = .ok s' →
      rs.foldlM (fun s x => s.onRequest socket rx_time x)
        ({ s with sockets := sockets } : OrderServer) = .ok { s' with sockets := sockets } := by
  induction rs with
  | nil =>
    intro s h
    cases h
    rfl
  | cons x rs ih =>
    intro s h
    obtain ⟨s₁, hstep, hrest⟩ := Lib.Runs.foldlM_cons_eq_ok.mp h
    exact Lib.Runs.foldlM_cons_eq_ok.mpr ⟨_, onRequest_withSockets sockets hstep, ih hrest⟩

theorem read_of_records {s₁ : OrderServer}
    (h : (records ((s.sockets socket).inbound_data_ ++ bytes)).foldlM
      (fun s x => s.onRequest socket rx_time x)
        (s.setInbound socket ((s.sockets socket).inbound_data_ ++ bytes)) = .ok s₁) :
    s.read socket rx_time bytes = .ok (s₁.setInbound socket
      (Lib.Wire.rest OMClientRequest.size ((s.sockets socket).inbound_data_ ++ bytes))) := by
  unfold OrderServer.read OrderServer.recvCallback
  rw [OrderServer.inbound_setInbound_self]
  exact bind_eq_ok.mpr ⟨_, h, rfl⟩

/-- **The order server does with its lists of bytes what this one does with its buffers.** -/
theorem toServer_step {event : Event} (hready : r.Ready) (hroom : r.HasRoom event)
    (h : r.step event = .ok r') : r.toServer.step event = .ok r'.toServer ∧ r'.Ready := by
  cases event with
  | readFinished std_sort =>
    obtain rfl := Except.ok.inj h
    exact ⟨rfl, hready.short, hready.sized, hready.apart⟩
  | read socket rx_time bytes =>
    have hvalid : (r.toServer.sockets socket).inbound_data_ = (r.buffers socket).valid := rfl
    change r.read socket rx_time bytes = _ at h
    change r.toServer.read socket rx_time bytes = _ ∧ _
    unfold read at h
    split at h
    · have hbuffer := valid_recvmsg (hready.sized socket) bytes
      have hlength := length_recvmsg hroom
      obtain ⟨hrecords, hleft⟩ := recvCallback_spec (by
        simp only [Function.update_self]
        rw [hlength]
        exact hroom) h
      simp only [Function.update_self, hbuffer] at hrecords
      have hrest := hleft.valid
      simp only [Function.update_self, hbuffer] at hrest
      obtain ⟨-, hsockets⟩ := OrderServer.received_records hrecords
      constructor
      · have hserver := records_withSockets (r.toServer.setInbound socket
          ((r.buffers socket).valid ++ bytes)).sockets hrecords
        refine (read_of_records hserver).trans (congrArg Except.ok ?_)
        rw [hvalid]
        unfold OrderServer.setInbound toServer
        simp only [OrderServer.mk.injEq, true_and, and_true]
        funext socket'
        by_cases hs : socket' = socket
        · subst hs
          simp [hrest, hsockets]
        · simp [Function.update_of_ne hs, hleft.others _ hs, hsockets]
      · refine ⟨fun socket' => ?_, fun socket' => ?_, hleft.apart hready.apart⟩
        · by_cases hs : socket' = socket
          · subst hs
            exact hleft.short
          · rw [hleft.others _ hs]
            simp only [Function.update_of_ne hs]
            exact hready.short socket'
        · by_cases hs : socket' = socket
          · subst hs
            exact hleft.sized
          · rw [hleft.others _ hs]
            simp only [Function.update_of_ne hs]
            exact hready.sized socket'
    · -- nothing was read
      rename_i hnone
      obtain rfl := Except.ok.inj h
      obtain rfl : bytes = [] := List.eq_nil_of_length_eq_zero (Nat.eq_zero_of_not_pos hnone)
      have hlt : (r.buffers socket).valid.length < OMClientRequest.size := by
        rw [length_valid (hready.sized socket)]
        exact hready.short socket
      have hnone : records ((r.toServer.sockets socket).inbound_data_ ++ []) = [] := by
        rw [List.append_nil, hvalid, records, Lib.Wire.whole_of_lt hlt]
        rfl
      refine ⟨(read_of_records (by rw [hnone]; rfl)).trans (congrArg Except.ok ?_), hready⟩
      rw [List.append_nil, hvalid, Lib.Wire.rest_of_lt hlt]
      unfold OrderServer.setInbound toServer
      simp only [OrderServer.mk.injEq, true_and, and_true]
      funext socket'
      by_cases hs : socket' = socket
      · subst hs
        simp
      · simp [Function.update_of_ne hs]

/-- And where the order server goes on, this one does. -/
theorem exists_step {event : Event} (hready : r.Ready) (hroom : r.HasRoom event)
    (h : r.toServer.step event = .ok s') : ∃ r', r.step event = .ok r' := by
  cases event with
  | readFinished std_sort => exact ⟨_, rfl⟩
  | read socket rx_time bytes =>
    show ∃ r', r.read socket rx_time bytes = .ok r'
    unfold read
    split
    · obtain ⟨s₁, hrecords, -⟩ := OrderServer.read_eq_ok h
      have hserver := records_withSockets r.server.sockets hrecords
      have hbuffer := valid_recvmsg (hready.sized socket) bytes
      have hlength := length_recvmsg hroom
      unfold recvCallback
      simp only [Function.update_self]
      split
      · rw [decode_eq (by rw [hlength]; exact hroom), hbuffer, List.drop_zero]
        have hdecoded : (records ((r.buffers socket).valid ++ bytes)).foldlM
            (fun s x => s.onRequest socket rx_time x) r.server =
          .ok { s₁ with sockets := r.server.sockets } := hserver
        rw [hdecoded]
        exact ⟨_, rfl⟩
      · exact ⟨_, rfl⟩
    · exact ⟨_, rfl⟩

theorem toServer_run {events : List Event} :
    ∀ {r : BufferedServer}, r.Ready → Along step HasRoom r events → r.run events = .ok r' →
      r.toServer.run events = .ok r'.toServer ∧ r'.Ready := by
  induction events with
  | nil =>
    intro r hready _ h
    cases h
    exact ⟨rfl, hready⟩
  | cons event events ih =>
    intro r hready hroom h
    obtain ⟨r₁, hstep, hrest⟩ := Lib.Runs.foldlM_cons_eq_ok.mp h
    obtain ⟨hserver, hready₁⟩ := toServer_step hready hroom.1 hstep
    obtain ⟨hserver', hready'⟩ := ih hready₁ (hroom.2 r₁ hstep) hrest
    exact ⟨Lib.Runs.foldlM_cons_eq_ok.mpr ⟨_, hserver, hserver'⟩, hready'⟩

/-! ## Two ways of cutting a stream -/

/-- Two servers agree on what came on `socket`, and on every client that is not in `others`. -/
structure Agree (others : ℕ → Prop) (socket : ℕ) (s t : OrderServer) : Prop where
  bound : ∀ c, ¬ others c → s.cid_tcp_socket_ c = t.cid_tcp_socket_ c
  next : ∀ c, ¬ others c → s.cid_next_exp_seq_num_ c = t.cid_next_exp_seq_num_ c
  accepted : onSocket socket s.accepted = onSocket socket t.accepted

variable {others : ℕ → Prop} {t t' : OrderServer} {rx_time' : ℤ} {request : OMClientRequest}

/-- Where a client is bound once a record was noted. -/
theorem bound_noted_eq (s : OrderServer) (socket : ℕ) (request : OMClientRequest) (c : ℕ) :
    (s.noted socket request).cid_tcp_socket_ c =
      if c = request.me_client_request_.client_id_ then (s.cid_tcp_socket_ c).or (some socket)
      else s.cid_tcp_socket_ c := by
  by_cases hc : c = request.me_client_request_.client_id_
  · subst hc
    rw [if_pos rfl]
    cases hbound : s.cid_tcp_socket_ request.me_client_request_.client_id_ with
    | none =>
      rw [OrderServer.socket_noted_of_none hbound, Function.update_self]
      rfl
    | some k =>
      rw [OrderServer.socket_noted_of_bound hbound, hbound]
      rfl
  · rw [if_neg hc]
    cases hbound : s.cid_tcp_socket_ request.me_client_request_.client_id_ with
    | none => rw [OrderServer.socket_noted_of_none hbound, Function.update_of_ne hc]
    | some k => rw [OrderServer.socket_noted_of_bound hbound]

/-- The effect of a record on the tables and on the accepted requests. -/
theorem onRequest_effect (h : s.onRequest socket rx_time request = .ok s') :
    s'.cid_tcp_socket_ = (s.noted socket request).cid_tcp_socket_ ∧
    (((s.noted socket request).InSession socket request ∧
        s'.accepted = s.accepted ++ [⟨socket, request⟩] ∧
        s'.cid_next_exp_seq_num_ = Function.update s.cid_next_exp_seq_num_
          request.me_client_request_.client_id_
          (s.cid_next_exp_seq_num_ request.me_client_request_.client_id_ + 1)) ∨
      (¬ (s.noted socket request).InSession socket request ∧ s'.accepted = s.accepted ∧
        s'.cid_next_exp_seq_num_ = s.cid_next_exp_seq_num_)) := by
  obtain ⟨-, ⟨hout, rfl⟩ | ⟨hin, haccept⟩⟩ := OrderServer.onRequest_cases h
  · exact ⟨rfl, .inr ⟨hout, OrderServer.accepted_noted, OrderServer.next_exp_noted⟩⟩
  · obtain ⟨-, hsocket, -, haccepted, hnext, -⟩ := OrderServer.accept_eq_ok haccept
    rw [OrderServer.accepted_noted] at haccepted
    rw [OrderServer.next_exp_noted] at hnext
    exact ⟨hsocket, .inl ⟨hin, haccepted, hnext⟩⟩

/-- Both servers process a record of the stream, each in its own call. -/
theorem Agree.own (hagree : Agree others socket s t)
    (hclient : ¬ others request.me_client_request_.client_id_)
    (hs : s.onRequest socket rx_time request = .ok s')
    (ht : t.onRequest socket rx_time' request = .ok t') : Agree others socket s' t' := by
  have hbound : ∀ c, ¬ others c → (s.noted socket request).cid_tcp_socket_ c =
      (t.noted socket request).cid_tcp_socket_ c := by
    intro c hc
    rw [bound_noted_eq, bound_noted_eq, hagree.bound c hc]
  have hin : (s.noted socket request).InSession socket request ↔
      (t.noted socket request).InSession socket request := by
    unfold OrderServer.InSession
    rw [hbound _ hclient, OrderServer.next_exp_noted, OrderServer.next_exp_noted,
      hagree.next _ hclient]
  obtain ⟨hsocket, hs⟩ := onRequest_effect hs
  obtain ⟨hsocket', ht⟩ := onRequest_effect ht
  refine ⟨fun c hc => by rw [hsocket, hsocket']; exact hbound c hc, ?_, ?_⟩
  · intro c hc
    rcases hs with ⟨hsin, -, hnext⟩ | ⟨hsout, -, hnext⟩
    · rcases ht with ⟨-, -, hnext'⟩ | ⟨htout, -, -⟩
      · rw [hnext, hnext', hagree.next _ hclient]
        by_cases heq : c = request.me_client_request_.client_id_
        · rw [heq, Function.update_self, Function.update_self]
        · rw [Function.update_of_ne heq, Function.update_of_ne heq]
          exact hagree.next c hc
      · exact absurd (hin.mp hsin) htout
    · rcases ht with ⟨htin, -, -⟩ | ⟨-, -, hnext'⟩
      · exact absurd (hin.mpr htin) hsout
      · rw [hnext, hnext']
        exact hagree.next c hc
  · rcases hs with ⟨hsin, hlog, -⟩ | ⟨hsout, hlog, -⟩
    · rcases ht with ⟨-, hlog', -⟩ | ⟨htout, -, -⟩
      · rw [hlog, hlog', OrderServer.onSocket_append, OrderServer.onSocket_append,
          hagree.accepted]
      · exact absurd (hin.mp hsin) htout
    · rcases ht with ⟨htin, -, -⟩ | ⟨-, hlog', -⟩
      · exact absurd (hin.mpr htin) hsout
      · rw [hlog, hlog']
        exact hagree.accepted

/-- A record of another socket does not matter. -/
theorem Agree.other {socket' : ℕ} (hagree : Agree others socket s t) (hne : socket' ≠ socket)
    (hclient : others request.me_client_request_.client_id_)
    (hs : s.onRequest socket' rx_time request = .ok s') : Agree others socket s' t := by
  have hapart : ∀ c, ¬ others c → c ≠ request.me_client_request_.client_id_ := by
    rintro c hc rfl
    exact hc hclient
  obtain ⟨hsocket, hs⟩ := onRequest_effect hs
  refine ⟨fun c hc => ?_, fun c hc => ?_, ?_⟩
  · rw [hsocket, bound_noted_eq, if_neg (hapart c hc)]
    exact hagree.bound c hc
  · rcases hs with ⟨-, -, hnext⟩ | ⟨-, -, hnext⟩
    · rw [hnext, Function.update_of_ne (hapart c hc)]
      exact hagree.next c hc
    · rw [hnext]
      exact hagree.next c hc
  · rw [← hagree.accepted]
    rcases hs with ⟨-, hlog, -⟩ | ⟨-, hlog, -⟩
    · rw [hlog, OrderServer.onSocket_append]
      have hnil : onSocket socket [⟨socket', request⟩] = [] :=
        OrderServer.onSocket_map_ne hne.symm [request]
      rw [hnil, List.append_nil]
    · rw [hlog]

theorem Agree.ownRecords {rs : List OMClientRequest} :
    ∀ {s t : OrderServer}, Agree others socket s t →
      (∀ x ∈ rs, ¬ others x.me_client_request_.client_id_) →
      rs.foldlM (fun s x => s.onRequest socket rx_time x) s = .ok s' →
      rs.foldlM (fun s x => s.onRequest socket rx_time' x) t = .ok t' →
        Agree others socket s' t' := by
  induction rs with
  | nil =>
    intro s t hagree _ hs ht
    cases hs
    cases ht
    exact hagree
  | cons x rs ih =>
    intro s t hagree hclients hs ht
    obtain ⟨hx, hclients⟩ := List.forall_mem_cons.mp hclients
    obtain ⟨s₁, hstep, hs⟩ := Lib.Runs.foldlM_cons_eq_ok.mp hs
    obtain ⟨t₁, hstep', ht⟩ := Lib.Runs.foldlM_cons_eq_ok.mp ht
    exact ih (hagree.own hx hstep hstep') hclients hs ht

theorem Agree.otherRecords {socket' : ℕ} (hne : socket' ≠ socket) {rs : List OMClientRequest} :
    ∀ {s : OrderServer}, Agree others socket s t →
      (∀ x ∈ rs, others x.me_client_request_.client_id_) →
      rs.foldlM (fun s x => s.onRequest socket' rx_time x) s = .ok s' →
        Agree others socket s' t := by
  induction rs with
  | nil =>
    intro s hagree _ hs
    cases hs
    exact hagree
  | cons x rs ih =>
    intro s hagree hclients hs
    obtain ⟨hx, hclients⟩ := List.forall_mem_cons.mp hclients
    obtain ⟨s₁, hstep, hs⟩ := Lib.Runs.foldlM_cons_eq_ok.mp hs
    exact ih (hagree.other hne hx hstep) hclients hs

theorem Agree.setInbound (hagree : Agree others socket s t) (socket' : ℕ) (bytes : List UInt8) :
    Agree others socket (s.setInbound socket' bytes) t :=
  ⟨hagree.bound, hagree.next, hagree.accepted⟩

/-- What a read leaves in the buffers. -/
theorem inbound_read (h : s.read socket rx_time bytes = .ok s') (socket' : ℕ) :
    (s'.sockets socket').inbound_data_ = if socket' = socket then
      Lib.Wire.rest OMClientRequest.size ((s.sockets socket).inbound_data_ ++ bytes)
    else (s.sockets socket').inbound_data_ := by
  obtain ⟨s₁, hrecords, rfl⟩ := OrderServer.read_eq_ok h
  obtain ⟨-, hsockets⟩ := OrderServer.received_records hrecords
  by_cases hs : socket' = socket
  · subst hs
    rw [if_pos rfl, OrderServer.inbound_setInbound_self]
  · rw [if_neg hs, OrderServer.sockets_setInbound_ne _ hs, hsockets,
      OrderServer.sockets_setInbound_ne _ hs]

/-- The records still to come after a read of `bytes` are those behind the ones it completes. -/
theorem records_read (inbound bytes more : List UInt8) :
    records (inbound ++ (bytes ++ more)) = records (inbound ++ bytes) ++
      records (Lib.Wire.rest OMClientRequest.size (inbound ++ bytes) ++ more) := by
  rw [← List.append_assoc, OrderServer.records_append]

/-- **A server that reads the stream piece by piece agrees with one that processes its records at
once**; induction on the events. -/
theorem Agree.run {events : List Event} :
    ∀ {s t : OrderServer}, Agree others socket s t →
      (s.sockets socket).inbound_data_.length < OMClientRequest.size →
      (∀ k, k ≠ socket → ∀ x ∈ records ((s.sockets k).inbound_data_ ++ bytesOn k events),
        others x.me_client_request_.client_id_) →
      (∀ x ∈ records ((s.sockets socket).inbound_data_ ++ bytesOn socket events),
        ¬ others x.me_client_request_.client_id_) →
      s.run events = .ok s' →
      (records ((s.sockets socket).inbound_data_ ++ bytesOn socket events)).foldlM
        (fun s x => s.onRequest socket rx_time' x) t = .ok t' → Agree others socket s' t' := by
  induction events with
  | nil =>
    intro s t hagree hshort _ _ hs ht
    cases hs
    -- less than a record is left, so nothing was still to come
    have hnone : records ((s'.sockets socket).inbound_data_ ++ bytesOn socket []) = [] := by
      unfold records
      rw [Lib.Wire.whole_of_lt (by simpa [bytesOn] using hshort)]
      rfl
    rw [hnone] at ht
    cases ht
    exact hagree
  | cons event events ih =>
    intro s t hagree hshort hothers hown hs ht
    obtain ⟨s₁, hstep, hs⟩ := Lib.Runs.foldlM_cons_eq_ok.mp hs
    cases event with
    | readFinished std_sort =>
      obtain rfl := Except.ok.inj hstep
      exact ih (s := s.recvFinishedCallback std_sort)
        ⟨hagree.bound, hagree.next, hagree.accepted⟩ hshort hothers hown hs ht
    | read k rx_time bytes =>
      have hinbound := inbound_read hstep
      have hcons : ∀ k', bytesOn k' (.read k rx_time bytes :: events) =
          (if k = k' then bytes else []) ++ bytesOn k' events := fun _ => rfl
      obtain ⟨s₂, hrecords, rfl⟩ := OrderServer.read_eq_ok hstep
      -- the records of the other sockets still to come
      have hlater : ∀ k', k' ≠ socket → ∀ x ∈ records (((s₂.setInbound k
          (Lib.Wire.rest OMClientRequest.size ((s.sockets k).inbound_data_ ++ bytes))).sockets
            k').inbound_data_ ++ bytesOn k' events), others x.me_client_request_.client_id_ := by
        intro k' hk' x hx
        refine hothers k' hk' x ?_
        rw [hinbound] at hx
        rw [hcons]
        by_cases hkk : k = k'
        · subst hkk
          rw [if_pos rfl] at hx ⊢
          rw [records_read]
          exact List.mem_append_right _ hx
        · rw [if_neg (Ne.symm hkk)] at hx
          rwa [if_neg hkk, List.nil_append]
      rw [hcons] at hown ht
      by_cases hk : k = socket
      · -- the socket itself: both servers process the records this read completes
        subst hk
        rw [if_pos rfl, records_read] at hown ht
        obtain ⟨t₁, hfirst, ht⟩ := Lib.Runs.foldlM_append_eq_ok.mp ht
        have hagree₂ := (hagree.setInbound k _).ownRecords
          (fun x hx => hown x (List.mem_append_left _ hx)) hrecords hfirst
        have hself := hinbound k
        rw [if_pos rfl] at hself
        refine ih (hagree₂.setInbound k _) ?_ hlater ?_ hs ?_
        · rw [hself]
          exact Lib.Wire.length_rest_lt size_pos
        · rw [hself]
          exact fun x hx => hown x (List.mem_append_right _ hx)
        · rwa [hself]
      · -- another socket: only the first server sees its records
        rw [if_neg hk, List.nil_append] at hown ht
        have hclients : ∀ x ∈ records ((s.sockets k).inbound_data_ ++ bytes),
            others x.me_client_request_.client_id_ := by
          intro x hx
          refine hothers k hk x ?_
          rw [hcons, if_pos rfl, records_read]
          exact List.mem_append_left _ hx
        have hagree₂ := (hagree.setInbound k _).otherRecords hk hclients hrecords
        have hself := hinbound socket
        rw [if_neg (Ne.symm hk)] at hself
        refine ih (hagree₂.setInbound k _) ?_ hlater ?_ hs ?_
        · rwa [hself]
        · rwa [hself]
        · rwa [hself]

/-! ## Runs -/

/-- The records that arrive on a socket in a run. -/
def arriving (r : BufferedServer) (socket : ℕ) (events : List Event) : List OMClientRequest :=
  records ((r.buffers socket).valid ++ bytesOn socket events)

/-- What a run leaves of the bytes of a socket, and the records it took off them. -/
theorem inbound_run (socket : ℕ) {events : List Event} :
    ∀ {s : OrderServer}, (s.sockets socket).inbound_data_.length < OMClientRequest.size →
      s.run events = .ok s' →
      (s'.sockets socket).inbound_data_ = Lib.Wire.rest OMClientRequest.size
          ((s.sockets socket).inbound_data_ ++ bytesOn socket events) ∧
        onSocket socket s'.received = onSocket socket s.received ++
          records ((s.sockets socket).inbound_data_ ++ bytesOn socket events) := by
  induction events with
  | nil =>
    intro s hshort hs
    cases hs
    have hnil : (s'.sockets socket).inbound_data_ ++ bytesOn socket [] =
        (s'.sockets socket).inbound_data_ := List.append_nil _
    unfold records
    rw [hnil, Lib.Wire.rest_of_lt hshort, Lib.Wire.whole_of_lt hshort]
    exact ⟨rfl, (List.append_nil _).symm⟩
  | cons event events ih =>
    intro s hshort hs
    obtain ⟨s₁, hstep, hs⟩ := Lib.Runs.foldlM_cons_eq_ok.mp hs
    cases event with
    | readFinished std_sort =>
      obtain rfl := Except.ok.inj hstep
      exact ih (s := s.recvFinishedCallback std_sort) hshort hs
    | read k rx_time bytes =>
      have hinbound := inbound_read hstep socket
      have hcons : bytesOn socket (.read k rx_time bytes :: events) =
          (if k = socket then bytes else []) ++ bytesOn socket events := rfl
      obtain ⟨s₂, hrecords, rfl⟩ := OrderServer.read_eq_ok hstep
      obtain ⟨hlog, -⟩ := OrderServer.received_records hrecords
      rw [hcons]
      by_cases hk : k = socket
      · subst hk
        rw [if_pos rfl] at hinbound ⊢
        -- what is left is shorter than a record, as before the read
        obtain ⟨hleft, hreceived⟩ := ih (by
          rw [hinbound]
          exact Lib.Wire.length_rest_lt size_pos) hs
        rw [hinbound] at hleft hreceived
        rw [hleft, hreceived, records_read]
        refine ⟨?_, ?_⟩
        · rw [← Lib.Wire.rest_append size_pos, List.append_assoc]
        · rw [← List.append_assoc]
          refine congrArg (· ++ _) ?_
          show onSocket k s₂.received = _
          rw [hlog, OrderServer.onSocket_append, OrderServer.onSocket_map_self]
          rfl
      · rw [if_neg (Ne.symm hk)] at hinbound
        obtain ⟨hleft, hreceived⟩ := ih (by rwa [hinbound]) hs
        rw [hinbound] at hleft hreceived
        rw [if_neg hk, List.nil_append, hleft, hreceived]
        refine ⟨rfl, congrArg (· ++ _) ?_⟩
        show onSocket socket s₂.received = _
        rw [hlog, OrderServer.onSocket_append, OrderServer.onSocket_map_ne (Ne.symm hk),
          List.append_nil]
        rfl

theorem short_toServer (hready : r.Ready) (k : ℕ) :
    (r.toServer.sockets k).inbound_data_.length < OMClientRequest.size := by
  show (r.buffers k).valid.length < _
  rw [length_valid (hready.sized k)]
  exact hready.short k

/-- The valid bytes of a new connection. -/
theorem valid_new (hnew : (r.buffers socket).next_rcv_valid_index_ = 0) :
    (r.toServer.sockets socket).inbound_data_ = [] := by
  show (r.buffers socket).valid = []
  unfold RecvBuffer.valid
  rw [hnew, List.take_zero]

/-- **It makes no difference how the stream of a client is cut.**  A server that reads it in
pieces, among other events, and one that reads it at once, into a buffer that is large enough,
accept the same requests from it and count them alike. -/
theorem cut_run (socket : ℕ) (rx_time : ℤ) {r r' r₁ r₁' : BufferedServer} {events : List Event}
    (hready : r.Ready)
    (hnew : (r.buffers socket).next_rcv_valid_index_ = 0)
    (hroom : Along step HasRoom r events) (hrun : r.run events = .ok r')
    (hserver : r₁.server = r.server) (hready₁ : r₁.Ready)
    (hnew₁ : (r₁.buffers socket).next_rcv_valid_index_ = 0)
    (hroom₁ : r₁.HasRoom (.read socket rx_time (bytesOn socket events)))
    (hone : r₁.read socket rx_time (bytesOn socket events) = .ok r₁')
    (hapart : ∀ k, k ≠ socket → ∀ x ∈ r.arriving k events, ∀ y ∈ r.arriving socket events,
      x.me_client_request_.client_id_ ≠ y.me_client_request_.client_id_) :
    onSocket socket r'.server.accepted = onSocket socket r₁'.server.accepted ∧
      (∀ c, (∀ k, k ≠ socket → ∀ x ∈ r.arriving k events, x.me_client_request_.client_id_ ≠ c) →
        r'.server.cid_tcp_socket_ c = r₁'.server.cid_tcp_socket_ c ∧
          r'.server.cid_next_exp_seq_num_ c = r₁'.server.cid_next_exp_seq_num_ c) ∧
      onSocket socket r'.server.received = onSocket socket r.server.received ++
        (Lib.Wire.whole OMClientRequest.size (bytesOn socket events)).map OMClientRequest.ofBytes ∧
      ∀ past r'', past <+: events → r.run past = .ok r'' →
        (r''.buffers socket).valid = Lib.Wire.rest OMClientRequest.size (bytesOn socket past) ∧
          (∀ k, (r''.buffers k).valid.length < OMClientRequest.size) ∧
          ∀ m ∈ r''.memcpys, ¬ m.Overlaps := by
  obtain ⟨hs, -⟩ := toServer_run hready hroom hrun
  obtain ⟨ht, -⟩ := toServer_step hready₁ hroom₁ hone
  obtain ⟨t, hrecords, ht⟩ := OrderServer.read_eq_ok ht
  -- the two servers start alike, and the other sockets' clients are not this one's
  have hagree₀ : Agree (fun c => ∃ k, k ≠ socket ∧ ∃ x ∈ r.arriving k events,
      x.me_client_request_.client_id_ = c) socket r.toServer (r₁.toServer.setInbound socket
        ((r₁.toServer.sockets socket).inbound_data_ ++ bytesOn socket events)) := by
    refine ⟨fun c _ => ?_, fun c _ => ?_, ?_⟩
    · show r.server.cid_tcp_socket_ c = r₁.server.cid_tcp_socket_ c
      rw [hserver]
    · show r.server.cid_next_exp_seq_num_ c = r₁.server.cid_next_exp_seq_num_ c
      rw [hserver]
    · show onSocket socket r.server.accepted = onSocket socket r₁.server.accepted
      rw [hserver]
  have hstream : (r₁.toServer.sockets socket).inbound_data_ ++ bytesOn socket events =
      (r.toServer.sockets socket).inbound_data_ ++ bytesOn socket events := by
    rw [valid_new hnew, valid_new hnew₁]
  rw [hstream] at hrecords hagree₀
  have hagree := hagree₀.run (short_toServer hready socket)
    (fun k hk x hx => ⟨k, hk, x, hx, rfl⟩)
    (fun y hy => by
      rintro ⟨k, hk, x, hx, heq⟩
      exact hapart k hk x hx y hy heq) hs hrecords
  have haccepted : r₁'.toServer.accepted = t.accepted := by
    rw [ht]
    rfl
  have hbound : r₁'.toServer.cid_tcp_socket_ = t.cid_tcp_socket_ := by
    rw [ht]
    rfl
  have hnext : r₁'.toServer.cid_next_exp_seq_num_ = t.cid_next_exp_seq_num_ := by
    rw [ht]
    rfl
  refine ⟨?accepted, fun c hc => ⟨?bound, ?next⟩, ?received, fun past r'' hpast hrun'' => ?left⟩
  case accepted =>
    exact hagree.accepted.trans (congrArg (onSocket socket) haccepted.symm)
  case bound =>
    refine (hagree.bound c ?_).trans (congrFun hbound.symm c)
    rintro ⟨k, hk, x, hx, heq⟩
    exact hc k hk x hx heq
  case next =>
    refine (hagree.next c ?_).trans (congrFun hnext.symm c)
    rintro ⟨k, hk, x, hx, heq⟩
    exact hc k hk x hx heq
  case received =>
    obtain ⟨-, hlog⟩ := inbound_run socket (short_toServer hready socket) hs
    rw [valid_new hnew, List.nil_append] at hlog
    exact hlog
  case left =>
    obtain ⟨later, rfl⟩ := hpast
    have hroom' : Along step HasRoom r past := ((Lib.Runs.along_append hrun'').mp hroom).1
    obtain ⟨hs'', hready''⟩ := toServer_run hready hroom' hrun''
    obtain ⟨hleft, -⟩ := inbound_run socket (short_toServer hready socket) hs''
    rw [valid_new hnew, List.nil_append] at hleft
    exact ⟨hleft, fun k => short_toServer hready'' k, hready''.apart⟩

/-- A server with receive buffers of `size` bytes. -/
def new (size : ℕ) : BufferedServer where
  server := .new
  buffers := fun _ => .empty (List.replicate size 0)

/-- The stream of client 7: a record, one with a wrong number, and half of one. -/
def twoRecords : List UInt8 :=
  Lib.Wire.toBytes 8 1 ++ [1] ++ Lib.Wire.toBytes 4 7 ++ List.replicate 25 0 ++
    (Lib.Wire.toBytes 8 5 ++ [1] ++ Lib.Wire.toBytes 4 7 ++ List.replicate 25 0) ++
    List.replicate 19 0

/-- It arrives in two pieces, cut within the first record. -/
def twoReads : List Event := [.read 3 10 (twoRecords.take 30), .read 3 20 (twoRecords.drop 30)]

theorem ready_new (size : ℕ) : (new size).Ready where
  short := fun _ => size_pos
  sized := fun _ => Nat.zero_le _
  apart := fun _ hm => absurd hm List.not_mem_nil

/-- The first record is accepted, the second one is not, and 19 bytes are left, as when all of it
arrives in one read. -/
theorem cut_run_twoReads :
    ∃ r' r₁', (new 100).run twoReads = .ok r' ∧ (new 100).read 3 30 twoRecords = .ok r₁' ∧
      onSocket 3 r'.server.accepted = onSocket 3 r₁'.server.accepted ∧
      (r'.buffers 3).valid = List.replicate 19 0 := by
  obtain ⟨r', hrun⟩ := exists_ok_of_isOk (show ((new 100).run twoReads).isOk = true by
    decide +kernel)
  obtain ⟨r₁', hone⟩ := exists_ok_of_isOk (show ((new 100).read 3 30 twoRecords).isOk = true by
    decide +kernel)
  have hbytes : bytesOn 3 twoReads = twoRecords := by decide
  have hothers : ∀ k, k ≠ 3 → (new 100).arriving k twoReads = [] := by
    intro k hk
    simp [arriving, new, RecvBuffer.empty, RecvBuffer.valid, bytesOn, twoReads, Ne.symm hk]
    rfl
  obtain ⟨haccepted, -, -, hleft⟩ := cut_run 3 30 (ready_new 100) rfl
    (by decide +kernel : Along step HasRoom (new 100) twoReads) hrun rfl (ready_new 100) rfl
    (by decide +kernel) (by rw [hbytes]; exact hone) fun k hk x hx => by
      rw [hothers k hk] at hx
      cases hx
  obtain ⟨hvalid, -⟩ := hleft twoReads r' List.prefix_rfl hrun
  refine ⟨r', r₁', hrun, hone, haccepted, ?_⟩
  rw [hvalid]
  decide +kernel

end BufferedServer

end TradingEcosystem
