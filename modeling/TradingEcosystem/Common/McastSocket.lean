import TradingEcosystem.Common.WireFormat

/-!
# Multicast Sockets

`common/mcast_socket.{h,cpp}`: a non-blocking UDP socket with a buffer for each direction.

A buffer is the part of it below its index.  `sendAndRecv` hands the whole send buffer to the system
as one datagram and empties it whatever the system answers: `sent` lists the datagrams handed over,
and which of them arrive is up to the network.

- `McastSocket.send`, `McastSocket.flush`, `McastSocket.recv` : the code
- `McastSocket.Packed` : a socket whose buffer and datagrams hold whole records
-/

namespace TradingEcosystem

/-- Size of the send and receive buffers in bytes. -/
def McastBufferSize : ℕ := 64 * 1024 * 1024

structure McastSocket where
  outbound_data_ : List UInt8 := []
  inbound_data_ : List UInt8 := []
  sent : List (List UInt8) := []
  deriving DecidableEq, Repr

namespace McastSocket

/-- Copy data to the send buffer, and ASSERT that it is not full then. -/
def send (s : McastSocket) (data : List UInt8) : Except Fault McastSocket :=
  if s.outbound_data_.length + data.length < McastBufferSize then
    .ok { s with outbound_data_ := s.outbound_data_ ++ data }
  else if s.outbound_data_.length + data.length = McastBufferSize then
    .error .assert
  else
    -- the copy itself ends past the buffer
    .error .outOfRange

/-- The second half of `sendAndRecv`: what the send buffer holds goes out as one datagram. -/
def flush (s : McastSocket) : McastSocket :=
  if s.outbound_data_.length > 0 then
    { s with outbound_data_ := [], sent := s.sent ++ [s.outbound_data_] }
  else s

/-- The `recv` of the first half: what does not fit of a datagram is lost. -/
def recv (s : McastSocket) (datagram : List UInt8) : McastSocket :=
  { s with
    inbound_data_ :=
      s.inbound_data_ ++ datagram.take (McastBufferSize - s.inbound_data_.length) }

/-! ## Whole records -/

/-- Records one behind the other. -/
def encode (records : List MDPMarketUpdate) : List UInt8 := records.flatMap MDPMarketUpdate.toBytes

theorem encode_append (records records' : List MDPMarketUpdate) :
    encode (records ++ records') = encode records ++ encode records' :=
  List.flatMap_append

theorem length_encode (records : List MDPMarketUpdate) :
    (encode records).length = records.length * MDPMarketUpdate.size := by
  induction records with
  | nil => exact (Nat.zero_mul _).symm
  | cons m records ih =>
    show (m.toBytes ++ encode records).length = _
    rw [List.length_append, m.length_toBytes, ih, List.length_cons, Nat.succ_mul, Nat.add_comm]

theorem encode_eq_nil {records : List MDPMarketUpdate} : encode records = [] ↔ records = [] := by
  rw [← List.length_eq_zero_iff, length_encode, ← List.length_eq_zero_iff]
  unfold MDPMarketUpdate.size
  omega

/-- The records of a buffer that holds no others. -/
theorem whole_encode (records : List MDPMarketUpdate) :
    Lib.Wire.whole MDPMarketUpdate.size (encode records) =
      records.map MDPMarketUpdate.toBytes := by
  apply Lib.Wire.whole_of_flatten (by decide)
  intro r hr
  obtain ⟨m, -, rfl⟩ := List.mem_map.mp hr
  exact m.length_toBytes

theorem rest_encode (records : List MDPMarketUpdate) :
    Lib.Wire.rest MDPMarketUpdate.size (encode records) = [] := by
  unfold Lib.Wire.rest
  rw [length_encode, Nat.mul_div_cancel _ (by decide), ← length_encode, List.drop_length]

/-- Since `before` the socket has sent `parts`, and `pending` is still in its buffer. -/
structure Packed (before s : McastSocket) (parts : List (List MDPMarketUpdate))
    (pending : List MDPMarketUpdate) : Prop where
  outbound : s.outbound_data_ = encode pending
  sent : s.sent = before.sent ++ parts.map encode

variable {before s : McastSocket} {parts : List (List MDPMarketUpdate)}
  {pending : List MDPMarketUpdate}

theorem packed_refl (h : s.outbound_data_ = []) : Packed s s [] [] where
  outbound := h
  sent := (List.append_nil _).symm

/-- Sending more data, when the buffer has room for it. -/
theorem send_of_lt {data : List UInt8}
    (h : s.outbound_data_.length + data.length < McastBufferSize) :
    s.send data = .ok { s with outbound_data_ := s.outbound_data_ ++ data } :=
  if_pos h

theorem send_error {data : List UInt8}
    (h : McastBufferSize ≤ s.outbound_data_.length + data.length) :
    ∃ fault, s.send data = .error fault := by
  unfold send
  rw [if_neg (Nat.not_lt.mpr h)]
  split
  · exact ⟨_, rfl⟩
  · exact ⟨_, rfl⟩

theorem Packed.send (h : Packed before s parts pending) (m : MDPMarketUpdate)
    (hroom : (pending.length + 1) * MDPMarketUpdate.size < McastBufferSize) :
    ∃ s', s.send m.toBytes = .ok s' ∧ Packed before s' parts (pending ++ [m]) := by
  have hlen : s.outbound_data_.length + m.toBytes.length < McastBufferSize := by
    rw [h.outbound, length_encode, m.length_toBytes, ← Nat.succ_mul]
    exact hroom
  refine ⟨_, send_of_lt hlen, ?_, h.sent⟩
  show s.outbound_data_ ++ m.toBytes = _
  rw [h.outbound, encode_append]
  exact congrArg _ (List.append_nil _).symm

theorem Packed.flush (h : Packed before s parts pending) :
    Packed before s.flush (parts ++ if pending = [] then [] else [pending]) [] := by
  unfold McastSocket.flush
  by_cases hnil : pending = []
  · subst hnil
    have hout : s.outbound_data_ = [] := h.outbound
    rw [if_neg (by rw [hout]; exact Nat.lt_irrefl 0), if_pos rfl, List.append_nil]
    exact h
  · have hne : s.outbound_data_ ≠ [] := by
      rw [h.outbound]
      exact fun heq => hnil (encode_eq_nil.mp heq)
    rw [if_pos (List.length_pos_iff.mpr hne), if_neg hnil]
    refine ⟨rfl, ?_⟩
    show s.sent ++ [s.outbound_data_] = _
    rw [h.sent, h.outbound, List.map_append, List.append_assoc]
    rfl

end McastSocket

end TradingEcosystem
