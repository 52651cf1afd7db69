import TradingEcosystem.Common.Types
import TradingEcosystem.Lib.Runs

/-!
# TCP Sockets

`common/tcp_socket.{h,cpp}`: a non-blocking socket with a buffer for each direction.

A buffer is the part of it below its index, so `outbound_data_` is what is still to be sent and
its length is `next_send_valid_index_`.  What `::send` accepts is appended to `wire`.

- `TCPSocket.outbound_conserved_iff` : the accepted and the pending bytes are all the bytes
  queued, exactly when the system accepted every buffer it was offered in full
-/

namespace TradingEcosystem

/-- Size of the send and receive buffers in bytes. -/
def TCPBufferSize : ℕ := 64 * 1024 * 1024

/-- The operating system's `send`: what it returns for each length it is asked to send. -/
structure SendSyscall where
  ret : ℕ → ℤ
  bounded : ∀ len, -1 ≤ ret len ∧ ret len ≤ len

namespace SendSyscall

/-- The whole buffer is accepted. -/
def all : SendSyscall where
  ret := fun len => len
  bounded := fun len => ⟨by omega, Int.le_refl _⟩

/-- Nothing is accepted: `EAGAIN`. -/
def none : SendSyscall where
  ret := fun _ => -1
  bounded := fun len => ⟨Int.le_refl _, by omega⟩

end SendSyscall

structure TCPSocket where
  outbound_data_ : List UInt8 := []
  inbound_data_ : List UInt8 := []
  /-- Everything the operating system accepted for sending so far. -/
  wire : List UInt8 := []
  deriving DecidableEq, Repr

namespace TCPSocket

/-- Write outgoing data to the send buffer. -/
def send (s : TCPSocket) (data : List UInt8) : Except Fault TCPSocket :=
  if s.outbound_data_.length + data.length ≤ TCPBufferSize then
    .ok { s with outbound_data_ := s.outbound_data_ ++ data }
  else
    .error .outOfRange

/-- The first half of `sendAndRecv`: `read` bytes arrive and the callback consumes some. -/
def recv (s : TCPSocket) (recv_callback : List UInt8 → List UInt8) (read : List UInt8) :
    TCPSocket :=
  if read.length > 0 then { s with inbound_data_ := recv_callback (s.inbound_data_ ++ read) }
  else s

/-- The second half: one call of the system's `send`, whose result is only logged, and the send
buffer is empty again. -/
def flush (s : TCPSocket) (os : SendSyscall) : TCPSocket :=
  { s with
    wire := s.wire ++ s.outbound_data_.take (os.ret s.outbound_data_.length).toNat
    outbound_data_ := [] }

/-- Publish outgoing data and read incoming data. -/
def sendAndRecv (s : TCPSocket) (recv_callback : List UInt8 → List UInt8) (read : List UInt8)
    (os : SendSyscall) : TCPSocket :=
  (s.recv recv_callback read).flush os

/-! ## Runs -/

/-- A call of one of the two operations of a socket. -/
inductive Op where
  | send (data : List UInt8)
  | sendAndRecv (read : List UInt8) (os : SendSyscall)

def step (recv_callback : List UInt8 → List UInt8) (s : TCPSocket) : Op → Except Fault TCPSocket
  | .send data => s.send data
  | .sendAndRecv read os => .ok (s.sendAndRecv recv_callback read os)

def run (recv_callback : List UInt8 → List UInt8) (s : TCPSocket) (ops : List Op) :
    Except Fault TCPSocket :=
  ops.foldlM (step recv_callback) s

/-- The data of an operation. -/
def Op.data : Op → List UInt8
  | .send data => data
  | .sendAndRecv _ _ => []

/-- The concatenation of all data passed to `send`. -/
def queuedBytes (ops : List Op) : List UInt8 := ops.flatMap Op.data

/-- The system takes the whole send buffer in this operation. -/
def Accepts (s : TCPSocket) : Op → Prop
  | .send _ => True
  | .sendAndRecv _ os => os.ret s.outbound_data_.length = s.outbound_data_.length

/-- The system takes the whole send buffer in every `sendAndRecv` that has something to send. -/
def AcceptsAll (recv_callback : List UInt8 → List UInt8) (s : TCPSocket) (ops : List Op) : Prop :=
  Lib.Runs.Along (step recv_callback) (fun s op => s.outbound_data_ ≠ [] → s.Accepts op) s ops

/-- The bytes sent and the bytes still to be sent. -/
def outbound (s : TCPSocket) : List UInt8 := s.wire ++ s.outbound_data_

variable {recv_callback : List UInt8 → List UInt8} {s s' : TCPSocket} {op : Op} {ops : List Op}

theorem outbound_send {data : List UInt8} (h : s.send data = .ok s') :
    s'.outbound = s.outbound ++ data := by
  unfold send at h
  split at h
  · obtain rfl := Except.ok.inj h
    exact (List.append_assoc ..).symm
  · cases h

@[simp] theorem outbound_recv (read : List UInt8) :
    (s.recv recv_callback read).outbound = s.outbound := by
  unfold recv
  split <;> rfl

@[simp] theorem outbound_data_recv (read : List UInt8) :
    (s.recv recv_callback read).outbound_data_ = s.outbound_data_ := by
  unfold recv
  split <;> rfl

/-- What a flush accepts is an initial part of what was pending. -/
theorem outbound_flush (os : SendSyscall) :
    (s.flush os).outbound = s.wire ++ s.outbound_data_.take (os.ret s.outbound_data_.length).toNat :=
  List.append_nil _

/-- One operation loses nothing, or it is a flush that the system did not take in full and
there are fewer bytes than were queued. -/
theorem outbound_step (h : s.step recv_callback op = .ok s') :
    ((s.outbound_data_ ≠ [] → s.Accepts op) ∧ s'.outbound = s.outbound ++ op.data) ∨
    (¬ (s.outbound_data_ ≠ [] → s.Accepts op) ∧
      s'.outbound.length < s.outbound.length + op.data.length) := by
  cases op with
  | send data => exact .inl ⟨fun _ => trivial, outbound_send h⟩
  | sendAndRecv read os =>
    obtain rfl := Except.ok.inj h
    have hout : (s.sendAndRecv recv_callback read os).outbound =
        s.wire ++ s.outbound_data_.take (os.ret s.outbound_data_.length).toNat := by
      unfold sendAndRecv
      rw [outbound_flush, outbound_data_recv]
      unfold recv
      split <;> rfl
    obtain ⟨hlower, hupper⟩ := os.bounded s.outbound_data_.length
    by_cases hall : s.outbound_data_ ≠ [] → s.Accepts (.sendAndRecv read os)
    · -- everything pending is taken
      refine .inl ⟨hall, ?_⟩
      rw [hout, Op.data, List.append_nil]
      apply congrArg (s.wire ++ ·)
      apply List.take_of_length_le
      by_cases hnil : s.outbound_data_ = []
      · simp [hnil]
      · have hret : os.ret s.outbound_data_.length = s.outbound_data_.length := hall hnil
        omega
    · -- something is left behind, and the flush drops it
      refine .inr ⟨hall, ?_⟩
      have hret : ¬ os.ret s.outbound_data_.length = s.outbound_data_.length :=
        fun hret => hall fun _ => hret
      have hpos : 0 < s.outbound_data_.length :=
        List.length_pos_iff.mpr fun hnil => hall fun hne => absurd hnil hne
      rw [hout]
      simp only [outbound, Op.data, List.length_append, List.length_take, List.length_nil]
      omega

/-- Bytes are only ever lost; induction on the operations. -/
theorem length_outbound_le :
    ∀ {s : TCPSocket}, s.run recv_callback ops = .ok s' →
      s'.outbound.length ≤ s.outbound.length + (queuedBytes ops).length := by
  induction ops with
  | nil =>
    intro s h
    obtain rfl := Except.ok.inj h
    exact Nat.le_refl _
  | cons op ops ih =>
    intro s h
    obtain ⟨s₁, hstep, hrun⟩ := Lib.Runs.foldlM_cons_eq_ok.mp h
    have hrest := ih hrun
    have hqueued : (queuedBytes (op :: ops)).length = op.data.length + (queuedBytes ops).length :=
      List.length_append
    rcases outbound_step hstep with ⟨-, heq⟩ | ⟨-, hlt⟩
    · rw [heq, List.length_append] at hrest
      omega
    · omega

/-- **No byte is lost or reordered exactly when the system takes every buffer in full**: the
bytes it accepted, followed by those still pending, are then all the bytes passed to `send`. -/
theorem outbound_conserved_iff :
    ∀ {s : TCPSocket}, s.run recv_callback ops = .ok s' →
      (s'.wire ++ s'.outbound_data_ = s.wire ++ s.outbound_data_ ++ queuedBytes ops ↔
        s.AcceptsAll recv_callback ops) := by
  induction ops with
  | nil =>
    intro s h
    obtain rfl := Except.ok.inj h
    exact ⟨fun _ => trivial, fun _ => (List.append_nil _).symm⟩
  | cons op ops ih =>
    intro s h
    obtain ⟨s₁, hstep, hrun⟩ := Lib.Runs.foldlM_cons_eq_ok.mp h
    have hcons : s.AcceptsAll recv_callback (op :: ops) ↔
        (s.outbound_data_ ≠ [] → s.Accepts op) ∧ s₁.AcceptsAll recv_callback ops :=
      Lib.Runs.along_cons_of_ok hstep
    have hqueued : queuedBytes (op :: ops) = op.data ++ queuedBytes ops := rfl
    rw [hcons, ← ih hrun, hqueued, ← List.append_assoc]
    rcases outbound_step hstep with ⟨hall, heq⟩ | ⟨hnot, hlt⟩
    · unfold outbound at heq
      rw [heq]
      exact ⟨fun h => ⟨hall, h⟩, fun h => h.2⟩
    · -- the bytes dropped here never come back
      constructor
      · intro heq
        have hle := length_outbound_le hrun
        have hlen := congrArg List.length heq
        simp only [outbound, List.length_append] at hle hlt hlen
        omega
      · intro h
        exact absurd h.1 hnot

/-- A message queued behind a full system buffer, and another one behind it. -/
def backPressure : List Op :=
  [.send [1, 2, 3], .sendAndRecv [] .none, .send [4], .sendAndRecv [] .all]

theorem outbound_conserved_iff_backPressure :
    ∃ s', ({} : TCPSocket).run id backPressure = .ok s' ∧
      (s'.wire ++ s'.outbound_data_ = queuedBytes backPressure ↔
        AcceptsAll id {} backPressure) := by
  have hrun : ({} : TCPSocket).run id backPressure = .ok { wire := [4] } := by
    simp only [run, backPressure, List.foldlM_cons, List.foldlM_nil, step, send, sendAndRecv, recv,
      flush, SendSyscall.none, SendSyscall.all]
    rfl
  exact ⟨_, hrun, outbound_conserved_iff hrun⟩

/-- The three bytes of the first message are lost. -/
theorem not_outbound_conserved_backPressure :
    ¬ ∀ (cb : List UInt8 → List UInt8) (ops : List Op) (s' : TCPSocket),
      ({} : TCPSocket).run cb ops = .ok s' →
        s'.wire ++ s'.outbound_data_ = queuedBytes ops := by
  intro h
  have hrun : ({} : TCPSocket).run id backPressure = .ok { wire := [4] } := by
    simp only [run, backPressure, List.foldlM_cons, List.foldlM_nil, step, send, sendAndRecv, recv,
      flush, SendSyscall.none, SendSyscall.all]
    rfl
  have hlost := h id backPressure _ hrun
  revert hlost
  decide

end TCPSocket

end TradingEcosystem
