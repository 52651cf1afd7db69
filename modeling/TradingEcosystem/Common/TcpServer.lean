import TradingEcosystem.Common.Types
import Mathlib.Data.List.Nodup
import Mathlib.Data.List.Perm.Subperm

/-!
# TCP Server

`common/tcp_server.{h,cpp}`: the sockets to receive from and to send to, as `poll` fills them from
what `epoll_wait` reports.  A socket is its address; the system's list of watched descriptors is
part of the state.

- `TCPServer.poll` : one call, with what the system reports and the connections it accepts
- `TCPServer.EpollReports` : what the system may report
- `TCPServer.Serves` : every accepted connection is received from, once, and nothing else is served
- `TCPServer.Serves.poll` : every call keeps this, and there is room for the events of 1023
  connections
-/

namespace TradingEcosystem

/-- One of the events that `epoll_wait` reports. -/
structure EpollEvent where
  socket : ℕ
  epollin : Bool := false
  epollout : Bool := false
  /-- `EPOLLERR` or `EPOLLHUP`. -/
  epollerr : Bool := false
  deriving DecidableEq, Repr

structure TCPServer where
  listener_socket_ : ℕ
  receive_sockets_ : List ℕ := []
  send_sockets_ : List ℕ := []
  /-- What was added to `epoll_fd_`, always with `EPOLLET | EPOLLIN`. -/
  epoll_list : List ℕ := [listener_socket_]

namespace TCPServer

/-- The number of entries of `events_`. -/
def maxEvents : ℕ := 1024

/-- `push_back`, unless `find` finds it. -/
def pushNew (sockets : List ℕ) (socket : ℕ) : List ℕ :=
  if socket ∈ sockets then sockets else sockets ++ [socket]

/-- The body of the loop over the events, and `have_new_connection`. -/
def onEvent (t : TCPServer × Bool) (event : EpollEvent) : TCPServer × Bool :=
  if event.epollin ∧ event.socket = t.1.listener_socket_ then
    (t.1, true)
  else
    let receive_sockets_ :=
      if event.epollin then pushNew t.1.receive_sockets_ event.socket else t.1.receive_sockets_
    let send_sockets_ :=
      if event.epollout then pushNew t.1.send_sockets_ event.socket else t.1.send_sockets_
    let receive_sockets_ :=
      if event.epollerr then pushNew receive_sockets_ event.socket else receive_sockets_
    ({ t.1 with receive_sockets_ := receive_sockets_, send_sockets_ := send_sockets_ }, t.2)

/-- A new connection. -/
def accept (t : TCPServer) (socket : ℕ) : TCPServer :=
  { t with
    epoll_list := t.epoll_list ++ [socket]
    receive_sockets_ := pushNew t.receive_sockets_ socket }

/-- Check for new connections or dead connections.  `accepted` are the sockets made for what
`accept` returns before it returns -1. -/
def poll (t : TCPServer) (events : List EpollEvent) (accepted : List ℕ) :
    Except Fault TCPServer :=
  if events.length ≤ maxEvents then
    let polled := events.foldl onEvent (t, false)
    .ok (if polled.2 then accepted.foldl accept polled.1 else polled.1)
  else
    -- `epoll_wait` writes past the end of `events_`
    .error .outOfRange

/-! ## What the system does -/

/-- The events are about different watched descriptors.  Only `EPOLLIN` is asked for, and the
listener has no errors. -/
structure EpollReports (t : TCPServer) (events : List EpollEvent) : Prop where
  distinct : (events.map EpollEvent.socket).Nodup
  watched : ∀ event ∈ events, event.socket ∈ t.epoll_list
  asked : ∀ event ∈ events, event.epollout = false
  listener : ∀ event ∈ events, event.socket = t.listener_socket_ →
    event.epollin = true ∧ event.epollerr = false

/-- New sockets have addresses of their own. -/
structure Fresh (t : TCPServer) (accepted : List ℕ) : Prop where
  distinct : accepted.Nodup
  unused : ∀ socket ∈ accepted, socket ∉ t.epoll_list

/-! ## What is served -/

/-- **Every accepted connection is received from**, in the order they were accepted and each once,
and there is nothing else to receive from or to send to. -/
structure Serves (t : TCPServer) : Prop where
  epoll_list : t.epoll_list = t.listener_socket_ :: t.receive_sockets_
  distinct : t.epoll_list.Nodup
  send_sockets : t.send_sockets_ = []

theorem serves_new (listener_socket : ℕ) : Serves { listener_socket_ := listener_socket } where
  epoll_list := rfl
  distinct := List.nodup_singleton _
  send_sockets := rfl

variable {t : TCPServer} {events : List EpollEvent} {accepted : List ℕ}

/-- An event about a connection that is known changes nothing. -/
theorem Serves.onEvent (h : Serves t) {new : Bool} {event : EpollEvent}
    (hwatched : event.socket ∈ t.epoll_list) (hasked : event.epollout = false)
    (hlistener : event.socket = t.listener_socket_ →
      event.epollin = true ∧ event.epollerr = false) :
    (TCPServer.onEvent (t, new) event).1 = t := by
  unfold TCPServer.onEvent
  by_cases hsocket : event.socket = t.listener_socket_
  · rw [if_pos ⟨(hlistener hsocket).1, hsocket⟩]
  · have hmem : event.socket ∈ t.receive_sockets_ := by
      rw [h.epoll_list] at hwatched
      exact (List.mem_cons.mp hwatched).resolve_left hsocket
    have hkept : pushNew t.receive_sockets_ event.socket = t.receive_sockets_ := if_pos hmem
    rw [if_neg fun hnew => hsocket hnew.2]
    simp [hkept, hasked]

/-- New connections are received from, behind the others; induction on them. -/
theorem Serves.accepts (h : Serves t) (hfresh : Fresh t accepted) :
    Serves (accepted.foldl TCPServer.accept t) ∧
      (accepted.foldl TCPServer.accept t).receive_sockets_ = t.receive_sockets_ ++ accepted := by
  obtain ⟨hdistinct, hunused⟩ := hfresh
  induction accepted generalizing t with
  | nil => exact ⟨h, (List.append_nil _).symm⟩
  | cons socket accepted ih =>
    obtain ⟨hnew, hrest⟩ := List.nodup_cons.mp hdistinct
    have hsocket := hunused socket (List.mem_cons_self ..)
    have hreceive : pushNew t.receive_sockets_ socket = t.receive_sockets_ ++ [socket] := by
      apply if_neg
      intro hmem
      apply hsocket
      rw [h.epoll_list]
      exact List.mem_cons_of_mem _ hmem
    have hserves : Serves (t.accept socket) := by
      refine ⟨?_, ?_, h.send_sockets⟩
      · show t.epoll_list ++ [socket] = t.listener_socket_ :: pushNew t.receive_sockets_ socket
        rw [h.epoll_list, hreceive]
        rfl
      · refine List.nodup_append.mpr
          ⟨h.distinct, List.nodup_singleton _, fun k hk k' hk' heq => ?_⟩
        rw [List.mem_singleton.mp hk'] at heq
        exact hsocket (heq ▸ hk)
    have hunused' : ∀ k ∈ accepted, k ∉ (t.accept socket).epoll_list := by
      intro k hk hmem
      rcases List.mem_append.mp hmem with hmem | hmem
      · exact hunused k (List.mem_cons_of_mem _ hk) hmem
      · rw [List.mem_singleton.mp hmem] at hk
        exact hnew hk
    obtain ⟨hall, hsockets⟩ := ih hserves hrest hunused'
    refine ⟨hall, ?_⟩
    rw [List.foldl_cons, hsockets]
    show pushNew t.receive_sockets_ socket ++ accepted = _
    rw [hreceive, List.append_assoc]
    rfl

/-- There are no more events than connections, and one for the listener. -/
theorem Serves.length_le (h : Serves t) (hreports : EpollReports t events) :
    events.length ≤ t.receive_sockets_.length + 1 := by
  have hsub : (events.map EpollEvent.socket).Subperm t.epoll_list := by
    apply List.subperm_of_subset hreports.distinct
    intro socket hsocket
    obtain ⟨event, hevent, rfl⟩ := List.mem_map.mp hsocket
    exact hreports.watched event hevent
  have hlen := hsub.length_le
  rwa [List.length_map, h.epoll_list, List.length_cons] at hlen

/-- The connections a call takes in: none unless there is an event for the listener. -/
def newConnections (listener_socket : ℕ) (events : List EpollEvent) (accepted : List ℕ) :
    List ℕ :=
  if events.any fun event => decide (event.epollin ∧ event.socket = listener_socket) then accepted
  else []

/-- So the events of a call only tell whether there are new connections; induction on them. -/
theorem Serves.onEvents (h : Serves t) (hreports : EpollReports t events) :
    ∀ new : Bool, events.foldl TCPServer.onEvent (t, new) = (t, new ||
      events.any fun event => decide (event.epollin ∧ event.socket = t.listener_socket_)) := by
  obtain ⟨-, hwatched, hasked, hlistener⟩ := hreports
  induction events with
  | nil =>
    intro new
    exact Prod.ext rfl (Bool.or_false new).symm
  | cons event events ih =>
    intro new
    have hfirst : TCPServer.onEvent (t, new) event = (t, new ||
        decide (event.epollin ∧ event.socket = t.listener_socket_)) := by
      refine Prod.ext (h.onEvent (hwatched event (List.mem_cons_self ..))
        (hasked event (List.mem_cons_self ..)) (hlistener event (List.mem_cons_self ..))) ?_
      unfold TCPServer.onEvent
      split
      · next hnew => simp [hnew]
      · next hold => simp [hold]
    rw [List.foldl_cons, hfirst, ih (fun e he => hwatched e (List.mem_cons_of_mem _ he))
      (fun e he => hasked e (List.mem_cons_of_mem _ he))
      (fun e he => hlistener e (List.mem_cons_of_mem _ he)), List.any_cons, Bool.or_assoc]

theorem listener_socket_accepts (accepted : List ℕ) :
    ∀ t : TCPServer, (accepted.foldl TCPServer.accept t).listener_socket_ = t.listener_socket_ := by
  induction accepted with
  | nil =>
    intro t
    rfl
  | cons socket accepted ih => exact fun t => ih (t.accept socket)

/-- **Every call of `poll` serves the connections**, old and new, and it has room for the events of
1023 connections. -/
theorem Serves.poll (h : Serves t) (hreports : EpollReports t events) (hfresh : Fresh t accepted) :
    (t.receive_sockets_.length < maxEvents → ∃ t', t.poll events accepted = .ok t') ∧
      ∀ t', t.poll events accepted = .ok t' → Serves t' ∧
        t'.listener_socket_ = t.listener_socket_ ∧ t'.receive_sockets_ =
          t.receive_sockets_ ++ newConnections t.listener_socket_ events accepted := by
  have hlen := h.length_le hreports
  have hpolled := h.onEvents hreports false
  rw [Bool.false_or] at hpolled
  unfold TCPServer.poll newConnections
  simp only [hpolled]
  constructor
  · intro hroom
    rw [if_pos (by omega)]
    exact ⟨_, rfl⟩
  · intro t' hpoll
    split at hpoll
    · obtain rfl := Except.ok.inj hpoll
      split
      · obtain ⟨hall, hsockets⟩ := h.accepts hfresh
        exact ⟨hall, listener_socket_accepts accepted t, hsockets⟩
      · exact ⟨h, rfl, (List.append_nil _).symm⟩
    · cases hpoll

end TCPServer

end TradingEcosystem
