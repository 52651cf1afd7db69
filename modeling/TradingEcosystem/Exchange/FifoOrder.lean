import TradingEcosystem.Exchange.Sessions
import TradingEcosystem.Lib.SortTies

/-!
# The Order of the Published Requests

`TCPServer::sendAndRecv` reads every connection once and then has the sequencer publish what is
pending.  All requests of one read carry one receive time, so `std::sort` may return them in any
order.

- `Round` : one such round, over any connections
- `one_read` : a client's pending requests are all of one read
- `inOrder_iff` : every sort keeps them in order exactly when they are all the same request
-/

namespace TradingEcosystem.OrderServer

open Lib.SortTies (tieSort)

/-! ## Rounds -/

/-- The data read off a connection. -/
structure SocketRead where
  socket : ℕ
  rx_time : ℤ
  bytes : List UInt8

/-- One pass over the connections, each of which is in `receive_sockets_` once. -/
structure Round where
  reads : List SocketRead
  distinct : (reads.map SocketRead.socket).Nodup
  std_sort : StdSort

def SocketRead.event (r : SocketRead) : Event := .read r.socket r.rx_time r.bytes

/-- The callbacks of a round. -/
def Round.events (round : Round) : List Event :=
  round.reads.map SocketRead.event ++ [.readFinished round.std_sort]

/-- A sequence of rounds. -/
def runRounds (s : OrderServer) (rounds : List Round) : Except Fault OrderServer :=
  s.run (rounds.flatMap Round.events)

/-- The requests of a client in a list. -/
def requestsOf (c : ℕ) (l : List RecvTimeClientRequest) : List RecvTimeClientRequest :=
  l.filter fun r => decide (r.request_.client_id_ = c)

/-- What the sequencer should write: the pending requests by receive time, those of each client
in the order in which it sent them. -/
structure InOrder (pending published : List RecvTimeClientRequest) : Prop where
  perm : published.Perm pending
  by_time : published.Pairwise fun a b => a.recv_time_ ≤ b.recv_time_
  clients : ∀ c, requestsOf c published = requestsOf c pending

/-! ## The pending requests of a round -/

variable {s s' : OrderServer} {socket : ℕ} {rx_time : ℤ} {request : OMClientRequest}

/-- Every pending request was read off the socket of its client in one of these reads. -/
def PendingFrom (s : OrderServer) (reads : List SocketRead) : Prop :=
  ∀ p ∈ s.fifo_sequencer_.pending_client_requests_, ∃ r ∈ reads,
    s.cid_tcp_socket_ p.request_.client_id_ = some r.socket ∧ p.recv_time_ = r.rx_time

theorem bound_onRequest {c socket' : ℕ} (h : s.cid_tcp_socket_ c = some socket')
    (hstep : s.onRequest socket rx_time request = .ok s') :
    s'.cid_tcp_socket_ c = some socket' := by
  obtain ⟨-, ⟨-, rfl⟩ | ⟨-, haccept⟩⟩ := onRequest_cases hstep
  · exact bound_stays h
  · obtain ⟨-, hsocket, -⟩ := accept_eq_ok haccept
    rw [hsocket]
    exact bound_stays h

theorem PendingFrom.onRequest {reads : List SocketRead} {r : SocketRead} (hr : r ∈ reads)
    (h : PendingFrom s reads) (hstep : s.onRequest r.socket r.rx_time request = .ok s') :
    PendingFrom s' reads := by
  intro p hp
  have hcases := onRequest_cases hstep
  obtain ⟨-, ⟨-, heq⟩ | ⟨hin, haccept⟩⟩ := hcases
  · rw [heq, fifo_noted] at hp
    obtain ⟨r', hr', hsocket, htime⟩ := h p hp
    exact ⟨r', hr', bound_onRequest hsocket hstep, htime⟩
  · obtain ⟨-, hsockets, -, -, -, hpending⟩ := accept_eq_ok haccept
    rw [hpending, fifo_noted] at hp
    rcases List.mem_append.mp hp with hp | hp
    · obtain ⟨r', hr', hsocket, htime⟩ := h p hp
      exact ⟨r', hr', bound_onRequest hsocket hstep, htime⟩
    · -- the request just accepted is on the socket of its client
      obtain rfl := List.mem_singleton.mp hp
      refine ⟨r, hr, ?_, rfl⟩
      rw [hsockets]
      exact hin.1

theorem PendingFrom.read {reads : List SocketRead} {r : SocketRead} (hr : r ∈ reads)
    (h : PendingFrom s reads) (hstep : s.step r.event = .ok s') : PendingFrom s' reads := by
  obtain ⟨s₁, hrecords, rfl⟩ := read_eq_ok hstep
  have hbuffered : PendingFrom
      (s.setInbound r.socket ((s.sockets r.socket).inbound_data_ ++ r.bytes)) reads := h
  have hread : PendingFrom s₁ reads := by
    refine Lib.Runs.invariant_of_step (I := fun s => PendingFrom s reads) ?_ hbuffered hrecords
    intro s request s' h hstep
    exact h.onRequest hr hstep
  exact hread

/-- The reads of a round; induction on those still to come. -/
theorem pendingFrom_reads {reads : List SocketRead} :
    ∀ {todo : List SocketRead} {s : OrderServer}, todo ⊆ reads → PendingFrom s reads →
      s.run (todo.map SocketRead.event) = .ok s' → PendingFrom s' reads := by
  intro todo
  induction todo with
  | nil =>
    intro s _ h hrun
    cases hrun
    exact h
  | cons r todo ih =>
    intro s hsub h hrun
    obtain ⟨s₁, hstep, hrest⟩ := Lib.Runs.foldlM_cons_eq_ok.mp hrun
    exact ih (List.subset_of_cons_subset hsub) (h.read (hsub (List.mem_cons_self ..)) hstep) hrest

/-- Between the rounds nothing is pending. -/
theorem pending_runRounds {rounds : List Round} (hrun : new.runRounds rounds = .ok s) :
    s.fifo_sequencer_.pending_client_requests_ = [] := by
  rcases List.eq_nil_or_concat rounds with rfl | ⟨before, last, rfl⟩
  · cases hrun
    rfl
  · -- the last callback of the last round publishes everything
    unfold runRounds run at hrun
    rw [List.concat_eq_append, List.flatMap_append, List.flatMap_singleton] at hrun
    obtain ⟨s₁, -, hlast⟩ := Lib.Runs.foldlM_append_eq_ok.mp hrun
    obtain ⟨s₂, -, hfinished⟩ := Lib.Runs.foldlM_append_eq_ok.mp hlast
    obtain ⟨s₃, hstep, hnil⟩ := Lib.Runs.foldlM_cons_eq_ok.mp hfinished
    obtain rfl := Except.ok.inj hstep
    cases hnil
    rfl

/-- **The pending requests of a client are all of one read.** -/
theorem one_read {rounds : List Round} {round : Round} (hrun : new.runRounds rounds = .ok s)
    (hreads : s.run (round.reads.map SocketRead.event) = .ok s') :
    ∃ readOf : ℕ → Option SocketRead, (∀ c r, readOf c = some r → r ∈ round.reads) ∧
      ∀ p ∈ s'.fifo_sequencer_.pending_client_requests_, ∃ r,
        readOf p.request_.client_id_ = some r ∧ p.recv_time_ = r.rx_time := by
  have hfrom : PendingFrom s' round.reads := by
    apply pendingFrom_reads (List.Subset.refl _) _ hreads
    intro p hp
    rw [pending_runRounds hrun] at hp
    cases hp
  -- the read of a client is that of the socket it is bound to
  refine ⟨fun c => round.reads.find? fun r => decide (s'.cid_tcp_socket_ c = some r.socket), ?_, ?_⟩
  · intro c r hr
    exact List.mem_of_find?_eq_some hr
  · intro p hp
    obtain ⟨r, hr, hsocket, htime⟩ := hfrom p hp
    cases hfind : round.reads.find? fun r =>
        decide (s'.cid_tcp_socket_ p.request_.client_id_ = some r.socket) with
    | none =>
      exact absurd (decide_eq_true hsocket) (List.find?_eq_none.mp hfind r hr)
    | some r' =>
      refine ⟨r', hfind, ?_⟩
      have hsocket' : s'.cid_tcp_socket_ p.request_.client_id_ = some r'.socket :=
        of_decide_eq_true (List.find?_some hfind :)
      rw [hsocket] at hsocket'
      have hsame : r = r' := List.inj_on_of_nodup_map round.distinct hr
        (List.mem_of_find?_eq_some hfind) (Option.some.inj hsocket')
      rw [htime, hsame]

/-! ## Ties -/

variable {pending : List RecvTimeClientRequest}

/-- A sort that turns the requests of client `c` around. -/
def rotateClient (c : ℕ) : StdSort where
  sort := tieSort RecvTimeClientRequest.recv_time_ fun r => decide (r.request_.client_id_ = c)
  perm := Lib.SortTies.tieSort_perm _ _
  sorted := fun l => (Lib.SortTies.tieSort_sorted RecvTimeClientRequest.recv_time_ _ l).imp
    fun h => Int.not_lt.mpr h

/-- All requests of a client carry one receive time. -/
def OneTimePerClient (pending : List RecvTimeClientRequest) : Prop :=
  ∀ a ∈ pending, ∀ b ∈ pending, a.request_.client_id_ = b.request_.client_id_ →
    a.recv_time_ = b.recv_time_

theorem oneTimePerClient {rounds : List Round} {round : Round} (hrun : new.runRounds rounds = .ok s)
    (hreads : s.run (round.reads.map SocketRead.event) = .ok s') :
    OneTimePerClient s'.fifo_sequencer_.pending_client_requests_ := by
  obtain ⟨readOf, -, htime⟩ := one_read hrun hreads
  intro a ha b hb hc
  obtain ⟨r, hr, hra⟩ := htime a ha
  obtain ⟨r', hr', hrb⟩ := htime b hb
  rw [hc, hr'] at hr
  rw [hra, hrb, Option.some.inj hr]

/-- No client has two different requests pending. -/
def OnePerClient (pending : List RecvTimeClientRequest) : Prop :=
  ∀ a ∈ pending, ∀ b ∈ pending, a.request_.client_id_ = b.request_.client_id_ →
    a.request_ = b.request_

/-- Requests that are all the same cannot be reordered. -/
theorem inOrder_of_onePerClient (htime : OneTimePerClient pending) (h : OnePerClient pending)
    (std_sort : StdSort) : InOrder pending (std_sort.sort pending) where
  perm := std_sort.perm pending
  by_time := (std_sort.sorted pending).imp fun h => Int.not_lt.mp h
  clients := by
    intro c
    apply Lib.SortTies.filter_eq_of_perm _ (std_sort.perm pending)
    intro a ha b hb
    obtain ⟨ha, hac⟩ := List.mem_filter.mp ha
    obtain ⟨hb, hbc⟩ := List.mem_filter.mp hb
    have hc := (of_decide_eq_true hac).trans (of_decide_eq_true hbc).symm
    have hrecv := htime a ha b hb hc
    have hrequest := h a ha b hb hc
    cases a
    cases b
    simp only at hrecv hrequest
    rw [hrecv, hrequest]

/-- Different requests of one client are turned around by some sort. -/
theorem onePerClient_of_inOrder (htime : OneTimePerClient pending)
    (h : ∀ c, InOrder pending ((rotateClient c).sort pending)) : OnePerClient pending := by
  intro a ha b hb hc
  set p : RecvTimeClientRequest → Bool :=
    fun r => decide (r.request_.client_id_ = a.request_.client_id_) with hp
  have hkeep := (h a.request_.client_id_).clients a.request_.client_id_
  have htie : ∀ x ∈ pending.filter p, ∀ y ∈ pending.filter p, x.recv_time_ = y.recv_time_ := by
    intro x hx y hy
    obtain ⟨hx, hxc⟩ := List.mem_filter.mp hx
    obtain ⟨hy, hyc⟩ := List.mem_filter.mp hy
    exact htime x hx y hy ((of_decide_eq_true hxc).trans (of_decide_eq_true hyc).symm)
  have hrotate : (pending.filter p).rotate 1 = pending.filter p :=
    (Lib.SortTies.filter_tieSort RecvTimeClientRequest.recv_time_ p htie).symm.trans hkeep
  have hmem_a : a ∈ pending.filter p := List.mem_filter.mpr ⟨ha, decide_eq_true rfl⟩
  have hmem_b : b ∈ pending.filter p := List.mem_filter.mpr ⟨hb, decide_eq_true hc.symm⟩
  rw [Lib.SortTies.eq_of_rotate_eq p hrotate a hmem_a b hmem_b]

/-- **Whatever `std::sort` does with ties, the requests of every client are published in order,
exactly when no client has two different requests pending in the round.** -/
theorem inOrder_iff {rounds : List Round} {round : Round} (hrun : new.runRounds rounds = .ok s)
    (hreads : s.run (round.reads.map SocketRead.event) = .ok s') :
    (∀ std_sort : StdSort, InOrder s'.fifo_sequencer_.pending_client_requests_
        (std_sort.sort s'.fifo_sequencer_.pending_client_requests_)) ↔
      OnePerClient s'.fifo_sequencer_.pending_client_requests_ := by
  have htime := oneTimePerClient hrun hreads
  constructor
  · intro h
    exact onePerClient_of_inOrder htime fun c => h (rotateClient c)
  · intro h std_sort
    exact inOrder_of_onePerClient htime h std_sort

/-! ## A NEW and its CANCEL in one read -/

/-- A record of client 1: sequence number, type, order id, and zeros. -/
def smallRecord (seq_num type : UInt8) : List UInt8 :=
  [seq_num, 0, 0, 0, 0, 0, 0, 0, type, 1, 0, 0, 0, 0, 0, 0, 0] ++ List.replicate 21 0

def newAndCancel (std_sort : StdSort) : Round where
  reads := [⟨0, 5, smallRecord 1 1 ++ smallRecord 2 2⟩]
  distinct := List.nodup_singleton _
  std_sort := std_sort

/-- The requests of the round. -/
def pendingNewAndCancel : List RecvTimeClientRequest :=
  [⟨5, (OMClientRequest.ofBytes (smallRecord 1 1)).me_client_request_⟩,
   ⟨5, (OMClientRequest.ofBytes (smallRecord 2 2)).me_client_request_⟩]

theorem run_newAndCancel (std_sort : StdSort) :
    ∃ s', new.run ((newAndCancel std_sort).reads.map SocketRead.event) = .ok s' ∧
      s'.fifo_sequencer_.pending_client_requests_ = pendingNewAndCancel :=
  ⟨_, rfl, by decide⟩

theorem not_onePerClient_newAndCancel : ¬ OnePerClient pendingNewAndCancel := by
  intro h
  have heq := h _ (List.mem_cons_self ..) _ (List.mem_cons_of_mem _ (List.mem_cons_self ..))
    (by decide)
  revert heq
  decide

theorem inOrder_iff_newAndCancel :
    ∃ s', new.run ((newAndCancel (rotateClient 1)).reads.map SocketRead.event) = .ok s' ∧
      ((∀ std_sort : StdSort, InOrder s'.fifo_sequencer_.pending_client_requests_
        (std_sort.sort s'.fifo_sequencer_.pending_client_requests_)) ↔
      OnePerClient s'.fifo_sequencer_.pending_client_requests_) := by
  obtain ⟨s', hrun, -⟩ := run_newAndCancel (rotateClient 1)
  have hstart : new.runRounds [] = .ok new := rfl
  exact ⟨s', hrun, inOrder_iff hstart hrun⟩

/-- A sort may publish the CANCEL before the NEW. -/
theorem not_inOrder_newAndCancel :
    ¬ ∀ (rounds : List Round) (round : Round) (s s' : OrderServer),
      new.runRounds rounds = .ok s → s.run (round.reads.map SocketRead.event) = .ok s' →
        InOrder s'.fifo_sequencer_.pending_client_requests_
          (round.std_sort.sort s'.fifo_sequencer_.pending_client_requests_) := by
  intro h
  apply not_onePerClient_newAndCancel
  apply onePerClient_of_inOrder
  · unfold OneTimePerClient
    decide
  · intro c
    obtain ⟨s', hrun, hpending⟩ := run_newAndCancel (rotateClient c)
    have horder := h [] (newAndCancel (rotateClient c)) new s' rfl hrun
    rw [hpending] at horder
    exact horder

end TradingEcosystem.OrderServer
