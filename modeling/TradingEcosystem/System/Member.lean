import TradingEcosystem.System.Line
import TradingEcosystem.Trading.TradeEngine

/-!
# A Member of the Exchange

A client with its line to the exchange, run on any interleaving of what it does itself, of the
engine taking its requests and those of others, and of the responses coming back.

- `Party` : a client whose orders change as an order manager's do
- `Member.step`, `Member.run` : the system
- `Agrees.step`, `agrees_of_run` : the client's orders agree with the exchange in every run whose
  requests fit the books they come to
-/

namespace TradingEcosystem

open Link

variable {F σ ι : Type}

/-! ## What an order manager sends -/

namespace OrderManager

/-- `m'` has sent `requests` since `m`. -/
structure Sends (m m' : OrderManager) (requests : List MEClientRequest) : Prop where
  client_id : m'.client_id_ = m.client_id_
  sent : m'.sent = m.sent ++ requests
  mine : ∀ q ∈ requests, q.client_id_ = m.client_id_
  next_order_id : m'.next_order_id_ = m.next_order_id_ + newCount requests

variable {m m' m'' : OrderManager} {requests more : List MEClientRequest}

theorem Sends.refl (m : OrderManager) : Sends m m [] :=
  ⟨rfl, (List.append_nil _).symm, nofun, rfl⟩

theorem newCount_append (requests more : List MEClientRequest) :
    newCount (requests ++ more) = newCount requests + newCount more :=
  List.countP_append

theorem Sends.trans (h : Sends m m' requests) (h' : Sends m' m'' more) :
    Sends m m'' (requests ++ more) where
  client_id := h'.client_id.trans h.client_id
  sent := by rw [h'.sent, h.sent, List.append_assoc]
  mine := by
    intro q hq
    rcases List.mem_append.mp hq with hq | hq
    · exact h.mine q hq
    · exact (h'.mine q hq).trans h.client_id
  next_order_id := by rw [h'.next_order_id, h.next_order_id, newCount_append, Nat.add_assoc]

theorem sends_moveOrder (N : Arith F) (risk : RiskInfo F) (m : OrderManager) (t : ℕ) (price : ℤ)
    (s : Side) (qty : ℕ) : ∃ requests, Sends m (m.moveOrder N risk t price s qty) requests := by
  have houtcome := moveOrder_outcome N risk m t price s qty
  generalize m.moveOrder N risk t price s qty = moved at houtcome ⊢
  cases houtcome with
  | kept => exact ⟨[], Sends.refl m⟩
  | sent =>
    refine ⟨[_], rfl, rfl, ?_, rfl⟩
    intro q hq
    rw [List.mem_singleton.mp hq]
    rfl
  | canceled =>
    refine ⟨[_], rfl, rfl, ?_, rfl⟩
    intro q hq
    rw [List.mem_singleton.mp hq]
    rfl

theorem sends_moveOrders {N : Arith F} {risk : RiskInfo F} {t clip : ℕ} {bid_price ask_price : ℤ}
    (h : m.moveOrders N risk t bid_price ask_price clip = .ok m') :
    ∃ requests, Sends m m' requests := by
  obtain ⟨_, rfl⟩ := moveOrders_eq h
  obtain ⟨bids, hbids⟩ := sends_moveOrder N risk m t bid_price .BUY clip
  obtain ⟨asks, hasks⟩ :=
    sends_moveOrder N risk (m.moveOrder N risk t bid_price .BUY clip) t ask_price .SELL clip
  exact ⟨_, hbids.trans hasks⟩

theorem sends_onOrderUpdate {r : MEClientResponse} (h : m.onOrderUpdate r = .ok m') :
    Sends m m' [] := by
  rw [onOrderUpdate_eq h]
  exact ⟨rfl, (List.append_nil _).symm, nofun, rfl⟩

end OrderManager

/-! ## The system -/

/-- A client of the exchange: it takes inputs of its own, which may move orders of one ticker, and
responses. -/
structure Party (F σ ι : Type) where
  client_id : ℕ
  arith : Arith F
  init : σ
  orders : σ → OrderManager
  input : σ → ι → Except Fault σ
  deliver : σ → MEClientResponse → Except Fault σ
  orders_init : orders init = OrderManager.new client_id
  moves : ∀ {p p' : σ} {i : ι}, input p i = .ok p' → orders p' = orders p ∨
    ∃ risk t bid_price ask_price clip,
      (orders p).moveOrders arith risk t bid_price ask_price clip = .ok (orders p')
  updates : ∀ {p p' : σ} {r : MEClientResponse}, deliver p r = .ok p' →
    (orders p).onOrderUpdate r = .ok (orders p')

/-- A client and its line. -/
structure Member (σ : Type) where
  party : σ
  line : Line

namespace Member

inductive Event (ι : Type) where
  /-- The client takes an input; what it sends goes into the channel. -/
  | input (i : ι)
  /-- The engine takes the client's next request. -/
  | request
  /-- The engine takes a request of another client. -/
  | other (request : MEClientRequest)
  /-- The client takes the next response. -/
  | response

variable (A : Party F σ ι)

def new : Member σ := ⟨A.init, Line.new⟩

def step (x : Member σ) : Event ι → Except Fault (Member σ)
  | .input i => do
    let party ← A.input x.party i
    -- what the order manager sent in this step goes into the channel
    .ok ⟨party, x.line.ask ((A.orders party).sent.drop (A.orders x.party).sent.length)⟩
  | .request => do
    let line ← x.line.processNext A.client_id
    .ok { x with line := line }
  | .other q => do
    let line ← x.line.process A.client_id q
    .ok { x with line := line }
  | .response =>
    match x.line.responses with
    | [] => .ok x
    | r :: rest => do
      let party ← A.deliver x.party r
      .ok ⟨party, { x.line with responses := rest }⟩

def run (x : Member σ) (events : List (Event ι)) : Except Fault (Member σ) := events.foldlM (step A) x

/-- The request an event has the engine take. -/
def taken (x : Member σ) : Event ι → Option MEClientRequest
  | .request => x.line.requests.head?
  | .other q => some q
  | .input _ | .response => none

/-- The request of another client. -/
def Event.other? : Event ι → Option MEClientRequest
  | .other q => some q
  | .input _ | .request | .response => none

/-- The request the engine takes fits its book, and it is the client's own only if it comes through
its channel. -/
def Meets (x : Member σ) (event : Event ι) : Prop :=
  (∀ q ∈ x.taken event, x.line.matching_engine.Fits q) ∧
    ∀ q ∈ event.other?, q.client_id_ ≠ A.client_id

instance (x : Member σ) (event : Event ι) : Decidable (Meets A x event) :=
  inferInstanceAs (Decidable (_ ∧ _))

/-- The books after an event. -/
def booksAfterEvent (x : Member σ) (P : ℕ → PriorityBook) (event : Event ι) : ℕ → PriorityBook :=
  (x.taken event).elim P (booksAfter P)

/-! ## The client and the exchange agree -/

variable {A}

/-- The books hold the orders of `P`, and the client's orders agree with them, up to what is in
flight, as `k` has it. -/
structure Agrees (A : Party F σ ι) (x : Member σ) (P : ℕ → PriorityBook) (k : Link) : Prop where
  slots : Slots (A.orders x.party) k
  line : x.line.Refines A.client_id P k
  client_id : (A.orders x.party).client_id_ = A.client_id
  mine : ∀ q ∈ x.line.requests, q.client_id_ = A.client_id ∧ q ∈ (A.orders x.party).sent
  next_order_id : (A.orders x.party).next_order_id_ = newCount (A.orders x.party).sent + 1

variable {x x' : Member σ} {P : ℕ → PriorityBook} {k : Link} {event : Event ι}

theorem agrees_new (A : Party F σ ι) :
    Agrees A (new A) (fun _ => PriorityBook.empty) Link.empty where
  slots := by
    rw [show A.orders (new A).party = _ from A.orders_init]
    exact Slots.new A.client_id
  line := Line.refines_new A.client_id
  client_id := by
    rw [show A.orders (new A).party = _ from A.orders_init]
    rfl
  mine := nofun
  next_order_id := by
    rw [show A.orders (new A).party = _ from A.orders_init]
    rfl

/-- The client takes an input. -/
theorem Agrees.input {i : ι} {party : σ} (h : Agrees A x P k) (hi : A.input x.party i = .ok party) :
    Agrees A ⟨party, x.line.ask ((A.orders party).sent.drop (A.orders x.party).sent.length)⟩ P
      (k.ask ((A.orders party).sent.drop (A.orders x.party).sent.length)) := by
  have hsends : ∃ requests, OrderManager.Sends (A.orders x.party) (A.orders party) requests := by
    rcases A.moves hi with heq | ⟨_, _, _, _, _, hmoves⟩
    · rw [heq]
      exact ⟨[], OrderManager.Sends.refl _⟩
    · exact OrderManager.sends_moveOrders hmoves
  obtain ⟨requests, hsends⟩ := hsends
  -- what the channel gets is what the order manager has sent since
  have hdrop : (A.orders party).sent.drop (A.orders x.party).sent.length = requests := by
    rw [hsends.sent, List.drop_left]
  have hslots : Slots (A.orders party) (k.ask requests) := by
    rcases A.moves hi with heq | ⟨_, _, _, _, _, hmoves⟩
    · have hnone : requests = [] := by
        rw [← hdrop, heq, List.drop_length]
      rw [hnone, heq, ask, List.append_nil]
      exact h.slots
    · rw [← hdrop]
      exact h.slots.moveOrders hmoves
  rw [hdrop]
  refine ⟨hslots, h.line.ask requests, hsends.client_id.trans h.client_id, ?_, ?_⟩
  · intro q hq
    show _ ∧ q ∈ (A.orders party).sent
    rw [hsends.sent]
    rcases List.mem_append.mp hq with hq | hq
    · exact ⟨(h.mine q hq).1, List.mem_append_left _ (h.mine q hq).2⟩
    · exact ⟨(hsends.mine q hq).trans h.client_id, List.mem_append_right _ hq⟩
  · show (A.orders party).next_order_id_ = newCount (A.orders party).sent + 1
    rw [hsends.next_order_id, h.next_order_id, hsends.sent, OrderManager.newCount_append]
    omega

/-- The engine takes the client's next request. -/
theorem Agrees.own {q : MEClientRequest} {rest : List MEClientRequest} {line : Line}
    (h : Agrees A x P k) (hrequests : x.line.requests = q :: rest)
    (hfits : x.line.matching_engine.Fits q) (hline : x.line.processNext A.client_id = .ok line) :
    ∃ k', Relation.ReflTransGen Answer k k' ∧ Agrees A { x with line := line } (booksAfter P q) k' := by
  have hmem : q ∈ x.line.requests := hrequests ▸ List.mem_cons_self ..
  obtain ⟨k', hanswers, hrefines⟩ :=
    h.line.processNext hrequests (h.mine q hmem).1 hfits hline
  refine ⟨k', hanswers, h.slots.of_answers hanswers, hrefines, h.client_id, ?_, h.next_order_id⟩
  intro q' hq'
  rw [Line.requests_processNext hrequests hline] at hq'
  exact h.mine q' (hrequests ▸ List.mem_cons_of_mem _ hq')

/-- The engine takes a request of another client. -/
theorem Agrees.other {q : MEClientRequest} {line : Line} (h : Agrees A x P k)
    (hclient : q.client_id_ ≠ A.client_id) (hfits : x.line.matching_engine.Fits q)
    (hline : x.line.process A.client_id q = .ok line) :
    ∃ k', Relation.ReflTransGen Answer k k' ∧ Agrees A { x with line := line } (booksAfter P q) k' := by
  obtain ⟨k', hanswers, hrefines⟩ := h.line.process_other hclient hfits hline
  refine ⟨k', hanswers, h.slots.of_answers hanswers, hrefines, h.client_id, ?_, h.next_order_id⟩
  intro q' hq'
  rw [Line.requests_process hline] at hq'
  exact h.mine q' hq'

/-- The client takes the next response. -/
theorem Agrees.response {r : MEClientResponse} {rest : List MEClientResponse} {party : σ}
    (h : Agrees A x P k) (hresponses : x.line.responses = r :: rest)
    (hr : A.deliver x.party r = .ok party) :
    Agrees A ⟨party, { x.line with responses := rest }⟩ P { k with responses := rest } := by
  have hsends := OrderManager.sends_onOrderUpdate (A.updates hr)
  have hsent : (A.orders party).sent = (A.orders x.party).sent :=
    hsends.sent.trans (List.append_nil _)
  have hslots := h.slots.deliver (h.line.responses.trans hresponses) (A.updates hr)
  refine ⟨hslots, ⟨h.line.engine, h.line.requests, rfl, h.line.works⟩,
    hsends.client_id.trans h.client_id, ?_, ?_⟩
  · show ∀ q ∈ x.line.requests, _ ∧ q ∈ (A.orders party).sent
    rw [hsent]
    exact h.mine
  · show (A.orders party).next_order_id_ = newCount (A.orders party).sent + 1
    rw [hsends.next_order_id, hsent]
    exact h.next_order_id

/-- What a step may be. -/
theorem step_cases (hstep : step A x event = .ok x') :
    x' = x ∧ x.taken event = none ∨
    (∃ i party, A.input x.party i = .ok party ∧ x.taken event = none ∧
      x' = ⟨party, x.line.ask ((A.orders party).sent.drop (A.orders x.party).sent.length)⟩) ∨
    (∃ q rest line, x.line.requests = q :: rest ∧ x.line.processNext A.client_id = .ok line ∧
      x.taken event = some q ∧ x' = { x with line := line }) ∨
    (∃ q line, event = .other q ∧ x.line.process A.client_id q = .ok line ∧
      x.taken event = some q ∧ x' = { x with line := line }) ∨
    ∃ r rest party, x.line.responses = r :: rest ∧ A.deliver x.party r = .ok party ∧
      x.taken event = none ∧ x' = ⟨party, { x.line with responses := rest }⟩ := by
  cases event with
  | input i =>
    obtain ⟨party, hi, hx'⟩ := bind_eq_ok.mp hstep
    exact .inr (.inl ⟨i, party, hi, rfl, (Except.ok.inj hx').symm⟩)
  | request =>
    obtain ⟨line, hline, hx'⟩ := bind_eq_ok.mp hstep
    cases hrequests : x.line.requests with
    | nil =>
      -- nothing to take
      unfold Line.processNext at hline
      rw [hrequests] at hline
      obtain rfl := Except.ok.inj hline
      refine .inl ⟨(Except.ok.inj hx').symm, ?_⟩
      unfold taken
      rw [hrequests]
      rfl
    | cons q rest =>
      refine .inr (.inr (.inl ⟨q, rest, line, rfl, hline, ?_, (Except.ok.inj hx').symm⟩))
      unfold taken
      rw [hrequests]
      rfl
  | other q =>
    obtain ⟨line, hline, hx'⟩ := bind_eq_ok.mp hstep
    exact .inr (.inr (.inr (.inl ⟨q, line, rfl, hline, rfl, (Except.ok.inj hx').symm⟩)))
  | response =>
    simp only [Member.step] at hstep
    cases hresponses : x.line.responses with
    | nil =>
      rw [hresponses] at hstep
      exact .inl ⟨(Except.ok.inj hstep).symm, rfl⟩
    | cons r rest =>
      rw [hresponses] at hstep
      obtain ⟨party, hr, hx'⟩ := bind_eq_ok.mp hstep
      exact .inr (.inr (.inr (.inr ⟨r, rest, party, rfl, hr, rfl, (Except.ok.inj hx').symm⟩)))

/-- **One step keeps the agreement.** -/
theorem Agrees.step (h : Agrees A x P k) (hmeets : Meets A x event)
    (hstep : step A x event = .ok x') : ∃ k', Agrees A x' (x.booksAfterEvent P event) k' := by
  unfold booksAfterEvent
  rcases step_cases hstep with ⟨rfl, htaken⟩ | ⟨i, party, hi, htaken, rfl⟩ |
    ⟨q, rest, line, hrequests, hline, htaken, rfl⟩ | ⟨q, line, hevent, hline, htaken, rfl⟩ |
    ⟨r, rest, party, hresponses, hr, htaken, rfl⟩
  · rw [htaken]
    exact ⟨k, h⟩
  · rw [htaken]
    exact ⟨_, h.input hi⟩
  · obtain ⟨k', _, h'⟩ := h.own hrequests (hmeets.1 q htaken) hline
    rw [htaken]
    exact ⟨k', h'⟩
  · obtain ⟨k', _, h'⟩ := h.other (hmeets.2 q (hevent ▸ rfl)) (hmeets.1 q htaken) hline
    rw [htaken]
    exact ⟨k', h'⟩
  · rw [htaken]
    exact ⟨_, h.response hresponses hr⟩

/-- **The client and the exchange agree in every run** whose requests fit. -/
theorem agrees_of_run {events : List (Event ι)}
    (hmeets : Lib.Runs.Along (step A) (Meets A) (new A) events)
    (hrun : run A (new A) events = .ok x) : ∃ P k, Agrees A x P k := by
  apply Lib.Runs.invariant (I := fun x => ∃ P k, Agrees A x P k) _ ⟨_, _, agrees_new A⟩ hmeets hrun
  intro x event x' ⟨P, k, h⟩ hevent hstep
  obtain ⟨k', h'⟩ := h.step hevent hstep
  exact ⟨_, k', h'⟩

end Member

/-! ## The two clients -/

/-- What the caller of `moveOrders` chooses. -/
structure Move (F : Type) where
  risk : RiskInfo F
  ticker_id : ℕ
  bid_price : ℤ
  ask_price : ℤ
  clip : ℕ

/-- An order manager whose orders are moved in any way. -/
def OrderManager.party (N : Arith F) (client_id : ℕ) : Party F OrderManager (Move F) where
  client_id := client_id
  arith := N
  init := OrderManager.new client_id
  orders := id
  input m v := m.moveOrders N v.risk v.ticker_id v.bid_price v.ask_price v.clip
  deliver m r := m.onOrderUpdate r
  orders_init := rfl
  moves h := .inr ⟨_, _, _, _, _, h⟩
  updates h := h

/-- A trade engine with one of the two strategies that trade. -/
def TradeEngine.party (S : Setup F) (htrades : S.Trades) :
    Party F (TradeEngine F) MEMarketUpdate where
  client_id := S.client_id_
  arith := S.toArith
  init := TradeEngine.new S
  orders e := e.order_manager_
  input e u := e.onMarketUpdate S u
  deliver e r := e.onOrderUpdate S r
  orders_init := rfl
  moves := by
    intro e e' u h
    rcases (TradeEngine.onMarketUpdate_spec h).orders with heq | ⟨_, _, hmoves⟩
    · exact .inl heq
    · exact .inr ⟨_, _, _, _, _, hmoves⟩
  updates := by
    intro e e' r h
    rw [← TradeEngine.algoOnOrderUpdate_eq htrades]
    exact (TradeEngine.onOrderUpdate_spec h).orders

end TradingEcosystem
