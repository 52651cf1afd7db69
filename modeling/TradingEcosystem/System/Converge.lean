import TradingEcosystem.System.NotStuck

/-!
# Quotes Converge

A client that moves the order of one ticker and side to the same price and quantity again and
again, with all messages delivered in between.  Where the exchange would take the order, it ends
up with that order resting, unless what it has is at the price already, with another quantity.

- `round` : the order is moved, the engine takes all requests, the client all responses
- `Priced` : a resting order has the price the client keeps for it
- `Agrees.exists_round` : what a round does that sends one request
- `converges_iff` : every state a run reaches in which nothing is in flight
-/

namespace TradingEcosystem

open Link
open MEOrderBook (Call)
open PriorityBook (key)

variable {F σ ι : Type}

/-! ## The order that is wanted -/

/-- What `moveOrder` is called with. -/
structure Target (F : Type) where
  risk : RiskInfo F
  ticker_id : ℕ
  price : ℤ
  side : Side
  qty : ℕ

namespace PriorityBook

/-- The book without the orders a client has on a side. -/
def without (P : PriorityBook) (client_id : ℕ) (s : Side) : PriorityBook :=
  P.setSide s ((P.side s).filter fun o => decide (o.client_id_ ≠ client_id))

variable {P P' : PriorityBook} {t c id qty : ℕ} {s s' : Side} {price : ℤ}

theorem ext_side (hside : ∀ s, s.IsTrading → P.side s = P'.side s) (hnext : P.next_id = P'.next_id) :
    P = P' := by
  obtain ⟨bids, asks, next_id⟩ := P
  obtain ⟨bids', asks', next_id'⟩ := P'
  obtain rfl : bids = bids' := hside .BUY (.inl rfl)
  obtain rfl : asks = asks' := hside .SELL (.inr rfl)
  obtain rfl : next_id = next_id' := hnext
  rfl

theorem side_without (P : PriorityBook) (c : ℕ) (hs : s.IsTrading) (hs' : s'.IsTrading) :
    (P.without c s).side s' =
      if s' = s then (P.side s).filter fun o => decide (o.client_id_ ≠ c) else P.side s' :=
  side_setSide hs hs' _

@[simp] theorem next_id_without (P : PriorityBook) (c : ℕ) (s : Side) :
    (P.without c s).next_id = P.next_id :=
  next_id_setSide ..

theorem mem_orders_of_filter {f : MEOrderInfo → Bool} {o : MEOrderInfo} (hs : s.IsTrading)
    (h : (P.side s).filter f = [o]) : o ∈ P.orders := by
  have hmem : o ∈ (P.side s).filter f := h ▸ List.mem_singleton_self o
  exact mem_orders.mpr ⟨s, hs, (List.mem_filter.mp hmem).1⟩

theorem side_erase (P : PriorityBook) (hs : s.IsTrading) (k : ℕ × ℕ) :
    (P.erase k).side s = (P.side s).filter fun o => decide (key o ≠ k) := by
  rcases hs with rfl | rfl
  · rfl
  · rfl

/-- A taker that crosses nothing trades with nobody. -/
theorem sweep_of_uncrossed {taker : MEOrderInfo} {makers : List MEOrderInfo} {leaves : ℕ}
    (h : ∀ y ∈ makers, crosses taker.side_ taker.price_ y.price_ = false) :
    sweep t taker makers leaves = (makers, leaves, []) := by
  cases makers with
  | nil => rfl
  | cons maker makers =>
    rw [sweep, if_pos]
    exact .inr (h maker (List.mem_cons_self ..))

/-- An order that crosses nothing is accepted, and that is all its client hears. -/
theorem responsesTo_add (h : ∀ y ∈ P.side s.opposite, crosses s price y.price_ = false) :
    ∃ r, responsesTo c (P.published t (.add c id s price qty)) = [r] ∧ r.type_ = .ACCEPTED ∧
      r.ticker_id_ = t ∧ r.side_ = s := by
  have hswept : ∀ market_order_id : ℕ, sweep t { P.taker t c id s price qty with
      market_order_id_ := market_order_id } (P.side s.opposite) qty =
        (P.side s.opposite, qty, []) := fun _ => sweep_of_uncrossed h
  refine ⟨
    { type_ := .ACCEPTED, client_id_ := c, ticker_id_ := t, client_order_id_ := id,
      market_order_id_ := P.next_id, side_ := s, price_ := price, exec_qty_ := 0,
      leaves_qty_ := qty }, ?_, rfl, rfl, rfl⟩
  have hlast : responsesTo c (if qty = 0 then [] else
      [addEvent { P.taker t c id s price qty with qty_ := qty }]) = [] := by
    split
    · rfl
    · rfl
  simp only [published, hswept]
  rw [responsesTo_append, hlast, List.append_nil]
  exact responsesTo_self rfl

/-- An order that rests is canceled, and one that does not is not. -/
theorem responsesTo_cancel : ∃ r, responsesTo c (P.published t (.cancel c id)) = [r] ∧
    ((∃ o, P.find (c, id) = some o ∧ r.type_ = .CANCELED ∧ r.ticker_id_ = t ∧ r.side_ = o.side_) ∨
      P.find (c, id) = none ∧ r.type_ = .CANCEL_REJECTED ∧ r.ticker_id_ = t ∧
        r.side_ = .INVALID) := by
  simp only [published, cancel]
  cases hfind : P.find (c, id) with
  | none => exact ⟨_, responsesTo_self rfl, .inr ⟨rfl, rfl, rfl, rfl⟩⟩
  | some o => exact ⟨_, responsesTo_self rfl, .inl ⟨o, rfl, rfl, rfl, rfl⟩⟩

end PriorityBook

/-! ## The prices of the orders that rest -/

/-- A resting order has the price the order manager keeps for its ticker and side. -/
def Priced (client_id : ℕ) (m : OrderManager) (P : ℕ → PriorityBook) : Prop :=
  ∀ t, ∀ o ∈ (P t).orders, o.client_id_ = client_id →
    o.price_ = (m.ticker_side_order_ t o.side_).price_

namespace Priced

variable {c : ℕ} {m m' : OrderManager} {P : ℕ → PriorityBook} {k : Link} {t : ℕ} {s : Side}
  {q : MEClientRequest}

theorem congr (h : Priced c m P)
    (hprice : ∀ t s, (m'.ticker_side_order_ t s).price_ = (m.ticker_side_order_ t s).price_) :
    Priced c m' P := by
  intro t o ho hclient
  rw [hprice]
  exact h t o ho hclient

/-- A move leaves the price of an order that rests: a new one is put in the place of nothing. -/
theorem moveOrder (h : Priced c m P) (hslots : Slots m k)
    (hworks : ∀ t, Works c (P t).orders (k.working t)) (hs : s.IsTrading) (N : Arith F)
    (risk : RiskInfo F) (t : ℕ) (price : ℤ) (qty : ℕ) :
    Priced c (m.moveOrder N risk t price s qty) P := by
  have houtcome := OrderManager.moveOrder_outcome N risk m t price s qty
  generalize m.moveOrder N risk t price s qty = moved at houtcome ⊢
  cases houtcome with
  | kept => exact h
  | sent hstate _ =>
    intro t' o ho hclient
    have hne : ¬ (t' = t ∧ o.side_ = s) := by
      rintro ⟨rfl, rfl⟩
      -- nothing of this side is open
      have hw := (hworks t' o.client_order_id_ ⟨o.side_, o.qty_⟩).mpr
        ⟨o, ho, by rw [← hclient]; rfl, rfl⟩
      have hopen : k.openFor t' o.side_ o.client_order_id_ = some o.qty_ :=
        Slots.openFor_of_working hw
      have hidle := (Phase.idle_iff hstate).mp (hslots.phase t' o.side_ hs)
      cases (hidle.2.2 _).symm.trans hopen
    show _ = (if t' = t ∧ o.side_ = s then _ else m.ticker_side_order_ t' o.side_).price_
    rw [if_neg hne]
    exact h t' o ho hclient
  | canceled _ =>
    apply h.congr
    intro t' s'
    show (if t' = t ∧ s' = s then
      { m.ticker_side_order_ t s with order_state_ := .PENDING_CANCEL } else
        m.ticker_side_order_ t' s').price_ = _
    split
    · next heq =>
      obtain ⟨rfl, rfl⟩ := heq
      rfl
    · rfl

theorem moveOrders {N : Arith F} {risk : RiskInfo F} {bid_price ask_price : ℤ} {clip : ℕ}
    (h : Priced c m P) (hslots : Slots m k) (hworks : ∀ t, Works c (P t).orders (k.working t))
    (hm' : m.moveOrders N risk t bid_price ask_price clip = .ok m') : Priced c m' P := by
  obtain ⟨_, rfl⟩ := OrderManager.moveOrders_eq hm'
  obtain ⟨bids, _, hslots₁⟩ := hslots.moveOrder (.inl rfl) N risk t bid_price clip
  have h₁ := h.moveOrder hslots hworks (.inl rfl) N risk t bid_price clip
  exact h₁.moveOrder (k := k.ask bids) hslots₁ hworks (.inr rfl) N risk t ask_price clip

/-- The engine takes a request; if it asks for an order of the client, then for the one kept. -/
theorem taken (h : Priced c m P) (hrange : ∀ call ∈ q.call?, call.InRange)
    (hnew : q.type_ = .NEW → q.client_id_ = c →
      q.price_ = (m.ticker_side_order_ q.ticker_id_ q.side_).price_) :
    Priced c m (booksAfter P q) := by
  cases hcall : q.call? with
  | none =>
    unfold booksAfter
    rw [hcall]
    exact h
  | some call =>
    rw [booksAfter_eq hcall]
    intro t
    by_cases ht : t = q.ticker_id_
    · subst ht
      rw [Function.update_self]
      apply PriorityBook.forall_step (fun _ => Iff.rfl) (hrange call hcall) (h q.ticker_id_)
      intro client_id client_order_id s price qty hadd hclient
      subst hadd
      rcases MEClientRequest.call_cases hcall with ⟨htype, heq⟩ | ⟨_, heq⟩
      · cases heq
        exact hnew htype hclient
      · cases heq
    · rw [Function.update_of_ne ht]
      exact h t

/-- A response changes no price. -/
theorem onOrderUpdate {r : MEClientResponse} (h : Priced c m P)
    (hm' : m.onOrderUpdate r = .ok m') : Priced c m' P := by
  apply h.congr
  intro t s
  rw [OrderManager.order_onOrderUpdate hm']
  split
  · obtain ⟨_, _, heq⟩ := OrderManager.updated_eq_with (m.ticker_side_order_ t s) r
    rw [heq]
  · rfl

end Priced

namespace Member

section runs

variable {A : Party F σ ι} {x x' : Member σ} {P : ℕ → PriorityBook} {k : Link} {event : Event ι}

/-- A request that fits the engine's book fits the list of its orders. -/
theorem Agrees.fits {q : MEClientRequest} {call : Call} (h : Agrees A x P k)
    (hcall : q.call? = some call) :
    x.line.matching_engine.Fits q ↔ (P q.ticker_id_).Fits call := by
  obtain ⟨sh, hbook⟩ := h.line.engine.books q.ticker_id_
  unfold MatchingEngine.Fits
  rw [hcall, hbook.toPriorityBook_eq]
  constructor
  · intro hfits
    exact hfits call rfl
  · intro hfits call' hcall'
    obtain rfl := Option.some.inj hcall'
    exact hfits

/-- What a request asks for is in range if it fits. -/
theorem Agrees.inRange {q : MEClientRequest} (h : Agrees A x P k)
    (hfits : x.line.matching_engine.Fits q) : ∀ call ∈ q.call?, call.InRange := by
  intro call hcall
  exact ((h.fits hcall).mp hfits).1

/-- The client's next request is taken. -/
theorem Agrees.priced_own {q : MEClientRequest} {rest : List MEClientRequest}
    (h : Agrees A x P k) (hpriced : Priced A.client_id (A.orders x.party) P)
    (hrequests : x.line.requests = q :: rest) (hfits : x.line.matching_engine.Fits q) :
    Priced A.client_id (A.orders x.party) (booksAfter P q) := by
  apply hpriced.taken (h.inRange hfits)
  intro hnew _
  have hmem : q ∈ k.requests := by
    rw [h.line.requests, hrequests]
    exact List.mem_cons_self ..
  exact congrArg MEClientRequest.price_ (h.slots.slot_of_new hmem hnew).1

/-- One step keeps the prices. -/
theorem Agrees.step_priced (h : Agrees A x P k)
    (hpriced : Priced A.client_id (A.orders x.party) P) (hmeets : Meets A x event)
    (hstep : Member.step A x event = .ok x') :
    Priced A.client_id (A.orders x'.party) (x.booksAfterEvent P event) := by
  unfold booksAfterEvent
  rcases step_cases hstep with ⟨rfl, htaken⟩ | ⟨i, party, hi, htaken, rfl⟩ |
    ⟨q, rest, line, hrequests, _, htaken, rfl⟩ | ⟨q, line, hevent, _, htaken, rfl⟩ |
    ⟨r, rest, party, _, hr, htaken, rfl⟩
  · rw [htaken]
    exact hpriced
  · rw [htaken]
    rcases A.moves hi with heq | ⟨_, _, _, _, _, hmoves⟩
    · show Priced A.client_id (A.orders party) P
      rw [heq]
      exact hpriced
    · exact hpriced.moveOrders h.slots h.line.works hmoves
  · rw [htaken]
    exact h.priced_own hpriced hrequests (hmeets.1 q htaken)
  · -- a request of another client adds no order of this one
    rw [htaken]
    apply hpriced.taken (h.inRange (hmeets.1 q htaken))
    intro _ hclient
    exact absurd hclient (hmeets.2 q (hevent ▸ rfl))
  · rw [htaken]
    exact hpriced.onOrderUpdate (A.updates hr)

/-- The client and the exchange agree in every run, on the prices too. -/
theorem priced_of_run {events : List (Event ι)}
    (hmeets : Lib.Runs.Along (step A) (Meets A) (new A) events)
    (hrun : run A (new A) events = .ok x) :
    ∃ P k, Agrees A x P k ∧ Priced A.client_id (A.orders x.party) P := by
  apply Lib.Runs.invariant
    (I := fun x => ∃ P k, Agrees A x P k ∧ Priced A.client_id (A.orders x.party) P) _ _ hmeets hrun
  · intro x event x' hx hevent hstep
    obtain ⟨P, k, h, hpriced⟩ := hx
    obtain ⟨k', h'⟩ := h.step hevent hstep
    exact ⟨_, k', h', h.step_priced hpriced hevent hstep⟩
  · refine ⟨_, _, agrees_new A, ?_⟩
    intro t o ho
    cases ho

end runs

end Member

/-! ## Rounds -/

/-- The order of the target's ticker and side is moved. -/
def Target.moveOrder (N : Arith F) (g : Target F) (m : OrderManager) : OrderManager :=
  m.moveOrder N g.risk g.ticker_id g.price g.side g.qty

namespace Member

/-- Nothing is in flight. -/
def Quiet (x : Member σ) : Prop := x.line.requests = [] ∧ x.line.responses = []

instance (x : Member σ) : Decidable x.Quiet := inferInstanceAs (Decidable (_ ∧ _))

/-- The order is moved; what is sent goes into the channel. -/
def moved (N : Arith F) (g : Target F) (x : Member OrderManager) : Member OrderManager :=
  let m := g.moveOrder N x.party
  ⟨m, x.line.ask (m.sent.drop x.party.sent.length)⟩

/-- The engine takes all requests, then the client all responses. -/
def deliverAll (A : Party F σ ι) (x : Member σ) : Except Fault (Member σ) := do
  let x ← run A x (List.replicate x.line.requests.length .request)
  run A x (List.replicate x.line.responses.length .response)

/-- The order is moved, and all messages are delivered. -/
def round (N : Arith F) (client_id : ℕ) (g : Target F) (x : Member OrderManager) :
    Except Fault (Member OrderManager) :=
  deliverAll (OrderManager.party N client_id) (x.moved N g)

def rounds (N : Arith F) (client_id : ℕ) (g : Target F) :
    ℕ → Member OrderManager → Except Fault (Member OrderManager)
  | 0, x => .ok x
  | n + 1, x => do
    let x ← round N client_id g x
    rounds N client_id g n x

/-- The book of the target's ticker. -/
def bookOf (g : Target F) (x : Member σ) : PriorityBook :=
  (x.line.matching_engine.ticker_order_book_ g.ticker_id).toPriorityBook

/-- The order the client keeps for the target's ticker and side. -/
def slotOf (g : Target F) (x : Member OrderManager) : OMOrder :=
  x.party.ticker_side_order_ g.ticker_id g.side

/-- The client has what it wants: its order is live, and is the only one that rests for it. -/
structure Quoted (client_id : ℕ) (g : Target F) (x : Member OrderManager) : Prop where
  state : (x.slotOf g).order_state_ = .LIVE
  price : (x.slotOf g).price_ = g.price
  qty : (x.slotOf g).qty_ = g.qty
  resting : ∃ o, (((x.bookOf g).side g.side).filter fun o => decide (o.client_id_ = client_id)) = [o] ∧
    o.client_order_id_ = (x.slotOf g).order_id_ ∧ o.price_ = g.price ∧ o.qty_ = g.qty
  quiet : x.Quiet

/-- From some round on the client has what it wants, and a move sends nothing. -/
def Converges (N : Arith F) (client_id : ℕ) (g : Target F) (x : Member OrderManager) : Prop :=
  ∃ n, ∀ n', n ≤ n' → ∃ y, rounds N client_id g n' x = .ok y ∧ Quoted client_id g y ∧
    (g.moveOrder N y.party).sent = y.party.sent

/-- The exchange would take the order if the client had none there: the order fits the book, uses
up no pool, and trades with nobody. -/
structure Placeable (client_id : ℕ) (g : Target F) (x : Member OrderManager) : Prop where
  fits : ((x.bookOf g).without client_id g.side).Fits
    (.add client_id x.party.next_order_id_ g.side g.price g.qty)
  room : (((x.bookOf g).without client_id g.side).step g.ticker_id
    (.add client_id x.party.next_order_id_ g.side g.price g.qty)).1.Room
  uncrossed : ∀ o ∈ (x.bookOf g).side g.side.opposite,
    PriorityBook.crosses g.side g.price o.price_ = false

/-! ### Rounds in which nothing is sent -/

section rounds

variable {N : Arith F} {c : ℕ} {g : Target F} {x y : Member OrderManager}

theorem moved_of_kept (h : g.moveOrder N x.party = x.party) : x.moved N g = x := by
  unfold moved
  simp only [h, List.drop_length, Line.ask, List.append_nil]

theorem round_of_kept (hquiet : x.Quiet) (h : g.moveOrder N x.party = x.party) :
    round N c g x = .ok x := by
  unfold round deliverAll
  rw [moved_of_kept h, hquiet.1]
  show run _ x (List.replicate x.line.responses.length .response) = .ok x
  rw [hquiet.2]
  rfl

/-- Where a move sends nothing, no round changes anything. -/
theorem rounds_of_kept (hquiet : x.Quiet) (h : g.moveOrder N x.party = x.party) :
    ∀ n, rounds N c g n x = .ok x := by
  intro n
  induction n with
  | zero => rfl
  | succ n ih =>
    rw [rounds, round_of_kept hquiet h]
    exact ih

theorem rounds_succ {n : ℕ} (h : round N c g x = .ok y) :
    rounds N c g (n + 1) x = rounds N c g n y := by
  rw [rounds, h]
  rfl

/-- A first round does not matter for where the rounds lead to. -/
theorem converges_iff_of_round (h : round N c g x = .ok y) :
    Converges N c g x ↔ Converges N c g y := by
  constructor
  · rintro ⟨n, hafter⟩
    refine ⟨n, fun n' hn' => ?_⟩
    rw [← rounds_succ h]
    exact hafter (n' + 1) (Nat.le_succ_of_le hn')
  · rintro ⟨n, hafter⟩
    refine ⟨n + 1, fun n' hn' => ?_⟩
    obtain ⟨n'', rfl⟩ := Nat.exists_eq_add_of_le' (Nat.le_of_add_left_le hn')
    rw [rounds_succ h]
    exact hafter n'' (Nat.le_of_succ_le_succ hn')

/-- Where a move sends nothing, the rounds lead to what there is. -/
theorem converges_iff_of_kept (hquiet : x.Quiet) (h : g.moveOrder N x.party = x.party) :
    Converges N c g x ↔ Quoted c g x := by
  constructor
  · rintro ⟨n, hafter⟩
    obtain ⟨y, hy, hquoted, _⟩ := hafter n (Nat.le_refl n)
    rw [rounds_of_kept hquiet h] at hy
    obtain rfl := Except.ok.inj hy
    exact hquoted
  · intro hquoted
    exact ⟨0, fun n _ => ⟨x, rounds_of_kept hquiet h n, hquoted, by rw [h]⟩⟩

end rounds

/-! ### What is there when nothing is in flight -/

section quiet

variable {A : Party F σ ι} {x : Member σ} {P : ℕ → PriorityBook} {k : Link} {t : ℕ} {s : Side}

theorem Agrees.bookOf_eq (h : Agrees A x P k) (g : Target F) :
    x.bookOf g = P g.ticker_id := by
  obtain ⟨sh, hbook⟩ := h.line.engine.books g.ticker_id
  exact hbook.toPriorityBook_eq

/-- The phase of an order when nothing is in flight. -/
theorem Agrees.phase_of_quiet (h : Agrees A x P k) (hquiet : x.Quiet) (hs : s.IsTrading) :
    Phase (A.orders x.party).client_id_ ((A.orders x.party).ticker_side_order_ t s) [] []
      (k.openFor t s) := by
  have hnews : k.newsFor t s = [] := by
    unfold newsFor
    rw [h.line.requests, hquiet.1]
    rfl
  have hanswers : k.answersFor t s = [] := by
    unfold answersFor
    rw [h.line.responses, hquiet.2]
    rfl
  have hphase := h.slots.phase t s hs
  rw [hnews, hanswers] at hphase
  exact hphase

/-- No order is asked for when nothing is in flight. -/
theorem Agrees.not_pendingNew (h : Agrees A x P k) (hquiet : x.Quiet) (hs : s.IsTrading) :
    ((A.orders x.party).ticker_side_order_ t s).order_state_ ≠ .PENDING_NEW := by
  intro hstate
  rcases (Phase.asked_iff hstate).mp (h.phase_of_quiet hquiet hs) with
    ⟨hnews, _⟩ | ⟨_, ⟨_, _, hanswers, _⟩, _⟩
  · cases hnews
  · cases hanswers

/-- An order that is live is open, with the quantity the client knows of, unless that is zero. -/
theorem Agrees.open_of_live (h : Agrees A x P k) (hquiet : x.Quiet) (hs : s.IsTrading)
    (hstate : ((A.orders x.party).ticker_side_order_ t s).order_state_ = .LIVE) :
    k.openFor t s ((A.orders x.party).ticker_side_order_ t s).order_id_ =
        some ((A.orders x.party).ticker_side_order_ t s).qty_ ∨
      ((A.orders x.party).ticker_side_order_ t s).qty_ = 0 ∧
        k.openFor t s ((A.orders x.party).ticker_side_order_ t s).order_id_ = none :=
  ((Phase.working_iff (.inl hstate)).mp (h.phase_of_quiet hquiet hs)).2.1

/-- What is open rests. -/
theorem Agrees.resting_of_open {l : ℕ} (h : Agrees A x P k) (hs : s.IsTrading)
    (hopen : k.openFor t s ((A.orders x.party).ticker_side_order_ t s).order_id_ = some l) :
    ∃ o, ((P t).side s).filter (fun o => decide (o.client_id_ = A.client_id)) = [o] ∧
      o.side_ = s ∧ o.qty_ = l ∧
      key o = (A.client_id, ((A.orders x.party).ticker_side_order_ t s).order_id_) := by
  obtain ⟨w, hw, hleaves⟩ := Option.bind_eq_some_iff.mp hopen
  obtain ⟨o, ho, hkey, rfl⟩ := (h.line.works t _ w).mp hw
  obtain ⟨s', hs', hmem⟩ := PriorityBook.mem_orders.mp ho
  split at hleaves
  · next hside =>
    have hss : s' = s := ((h.line.engine.wf t).side s' hs' o hmem).symm.trans hside
    refine ⟨o, ?_, hside, Option.some.inj hleaves, hkey⟩
    have hmine : o ∈ ((P t).side s).filter fun o => decide (o.client_id_ = A.client_id) :=
      List.mem_filter.mpr ⟨hss ▸ hmem, decide_eq_true (congrArg Prod.fst hkey)⟩
    -- there is no other
    have hlength := h.length_resting_le (t := t) hs
    rw [hopen] at hlength
    obtain ⟨o', heq⟩ :=
      List.length_eq_one_iff.mp (Nat.le_antisymm hlength (List.length_pos_of_mem hmine))
    rw [heq] at hmine ⊢
    rw [List.mem_singleton.mp hmine]
  · cases hleaves

/-- Where nothing is open, the book has no order of the client. -/
theorem Agrees.without_eq_self (h : Agrees A x P k) (hs : s.IsTrading)
    (hnone : ∀ id, k.openFor t s id = none) : (P t).without A.client_id s = P t := by
  apply PriorityBook.ext_side
  · intro s' hs'
    rw [PriorityBook.side_without _ _ hs hs']
    split
    · next heq =>
      subst heq
      rw [List.filter_eq_self]
      intro o ho
      apply decide_eq_true
      intro hclient
      cases (hnone _).symm.trans (h.open_of_resting hs ho hclient)
    · rfl
  · exact PriorityBook.next_id_without ..

/-- The engine cancels the client's order: the book has no order of the client then. -/
theorem Agrees.cancel_eq_without {l : ℕ} (h : Agrees A x P k) (hs : s.IsTrading)
    (hopen : k.openFor t s ((A.orders x.party).ticker_side_order_ t s).order_id_ = some l) :
    (∃ o, (P t).find (A.client_id, ((A.orders x.party).ticker_side_order_ t s).order_id_) = some o ∧
      o.side_ = s) ∧
    (P t).erase (A.client_id, ((A.orders x.party).ticker_side_order_ t s).order_id_) =
      (P t).without A.client_id s := by
  set id := ((A.orders x.party).ticker_side_order_ t s).order_id_
  obtain ⟨o, hresting, hside, _, hkey⟩ := h.resting_of_open hs hopen
  have hmem := PriorityBook.mem_orders_of_filter hs hresting
  -- an order with its key is worked under its id, so it is of this side
  have hself : ∀ o' ∈ (P t).orders, key o' = (A.client_id, id) → o'.side_ = s := by
    intro o' ho' hkey'
    have hw := (h.line.works t id ⟨o.side_, o.qty_⟩).mpr ⟨o, hmem, hkey, rfl⟩
    have hw' := (h.line.works t id ⟨o'.side_, o'.qty_⟩).mpr ⟨o', ho', hkey', rfl⟩
    have heq := congrArg WorkingOrder.side_ (Option.some.inj (hw'.symm.trans hw))
    exact heq.trans hside
  constructor
  · cases hfind : (P t).find (A.client_id, id) with
    | none => exact absurd (decide_eq_true hkey) (List.find?_eq_none.mp hfind o hmem)
    | some o' =>
      have hkey' : key o' = (A.client_id, id) :=
        of_decide_eq_true (List.find?_some (p := fun o => decide (key o = _)) hfind)
      exact ⟨o', rfl, hself o' (List.mem_of_find?_eq_some hfind) hkey'⟩
  · apply PriorityBook.ext_side
    · intro s' hs'
      rw [PriorityBook.side_erase _ hs', PriorityBook.side_without _ _ hs hs']
      split
      · next heq =>
        subst heq
        apply List.filter_congr
        intro o' ho'
        rw [decide_eq_decide, not_iff_not]
        constructor
        · intro hkey'
          exact congrArg Prod.fst hkey'
        · intro hclient
          have hid := (h.slots.phase t s' hs).id_of_open (h.open_of_resting hs ho' hclient)
          exact Prod.ext hclient hid
      · next hne =>
        rw [List.filter_eq_self]
        intro o' ho'
        apply decide_eq_true
        intro hkey'
        have ho's := hself o' (PriorityBook.mem_orders.mpr ⟨s', hs', ho'⟩) hkey'
        exact hne (((h.line.engine.wf t).side s' hs' o' ho').symm.trans ho's)
    · exact (PriorityBook.next_id_without (P t) A.client_id s).symm

end quiet

/-! ### Rounds in which one request is sent -/

section sent

variable {N : Arith F} {c : ℕ} {g : Target F} {x y : Member OrderManager} {P : ℕ → PriorityBook}
  {k : Link} {q : MEClientRequest} {call : Call} {r : MEClientResponse}

/-- The engine takes the next request, if there is room. -/
theorem Agrees.exists_own {A : Party F σ ι} {x : Member σ} {rest : List MEClientRequest}
    (h : Agrees A x P k) (hrequests : x.line.requests = q :: rest)
    (hticker : q.ticker_id_ < ME_MAX_TICKERS) (hcall : q.call? = some call)
    (hfits : (P q.ticker_id_).Fits call)
    (hroom : ((P q.ticker_id_).step q.ticker_id_ call).1.Room) :
    ∃ line k', x.line.processNext A.client_id = .ok line ∧ line.requests = rest ∧
      line.responses = x.line.responses ++
        responsesTo A.client_id ((P q.ticker_id_).published q.ticker_id_ call) ∧
      Agrees A { x with line := line } (booksAfter P q) k' := by
  rcases MatchingEngine.processClientRequest_spec_of_fits h.line.engine hticker hcall hfits with
    ⟨book, _, hprocess, _⟩ | ⟨_, hfull⟩
  · obtain ⟨line, hline⟩ : ∃ line, x.line.processNext A.client_id = .ok line := by
      unfold Line.processNext Line.process
      rw [hrequests]
      simp only [hprocess, ok_bind]
      exact ⟨_, rfl⟩
    obtain ⟨k', _, h'⟩ := h.own hrequests ((h.fits hcall).mpr hfits) hline
    refine ⟨line, k', hline, Line.requests_processNext hrequests hline, ?_, h'⟩
    unfold Line.processNext Line.process at hline
    rw [hrequests] at hline
    simp only [hprocess, ok_bind] at hline
    rw [← Except.ok.inj hline]
    simp only [MatchingEngine.store_sent, List.drop_left]
  · exact absurd hroom hfull

/-- The client moves an order. -/
theorem Agrees.moved (h : Agrees (OrderManager.party N c) x P k) (hs : g.side.IsTrading) :
    ∃ k', Agrees (OrderManager.party N c) (x.moved N g) P k' := by
  have hslots : Slots x.party k := h.slots
  obtain ⟨requests, hsends⟩ : ∃ requests, OrderManager.Sends x.party (g.moveOrder N x.party) requests :=
    OrderManager.sends_moveOrder N g.risk x.party g.ticker_id g.price g.side g.qty
  obtain ⟨requests', hsent', hslots'⟩ := hslots.moveOrder hs N g.risk g.ticker_id g.price g.qty
  obtain rfl : requests' = requests := List.append_cancel_left (hsent'.symm.trans hsends.sent)
  have hdrop : (g.moveOrder N x.party).sent.drop x.party.sent.length = requests' := by
    rw [hsends.sent, List.drop_left]
  refine ⟨k.ask requests', hslots', ?_, hsends.client_id.trans h.client_id, ?_, ?_⟩
  · show Line.Refines c (x.line.ask ((g.moveOrder N x.party).sent.drop _)) P (k.ask requests')
    rw [hdrop]
    exact h.line.ask requests'
  · intro q hq
    change q ∈ x.line.requests ++ (g.moveOrder N x.party).sent.drop x.party.sent.length at hq
    show _ ∧ q ∈ (g.moveOrder N x.party).sent
    rw [hdrop] at hq
    rw [hsends.sent]
    rcases List.mem_append.mp hq with hq | hq
    · exact ⟨(h.mine q hq).1, List.mem_append_left _ (h.mine q hq).2⟩
    · exact ⟨(hsends.mine q hq).trans h.client_id, List.mem_append_right _ hq⟩
  · show (g.moveOrder N x.party).next_order_id_ = newCount (g.moveOrder N x.party).sent + 1
    have hnext : x.party.next_order_id_ = newCount x.party.sent + 1 := h.next_order_id
    rw [hsends.next_order_id, hnext, hsends.sent, OrderManager.newCount_append]
    omega

/-- **A round in which one request is sent**, and answered once. -/
theorem Agrees.exists_round (h : Agrees (OrderManager.party N c) x P k)
    (hpriced : Priced c x.party P) (hquiet : x.Quiet) (hs : g.side.IsTrading)
    (hsent : (g.moveOrder N x.party).sent = x.party.sent ++ [q])
    (hticker : q.ticker_id_ < ME_MAX_TICKERS) (hcall : q.call? = some call)
    (hfits : (P q.ticker_id_).Fits call)
    (hroom : ((P q.ticker_id_).step q.ticker_id_ call).1.Room)
    (hone : responsesTo c ((P q.ticker_id_).published q.ticker_id_ call) = [r])
    (hr : r.ticker_id_ < ME_MAX_TICKERS ∧ r.side_.hasIndex = true) :
    ∃ y k', round N c g x = .ok y ∧ y.Quiet ∧
      Agrees (OrderManager.party N c) y (booksAfter P q) k' ∧ Priced c y.party (booksAfter P q) ∧
      y.party = (g.moveOrder N x.party).setOrder r.ticker_id_ r.side_
        (OrderManager.updated
          ((g.moveOrder N x.party).ticker_side_order_ r.ticker_id_ r.side_) r) := by
  have hrequests : (x.moved N g).line.requests = [q] := by
    show x.line.requests ++ (g.moveOrder N x.party).sent.drop x.party.sent.length = [q]
    rw [hquiet.1, hsent, List.drop_left, List.nil_append]
  obtain ⟨k₁, h₁⟩ := h.moved hs
  have hpriced₁ : Priced c (x.moved N g).party P :=
    hpriced.moveOrder h.slots h.line.works hs N g.risk g.ticker_id g.price g.qty
  obtain ⟨line, k₂, hline, hnil, hresponses, h₂⟩ :=
    h₁.exists_own hrequests hticker hcall hfits hroom
  have hpriced₂ := h₁.priced_own hpriced₁ hrequests ((h₁.fits hcall).mpr hfits)
  have hresponses : line.responses = [r] := by
    rw [hresponses]
    show x.line.responses ++ responsesTo c _ = [r]
    rw [hquiet.2, hone, List.nil_append]
  obtain ⟨m, hm⟩ : ∃ m, (g.moveOrder N x.party).onOrderUpdate r = .ok m := by
    unfold OrderManager.onOrderUpdate
    rw [if_pos hr]
    exact ⟨_, rfl⟩
  have h₃ := h₂.response hresponses hm
  refine ⟨⟨m, { line with responses := [] }⟩, _, ?_, ⟨hnil, rfl⟩, h₃, hpriced₂.onOrderUpdate hm,
    OrderManager.onOrderUpdate_eq hm⟩
  -- one event of each kind
  have hrequest : Member.step (OrderManager.party N c) (x.moved N g) .request =
      .ok { x.moved N g with line := line } := by
    show ((x.moved N g).line.processNext c >>= fun line => .ok { x.moved N g with line := line }) = _
    rw [show (x.moved N g).line.processNext c = .ok line from hline]
    rfl
  have hresponse : Member.step (OrderManager.party N c) { x.moved N g with line := line } .response =
      .ok ⟨m, { line with responses := [] }⟩ := by
    simp only [Member.step, hresponses]
    show ((g.moveOrder N x.party).onOrderUpdate r >>= fun party => .ok _) = _
    rw [hm]
    rfl
  unfold round deliverAll run
  rw [hrequests]
  simp only [List.length_singleton, List.replicate_one, List.foldlM_cons, List.foldlM_nil,
    hrequest, ok_bind, pure_bind]
  simp only [hresponses, List.length_singleton, List.replicate_one, List.foldlM_cons,
    List.foldlM_nil, hresponse, ok_bind]
  rfl

end sent

/-! ### From each state of the order -/

section states

variable {N : Arith F} {c : ℕ} {g : Target F} {x y : Member OrderManager} {P : ℕ → PriorityBook}
  {k : Link}

theorem moveOrder_of_idle (hstate : (x.slotOf g).order_state_ = .INVALID ∨
      (x.slotOf g).order_state_ = .DEAD) (hprice : g.price ≠ Price_INVALID)
    (hrisk : g.risk.checkPreTradeRisk N g.side g.qty = .ALLOWED) :
    g.moveOrder N x.party = x.party.newOrder g.ticker_id g.price g.side g.qty := by
  unfold slotOf at hstate
  unfold Target.moveOrder OrderManager.moveOrder
  rcases hstate with hstate | hstate
  · simp only [hstate]
    exact if_pos ⟨hprice, hrisk⟩
  · simp only [hstate]
    exact if_pos ⟨hprice, hrisk⟩

theorem moveOrder_of_live (hstate : (x.slotOf g).order_state_ = .LIVE) :
    g.moveOrder N x.party = if (x.slotOf g).price_ ≠ g.price then
      x.party.cancelOrder g.ticker_id g.side else x.party := by
  unfold slotOf at hstate ⊢
  unfold Target.moveOrder OrderManager.moveOrder
  simp only [hstate]

theorem moveOrder_of_pendingCancel (hstate : (x.slotOf g).order_state_ = .PENDING_CANCEL) :
    g.moveOrder N x.party = x.party := by
  unfold slotOf at hstate
  unfold Target.moveOrder OrderManager.moveOrder
  simp only [hstate]

/-- An order of the wanted price is the wanted one if it has the wanted quantity, which is not
zero. -/
theorem Agrees.quoted_iff (h : Agrees (OrderManager.party N c) x P k) (hpriced : Priced c x.party P)
    (hquiet : x.Quiet) (hs : g.side.IsTrading) (hstate : (x.slotOf g).order_state_ = .LIVE)
    (hprice : (x.slotOf g).price_ = g.price) :
    Quoted c g x ↔ (x.slotOf g).qty_ = g.qty ∧ g.qty ≠ 0 := by
  constructor
  · intro hquoted
    refine ⟨hquoted.qty, ?_⟩
    obtain ⟨o, hresting, _, _, hqty⟩ := hquoted.resting
    rw [h.bookOf_eq] at hresting
    have hmem := PriorityBook.mem_orders_of_filter hs hresting
    rw [← hqty]
    exact Nat.ne_of_gt ((h.line.engine.wf g.ticker_id).qty o hmem).1
  · rintro ⟨hqty, hzero⟩
    have hopen := (h.open_of_live hquiet hs hstate).resolve_right fun hnone =>
      hzero (hqty.symm.trans hnone.1)
    obtain ⟨o, hresting, hside, hleft, hkey⟩ := h.resting_of_open hs hopen
    refine ⟨hstate, hprice, hqty, ⟨o, ?_, congrArg Prod.snd hkey, ?_, hleft.trans hqty⟩, hquiet⟩
    · rw [h.bookOf_eq]
      exact hresting
    · have hmem := PriorityBook.mem_orders_of_filter hs hresting
      rw [hpriced g.ticker_id o hmem (congrArg Prod.fst hkey), hside]
      exact hprice

/-- **With no working order, one round brings the wanted one**, with whatever quantity. -/
theorem Agrees.round_of_idle (h : Agrees (OrderManager.party N c) x P k)
    (hpriced : Priced c x.party P) (hquiet : x.Quiet) (hs : g.side.IsTrading)
    (ht : g.ticker_id < ME_MAX_TICKERS) (hprice : g.price ≠ Price_INVALID)
    (hrisk : g.risk.checkPreTradeRisk N g.side g.qty = .ALLOWED) (hplace : Placeable c g x)
    (hstate : (x.slotOf g).order_state_ = .INVALID ∨ (x.slotOf g).order_state_ = .DEAD) :
    ∃ y P' k', round N c g x = .ok y ∧ y.Quiet ∧ Agrees (OrderManager.party N c) y P' k' ∧
      Priced c y.party P' ∧ (y.slotOf g).order_state_ = .LIVE ∧ (y.slotOf g).price_ = g.price ∧
      (y.slotOf g).qty_ = g.qty := by
  obtain rfl : x.party.client_id_ = c := h.client_id
  have hmove := moveOrder_of_idle hstate hprice hrisk
  have hidle := (Phase.idle_iff hstate).mp (h.phase_of_quiet (t := g.ticker_id) hquiet hs)
  -- the client has no order on this side, so the room was asked for this very book
  have hbook : (x.bookOf g).without x.party.client_id_ g.side = P g.ticker_id := by
    rw [h.bookOf_eq]
    exact h.without_eq_self hs hidle.2.2
  have hfits := hplace.fits
  have hroom := hplace.room
  have huncrossed := hplace.uncrossed
  rw [hbook] at hfits hroom
  rw [h.bookOf_eq] at huncrossed
  set o : OMOrder :=
    { ticker_id_ := g.ticker_id, order_id_ := x.party.next_order_id_, side_ := g.side,
      price_ := g.price, qty_ := g.qty, order_state_ := .PENDING_NEW }
  obtain ⟨r, hone, htype, hticker, hside⟩ :
      ∃ r, responsesTo x.party.client_id_ ((P g.ticker_id).published g.ticker_id
        (.add x.party.client_id_ o.order_id_ g.side g.price g.qty)) = [r] ∧ r.type_ = .ACCEPTED ∧
        r.ticker_id_ = g.ticker_id ∧ r.side_ = g.side := PriorityBook.responsesTo_add huncrossed
  have hsent : (g.moveOrder N x.party).sent =
      x.party.sent ++ [o.newRequest x.party.client_id_] := by
    rw [hmove]
    rfl
  obtain ⟨y, k', hround, hquiet', h', hpriced', hparty⟩ :=
    h.exists_round hpriced hquiet hs hsent ht rfl hfits hroom hone
      ⟨hticker.trans_lt ht, hside ▸ hs.hasIndex⟩
  refine ⟨y, _, k', hround, hquiet', h', hpriced', ?_⟩
  have hnew : (g.moveOrder N x.party).ticker_side_order_ g.ticker_id g.side = o := by
    rw [hmove]
    exact if_pos ⟨rfl, rfl⟩
  have hslot : y.slotOf g = { o with order_state_ := .LIVE } := by
    unfold slotOf
    rw [hparty, hticker, hside, OrderManager.order_setOrder_self, hnew,
      OrderManager.updated_of_accepted htype]
  rw [hslot]
  exact ⟨rfl, rfl, rfl⟩

/-- A cancel never lacks room. -/
theorem Agrees.room_cancel {A : Party F σ ι} {x : Member σ} (h : Agrees A x P k)
    (t client_id order_id : ℕ) : ((P t).step t (.cancel client_id order_id)).1.Room := by
  obtain ⟨sh, hbook⟩ := h.line.engine.books t
  have hroom : (P t).Room := (hbook.holds True).room
  simp only [PriorityBook.step, PriorityBook.cancel]
  split
  · exact hroom
  · exact (PriorityBook.within_erase _ _).room hroom

/-- **What the client hears of its cancel**: the end of the order if it is open, and nothing about
its side if it is not. -/
theorem Agrees.cancel_answered {A : Party F σ ι} {x : Member σ} {t : ℕ} {s : Side}
    (h : Agrees A x P k) (hs : s.IsTrading) :
    ∃ r, responsesTo A.client_id ((P t).published t
        (.cancel A.client_id ((A.orders x.party).ticker_side_order_ t s).order_id_)) = [r] ∧
      r.ticker_id_ = t ∧ r.side_.hasIndex = true ∧
      (k.openFor t s ((A.orders x.party).ticker_side_order_ t s).order_id_ = none → s ≠ r.side_) ∧
      ∀ l, k.openFor t s ((A.orders x.party).ticker_side_order_ t s).order_id_ = some l →
        r.type_ = .CANCELED ∧ r.side_ = s := by
  set id := ((A.orders x.party).ticker_side_order_ t s).order_id_
  obtain ⟨r, hone, hanswer⟩ : ∃ r, responsesTo A.client_id ((P t).published t
      (.cancel A.client_id id)) = [r] ∧ _ := PriorityBook.responsesTo_cancel
  rcases hanswer with ⟨o, hfind, htype, hticker, hside⟩ | ⟨hfind, _, hticker, hside⟩
  · have hmem := List.mem_of_find?_eq_some hfind
    have hkey : key o = (A.client_id, id) :=
      of_decide_eq_true (List.find?_some (p := fun o => decide (key o = _)) hfind)
    refine ⟨r, hone, hticker, ?_, ?_, ?_⟩
    · obtain ⟨s', hs', ho⟩ := PriorityBook.mem_orders.mp hmem
      rw [hside, (h.line.engine.wf t).side s' hs' o ho]
      exact hs'.hasIndex
    · intro hnone heq
      -- an order of this side would be open
      have hw := (h.line.works t id ⟨o.side_, o.qty_⟩).mpr ⟨o, hmem, hkey, rfl⟩
      rw [← hside, ← heq] at hw
      cases hnone.symm.trans (Slots.openFor_of_working hw)
    · intro l hopen
      obtain ⟨⟨o', hfind', hside'⟩, _⟩ := h.cancel_eq_without hs hopen
      obtain rfl := Option.some.inj (hfind.symm.trans hfind')
      exact ⟨htype, hside.trans hside'⟩
  · refine ⟨r, hone, hticker, hside ▸ rfl, ?_, ?_⟩
    · rintro _ rfl
      rw [hside] at hs
      rcases hs with hs | hs
      · cases hs
      · cases hs
    · intro l hopen
      obtain ⟨⟨o', hfind', _⟩, _⟩ := h.cancel_eq_without hs hopen
      cases hfind.symm.trans hfind'

/-- **An order of another price is canceled**: its end is heard of if it rests. -/
theorem Agrees.round_of_live (h : Agrees (OrderManager.party N c) x P k)
    (hpriced : Priced c x.party P) (hquiet : x.Quiet) (hs : g.side.IsTrading)
    (ht : g.ticker_id < ME_MAX_TICKERS) (hplace : Placeable c g x)
    (hstate : (x.slotOf g).order_state_ = .LIVE) (hprice : (x.slotOf g).price_ ≠ g.price) :
    ∃ y k', round N c g x = .ok y ∧ y.Quiet ∧
      Agrees (OrderManager.party N c) y (Function.update P g.ticker_id
        ((P g.ticker_id).cancel g.ticker_id c (x.slotOf g).order_id_).1) k' ∧
      Priced c y.party (Function.update P g.ticker_id
        ((P g.ticker_id).cancel g.ticker_id c (x.slotOf g).order_id_).1) ∧
      y.party.next_order_id_ = x.party.next_order_id_ ∧
      (k.openFor g.ticker_id g.side (x.slotOf g).order_id_ = none →
        (y.slotOf g).order_state_ = .PENDING_CANCEL) ∧
      ∀ l, k.openFor g.ticker_id g.side (x.slotOf g).order_id_ = some l →
        (y.slotOf g).order_state_ = .DEAD := by
  obtain rfl : x.party.client_id_ = c := h.client_id
  have hmove : g.moveOrder N x.party = x.party.cancelOrder g.ticker_id g.side := by
    rw [moveOrder_of_live hstate, if_pos hprice]
  have hsent : (x.slotOf g).order_state_ ≠ .INVALID := by
    rw [hstate]
    intro hinvalid
    cases hinvalid
  obtain ⟨hticker, -, hid⟩ := h.slots.label g.ticker_id g.side hs hsent
  set q := (x.slotOf g).cancelRequest x.party.client_id_
  have hq : q.ticker_id_ = g.ticker_id := hticker
  have hcall : q.call? = some (.cancel x.party.client_id_ (x.slotOf g).order_id_) := rfl
  have hrange : (x.slotOf g).order_id_ < ME_MAX_ORDER_IDS :=
    Nat.lt_trans hid hplace.fits.1.2.2.1
  obtain ⟨r, hone, hr, hindex, hother, hown⟩ := h.cancel_answered (t := g.ticker_id) hs
  have hone' : responsesTo x.party.client_id_ ((P q.ticker_id_).published q.ticker_id_
      (.cancel x.party.client_id_ (x.slotOf g).order_id_)) = [r] := hq ▸ hone
  have hcanceled : (g.moveOrder N x.party).sent = x.party.sent ++ [q] := by
    rw [hmove]
    rfl
  obtain ⟨y, k', hround, hquiet', h', hpriced', hparty⟩ :=
    h.exists_round hpriced hquiet hs hcanceled (hq ▸ ht) hcall ⟨fun _ => hrange, trivial, trivial⟩
      (h.room_cancel ..) hone' ⟨hr.trans_lt ht, hindex⟩
  rw [booksAfter_eq hcall, hq] at h' hpriced'
  refine ⟨y, k', hround, hquiet', h', hpriced', ?_, ?_, ?_⟩
  · rw [hparty, hmove]
    rfl
  · -- a rejection goes to no order of this side, which keeps waiting
    intro hnone
    unfold slotOf
    rw [hparty, OrderManager.order_setOrder_of_ne fun heq => hother hnone heq.2, hmove]
    show (if g.ticker_id = g.ticker_id ∧ g.side = g.side then _ else
      x.party.ticker_side_order_ g.ticker_id g.side).order_state_ = _
    rw [if_pos ⟨rfl, rfl⟩]
  · intro l hopen
    obtain ⟨htype, hside⟩ := hown l hopen
    unfold slotOf
    rw [hparty, hr, hside, OrderManager.order_setOrder_self, OrderManager.updated_of_canceled htype]

/-- With no working order the wanted one is got, unless its quantity is zero. -/
theorem Agrees.converges_iff_of_idle (h : Agrees (OrderManager.party N c) x P k)
    (hpriced : Priced c x.party P) (hquiet : x.Quiet) (hs : g.side.IsTrading)
    (ht : g.ticker_id < ME_MAX_TICKERS) (hprice : g.price ≠ Price_INVALID)
    (hrisk : g.risk.checkPreTradeRisk N g.side g.qty = .ALLOWED) (hplace : Placeable c g x)
    (hstate : (x.slotOf g).order_state_ = .INVALID ∨ (x.slotOf g).order_state_ = .DEAD) :
    Converges N c g x ↔ g.qty ≠ 0 := by
  obtain ⟨y, P', k', hround, hquiet', h', hpriced', hlive, hprice', hqty⟩ :=
    h.round_of_idle hpriced hquiet hs ht hprice hrisk hplace hstate
  have hkept : g.moveOrder N y.party = y.party := by
    rw [moveOrder_of_live hlive, if_neg (not_not_intro hprice')]
  rw [converges_iff_of_round hround, converges_iff_of_kept hquiet' hkept,
    h'.quoted_iff hpriced' hquiet' hs hlive hprice']
  exact and_iff_right hqty

/-- The book without the client's order is the same once the order is canceled. -/
theorem Agrees.placeable_of_canceled {l : ℕ} {k' : Link}
    (h : Agrees (OrderManager.party N c) x P k) (hs : g.side.IsTrading) (hplace : Placeable c g x)
    (hopen : k.openFor g.ticker_id g.side (x.slotOf g).order_id_ = some l)
    (h' : Agrees (OrderManager.party N c) y (Function.update P g.ticker_id
      ((P g.ticker_id).cancel g.ticker_id c (x.slotOf g).order_id_).1) k')
    (hquiet' : y.Quiet) (hnext : y.party.next_order_id_ = x.party.next_order_id_)
    (hdead : (y.slotOf g).order_state_ = .DEAD) : Placeable c g y := by
  obtain ⟨⟨o, hfind, _⟩, herase⟩ := h.cancel_eq_without hs hopen
  have hbook : y.bookOf g = (x.bookOf g).without c g.side := by
    rw [h'.bookOf_eq, Function.update_self, h.bookOf_eq]
    refine Eq.trans ?_ herase
    unfold PriorityBook.cancel
    rw [show (P g.ticker_id).find (c, (x.slotOf g).order_id_) = some o from hfind]
    rfl
  -- nothing of the client is left on the side
  have hidle := (Phase.idle_iff (.inr hdead)).mp (h'.phase_of_quiet (t := g.ticker_id) hquiet' hs)
  have hself : (y.bookOf g).without c g.side = y.bookOf g := by
    rw [h'.bookOf_eq]
    exact h'.without_eq_self hs hidle.2.2
  constructor
  · rw [hself, hbook, hnext]
    exact hplace.fits
  · rw [hself, hbook, hnext]
    exact hplace.room
  · rw [hbook, PriorityBook.side_without _ _ hs hs.opposite, if_neg hs.opposite_ne]
    exact hplace.uncrossed

/-- **Where the rounds lead to.** -/
theorem Agrees.converges_iff_of_placeable (h : Agrees (OrderManager.party N c) x P k)
    (hpriced : Priced c x.party P) (hquiet : x.Quiet) (hs : g.side.IsTrading)
    (ht : g.ticker_id < ME_MAX_TICKERS) (hprice : g.price ≠ Price_INVALID)
    (hrisk : g.risk.checkPreTradeRisk N g.side g.qty = .ALLOWED) (hplace : Placeable c g x) :
    Converges N c g x ↔ g.qty ≠ 0 ∧ (x.slotOf g).order_state_ ≠ .PENDING_CANCEL ∧
      ((x.slotOf g).order_state_ = .LIVE → (x.slotOf g).qty_ ≠ 0 ∧
        ((x.slotOf g).price_ = g.price → (x.slotOf g).qty_ = g.qty)) := by
  have hidle : (x.slotOf g).order_state_ = .INVALID ∨ (x.slotOf g).order_state_ = .DEAD →
      (Converges N c g x ↔ g.qty ≠ 0) :=
    h.converges_iff_of_idle hpriced hquiet hs ht hprice hrisk hplace
  cases hstate : (x.slotOf g).order_state_ with
  | INVALID =>
    rw [hidle (.inl hstate)]
    simp
  | DEAD =>
    rw [hidle (.inr hstate)]
    simp
  | PENDING_NEW => exact absurd hstate (h.not_pendingNew hquiet hs)
  | PENDING_CANCEL =>
    rw [converges_iff_of_kept hquiet (moveOrder_of_pendingCancel hstate)]
    constructor
    · intro hquoted
      cases hstate.symm.trans hquoted.state
    · intro hcondition
      exact absurd rfl hcondition.2.1
  | LIVE =>
    by_cases hsame : (x.slotOf g).price_ = g.price
    · have hkept : g.moveOrder N x.party = x.party := by
        rw [moveOrder_of_live hstate, if_neg (not_not_intro hsame)]
      rw [converges_iff_of_kept hquiet hkept, h.quoted_iff hpriced hquiet hs hstate hsame]
      constructor
      · rintro ⟨hqty, hzero⟩
        exact ⟨hzero, (nomatch ·), fun _ => ⟨hqty ▸ hzero, fun _ => hqty⟩⟩
      · rintro ⟨hzero, _, hlive⟩
        exact ⟨(hlive rfl).2 hsame, hzero⟩
    · obtain ⟨y, k', hround, hquiet', h', hpriced', hnext, hgone, hcanceled⟩ :=
        h.round_of_live hpriced hquiet hs ht hplace hstate hsame
      rw [converges_iff_of_round hround]
      rcases h.open_of_live hquiet hs hstate with hopen | ⟨hempty, hnone⟩
      · -- canceled, and sent again
        have hdead := hcanceled _ hopen
        have hplace' := h.placeable_of_canceled hs hplace hopen h' hquiet' hnext hdead
        rw [h'.converges_iff_of_idle hpriced' hquiet' hs ht hprice hrisk hplace' (.inr hdead)]
        have hqty : (x.slotOf g).qty_ ≠ 0 := by
          obtain ⟨o, hresting, _, hleft, _⟩ := h.resting_of_open hs hopen
          have hmem := PriorityBook.mem_orders_of_filter hs hresting
          have hpos := ((h.line.engine.wf g.ticker_id).qty o hmem).1
          rw [hleft] at hpos
          exact Nat.ne_of_gt hpos
        simp [hqty, hsame]
      · -- an order of quantity zero never rests, and its cancel is rejected
        have hpending := hgone hnone
        rw [converges_iff_of_kept hquiet' (moveOrder_of_pendingCancel hpending)]
        constructor
        · intro hquoted
          cases hpending.symm.trans hquoted.state
        · intro hcondition
          exact absurd hempty (hcondition.2.2 rfl).1

end states

/-! ### Over runs -/

section states

variable {N : Arith F} {c : ℕ} {g : Target F}

/-- **Which quotes converge**, from every state with nothing in flight that a run reaches whose
requests fit.  An order at the wanted price is not replaced, whatever its quantity. -/
theorem converges_iff {events : List (Event (Move F))} {x : Member OrderManager}
    (hmeets : Lib.Runs.Along (step (OrderManager.party N c)) (Meets (OrderManager.party N c))
      (new (OrderManager.party N c)) events)
    (hrun : run (OrderManager.party N c) (new (OrderManager.party N c)) events = .ok x)
    (hquiet : x.Quiet) (hs : g.side.IsTrading) (ht : g.ticker_id < ME_MAX_TICKERS)
    (hprice : g.price ≠ Price_INVALID)
    (hrisk : g.risk.checkPreTradeRisk N g.side g.qty = .ALLOWED) (hplace : Placeable c g x) :
    Converges N c g x ↔ g.qty ≠ 0 ∧ (x.slotOf g).order_state_ ≠ .PENDING_CANCEL ∧
      ((x.slotOf g).order_state_ = .LIVE → (x.slotOf g).qty_ ≠ 0 ∧
        ((x.slotOf g).price_ = g.price → (x.slotOf g).qty_ = g.qty)) := by
  obtain ⟨P, k, h, hpriced⟩ := priced_of_run hmeets hrun
  exact h.converges_iff_of_placeable hpriced hquiet hs ht hprice hrisk hplace

end states

/-! ### A bid that is hit -/

/-- A bid of ten at 100 is accepted and hit for four. -/
def hitBid : List (Event (Move (Option ℚ))) :=
  [quote 100, .request, .other hit, .response, .response]

/-- A bid of ten, within the limits of `quote`. -/
def tenAt (price : ℤ) : Target (Option ℚ) where
  risk :=
    { position_info_ := PositionInfo.new Arith.exact fun _ => some 0
      risk_cfg_ := { max_order_size_ := 50, max_position_ := 100, max_loss_ := some (-1000) } }
  ticker_id := 0
  price := price
  side := .BUY
  qty := 10

instance (client_id : ℕ) (g : Target F) (x : Member OrderManager) :
    Decidable (Placeable client_id g x) :=
  decidable_of_iff (_ ∧ _ ∧ _)
    ⟨fun ⟨hfits, hroom, huncrossed⟩ => ⟨hfits, hroom, huncrossed⟩,
      fun ⟨hfits, hroom, huncrossed⟩ => ⟨hfits, hroom, huncrossed⟩⟩

/-- Six are left at 100, and nothing is in flight. -/
theorem exists_hitBid (price : ℤ) (hplace : ((run (OrderManager.party Arith.exact 1)
      (new (OrderManager.party Arith.exact 1)) hitBid).toOption.map fun x =>
        decide (Placeable 1 (tenAt price) x)) = some true) :
    ∃ x, run (OrderManager.party Arith.exact 1) (new (OrderManager.party Arith.exact 1)) hitBid =
        .ok x ∧ x.Quiet ∧ Placeable 1 (tenAt price) x ∧
      (x.slotOf (tenAt price)).order_state_ = .LIVE ∧ (x.slotOf (tenAt price)).price_ = 100 ∧
      (x.slotOf (tenAt price)).qty_ = 6 := by
  have hcheck : ((run (OrderManager.party Arith.exact 1) (new (OrderManager.party Arith.exact 1))
      hitBid).toOption.map fun x =>
        (decide x.Quiet, (x.party.ticker_side_order_ 0 .BUY).order_state_,
          (x.party.ticker_side_order_ 0 .BUY).price_, (x.party.ticker_side_order_ 0 .BUY).qty_)) =
      some (true, .LIVE, 100, 6) := by decide +kernel
  cases hrun : run (OrderManager.party Arith.exact 1) (new (OrderManager.party Arith.exact 1))
      hitBid with
  | error fault =>
    rw [hrun] at hcheck
    cases hcheck
  | ok x =>
    rw [hrun] at hcheck hplace
    obtain ⟨hquiet, hslot⟩ := Prod.mk.inj (Option.some.inj hcheck)
    obtain ⟨hstate, hslot⟩ := Prod.mk.inj hslot
    obtain ⟨hprice, hqty⟩ := Prod.mk.inj hslot
    exact ⟨x, rfl, of_decide_eq_true hquiet, of_decide_eq_true (Option.some.inj hplace), hstate,
      hprice, hqty⟩

/-- What is left of the bid is replaced by ten at 101. -/
theorem converges_iff_hitBid : ∃ x, run (OrderManager.party Arith.exact 1)
    (new (OrderManager.party Arith.exact 1)) hitBid = .ok x ∧
      Converges Arith.exact 1 (tenAt 101) x := by
  obtain ⟨x, hrun, hquiet, hplace, hstate, hprice, hqty⟩ := exists_hitBid 101 (by decide +kernel)
  refine ⟨x, hrun, (converges_iff (by decide +kernel) hrun hquiet (.inl rfl) (by decide)
    (by decide) (by decide +kernel) hplace).mpr ⟨by decide, ?_, ?_⟩⟩
  · rw [hstate]
    decide
  · intro _
    rw [hprice, hqty]
    decide

/-- What is left of the bid is not replaced by ten at 100. -/
theorem not_converges_hitBid :
    ¬ ∀ (client_id : ℕ) (g : Target (Option ℚ)) (events : List (Event (Move (Option ℚ))))
        (x : Member OrderManager),
      Lib.Runs.Along (step (OrderManager.party Arith.exact client_id))
        (Meets (OrderManager.party Arith.exact client_id))
        (new (OrderManager.party Arith.exact client_id)) events →
      run (OrderManager.party Arith.exact client_id)
        (new (OrderManager.party Arith.exact client_id)) events = .ok x →
      x.Quiet → g.side.IsTrading → g.ticker_id < ME_MAX_TICKERS → g.price ≠ Price_INVALID →
      g.risk.checkPreTradeRisk Arith.exact g.side g.qty = .ALLOWED → Placeable client_id g x →
      Converges Arith.exact client_id g x := by
  intro h
  obtain ⟨x, hrun, hquiet, hplace, hstate, hprice, hqty⟩ := exists_hitBid 100 (by decide +kernel)
  have hconverges := h 1 (tenAt 100) hitBid x (by decide +kernel) hrun hquiet (.inl rfl) (by decide)
    (by decide) (by decide +kernel) hplace
  have hkept : (tenAt 100).moveOrder Arith.exact x.party = x.party := by
    rw [moveOrder_of_live hstate]
    exact if_neg (not_not_intro hprice)
  rw [converges_iff_of_kept hquiet hkept] at hconverges
  cases hqty.symm.trans hconverges.qty

end Member

end TradingEcosystem
