import TradingEcosystem.Book.Traced
import TradingEcosystem.Common.WireFormat
import TradingEcosystem.Exchange.MatchingEngine

/-!
# Whom the Responses are For

Every response of the matching engine goes to a client that sent it a request, and its fields fit
their types.  The requests are any, and nothing is assumed of the shape of the books: slots may be
shared and ids may repeat.

- `Known` : the data of an order that came from a known client
- `Addressed` : a response to a known client
- `MatchingEngine.Courteous` : the engine keeps known orders and sent addressed responses only
- `Courteous.process` : every request of a known client keeps this
-/

namespace TradingEcosystem

open LimitBook

/-- The order came from a known client, and its fields fit their types. -/
structure Known (B : ℕ → Prop) (o : MEOrderInfo) : Prop where
  client_id : B o.client_id_
  client_order_id : o.client_order_id_ < 2 ^ 64
  side : o.side_.OnWire
  price : PriceOnWire o.price_
  qty : o.qty_ < 2 ^ 32

/-- The response is for a known client, and its fields fit their types.  Market order ids are
counted without a bound here, so they are left out. -/
structure Addressed (B : ℕ → Prop) (r : MEClientResponse) : Prop where
  client_id : B r.client_id_
  ticker_id : r.ticker_id_ < 2 ^ 32
  client_order_id : r.client_order_id_ < 2 ^ 64
  side : r.side_.OnWire
  price : PriceOnWire r.price_
  exec_qty : r.exec_qty_ < 2 ^ 32
  leaves_qty : r.leaves_qty_ < 2 ^ 32

variable {B B' : ℕ → Prop}

theorem Known.mono {o : MEOrderInfo} (h : Known B o) (hB : ∀ c, B c → B' c) : Known B' o :=
  { h with client_id := hB _ h.client_id }

theorem Addressed.mono {r : MEClientResponse} (h : Addressed B r) (hB : ∀ c, B c → B' c) :
    Addressed B' r :=
  { h with client_id := hB _ h.client_id }

/-- The order as it is when part of it was traded. -/
theorem Known.traded {o : MEOrderInfo} (h : Known B o) (fill_qty : ℕ) :
    Known B { o with qty_ := qtySub o.qty_ fill_qty } :=
  { h with qty := qtySub_lt .. }

/-- The response as its fields hold it: market order ids are of type `uint64_t`. -/
def MEClientResponse.held (r : MEClientResponse) : MEClientResponse :=
  { r with market_order_id_ := r.market_order_id_ % 2 ^ 64 }

theorem MEClientResponse.toBytes_held (r : MEClientResponse) : r.held.toBytes = r.toBytes := by
  have hid : Lib.Wire.toBytes 8 (r.market_order_id_ % 2 ^ 64) =
      Lib.Wire.toBytes 8 r.market_order_id_ := Lib.Wire.toBytes_mod 8 _
  unfold MEClientResponse.toBytes MEClientResponse.held
  simp only [hid]

theorem Addressed.onWire_held {r : MEClientResponse} (h : Addressed B r)
    (hB : ∀ c, B c → c < 2 ^ 32) : r.held.OnWire where
  client_id := hB _ h.client_id
  ticker_id := h.ticker_id
  client_order_id := h.client_order_id
  market_order_id := Nat.mod_lt _ (Nat.two_pow_pos 64)
  side := h.side
  price := h.price
  exec_qty := h.exec_qty
  leaves_qty := h.leaves_qty

theorem Side.onWire_invalid : Side.INVALID.OnWire := ⟨by decide, rfl⟩

theorem priceOnWire_invalid : PriceOnWire Price_INVALID := ⟨by decide, by decide⟩

theorem qty_invalid_lt : Qty_INVALID < 2 ^ 32 := by decide

namespace MEOrderBook

/-- The book keeps known orders and sent addressed responses only. -/
structure Courteous (B : ℕ → Prop) (b : MEOrderBook) : Prop where
  traced : Traced (Known B) b.book
  sent : ∀ r ∈ clientResponses b.sent, Addressed B r

variable {b b' : MEOrderBook}

theorem Courteous.mono (h : Courteous B b) (hB : ∀ c, B c → B' c) : Courteous B' b where
  traced := h.traced.mono fun _ ho => ho.mono hB
  sent := fun r hr => (h.sent r hr).mono hB

theorem courteous_new (ticker_id : ℕ) : Courteous B (MEOrderBook.new ticker_id) where
  traced :=
    { key := fun _ _ hp => absurd hp (Option.some_ne_none _).symm
      first := fun _ _ hp => absurd hp (Option.some_ne_none _).symm
      prev := fun _ _ hp => absurd hp (Option.some_ne_none _).symm
      next := fun _ _ hp => absurd hp (Option.some_ne_none _).symm }
  sent := fun _ hr => absurd hr List.not_mem_nil

theorem Courteous.sendClientResponse (h : Courteous B b) {r : MEClientResponse}
    (hr : Addressed B r) : Courteous B (b.sendClientResponse r) where
  traced := h.traced
  sent := fun r' hr' => by
    have hsent : clientResponses (b.sendClientResponse r).sent = clientResponses b.sent ++ [r] :=
      clientResponses_append ..
    rw [hsent] at hr'
    rcases List.mem_append.mp hr' with hr' | hr'
    · exact h.sent r' hr'
    · rw [List.mem_singleton.mp hr']
      exact hr

theorem Courteous.sendMarketUpdate (h : Courteous B b) (u : MEMarketUpdate) :
    Courteous B (b.sendMarketUpdate u) where
  traced := h.traced
  sent := fun r hr => by
    have hsent : clientResponses (b.sendMarketUpdate u).sent = clientResponses b.sent ++ [] :=
      clientResponses_append ..
    rw [hsent, List.append_nil] at hr
    exact h.sent r hr

theorem Courteous.removeOrder (h : Courteous B b) {o : ℕ} (hrun : b.removeOrder o = .ok b') :
    Courteous B b' := by
  obtain ⟨book, hbook, hrun⟩ := bind_eq_ok.mp hrun
  cases hrun
  exact ⟨h.traced.removeOrder hbook, h.sent⟩

section add

variable {ticker_id client_id client_order_id : ℕ} {side : Side} {price : ℤ}

/-- **A fill tells the aggressor and the owner of the resting order**, both known. -/
theorem Courteous.matchOrder (h : Courteous B b) {new_market_order_id itr leaves leaves' : ℕ}
    (hclient : B client_id) (hticker : ticker_id < 2 ^ 32) (horder : client_order_id < 2 ^ 64)
    (hside : side.OnWire) (hitr : Known B (b.order itr))
    (hrun : b.matchOrder ticker_id client_id side client_order_id new_market_order_id itr leaves =
      .ok (b', leaves')) : Courteous B b' ∧ leaves' < 2 ^ 32 := by
  unfold MEOrderBook.matchOrder at hrun
  simp only at hrun
  set fill_qty := min leaves (b.order itr).qty_ with hfill
  set b₁ : MEOrderBook := { b with
    book := b.book.modInfo itr fun order => { order with qty_ := qtySub order.qty_ fill_qty } }
  have htraced : Traced (Known B) (b.book.modInfo itr fun order =>
      { order with qty_ := qtySub order.qty_ fill_qty }) :=
    h.traced.modInfo fun ho => ho.traded fill_qty
  have h₁ : Courteous B b₁ := ⟨htraced, h.sent⟩
  have hmaker : Known B (b₁.order itr) := by
    have hget : b₁.order itr =
        { b.order itr with qty_ := qtySub (b.order itr).qty_ fill_qty } :=
      congrArg QueuedOrder.info ((order_modOrder ..).trans (if_pos rfl))
    rw [hget]
    exact hitr.traded fill_qty
  have hexec : fill_qty < 2 ^ 32 := by
    have hqty := hitr.qty
    omega
  -- the messages are sent before the resting order is removed
  have htold := ((h₁.sendClientResponse (r :=
    { type_ := .FILLED, client_id_ := client_id, ticker_id_ := ticker_id,
      client_order_id_ := client_order_id, market_order_id_ := new_market_order_id,
      side_ := side, price_ := (b₁.order itr).price_, exec_qty_ := fill_qty,
      leaves_qty_ := qtySub leaves fill_qty })
    ⟨hclient, hticker, horder, hside, hmaker.price, hexec, qtySub_lt ..⟩).sendClientResponse (r :=
    { type_ := .FILLED, client_id_ := (b₁.order itr).client_id_, ticker_id_ := ticker_id,
      client_order_id_ := (b₁.order itr).client_order_id_,
      market_order_id_ := (b₁.order itr).market_order_id_, side_ := (b₁.order itr).side_,
      price_ := (b₁.order itr).price_, exec_qty_ := fill_qty,
      leaves_qty_ := (b₁.order itr).qty_ })
    ⟨hmaker.client_id, hticker, hmaker.client_order_id, hmaker.side, hmaker.price, hexec,
      hmaker.qty⟩)
  split at hrun
  · obtain ⟨b₂, hremove, hrun⟩ := bind_eq_ok.mp hrun
    cases hrun
    exact ⟨((htold.sendMarketUpdate _).sendMarketUpdate _).removeOrder hremove, qtySub_lt ..⟩
  · cases hrun
    exact ⟨(htold.sendMarketUpdate _).sendMarketUpdate _, qtySub_lt ..⟩

/-- The orders the loop comes to are known, and so are those it leaves; induction on its
iterations. -/
theorem Courteous.matchLoop {new_market_order_id : ℕ} (hclient : B client_id)
    (hticker : ticker_id < 2 ^ 32) (horder : client_order_id < 2 ^ 64) (hside : side.OnWire)
    {fuel : ℕ} :
    ∀ {b : MEOrderBook} {leaves leaves' : ℕ}, Courteous B b → leaves < 2 ^ 32 →
      MEOrderBook.matchLoop ticker_id client_id side client_order_id new_market_order_id price fuel
        b leaves = .ok (b', leaves') → Courteous B b' ∧ leaves' < 2 ^ 32 := by
  induction fuel with
  | zero =>
    intro b leaves leaves' _ _ hrun
    cases hrun
  | succ fuel ih =>
    intro b leaves leaves' h hleaves hrun
    rw [MEOrderBook.matchLoop] at hrun
    split at hrun
    · cases hrun
      exact ⟨h, hleaves⟩
    · split at hrun
      · cases hrun
        exact ⟨h, hleaves⟩
      · next l _ =>
        obtain ⟨itr, hfirst, hrun⟩ := bind_eq_ok.mp hrun
        split at hrun
        · cases hrun
          exact ⟨h, hleaves⟩
        · obtain ⟨⟨b₁, left⟩, hmatch, hloop⟩ := bind_eq_ok.mp hrun
          have hitr : Known B (b.order itr) := h.traced.first l itr (deref_eq_ok.mp hfirst)
          obtain ⟨h₁, hleft⟩ := h.matchOrder hclient hticker horder hside hitr hmatch
          exact ih h₁ hleft hloop

theorem Courteous.checkForMatch (h : Courteous B b) {new_market_order_id qty : ℕ}
    {r : MEOrderBook × ℕ} (hclient : B client_id) (hticker : ticker_id < 2 ^ 32)
    (horder : client_order_id < 2 ^ 64) (hside : side.OnWire) (hqty : qty < 2 ^ 32)
    (hrun : b.checkForMatch client_id client_order_id ticker_id side price qty new_market_order_id =
      .ok r) : Courteous B r.1 ∧ r.2 < 2 ^ 32 := by
  unfold MEOrderBook.checkForMatch at hrun
  split at hrun
  · exact Courteous.matchLoop hclient hticker horder hside h hqty hrun
  · cases hrun
    exact ⟨h, hqty⟩

/-- **A new order of a known client.** -/
theorem Courteous.add (h : Courteous B b) {qty : ℕ} (hclient : B client_id)
    (hticker : ticker_id < 2 ^ 32) (horder : client_order_id < 2 ^ 64) (hside : side.OnWire)
    (hprice : PriceOnWire price) (hqty : qty < 2 ^ 32)
    (hrun : b.add client_id client_order_id ticker_id side price qty = .ok b') :
    Courteous B b' := by
  obtain ⟨⟨b₁, leaves⟩, hcheck, hrun⟩ := bind_eq_ok.mp hrun
  have haccepted := h.sendClientResponse (r :=
    { type_ := .ACCEPTED, client_id_ := client_id, ticker_id_ := ticker_id,
      client_order_id_ := client_order_id, market_order_id_ := b.next_market_order_id_,
      side_ := side, price_ := price, exec_qty_ := 0, leaves_qty_ := qty })
    ⟨hclient, hticker, horder, hside, hprice, Nat.two_pow_pos 32, hqty⟩
  have hcounted : Courteous B (b.generateNewMarketOrderId.2.sendClientResponse
    { type_ := .ACCEPTED, client_id_ := client_id, ticker_id_ := ticker_id,
      client_order_id_ := client_order_id, market_order_id_ := b.next_market_order_id_,
      side_ := side, price_ := price, exec_qty_ := 0, leaves_qty_ := qty }) :=
    ⟨haccepted.traced, haccepted.sent⟩
  obtain ⟨h₁, hleaves⟩ := hcounted.checkForMatch hclient hticker horder hside hqty hcheck
  simp only at hrun
  split at hrun
  · -- what is left of it is kept under the data of the request
    obtain ⟨priority, -, hrun⟩ := bind_eq_ok.mp hrun
    obtain ⟨book, hinsert, hrun⟩ := bind_eq_ok.mp hrun
    cases hrun
    have hkept : Courteous B { b₁ with book := book } :=
      ⟨h₁.traced.insertOrder ⟨hclient, horder, hside, hprice, hleaves⟩ hinsert, h₁.sent⟩
    exact hkept.sendMarketUpdate _
  · cases hrun
    exact h₁

/-- **A cancellation by a known client.** -/
theorem Courteous.cancel (h : Courteous B b) (hclient : B client_id) (hticker : ticker_id < 2 ^ 32)
    (horder : client_order_id < 2 ^ 64)
    (hrun : b.cancel client_id client_order_id ticker_id = .ok b') : Courteous B b' := by
  obtain ⟨found, hfind, hrun⟩ := bind_eq_ok.mp hrun
  cases found with
  | none =>
    cases hrun
    exact h.sendClientResponse
      ⟨hclient, hticker, horder, Side.onWire_invalid, priceOnWire_invalid, qty_invalid_lt,
        qty_invalid_lt⟩
  | some o =>
    obtain ⟨b₁, hremove, hrun⟩ := bind_eq_ok.mp hrun
    cases hrun
    have ho : Known B (b.order o) := by
      unfold findCancelable at hfind
      split at hfind
      · unfold LimitBook.getKey at hfind
        split at hfind
        · exact h.traced.key _ o (Except.ok.inj hfind)
        · cases hfind
      · cases hfind
    exact ((h.removeOrder hremove).sendMarketUpdate _).sendClientResponse
      ⟨hclient, hticker, horder, ho.side, ho.price, qty_invalid_lt, ho.qty⟩

end add

end MEOrderBook

/-! ## The engine -/

/-- The request came from a known client, and its fields fit their types. -/
def MEClientRequest.From (B : ℕ → Prop) (r : MEClientRequest) : Prop := B r.client_id_ ∧ r.OnWire

namespace MatchingEngine

/-- The books keep known orders only, and the responses sent so far are addressed. -/
structure Courteous (B : ℕ → Prop) (e : MatchingEngine) : Prop where
  book : ∀ t, MEOrderBook.Courteous B (e.ticker_order_book_ t)
  sent : ∀ r ∈ clientResponses e.sent, Addressed B r

variable {e e' : MatchingEngine} {r : MEClientRequest}

theorem Courteous.mono (h : Courteous B e) (hB : ∀ c, B c → B' c) : Courteous B' e where
  book := fun t => (h.book t).mono hB
  sent := fun r hr => (h.sent r hr).mono hB

theorem courteous_new : Courteous B MatchingEngine.new where
  book := MEOrderBook.courteous_new
  sent := fun _ hr => absurd hr List.not_mem_nil

theorem Courteous.dispatch {b b' : MEOrderBook} (h : MEOrderBook.Courteous B b) (hr : r.From B)
    (hrun : MatchingEngine.dispatch b r = .ok b') : MEOrderBook.Courteous B b' := by
  obtain ⟨hclient, hwire⟩ := hr
  unfold MatchingEngine.dispatch at hrun
  split at hrun
  · exact h.add hclient hwire.ticker_id hwire.order_id hwire.side hwire.price hwire.qty hrun
  · exact h.cancel hclient hwire.ticker_id hwire.order_id hrun
  · cases hrun
  · cases hrun

/-- **Every request of a known client** leaves the engine courteous. -/
theorem Courteous.process (h : Courteous B e) (hr : r.From B)
    (hrun : e.processClientRequest r = .ok e') : Courteous B e' := by
  unfold processClientRequest at hrun
  split at hrun
  · obtain ⟨book, hdispatch, hrun⟩ := bind_eq_ok.mp hrun
    cases hrun
    have hbook := Courteous.dispatch (h.book r.ticker_id_) hr hdispatch
    constructor
    · intro t
      by_cases ht : t = r.ticker_id_
      · subst ht
        rw [store_self]
        exact hbook
      · rw [store_ne _ ht]
        exact h.book t
    · intro r' hr'
      rw [store_sent, clientResponses_append] at hr'
      rcases List.mem_append.mp hr' with hr' | hr'
      · exact h.sent r' hr'
      · -- what the book sent for this request is part of all it sent
        apply hbook.sent
        exact ((List.drop_sublist ..).filterMap _).mem hr'
  · cases hrun

/-- A request only adds to what the engine sent. -/
theorem sent_process (hrun : e.processClientRequest r = .ok e') : e.sent <+: e'.sent := by
  unfold processClientRequest at hrun
  split at hrun
  · obtain ⟨book, -, hrun⟩ := bind_eq_ok.mp hrun
    cases hrun
    exact List.prefix_append ..
  · cases hrun

end MatchingEngine

end TradingEcosystem
