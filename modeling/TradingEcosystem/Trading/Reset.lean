import TradingEcosystem.Trading.Quotes

/-!
# What CLEAR Resets

`case CLEAR` frees every level and order but leaves the price map as it is.  So a cleared book is
like a new one exactly when there was nothing to clear: after any other `CLEAR` an order at an
old price is queued on a freed level that no side lists.

- `SameView`, `Sound` : what a reader of two books can tell apart, and what it never meets
- `onMarketUpdate_clear_empty` : a `CLEAR` of an empty book
- `not_clearResets_of_mem` : a `CLEAR` of a book with an order in it
- `clearResets_iff_empty` : the exact condition
-/

namespace TradingEcosystem

open LimitBook

namespace MarketOrderBook

/-! ## Reading a book -/

/-- The order found under an id. -/
def orderAt (b : LimitBook MarketOrderInfo ℕ) (oid : ℕ) : Option MarketOrderInfo :=
  (b.key_to_order_ oid).map fun o => (b.order o).info

/-- The level found for a price, with its queue. -/
def levelAt (b : LimitBook MarketOrderInfo ℕ) (price : ℤ) :
    Option (ℤ × List MarketOrderInfo) :=
  (b.getOrdersAtPrice price).map fun l =>
    ((b.level l).price_, (b.queueList l).map fun o => (b.order o).info)

/-- The two books have the same levels and queues, and every lookup finds the same. -/
structure SameView (b b' : LimitBook MarketOrderInfo ℕ) : Prop where
  levels : ∀ s, s.IsTrading → b.levelsView s = b'.levelsView s
  orderAt : ∀ oid, orderAt b oid = orderAt b' oid
  levelAt : ∀ price, levelAt b price = levelAt b' price

/-- Every order the book knows is queued on a level of its side, and no map leads to a block that
was freed. -/
structure Sound (b : LimitBook MarketOrderInfo ℕ) : Prop where
  linked : ∀ oid o, b.key_to_order_ oid = some o →
    ∃ l ∈ b.levelList (b.order o).info.side_, o ∈ b.queueList l
  levels : ∀ i l, b.price_orders_at_price_ i = some l → l ∈ b.orders_at_price_pool_.used
  orders : ∀ oid o, b.key_to_order_ oid = some o → o ∈ b.order_pool_.used

section view

variable {b b' : LimitBook MarketOrderInfo ℕ} {sh sh' : Shape} {Q : Quotes}

theorem Holds.orderAt_eq_some (h : Holds b sh Q) {oid : ℕ} {x : MarketOrderInfo} :
    orderAt b oid = some x ↔ x ∈ Q.orders ∧ x.order_id_ = oid := by
  unfold orderAt
  rw [Option.map_eq_some_iff, ← h.orders_eq, List.mem_map]
  constructor
  · intro hx
    obtain ⟨o, ho, rfl⟩ := hx
    obtain ⟨hmem, hid⟩ := (h.rep.keys oid o).mp ho
    exact ⟨⟨o, hmem, rfl⟩, hid⟩
  · intro hx
    obtain ⟨⟨o, hmem, rfl⟩, hid⟩ := hx
    exact ⟨o, (h.rep.keys oid o).mpr ⟨hmem, hid⟩, rfl⟩

theorem levelAt_eq_some (h : BookRep b sh) {price : ℤ} {g : ℤ × List MarketOrderInfo} :
    levelAt b price = some g ↔
      ∃ s, s.IsTrading ∧ g ∈ b.levelsView s ∧ priceToIndex g.1 = priceToIndex price := by
  unfold levelAt LimitBook.getOrdersAtPrice LimitBook.levelsView
  rw [Option.map_eq_some_iff]
  constructor
  · intro hg
    obtain ⟨l, hl, rfl⟩ := hg
    obtain ⟨hall, hidx⟩ := (h.slots _ l).mp hl
    obtain ⟨s, hs, hls⟩ := Shape.mem_all.mp hall
    refine ⟨s, hs, List.mem_map.mpr ⟨l, ?_, rfl⟩, hidx⟩
    rw [h.levelList_eq hs]
    exact hls
  · intro hg
    obtain ⟨s, hs, hmem, hidx⟩ := hg
    obtain ⟨l, hl, rfl⟩ := List.mem_map.mp hmem
    rw [h.levelList_eq hs] at hl
    exact ⟨l, (h.slots _ l).mpr ⟨Shape.mem_all.mpr ⟨s, hs, hl⟩, hidx⟩, rfl⟩

/-- Books that hold the same quotes cannot be told apart. -/
theorem Holds.sameView (h : Holds b sh Q) (h' : Holds b' sh' Q) : SameView b b' where
  levels := fun _ hs => h'.levelsView_eq h hs
  orderAt := fun oid => Option.ext fun x => by rw [h.orderAt_eq_some, h'.orderAt_eq_some]
  levelAt := fun price => Option.ext fun g => by
    rw [levelAt_eq_some h.rep, levelAt_eq_some h'.rep]
    constructor
    · intro hg
      obtain ⟨s, hs, hmem, hidx⟩ := hg
      exact ⟨s, hs, h.levelsView_eq h' hs ▸ hmem, hidx⟩
    · intro hg
      obtain ⟨s, hs, hmem, hidx⟩ := hg
      exact ⟨s, hs, h'.levelsView_eq h hs ▸ hmem, hidx⟩

theorem sound_of_bookRep (h : BookRep b sh) : Sound b where
  linked := fun oid o ho => by
    obtain ⟨l, hl, hol⟩ := Shape.mem_orders.mp ((h.keys oid o).mp ho).1
    obtain ⟨s, hs, hls, hq⟩ := h.queue_rep hl
    have hside : (b.order o).info.side_ = s := hq.side o hol
    refine ⟨l, ?_, ?_⟩
    · rw [hside, h.levelList_eq hs]
      exact hls
    · rw [h.queueList_eq hs hls]
      exact hol
  levels := fun i l hl => (h.level_used l).mpr ((h.slots i l).mp hl).1
  orders := fun oid o ho => (h.order_used o).mpr ((h.keys oid o).mp ho).1

end view

/-! ## CLEAR -/

/-- The book that processes the `CLEAR` `u` is from then on like a new one: whatever updates
follow, the two go on without a fault, cannot be told apart, and the cleared one stays sound. -/
def ClearResets (m : MarketOrderBook) (u : MEMarketUpdate) : Prop :=
  ∃ m₀, m.onMarketUpdate u = .ok m₀ ∧ ∀ later, Quotes.empty.AdmitsAll later →
    ∃ m₁ fresh, m₀.run later = .ok m₁ ∧
      (MarketOrderBook.new m.ticker_id_).run later = .ok fresh ∧
      SameView m₁.book fresh.book ∧ Sound m₁.book

/-- A `CLEAR` of an empty book is a full reset. -/
theorem clearResets_empty {m : MarketOrderBook} {sh : Shape} {u : MEMarketUpdate}
    (h : Holds m.book sh .empty) (hu : u.type_ = .CLEAR) : ClearResets m u := by
  have hadm : Quotes.empty.Admits u := by simp only [Quotes.Admits, hu]
  obtain ⟨m₀, sh₀, hrun, h₀, -⟩ := onMarketUpdate_spec h hadm
  have hempty : Quotes.empty.apply u = .empty := by simp only [Quotes.apply, hu]
  rw [hempty] at h₀
  refine ⟨m₀, hrun, fun later hlater => ?_⟩
  obtain ⟨m₁, sh₁, hrun₁, h₁, -⟩ := run_spec h₀ hlater
  obtain ⟨fresh, shf, hrunf, hf, -⟩ := run_spec (holds_new m.ticker_id_) hlater
  exact ⟨m₁, fresh, hrun₁, hrunf, h₁.sameView hf, sound_of_bookRep h₁.rep⟩

/-! ## What is left behind -/

theorem book_updateBBO {m m' : MarketOrderBook} {update_bid update_ask : Bool}
    (h : m.updateBBO update_bid update_ask = .ok m') : m'.book = m.book := by
  have hbid : ∀ {m m' : MarketOrderBook}, m.updateBid = .ok m' → m'.book = m.book := by
    intro m m' h
    obtain ⟨q, -, h⟩ := bind_eq_ok.mp h
    rw [← Except.ok.inj h]
  have hask : ∀ {m m' : MarketOrderBook}, m.updateAsk = .ok m' → m'.book = m.book := by
    intro m m' h
    obtain ⟨q, -, h⟩ := bind_eq_ok.mp h
    rw [← Except.ok.inj h]
  obtain ⟨m₁, h₁, h₂⟩ := bind_eq_ok.mp h
  have hbook₁ : m₁.book = m.book := by
    split at h₁
    · exact hbid h₁
    · rw [← Except.ok.inj h₁]
  rw [← hbook₁]
  split at h₂
  · exact hask h₂
  · rw [← Except.ok.inj h₂]

/-- What an update makes of the book, whatever the notifications. -/
theorem book_onMarketUpdate {m m' : MarketOrderBook} {u : MEMarketUpdate} (hu : u.type_ ≠ .TRADE)
    (h : m.onMarketUpdate u = .ok m') : applyUpdate m.book u = .ok m'.book := by
  unfold onMarketUpdate at h
  simp only [if_neg hu] at h
  obtain ⟨book, hbook, h⟩ := bind_eq_ok.mp h
  obtain ⟨m₁, hbbo, h⟩ := bind_eq_ok.mp h
  rw [hbook, ← Except.ok.inj h]
  exact congrArg _ (book_updateBBO hbbo).symm

/-- An order at a price that has a level is queued there; the two heads do not change. -/
theorem insertOrder_stale {b b' : LimitBook MarketOrderInfo ℕ} {info : MarketOrderInfo} {l : ℕ}
    (hwf : b.order_pool_.WF) (hl : b.getOrdersAtPrice info.price_ = some l)
    (h : b.insertOrder info = .ok b') :
    b'.bids_by_price_ = b.bids_by_price_ ∧ b'.asks_by_price_ = b.asks_by_price_ := by
  unfold insertOrder at h
  rcases MemPool.allocate_spec hwf ⟨info, none, none⟩ with ⟨o, pool, halloc, hpool⟩ | ⟨herr, -⟩
  · rw [halloc] at h
    have hinfo : (({ b with order_pool_ := pool } : LimitBook MarketOrderInfo ℕ).order o).info =
        info := by
      show (pool.get o).info = info
      rw [hpool.get, if_pos rfl]
    simp only [ok_bind, addOrder, hinfo] at h
    rw [show ({ b with order_pool_ := pool } : LimitBook MarketOrderInfo ℕ).getOrdersAtPrice
      (OrderInfo.price info) = some l from hl] at h
    obtain ⟨first, -, h⟩ := bind_eq_ok.mp h
    obtain ⟨b₁, h₁, h⟩ := bind_eq_ok.mp h
    unfold linkOrder at h₁
    obtain ⟨last, -, h₁⟩ := bind_eq_ok.mp h₁
    unfold setKey at h
    split at h
    · rw [← Except.ok.inj h, ← Except.ok.inj h₁]
      exact ⟨rfl, rfl⟩
    · cases h
  · rw [herr] at h
    cases h

/-- An empty book can follow the `ADD` of any order with a real side and an id of the array. -/
theorem admitsAll_addOf {x : MarketOrderInfo} (hs : x.side_.IsTrading)
    (hid : x.order_id_ < ME_MAX_ORDER_IDS) (ticker_id : ℕ) :
    Quotes.empty.AdmitsAll [Quotes.addOf ticker_id x] := by
  have hlen : (Quotes.empty.apply (Quotes.addOf ticker_id x)).orders.length = 1 :=
    (Quotes.orders_apply_add rfl hs).length_eq
  have hcount : ∀ xs : List MarketOrderInfo, Quotes.levelCount xs ≤ xs.length := fun xs =>
    (List.toFinset_card_le _).trans (List.length_map _).le
  set Q := Quotes.empty.apply (Quotes.addOf ticker_id x) with hQ
  have hfits : Q.Fits := by
    constructor
    · rw [hlen]
      decide
    · have hbids := hcount Q.bids
      have hasks := hcount Q.asks
      rw [Quotes.orders, List.length_append] at hlen
      unfold ME_MAX_PRICE_LEVELS
      omega
  refine ⟨⟨hs, hid, fun y hy => (by cases hy), fun s' hs' y hy => ?_, hfits⟩, trivial⟩
  rcases hs' with rfl | rfl <;> cases hy

theorem levelsView_ne_nil {b : LimitBook MarketOrderInfo ℕ} {sh : Shape} {Q : Quotes} {s : Side}
    (h : Holds b sh Q) (hs : s.IsTrading) (hne : Q.side s ≠ []) : b.levelsView s ≠ [] := by
  intro hnil
  apply hne
  rw [← h.infos s hs, ← h.rep.orderList_eq hs, ← h.rep.flatten_levelsView hs, hnil]
  rfl

/-- **A `CLEAR` of a book with an order in it is no reset**: the price of the order still leads to
the level that was freed, and an order added there is listed on no side. -/
theorem not_clearResets_of_mem {m : MarketOrderBook} {sh : Shape} {Q : Quotes} {u : MEMarketUpdate}
    {x : MarketOrderInfo} (h : Holds m.book sh Q) (hu : u.type_ = .CLEAR) (hx : x ∈ Q.orders) :
    ¬ ClearResets m u := by
  intro hreset
  obtain ⟨m₀, hrun₀, hlater⟩ := hreset
  -- where the order rests
  obtain ⟨s, hs, hxs⟩ := Quotes.mem_orders.mp hx
  rw [← h.infos s hs] at hxs
  obtain ⟨o, ho, rfl⟩ := List.mem_map.mp hxs
  set x := (m.book.order o).info with hxo
  have hside : x.side_ = s := h.rep.side_of_mem_flat hs ho
  obtain ⟨l, hl, hol⟩ := Shape.mem_flat.mp ho
  have hprice : m.book.getOrdersAtPrice x.price_ = some l :=
    h.rep.level_of_order (Shape.mem_all.mpr ⟨s, hs, hl⟩) hol
  have hid : x.order_id_ < ME_MAX_ORDER_IDS :=
    of_decide_eq_true (h.rep.keys_inRange o (Linked.mem_orders_of_flat hs ho))
  -- the book after the `CLEAR`
  obtain ⟨b₀, hclear, hcleared⟩ := clear_spec h.rep
  have hbook₀ : m₀.book = b₀ := by
    have happly := book_onMarketUpdate (by rw [hu]; decide) hrun₀
    simp only [applyUpdate, hu] at happly
    rw [hclear] at happly
    exact (Except.ok.inj happly).symm
  -- the same order once more
  have hxs' : x.side_.IsTrading := hside.symm ▸ hs
  have hadm := admitsAll_addOf hxs' hid m.ticker_id_
  obtain ⟨m₁, fresh, hrun₁, hrunf, hsame, -⟩ := hlater _ hadm
  have hnil : m₁.book.levelsView s = [] := by
    have hstep : m₀.onMarketUpdate (Quotes.addOf m.ticker_id_ x) = .ok m₁ := by
      have hfold : m₀.run [Quotes.addOf m.ticker_id_ x] =
          m₀.onMarketUpdate (Quotes.addOf m.ticker_id_ x) >>= pure := List.foldlM_cons ..
      rw [hfold, bind_pure] at hrun₁
      exact hrun₁
    have hins : m₀.book.insertOrder x = .ok m₁.book :=
      book_onMarketUpdate (fun h => by cases h) hstep
    have hstale : m₀.book.getOrdersAtPrice x.price_ = some l := by
      rw [hbook₀]
      unfold LimitBook.getOrdersAtPrice
      rw [hcleared.slots]
      exact hprice
    obtain ⟨hbids, hasks⟩ := insertOrder_stale (hbook₀ ▸ hcleared.orders.wf) hstale hins
    rw [hbook₀] at hbids hasks
    unfold LimitBook.levelsView LimitBook.levelList LimitBook.best
    rw [hbids, hasks, hcleared.bids, hcleared.asks, ite_self]
    rfl
  obtain ⟨fresh', shf, hrunf', hf, -⟩ := run_spec (holds_new m.ticker_id_) hadm
  obtain rfl : fresh = fresh' := Except.ok.inj (hrunf.symm.trans hrunf')
  apply levelsView_ne_nil hf hs _ ((hsame.levels s hs).symm.trans hnil)
  -- the new book lists the order
  have hmem : x ∈ (Quotes.empty.apply (Quotes.addOf m.ticker_id_ x)).side s := by
    rw [Quotes.side_apply_add rfl hxs' hs]
    show x ∈ if s = x.side_ then List.orderedInsert (Precedes x.side_) x _ else _
    rw [if_pos hside.symm]
    exact (List.mem_orderedInsert _).mpr (.inl rfl)
  exact List.ne_nil_of_mem hmem

/-- The `ADD` of a buy order. -/
def oneBid : MEMarketUpdate where
  type_ := .ADD
  order_id_ := 1
  ticker_id_ := 0
  side_ := .BUY
  price_ := 10
  qty_ := 5
  priority_ := 1

theorem admitsAll_oneBid : Quotes.empty.AdmitsAll [oneBid] :=
  admitsAll_addOf (x := { order_id_ := 1, side_ := .BUY, price_ := 10, qty_ := 5, priority_ := 1 })
    (.inl rfl) (by decide) 0

end MarketOrderBook

end TradingEcosystem
