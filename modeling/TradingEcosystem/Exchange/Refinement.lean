import TradingEcosystem.Book.View
import TradingEcosystem.Exchange.PriorityBook

/-!
# The Exchange's Book Refines Price-Time Priority

Each call of `MEOrderBook` does to the memory what the same call of `PriorityBook` does to the
lists of resting orders, and publishes the same events.

- `Refines b sh P` : the memory of `b`, of shape `sh`, holds the orders of `P`
- `matchLoop_spec` : the loops of `checkForMatch` are `sweep`
- `step_spec` : one call
-/

namespace TradingEcosystem

open LimitBook

namespace MEOrderBook

open PriorityBook (sweep fillEvents crosses key)

/-! ## The relation -/

/-- The memory of `b`, of shape `sh`, holds the orders of `P`. -/
structure Refines (b : MEOrderBook) (sh : Shape) (P : PriorityBook) : Prop where
  rep : BookRep b.book sh
  infos : ∀ s, s.IsTrading → infos b.book sh s = P.side s
  next_id : b.next_market_order_id_ = P.next_id
  order_size : b.book.order_pool_.size = ME_MAX_ORDER_IDS
  level_size : b.book.orders_at_price_pool_.size = ME_MAX_PRICE_LEVELS

/-- `Refines` for a book in which a client may have several orders under one id. -/
structure Holds (unique : Prop) (b : MEOrderBook) (sh : Shape) (P : PriorityBook) : Prop where
  rep : Stored unique b.book sh
  infos : ∀ s, s.IsTrading → LimitBook.infos b.book sh s = P.side s
  next_id : b.next_market_order_id_ = P.next_id
  order_size : b.book.order_pool_.size = ME_MAX_ORDER_IDS
  level_size : b.book.orders_at_price_pool_.size = ME_MAX_PRICE_LEVELS

theorem Refines.holds {b : MEOrderBook} {sh : Shape} {P : PriorityBook} (h : Refines b sh P)
    (unique : Prop) : Holds unique b sh P :=
  ⟨h.rep.stored unique, h.infos, h.next_id, h.order_size, h.level_size⟩

theorem Holds.refines {unique : Prop} {b : MEOrderBook} {sh : Shape} {P : PriorityBook}
    (h : Holds unique b sh P) (hunique : unique) : Refines b sh P :=
  ⟨h.rep.bookRep hunique, h.infos, h.next_id, h.order_size, h.level_size⟩

/-- `b'` has sent `events` since `b`; its counters and the sizes of its pools are those of `b`. -/
structure Sent (b b' : MEOrderBook) (events : List MEEvent) : Prop where
  sent : b'.sent = b.sent ++ events
  ticker_id : b'.ticker_id_ = b.ticker_id_
  next_id : b'.next_market_order_id_ = b.next_market_order_id_
  order_size : b'.book.order_pool_.size = b.book.order_pool_.size
  level_size : b'.book.orders_at_price_pool_.size = b.book.orders_at_price_pool_.size

theorem Sent.refl (b : MEOrderBook) : Sent b b [] :=
  ⟨(List.append_nil _).symm, rfl, rfl, rfl, rfl⟩

theorem Sent.trans {b b' b'' : MEOrderBook} {events events' : List MEEvent}
    (h : Sent b b' events) (h' : Sent b' b'' events') : Sent b b'' (events ++ events') where
  sent := by rw [h'.sent, h.sent, List.append_assoc]
  ticker_id := h'.ticker_id.trans h.ticker_id
  next_id := h'.next_id.trans h.next_id
  order_size := h'.order_size.trans h.order_size
  level_size := h'.level_size.trans h.level_size

theorem worse_eq_not_crosses {s : Side} (hs : s.IsTrading) (price maker_price : ℤ) :
    s.worse price maker_price = !crosses s price maker_price := by
  rcases hs with rfl | rfl
  · simp only [Side.worse, crosses]
    grind
  · simp only [Side.worse, crosses]
    grind

/-! ## One match -/

/-- **`match` fills the first order of the opposite side** and takes it out when it is used up. -/
theorem matchOrder_spec {unique : Prop} (ticker_id : ℕ) (taker : MEOrderInfo) {b : MEOrderBook}
    {sh : Shape} {maker : MEOrderInfo} {s : Side} {own makers : List MEOrderInfo} {leaves o : ℕ} {os : List ℕ}
    (hs : s.IsTrading)
    (hrep : Stored unique b.book sh) (hown : infos b.book sh s = own)
    (hopp : infos b.book sh s.opposite = maker :: makers)
    (hflat : sh.flat s.opposite = o :: os) (hleaves : leaves < 2 ^ 32)
    (hmaker : maker.qty_ < 2 ^ 32) :
    ∃ b' sh', b.matchOrder ticker_id taker.client_id_ taker.side_ taker.client_order_id_
        taker.market_order_id_ o leaves = .ok (b', leaves - min leaves maker.qty_) ∧
      Stored unique b'.book sh' ∧ infos b'.book sh' s = own ∧
      infos b'.book sh' s.opposite =
        (if maker.qty_ = min leaves maker.qty_ then makers
          else { maker with qty_ := maker.qty_ - min leaves maker.qty_ } :: makers) ∧
      Sent b b' (fillEvents ticker_id taker maker (min leaves maker.qty_)
        (leaves - min leaves maker.qty_)) := by
  set fill := min leaves maker.qty_ with hfill
  have hfl : fill ≤ leaves := Nat.min_le_left ..
  have hfm : fill ≤ maker.qty_ := Nat.min_le_right ..
  have hinfo : b.order o = maker := by
    rw [LimitBook.infos, hflat, List.map_cons] at hopp
    exact (List.cons.inj hopp).1
  have hmakers : os.map (fun k => (b.book.order k).info) = makers := by
    rw [LimitBook.infos, hflat, List.map_cons] at hopp
    exact (List.cons.inj hopp).2
  have hnd := hrep.flat_nodup hs.opposite
  rw [hflat] at hnd
  have hos : o ∉ os := (List.nodup_cons.mp hnd).1
  have hoopp : o ∈ sh.flat s.opposite := by simp [hflat]
  have hoown : o ∉ sh.flat s := fun ho =>
    hs.opposite_ne ((hrep.side_of_mem_flat hs.opposite hoopp).symm.trans
      (hrep.side_of_mem_flat hs ho))
  -- the resting order's quantity is reduced in place
  set fillOrder : MEOrderInfo → MEOrderInfo :=
    fun order => { order with qty_ := qtySub order.qty_ fill } with hfillOrder
  set book₁ := b.book.modInfo o fillOrder with hbook₁
  obtain ⟨hrep₁, hinfo₁⟩ : Stored unique book₁ sh ∧ ∀ k, (book₁.order k).info =
      if k = o then fillOrder (b.book.order o).info else (b.book.order k).info :=
    modInfo_stored hrep (fun _ => rfl) (fun _ => rfl) fun _ => rfl
  have horder₁ : (book₁.order o).info = { maker with qty_ := maker.qty_ - fill } := by
    rw [hinfo₁, if_pos rfl, show (b.book.order o).info = maker from hinfo, hfillOrder]
    simp only [qtySub_eq hfm hmaker]
  have hother₁ : ∀ {ks : List ℕ}, o ∉ ks →
      ks.map (fun k => (book₁.order k).info) = ks.map fun k => (b.book.order k).info :=
    fun hks => List.map_congr_left fun k hk => by
      rw [hinfo₁, if_neg (fun he : k = o => hks (he ▸ hk))]
  have hleft : qtySub leaves fill = leaves - fill := qtySub_eq hfl hleaves
  set events := fillEvents ticker_id taker maker fill (leaves - fill) with hevents
  by_cases hfull : maker.qty_ = fill
  · -- used up: out of the book
    have hzero : maker.qty_ - fill = 0 := by omega
    obtain ⟨book₂, sh', hrun, hrep₂, hrem⟩ :=
      removeOrder_stored hrep₁ (Linked.mem_orders_of_flat hs.opposite hoopp)
    refine ⟨{ b with book := book₂, sent := b.sent ++ events }, sh', ?_, hrep₂, ?_, ?_,
      ⟨rfl, rfl, rfl, hrem.order_size, hrem.level_size⟩⟩
    · simp only [matchOrder, hinfo, ← hfill, ← hfillOrder, ← hbook₁, hleft]
      simp only [order, sendClientResponse, sendMarketUpdate, horder₁, hzero, if_true, removeOrder,
        hrun, ok_bind]
      simp [hevents, fillEvents, hfull]
    · simp only [LimitBook.infos, hrem.flat s hs, hrem.info, List.erase_of_not_mem hoown]
      rw [hother₁ hoown]
      exact hown
    · simp only [LimitBook.infos, hrem.flat _ hs.opposite, hrem.info, hflat, List.erase_cons_head]
      rw [hother₁ hos, hmakers, if_pos hfull]
  · have hpos : ¬ maker.qty_ - fill = 0 := by omega
    refine ⟨{ b with book := book₁, sent := b.sent ++ events }, sh, ?_, hrep₁, ?_, ?_,
      ⟨rfl, rfl, rfl, rfl, rfl⟩⟩
    · simp only [matchOrder, hinfo, ← hfill, ← hfillOrder, ← hbook₁, hleft]
      simp only [order, sendClientResponse, sendMarketUpdate, horder₁, hpos, if_false]
      simp [hevents, fillEvents, hfull]
    · rw [LimitBook.infos]
      exact (hother₁ hoown).trans hown
    · rw [LimitBook.infos, hflat, List.map_cons, hother₁ hos, hmakers, horder₁, if_neg hfull]

/-! ## The loop -/

/-- A loop with nothing left to fill returns. -/
theorem matchLoop_zero (ticker_id client_id : ℕ) (s : Side) (client_order_id id : ℕ) (price : ℤ)
    (fuel : ℕ) (b : MEOrderBook) :
    matchLoop ticker_id client_id s client_order_id id price (fuel + 1) b 0 = .ok (b, 0) := by
  simp [matchLoop]

/-- **The loops of `checkForMatch` are the sweep**; induction on the resting orders. -/
theorem matchLoop_spec {unique : Prop} (ticker_id : ℕ) (taker : MEOrderInfo) {own : List MEOrderInfo}
    (hs : taker.side_.IsTrading) (makers : List MEOrderInfo) :
    ∀ {b : MEOrderBook} {sh : Shape} {leaves fuel : ℕ}, Stored unique b.book sh →
      infos b.book sh taker.side_ = own → infos b.book sh taker.side_.opposite = makers →
      leaves < 2 ^ 32 → (∀ x ∈ makers, x.qty_ < 2 ^ 32) → makers.length < fuel →
      ∃ b' sh', matchLoop ticker_id taker.client_id_ taker.side_ taker.client_order_id_
          taker.market_order_id_ taker.price_ fuel b leaves =
            .ok (b', (sweep ticker_id taker makers leaves).2.1) ∧
        Stored unique b'.book sh' ∧ infos b'.book sh' taker.side_ = own ∧
        infos b'.book sh' taker.side_.opposite = (sweep ticker_id taker makers leaves).1 ∧
        Sent b b' (sweep ticker_id taker makers leaves).2.2 := by
  induction makers with
  | nil =>
    intro b sh leaves fuel hrep hown hopp _ _ hfuel
    obtain ⟨n, rfl⟩ : ∃ n, fuel = n + 1 := ⟨fuel - 1, by simp at hfuel; omega⟩
    have hbest := hrep.best_none hs.opposite (List.map_eq_nil_iff.mp hopp)
    exact ⟨b, sh, by simp [matchLoop, hbest, sweep], hrep, hown, hopp, Sent.refl b⟩
  | cons maker makers ih =>
    intro b sh leaves fuel hrep hown hopp hleaves hqty hfuel
    obtain ⟨n, rfl⟩ : ∃ n, fuel = n + 1 := ⟨fuel - 1, by simp at hfuel; omega⟩
    obtain ⟨o, os, hflat, hmaker, -⟩ := List.map_eq_cons_iff.mp hopp
    obtain ⟨l, hbest, hfirst⟩ := hrep.front hs.opposite hflat
    have hinfo : b.order o = maker := hmaker
    rw [sweep]
    by_cases hstop : leaves = 0 ∨ crosses taker.side_ taker.price_ maker.price_ = false
    · rw [if_pos hstop]
      refine ⟨b, sh, ?_, hrep, hown, hopp, Sent.refl b⟩
      by_cases hzero : leaves = 0
      · simp [matchLoop, hzero]
      · have hworse : taker.side_.worse taker.price_ maker.price_ = true := by
          rw [worse_eq_not_crosses hs, hstop.resolve_left hzero]
          rfl
        simp [matchLoop, hzero, hbest, hfirst, hinfo, hworse]
    · rw [if_neg hstop]
      have hzero : leaves ≠ 0 := fun h => hstop (.inl h)
      have hworse : taker.side_.worse taker.price_ maker.price_ = false := by
        rw [worse_eq_not_crosses hs]
        simpa using fun h => hstop (.inr h)
      obtain ⟨b₁, sh₁, hrun, hrep₁, hown₁, hopp₁, hsent₁⟩ :=
        matchOrder_spec ticker_id taker hs hrep hown hopp hflat hleaves (hqty maker (by simp))
      have hstep : matchLoop ticker_id taker.client_id_ taker.side_ taker.client_order_id_
          taker.market_order_id_ taker.price_ (n + 1) b leaves =
          matchLoop ticker_id taker.client_id_ taker.side_ taker.client_order_id_
            taker.market_order_id_ taker.price_ n b₁ (leaves - min leaves maker.qty_) := by
        rw [matchLoop]
        simp [hzero, hbest, hfirst, hinfo, hworse, hrun]
      simp only
      rw [hstep]
      by_cases hfull : maker.qty_ = min leaves maker.qty_
      · rw [if_pos hfull] at hopp₁ ⊢
        have hlt : leaves - min leaves maker.qty_ < 2 ^ 32 := by omega
        obtain ⟨b₂, sh₂, hrun₂, hrep₂, hown₂, hopp₂, hsent₂⟩ := ih hrep₁ hown₁ hopp₁ hlt
          (fun x hx => hqty x (by simp [hx])) (by simpa using hfuel)
        exact ⟨b₂, sh₂, hrun₂, hrep₂, hown₂, hopp₂, hsent₁.trans hsent₂⟩
      · rw [if_neg hfull] at hopp₁ ⊢
        -- the taker is used up, the next round returns
        have hused : leaves - min leaves maker.qty_ = 0 := by omega
        obtain ⟨m, rfl⟩ : ∃ m, n = m + 1 := ⟨n - 1, by simp at hfuel; omega⟩
        refine ⟨b₁, sh₁, ?_, hrep₁, hown₁, hopp₁, hsent₁⟩
        rw [hused, matchLoop_zero]

/-! ## Priorities -/

/-- The orders of one price are the queue of its level. -/
theorem filter_price {b : LimitBook MEOrderInfo (ℕ × ℕ)} {sh : Shape} {s : Side} {l : ℕ}
    (h : Linked b sh) (hs : s.IsTrading) (hl : l ∈ sh.levels s) :
    ((infos b sh s).filter fun o => decide (o.price_ = (b.level l).price_)) =
      (sh.queue l).map fun k => (b.order k).info := by
  obtain ⟨L, R, hsplit⟩ := List.append_of_mem hl
  obtain ⟨hbefore, hafter⟩ := h.better_of_split hs hsplit
  have hq := h.queues s hs l hl
  have hnone : ∀ ks : List ℕ, (∀ k ∈ ks, (b.order k).info.price_ ≠ (b.level l).price_) →
      ((ks.map fun k => (b.order k).info).filter
        fun o => decide (o.price_ = (b.level l).price_)) = [] := by
    intro ks hks
    rw [List.filter_eq_nil_iff]
    intro o ho
    obtain ⟨k, hk, rfl⟩ := List.mem_map.mp ho
    simpa using hks k hk
  have hne : ∀ {p q : ℤ}, s.better p q = true → p ≠ q := fun hpq heq => by
    rw [heq, Side.better_irrefl] at hpq
    cases hpq
  rw [infos, Shape.flat, hsplit, List.flatMap_append, List.flatMap_cons, List.map_append,
    List.map_append, List.filter_append, List.filter_append,
    hnone _ fun k hk => hne (hbefore k hk), hnone _ fun k hk => (hne (hafter k hk)).symm,
    List.nil_append, List.append_nil, List.filter_eq_self]
  intro o ho
  obtain ⟨k, hk, rfl⟩ := List.mem_map.mp ho
  exact decide_eq_true (hq.price k hk)

theorem getNextPriority_spec {b : MEOrderBook} {sh : Shape} {P : PriorityBook} {s : Side}
    {price : ℤ} (hrep : Linked b.book sh) (hs : s.IsTrading)
    (hinfos : infos b.book sh s = P.side s)
    (hslot : ∀ s', s'.IsTrading → ∀ x ∈ infos b.book sh s',
      priceToIndex x.price_ = priceToIndex price → x.price_ = price ∧ s' = s) :
    b.getNextPriority price = .ok (P.nextPriority s price) := by
  rw [getNextPriority, PriorityBook.nextPriority, ← hinfos]
  cases hget : b.book.getOrdersAtPrice price with
  | none =>
    have hnone : ((infos b.book sh s).filter fun o => decide (o.price_ = price)) = [] := by
      rw [List.filter_eq_nil_iff]
      intro x hx
      obtain ⟨o, ho, rfl⟩ := List.mem_map.mp hx
      obtain ⟨l, hl, hol⟩ := Shape.mem_flat.mp ho
      have hsome := hrep.level_of_order (Shape.mem_all.mpr ⟨s, hs, hl⟩) hol
      intro heq
      rw [show OrderInfo.price (b.book.order o).info = price from of_decide_eq_true heq, hget]
        at hsome
      cases hsome
    rw [hnone]
    rfl
  | some l =>
    obtain ⟨hl, hprice⟩ := hrep.slot_level hslot hget
    have hq := hrep.queues s hs l hl
    have hfilter := filter_price hrep hs hl
    rw [hprice] at hfilter
    rw [hfilter]
    obtain ⟨x, xs, init, u, hx, hu, -, -⟩ := Lib.Ring.exists_ends hq.ne_nil
    have hlast : x :: xs = init ++ [u] := hx.symm.trans hu
    have hprev : (b.book.order x).prev_order_ = some u := ((hx ▸ hq.ring).closing hlast).2
    have hfirst : (b.book.level l).first_order_ = some x := by
      rw [hq.first, hx]
      rfl
    rw [hu, List.map_append, List.getLast?_append]
    simp [hfirst, hprev, order]

/-! ## Calls -/

section calls

variable {unique : Prop} {b : MEOrderBook} {sh : Shape} {P : PriorityBook}

/-- The orders of the book, in the order in which `P` lists them. -/
theorem Holds.orders_eq (h : Holds unique b sh P) : sh.orders.map b.order = P.orders := by
  rw [Shape.orders, List.map_append, PriorityBook.orders]
  exact congrArg₂ _ (h.infos .BUY (.inl rfl)) (h.infos .SELL (.inr rfl))

theorem Refines.orders_eq (h : Refines b sh P) : sh.orders.map b.order = P.orders :=
  (h.holds True).orders_eq

/-- What is left of an order is put behind the orders of its price, unless a pool is down to its
last block. -/
theorem addRemaining_spec {t : MEOrderInfo} (leaves : ℕ) (hs : t.side_.IsTrading)
    (hrep : Stored unique b.book sh) (hown : infos b.book sh t.side_ = P.side t.side_)
    (hpriority : t.priority_ = P.nextPriority t.side_ t.price_)
    (hrange : t.client_id_ < ME_MAX_NUM_CLIENTS ∧ t.client_order_id_ < ME_MAX_ORDER_IDS)
    (hkey : unique → ∀ s', s'.IsTrading → ∀ x ∈ infos b.book sh s', key x ≠ key t)
    (hslot : ∀ s', s'.IsTrading → ∀ x ∈ infos b.book sh s',
      priceToIndex x.price_ = priceToIndex t.price_ → x.price_ = t.price_ ∧ s' = t.side_) :
    (∃ b' sh', b.addRemaining t.client_id_ t.client_order_id_ t.ticker_id_ t.market_order_id_
        t.side_ t.price_ leaves = .ok b' ∧ Stored unique b'.book sh' ∧
      Inserted b.book b'.book sh sh' t.side_ { t with qty_ := leaves } ∧
      b'.sent = b.sent ++ [PriorityBook.addEvent { t with qty_ := leaves }] ∧
      b'.ticker_id_ = b.ticker_id_ ∧ b'.next_market_order_id_ = b.next_market_order_id_) ∨
    (b.addRemaining t.client_id_ t.client_order_id_ t.ticker_id_ t.market_order_id_
        t.side_ t.price_ leaves = .error .outOfSpace ∧
      (sh.orders.length + 1 = b.book.order_pool_.size ∨
        b.book.getOrdersAtPrice t.price_ = none ∧
          sh.all.length + 1 = b.book.orders_at_price_pool_.size)) := by
  have hprio := getNextPriority_spec hrep.toLinked hs hown hslot
  rw [← hpriority] at hprio
  have hrun : b.addRemaining t.client_id_ t.client_order_id_ t.ticker_id_ t.market_order_id_
      t.side_ t.price_ leaves = (do
        let book ← b.book.insertOrder { t with qty_ := leaves }
        .ok ({ b with book := book }.sendMarketUpdate
          { type_ := .ADD, order_id_ := t.market_order_id_, ticker_id_ := t.ticker_id_,
            side_ := t.side_, price_ := t.price_, qty_ := leaves, priority_ := t.priority_ })) := by
    rw [addRemaining, hprio]
    rfl
  rw [hrun]
  set o : MEOrderInfo := { t with qty_ := leaves } with ho
  have hinRange : OrderInfo.inRange (I := MEOrderInfo) (OrderInfo.key o) = true := by
    change (decide (t.client_id_ < ME_MAX_NUM_CLIENTS) &&
      decide (t.client_order_id_ < ME_MAX_ORDER_IDS)) = true
    rw [decide_eq_true hrange.1, decide_eq_true hrange.2]
    rfl
  have hkey' : unique →
      ∀ s', s'.IsTrading → ∀ x ∈ infos b.book sh s', OrderInfo.key x ≠ OrderInfo.key o := hkey
  have hside : OrderInfo.side o = t.side_ := rfl
  rcases insertOrder_stored hrep hs hside hinRange hkey' hslot with
    ⟨book', sh', hins, hrep', hinserted⟩ | ⟨herr, hfull⟩
  · left
    refine ⟨{ b with book := book', sent := b.sent ++ [PriorityBook.addEvent o] }, sh', ?_, hrep',
      hinserted, rfl, rfl, rfl⟩
    rw [hins]
    rfl
  · right
    refine ⟨?_, hfull⟩
    rw [herr]
    rfl

/-- The orders of a book and their levels, counted side by side. -/
theorem Holds.counts (h : Holds unique b sh P) {s : Side} (hs : s.IsTrading) :
    sh.orders.length = (P.side s).length + (P.side s.opposite).length ∧
      sh.all.length = ((P.side s).map MEOrderInfo.price_).toFinset.card +
        ((P.side s.opposite).map MEOrderInfo.price_).toFinset.card := by
  have horders : ∀ {s : Side}, s.IsTrading → (sh.flat s).length = (P.side s).length := by
    intro s hs
    rw [← h.infos s hs, LimitBook.infos, List.length_map]
  have hlevels : ∀ {s : Side}, s.IsTrading →
      (sh.levels s).length = ((P.side s).map MEOrderInfo.price_).toFinset.card := by
    intro s hs
    rw [← h.infos s hs]
    exact h.rep.length_levels hs
  rw [← horders hs, ← horders hs.opposite, ← hlevels hs, ← hlevels hs.opposite, Shape.orders,
    Shape.all, List.length_append, List.length_append]
  rcases hs with rfl | rfl
  · exact ⟨rfl, rfl⟩
  · exact ⟨Nat.add_comm .., Nat.add_comm ..⟩

/-- No pool of a book ever hands out its last block. -/
theorem Holds.room (h : Holds unique b sh P) : P.Room := by
  obtain ⟨horders, hlevels⟩ := h.counts (.inl rfl)
  have hcard := h.rep.order_wf.used_card_lt
  have hcard' := h.rep.level_wf.used_card_lt
  rw [h.rep.order_card, h.order_size, horders] at hcard
  rw [h.rep.level_card, h.level_size, hlevels] at hcard'
  exact (PriorityBook.room_iff (.inl rfl)).mpr ⟨hcard, hcard'⟩

/-- When a pool is down to its last block, one order more would have no room. -/
theorem Holds.not_room_of_full {P' : PriorityBook} {t : MEOrderInfo} (h : Holds unique b sh P)
    {s : Side} (hs : s.IsTrading)
    (hown : P'.side s = (P.side s).orderedInsert (Precedes s) t)
    (hopp : P'.side s.opposite = P.side s.opposite)
    (hfull : sh.orders.length + 1 = b.book.order_pool_.size ∨
      b.book.getOrdersAtPrice t.price_ = none ∧
        sh.all.length + 1 = b.book.orders_at_price_pool_.size) : ¬ P'.Room := by
  obtain ⟨horders, hlevels⟩ := h.counts hs
  have hperm := List.perm_orderedInsert (Precedes s) t (P.side s)
  rw [PriorityBook.room_iff hs, hown, hopp, hperm.length_eq, List.length_cons,
    List.toFinset_eq_of_perm _ _ (hperm.map _), List.map_cons, List.toFinset_cons]
  rintro ⟨hroom, hroom'⟩
  rcases hfull with hfull | ⟨hnone, hfull⟩
  · rw [h.order_size] at hfull
    omega
  · -- the price is a new one of its side
    have hnew : t.price_ ∉ ((P.side s).map MEOrderInfo.price_).toFinset := by
      rw [List.mem_toFinset, ← h.infos s hs]
      intro hmem
      obtain ⟨x, hx, hprice⟩ := List.mem_map.mp hmem
      obtain ⟨o, ho, rfl⟩ := List.mem_map.mp hx
      obtain ⟨l, hl, hol⟩ := Shape.mem_flat.mp ho
      have hsome := h.rep.level_of_order (Shape.mem_all.mpr ⟨s, hs, hl⟩) hol
      rw [← hprice] at hnone
      cases hsome.symm.trans hnone
    rw [Finset.card_insert_of_notMem hnew] at hroom'
    rw [h.level_size] at hfull
    omega

/-- The loop of a match has more turns than the side has orders. -/
theorem Holds.length_side_lt (h : Holds unique b sh P) {s : Side} (hs : s.IsTrading) :
    (P.side s).length < b.book.order_pool_.size + 1 := by
  have hlen : (sh.flat s).length ≤ sh.orders.length := Shape.length_flat_le hs
  have hcard := h.rep.order_wf.used_card_lt
  rw [h.rep.order_card] at hcard
  rw [← h.infos _ hs, LimitBook.infos, List.length_map]
  omega

/-- The two sides, one of which is `s`. -/
theorem Holds.of_sides {s : Side} (hs : s.IsTrading) (hrep : Stored unique b.book sh)
    (hown : LimitBook.infos b.book sh s = P.side s)
    (hopp : LimitBook.infos b.book sh s.opposite = P.side s.opposite)
    (hnext : b.next_market_order_id_ = P.next_id)
    (horder : b.book.order_pool_.size = ME_MAX_ORDER_IDS)
    (hlevel : b.book.orders_at_price_pool_.size = ME_MAX_PRICE_LEVELS) : Holds unique b sh P where
  rep := hrep
  infos := by
    intro s' hs'
    rcases hs.eq_or_eq_opposite hs' with rfl | rfl
    · exact hown
    · exact hopp
  next_id := hnext
  order_size := horder
  level_size := hlevel

/-- `add` accepts the order, matches it, and puts what is left into the book. -/
theorem add_eq {client_id client_order_id : ℕ} {s : Side} {price : ℤ} {qty : ℕ}
    (hnext : b.next_market_order_id_ = P.next_id) (ticker_id : ℕ) :
    b.add client_id client_order_id ticker_id s price qty =
      ({ b with
          next_market_order_id_ := b.next_market_order_id_ + 1
          sent := b.sent ++ [PriorityBook.acceptedEvent
            (P.taker ticker_id client_id client_order_id s price qty)] } : MEOrderBook).checkForMatch
        client_id client_order_id ticker_id s price qty b.next_market_order_id_ >>= fun r =>
      if r.2 ≠ 0 then
        r.1.addRemaining client_id client_order_id ticker_id b.next_market_order_id_ s price r.2
      else .ok r.1 := by
  rw [PriorityBook.acceptedEvent, PriorityBook.taker, ← hnext]
  rfl

/-- **`checkForMatch` is the sweep** of the opposite side.  It carries the order's id as a `Qty`,
which only the fills show. -/
theorem checkForMatch_spec {t : MEOrderInfo} (ticker_id : ℕ) {own makers : List MEOrderInfo}
    (hs : t.side_.IsTrading) (hrep : Stored unique b.book sh)
    (hown : infos b.book sh t.side_ = own) (hopp : infos b.book sh t.side_.opposite = makers)
    (hqty : t.qty_ < 2 ^ 32) (hmakers : ∀ x ∈ makers, x.qty_ < 2 ^ 32)
    (hlen : makers.length < b.book.order_pool_.size + 1) :
    ∃ b₁ sh₁, b.checkForMatch t.client_id_ t.client_order_id_ ticker_id t.side_ t.price_ t.qty_
          t.market_order_id_ = .ok (b₁, (sweep ticker_id t makers t.qty_).2.1) ∧
      Stored unique b₁.book sh₁ ∧ infos b₁.book sh₁ t.side_ = own ∧
      infos b₁.book sh₁ t.side_.opposite = (sweep ticker_id t makers t.qty_).1 ∧
      Sent b b₁ (sweep ticker_id { t with market_order_id_ := t.market_order_id_ % 2 ^ 32 }
        makers t.qty_).2.2 := by
  set t₃₂ : MEOrderInfo := { t with market_order_id_ := t.market_order_id_ % 2 ^ 32 } with ht₃₂
  obtain ⟨b₁, sh₁, hrun, hrep₁, hown₁, hopp₁, hsent₁⟩ :=
    matchLoop_spec ticker_id t₃₂ hs makers hrep hown hopp hqty hmakers hlen
  -- what is left does not depend on the id
  obtain ⟨hrest, hleaves⟩ :
      (sweep ticker_id t₃₂ makers t.qty_).1 = (sweep ticker_id t makers t.qty_).1 ∧
        (sweep ticker_id t₃₂ makers t.qty_).2.1 = (sweep ticker_id t makers t.qty_).2.1 :=
    PriorityBook.sweep_congr (by rfl) (by rfl) makers t.qty_
  rw [hleaves] at hrun
  rw [hrest] at hopp₁
  refine ⟨b₁, sh₁, ?_, hrep₁, hown₁, hopp₁, hsent₁⟩
  have hside : t.side_ = .BUY ∨ t.side_ = .SELL := hs
  rw [checkForMatch, if_pos hside]
  exact hrun

/-- A price slot that only orders of its price use before a match is used by no opposite order
after it, if something is left of the taker: an opposite order of that price would have been
crossed. -/
theorem slot_of_left {t : MEOrderInfo} {ticker_id : ℕ} (hs : t.side_.IsTrading)
    (hsound : P.Sound) {qty : ℕ} (hleft : (sweep ticker_id t (P.side t.side_.opposite) qty).2.1 ≠ 0)
    (hslot : ∀ x ∈ P.side t.side_.opposite,
      priceToIndex x.price_ = priceToIndex t.price_ → x.price_ = t.price_) :
    ∀ x ∈ (sweep ticker_id t (P.side t.side_.opposite) qty).1,
      priceToIndex x.price_ ≠ priceToIndex t.price_ := by
  intro x hx hidx
  have hprice : x.price_ = t.price_ :=
    PriorityBook.forall_sweep
      (p := fun x => priceToIndex x.price_ = priceToIndex t.price_ → x.price_ = t.price_)
      (fun _ => Iff.rfl) hslot x hx hidx
  have hcross := PriorityBook.sweep_uncrossed hs (hsound.sorted _ hs.opposite) hleft x hx
  rw [hprice] at hcross
  rcases hs with h | h <;> simp [crosses, h] at hcross

/-- **`add` is `PriorityBook.add`**, unless a pool is down to its last block. -/
theorem add_holds {client_id client_order_id : ℕ} {s : Side} {price : ℤ} {qty : ℕ}
    (h : Holds unique b sh P) (hsound : P.Sound)
    (hrange : (Call.add client_id client_order_id s price qty).InRange)
    (hkey : unique → P.KeyFree (.add client_id client_order_id s price qty))
    (hslot : P.SlotFree (.add client_id client_order_id s price qty)) (ticker_id : ℕ) :
    (∃ b' sh', b.add client_id client_order_id ticker_id s price qty = .ok b' ∧
      Holds unique b' sh' (P.add ticker_id client_id client_order_id s price qty).1 ∧
      b'.sent = b.sent ++
        P.published ticker_id (.add client_id client_order_id s price qty) ∧
      b'.ticker_id_ = b.ticker_id_) ∨
    (b.add client_id client_order_id ticker_id s price qty = .error .outOfSpace ∧
      ¬ (P.add ticker_id client_id client_order_id s price qty).1.Room) := by
  obtain ⟨hs, hclient, hoid, hqty⟩ := hrange
  obtain ⟨hside_opp, hnext, hside⟩ := P.side_add ticker_id client_id client_order_id price qty hs
  set t := P.taker ticker_id client_id client_order_id s price qty with ht
  set b₀ : MEOrderBook := { b with
    next_market_order_id_ := b.next_market_order_id_ + 1
    sent := b.sent ++ [PriorityBook.acceptedEvent t] } with hb₀
  have hopp_mem : ∀ x ∈ P.side s.opposite, x ∈ P.orders := fun x hx =>
    PriorityBook.mem_orders.mpr ⟨_, hs.opposite, hx⟩
  have hown_mem : ∀ x ∈ P.side s, x ∈ P.orders := fun x hx =>
    PriorityBook.mem_orders.mpr ⟨_, hs, hx⟩
  -- the match
  have hrep₀ : Stored unique b₀.book sh := h.rep
  obtain ⟨b₁, sh₁, hcheck, hrep₁, hown₁, hopp₁, hsent₁⟩ := checkForMatch_spec (t := t) ticker_id hs
    hrep₀ (h.infos s hs) (h.infos _ hs.opposite) hqty
    (fun x hx => (hsound.qty x (hopp_mem x hx)).2) (h.length_side_lt hs.opposite)
  have hleaves : (sweep ticker_id { t with market_order_id_ := t.market_order_id_ % 2 ^ 32 }
      (P.side s.opposite) qty).2.1 = (sweep ticker_id t (P.side s.opposite) qty).2.1 :=
    (PriorityBook.sweep_congr (by rfl) (by rfl) _ _).2
  have hevents : P.published ticker_id (.add client_id client_order_id s price qty) =
      PriorityBook.acceptedEvent t ::
        (sweep ticker_id { t with market_order_id_ := t.market_order_id_ % 2 ^ 32 }
          (P.side s.opposite) qty).2.2 ++
        if (sweep ticker_id t (P.side s.opposite) qty).2.1 = 0 then []
        else [PriorityBook.addEvent
          { t with qty_ := (sweep ticker_id t (P.side s.opposite) qty).2.1 }] := by
    rw [← hleaves]
    rfl
  have hkey₁ : unique → ∀ x ∈ (sweep ticker_id t (P.side s.opposite) qty).1,
      key x ≠ (client_id, client_order_id) := fun hunique =>
    PriorityBook.forall_sweep (p := fun x => key x ≠ (client_id, client_order_id))
      (fun _ => Iff.rfl) fun x hx => hkey hunique x (hopp_mem x hx)
  have hslot₁ : (sweep ticker_id t (P.side s.opposite) qty).2.1 ≠ 0 →
      ∀ x ∈ (sweep ticker_id t (P.side s.opposite) qty).1,
        priceToIndex x.price_ ≠ priceToIndex price := fun hleft =>
    slot_of_left (t := t) hs hsound hleft fun x hx => hslot x (hopp_mem x hx)
  change b₀.checkForMatch client_id client_order_id ticker_id s price qty P.next_id =
    .ok (b₁, (sweep ticker_id t (P.side s.opposite) qty).2.1) at hcheck
  change infos b₁.book sh₁ s.opposite = (sweep ticker_id t (P.side s.opposite) qty).1 at hopp₁
  set swept := sweep ticker_id t (P.side s.opposite) qty with hswept
  have hsent₀ : b₀.sent = b.sent ++ [PriorityBook.acceptedEvent t] := rfl
  have hadd : b.add client_id client_order_id ticker_id s price qty =
      if swept.2.1 ≠ 0 then
        b₁.addRemaining t.client_id_ t.client_order_id_ t.ticker_id_ t.market_order_id_ t.side_
          t.price_ swept.2.1
      else .ok b₁ := by
    rw [add_eq h.next_id, ← ht, ← hb₀, h.next_id, hcheck, ok_bind]
    rfl
  rw [hadd]
  have hholds : ∀ {b' : MEOrderBook} {sh' : Shape}, Stored unique b'.book sh' →
      infos b'.book sh' s = (P.add ticker_id client_id client_order_id s price qty).1.side s →
      infos b'.book sh' s.opposite = swept.1 →
      b'.next_market_order_id_ = b₁.next_market_order_id_ →
      b'.book.order_pool_.size = b₁.book.order_pool_.size →
      b'.book.orders_at_price_pool_.size = b₁.book.orders_at_price_pool_.size →
      Holds unique b' sh' (P.add ticker_id client_id client_order_id s price qty).1 := by
    intro b' sh' hrep' hown' hopp' hid' hosize hlsize
    apply Holds.of_sides hs hrep' hown' (hopp'.trans hside_opp.symm)
    · rw [hid', hsent₁.next_id, hnext, ← h.next_id]
    · rw [hosize, hsent₁.order_size]
      exact h.order_size
    · rw [hlsize, hsent₁.level_size]
      exact h.level_size
  by_cases h0 : swept.2.1 = 0
  · -- used up by the match
    left
    rw [if_pos h0] at hside hevents
    refine ⟨b₁, sh₁, by simp [h0], hholds hrep₁ (hown₁.trans hside.symm) hopp₁ rfl rfl rfl, ?_,
      hsent₁.ticker_id⟩
    rw [hsent₁.sent, hsent₀, hevents, List.append_nil, List.append_assoc]
    rfl
  · rw [if_neg h0] at hside hevents
    rw [if_pos h0]
    have hkey' : unique → ∀ s', s'.IsTrading → ∀ x ∈ infos b₁.book sh₁ s', key x ≠ key t := by
      intro hunique s' hs' x hx
      rcases hs.eq_or_eq_opposite hs' with rfl | rfl
      · exact hkey hunique x (hown_mem x (hown₁ ▸ hx))
      · exact hkey₁ hunique x (hopp₁ ▸ hx)
    have hslot' : ∀ s', s'.IsTrading → ∀ x ∈ infos b₁.book sh₁ s',
        priceToIndex x.price_ = priceToIndex t.price_ → x.price_ = t.price_ ∧ s' = t.side_ := by
      intro s' hs' x hx hidx
      rcases hs.eq_or_eq_opposite hs' with rfl | rfl
      · exact ⟨hslot x (hown_mem x (hown₁ ▸ hx)) hidx, rfl⟩
      · exact absurd hidx (hslot₁ h0 x (hopp₁ ▸ hx))
    rcases addRemaining_spec (P := P) (t := t) swept.2.1 hs hrep₁ hown₁ rfl ⟨hclient, hoid⟩ hkey'
        hslot' with ⟨b', sh', hrest, hrep', hins, hsent', htick', hid'⟩ | ⟨herr, hfull⟩
    · -- the rest comes to rest
      left
      refine ⟨b', sh', hrest, hholds hrep' ?_ ?_ hid' hins.order_size hins.level_size, ?_,
        htick'.trans hsent₁.ticker_id⟩
      · rw [hins.infos s hs, hside, hown₁]
        exact if_pos rfl
      · rw [hins.infos _ hs.opposite]
        exact (if_neg hs.opposite_ne).trans hopp₁
      · rw [hsent', hsent₁.sent, hsent₀, hevents, List.append_assoc, List.append_assoc]
        rfl
    · -- a pool is down to its last block, counted in the book as the match left it
      right
      refine ⟨herr, ?_⟩
      have hmid : Holds unique b₁ sh₁ ⟨infos b₁.book sh₁ .BUY, infos b₁.book sh₁ .SELL,
          b₁.next_market_order_id_⟩ := by
        refine ⟨hrep₁, ?_, rfl, hsent₁.order_size.trans h.order_size,
          hsent₁.level_size.trans h.level_size⟩
        intro s' hs'
        rcases hs' with rfl | rfl
        · rfl
        · rfl
      apply hmid.not_room_of_full hs (t := { t with qty_ := swept.2.1 }) _ _ hfull
      · rw [hside, ← hmid.infos s hs]
        exact congrArg _ hown₁.symm
      · rw [hside_opp, ← hmid.infos _ hs.opposite]
        exact hopp₁.symm

/-- An order map entry is the order `find` finds. -/
theorem Refines.find_eq (h : Refines b sh P) (k : ℕ × ℕ) :
    P.find k = (b.book.key_to_order_ k).map b.order := by
  rw [PriorityBook.find, ← h.orders_eq]
  cases hk : b.book.key_to_order_ k with
  | none =>
    rw [Option.map_none, List.find?_eq_none]
    intro x hx
    obtain ⟨o, ho, rfl⟩ := List.mem_map.mp hx
    rw [decide_eq_true_eq]
    intro heq
    have hsome := (h.rep.keys k o).mpr ⟨ho, heq⟩
    rw [hk] at hsome
    cases hsome
  | some o =>
    obtain ⟨ho, heq⟩ := (h.rep.keys k o).mp hk
    rw [Option.map_some]
    cases hfind : (sh.orders.map b.order).find? fun x => decide (key x = k) with
    | none =>
      have hnot := List.find?_eq_none.mp hfind (b.order o) (List.mem_map_of_mem ho)
      rw [decide_eq_true_eq] at hnot
      exact absurd heq hnot
    | some x =>
      obtain ⟨o', ho', rfl⟩ := List.mem_map.mp (List.mem_of_find?_eq_some hfind)
      have heq' : decide (key (b.order o') = k) = true :=
        List.find?_some (p := fun x => decide (key x = k)) hfind
      rw [h.rep.key_inj ho' ho ((of_decide_eq_true heq').trans heq.symm)]

/-- What `cancel` finds is what the order map holds. -/
theorem Holds.findCancelable_eq {client_id order_id : ℕ} (h : Holds unique b sh P)
    (hrange : (Call.cancel client_id order_id).InRange) :
    b.findCancelable client_id order_id = .ok (b.book.key_to_order_ (client_id, order_id)) := by
  rw [findCancelable]
  split
  · next hlt =>
    have hinRange : OrderInfo.inRange (I := MEOrderInfo) (client_id, order_id) = true := by
      change (decide (client_id < ME_MAX_NUM_CLIENTS) && decide (order_id < ME_MAX_ORDER_IDS)) = true
      rw [decide_eq_true hlt, decide_eq_true (hrange hlt)]
      rfl
    rw [getKey, if_pos hinRange]
  · next hge =>
    -- no order of a client that does not exist is in the map
    cases hk : b.book.key_to_order_ (client_id, order_id) with
    | none => rfl
    | some o =>
      obtain ⟨ho, heq⟩ := h.rep.live _ o hk
      have hinRange := h.rep.keys_inRange o ho
      rw [heq] at hinRange
      exact absurd (of_decide_eq_true (Bool.and_eq_true_iff.mp hinRange).1) hge

/-- `cancel` takes out the order it finds. -/
theorem cancel_holds {client_id order_id : ℕ} (h : Holds unique b sh P)
    (hrange : (Call.cancel client_id order_id).InRange) (ticker_id : ℕ) :
    ∃ b' sh' P', b.cancel client_id order_id ticker_id = .ok b' ∧ Holds unique b' sh' P' ∧
      P'.Within P ∧ b'.ticker_id_ = b.ticker_id_ := by
  cases hk : b.book.key_to_order_ (client_id, order_id) with
  | none =>
    rw [cancel, h.findCancelable_eq hrange, hk]
    exact ⟨_, sh, P, rfl, ⟨h.rep, h.infos, h.next_id, h.order_size, h.level_size⟩,
      ⟨fun s _ => List.Sublist.refl _, rfl⟩, rfl⟩
  | some o =>
    obtain ⟨book', sh', hrun, hrep', hrem⟩ := removeOrder_stored h.rep (h.rep.live _ o hk).1
    have hside : ∀ s, s.IsTrading → (LimitBook.infos book' sh' s).Sublist (P.side s) := by
      intro s hs
      rw [← h.infos s hs, LimitBook.infos, LimitBook.infos, hrem.flat s hs]
      simp only [hrem.info]
      exact List.erase_sublist.map _
    rw [cancel, h.findCancelable_eq hrange, hk, ok_bind]
    simp only [removeOrder, hrun, ok_bind]
    refine ⟨_, sh', ⟨LimitBook.infos book' sh' .BUY, LimitBook.infos book' sh' .SELL, P.next_id⟩,
      rfl, ⟨hrep', ?_, h.next_id, hrem.order_size.trans h.order_size,
      hrem.level_size.trans h.level_size⟩, ⟨?_, rfl⟩, rfl⟩
    · intro s hs
      rcases hs with rfl | rfl
      · rfl
      · rfl
    · intro s hs
      rcases hs with rfl | rfl
      · exact hside _ (.inl rfl)
      · exact hside _ (.inr rfl)

/-- **`cancel` is `PriorityBook.cancel`.** -/
theorem cancel_spec {client_id order_id : ℕ} (h : Refines b sh P)
    (hrange : (Call.cancel client_id order_id).InRange) (ticker_id : ℕ) :
    ∃ b' sh', b.cancel client_id order_id ticker_id = .ok b' ∧
      Refines b' sh' (P.cancel ticker_id client_id order_id).1 ∧
      b'.sent = b.sent ++ (P.cancel ticker_id client_id order_id).2 ∧
      b'.ticker_id_ = b.ticker_id_ := by
  have hfound := (h.holds True).findCancelable_eq hrange
  have hfind := h.find_eq (client_id, order_id)
  cases hk : b.book.key_to_order_ (client_id, order_id) with
  | none =>
    rw [hk, Option.map_none] at hfind
    rw [PriorityBook.cancel, hfind, cancel, hfound, hk]
    exact ⟨_, sh, rfl, ⟨h.rep, h.infos, h.next_id, h.order_size, h.level_size⟩, rfl, rfl⟩
  | some o =>
    rw [hk, Option.map_some] at hfind
    obtain ⟨ho, heq⟩ := (h.rep.keys _ o).mp hk
    obtain ⟨book', sh', hrun, hrep', hrem⟩ := removeOrder_spec h.rep ho
    rw [PriorityBook.cancel, hfind, cancel, hfound, hk, ok_bind]
    simp only [removeOrder, hrun, ok_bind]
    refine ⟨_, sh', rfl, ⟨hrep', ?_, h.next_id, hrem.order_size.trans h.order_size,
      hrem.level_size.trans h.level_size⟩, ?_, rfl⟩
    · intro s hs
      have hinfos := hrem.infos h.rep ho hs
      rw [heq, h.infos s hs] at hinfos
      refine hinfos.trans ?_
      rcases hs with rfl | rfl <;> rfl
    · simp [sendMarketUpdate, sendClientResponse, order]

/-- **One call**: the book does what the list of resting orders says, or stops because a pool is
down to its last block. -/
theorem step_spec_of_fits {c : Call} (h : Refines b sh P) (hwf : P.WF) (hfits : P.Fits c) :
    (∃ b' sh', b.step c = .ok b' ∧ Refines b' sh' (P.step b.ticker_id_ c).1 ∧
      b'.sent = b.sent ++ P.published b.ticker_id_ c ∧ b'.ticker_id_ = b.ticker_id_) ∨
    (b.step c = .error .outOfSpace ∧ ¬ (P.step b.ticker_id_ c).1.Room) := by
  obtain ⟨hrange, hkey, hslot⟩ := hfits
  cases c with
  | add client_id client_order_id s price qty =>
    rcases add_holds (h.holds True) hwf.sound hrange (fun _ => hkey) hslot b.ticker_id_ with
      ⟨b', sh', hrun, h', hsent, ht⟩ | hfull
    · exact .inl ⟨b', sh', hrun, h'.refines trivial, hsent, ht⟩
    · exact .inr hfull
  | cancel client_id order_id => exact .inl (cancel_spec h hrange b.ticker_id_)

/-- One call of a book whose keys may repeat. -/
theorem step_holds {c : Call} (h : Holds unique b sh P) (hsound : P.Sound) (hrange : c.InRange)
    (hkey : unique → P.KeyFree c) (hslot : P.SlotFree c) :
    (∃ b' sh' P', b.step c = .ok b' ∧ Holds unique b' sh' P' ∧ P'.Sound ∧
      b'.ticker_id_ = b.ticker_id_) ∨
    (b.step c = .error .outOfSpace ∧ ¬ (P.step b.ticker_id_ c).1.Room) := by
  cases c with
  | add client_id client_order_id s price qty =>
    rcases add_holds h hsound hrange hkey hslot b.ticker_id_ with
      ⟨b', sh', hrun, h', -, ht⟩ | hfull
    · exact .inl ⟨b', sh', _, hrun, h', hsound.add hrange.1 hrange.2.2.2, ht⟩
    · exact .inr hfull
  | cancel client_id order_id =>
    obtain ⟨b', sh', P', hrun, h', hin, ht⟩ := cancel_holds h hrange b.ticker_id_
    exact .inl ⟨b', sh', P', hrun, h', hsound.within hin, ht⟩

theorem step_spec {c : Call} (h : Refines b sh P) (hwf : P.WF) (hadmits : P.Admits c) :
    (∃ b' sh', b.step c = .ok b' ∧ Refines b' sh' (P.step b.ticker_id_ c).1 ∧
      b'.sent = b.sent ++ (P.step b.ticker_id_ c).2 ∧ b'.ticker_id_ = b.ticker_id_) ∨
    b.step c = .error .outOfSpace := by
  rw [← PriorityBook.published_eq hadmits]
  exact (step_spec_of_fits h hwf hadmits.fits).imp_right And.left

/-- A new book is empty. -/
theorem refines_new (ticker_id : ℕ) :
    Refines (MEOrderBook.new ticker_id) Shape.empty PriorityBook.empty where
  rep := BookRep.empty rfl rfl (fun _ => rfl) (fun _ => rfl)
    (MemPool.WF.new _ (by decide)) (MemPool.WF.new _ (by decide)) (MemPool.used_new ..)
    (MemPool.used_new ..)
  infos := fun s hs => by rcases hs with rfl | rfl <;> rfl
  next_id := rfl
  order_size := rfl
  level_size := rfl

end calls

end MEOrderBook

end TradingEcosystem
