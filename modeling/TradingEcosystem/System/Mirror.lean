import TradingEcosystem.Exchange.Runs
import TradingEcosystem.System.Published

/-!
# The Client's Book Mirrors the Exchange's Book

The market updates of a book on the exchange, fed in order to a new book of a client, rebuild its
levels and queues.

- `PriorityBook.quotes` : what a client should know of the resting orders
- `sweep_quotes` : the updates of a sweep take the quotes along
- `add_quotes`, `cancel_quotes` : the updates of one call
- `run_quotes` : the updates of a run
- `marketOrderBook_mirrors` : the two books agree after every call
-/

namespace TradingEcosystem

open LimitBook
open MEOrderBook (Call)

/-! ## One update -/

namespace Quotes

variable {Q : Quotes} {u : MEMarketUpdate} {s : Side} {x : MarketOrderInfo} {xs : List MarketOrderInfo}

/-- No order shares the id of the first order of a side. -/
theorem ids_ne_head (hs : s.IsTrading) (hnd : (Q.orders.map MarketOrderInfo.order_id_).Nodup)
    (hx : Q.side s = x :: xs) :
    (∀ y ∈ xs, y.order_id_ ≠ x.order_id_) ∧
      ∀ y ∈ Q.side s.opposite, y.order_id_ ≠ x.order_id_ := by
  have hperm := (Q.orders_perm hs).map MarketOrderInfo.order_id_
  rw [hperm.nodup_iff, hx, List.cons_append, List.map_cons, List.nodup_cons] at hnd
  have hne : ∀ y ∈ xs ++ Q.side s.opposite, y.order_id_ ≠ x.order_id_ := by
    intro y hy heq
    exact hnd.1 (heq ▸ List.mem_map_of_mem hy)
  exact ⟨fun y hy => hne y (List.mem_append_left _ hy),
    fun y hy => hne y (List.mem_append_right _ hy)⟩

/-- A `CANCEL` of the first order of a side. -/
theorem side_apply_cancel_head (hs : s.IsTrading)
    (hnd : (Q.orders.map MarketOrderInfo.order_id_).Nodup) (hx : Q.side s = x :: xs)
    (hu : u.type_ = .CANCEL) (hid : u.order_id_ = x.order_id_) {s' : Side} (hs' : s'.IsTrading) :
    (Q.apply u).side s' = if s' = s then xs else Q.side s' := by
  obtain ⟨hxs, hopp⟩ := ids_ne_head hs hnd hx
  unfold apply
  simp only [hu, hid]
  rw [side_map hs']
  rcases hs.eq_or_eq_opposite hs' with rfl | rfl
  · rw [if_pos rfl, hx, List.filter_cons_of_neg (by simp), List.filter_eq_self]
    intro y hy
    exact decide_eq_true (hxs y hy)
  · rw [if_neg hs.opposite_ne, List.filter_eq_self]
    intro y hy
    exact decide_eq_true (hopp y hy)

/-- A `MODIFY` of the first order of a side. -/
theorem side_apply_modify_head (hs : s.IsTrading)
    (hnd : (Q.orders.map MarketOrderInfo.order_id_).Nodup) (hx : Q.side s = x :: xs)
    (hu : u.type_ = .MODIFY) (hid : u.order_id_ = x.order_id_) {s' : Side} (hs' : s'.IsTrading) :
    (Q.apply u).side s' = if s' = s then { x with qty_ := u.qty_ } :: xs else Q.side s' := by
  obtain ⟨hxs, hopp⟩ := ids_ne_head hs hnd hx
  have hself : ∀ ys : List MarketOrderInfo, (∀ y ∈ ys, y.order_id_ ≠ x.order_id_) →
      (ys.map fun y => if y.order_id_ = x.order_id_ then { y with qty_ := u.qty_ } else y) = ys := by
    intro ys hys
    conv_rhs => rw [← List.map_id ys]
    apply List.map_congr_left
    intro y hy
    rw [if_neg (hys y hy), id]
  unfold apply
  simp only [hu, hid]
  rw [side_map hs']
  rcases hs.eq_or_eq_opposite hs' with rfl | rfl
  · rw [if_pos rfl, hx, List.map_cons, if_pos rfl, hself xs hxs]
  · rw [if_neg hs.opposite_ne, hself _ hopp]

end Quotes

/-! ## The quotes of the exchange's book -/

/-- What the clients know of a resting order. -/
def MEOrderInfo.quoted (o : MEOrderInfo) : MarketOrderInfo where
  order_id_ := o.market_order_id_
  side_ := o.side_
  price_ := o.price_
  qty_ := o.qty_
  priority_ := o.priority_

namespace PriorityBook

/-- What the clients should know of the resting orders. -/
def quotes (P : PriorityBook) : Quotes where
  bids := P.bids.map MEOrderInfo.quoted
  asks := P.asks.map MEOrderInfo.quoted

variable {P : PriorityBook} {s : Side}

theorem side_quotes (P : PriorityBook) (hs : s.IsTrading) :
    P.quotes.side s = (P.side s).map MEOrderInfo.quoted := by
  rcases hs with rfl | rfl <;> rfl

theorem orders_quotes (P : PriorityBook) : P.quotes.orders = P.orders.map MEOrderInfo.quoted := by
  rw [Quotes.orders, orders, List.map_append]
  rfl

theorem ids_quotes (P : PriorityBook) :
    P.quotes.orders.map MarketOrderInfo.order_id_ = P.orders.map MEOrderInfo.market_order_id_ := by
  rw [orders_quotes, List.map_map]
  rfl

/-! ## The updates of a sweep -/

theorem marketUpdates_fillEvents (ticker_id : ℕ) (taker maker : MEOrderInfo) (fill leaves : ℕ) :
    ∃ trade u, marketUpdates (fillEvents ticker_id taker maker fill leaves) = [trade, u] ∧
      trade.type_ = .TRADE ∧
      (u.order_id_ = maker.market_order_id_ ∧ u.side_ = maker.side_ ∧ u.price_ = maker.price_) ∧
      (maker.qty_ = fill → u.type_ = .CANCEL) ∧
      (maker.qty_ ≠ fill → u.type_ = .MODIFY ∧ u.qty_ = maker.qty_ - fill) := by
  refine ⟨_, _, rfl, rfl, ?_, ?_, ?_⟩
  · split
    · exact ⟨rfl, rfl, rfl⟩
    · exact ⟨rfl, rfl, rfl⟩
  · intro h
    rw [if_pos h]
  · intro h
    rw [if_neg h]
    exact ⟨rfl, rfl⟩

/-- **The updates of a sweep** take the quotes of the swept side along, order by order; induction
on the resting orders. -/
theorem sweep_quotes {ticker_id : ℕ} {taker : MEOrderInfo} (hs : s.IsTrading)
    (makers : List MEOrderInfo) :
    ∀ {leaves : ℕ} {Q : Quotes}, Q.side s = makers.map MEOrderInfo.quoted →
      (Q.orders.map MarketOrderInfo.order_id_).Nodup →
      Q.Along Quotes.Published (marketUpdates (sweep ticker_id taker makers leaves).2.2) ∧
        ∀ s', s'.IsTrading →
          (Q.applyAll (marketUpdates (sweep ticker_id taker makers leaves).2.2)).side s' =
            if s' = s then (sweep ticker_id taker makers leaves).1.map MEOrderInfo.quoted
            else Q.side s' := by
  induction makers with
  | nil =>
    intro leaves Q hQ _
    refine ⟨trivial, fun s' _ => ?_⟩
    split
    · next heq =>
      subst heq
      exact hQ
    · rfl
  | cons maker makers ih =>
    intro leaves Q hQ hnd
    rw [sweep]
    split
    · refine ⟨trivial, fun s' _ => ?_⟩
      split
      · next heq =>
        subst heq
        exact hQ
      · rfl
    · -- the trade changes nothing, the second update is about the first order of the side
      set fill := min leaves maker.qty_
      obtain ⟨trade, u, hupdates, htrade, ⟨hid, hside_u, hprice_u⟩, hfull, hpart⟩ :=
        marketUpdates_fillEvents ticker_id taker maker fill (leaves - fill)
      have hQtrade : Q.apply trade = Q := by simp only [Quotes.apply, htrade]
      have hpub_trade : Q.Published trade := by
        unfold Quotes.Published Quotes.Admits Quotes.Orderly
        simp only [htrade, true_and]
      have hmaker : maker.quoted ∈ Q.orders := Quotes.mem_orders.mpr ⟨s, hs, by simp [hQ]⟩
      have hknown : ∃ x ∈ Q.orders, x.order_id_ = u.order_id_ := ⟨maker.quoted, hmaker, hid.symm⟩
      have hagrees : ∀ x ∈ Q.orders, x.order_id_ = u.order_id_ →
          x.side_ = u.side_ ∧ x.price_ = u.price_ := by
        intro x hx hxid
        rw [List.inj_on_of_nodup_map hnd hx hmaker (hxid.trans hid), hside_u, hprice_u]
        exact ⟨rfl, rfl⟩
      simp only
      split
      · next hq =>
        have hu := hfull hq
        have hside : ∀ s' : Side, s'.IsTrading → (Q.apply u).side s' =
            if s' = s then makers.map MEOrderInfo.quoted else Q.side s' := fun _ hs' =>
          Quotes.side_apply_cancel_head hs hnd hQ hu hid hs'
        have hnd' : ((Q.apply u).orders.map MarketOrderInfo.order_id_).Nodup := by
          have hsub : (Q.apply u).orders.Sublist Q.orders := by
            simp only [Quotes.apply, hu]
            exact List.filter_sublist.append List.filter_sublist
          exact hnd.sublist (hsub.map _)
        have hQ' : (Q.apply u).side s = makers.map MEOrderInfo.quoted := by
          rw [hside s hs, if_pos rfl]
        obtain ⟨hpub, happly⟩ := @ih (leaves - fill) _ hQ' hnd'
        rw [marketUpdates_append, hupdates, List.cons_append, List.cons_append, List.nil_append]
        refine ⟨⟨hpub_trade, ?_, ?_⟩, fun s' hs' => ?_⟩
        · rw [hQtrade]
          unfold Quotes.Published Quotes.Admits Quotes.Orderly
          simp only [hu]
          exact ⟨hknown, hagrees⟩
        · rw [hQtrade]
          exact hpub
        · show (((Q.apply trade).apply u).applyAll _).side s' = _
          rw [hQtrade, happly s' hs', hside s' hs']
          split <;> rfl
      · next hq =>
        obtain ⟨hu, hqty⟩ := hpart hq
        rw [hupdates]
        refine ⟨⟨hpub_trade, ?_, trivial⟩, fun s' hs' => ?_⟩
        · rw [hQtrade]
          unfold Quotes.Published Quotes.Admits Quotes.Orderly
          simp only [hu]
          exact ⟨hknown, hagrees⟩
        · show ((Q.apply trade).apply u).side s' = _
          rw [hQtrade, Quotes.side_apply_modify_head hs hnd hQ hu hid hs', hqty]
          rfl

/-! ## The updates of a call -/

section call

variable {ticker_id client_id client_order_id qty : ℕ} {price : ℤ}

/-- The `ADD` an order that comes to rest is published with. -/
def addUpdate (o : MEOrderInfo) : MEMarketUpdate where
  type_ := .ADD
  order_id_ := o.market_order_id_
  ticker_id_ := o.ticker_id_
  side_ := o.side_
  price_ := o.price_
  qty_ := o.qty_
  priority_ := o.priority_

theorem crosses_self (s : Side) (price : ℤ) : crosses s price price = true := by
  unfold crosses
  split <;> simp

/-- The updates of a sweep that is followed by an `ADD`. -/
theorem marketUpdates_add (P : PriorityBook) (ticker_id client_id client_order_id : ℕ) (s : Side)
    (price : ℤ) (qty : ℕ) :
    let t := P.taker ticker_id client_id client_order_id s price qty
    let swept := sweep ticker_id t (P.side s.opposite) qty
    marketUpdates (P.add ticker_id client_id client_order_id s price qty).2 =
      marketUpdates swept.2.2 ++
        if swept.2.1 = 0 then [] else [addUpdate { t with qty_ := swept.2.1 }] := by
  simp only [add]
  split
  · rw [List.append_nil]
    rfl
  · rw [marketUpdates_append]
    rfl

/-- What is left of a taker can be added to the quotes that the sweep left. -/
theorem published_addUpdate (h : P.WF) (hs : s.IsTrading)
    (hslot : P.SlotFree (.add client_id client_order_id s price qty))
    (hid : P.next_id < ME_MAX_ORDER_IDS) {Q : Quotes} {u : MEMarketUpdate}
    (hu : u.type_ = .ADD) (huid : u.order_id_ = P.next_id) (huside : u.side_ = s)
    (huprice : u.price_ = price) (hfits : (Q.apply u).Fits)
    (hleft : (sweep ticker_id (P.taker ticker_id client_id client_order_id s price qty)
      (P.side s.opposite) qty).2.1 ≠ 0)
    (hQ : ∀ s', s'.IsTrading → Q.side s' =
      if s' = s.opposite then (sweep ticker_id (P.taker ticker_id client_id client_order_id s price qty)
        (P.side s.opposite) qty).1.map MEOrderInfo.quoted
      else (P.side s').map MEOrderInfo.quoted) : Q.Published u := by
  have hopp : ∀ x ∈ P.side s.opposite, x ∈ P.orders := fun x hx =>
    mem_orders.mpr ⟨_, hs.opposite, hx⟩
  have hown : ∀ x ∈ P.side s, x ∈ P.orders := fun x hx => mem_orders.mpr ⟨_, hs, hx⟩
  have huncrossed := sweep_uncrossed hs (h.sorted _ hs.opposite) hleft
  -- a quoted order is an order of the own side, or one that the sweep left
  have hmem : ∀ {s'}, s'.IsTrading → ∀ x ∈ Q.side s',
      x.order_id_ < P.next_id ∧ (priceToIndex x.price_ = priceToIndex price → x.price_ = price) ∧
        (s' ≠ s → x.price_ ≠ price) := by
    intro s' hs' x hx
    rw [hQ s' hs'] at hx
    rcases hs.eq_or_eq_opposite hs' with rfl | rfl
    · rw [if_neg hs.opposite_ne.symm] at hx
      obtain ⟨y, hy, rfl⟩ := List.mem_map.mp hx
      exact ⟨h.ids y (hown y hy), hslot y (hown y hy), fun hne => absurd rfl hne⟩
    · rw [if_pos rfl] at hx
      obtain ⟨y, hy, rfl⟩ := List.mem_map.mp hx
      refine ⟨?_, ?_, fun _ heq => ?_⟩
      · exact forall_sweep (p := fun y => y.market_order_id_ < P.next_id) (fun _ => Iff.rfl)
          (fun z hz => h.ids z (hopp z hz)) y hy
      · exact forall_sweep
          (p := fun y => priceToIndex y.price_ = priceToIndex price → y.price_ = price)
          (fun _ => Iff.rfl) (fun z hz => hslot z (hopp z hz)) y hy
      · have hcross : crosses s price y.price_ = false := huncrossed y hy
        rw [show y.price_ = price from heq, crosses_self] at hcross
        cases hcross
  unfold Quotes.Published Quotes.Admits Quotes.Orderly
  simp only [hu, huid, huside, huprice]
  refine ⟨⟨hs, hid, ?_, ?_, hfits⟩, fun x hx => ?_⟩
  · intro x hx
    obtain ⟨s', hs', hx⟩ := Quotes.mem_orders.mp hx
    exact Nat.ne_of_lt (hmem hs' x hx).1
  · intro s' hs' x hx hidx
    obtain ⟨-, hprice, hside⟩ := hmem hs' x hx
    by_contra hne
    exact hside (fun heq => hne ⟨hprice hidx, heq⟩) (hprice hidx)
  · obtain ⟨s', hs', hx⟩ := Quotes.mem_orders.mp hx
    exact (hmem hs' x hx).1

/-- **The updates of `add`** make the quotes those of the book it leaves. -/
theorem add_quotes (h : P.WF) (hc : P.Fits (.add client_id client_order_id s price qty))
    (hids : ∀ x ∈ (P.add ticker_id client_id client_order_id s price qty).1.orders,
      x.market_order_id_ < ME_MAX_ORDER_IDS)
    (hfits : (P.add ticker_id client_id client_order_id s price qty).1.quotes.Fits) :
    P.quotes.Along Quotes.Published
        (marketUpdates (P.add ticker_id client_id client_order_id s price qty).2) ∧
      P.quotes.applyAll
          (marketUpdates (P.add ticker_id client_id client_order_id s price qty).2) =
        (P.add ticker_id client_id client_order_id s price qty).1.quotes := by
  have hs := hc.1.1
  obtain ⟨hopp, -, hown⟩ := P.side_add ticker_id client_id client_order_id price qty hs
  have hupdates := P.marketUpdates_add ticker_id client_id client_order_id s price qty
  have hadds : P.next_id < ME_MAX_ORDER_IDS → ∀ {Q : Quotes} {u : MEMarketUpdate},
      u.type_ = .ADD → u.order_id_ = P.next_id → u.side_ = s → u.price_ = price → (Q.apply u).Fits →
      (sweep ticker_id (P.taker ticker_id client_id client_order_id s price qty)
        (P.side s.opposite) qty).2.1 ≠ 0 → _ → Q.Published u :=
    published_addUpdate h hs hc.2.2
  have hnd : (P.quotes.orders.map MarketOrderInfo.order_id_).Nodup := by
    rw [ids_quotes]
    exact h.ids_nodup
  simp only at hopp hown hupdates
  set t := P.taker ticker_id client_id client_order_id s price qty
  set swept := sweep ticker_id t (P.side s.opposite) qty
  set P' := (P.add ticker_id client_id client_order_id s price qty).1
  obtain ⟨hpub_sweep, hside_sweep⟩ : P.quotes.Along Quotes.Published (marketUpdates swept.2.2) ∧
      ∀ s', s'.IsTrading → (P.quotes.applyAll (marketUpdates swept.2.2)).side s' =
        if s' = s.opposite then swept.1.map MEOrderInfo.quoted else P.quotes.side s' :=
    sweep_quotes hs.opposite (P.side s.opposite) (P.side_quotes hs.opposite) hnd
  set Q := P.quotes.applyAll (marketUpdates swept.2.2) with hQ
  have hQown : Q.side s = (P.side s).map MEOrderInfo.quoted := by
    rw [hside_sweep s hs, if_neg hs.opposite_ne.symm, P.side_quotes hs]
  have hQopp : Q.side s.opposite = swept.1.map MEOrderInfo.quoted := by
    rw [hside_sweep _ hs.opposite, if_pos rfl]
  rw [hupdates]
  by_cases hleft : swept.2.1 = 0
  · -- the order was used up
    rw [if_pos hleft, List.append_nil]
    refine ⟨hpub_sweep, Quotes.ext_side fun s' hs' => ?_⟩
    rw [side_quotes P' hs']
    rcases hs.eq_or_eq_opposite hs' with rfl | rfl
    · rw [hown, if_pos hleft]
      exact hQown
    · rw [hopp]
      exact hQopp
  · set u := addUpdate { t with qty_ := swept.2.1 } with hu
    have happly : Q.apply u = P'.quotes := by
      refine Quotes.ext_side fun s' hs' => ?_
      rw [Quotes.side_apply_add rfl hs hs', side_quotes P' hs']
      show (if s' = s then _ else _) = _
      rcases hs.eq_or_eq_opposite hs' with rfl | rfl
      · rw [if_pos rfl, hown, if_neg hleft]
        show (Q.side s').orderedInsert (Precedes s') _ = _
        rw [hQown]
        symm
        apply List.map_orderedInsert
        · exact fun _ _ => Iff.rfl
        · exact fun _ _ => Iff.rfl
      · rw [if_neg hs.opposite_ne, hopp]
        exact hQopp
    rw [if_neg hleft]
    have hpub_add : Q.Published u := by
      -- the order rests, so its id is one of those in the book
      have hid : P.next_id < ME_MAX_ORDER_IDS := by
        apply hids { t with qty_ := swept.2.1 }
        apply mem_orders.mpr
        refine ⟨s, hs, ?_⟩
        rw [hown, if_neg hleft]
        exact (List.mem_orderedInsert _).mpr (.inl rfl)
      apply hadds hid rfl rfl rfl rfl (happly ▸ hfits) hleft
      intro s' hs'
      rw [hside_sweep s' hs', side_quotes P hs']
    refine ⟨Quotes.along_append.mpr ⟨hpub_sweep, hpub_add, trivial⟩, ?_⟩
    rw [Quotes.applyAll_append]
    exact happly

/-- The `CANCEL` of a cancelled order takes it out of the quotes. -/
theorem cancel_quotes {order_id : ℕ} (h : P.WF) :
    P.quotes.Along Quotes.Published (marketUpdates (P.cancel ticker_id client_id order_id).2) ∧
      P.quotes.applyAll (marketUpdates (P.cancel ticker_id client_id order_id).2) =
        (P.cancel ticker_id client_id order_id).1.quotes := by
  unfold cancel
  cases hfind : P.find (client_id, order_id) with
  | none => exact ⟨trivial, rfl⟩
  | some o =>
    have ho : o ∈ P.orders := List.mem_of_find?_eq_some hfind
    have hkey : key o = (client_id, order_id) := by
      simpa using List.find?_some hfind
    -- the client's id and the market order id single out the same order
    have hiff : ∀ x ∈ P.orders, key x = (client_id, order_id) ↔
        x.market_order_id_ = o.market_order_id_ := by
      intro x hx
      constructor
      · intro hxk
        rw [List.inj_on_of_nodup_map h.keys hx ho (hxk.trans hkey.symm)]
      · intro hxid
        rw [List.inj_on_of_nodup_map h.ids_nodup hx ho hxid, hkey]
    have hquoted : o.quoted ∈ P.quotes.orders := by
      rw [orders_quotes]
      exact List.mem_map_of_mem ho
    have hnd : (P.quotes.orders.map MarketOrderInfo.order_id_).Nodup := by
      rw [ids_quotes]
      exact h.ids_nodup
    refine ⟨⟨⟨⟨o.quoted, hquoted, rfl⟩, fun x hx hxid => ?_⟩, trivial⟩, Quotes.ext_side fun s' hs' => ?_⟩
    · rw [List.inj_on_of_nodup_map hnd hx hquoted hxid]
      exact ⟨rfl, rfl⟩
    · show (P.quotes.map _).side s' = _
      rw [Quotes.side_map hs', side_quotes _ hs', side_quotes _ hs', List.filter_map]
      have hside : (P.erase (client_id, order_id)).side s' =
          (P.side s').filter fun x => decide (key x ≠ (client_id, order_id)) := by
        rcases hs' with rfl | rfl <;> rfl
      rw [hside]
      apply congrArg
      apply List.filter_congr
      intro x hx
      apply decide_eq_decide.mpr
      apply not_congr
      exact (hiff x (mem_orders.mpr ⟨s', hs', hx⟩)).symm

/-- **The updates of one call** make the quotes those of the book it leaves. -/
theorem step_quotes {c : Call} (h : P.WF) (hc : P.Fits c)
    (hids : ∀ x ∈ (P.step ticker_id c).1.orders, x.market_order_id_ < ME_MAX_ORDER_IDS)
    (hfits : (P.step ticker_id c).1.quotes.Fits) :
    P.quotes.Along Quotes.Published (marketUpdates (P.step ticker_id c).2) ∧
      P.quotes.applyAll (marketUpdates (P.step ticker_id c).2) =
        (P.step ticker_id c).1.quotes := by
  cases c with
  | add client_id client_order_id s price qty => exact add_quotes h hc hids hfits
  | cancel client_id order_id => exact cancel_quotes h

/-- The updates of a sweep do not depend on the taker's own ids. -/
theorem marketUpdates_sweep_congr {taker taker' : MEOrderInfo} (hside : taker'.side_ = taker.side_)
    (hprice : taker'.price_ = taker.price_) (makers : List MEOrderInfo) :
    ∀ {leaves : ℕ}, marketUpdates (sweep ticker_id taker' makers leaves).2.2 =
      marketUpdates (sweep ticker_id taker makers leaves).2.2 := by
  induction makers with
  | nil =>
    intro leaves
    rfl
  | cons maker makers ih =>
    intro leaves
    have hfill : ∀ fill rest : ℕ, marketUpdates (fillEvents ticker_id taker' maker fill rest) =
        marketUpdates (fillEvents ticker_id taker maker fill rest) := by
      intro fill rest
      simp only [fillEvents, hside]
      rfl
    simp only [sweep, hside, hprice]
    split
    · rfl
    · split
      · rw [marketUpdates_append, marketUpdates_append, hfill, ih]
      · exact hfill _ _

/-- The clients are told of a call what `step` says, whatever the ids. -/
theorem marketUpdates_published (P : PriorityBook) (ticker_id : ℕ) (c : Call) :
    marketUpdates (P.published ticker_id c) = marketUpdates (P.step ticker_id c).2 := by
  cases c with
  | add client_id client_order_id s price qty =>
    set t := P.taker ticker_id client_id client_order_id s price qty with ht
    set t' : MEOrderInfo := { t with market_order_id_ := t.market_order_id_ % 2 ^ 32 } with ht'
    have hside : t'.side_ = t.side_ := rfl
    have hprice : t'.price_ = t.price_ := rfl
    have hleft : (sweep ticker_id t' (P.side s.opposite) qty).2.1 =
        (sweep ticker_id t (P.side s.opposite) qty).2.1 :=
      (sweep_congr hside hprice _ _).2
    have hupdates : marketUpdates (sweep ticker_id t' (P.side s.opposite) qty).2.2 =
        marketUpdates (sweep ticker_id t (P.side s.opposite) qty).2.2 :=
      marketUpdates_sweep_congr hside hprice _
    show marketUpdates (_ :: (sweep ticker_id t' (P.side s.opposite) qty).2.2 ++ _) =
      marketUpdates (P.add ticker_id client_id client_order_id s price qty).2
    rw [marketUpdates_add, marketUpdates_append, hleft, ← ht]
    show marketUpdates (sweep ticker_id t' (P.side s.opposite) qty).2.2 ++ _ = _
    rw [hupdates]
    split
    · rfl
    · rfl
  | cancel client_id order_id => rfl

end call

/-! ## The updates of a run -/

/-- The ids handed out are as many as the orders added. -/
theorem next_id_run {ticker_id : ℕ} {calls : List Call} :
    ∀ {P : PriorityBook}, Admitted ticker_id P calls →
      (run ticker_id P calls).1.next_id = P.next_id + (calls.filterMap Call.newKey).length := by
  induction calls with
  | nil =>
    intro P _
    rfl
  | cons c calls ih =>
    intro P hadm
    have hrun : (run ticker_id P (c :: calls)).1 = (run ticker_id (P.step ticker_id c).1 calls).1 := rfl
    rw [hrun, ih hadm.2]
    cases c with
    | add client_id client_order_id s price qty =>
      have hnext : (P.step ticker_id (.add client_id client_order_id s price qty)).1.next_id =
          P.next_id + 1 :=
        (P.side_add ticker_id client_id client_order_id price qty hadm.1.1).2.1
      have hkeys : (Call.add client_id client_order_id s price qty :: calls).filterMap Call.newKey =
          (client_id, client_order_id) :: calls.filterMap Call.newKey := rfl
      rw [hnext, hkeys, List.length_cons]
      omega
    | cancel client_id order_id =>
      have hnext : (P.step ticker_id (.cancel client_id order_id)).1.next_id = P.next_id := by
        simp only [step, cancel]
        split <;> rfl
      rw [hnext]
      rfl

end PriorityBook

open PriorityBook (run_append admitted_append)

/-- A book in memory leaves a block free in each pool. -/
theorem MEOrderBook.Refines.fits {b : MEOrderBook} {sh : Shape} {P : PriorityBook}
    (h : MEOrderBook.Refines b sh P) : P.quotes.Fits := by
  constructor
  · have hcard := h.rep.order_wf.used_card_lt
    rw [h.rep.order_card, h.order_size] at hcard
    rw [PriorityBook.orders_quotes, List.length_map, ← h.orders_eq, List.length_map]
    exact hcard
  · have hcard := h.rep.level_wf.used_card_lt
    rw [h.rep.level_card, h.level_size, Shape.all, List.length_append] at hcard
    have hcount : ∀ s, s.IsTrading →
        (sh.levels s).length = Quotes.levelCount (P.quotes.side s) := by
      intro s hs
      rw [h.rep.length_levels hs, h.infos s hs, P.side_quotes hs, Quotes.levelCount, List.map_map]
      rfl
    have hbids : (sh.levels .BUY).length = Quotes.levelCount P.quotes.bids := hcount _ (.inl rfl)
    have hasks : (sh.levels .SELL).length = Quotes.levelCount P.quotes.asks := hcount _ (.inr rfl)
    rw [← hbids, ← hasks]
    exact hcard

/-- A run that did not run out of space did not do so before its end. -/
theorem MEOrderBook.run_ne_outOfSpace {b : MEOrderBook} {calls calls' : List Call}
    (h : b.run (calls ++ calls') ≠ .error .outOfSpace) : b.run calls ≠ .error .outOfSpace := by
  intro herr
  apply h
  show List.foldlM MEOrderBook.step b (calls ++ calls') = _
  rw [List.foldlM_append]
  show (b.run calls >>= fun b => b.run calls') = _
  rw [herr, error_bind]

/-- **The updates of a run** can all be followed, and they make the quotes those of the book the
run ends in; induction on the calls, the last one first. -/
theorem PriorityBook.run_quotes {ticker_id : ℕ} {calls : List Call}
    (hadm : PriorityBook.empty.Admitted ticker_id calls)
    (hadds : (calls.filterMap Call.newKey).length < ME_MAX_ORDER_IDS)
    (hspace : (MEOrderBook.new ticker_id).run calls ≠ .error .outOfSpace) :
    Quotes.empty.Along Quotes.Published (marketUpdates (PriorityBook.run ticker_id .empty calls).2) ∧
      Quotes.empty.applyAll (marketUpdates (PriorityBook.run ticker_id .empty calls).2) =
        (PriorityBook.run ticker_id .empty calls).1.quotes := by
  induction calls using List.reverseRecOn with
  | nil => exact ⟨trivial, rfl⟩
  | append_singleton calls c ih =>
    obtain ⟨hcalls, hc, -⟩ := admitted_append.mp hadm
    have hlen : (calls.filterMap Call.newKey).length ≤
        ((calls ++ [c]).filterMap Call.newKey).length :=
      ((List.sublist_append_left calls [c]).filterMap _).length_le
    obtain ⟨hprev_pub, hprev⟩ :=
      ih hcalls (hlen.trans_lt hadds) (MEOrderBook.run_ne_outOfSpace hspace)
    obtain ⟨b, sh, -, href, -⟩ := MEOrderBook.run_new hadm hspace
    have hfits := href.fits
    have hid := PriorityBook.next_id_run hadm
    rw [run_append] at hfits hid ⊢
    set P := (PriorityBook.run ticker_id .empty calls).1
    have hid' : (P.step ticker_id c).1.next_id ≤ ME_MAX_ORDER_IDS := by
      have hempty : PriorityBook.empty.next_id = 1 := rfl
      have hnext : (P.step ticker_id c).1.next_id = _ := hid
      rw [hnext, hempty, Nat.add_comm]
      exact hadds
    have hwf : P.WF := WF.empty.run hcalls
    have hids : ∀ x ∈ (P.step ticker_id c).1.orders, x.market_order_id_ < ME_MAX_ORDER_IDS :=
      fun x hx => ((hwf.step hc).ids x hx).trans_le hid'
    obtain ⟨hstep_pub, hstep⟩ := step_quotes hwf hc.fits hids hfits
    have hone : PriorityBook.run ticker_id P [c] =
        ((P.step ticker_id c).1, (P.step ticker_id c).2 ++ []) := rfl
    simp only [hone, List.append_nil, marketUpdates_append, Quotes.applyAll_append, hprev]
    refine ⟨Quotes.along_append.mpr ⟨hprev_pub, ?_⟩, hstep⟩
    rw [hprev]
    exact hstep_pub

/-! ## The two books -/

/-- A level of the exchange's book as the clients know it. -/
def quotedLevel (g : ℤ × List MEOrderInfo) : ℤ × List MarketOrderInfo :=
  (g.1, g.2.map MEOrderInfo.quoted)

theorem ValidCalls.of_isPrefix {base : ℤ} {calls calls' : List Call} (h : ValidCalls base calls')
    (hpre : calls <+: calls') : ValidCalls base calls where
  valid := fun c hc => h.valid c (hpre.subset hc)
  keys_nodup := h.keys_nodup.sublist (hpre.sublist.filterMap _)

/-- **The client's book mirrors the exchange's book**: after each of a sequence of valid calls,
the updates published so far give a new client's book the levels and queues of the exchange's,
and each `MODIFY` or `CANCEL` among them met a book that knew its order. -/
theorem marketOrderBook_mirrors {base : ℤ} {ticker_id : ℕ} {calls : List Call}
    (hvalid : ValidCalls base calls)
    (hadds : (calls.filterMap Call.newKey).length < ME_MAX_ORDER_IDS)
    (hspace : (MEOrderBook.new ticker_id).run calls ≠ .error .outOfSpace) :
    ∀ done, done <+: calls → ∃ b m, (MEOrderBook.new ticker_id).run done = .ok b ∧
      (MarketOrderBook.new ticker_id).run (marketUpdates b.sent) = .ok m ∧
      (∀ s, s.IsTrading → m.book.levelsView s = (b.book.levelsView s).map quotedLevel) ∧
      ∀ us u us', marketUpdates b.sent = us ++ u :: us' → u.type_ = .MODIFY ∨ u.type_ = .CANCEL →
        ∃ m' o, (MarketOrderBook.new ticker_id).run us = .ok m' ∧
          m'.book.getKey u.order_id_ = .ok (some o) ∧
          (m'.book.order o).info.order_id_ = u.order_id_ := by
  intro done hdone
  have hlen := (hdone.sublist.filterMap Call.newKey).length_le
  have hspace' : (MEOrderBook.new ticker_id).run done ≠ .error .outOfSpace := by
    obtain ⟨rest, rfl⟩ := hdone
    exact MEOrderBook.run_ne_outOfSpace hspace
  have hadm := PriorityBook.ValidCalls.admitted ticker_id (hvalid.of_isPrefix hdone)
  obtain ⟨b, sh, hrun, href, hsent, -⟩ := MEOrderBook.run_new hadm hspace'
  obtain ⟨hpub, hquotes⟩ := PriorityBook.run_quotes hadm (hlen.trans_lt hadds) hspace'
  rw [← hsent] at hpub hquotes
  have hadm_all : Quotes.empty.AdmitsAll (marketUpdates b.sent) := hpub.imp fun _ _ h => h.1
  obtain ⟨m, msh, hmrun, hholds, -⟩ :=
    MarketOrderBook.run_spec (MarketOrderBook.holds_new ticker_id) hadm_all
  refine ⟨b, m, hrun, hmrun, fun s hs => ?_, fun us u us' hsplit htype => ?_⟩
  · apply levelsView_eq_map (f := MEOrderInfo.quoted) (fun _ => rfl) href.rep hholds.rep hs
    rw [hholds.rep.orderList_eq hs, href.rep.orderList_eq hs, hholds.infos s hs, href.infos s hs,
      hquotes, PriorityBook.side_quotes _ hs]
  · rw [hsplit] at hadm_all
    obtain ⟨hadm_us, hadm_u, -⟩ := Quotes.admitsAll_append.mp hadm_all
    obtain ⟨m', msh', hmrun', hholds', -⟩ :=
      MarketOrderBook.run_spec (MarketOrderBook.holds_new ticker_id) hadm_us
    have hknown : ∃ x ∈ (Quotes.empty.applyAll us).orders, x.order_id_ = u.order_id_ := by
      rcases htype with hu | hu
      · simpa only [Quotes.Admits, hu] using hadm_u
      · simpa only [Quotes.Admits, hu] using hadm_u
    obtain ⟨o, -, hid, hget⟩ := hholds'.find hknown
    exact ⟨m', o, hmrun', hget, hid⟩

/-- Two buy orders and a sell order that takes all of the first and a part of the second. -/
theorem marketOrderBook_mirrors_sweep :
    ∃ b m, (MEOrderBook.new 0).run
        [.add 1 1 .BUY 10 5, .add 1 2 .BUY 11 5, .add 2 1 .SELL 10 7] = .ok b ∧
      (MarketOrderBook.new 0).run (marketUpdates b.sent) = .ok m ∧
      (∀ s, s.IsTrading → m.book.levelsView s = (b.book.levelsView s).map quotedLevel) ∧
      ∀ us u us', marketUpdates b.sent = us ++ u :: us' → u.type_ = .MODIFY ∨ u.type_ = .CANCEL →
        ∃ m' o, (MarketOrderBook.new 0).run us = .ok m' ∧
          m'.book.getKey u.order_id_ = .ok (some o) ∧
          (m'.book.order o).info.order_id_ = u.order_id_ := by
  have hvalid : ValidCalls 0 [.add 1 1 .BUY 10 5, .add 1 2 .BUY 11 5, .add 2 1 .SELL 10 7] :=
    ⟨by simp [Call.Valid, Side.IsTrading, ME_MAX_NUM_CLIENTS, ME_MAX_ORDER_IDS,
      ME_MAX_PRICE_LEVELS], by decide⟩
  have hspace : (MEOrderBook.new 0).run
      [.add 1 1 .BUY 10 5, .add 1 2 .BUY 11 5, .add 2 1 .SELL 10 7] ≠ .error .outOfSpace :=
    ne_outOfSpace_of_isOk (by decide +kernel)
  exact marketOrderBook_mirrors hvalid (by decide) hspace _ List.prefix_rfl

end TradingEcosystem
