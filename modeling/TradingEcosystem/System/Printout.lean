import TradingEcosystem.Book.Dump
import TradingEcosystem.System.Mirror

/-!
# What the Two Books Print

The exchange's book of a ticker and a client's book of it print the same text, in the destructors
and anywhere else, and the validity check stops neither of them.

- `dump_map` : the text depends on the ids and the quantities only
- `books_print_alike` : the two printouts after every call
-/

namespace TradingEcosystem

open LimitBook
open MEOrderBook (Call)

/-! ## The two functions -/

instance : OrderText MEOrderInfo where
  order_id := MEOrderInfo.market_order_id_
  qty := MEOrderInfo.qty_

instance : OrderText MarketOrderInfo where
  order_id := MarketOrderInfo.order_id_
  qty := MarketOrderInfo.qty_

/-- `MEOrderBook::toString`. -/
def MEOrderBook.toString (b : MEOrderBook) (detailed validity_check : Bool) :
    Except Fault String :=
  b.book.toString b.ticker_id_ detailed validity_check

/-- `MarketOrderBook::toString`. -/
def MarketOrderBook.toString (b : MarketOrderBook) (detailed validity_check : Bool) :
    Except Fault String :=
  b.book.toString b.ticker_id_ detailed validity_check

/-! ## Other data, the same text -/

section map

variable {I I' : Type} [OrderText I] [OrderText I'] {f : I → I'}

/-- The levels with other data in the orders. -/
def mapLevel (f : I → I') (g : ℤ × List I) : ℤ × List I' := (g.1, g.2.map f)

theorem levelRow_map (hid : ∀ x, OrderText.order_id (f x) = OrderText.order_id x)
    (hqty : ∀ x, OrderText.qty (f x) = OrderText.qty x) (detailed : Bool) (g : ℤ × List I)
    (prev_price next_price : ℤ) :
    levelRow detailed (mapLevel f g) prev_price next_price =
      levelRow detailed g prev_price next_price := by
  have hcount : ∀ (xs : List I) (sum : ℕ × ℕ),
      (xs.map f).foldl countOrder sum = xs.foldl countOrder sum := by
    intro xs
    induction xs with
    | nil => exact fun _ => rfl
    | cons x xs ih =>
      intro sum
      rw [List.map_cons, List.foldl_cons, List.foldl_cons, ih, countOrder, countOrder, hqty]
  simp only [levelRow, mapLevel, hcount, Lib.Ring.around_map, List.map_map, Function.comp_def,
    orderRow, Option.map_some, hid, hqty]

/-- **The text depends on the ids and the quantities only.** -/
theorem dump_map (hid : ∀ x, OrderText.order_id (f x) = OrderText.order_id x)
    (hqty : ∀ x, OrderText.qty (f x) = OrderText.qty x) (ticker_id : ℕ) (detailed : Bool)
    (asks bids : List (ℤ × List I)) :
    dump ticker_id detailed (asks.map (mapLevel f)) (bids.map (mapLevel f)) =
      dump ticker_id detailed asks bids := by
  have hside : ∀ (label : String) (levels : List (ℤ × List I)),
      sideRows detailed label (levels.map (mapLevel f)) = sideRows detailed label levels := by
    intro label levels
    rw [sideRows, sideRows, Lib.Ring.around_map, List.zipIdx_map, List.map_map]
    refine congrArg String.join (List.map_congr_left fun x _ => ?_)
    have hrow := levelRow_map hid hqty detailed x.1.1 x.1.2.1.1 x.1.2.2.1
    exact congrArg (fun row => label ++ ToString.toString x.2 ++ " => " ++ row) hrow
  simp only [dump, hside]

end map

/-! ## The prices of a book -/

/-- Orders keep to the prices of the calls; induction on the calls. -/
theorem PriorityBook.Tracks.run {base : ℤ} (ticker_id : ℕ) {calls : List Call} :
    ∀ {done : List Call} {P : PriorityBook}, Tracks base done P → (∀ c ∈ calls, c.Valid base) →
      Tracks base (done ++ calls) (PriorityBook.run ticker_id P calls).1 := by
  induction calls with
  | nil =>
    intro done P h _
    rw [List.append_nil]
    exact h
  | cons c calls ih =>
    intro done P h hvalid
    obtain ⟨hc, hcalls⟩ := List.forall_mem_cons.mp hvalid
    have hrest := ih (h.step hc ticker_id) hcalls
    rw [List.append_assoc, List.singleton_append] at hrest
    exact hrest

theorem PriorityBook.tracks_empty (base : ℤ) : Tracks base [] empty :=
  ⟨rfl, fun x hx => by simp [orders, empty] at hx, fun x hx => by simp [orders, empty] at hx⟩

/-- The prices of the levels are those of orders. -/
theorem MEOrderBook.Refines.exists_order {b : MEOrderBook} {sh : Shape} {P : PriorityBook}
    (h : MEOrderBook.Refines b sh P) {s : Side} (hs : s.IsTrading) {g : ℤ × List MEOrderInfo}
    (hg : g ∈ b.book.levelsView s) : ∃ x ∈ P.orders, x.price_ = g.1 := by
  have hgroup := h.rep.grouped hs
  obtain ⟨x, xs, hxs⟩ := List.exists_cons_of_ne_nil (hgroup.ne_nil g hg)
  have hx : x ∈ g.2 := by
    rw [hxs]
    exact List.mem_cons_self ..
  refine ⟨x, ?_, hgroup.price g hg x hx⟩
  have hside : x ∈ P.side s := by
    rw [← h.infos s hs, ← h.rep.orderList_eq hs, ← h.rep.flatten_levelsView hs]
    exact List.mem_flatten.mpr ⟨g.2, List.mem_map_of_mem hg, hx⟩
  exact PriorityBook.mem_orders.mpr ⟨s, hs, hside⟩

/-- Of the window that valid calls keep to, no price is at an end of the type's range. -/
theorem MEOrderBook.Refines.not_extreme {b : MEOrderBook} {sh : Shape} {P : PriorityBook}
    {base : ℤ} {calls : List Call} (h : MEOrderBook.Refines b sh P) (htracks : P.Tracks base calls)
    (hlow : minPrice < base) (hhigh : base + ME_MAX_PRICE_LEVELS ≤ maxPrice) :
    ¬ b.book.Extreme := by
  rintro (⟨g, hg, hle⟩ | ⟨g, hg, hle⟩)
  · obtain ⟨x, hx, hprice⟩ := h.exists_order (.inr rfl) hg
    have hwindow := htracks.price x hx
    omega
  · obtain ⟨x, hx, hprice⟩ := h.exists_order (.inl rfl) hg
    have hwindow := htracks.price x hx
    omega

/-! ## Both books -/

/-- **The exchange's book and the client's print the same text**: after each of a sequence of valid
calls, whatever the memory the two keep their orders in, the numbered lines of their levels.  The
validity check, which the destructors turn on, stops both or neither, and neither unless a price is
at an end of the range of `Price`. -/
theorem books_print_alike {base : ℤ} {ticker_id : ℕ} {calls : List Call}
    (hvalid : ValidCalls base calls)
    (hadds : (calls.filterMap Call.newKey).length < ME_MAX_ORDER_IDS)
    (hspace : (MEOrderBook.new ticker_id).run calls ≠ .error .outOfSpace) :
    ∀ done, done <+: calls → ∃ b m, (MEOrderBook.new ticker_id).run done = .ok b ∧
      (MarketOrderBook.new ticker_id).run (marketUpdates b.sent) = .ok m ∧
      (∀ detailed check, m.toString detailed check = b.toString detailed check ∧
        b.toString detailed check =
          if check = true ∧ b.book.Extreme then .error .assert
          else .ok (dump ticker_id detailed (b.book.levelsView .SELL) (b.book.levelsView .BUY))) ∧
      (minPrice < base → base + ME_MAX_PRICE_LEVELS ≤ maxPrice → ¬ b.book.Extreme) := by
  intro done hdone
  have hlen := (hdone.sublist.filterMap Call.newKey).length_le
  have hspace' : (MEOrderBook.new ticker_id).run done ≠ .error .outOfSpace := by
    obtain ⟨rest, rfl⟩ := hdone
    exact MEOrderBook.run_ne_outOfSpace hspace
  have hvalid_done := hvalid.of_isPrefix hdone
  have hadm := PriorityBook.ValidCalls.admitted ticker_id hvalid_done
  obtain ⟨b, sh, hrun, href, hsent, hticker⟩ := MEOrderBook.run_new hadm hspace'
  obtain ⟨hpub, hquotes⟩ := PriorityBook.run_quotes hadm (hlen.trans_lt hadds) hspace'
  rw [← hsent] at hpub hquotes
  obtain ⟨m, msh, hmrun, hholds, hmticker⟩ := MarketOrderBook.run_spec
    (MarketOrderBook.holds_new ticker_id) (hpub.imp fun _ _ h => h.1)
  have hlevels : ∀ s, s.IsTrading →
      m.book.levelsView s = (b.book.levelsView s).map (mapLevel MEOrderInfo.quoted) := by
    intro s hs
    apply levelsView_eq_map (f := MEOrderInfo.quoted) (fun _ => rfl) href.rep hholds.rep hs
    rw [hholds.rep.orderList_eq hs, href.rep.orderList_eq hs, hholds.infos s hs, href.infos s hs,
      hquotes, PriorityBook.side_quotes _ hs]
  have hextreme : m.book.Extreme ↔ b.book.Extreme := by
    unfold Extreme
    rw [hlevels .SELL (.inr rfl), hlevels .BUY (.inl rfl)]
    simp [mapLevel]
  refine ⟨b, m, hrun, hmrun, fun detailed check => ?_, fun hlow hhigh => ?_⟩
  · have hprint : b.toString detailed check =
        if check = true ∧ b.book.Extreme then .error .assert
        else .ok (dump ticker_id detailed (b.book.levelsView .SELL) (b.book.levelsView .BUY)) := by
      rw [MEOrderBook.toString, (href.rep.stored True).toString_eq, hticker]
    refine ⟨?_, hprint⟩
    rw [hprint, MarketOrderBook.toString, (hholds.rep.stored True).toString_eq, hmticker,
      hlevels .SELL (.inr rfl), hlevels .BUY (.inl rfl),
      dump_map (f := MEOrderInfo.quoted) (fun _ => rfl) (fun _ => rfl)]
    simp only [hextreme]
    rfl
  · have htracks := (PriorityBook.tracks_empty base).run ticker_id hvalid_done.valid
    exact href.not_extreme htracks hlow hhigh

/-- Two buy orders at two prices, and a sell order that takes a part of the better one. -/
def twoBids : List Call := [.add 1 1 .BUY 10 5, .add 1 2 .BUY 11 5, .add 2 1 .SELL 11 2]

theorem books_print_alike_twoBids :
    ∃ b m, (MEOrderBook.new 0).run twoBids = .ok b ∧
      (MarketOrderBook.new 0).run (marketUpdates b.sent) = .ok m ∧
      m.toString false true = b.toString false true ∧
      b.toString false true = .ok (String.join
        ["Ticker:0\n", "\n", "                          X\n", "\n",
          "BIDS L:0 =>  <px: 11 p: 10 n: 10> 11  @ 3    (1   )\n",
          "BIDS L:1 =>  <px: 10 p: 11 n: 11> 10  @ 5    (1   )\n"]) := by
  have hvalid : ValidCalls 0 twoBids :=
    ⟨by simp [twoBids, Call.Valid, Side.IsTrading, ME_MAX_NUM_CLIENTS, ME_MAX_ORDER_IDS,
      ME_MAX_PRICE_LEVELS], by decide⟩
  have hspace : (MEOrderBook.new 0).run twoBids ≠ .error .outOfSpace :=
    ne_outOfSpace_of_isOk (by decide +kernel)
  obtain ⟨b, m, hrun, hmrun, hprint, -⟩ := books_print_alike hvalid (by decide) hspace _
    List.prefix_rfl
  have htext : ((MEOrderBook.new 0).run twoBids).bind (fun b => b.toString false true) =
      .ok (String.join
        ["Ticker:0\n", "\n", "                          X\n", "\n",
          "BIDS L:0 =>  <px: 11 p: 10 n: 10> 11  @ 3    (1   )\n",
          "BIDS L:1 =>  <px: 10 p: 11 n: 11> 10  @ 5    (1   )\n"]) := by
    decide +kernel
  rw [hrun] at htext
  exact ⟨b, m, hrun, hmrun, (hprint false true).1, htext⟩

end TradingEcosystem
