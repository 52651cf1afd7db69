import TradingEcosystem.Trading.BestQuotes
import TradingEcosystem.Trading.TradeEngine
import Mathlib.Algebra.Order.Field.Rat
import Mathlib.Tactic.Linarith
import Mathlib.Tactic.Ring

/-!
# The Fair Price

`FeatureEngine::onOrderBookUpdate` weighs the best prices by the quantity on the other side.  The
weights are sums in 32 bits, and so is the divisor, the sum of the two.

- `Weighs` : when the wrapped divisor still makes an average of the two prices
- `properPrice_iff` : the fair price of any book is one exactly then
-/

namespace TradingEcosystem

open LimitBook

/-! ## Exact reading -/

/-- The division, and the conversion of its operands, are read as exact. -/
structure Arith.DividesExactly (N : Arith (Option ℚ)) : Prop where
  div : N.div = Arith.exact.div
  ofInt : N.ofInt = Arith.exact.ofInt

theorem Arith.exact_dividesExactly : Arith.exact.DividesExactly := ⟨rfl, rfl⟩

/-- What is asked of the fair price between a best bid and a best ask. -/
def FeatureEngine.ProperPrice (f : FeatureEngine (Option ℚ)) (bid ask : ℤ) (bbo : BBO) : Prop :=
  (bbo.bid_qty_ + bbo.ask_qty_) % 2 ^ 32 ≠ 0 ∧
    ∃ price : ℚ, f.mkt_price_ = some price ∧ bid ≤ price ∧ price ≤ ask

/-! ## Averages with a wrapped divisor -/

/-- The weights do not wrap around in sum; or they do, and the prices are on both sides of zero
and far enough from it. -/
def Weighs (bid ask : ℤ) (bid_qty ask_qty : ℕ) : Prop :=
  (0 < bid_qty + ask_qty ∧ bid_qty + ask_qty < 2 ^ 32) ∨
  (2 ^ 32 < bid_qty + ask_qty ∧ -bid * 2 ^ 32 ≤ (ask - bid) * bid_qty ∧
    ask * 2 ^ 32 ≤ (ask - bid) * ask_qty)

/-- Prices above zero never make up for a divisor that wraps around. -/
theorem Weighs.of_pos {bid ask : ℤ} {bid_qty ask_qty : ℕ} (hbid : 0 < bid) (hbelow : bid < ask)
    (hask_qty : ask_qty < 2 ^ 32) (h : Weighs bid ask bid_qty ask_qty) :
    bid_qty + ask_qty < 2 ^ 32 := by
  rcases h with h | ⟨-, -, h⟩
  · exact h.2
  · have hqty : (ask_qty : ℤ) ≤ 2 ^ 32 := by omega
    have hmul : (ask - bid) * ask_qty ≤ (ask - bid) * 2 ^ 32 :=
      mul_le_mul_of_nonneg_left hqty (by omega)
    omega

variable {bid ask : ℤ} {bid_qty ask_qty : ℕ}

/-- A quotient lies between two integers exactly when the multiples do. -/
theorem between_div_iff {numerator : ℤ} {divisor : ℕ} (hpos : 0 < divisor) :
    ((bid : ℚ) ≤ (numerator : ℚ) / ((divisor : ℤ) : ℚ) ∧
        (numerator : ℚ) / ((divisor : ℤ) : ℚ) ≤ (ask : ℚ)) ↔
      bid * divisor ≤ numerator ∧ numerator ≤ ask * divisor := by
  have hdivisor : (0 : ℚ) < ((divisor : ℤ) : ℚ) := by exact_mod_cast hpos
  rw [le_div_iff₀ hdivisor, div_le_iff₀ hdivisor]
  exact_mod_cast Iff.rfl

theorem weighs_iff (hbelow : bid < ask) (hbid_qty : bid_qty < 2 ^ 32) (hask_qty : ask_qty < 2 ^ 32) :
    ((bid_qty + ask_qty) % 2 ^ 32 ≠ 0 ∧
      bid * ((bid_qty + ask_qty) % 2 ^ 32 : ℕ) ≤ bid * ask_qty + ask * bid_qty ∧
      bid * ask_qty + ask * bid_qty ≤ ask * ((bid_qty + ask_qty) % 2 ^ 32 : ℕ)) ↔
      Weighs bid ask bid_qty ask_qty := by
  have hspread : 0 < ask - bid := by omega
  have hbid_part : 0 ≤ (ask - bid) * (bid_qty : ℤ) := mul_nonneg hspread.le (Int.natCast_nonneg _)
  have hask_part : 0 ≤ (ask - bid) * (ask_qty : ℤ) := mul_nonneg hspread.le (Int.natCast_nonneg _)
  unfold Weighs
  by_cases hwraps : bid_qty + ask_qty < 2 ^ 32
  · -- the divisor is the sum of the weights
    rw [Nat.mod_eq_of_lt hwraps]
    push_cast
    constructor
    · rintro ⟨hne, -⟩
      exact .inl ⟨Nat.pos_of_ne_zero hne, hwraps⟩
    · rintro (⟨hpos, -⟩ | ⟨hover, -⟩)
      · exact ⟨hpos.ne', by linarith, by linarith⟩
      · omega
  · -- the divisor is 2^32 short of it
    have hmod : (bid_qty + ask_qty) % 2 ^ 32 = bid_qty + ask_qty - 2 ^ 32 := by omega
    have hcast : ((bid_qty + ask_qty - 2 ^ 32 : ℕ) : ℤ) = bid_qty + ask_qty - 2 ^ 32 := by omega
    rw [hmod, hcast]
    constructor
    · rintro ⟨hne, hlower, hupper⟩
      exact .inr ⟨by omega, by linarith, by linarith⟩
    · rintro (⟨-, hfits⟩ | ⟨hover, hlower, hupper⟩)
      · exact absurd hfits hwraps
      · exact ⟨by omega, by linarith, by linarith⟩

/-! ## The code -/

/-- Adding up in 32 bits. -/
theorem foldl_qty_mod {xs : List MarketOrderInfo} :
    ∀ {qty : ℕ}, qty < 2 ^ 32 → xs.foldl (fun qty y => (qty + y.qty_) % 2 ^ 32) qty =
      (qty + (xs.map MarketOrderInfo.qty_).sum) % 2 ^ 32 := by
  induction xs with
  | nil =>
    intro qty hlt
    exact (Nat.mod_eq_of_lt hlt).symm
  | cons x xs ih =>
    intro qty hlt
    rw [List.foldl_cons, ih (Nat.mod_lt _ (by decide)), List.map_cons, List.sum_cons,
      Nat.mod_add_mod, Nat.add_assoc]

/-- The quantity `updateBBO` stores for a level. -/
def levelQty (orders : List MarketOrderInfo) : ℕ :=
  (orders.map MarketOrderInfo.qty_).sum % 2 ^ 32

theorem bestQuote_cons {price : ℤ} {orders : List MarketOrderInfo}
    {levels : List (ℤ × List MarketOrderInfo)} (hne : orders ≠ [])
    (hqty : ∀ x ∈ orders, x.qty_ < 2 ^ 32) :
    MarketOrderBook.bestQuote ((price, orders) :: levels) = (price, levelQty orders) := by
  obtain ⟨x, xs, rfl⟩ := List.exists_cons_of_ne_nil hne
  show (price, xs.foldl (fun qty y => (qty + y.qty_) % 2 ^ 32) x.qty_) = _
  rw [foldl_qty_mod (hqty x (List.mem_cons_self ..)), levelQty, List.map_cons, List.sum_cons]

/-- With prices below 2^30 the numerator does not overflow. -/
theorem FeatureEngine.mktPrice_eq {N : Arith (Option ℚ)} (hN : N.DividesExactly) {bbo : BBO}
    (hbid : |bbo.bid_price_| < 2 ^ 30) (hask : |bbo.ask_price_| < 2 ^ 30)
    (hbid_qty : bbo.bid_qty_ < 2 ^ 32) (hask_qty : bbo.ask_qty_ < 2 ^ 32) :
    FeatureEngine.mktPrice N bbo =
      if (bbo.bid_qty_ + bbo.ask_qty_) % 2 ^ 32 = 0 then none
      else some (((bbo.bid_price_ * bbo.ask_qty_ + bbo.ask_price_ * bbo.bid_qty_ : ℤ) : ℚ) /
        ((((bbo.bid_qty_ + bbo.ask_qty_) % 2 ^ 32 : ℕ) : ℤ) : ℚ)) := by
  have hproduct : ∀ {price : ℤ} {qty : ℕ}, |price| < 2 ^ 30 → qty < 2 ^ 32 →
      |price * qty| < 2 ^ 62 := by
    intro price qty hprice hqty
    rw [abs_mul, Nat.abs_cast]
    calc |price| * (qty : ℤ) ≤ |price| * 2 ^ 32 :=
          mul_le_mul_of_nonneg_left (by omega) (abs_nonneg price)
      _ < 2 ^ 62 := by omega
  have h₁ := abs_lt.mp (hproduct hbid hask_qty)
  have h₂ := abs_lt.mp (hproduct hask hbid_qty)
  have hfit₁ : N.int64 (bbo.bid_price_ * bbo.ask_qty_) = bbo.bid_price_ * bbo.ask_qty_ :=
    N.int64_eq _ ⟨by omega, by omega⟩
  have hfit₂ : N.int64 (bbo.ask_price_ * bbo.bid_qty_) = bbo.ask_price_ * bbo.bid_qty_ :=
    N.int64_eq _ ⟨by omega, by omega⟩
  have hfit : N.int64 (bbo.bid_price_ * bbo.ask_qty_ + bbo.ask_price_ * bbo.bid_qty_) =
      bbo.bid_price_ * bbo.ask_qty_ + bbo.ask_price_ * bbo.bid_qty_ :=
    N.int64_eq _ ⟨by omega, by omega⟩
  unfold FeatureEngine.mktPrice
  rw [hfit₁, hfit₂, hfit, hN.div, hN.ofInt]
  have hzero : ((((bbo.bid_qty_ + bbo.ask_qty_) % 2 ^ 32 : ℕ) : ℤ) : ℚ) = 0 ↔
      (bbo.bid_qty_ + bbo.ask_qty_) % 2 ^ 32 = 0 := by exact_mod_cast Iff.rfl
  show (if ((((bbo.bid_qty_ + bbo.ask_qty_) % 2 ^ 32 : ℕ) : ℤ) : ℚ) = 0 then none
    else some _) = _
  by_cases hdivisor : (bbo.bid_qty_ + bbo.ask_qty_) % 2 ^ 32 = 0
  · rw [if_pos (hzero.mpr hdivisor), if_pos hdivisor]
  · rw [if_neg (hzero.not.mpr hdivisor), if_neg hdivisor]

/-- The fair price computed from a valid best bid and offer. -/
theorem FeatureEngine.properPrice_bbo_iff {N : Arith (Option ℚ)} (hN : N.DividesExactly)
    {bbo : BBO} (hbelow : bbo.bid_price_ < bbo.ask_price_) (hbid : |bbo.bid_price_| < 2 ^ 30)
    (hask : |bbo.ask_price_| < 2 ^ 30) (hbid_qty : bbo.bid_qty_ < 2 ^ 32)
    (hask_qty : bbo.ask_qty_ < 2 ^ 32) (f : FeatureEngine (Option ℚ)) :
    (f.onOrderBookUpdate N bbo).ProperPrice bbo.bid_price_ bbo.ask_price_ bbo ↔
      Weighs bbo.bid_price_ bbo.ask_price_ bbo.bid_qty_ bbo.ask_qty_ := by
  have hvalid : bbo.IsValid := by
    unfold BBO.IsValid Price_INVALID
    rw [abs_lt] at hbid hask
    omega
  rw [← weighs_iff hbelow hbid_qty hask_qty]
  unfold ProperPrice onOrderBookUpdate
  rw [if_pos hvalid]
  apply and_congr_right
  intro hdivisor
  show (∃ price : ℚ, mktPrice N bbo = some price ∧ _) ↔ _
  rw [mktPrice_eq hN hbid hask hbid_qty hask_qty, if_neg hdivisor,
    ← between_div_iff (Nat.pos_of_ne_zero hdivisor)]
  constructor
  · rintro ⟨price, hprice, hbetween⟩
    obtain rfl := Option.some.inj hprice
    exact hbetween
  · intro hbetween
    exact ⟨_, rfl, hbetween⟩

namespace MarketOrderBook

variable {m : MarketOrderBook} {sh : Shape} {bids asks : List MarketOrderInfo}
  {lower higher : List (ℤ × List MarketOrderInfo)}

/-- **The fair price is an average of the best prices exactly when the quantities of the best
levels weigh it**: in any book whose best bid is below its best ask. -/
theorem properPrice_iff {N : Arith (Option ℚ)} (hN : N.DividesExactly) (h : BookRep m.book sh)
    (hbids : m.book.levelsView .BUY = (bid, bids) :: lower)
    (hasks : m.book.levelsView .SELL = (ask, asks) :: higher)
    (hqty : ∀ x ∈ bids ++ asks, x.qty_ < 2 ^ 32) (hbelow : bid < ask) (hbid : |bid| < 2 ^ 30)
    (hask : |ask| < 2 ^ 30) (f : FeatureEngine (Option ℚ)) :
    ∃ m', m.updateBBO true true = .ok m' ∧
      ((f.onOrderBookUpdate N m'.bbo_).ProperPrice bid ask m'.bbo_ ↔
        Weighs bid ask (levelQty bids) (levelQty asks)) := by
  obtain ⟨bbo, hrun⟩ := updateBBO_spec h true true
  refine ⟨_, hrun, ?_⟩
  obtain ⟨-, hquote⟩ := quote_updateBBO h hrun
  -- each side is quoted at its best price with the wrapped sum of its quantities
  have hne : ∀ {s : Side}, s.IsTrading → ∀ {price orders levels},
      m.book.levelsView s = (price, orders) :: levels → orders ≠ [] := by
    intro s hs price orders levels hview
    exact (h.grouped hs).ne_nil (price, orders) (hview ▸ List.mem_cons_self ..)
  have hbuy : bbo.quote .BUY = (bid, levelQty bids) := by
    have hq := hquote .BUY (.inl rfl)
    rw [hbids, bestQuote_cons (hne (.inl rfl) hbids) fun x hx =>
      hqty x (List.mem_append_left _ hx)] at hq
    exact hq
  have hsell : bbo.quote .SELL = (ask, levelQty asks) := by
    have hq := hquote .SELL (.inr rfl)
    rw [hasks, bestQuote_cons (hne (.inr rfl) hasks) fun x hx =>
      hqty x (List.mem_append_right _ hx)] at hq
    exact hq
  obtain ⟨hbid_price, hbid_qty⟩ := Prod.mk.inj hbuy
  obtain ⟨hask_price, hask_qty⟩ := Prod.mk.inj hsell
  have hlt : ∀ orders : List MarketOrderInfo, levelQty orders < 2 ^ 32 := fun _ =>
    Nat.mod_lt _ (by decide)
  rw [← hbid_price] at hbelow hbid ⊢
  rw [← hask_price] at hbelow hask ⊢
  rw [← hbid_qty, ← hask_qty]
  exact FeatureEngine.properPrice_bbo_iff hN hbelow hbid hask (hbid_qty ▸ hlt bids)
    (hask_qty ▸ hlt asks) f

/-! ## One order on each side -/

/-- A bid at 100 and an ask at 101. -/
def bidAndAsk (bid_qty ask_qty : ℕ) : List MEMarketUpdate :=
  [{ type_ := .ADD, order_id_ := 1, ticker_id_ := 0, side_ := .BUY, price_ := 100,
     qty_ := bid_qty, priority_ := 1 },
   { type_ := .ADD, order_id_ := 2, ticker_id_ := 0, side_ := .SELL, price_ := 101,
     qty_ := ask_qty, priority_ := 1 }]

theorem admits_bidAndAsk (bid_qty ask_qty : ℕ) :
    Quotes.empty.AdmitsAll (bidAndAsk bid_qty ask_qty) := by
  have hone : 1 < ME_MAX_ORDER_IDS := by decide
  have htwo : 2 < ME_MAX_ORDER_IDS := by decide
  have hbid : ([100] : List ℤ).toFinset.card + ([] : List ℤ).toFinset.card <
      ME_MAX_PRICE_LEVELS := by decide
  have hboth : ([100] : List ℤ).toFinset.card + ([101] : List ℤ).toFinset.card <
      ME_MAX_PRICE_LEVELS := by decide
  refine ⟨⟨.inl rfl, hone, (fun x hx => by cases hx), ?_, hone, hbid⟩,
    ⟨.inr rfl, htwo, ?_, ?_, htwo, hboth⟩, trivial⟩
  · intro s hs x hx
    rcases hs with rfl | rfl <;> cases hx
  · intro x hx
    obtain rfl := List.mem_singleton.mp hx
    exact Nat.ne_of_lt (Nat.lt_succ_self 1)
  · intro s hs x hx hidx
    rcases hs with rfl | rfl
    · obtain rfl := List.mem_singleton.mp hx
      have hslot : priceToIndex 100 ≠ priceToIndex 101 := by decide
      exact absurd hidx hslot
    · cases hx

/-- The only order of a side is its best level. -/
theorem Holds.levelsView_singleton {b : LimitBook MarketOrderInfo ℕ} {Q : Quotes} {s : Side}
    {x : MarketOrderInfo} (h : Holds b sh Q) (hs : s.IsTrading) (hx : Q.side s = [x]) :
    b.levelsView s = [(x.price_, [x])] := by
  have hgroups : Grouped MarketOrderInfo.price_ (b.levelsView s) := h.rep.grouped hs
  have hone : Grouped MarketOrderInfo.price_ [(x.price_, [x])] := by
    refine ⟨?_, ?_, List.pairwise_singleton ..⟩
    · intro g hg
      obtain rfl := List.mem_singleton.mp hg
      exact List.cons_ne_nil _ _
    · intro g hg y hy
      obtain rfl := List.mem_singleton.mp hg
      obtain rfl := List.mem_singleton.mp hy
      rfl
  refine hgroups.eq_of_flatten hone ?_
  rw [h.rep.flatten_levelsView hs, h.rep.orderList_eq hs, h.infos s hs, hx]
  rfl

theorem exists_bidAndAsk (bid_qty ask_qty : ℕ) :
    ∃ (m : MarketOrderBook) (sh : Shape) (x y : MarketOrderInfo), BookRep m.book sh ∧
      m.book.levelsView .BUY = [(100, [x])] ∧ m.book.levelsView .SELL = [(101, [y])] ∧
      x.qty_ = bid_qty ∧ y.qty_ = ask_qty := by
  obtain ⟨m, sh, -, h, -⟩ := run_spec (holds_new 0) (admits_bidAndAsk bid_qty ask_qty)
  exact ⟨m, sh, _, _, h.rep, h.levelsView_singleton (.inl rfl) rfl,
    h.levelsView_singleton (.inr rfl) rfl, rfl, rfl⟩

theorem properPrice_iff_oneAndThree :
    ∃ (m m' : MarketOrderBook) (x y : MarketOrderInfo), m.updateBBO true true = .ok m' ∧
      (((FeatureEngine.new Arith.exact).onOrderBookUpdate Arith.exact m'.bbo_).ProperPrice 100 101
        m'.bbo_ ↔ Weighs 100 101 (levelQty [x]) (levelQty [y])) := by
  obtain ⟨m, sh, x, y, hrep, hbids, hasks, hx, hy⟩ := exists_bidAndAsk 1 3
  have hqty : ∀ z ∈ [x] ++ [y], z.qty_ < 2 ^ 32 := by
    intro z hz
    rcases List.mem_cons.mp hz with rfl | hz
    · rw [hx]
      decide
    · obtain rfl := List.mem_singleton.mp hz
      rw [hy]
      decide
  obtain ⟨m', hrun, hiff⟩ := properPrice_iff Arith.exact_dividesExactly hrep hbids hasks hqty
    (by decide) (by decide) (by decide) (FeatureEngine.new Arith.exact)
  exact ⟨m, m', x, y, hrun, hiff⟩

/-- Two orders of 2^31: the divisor is 0. -/
theorem not_properPrice_halves :
    ¬ ∀ (m : MarketOrderBook) (sh : Shape) (bid ask : ℤ) (bids asks : List MarketOrderInfo)
        (lower higher : List (ℤ × List MarketOrderInfo)), BookRep m.book sh →
      m.book.levelsView .BUY = (bid, bids) :: lower →
      m.book.levelsView .SELL = (ask, asks) :: higher →
      (∀ x ∈ bids ++ asks, 0 < x.qty_ ∧ x.qty_ < 2 ^ 32) → bid < ask → |bid| < 2 ^ 30 →
      |ask| < 2 ^ 30 → ∀ m', m.updateBBO true true = .ok m' →
        ((FeatureEngine.new Arith.exact).onOrderBookUpdate Arith.exact m'.bbo_).ProperPrice bid ask
          m'.bbo_ := by
  intro h
  obtain ⟨m, sh, x, y, hrep, hbids, hasks, hx, hy⟩ := exists_bidAndAsk (2 ^ 31) (2 ^ 31)
  have hqty : ∀ z ∈ [x] ++ [y], 0 < z.qty_ ∧ z.qty_ < 2 ^ 32 := by
    intro z hz
    rcases List.mem_cons.mp hz with rfl | hz
    · rw [hx]
      decide
    · obtain rfl := List.mem_singleton.mp hz
      rw [hy]
      decide
  obtain ⟨bbo, hrun⟩ := updateBBO_spec hrep true true
  obtain ⟨hdivisor, -⟩ := h m sh 100 101 [x] [y] [] [] hrep hbids hasks hqty (by decide)
    (by decide) (by decide) _ hrun
  -- both sides are quoted with 2^31
  have hquote := (quote_updateBBO hrep hrun).2
  have hbid_qty : bbo.bid_qty_ = x.qty_ := by
    have hbuy := hquote .BUY (.inl rfl)
    rw [hbids] at hbuy
    exact congrArg Prod.snd hbuy
  have hask_qty : bbo.ask_qty_ = y.qty_ := by
    have hsell := hquote .SELL (.inr rfl)
    rw [hasks] at hsell
    exact congrArg Prod.snd hsell
  apply hdivisor
  show (bbo.bid_qty_ + bbo.ask_qty_) % 2 ^ 32 = 0
  rw [hbid_qty, hask_qty, hx, hy]
  decide

end MarketOrderBook

end TradingEcosystem
