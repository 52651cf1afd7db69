import TradingEcosystem.Trading.MarketOrderBook
import Mathlib.Data.Option.NAry
import Mathlib.Data.Rat.Defs

/-!
# Positions and Risk

`trading/strategy/position_keeper.h` and `risk_manager.{h,cpp}`: the position and the profit and
loss of a trading client in a ticker, and the check made before an order is sent.

- `Arith` : the arithmetic the strategies are compiled to, a parameter of what follows
- `PositionInfo.addFill`, `PositionInfo.updateBBO`
- `RiskInfo.checkPreTradeRisk`
-/

namespace TradingEcosystem

/-! ## Arithmetic -/

/-- `x` is a value of type `int32_t`. -/
def FitsInt32 (x : ℤ) : Prop := -2 ^ 31 ≤ x ∧ x < 2 ^ 31

/-- `x` is a value of type `int64_t`. -/
def FitsInt64 (x : ℤ) : Prop := -2 ^ 63 ≤ x ∧ x < 2 ^ 63

/-- Conversion of an unsigned 32-bit value to `int32_t`, from any representative of it. -/
def toInt32 (x : ℤ) : ℤ := (x + 2 ^ 31) % 2 ^ 32 - 2 ^ 31

theorem toInt32_of_fits {x : ℤ} (h : FitsInt32 x) : toInt32 x = x := by
  unfold FitsInt32 at h
  unfold toInt32
  omega

/-- `double` is any type with any operations.  A signed operation whose result does not fit its
type is undefined, so what it yields then is left open. -/
structure Arith (F : Type) where
  add : F → F → F
  sub : F → F → F
  mul : F → F → F
  div : F → F → F
  lt : F → F → Bool
  ge : F → F → Bool
  ne : F → F → Bool
  /-- Conversion of an integer. -/
  ofInt : ℤ → F
  /-- The literal `0.5`. -/
  half : F
  Feature_INVALID : F
  /-- The value of a signed 32-bit operation with exact result `x`. -/
  int32 : ℤ → ℤ
  int64 : ℤ → ℤ
  int32_eq : ∀ x, FitsInt32 x → int32 x = x
  int64_eq : ∀ x, FitsInt64 x → int64 x = x

/-- Exact arithmetic, with a value that is not a number.  Signed operations wrap around. -/
def Arith.exact : Arith (Option ℚ) where
  add := Option.map₂ (· + ·)
  sub := Option.map₂ (· - ·)
  mul := Option.map₂ (· * ·)
  div := fun a b => a.bind fun x => b.bind fun y => if y = 0 then none else some (x / y)
  lt := fun a b => (Option.map₂ (fun x y => decide (x < y)) a b).getD false
  ge := fun a b => (Option.map₂ (fun x y => decide (x ≥ y)) a b).getD false
  ne := fun a b => (Option.map₂ (fun x y => decide (x ≠ y)) a b).getD true
  ofInt := fun x => some x
  half := some (1 / 2)
  Feature_INVALID := none
  int32 := toInt32
  int64 := id
  int32_eq := fun _ => toInt32_of_fits
  int64_eq := fun _ _ => rfl

/-- The numeric value of the enumerator. -/
def sideToValue : Side → ℤ
  | .INVALID => 0
  | .BUY => 1
  | .SELL => -1
  | .MAX => 2
  | .UNKNOWN value => if value < 128 then value else value - 256

/-- `sideToIndex(side)` is an index of the arrays of `sideToIndex(Side::MAX) + 1` entries. -/
def Side.hasIndex : Side → Bool
  | .UNKNOWN _ => false
  | _ => true

theorem Side.IsTrading.hasIndex {s : Side} (hs : s.IsTrading) : s.hasIndex = true := by
  rcases hs with rfl | rfl
  · rfl
  · rfl

variable {F : Type}

/-! ## Positions -/

/-- The position in one ticker.  The source keeps a pointer to the ticker's best bid and offer
too, which is only printed. -/
structure PositionInfo (F : Type) where
  position_ : ℤ
  real_pnl_ : F
  unreal_pnl_ : F
  total_pnl_ : F
  /-- By side. -/
  open_vwap_ : Side → F
  volume_ : ℕ

namespace PositionInfo

/-- A new position.  The source does not initialise `open_vwap_`. -/
def new (N : Arith F) (open_vwap : Side → F) : PositionInfo F where
  position_ := 0
  real_pnl_ := N.ofInt 0
  unreal_pnl_ := N.ofInt 0
  total_pnl_ := N.ofInt 0
  open_vwap_ := open_vwap
  volume_ := 0

/-- `std::abs(position_)` as a `double`. -/
def absPosition (N : Arith F) (p : PositionInfo F) : F := N.ofInt (N.int32 |p.position_|)

/-- What the open position would earn at `price`. -/
def unrealized (N : Arith F) (p : PositionInfo F) (price : F) : F :=
  if p.position_ > 0 then
    N.mul (N.sub price (N.div (p.open_vwap_ .BUY) (p.absPosition N))) (p.absPosition N)
  else
    N.mul (N.sub (N.div (p.open_vwap_ .SELL) (p.absPosition N)) price) (p.absPosition N)

/-- The fill opened or increased the position. -/
def increase (N : Arith F) (p : PositionInfo F) (r : MEClientResponse) : PositionInfo F :=
  let notional := N.ofInt (N.int64 (r.price_ * r.exec_qty_))
  { p with
    open_vwap_ := Function.update p.open_vwap_ r.side_ (N.add (p.open_vwap_ r.side_) notional) }

/-- The fill decreased the position, which was `old_position` before. -/
def decrease (N : Arith F) (p : PositionInfo F) (old_position : ℤ) (r : MEClientResponse) :
    PositionInfo F :=
  let opp_side := if r.side_ = .BUY then Side.SELL else Side.BUY
  let old_size := N.int32 |old_position|
  let opp_side_vwap := N.div (p.open_vwap_ opp_side) (N.ofInt old_size)
  let earned := N.mul (N.mul (N.ofInt (min (toInt32 r.exec_qty_) old_size))
    (N.sub opp_side_vwap (N.ofInt r.price_))) (N.ofInt (sideToValue r.side_))
  let open_vwap := Function.update p.open_vwap_ opp_side (N.mul opp_side_vwap (p.absPosition N))
  { p with
    real_pnl_ := N.add p.real_pnl_ earned
    open_vwap_ :=
      if N.int32 (p.position_ * old_position) < 0 then
        -- the position changed its sign
        Function.update (Function.update open_vwap r.side_
          (N.ofInt (N.int64 (r.price_ * N.int32 |p.position_|)))) opp_side (N.ofInt 0)
      else
        open_vwap }

/-- The unrealised part of the profit after a fill at `price`. -/
def mark (N : Arith F) (p : PositionInfo F) (price : ℤ) : PositionInfo F :=
  if p.position_ = 0 then
    { p with
      open_vwap_ := Function.update (Function.update p.open_vwap_ .SELL (N.ofInt 0)) .BUY (N.ofInt 0)
      unreal_pnl_ := N.ofInt 0 }
  else
    { p with unreal_pnl_ := p.unrealized N (N.ofInt price) }

def sumPnl (N : Arith F) (p : PositionInfo F) : PositionInfo F :=
  { p with total_pnl_ := N.add p.unreal_pnl_ p.real_pnl_ }

/-- The position after a fill.  The product and the sum are computed as `uint32_t`. -/
def filledPosition (p : PositionInfo F) (r : MEClientResponse) : ℤ :=
  toInt32 (p.position_ + r.exec_qty_ * sideToValue r.side_)

/-- Process an execution. -/
def addFill (N : Arith F) (p : PositionInfo F) (r : MEClientResponse) : PositionInfo F :=
  let old_position := p.position_
  let p := { p with
    position_ := p.filledPosition r
    volume_ := (p.volume_ + r.exec_qty_) % 2 ^ 32 }
  let p := if N.int32 (old_position * sideToValue r.side_) ≥ 0 then p.increase N r
    else p.decrease N old_position r
  (p.mark N r.price_).sumPnl N

/-- Process a change of the best prices. -/
def updateBBO (N : Arith F) (p : PositionInfo F) (bbo : BBO) : PositionInfo F :=
  if p.position_ ≠ 0 ∧ bbo.bid_price_ ≠ Price_INVALID ∧ bbo.ask_price_ ≠ Price_INVALID then
    let mid_price := N.mul (N.ofInt (N.int64 (bbo.bid_price_ + bbo.ask_price_))) N.half
    { p with unreal_pnl_ := p.unrealized N mid_price }.sumPnl N
  else
    p

@[simp] theorem position_increase (N : Arith F) (p : PositionInfo F) (r : MEClientResponse) :
    (p.increase N r).position_ = p.position_ := rfl

@[simp] theorem position_decrease (N : Arith F) (p : PositionInfo F) (old : ℤ)
    (r : MEClientResponse) : (p.decrease N old r).position_ = p.position_ := rfl

@[simp] theorem position_mark (N : Arith F) (p : PositionInfo F) (price : ℤ) :
    (p.mark N price).position_ = p.position_ := by
  unfold mark
  split
  · rfl
  · rfl

/-- A fill moves the position by what was executed. -/
@[simp] theorem position_addFill (N : Arith F) (p : PositionInfo F) (r : MEClientResponse) :
    (p.addFill N r).position_ = p.filledPosition r := by
  unfold addFill
  simp only [sumPnl, position_mark]
  split
  · rfl
  · rfl

@[simp] theorem position_updateBBO (N : Arith F) (p : PositionInfo F) (bbo : BBO) :
    (p.updateBBO N bbo).position_ = p.position_ := by
  unfold updateBBO
  split
  · rfl
  · rfl

end PositionInfo

/-! ## Risk -/

structure RiskCfg (F : Type) where
  max_order_size_ : ℕ
  max_position_ : ℕ
  max_loss_ : F

structure TradeEngineCfg (F : Type) where
  clip_ : ℕ
  threshold_ : F
  risk_cfg_ : RiskCfg F

/-- A configuration the command line says nothing about. -/
def TradeEngineCfg.default (N : Arith F) : TradeEngineCfg F where
  clip_ := 0
  threshold_ := N.ofInt 0
  risk_cfg_ := { max_order_size_ := 0, max_position_ := 0, max_loss_ := N.ofInt 0 }

inductive RiskCheckResult where
  | INVALID
  | ORDER_TOO_LARGE
  | POSITION_TOO_LARGE
  | LOSS_TOO_LARGE
  | ALLOWED
  deriving DecidableEq, Repr

/-- What the risk check of one ticker reads. -/
structure RiskInfo (F : Type) where
  position_info_ : PositionInfo F
  risk_cfg_ : RiskCfg F

namespace RiskInfo

/-- `sideToValue(side) * static_cast<int32_t>(qty)`. -/
def signedQty (N : Arith F) (side : Side) (qty : ℕ) : ℤ :=
  N.int32 (sideToValue side * toInt32 qty)

/-- May an order of this quantity be sent on this side? -/
def checkPreTradeRisk (N : Arith F) (risk : RiskInfo F) (side : Side) (qty : ℕ) :
    RiskCheckResult :=
  if qty > risk.risk_cfg_.max_order_size_ then
    .ORDER_TOO_LARGE
  else if N.int32 |N.int32 (risk.position_info_.position_ + signedQty N side qty)| >
      toInt32 risk.risk_cfg_.max_position_ then
    .POSITION_TOO_LARGE
  else if N.lt risk.position_info_.total_pnl_ risk.risk_cfg_.max_loss_ then
    .LOSS_TOO_LARGE
  else
    .ALLOWED

end RiskInfo

end TradingEcosystem
