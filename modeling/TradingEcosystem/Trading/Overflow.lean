import TradingEcosystem.Trading.PositionKeeper
import Mathlib.Data.List.Infix

/-!
# Signed 32-bit Arithmetic

Positions are `int32_t`, quantities and limits `uint32_t`.  A fill multiplies the positions before
and after it, and the risk check casts the quantity and the limit; neither is checked.

- `PositionInfo.int32Values` : the exact values of the signed expressions of `addFill`
- `PositionInfo.fillExact_run_iff` : when they all fit, and flips are seen
- `RiskInfo.MeansItAll` : the risk check says what its limits say, whatever an overflow yields
- `RiskInfo.meansItAll_iff` : when it does
-/

namespace TradingEcosystem

instance (x : ℤ) : Decidable (FitsInt32 x) := inferInstanceAs (Decidable (_ ∧ _))

theorem fitsInt32_of_abs_lt {x : ℤ} (h : |x| < 2 ^ 31) : FitsInt32 x := by
  obtain ⟨hlow, hhigh⟩ := abs_lt.mp h
  exact ⟨hlow.le, hhigh⟩

theorem sideToValue_of_isTrading {s : Side} (hs : s.IsTrading) :
    sideToValue s = 1 ∨ sideToValue s = -1 := by
  rcases hs with rfl | rfl
  · exact .inl rfl
  · exact .inr rfl

variable {F : Type} {N : Arith F}

/-! ## Fills -/

namespace PositionInfo

/-- The position after a fill, in unbounded integers. -/
def exactPosition (position : ℤ) (r : MEClientResponse) : ℤ :=
  position + r.exec_qty_ * sideToValue r.side_

/-- The exact values of the signed 32-bit expressions that a fill evaluates. -/
def int32Values (position : ℤ) (r : MEClientResponse) : List ℤ :=
  [position * sideToValue r.side_, exactPosition position r] ++
  (if position * sideToValue r.side_ ≥ 0 then []
    else [|position|, |exactPosition position r|, (r.exec_qty_ : ℤ),
      exactPosition position r * position]) ++
  if exactPosition position r = 0 then [] else [|exactPosition position r|]

/-- **A fill does not overflow**, its test for a flipped position is right, and a flip leaves
nothing in the average price of the side that was closed. -/
structure FillExact (N : Arith F) (p : PositionInfo F) (r : MEClientResponse) : Prop where
  fits : ∀ x ∈ int32Values p.position_ r, FitsInt32 x
  flipped : p.position_ * sideToValue r.side_ < 0 →
    (N.int32 ((p.addFill N r).position_ * p.position_) < 0 ↔
      exactPosition p.position_ r * p.position_ < 0)
  reset : exactPosition p.position_ r * p.position_ < 0 →
    (p.addFill N r).open_vwap_ r.side_.opposite = N.ofInt 0

/-- A fill against the position executes less than 2^31, and the positions before and after it
have a product within `int32_t`. -/
def SmallFill (position : ℤ) (r : MEClientResponse) : Prop :=
  position * sideToValue r.side_ < 0 →
    r.exec_qty_ < 2 ^ 31 ∧ FitsInt32 (exactPosition position r * position)

variable {p : PositionInfo F} {r : MEClientResponse}

/-- The wrapped sum is the exact one, if that fits. -/
theorem filledPosition_eq (h : |exactPosition p.position_ r| < 2 ^ 31) :
    p.filledPosition r = exactPosition p.position_ r :=
  toInt32_of_fits (fitsInt32_of_abs_lt h)

/-- `mark` writes to `open_vwap_` only what a flat position has. -/
theorem open_vwap_mark (h : p.position_ ≠ 0) (price : ℤ) :
    (p.mark N price).open_vwap_ = p.open_vwap_ := by
  unfold mark
  rw [if_neg h]

/-- The product with the side's value only changes the sign. -/
theorem fitsInt32_mul_sideToValue {x : ℤ} {s : Side} (hs : s.IsTrading) (hx : |x| < 2 ^ 31) :
    FitsInt32 (x * sideToValue s) := by
  apply fitsInt32_of_abs_lt
  rcases sideToValue_of_isTrading hs with h | h
  · rwa [h, mul_one]
  · rwa [h, mul_neg, mul_one, abs_neg]

/-- A flip is a fill against the position. -/
theorem against_of_flip (hs : r.side_.IsTrading)
    (hflip : exactPosition p.position_ r * p.position_ < 0) :
    p.position_ * sideToValue r.side_ < 0 := by
  unfold exactPosition at hflip
  by_contra hnot
  -- a fill with the position leaves it on its side
  rcases sideToValue_of_isTrading hs with h | h
  · rw [h] at hflip hnot
    have hold : 0 ≤ p.position_ := by omega
    have hnew : 0 ≤ p.position_ + r.exec_qty_ * 1 := by omega
    exact absurd hflip (not_lt.mpr (mul_nonneg hnew hold))
  · rw [h] at hflip hnot
    have hold : p.position_ ≤ 0 := by omega
    have hnew : p.position_ + r.exec_qty_ * -1 ≤ 0 := by omega
    exact absurd hflip (not_lt.mpr (mul_nonneg_of_nonpos_of_nonpos hnew hold))

/-- A flip that is seen resets the side that was closed. -/
theorem open_vwap_of_flip (hside : r.side_.IsTrading) (hold : |p.position_| < 2 ^ 31)
    (hnew : |exactPosition p.position_ r| < 2 ^ 31)
    (hflip : exactPosition p.position_ r * p.position_ < 0)
    (hfits : FitsInt32 (exactPosition p.position_ r * p.position_)) :
    (p.addFill N r).open_vwap_ r.side_.opposite = N.ofInt 0 := by
  have hagainst := against_of_flip hside hflip
  have hopposite : (if r.side_ = .BUY then Side.SELL else Side.BUY) = r.side_.opposite := by
    rcases hside with h | h <;> rw [h] <;> rfl
  have hne : p.filledPosition r ≠ 0 := by
    rw [filledPosition_eq hnew]
    intro heq
    rw [heq, zero_mul] at hflip
    exact lt_irrefl 0 hflip
  unfold addFill
  simp only [N.int32_eq _ (fitsInt32_mul_sideToValue hside hold), not_le.mpr hagainst, if_false,
    sumPnl]
  rw [open_vwap_mark hne]
  unfold decrease
  simp only [filledPosition_eq hnew, N.int32_eq _ hfits, hflip, if_true, hopposite,
    Function.update_self]

/-- **What one fill evaluates fits exactly when it is small**, if the positions do. -/
theorem fillExact_iff (hside : r.side_.IsTrading) (hold : |p.position_| < 2 ^ 31)
    (hnew : |exactPosition p.position_ r| < 2 ^ 31) :
    FillExact N p r ↔ SmallFill p.position_ r := by
  have hfitsNew := fitsInt32_of_abs_lt hnew
  have habs : ∀ {x : ℤ}, |x| < 2 ^ 31 → FitsInt32 |x| := fun h => by
    apply fitsInt32_of_abs_lt
    rwa [abs_abs]
  constructor
  · -- a fill against the position evaluates its quantity and a product as `int`
    intro h hagainst
    have hfits := h.fits
    simp only [int32Values, not_le.mpr hagainst, if_false] at hfits
    have hqty : FitsInt32 r.exec_qty_ := hfits _ (by simp)
    refine ⟨?_, hfits _ (by simp)⟩
    have := hqty.2
    omega
  · intro h
    refine ⟨?_, fun hagainst => ?_, fun hflip => ?_⟩
    · intro x hx
      rw [int32Values, List.mem_append, List.mem_append] at hx
      rcases hx with (hx | hx) | hx
      · simp only [List.mem_cons, List.not_mem_nil, or_false] at hx
        rcases hx with rfl | rfl
        · exact fitsInt32_mul_sideToValue hside hold
        · exact hfitsNew
      · split at hx
        · cases hx
        · rename_i hagainst
          obtain ⟨hqty, hproduct⟩ := h (not_le.mp hagainst)
          simp only [List.mem_cons, List.not_mem_nil, or_false] at hx
          rcases hx with rfl | rfl | rfl | rfl
          · exact habs hold
          · exact habs hnew
          · exact ⟨by omega, by omega⟩
          · exact hproduct
      · split at hx
        · cases hx
        · rw [List.mem_singleton.mp hx]
          exact habs hnew
    · rw [position_addFill, filledPosition_eq hnew, N.int32_eq _ (h hagainst).2]
    · exact open_vwap_of_flip hside hold hnew hflip (h (against_of_flip hside hflip)).2

/-! ### Runs of fills -/

/-- The position after a sequence of fills. -/
def fills (N : Arith F) (p : PositionInfo F) (rs : List MEClientResponse) : PositionInfo F :=
  rs.foldl (addFill N) p

/-- Bought minus sold quantity, in unbounded integers. -/
def net (rs : List MEClientResponse) : ℤ :=
  (rs.map fun r => r.exec_qty_ * sideToValue r.side_).sum

theorem net_append (rs : List MEClientResponse) (r : MEClientResponse) :
    net (rs ++ [r]) = exactPosition (net rs) r := by
  simp [net, exactPosition]

/-- As long as it fits, the position is what was bought minus what was sold. -/
theorem position_fills {open_vwap : Side → F} {rs : List MEClientResponse}
    (hrange : ∀ rs', rs' <+: rs → |net rs'| < 2 ^ 31) :
    (fills N (.new N open_vwap) rs).position_ = net rs := by
  induction rs using List.reverseRecOn with
  | nil => rfl
  | append_singleton rs r ih =>
    have hrs := ih fun rs' hinitial => hrange rs' (hinitial.trans (List.prefix_append ..))
    rw [fills, List.foldl_append, List.foldl_cons, List.foldl_nil, position_addFill]
    change PositionInfo.filledPosition (fills N (.new N open_vwap) rs) r = net (rs ++ [r])
    have hnew := hrange _ List.prefix_rfl
    rw [net_append] at hnew ⊢
    rw [← hrs] at hnew ⊢
    exact filledPosition_eq hnew

/-- **Position arithmetic does not overflow**, in a sequence of fills whose running position stays
within `int32_t`, exactly when every fill of it is small. -/
theorem fillExact_run_iff (open_vwap : Side → F) {rs : List MEClientResponse}
    (hside : ∀ r ∈ rs, r.side_.IsTrading) (hrange : ∀ rs', rs' <+: rs → |net rs'| < 2 ^ 31) :
    (∀ rs₁ r rs₂, rs = rs₁ ++ r :: rs₂ → FillExact N (fills N (.new N open_vwap) rs₁) r) ↔
      ∀ rs₁ r rs₂, rs = rs₁ ++ r :: rs₂ → SmallFill (net rs₁) r := by
  refine forall_congr' fun rs₁ => forall_congr' fun r => forall_congr' fun rs₂ =>
    forall_congr' fun hsplit => ?_
  subst hsplit
  have hfirst : ∀ rs', rs' <+: rs₁ → |net rs'| < 2 ^ 31 := fun rs' hinitial =>
    hrange rs' (hinitial.trans (List.prefix_append ..))
  have hposition : (fills N (.new N open_vwap) rs₁).position_ = net rs₁ := position_fills hfirst
  have hold := hfirst rs₁ List.prefix_rfl
  have hnew := hrange (rs₁ ++ [r]) ⟨rs₂, by simp⟩
  rw [net_append] at hnew
  rw [← hposition] at hold hnew ⊢
  exact fillExact_iff (hside r (by simp)) hold hnew

/-- A fill of `qty` at price 1. -/
def filled (side : Side) (qty : ℕ) : MEClientResponse where
  type_ := .FILLED
  ticker_id_ := 0
  side_ := side
  price_ := 1
  exec_qty_ := qty

/-- **A flip that is not seen**: 65536 are bought and 131072 sold.  The product of the positions
does not fit, and the wrapped product 0 leaves the closed side its average price. -/
theorem not_fillExact_flip :
    (∀ r ∈ [filled .BUY 65536, filled .SELL 131072], r.side_.IsTrading) ∧
      |net [filled .BUY 65536]| < 2 ^ 31 ∧
      |net [filled .BUY 65536, filled .SELL 131072]| < 2 ^ 31 ∧
      ¬ FillExact Arith.exact (fills Arith.exact (.new Arith.exact fun _ => some 0)
        [filled .BUY 65536]) (filled .SELL 131072) ∧
      (fills Arith.exact (.new Arith.exact fun _ => some 0)
        [filled .BUY 65536, filled .SELL 131072]).open_vwap_ .BUY = some 65536 := by
  refine ⟨by decide, by decide, by decide, fun h => ?_, by decide +kernel⟩
  have hfits := h.fits (-2 ^ 32) (by decide +kernel)
  exact absurd hfits (by decide)

/-- A position that is bought and partly sold. -/
theorem fillExact_run_iff_partialClose :
    (∀ rs₁ r rs₂, [filled .BUY 10, filled .SELL 4] = rs₁ ++ r :: rs₂ →
        FillExact Arith.exact (fills Arith.exact (.new Arith.exact fun _ => some 0) rs₁) r) ↔
      ∀ rs₁ r rs₂, [filled .BUY 10, filled .SELL 4] = rs₁ ++ r :: rs₂ → SmallFill (net rs₁) r :=
  fillExact_run_iff _ (by decide) fun rs' hinitial =>
    (by decide : ∀ rs' ∈ [filled .BUY 10, filled .SELL 4].inits, |net rs'| < 2 ^ 31) rs'
      ((List.mem_inits _ _).mpr hinitial)

end PositionInfo

/-! ## The risk check -/

/-- The same arithmetic with other results where a signed 32-bit operation overflows. -/
def Arith.withInt32 (N : Arith F) (int32 : ℤ → ℤ) (h : ∀ x, FitsInt32 x → int32 x = x) : Arith F :=
  { N with int32 := int32, int32_eq := h }

namespace RiskInfo

/-- An order is allowed exactly when its size, the position it would lead to and the profit are
within their limits. -/
def MeansIt (N : Arith F) (risk : RiskInfo F) (side : Side) (qty : ℕ) : Prop :=
  risk.checkPreTradeRisk N side qty = .ALLOWED ↔
    qty ≤ risk.risk_cfg_.max_order_size_ ∧
      |risk.position_info_.position_ + sideToValue side * qty| ≤ risk.risk_cfg_.max_position_ ∧
      N.ge risk.position_info_.total_pnl_ risk.risk_cfg_.max_loss_ = true

/-- That holds whatever an overflowing operation yields. -/
def MeansItAll (N : Arith F) (risk : RiskInfo F) (side : Side) (qty : ℕ) : Prop :=
  ∀ int32 (h : ∀ x, FitsInt32 x → int32 x = x), (risk.MeansIt (N.withInt32 int32 h) side qty)

/-- No operation of the position check overflows. -/
def NoOverflow (position : ℤ) (side : Side) (qty : ℕ) : Prop :=
  FitsInt32 (sideToValue side * toInt32 qty) ∧
    FitsInt32 (position + sideToValue side * toInt32 qty) ∧
    FitsInt32 |position + sideToValue side * toInt32 qty|

instance (position : ℤ) (side : Side) (qty : ℕ) : Decidable (NoOverflow position side qty) :=
  inferInstanceAs (Decidable (_ ∧ _ ∧ _))

/-- The position check refuses, without an overflow. -/
def Refuses (position : ℤ) (side : Side) (qty max_position : ℕ) : Prop :=
  NoOverflow position side qty ∧
    toInt32 max_position < |position + sideToValue side * toInt32 qty|

/-- The order is refused for its size, for the loss or, rightly, for the position; or nothing of
the position check is out of range and the profit is a number that can be compared. -/
def InRange (N : Arith F) (risk : RiskInfo F) (side : Side) (qty : ℕ) : Prop :=
  risk.risk_cfg_.max_order_size_ < qty ∨
  N.lt risk.position_info_.total_pnl_ risk.risk_cfg_.max_loss_ = true ∨
  (qty < 2 ^ 31 ∧ risk.risk_cfg_.max_position_ < 2 ^ 31 ∧
    |risk.position_info_.position_ + sideToValue side * qty| < 2 ^ 31 ∧
    N.ge risk.position_info_.total_pnl_ risk.risk_cfg_.max_loss_ = true) ∨
  (Refuses risk.position_info_.position_ side qty risk.risk_cfg_.max_position_ ∧
    (N.ge risk.position_info_.total_pnl_ risk.risk_cfg_.max_loss_ = true →
      (risk.risk_cfg_.max_position_ : ℤ) <
        |risk.position_info_.position_ + sideToValue side * qty|))

variable {risk : RiskInfo F} {side : Side} {qty : ℕ} {int32 : ℤ → ℤ}

/-- What the three checks let pass. -/
theorem checkPreTradeRisk_eq_allowed :
    risk.checkPreTradeRisk N side qty = .ALLOWED ↔
      qty ≤ risk.risk_cfg_.max_order_size_ ∧
        N.int32 |N.int32 (risk.position_info_.position_ + signedQty N side qty)| ≤
          toInt32 risk.risk_cfg_.max_position_ ∧
        N.lt risk.position_info_.total_pnl_ risk.risk_cfg_.max_loss_ = false := by
  unfold checkPreTradeRisk
  split
  · rename_i hsize
    exact iff_of_false (by simp) fun h => absurd h.1 (not_le.mpr hsize)
  · rename_i hsize
    split
    · rename_i hposition
      exact iff_of_false (by simp) fun h => absurd h.2.1 (not_le.mpr hposition)
    · rename_i hposition
      split
      · rename_i hloss
        exact iff_of_false (by simp) fun h => by simp [hloss] at h
      · rename_i hloss
        exact iff_of_true rfl ⟨not_lt.mp hsize, not_lt.mp hposition, Bool.eq_false_iff.mpr hloss⟩

/-- Without an overflow the position check compares exact values. -/
theorem int32_of_noOverflow (N : Arith F) {position : ℤ} (h : NoOverflow position side qty) :
    N.int32 |N.int32 (position + signedQty N side qty)| =
      |position + sideToValue side * toInt32 qty| := by
  unfold signedQty
  rw [N.int32_eq _ h.1, N.int32_eq _ h.2.1, N.int32_eq _ h.2.2]

/-- Every overflow yields `c`. -/
def yielding (c x : ℤ) : ℤ := if FitsInt32 x then x else c

theorem yielding_of_fits (c : ℤ) : ∀ x, FitsInt32 x → yielding c x = x := fun _ h => if_pos h

/-- If `c` is large, an overflow anywhere in the position check makes it the result. -/
theorem int32_of_overflow (N : Arith F) {position c : ℤ} (hposition : FitsInt32 position)
    (h : ¬ NoOverflow position side qty) (hc : 2 ^ 33 ≤ |c|) :
    (N.withInt32 (yielding c) (yielding_of_fits c)).int32
      |(N.withInt32 (yielding c) (yielding_of_fits c)).int32
        (position + signedQty (N.withInt32 (yielding c) (yielding_of_fits c)) side qty)| = c := by
  have hlarge : ¬ FitsInt32 |c| := fun hfits => by
    have := hfits.2
    omega
  have hsum : ¬ FitsInt32 (position + c) := fun hfits => by
    obtain ⟨hlow, hhigh⟩ := hfits
    obtain ⟨hlow', hhigh'⟩ := hposition
    rcases le_abs.mp hc with hc | hc <;> omega
  show yielding c |yielding c (position + yielding c (sideToValue side * toInt32 qty))| = c
  by_cases hmul : FitsInt32 (sideToValue side * toInt32 qty)
  · rw [yielding_of_fits c _ hmul]
    by_cases hadd : FitsInt32 (position + sideToValue side * toInt32 qty)
    · rw [yielding_of_fits c _ hadd]
      exact if_neg fun habs => h ⟨hmul, hadd, habs⟩
    · rw [yielding, yielding, if_neg hadd, if_neg hlarge]
  · rw [yielding, yielding, yielding, if_neg hmul, if_neg hsum, if_neg hlarge]

/-- The cast of an unsigned value. -/
theorem toInt32_natCast {n : ℕ} (h : n < 2 ^ 32) :
    toInt32 n = if n < 2 ^ 31 then (n : ℤ) else n - 2 ^ 32 := by
  unfold toInt32
  split <;> omega

/-- If both the exact check and the one of the code let an order pass, nothing was narrowed. -/
theorem lt_of_both_allow {position : ℤ} {max_position : ℕ} (hside : side.IsTrading)
    (hqty : qty < 2 ^ 32) (hmax : max_position < 2 ^ 32)
    (hcode : |position + sideToValue side * toInt32 qty| ≤ toInt32 max_position)
    (hexact : |position + sideToValue side * qty| ≤ max_position) :
    qty < 2 ^ 31 ∧ max_position < 2 ^ 31 ∧ |position + sideToValue side * qty| < 2 ^ 31 := by
  have hpos := (abs_nonneg _).trans hcode
  have hmax' : max_position < 2 ^ 31 := by
    rw [toInt32_natCast hmax] at hpos
    split at hpos <;> omega
  rw [toInt32_natCast hmax, if_pos hmax', toInt32_natCast hqty] at hcode
  refine ⟨?_, hmax', by omega⟩
  by_contra hlarge
  rw [if_neg hlarge] at hcode
  obtain ⟨hlow, hhigh⟩ := abs_le.mp hcode
  obtain ⟨hlow', hhigh'⟩ := abs_le.mp hexact
  rcases sideToValue_of_isTrading hside with h | h
  · rw [h] at hlow hhigh hlow' hhigh'
    omega
  · rw [h] at hlow hhigh hlow' hhigh'
    omega

/-- Below 2^31 nothing overflows and the casts change nothing. -/
theorem noOverflow_of_lt {position : ℤ} (hside : side.IsTrading) (hqty : qty < 2 ^ 31)
    (hsum : |position + sideToValue side * qty| < 2 ^ 31) :
    NoOverflow position side qty ∧ toInt32 qty = qty := by
  have hcast : toInt32 qty = qty := toInt32_of_fits ⟨by omega, by omega⟩
  refine ⟨⟨?_, ?_, ?_⟩, hcast⟩
  · rw [hcast]
    rcases sideToValue_of_isTrading hside with h | h <;> rw [h] <;> exact ⟨by omega, by omega⟩
  · rw [hcast]
    exact fitsInt32_of_abs_lt hsum
  · rw [hcast]
    exact fitsInt32_of_abs_lt (by rwa [abs_abs])

/-- Once size and loss pass, everything is up to the position check. -/
theorem meansIt_iff_of_pass (hsize : qty ≤ risk.risk_cfg_.max_order_size_)
    (hloss : N.lt risk.position_info_.total_pnl_ risk.risk_cfg_.max_loss_ = false) :
    risk.MeansIt N side qty ↔
      (N.int32 |N.int32 (risk.position_info_.position_ + signedQty N side qty)| ≤
          toInt32 risk.risk_cfg_.max_position_ ↔
        |risk.position_info_.position_ + sideToValue side * qty| ≤ risk.risk_cfg_.max_position_ ∧
          N.ge risk.position_info_.total_pnl_ risk.risk_cfg_.max_loss_ = true) := by
  unfold MeansIt
  rw [checkPreTradeRisk_eq_allowed, and_congr_right_iff, and_iff_left hloss]
  exact forall_prop_of_true hsize

/-- If an operation overflows, some result lets the order pass and another one does not. -/
theorem noOverflow_of_meansItAll (hposition : FitsInt32 risk.position_info_.position_)
    (hsize : qty ≤ risk.risk_cfg_.max_order_size_)
    (hloss : N.lt risk.position_info_.total_pnl_ risk.risk_cfg_.max_loss_ = false)
    (hall : risk.MeansItAll N side qty) :
    NoOverflow risk.position_info_.position_ side qty := by
  by_contra hover
  have hcast : -2 ^ 33 ≤ toInt32 risk.risk_cfg_.max_position_ ∧
      toInt32 risk.risk_cfg_.max_position_ < 2 ^ 33 := by
    unfold toInt32
    omega
  have hpass := (meansIt_iff_of_pass (N := N.withInt32 _ (yielding_of_fits (-2 ^ 33))) hsize
    hloss).mp (hall _ (yielding_of_fits (-2 ^ 33)))
  have hstop := (meansIt_iff_of_pass (N := N.withInt32 _ (yielding_of_fits (2 ^ 33))) hsize
    hloss).mp (hall _ (yielding_of_fits (2 ^ 33)))
  rw [int32_of_overflow N hposition hover (by decide)] at hpass hstop
  exact absurd (hstop.mpr (hpass.mp hcast.1)) (not_le.mpr hcast.2)

/-- **The pre-trade check means what it says**, whatever an overflow yields, exactly when nothing
of it is out of range or it refuses rightly. -/
theorem meansItAll_iff (hside : side.IsTrading) (hqty : qty < 2 ^ 32)
    (hposition : FitsInt32 risk.position_info_.position_)
    (hmax : risk.risk_cfg_.max_position_ < 2 ^ 32)
    (hcompare : N.lt risk.position_info_.total_pnl_ risk.risk_cfg_.max_loss_ = true →
      N.ge risk.position_info_.total_pnl_ risk.risk_cfg_.max_loss_ = false) :
    risk.MeansItAll N side qty ↔ risk.InRange N side qty := by
  by_cases hsize : risk.risk_cfg_.max_order_size_ < qty
  · -- refused for its size
    refine iff_of_true (fun int32 h => ?_) (.inl hsize)
    unfold MeansIt
    rw [checkPreTradeRisk_eq_allowed]
    exact iff_of_false (fun h => absurd h.1 (not_le.mpr hsize))
      fun h => absurd h.1 (not_le.mpr hsize)
  cases hloss : N.lt risk.position_info_.total_pnl_ risk.risk_cfg_.max_loss_ with
  | true =>
    refine iff_of_true (fun int32 h => ?_) (.inr (.inl hloss))
    unfold MeansIt
    rw [checkPreTradeRisk_eq_allowed]
    refine iff_of_false (fun hallowed => ?_) fun hmeant => ?_
    · exact Bool.false_ne_true (hallowed.2.2.symm.trans hloss)
    · exact Bool.false_ne_true ((hcompare hloss).symm.trans hmeant.2.2)
  | false =>
    have hpass := not_lt.mp hsize
    constructor
    · intro hall
      have hover := noOverflow_of_meansItAll hposition hpass hloss hall
      have hmeans := (meansIt_iff_of_pass hpass hloss).mp (hall N.int32 N.int32_eq)
      rw [int32_of_noOverflow _ hover] at hmeans
      by_cases hcode : |risk.position_info_.position_ + sideToValue side * toInt32 qty| ≤
          toInt32 risk.risk_cfg_.max_position_
      · obtain ⟨hexact, hge⟩ := hmeans.mp hcode
        obtain ⟨h₁, h₂, h₃⟩ := lt_of_both_allow hside hqty hmax hcode hexact
        exact .inr (.inr (.inl ⟨h₁, h₂, h₃, hge⟩))
      · refine .inr (.inr (.inr ⟨⟨hover, not_le.mp hcode⟩, fun hge => ?_⟩))
        by_contra hexact
        exact hcode (hmeans.mpr ⟨not_lt.mp hexact, hge⟩)
    · intro hrange int32 h
      refine (meansIt_iff_of_pass (N := N.withInt32 int32 h) hpass hloss).mpr ?_
      rcases hrange with hlt | hlt | ⟨hqty', hmax', hsum, hge⟩ | ⟨⟨hover, hcode⟩, hexact⟩
      · exact absurd hlt hsize
      · rw [hloss] at hlt
        cases hlt
      · obtain ⟨hover, hcast⟩ := noOverflow_of_lt hside hqty' hsum
        have hcastMax : toInt32 risk.risk_cfg_.max_position_ = risk.risk_cfg_.max_position_ :=
          toInt32_of_fits ⟨by omega, by omega⟩
        rw [int32_of_noOverflow _ hover, hcast, hcastMax]
        exact (and_iff_left hge).symm
      · rw [int32_of_noOverflow _ hover]
        exact iff_of_false (not_le.mpr hcode) fun hmeant =>
          absurd hmeant.1 (not_le.mpr (hexact hmeant.2))

/-- A risk check of a flat position. -/
def flatRisk (max_order_size max_position : ℕ) : RiskInfo (Option ℚ) where
  position_info_ := .new Arith.exact fun _ => some 0
  risk_cfg_ := { max_order_size_ := max_order_size, max_position_ := max_position, max_loss_ := some 0 }

/-- **A limit that is not kept**: with the largest quantity, which is cast to -1, an order of
4294967295 passes a limit of 10; and the largest limit, which is cast to -1, lets no order pass. -/
theorem not_meansIt_cast :
    ((flatRisk (2 ^ 32 - 1) 10).checkPreTradeRisk Arith.exact .BUY (2 ^ 32 - 1) = .ALLOWED ∧
        ¬ (flatRisk (2 ^ 32 - 1) 10).MeansIt Arith.exact .BUY (2 ^ 32 - 1)) ∧
      (flatRisk 1 (2 ^ 32 - 1)).checkPreTradeRisk Arith.exact .BUY 1 = .POSITION_TOO_LARGE ∧
        ¬ (flatRisk 1 (2 ^ 32 - 1)).MeansIt Arith.exact .BUY 1 := by
  have hallowed : (flatRisk (2 ^ 32 - 1) 10).checkPreTradeRisk Arith.exact .BUY (2 ^ 32 - 1) =
      .ALLOWED := by decide +kernel
  have hrefused : (flatRisk 1 (2 ^ 32 - 1)).checkPreTradeRisk Arith.exact .BUY 1 =
      .POSITION_TOO_LARGE := by decide +kernel
  refine ⟨⟨hallowed, fun h => ?_⟩, hrefused, fun h => ?_⟩
  · exact absurd (h.mp hallowed).2.1 (by decide)
  · have hwrong := h.mpr ⟨by decide, by decide, by decide +kernel⟩
    rw [hrefused] at hwrong
    cases hwrong

/-- An order of 10 from a flat position, with limits of 20 and 50. -/
theorem meansItAll_iff_small :
    (flatRisk 20 50).MeansItAll Arith.exact .BUY 10 ↔ (flatRisk 20 50).InRange Arith.exact .BUY 10 :=
  meansItAll_iff (.inl rfl) (by decide) ⟨by decide, by decide⟩ (by decide) (by decide +kernel)

end RiskInfo

end TradingEcosystem
