import TradingEcosystem.Common.Types
import TradingEcosystem.Lib.Wire

/-!
# Wire Format

The packed, little-endian structures `OMClientRequest` and `OMClientResponse` of
`exchange/order_server/client_{request,response}.h`, and `MDPMarketUpdate` of
`exchange/market_data/market_update.h`.

- `OMClientRequest.ofBytes` : what the order server reads from 38 bytes, whatever they are
- `MEClientResponse.toBytes`, `OMClientResponse.ofBytes` : what it writes, and what the order
  gateway reads from 50 bytes
- `MDPMarketUpdate.toBytes`, `MDPMarketUpdate.ofBytes` : the 42 bytes of a published update
- `OMClientRequest.ofBytes_toBytes`, `OMClientResponse.ofBytes_toBytes`,
  `MDPMarketUpdate.ofBytes_toBytes` : the round trips
-/

namespace TradingEcosystem

open Lib.Wire (toBytes ofBytes readInt)

/-- Client request as the order gateway numbers it. -/
structure OMClientRequest where
  seq_num_ : ℕ := 0
  me_client_request_ : MEClientRequest := {}
  deriving DecidableEq, Repr, Inhabited

/-- Client response as the order server numbers it. -/
structure OMClientResponse where
  seq_num_ : ℕ := 0
  me_client_response_ : MEClientResponse := {}
  deriving DecidableEq, Repr, Inhabited

/-! ## Fields -/

def ClientRequestType.ofByte : ℕ → ClientRequestType
  | 0 => .INVALID
  | 1 => .NEW
  | 2 => .CANCEL
  | value => .UNKNOWN value

def ClientRequestType.toByte : ClientRequestType → ℕ
  | .INVALID => 0
  | .NEW => 1
  | .CANCEL => 2
  | .UNKNOWN value => value

/-- The types a byte can hold. -/
def ClientRequestType.OnWire (t : ClientRequestType) : Prop :=
  t.toByte < 256 ∧ ClientRequestType.ofByte t.toByte = t

/-- The byte of `SELL` is that of `-1`. -/
def Side.ofByte : ℕ → Side
  | 0 => .INVALID
  | 1 => .BUY
  | 255 => .SELL
  | 2 => .MAX
  | value => .UNKNOWN value

def Side.toByte : Side → ℕ
  | .INVALID => 0
  | .BUY => 1
  | .SELL => 255
  | .MAX => 2
  | .UNKNOWN value => value

/-- The sides a byte can hold. -/
def Side.OnWire (s : Side) : Prop := s.toByte < 256 ∧ Side.ofByte s.toByte = s

theorem Side.onWire_ofByte {value : ℕ} (h : value < 256) : (Side.ofByte value).OnWire := by
  have hbyte : (Side.ofByte value).toByte = value := by
    unfold Side.ofByte
    split <;> rfl
  unfold Side.OnWire
  rw [hbyte]
  exact ⟨h, rfl⟩

/-- Only the values of the enumeration are ever written. -/
def ClientResponseType.ofByte : ℕ → ClientResponseType
  | 1 => .ACCEPTED
  | 2 => .CANCELED
  | 3 => .FILLED
  | 4 => .CANCEL_REJECTED
  | _ => .INVALID

def ClientResponseType.toByte : ClientResponseType → ℕ
  | .INVALID => 0
  | .ACCEPTED => 1
  | .CANCELED => 2
  | .FILLED => 3
  | .CANCEL_REJECTED => 4

theorem ClientResponseType.ofByte_toByte (t : ClientResponseType) :
    t.toByte < 256 ∧ ClientResponseType.ofByte t.toByte = t := by
  cases t <;> exact ⟨by decide, rfl⟩

/-- Only the values of the enumeration are ever written. -/
def MarketUpdateType.ofByte : ℕ → MarketUpdateType
  | 1 => .CLEAR
  | 2 => .ADD
  | 3 => .MODIFY
  | 4 => .CANCEL
  | 5 => .TRADE
  | 6 => .SNAPSHOT_START
  | 7 => .SNAPSHOT_END
  | _ => .INVALID

def MarketUpdateType.toByte : MarketUpdateType → ℕ
  | .INVALID => 0
  | .CLEAR => 1
  | .ADD => 2
  | .MODIFY => 3
  | .CANCEL => 4
  | .TRADE => 5
  | .SNAPSHOT_START => 6
  | .SNAPSHOT_END => 7

theorem MarketUpdateType.ofByte_toByte (t : MarketUpdateType) :
    t.toByte < 256 ∧ MarketUpdateType.ofByte t.toByte = t := by
  cases t <;> exact ⟨by decide, rfl⟩

/-- The `int64_t` with these bits. -/
def priceOfWord (word : ℕ) : ℤ := if word < 2 ^ 63 then word else word - 2 ^ 64

def priceToWord (price : ℤ) : ℕ := (price % 2 ^ 64).toNat

def PriceOnWire (price : ℤ) : Prop := -2 ^ 63 ≤ price ∧ price < 2 ^ 63

theorem priceOnWire_ofWord {word : ℕ} (h : word < 2 ^ 64) : PriceOnWire (priceOfWord word) := by
  unfold PriceOnWire priceOfWord
  split <;> omega

theorem priceOfWord_toWord {price : ℤ} (h : PriceOnWire price) :
    priceToWord price < 2 ^ 64 ∧ priceOfWord (priceToWord price) = price := by
  obtain ⟨hlower, hupper⟩ := h
  have hword : ((priceToWord price : ℕ) : ℤ) = price % 2 ^ 64 := by
    unfold priceToWord
    omega
  unfold priceOfWord
  constructor
  · omega
  · split <;> omega

/-! ## Requests -/

/-- `sizeof(OMClientRequest)`. -/
def OMClientRequest.size : ℕ := 38

/-- The fields of `OMClientRequest`, in the order of its declaration. -/
def OMClientRequest.ofBytes (bytes : List UInt8) : OMClientRequest :=
  let seq_num := readInt 8 bytes
  let type := readInt 1 seq_num.2
  let client_id := readInt 4 type.2
  let ticker_id := readInt 4 client_id.2
  let order_id := readInt 8 ticker_id.2
  let side := readInt 1 order_id.2
  let price := readInt 8 side.2
  let qty := readInt 4 price.2
  { seq_num_ := seq_num.1
    me_client_request_ :=
      { type_ := .ofByte type.1, client_id_ := client_id.1, ticker_id_ := ticker_id.1,
        order_id_ := order_id.1, side_ := .ofByte side.1, price_ := priceOfWord price.1,
        qty_ := qty.1 } }

/-- The fields fit their types. -/
structure MEClientRequest.OnWire (r : MEClientRequest) : Prop where
  client_id : r.client_id_ < 2 ^ 32
  ticker_id : r.ticker_id_ < 2 ^ 32
  order_id : r.order_id_ < 2 ^ 64
  side : r.side_.OnWire
  price : PriceOnWire r.price_
  qty : r.qty_ < 2 ^ 32

/-- The bytes of an `MEClientRequest`. -/
def MEClientRequest.toBytes (r : MEClientRequest) : List UInt8 :=
  Lib.Wire.toBytes 1 r.type_.toByte ++ (Lib.Wire.toBytes 4 r.client_id_ ++
    (Lib.Wire.toBytes 4 r.ticker_id_ ++ (Lib.Wire.toBytes 8 r.order_id_ ++
      (Lib.Wire.toBytes 1 r.side_.toByte ++ (Lib.Wire.toBytes 8 (priceToWord r.price_) ++
        Lib.Wire.toBytes 4 r.qty_)))))

/-- The bytes of an `OMClientRequest`: those of two messages sent one after the other. -/
def OMClientRequest.toBytes (r : OMClientRequest) : List UInt8 :=
  Lib.Wire.toBytes 8 r.seq_num_ ++ r.me_client_request_.toBytes

theorem OMClientRequest.length_toBytes (r : OMClientRequest) :
    r.toBytes.length = OMClientRequest.size := by
  simp [OMClientRequest.toBytes, MEClientRequest.toBytes, OMClientRequest.size]

/-- The last field of a record. -/
theorem readInt_toBytes_last {w n : ℕ} (hn : n < 256 ^ w) :
    readInt w (Lib.Wire.toBytes w n) = (n, []) := by
  rw [← List.append_nil (Lib.Wire.toBytes w n)]
  exact Lib.Wire.readInt_toBytes hn []

/-- **The order server reads what a gateway wrote.** -/
theorem OMClientRequest.ofBytes_toBytes {r : OMClientRequest} (hseq : r.seq_num_ < 2 ^ 64)
    (htype : r.me_client_request_.type_.OnWire) (h : r.me_client_request_.OnWire) :
    OMClientRequest.ofBytes r.toBytes = r := by
  obtain ⟨hprice, hprice'⟩ := priceOfWord_toWord h.price
  unfold OMClientRequest.ofBytes OMClientRequest.toBytes MEClientRequest.toBytes
  simp only [Lib.Wire.readInt_toBytes (w := 8) hseq, Lib.Wire.readInt_toBytes (w := 1) htype.1,
    Lib.Wire.readInt_toBytes (w := 4) h.client_id, Lib.Wire.readInt_toBytes (w := 4) h.ticker_id,
    Lib.Wire.readInt_toBytes (w := 8) h.order_id, Lib.Wire.readInt_toBytes (w := 1) h.side.1,
    Lib.Wire.readInt_toBytes (w := 8) hprice, readInt_toBytes_last (w := 4) h.qty, htype.2,
    h.side.2, hprice']

/-- Whatever the bytes are, the fields fit their types. -/
theorem OMClientRequest.onWire_ofBytes (bytes : List UInt8) :
    (OMClientRequest.ofBytes bytes).me_client_request_.OnWire where
  client_id := Lib.Wire.readInt_lt 4 _
  ticker_id := Lib.Wire.readInt_lt 4 _
  order_id := Lib.Wire.readInt_lt 8 _
  side := Side.onWire_ofByte (Lib.Wire.readInt_lt 1 _)
  price := priceOnWire_ofWord (Lib.Wire.readInt_lt 8 _)
  qty := Lib.Wire.readInt_lt 4 _

/-! ## Responses -/

/-- `sizeof(OMClientResponse)`. -/
def OMClientResponse.size : ℕ := 50

/-- The bytes of an `MEClientResponse`. -/
def MEClientResponse.toBytes (r : MEClientResponse) : List UInt8 :=
  Lib.Wire.toBytes 1 r.type_.toByte ++ (Lib.Wire.toBytes 4 r.client_id_ ++
    (Lib.Wire.toBytes 4 r.ticker_id_ ++ (Lib.Wire.toBytes 8 r.client_order_id_ ++
      (Lib.Wire.toBytes 8 r.market_order_id_ ++ (Lib.Wire.toBytes 1 r.side_.toByte ++
        (Lib.Wire.toBytes 8 (priceToWord r.price_) ++ (Lib.Wire.toBytes 4 r.exec_qty_ ++
          Lib.Wire.toBytes 4 r.leaves_qty_)))))))

/-- The bytes of an `OMClientResponse`: those of two messages sent one after the other. -/
def OMClientResponse.toBytes (r : OMClientResponse) : List UInt8 :=
  Lib.Wire.toBytes 8 r.seq_num_ ++ r.me_client_response_.toBytes

/-- The fields of `OMClientResponse`, in the order of its declaration. -/
def OMClientResponse.ofBytes (bytes : List UInt8) : OMClientResponse :=
  let seq_num := readInt 8 bytes
  let type := readInt 1 seq_num.2
  let client_id := readInt 4 type.2
  let ticker_id := readInt 4 client_id.2
  let client_order_id := readInt 8 ticker_id.2
  let market_order_id := readInt 8 client_order_id.2
  let side := readInt 1 market_order_id.2
  let price := readInt 8 side.2
  let exec_qty := readInt 4 price.2
  let leaves_qty := readInt 4 exec_qty.2
  { seq_num_ := seq_num.1
    me_client_response_ :=
      { type_ := .ofByte type.1, client_id_ := client_id.1, ticker_id_ := ticker_id.1,
        client_order_id_ := client_order_id.1, market_order_id_ := market_order_id.1,
        side_ := .ofByte side.1, price_ := priceOfWord price.1, exec_qty_ := exec_qty.1,
        leaves_qty_ := leaves_qty.1 } }

/-- The fields fit their types. -/
structure MEClientResponse.OnWire (r : MEClientResponse) : Prop where
  client_id : r.client_id_ < 2 ^ 32
  ticker_id : r.ticker_id_ < 2 ^ 32
  client_order_id : r.client_order_id_ < 2 ^ 64
  market_order_id : r.market_order_id_ < 2 ^ 64
  side : r.side_.OnWire
  price : PriceOnWire r.price_
  exec_qty : r.exec_qty_ < 2 ^ 32
  leaves_qty : r.leaves_qty_ < 2 ^ 32

theorem OMClientResponse.length_toBytes (r : OMClientResponse) :
    r.toBytes.length = OMClientResponse.size := by
  simp [OMClientResponse.toBytes, MEClientResponse.toBytes, OMClientResponse.size]

/-- **The gateway reads what the server wrote.** -/
theorem OMClientResponse.ofBytes_toBytes {r : OMClientResponse} (hseq : r.seq_num_ < 2 ^ 64)
    (h : r.me_client_response_.OnWire) : OMClientResponse.ofBytes r.toBytes = r := by
  obtain ⟨htype, htype'⟩ := r.me_client_response_.type_.ofByte_toByte
  obtain ⟨hprice, hprice'⟩ := priceOfWord_toWord h.price
  have hlast : readInt 4 (Lib.Wire.toBytes 4 r.me_client_response_.leaves_qty_) =
      (r.me_client_response_.leaves_qty_, []) := by
    rw [← List.append_nil (Lib.Wire.toBytes 4 _)]
    exact Lib.Wire.readInt_toBytes (w := 4) h.leaves_qty []
  unfold OMClientResponse.ofBytes OMClientResponse.toBytes MEClientResponse.toBytes
  -- every field is read off the bytes it was written to
  simp only [Lib.Wire.readInt_toBytes (w := 8) hseq, Lib.Wire.readInt_toBytes (w := 1) htype,
    Lib.Wire.readInt_toBytes (w := 4) h.client_id, Lib.Wire.readInt_toBytes (w := 4) h.ticker_id,
    Lib.Wire.readInt_toBytes (w := 8) h.client_order_id,
    Lib.Wire.readInt_toBytes (w := 8) h.market_order_id,
    Lib.Wire.readInt_toBytes (w := 1) h.side.1, Lib.Wire.readInt_toBytes (w := 8) hprice,
    Lib.Wire.readInt_toBytes (w := 4) h.exec_qty, hlast, htype', h.side.2, hprice']

/-! ## Market updates -/

/-- `sizeof(MDPMarketUpdate)`. -/
def MDPMarketUpdate.size : ℕ := 42

/-- The bytes of an `MEMarketUpdate`. -/
def MEMarketUpdate.toBytes (u : MEMarketUpdate) : List UInt8 :=
  Lib.Wire.toBytes 1 u.type_.toByte ++ (Lib.Wire.toBytes 8 u.order_id_ ++
    (Lib.Wire.toBytes 4 u.ticker_id_ ++ (Lib.Wire.toBytes 1 u.side_.toByte ++
      (Lib.Wire.toBytes 8 (priceToWord u.price_) ++ (Lib.Wire.toBytes 4 u.qty_ ++
        Lib.Wire.toBytes 8 u.priority_)))))

/-- The bytes of an `MDPMarketUpdate`, sent at once or as two messages. -/
def MDPMarketUpdate.toBytes (m : MDPMarketUpdate) : List UInt8 :=
  Lib.Wire.toBytes 8 m.seq_num_ ++ m.me_market_update_.toBytes

/-- The fields of `MDPMarketUpdate`, in the order of its declaration. -/
def MDPMarketUpdate.ofBytes (bytes : List UInt8) : MDPMarketUpdate :=
  let seq_num := readInt 8 bytes
  let type := readInt 1 seq_num.2
  let order_id := readInt 8 type.2
  let ticker_id := readInt 4 order_id.2
  let side := readInt 1 ticker_id.2
  let price := readInt 8 side.2
  let qty := readInt 4 price.2
  let priority := readInt 8 qty.2
  { seq_num_ := seq_num.1
    me_market_update_ :=
      { type_ := .ofByte type.1, order_id_ := order_id.1, ticker_id_ := ticker_id.1,
        side_ := .ofByte side.1, price_ := priceOfWord price.1, qty_ := qty.1,
        priority_ := priority.1 } }

/-- The fields fit their types. -/
structure MEMarketUpdate.OnWire (u : MEMarketUpdate) : Prop where
  order_id : u.order_id_ < 2 ^ 64
  ticker_id : u.ticker_id_ < 2 ^ 32
  side : u.side_.OnWire
  price : PriceOnWire u.price_
  qty : u.qty_ < 2 ^ 32
  priority : u.priority_ < 2 ^ 64

@[simp] theorem MEMarketUpdate.length_toBytes (u : MEMarketUpdate) : u.toBytes.length = 34 := by
  simp [MEMarketUpdate.toBytes]

theorem MDPMarketUpdate.length_toBytes (m : MDPMarketUpdate) :
    m.toBytes.length = MDPMarketUpdate.size := by
  simp [MDPMarketUpdate.toBytes, MDPMarketUpdate.size]

/-- **The consumer reads what was published.** -/
theorem MDPMarketUpdate.ofBytes_toBytes {m : MDPMarketUpdate} (hseq : m.seq_num_ < 2 ^ 64)
    (h : m.me_market_update_.OnWire) : MDPMarketUpdate.ofBytes m.toBytes = m := by
  obtain ⟨htype, htype'⟩ := m.me_market_update_.type_.ofByte_toByte
  obtain ⟨hprice, hprice'⟩ := priceOfWord_toWord h.price
  unfold MDPMarketUpdate.ofBytes MDPMarketUpdate.toBytes MEMarketUpdate.toBytes
  simp only [Lib.Wire.readInt_toBytes (w := 8) hseq, Lib.Wire.readInt_toBytes (w := 1) htype,
    Lib.Wire.readInt_toBytes (w := 8) h.order_id, Lib.Wire.readInt_toBytes (w := 4) h.ticker_id,
    Lib.Wire.readInt_toBytes (w := 1) h.side.1, Lib.Wire.readInt_toBytes (w := 8) hprice,
    Lib.Wire.readInt_toBytes (w := 4) h.qty, readInt_toBytes_last (w := 8) h.priority, htype',
    h.side.2, hprice']

end TradingEcosystem
