import TradingEcosystem.Lib.Ring
import TradingEcosystem.Lib.SortedInsert
import TradingEcosystem.Lib.SortedMap
import TradingEcosystem.Common.Types
import TradingEcosystem.Common.MemPool
import TradingEcosystem.Common.PoolRuns
import TradingEcosystem.Book.LimitBook
import TradingEcosystem.Book.Levels
import TradingEcosystem.Book.Frames
import TradingEcosystem.Book.Traced
import TradingEcosystem.Book.LevelCount
import TradingEcosystem.Book.LevelList
import TradingEcosystem.Book.Rep
import TradingEcosystem.Book.Operations
import TradingEcosystem.Book.View
import TradingEcosystem.Book.Dump
import TradingEcosystem.Exchange.MEOrderBook
import TradingEcosystem.Exchange.Capacity
import TradingEcosystem.Exchange.OrderIds
import TradingEcosystem.Exchange.PriorityBook
import TradingEcosystem.Exchange.Refinement
import TradingEcosystem.Exchange.Runs
import TradingEcosystem.Exchange.LifeCycle
import TradingEcosystem.Exchange.MatchingEngine
import TradingEcosystem.Exchange.SnapshotSynthesizer
import TradingEcosystem.Trading.MarketOrderBook
import TradingEcosystem.Trading.Clear
import TradingEcosystem.Trading.Quotes
import TradingEcosystem.Trading.Reset
import TradingEcosystem.Trading.BestQuotes
import TradingEcosystem.System.Published
import TradingEcosystem.System.Mirror
import TradingEcosystem.System.Printout
import TradingEcosystem.System.Snapshot
import TradingEcosystem.Lib.Runs
import TradingEcosystem.Lib.RingLog
import TradingEcosystem.Common.LFQueue
import TradingEcosystem.Exchange.MarketDataPublisher
import TradingEcosystem.Common.TcpSocket
import TradingEcosystem.Lib.Wire
import TradingEcosystem.Common.WireFormat
import TradingEcosystem.Exchange.OrderServer
import TradingEcosystem.Exchange.Sessions
import TradingEcosystem.Exchange.Framing
import TradingEcosystem.Lib.SortTies
import TradingEcosystem.Exchange.FifoOrder
import TradingEcosystem.Exchange.Burst
import TradingEcosystem.Exchange.Lookup
import TradingEcosystem.Exchange.Survival
import TradingEcosystem.Exchange.Addressed
import TradingEcosystem.Exchange.Responses
import TradingEcosystem.Trading.PositionKeeper
import TradingEcosystem.Trading.Overflow
import TradingEcosystem.Trading.CashFlow
import TradingEcosystem.Trading.MarketDataConsumer
import TradingEcosystem.Trading.SnapshotQueue
import TradingEcosystem.Trading.StrategyOrders
import TradingEcosystem.Trading.OrderGateway
import TradingEcosystem.Trading.OrderManager
import TradingEcosystem.Trading.TradeEngine
import TradingEcosystem.Trading.CommandLine
import TradingEcosystem.Trading.FairPrice
import TradingEcosystem.Lib.Unwinding
import TradingEcosystem.Trading.Isolation
import TradingEcosystem.System.Recovery
import TradingEcosystem.System.Venue
import TradingEcosystem.System.Slots
import TradingEcosystem.System.PositionLimit
import TradingEcosystem.System.Downstream
import TradingEcosystem.System.Outbound
import TradingEcosystem.System.Relay
import TradingEcosystem.System.Line
import TradingEcosystem.System.Member
import TradingEcosystem.System.AtMostOne
import TradingEcosystem.System.NotStuck
import TradingEcosystem.System.Converge
import TradingEcosystem.System.Subscriber
import TradingEcosystem.System.Multicast
import TradingEcosystem.Common.McastSocket
import TradingEcosystem.Exchange.Datagrams
import TradingEcosystem.Exchange.SnapshotFeed
import TradingEcosystem.Trading.GatewayThread
import TradingEcosystem.System.Requests
import TradingEcosystem.System.RoundTrip
import TradingEcosystem.System.Market
import TradingEcosystem.System.ZeroSum
import TradingEcosystem.System.RandomSession
import TradingEcosystem.Common.Logging
import TradingEcosystem.Exchange.OrderServerThread
import TradingEcosystem.Exchange.Isolation
import TradingEcosystem.Exchange.Audit
