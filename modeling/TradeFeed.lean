import TradeFeed.Lib.LinkedList
import TradeFeed.Lib.PriceTime
import TradeFeed.Lib.Relabelling
import TradeFeed.Lib.Machine
import TradeFeed.Lib.Amortized
import TradeFeed.Lib.LeadsTo
import TradeFeed.Lib.BestFirst
import TradeFeed.Lib.Before
import TradeFeed.Lib.BoundedFifo
import TradeFeed.Lib.Bytes
import TradeFeed.Lib.Json
import TradeFeed.Lib.PlainJson
import TradeFeed.Lib.Base64
import TradeFeed.Lib.HttpHead
import TradeFeed.Lib.Calendar
import TradeFeed.Lib.History
import TradeFeed.Lib.Ranking
import TradeFeed.Core.Types
import TradeFeed.Core.PriceBitset
import TradeFeed.Core.PriceLevel
import TradeFeed.Core.OrderBook
import TradeFeed.Core.Simulation
import TradeFeed.Core.Invariant
import TradeFeed.Core.Matching
import TradeFeed.Core.Operations
import TradeFeed.Core.Runs
import TradeFeed.Core.NaiveBook
import TradeFeed.Core.Impact
import TradeFeed.Core.Modify
import TradeFeed.Core.MarketLimit
import TradeFeed.Core.Splitting
import TradeFeed.Core.Relabelling
import TradeFeed.Core.Priority
import TradeFeed.Core.Cost
import TradeFeed.Core.Loading
import TradeFeed.Core.Undo
import TradeFeed.Core.Mirror
import TradeFeed.Core.Accounts
import TradeFeed.Core.Timestamps
import TradeFeed.Engine.MatchingEngine
import TradeFeed.Engine.Timestamps
import TradeFeed.Engine.Steps
import TradeFeed.Engine.ReportCount
import TradeFeed.Engine.Protocol
import TradeFeed.Engine.Ids
import TradeFeed.Engine.LevelTotals
import TradeFeed.Engine.Lookup
import TradeFeed.Engine.NaiveEngine
import TradeFeed.Engine.Shadow
import TradeFeed.Codec.WireMessage
import TradeFeed.Engine.RawFrames
import TradeFeed.Transport.SpscRing
import TradeFeed.Transport.RingInvariant
import TradeFeed.Transport.RingFifo
import TradeFeed.Transport.PushEach
import TradeFeed.Transport.Threads
import TradeFeed.Transport.PairedReports
import TradeFeed.Transport.Pipeline
import TradeFeed.Transport.Gateway
import TradeFeed.Transport.Inbound
import TradeFeed.Transport.Connections
import TradeFeed.Transport.Outbound
import TradeFeed.Transport.Served
import TradeFeed.Transport.EventLoop
import TradeFeed.Transport.Exchange
import TradeFeed.Transport.Answered
import TradeFeed.Feed.AlpacaWs
import TradeFeed.Feed.TakeFrame
import TradeFeed.Feed.SendFrame
import TradeFeed.Feed.ServerDecoder
import TradeFeed.Feed.FrameLength
import TradeFeed.Feed.Receive
import TradeFeed.Feed.Session
import TradeFeed.Feed.Upgrade
import TradeFeed.Feed.Requests
import TradeFeed.Feed.Fragments
import TradeFeed.Feed.Normalizer
import TradeFeed.Feed.Splitter
import TradeFeed.Feed.Cents
import TradeFeed.Feed.Rfc3339
import TradeFeed.Feed.CivilDays
import TradeFeed.Feed.Fields
import TradeFeed.Feed.Messages
import TradeFeed.Feed.FeedMain
import TradeFeed.Feed.RecordLimit
import TradeFeed.Feed.OrderSizes
import TradeFeed.System.Replay
import TradeFeed.System.NaiveExchange
import TradeFeed.System.LiveFeed
import TradeFeed.Analytics.BookAnalytics
import TradeFeed.Analytics.Execution
import TradeFeed.Analytics.Signals
import TradeFeed.Analytics.Vpin
import TradeFeed.Analytics.Depth
