import OrderBookServer.HashMap
import OrderBookServer.BTreeMap
import OrderBookServer.LinkedList
import OrderBookServer.BookInvariant
import OrderBookServer.LevelCascade
import OrderBookServer.UncrossedViews
import OrderBookServer.ViewArithmetic
import OrderBookServer.RoundTrip
import OrderBookServer.Feed
import OrderBookServer.L4Delivery
import OrderBookServer.Audit
import OrderBookServer.Publication
import OrderBookServer.Interleaving
import OrderBookServer.ScopedParse
import OrderBookServer.SnapshotFile
import OrderBookServer.Scoping
import OrderBookServer.DuplicateOids
import OrderBookServer.ForeignOrders
import OrderBookServer.Sizes
import OrderBookServer.Trades
import OrderBookServer.Unsubscribing
import OrderBookServer.Accounting
import OrderBookServer.FileReads
import OrderBookServer.Panics
import OrderBookServer.ScopedLoading
import OrderBookServer.Serving
import OrderBookServer.DirtyFiles
import OrderBookServer.SlabRuns
import OrderBookServer.Settings
import OrderBookServer.Wakes
import OrderBookServer.SnapshotSchedule
import OrderBookServer.ServerStreams
import OrderBookServer.DeliveryTrace
import OrderBookServer.ClientBook
import OrderBookServer.NodeAudits
