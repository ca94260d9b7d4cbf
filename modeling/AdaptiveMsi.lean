import AdaptiveMsi.Common.Machine
import AdaptiveMsi.Common.BitSet
import AdaptiveMsi.Common.Digits
import AdaptiveMsi.Common.Ledger
import AdaptiveMsi.Common.Recency
import AdaptiveMsi.Common.Permute
import AdaptiveMsi.Common.Shards
import AdaptiveMsi.Common.Scanf
import AdaptiveMsi.Model.Lines
import AdaptiveMsi.Model.Profile
import AdaptiveMsi.Model.Coherence
import AdaptiveMsi.Model.CacheSet
import AdaptiveMsi.Model.Controller
import AdaptiveMsi.Model.Run
import AdaptiveMsi.Model.Callbacks
import AdaptiveMsi.Model.Instrument
import AdaptiveMsi.Model.ConfigFile
import AdaptiveMsi.Model.Report
import AdaptiveMsi.Protocol.Entry
import AdaptiveMsi.Protocol.Events
import AdaptiveMsi.Protocol.WriteBacks
import AdaptiveMsi.Protocol.Values
import AdaptiveMsi.Protocol.Rename
import AdaptiveMsi.Protocol.Prefetch
import AdaptiveMsi.Directory.Line
import AdaptiveMsi.Directory.Handlers
import AdaptiveMsi.Cache.Lookup
import AdaptiveMsi.Cache.Geometry
import AdaptiveMsi.Cache.Contents
import AdaptiveMsi.Cache.Represent
import AdaptiveMsi.Cache.Spare
import AdaptiveMsi.Cache.Stock
import AdaptiveMsi.Controller.Push
import AdaptiveMsi.Controller.Store
import AdaptiveMsi.Controller.Step
import AdaptiveMsi.Controller.Lockstep
import AdaptiveMsi.Controller.Requests
import AdaptiveMsi.Controller.Reached
import AdaptiveMsi.Controller.Ledger
import AdaptiveMsi.Controller.Books
import AdaptiveMsi.Controller.Fills
import AdaptiveMsi.Controller.Parts
import AdaptiveMsi.Controller.Overlay
import AdaptiveMsi.Controller.Mirror
import AdaptiveMsi.Properties.Directory
import AdaptiveMsi.Properties.Freshness
import AdaptiveMsi.Properties.FalseSharing
import AdaptiveMsi.Properties.Consumer
import AdaptiveMsi.Properties.WriteBack
import AdaptiveMsi.Properties.Residency
import AdaptiveMsi.Properties.Overflow
import AdaptiveMsi.Properties.Degenerate
import AdaptiveMsi.Properties.Representation
import AdaptiveMsi.Properties.Counters
import AdaptiveMsi.Properties.Spare
import AdaptiveMsi.Properties.Classification
import AdaptiveMsi.Properties.Eviction
import AdaptiveMsi.Properties.Replacement
import AdaptiveMsi.Properties.Accounting
import AdaptiveMsi.Properties.Messages
import AdaptiveMsi.Properties.Commute
import AdaptiveMsi.Properties.Filling
import AdaptiveMsi.Properties.Offsets
import AdaptiveMsi.Properties.Pollution
import AdaptiveMsi.Properties.Splitting
import AdaptiveMsi.Properties.Saturating
import AdaptiveMsi.Properties.Reads
import AdaptiveMsi.Properties.Weakening
import AdaptiveMsi.Properties.Threads
import AdaptiveMsi.Properties.Sharding
import AdaptiveMsi.Properties.Debts
import AdaptiveMsi.Properties.History
import AdaptiveMsi.Properties.Memory
import AdaptiveMsi.Properties.Assertions
import AdaptiveMsi.Properties.Report
import AdaptiveMsi.Properties.Misses
import AdaptiveMsi.Properties.Pushes
import AdaptiveMsi.Properties.Isolation
import AdaptiveMsi.Properties.Instrumentation
import AdaptiveMsi.Properties.ConfigFile
import AdaptiveMsi.Properties.Transparent
import AdaptiveMsi.Properties.Producer
import AdaptiveMsi.Properties.Prefetch
import AdaptiveMsi.Properties.Renaming
import AdaptiveMsi.Properties.StartOrder
import AdaptiveMsi.Properties.Teams
import AdaptiveMsi.Properties.Words
