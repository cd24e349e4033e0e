import DeSearch.Bytes
import DeSearch.Json
import DeSearch.JsonProof
import DeSearch.JsonText
import DeSearch.Lib.Counting
import DeSearch.Lib.Multimap
import DeSearch.Lib.Delimited
import DeSearch.Lib.Run
import DeSearch.Lib.Varint
import DeSearch.Lib.Blocks
import DeSearch.Lib.Walk
import DeSearch.Codec
import DeSearch.Witness
import DeSearch.WitnessProof
import DeSearch.Kanban
import DeSearch.KanbanProof
import DeSearch.Lib.Runs
import DeSearch.Tokens
import DeSearch.Enclave
import DeSearch.IndexProof
import DeSearch.JsonSize
import DeSearch.EnclaveProof
import DeSearch.Executor
import DeSearch.Manager
import DeSearch.System
import DeSearch.CrawlSize
import DeSearch.Provenance
import DeSearch.Progress
import DeSearch.Epochs
import DeSearch.Cursor
import DeSearch.Ledger
import DeSearch.BlockRange
import DeSearch.Agreement
import DeSearch.Commitment
import DeSearch.Crash
import DeSearch.Auditor
import DeSearch.AuditorProof
import DeSearch.Audit
import DeSearch.Posts
import DeSearch.Blob
import DeSearch.Querier
import DeSearch.Vlb
import DeSearch.Oram
import DeSearch.Client
import DeSearch.QuerierProof
import DeSearch.OramProof
import DeSearch.Chain
import DeSearch.Capacity
import DeSearch.ClientProof
import DeSearch.Solo
import DeSearch.Records
import DeSearch.Completeness
import DeSearch.Response
import DeSearch.Lengths
import DeSearch.LiveNodes
import DeSearch.Malleable
import DeSearch.Managers
import DeSearch.Paging
import DeSearch.Registrations
import DeSearch.Partitions
import DeSearch.Publish
import DeSearch.Replica
import DeSearch.Shards
import DeSearch.Acyclic
import DeSearch.Lib.Buckets
import DeSearch.Session
import DeSearch.Lib.Ties
import DeSearch.Matching
import DeSearch.Miso
import DeSearch.RootDigest
import DeSearch.QueryBounds
import DeSearch.Selection
import DeSearch.Traversal
import DeSearch.FastPath
import DeSearch.Findable
import DeSearch.Url
import DeSearch.VlbCopy
import DeSearch.Lib.HeapPath
import DeSearch.CircuitOram
import DeSearch.Lib.Slots
import DeSearch.CircuitEvict
import DeSearch.CircuitOramProof
import DeSearch.Lib.Reveal
import DeSearch.CircuitView
import DeSearch.Lib.Calls
import DeSearch.CircuitQuerier
import DeSearch.QueryView
import DeSearch.Soundness
import DeSearch.Lib.Memory
import DeSearch.Lib.X86
import DeSearch.Lib.ConstantTime
import DeSearch.ObliviousFunctions
import DeSearch.Lib.Frames
import DeSearch.ObliviousMoves
