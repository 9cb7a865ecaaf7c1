import LangGraph.Lib.OrdDict
import LangGraph.Lib.SortBy
import LangGraph.Lib.TextOrder
import LangGraph.Lib.JoinedText
import LangGraph.Lib.ExpiringMap
import LangGraph.Lib.Lineage
import LangGraph.Lib.KeyedFold
import LangGraph.Lib.Machine
import LangGraph.Lib.Tree
import LangGraph.Lib.Lines
import LangGraph.Lib.DepthFirst
import LangGraph.PyVal
import LangGraph.Channels
import LangGraph.Algo
import LangGraph.TriggerChannels
import LangGraph.ApplySpec
import LangGraph.TaskPreparation
import LangGraph.StateGraph
import LangGraph.TaskOrder
import LangGraph.Subgraphs
import LangGraph.Commands
import LangGraph.Savers.Base
import LangGraph.Checkpointing
import LangGraph.AsNode
import LangGraph.Scheduler
import LangGraph.LoopInvariants
import LangGraph.FastPath
import LangGraph.Triggering
import LangGraph.DiscardedTasks
import LangGraph.JoinChannels
import LangGraph.Joins
import LangGraph.Migration
import LangGraph.Lib.Indexed
import LangGraph.Messages
import LangGraph.Overwrites
import LangGraph.Savers.Memory
import LangGraph.Savers.WritesTable
import LangGraph.Savers.Sqlite
import LangGraph.Savers.Agreement
import LangGraph.Savers.Stage1
import LangGraph.Savers.Postgres
import LangGraph.Savers.PendingWrites
import LangGraph.ExitWrites
import LangGraph.LoopWrites
import LangGraph.StoredWrites
import LangGraph.Runner
import LangGraph.Recovery
import LangGraph.ErrorHandlers
import LangGraph.PendingInterrupts
import LangGraph.NullResume
import LangGraph.NewInput
import LangGraph.PutCheckpoint
import LangGraph.DeltaCounters
import LangGraph.InterruptNodes
import LangGraph.RejectedSteps
import LangGraph.StateSnapshot
import LangGraph.CalledTasks
import LangGraph.Replay
import LangGraph.Lib.Binary64
import LangGraph.Lib.Like
import LangGraph.Caches
import LangGraph.Sdk.Subscription
import LangGraph.Sdk.SharedStream
import LangGraph.Sdk.FilterSoundness
import LangGraph.Sdk.LineDecoder
import LangGraph.Sdk.SseDecoder
import LangGraph.Sdk.SseStream
import LangGraph.Sdk.MessageRouting
import LangGraph.Sdk.ScopedHandles
import LangGraph.Stream.Lifecycle
import LangGraph.Stream.SubgraphHandles
import LangGraph.Stream.Surfaces
import LangGraph.TaskResults
import LangGraph.Stores.Namespaces
import LangGraph.Lib.Ranking
import LangGraph.Lib.Marker
import LangGraph.Stores.MemorySearch
import LangGraph.Stores.VectorSearch
import LangGraph.Stores.SqliteNamespaces
import LangGraph.Updates
import LangGraph.TaskIds
import LangGraph.LocalReads
import LangGraph.Stores.Base
import LangGraph.Stores.Texts
import LangGraph.Stores.MemoryFilter
import LangGraph.Stores.SqliteFilter
import LangGraph.Stores.PostgresFilter
import LangGraph.Stores.MemoryStore
import LangGraph.Stores.Tables
import LangGraph.Stores.PutQueries
import LangGraph.Stores.SqliteStore
import LangGraph.Stores.PostgresStore
import LangGraph.Stores.Vectors
import LangGraph.Stores.MemoryVectors
import LangGraph.Stores.Search
import LangGraph.Stores.Dedupe
import LangGraph.Stores.BatchedStore
import LangGraph.Serde.JsonPlus
import LangGraph.Serde.RoundTrip
import LangGraph.Stream.MessagesHandler
import LangGraph.Stream.MessagesOnce
import LangGraph.Stream.Tee
import LangGraph.Stream.Interleave
import LangGraph.Prebuilt.ToolOutputs
import LangGraph.Prebuilt.ToolErrors
import LangGraph.Prebuilt.ToolAnswers
import LangGraph.Prebuilt.ReactSteps
import LangGraph.Prebuilt.InjectedArgs
import LangGraph.Prebuilt.AgentChat
import LangGraph.Cli.UvWorkspace
import LangGraph.Cli.UvPlan
import LangGraph.Cli.UvImage
import LangGraph.Lib.Fallible
import LangGraph.Cli.LocalDeps
import LangGraph.Cli.DepAssembly
import LangGraph.Cli.DepPlaces
import LangGraph.Cli.DepBuild
import LangGraph.ParentCommands
import LangGraph.Lib.Numerals
import LangGraph.Lib.BitFields
import LangGraph.Savers.CheckpointIds
import LangGraph.Savers.History
import LangGraph.Savers.Shallow
import LangGraph.Restarts
import LangGraph.CrashRecovery
import LangGraph.Writers
import LangGraph.Edges
