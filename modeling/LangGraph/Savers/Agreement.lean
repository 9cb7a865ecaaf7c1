import LangGraph.Savers.Memory
import LangGraph.Savers.Sqlite

/- The two overrides of `get_delta_channel_history` against the default walk.

   `historyOverrides_eq_default_iff` states exactly on which stores they agree.
   The stores below are made by `put` and `put_writes`. In `preDeltaStore` a
   channel that held a plain list at checkpoint "1" was written once more under
   "1" before checkpoint "2" stored no value for it. In `lateTaskStore` the task
   with the greater id stored its writes first. In `raisedParentStore` a
   checkpoint was put under a parent with a greater id. -/
namespace LangGraph

section Agreement
variable {V : Type} [DecidableEq V]

/-- Both overrides return the default's seeds and writes exactly when both
    stores meet their condition. -/
theorem historyOverrides_eq_default_iff (memory : InMemorySaver V) (sqlite : SqliteSaver V)
    (target : String) (channels : List String) :
    (memory.deltaChannelHistory target channels = memory.defaultHistory target channels ∧
        sqlite.deltaChannelHistory target channels = sqlite.defaultHistory target channels) ↔
      memory.StoredForHistory target channels ∧ sqlite.StoredForHistory target channels := by
  rw [memory.deltaChannelHistory_eq_default_iff, sqlite.deltaChannelHistory_eq_default_iff]

end Agreement

def sampleMetadata : Metadata := ⟨"loop", 0, ∅⟩

/-- A checkpoint with one version for the channel "log". -/
def logCheckpoint (id : String) (version : ℕ) (values : List (String × PyVal)) : Checkpoint ℕ :=
  ⟨id, OrdDict.ofList values, OrdDict.ofList [("log", version)], ∅, none⟩

def preDeltaStore : InMemorySaver ℕ :=
  let c1 := logCheckpoint "1" 1 [("log", .list [.str "a"])]
  let s := InMemorySaver.empty.put none c1 sampleMetadata c1.channelVersions
  let s := s.putWrites "1" [("log", .list [.str "b"])] "task" ""
  let c2 := logCheckpoint "2" 2 []
  s.put (some "1") c2 sampleMetadata c2.channelVersions

def lateTaskStore : InMemorySaver ℕ :=
  let c1 := logCheckpoint "1" 1 []
  let s := InMemorySaver.empty.put none c1 sampleMetadata c1.channelVersions
  let s := s.putWrites "1" [("log", .str "late")] "task-b" ""
  let s := s.putWrites "1" [("log", .str "early")] "task-a" ""
  let c2 := logCheckpoint "2" 2 []
  s.put (some "1") c2 sampleMetadata c2.channelVersions

def raisedParentStore : SqliteSaver ℕ :=
  let s := SqliteSaver.empty.put none (logCheckpoint "9" 1 [("log", .deltaSnapshot (.list []))])
    sampleMetadata
  let s := s.putWrites "9" [("log", .str "a")] "task"
  s.put (some "9") (logCheckpoint "2" 2 []) sampleMetadata

/-- On `preDeltaStore` the override drops the write that the default returns, on
    `lateTaskStore` it returns the writes in another order, and on
    `raisedParentStore` the single pass misses the snapshot. -/
theorem historyOverrides_ne_default :
    preDeltaStore.deltaChannelHistory "2" ["log"] ≠ preDeltaStore.defaultHistory "2" ["log"] ∧
      lateTaskStore.deltaChannelHistory "2" ["log"] ≠ lateTaskStore.defaultHistory "2" ["log"] ∧
      raisedParentStore.deltaChannelHistory "2" ["log"] ≠
        raisedParentStore.defaultHistory "2" ["log"] := by
  refine ⟨?_, ?_, ?_⟩ <;> decide

end LangGraph
