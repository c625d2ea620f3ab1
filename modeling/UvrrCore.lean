import UvrrCore.AppendOnly
import UvrrCore.Deferred.Simulation
import UvrrCore.FusedJump
import UvrrCore.Intersection
import UvrrCore.Lifecycle
import UvrrCore.LogView
import UvrrCore.OneEra.Run
import UvrrCore.Promise.Run
import UvrrCore.Released
import UvrrCore.Slab
import UvrrCore.Wire
import UvrrCore.Zig.Membership
import UvrrCore.Grouping
import UvrrCore.Zig.Superblock
import UvrrCore.Zig.MarkerStore
import UvrrCore.Zig.Twin
import UvrrCore.Adoption
import UvrrCore.Envelope
import UvrrCore.Rotation
import UvrrCore.InStep
import UvrrCore.Chunks
import UvrrCore.Piggyback
import UvrrCore.Acknowledged
import UvrrCore.Refusals
import UvrrCore.Transferred
import UvrrCore.Lawful
import UvrrCore.Gate
import UvrrCore.Forced
import UvrrCore.SolvedPath
import UvrrCore.Fetching
import UvrrCore.Fitting
import UvrrCore.Redrive
import UvrrCore.Answers
import UvrrCore.EraHistory
import UvrrCore.Locks
import UvrrCore.Maelstrom.Attribution
import UvrrCore.Pivots
import UvrrCore.Retention
import UvrrCore.CleanBoot
import UvrrCore.Jsonl
import UvrrCore.Truncation
import UvrrCore.Maelstrom.Answered
import UvrrCore.Demo.State
import UvrrCore.Demo.Evidence
import UvrrCore.Maelstrom.Kv
import UvrrCore.Stamping
import UvrrCore.Maelstrom.Latch
import UvrrCore.Observation
import UvrrCore.Maelstrom.StateFileLife
import UvrrCore.Demo.Stop
import UvrrCore.Demo.Transport
import UvrrCore.OneEra.History
