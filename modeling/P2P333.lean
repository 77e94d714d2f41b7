import P2P333.Transfer333.Replica
import P2P333.Transfer333.Codec.ReadBack
import P2P333.Transfer333.Codec.FileJournal
import P2P333.Transfer333.Compaction
import P2P333.Transfer333.Handover
import P2P333.Transfer333.FailStop
import P2P333.Slotseal333.Agreement
import P2P333.Substrate.Wal.Damage
import P2P333.Substrate.DurableBilling
import P2P333.Transfer333.Daemon
import P2P333.Transfer333.Tcp
import P2P333.Transfer333.Dissemination
import P2P333.ComputeExchange333.Caps
import P2P333.ComputeExchange333.Credit
import P2P333.ComputeExchange333.Retries
import P2P333.ComputeExchange333.Refinement
import P2P333.Platform333.Bft.Execution
import P2P333.Consensus333.Finality
import P2P333.Token333.Supply
import P2P333.Gossip333.Delivery
import P2P333.Orchestration333.Stranded
import P2P333.Signaling333.Mesh
import P2P333.Platform333.Crdt.Worlds
import P2P333.Platform333.Sync
import P2P333.Wire333.Frame
import P2P333.Platform333.Apps.Rollback
import P2P333.Platform333.Crdt.ArrayWorlds
import P2P333.Iam333.Replay
import P2P333.Membership333.Symmetry
import P2P333.Voxel333.Settle
import P2P333.Platform333.Compute.Backlog
import P2P333.Platform333.Compute.Completion
import P2P333.Token333.Emission
import P2P333.Crdt333.Siblings
import P2P333.Crdt333.Buffer
import P2P333.Orchestration333.Complete
import P2P333.Platform333.Cap
import P2P333.Transfer333.Attestations
import P2P333.Transfer333.Collector
import P2P333.Platform333.Crdt.Collection
import P2P333.Platform333.Crdt.Edits
import P2P333.Platform333.Netcode.TwoLayer
import P2P333.Iam333.Revocation
import P2P333.Platform333.Apps.Battle
import P2P333.Platform333.Apps.Canonical
import P2P333.Platform333.Netcode.Checkpoints
import P2P333.Release333.Provenance
import P2P333.SignedRouting333.Table
import P2P333.Platform333.Kernel.Fates
import P2P333.Transfer333.TcpPeers
import P2P333.Transfer333.Reconfig
import P2P333.TransferWasm333.Verdict
import P2P333.Platform333.Determinism.Rng
import P2P333.Crdt333.Delta
import P2P333.Platform333.PlatformCore
import P2P333.StorageAdvanced333.Replication
import P2P333.Substrate.Convergence
import P2P333.Substrate.Replay
import P2P333.Substrate.Metering
import P2P333.Hypervisor333.Instances
import P2P333.SignedState333.SignedMap
