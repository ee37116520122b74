import BtclibNode.Chainstate.UtxoRun
import BtclibNode.Lib.Dict
import BtclibNode.Lib.HeightTree
import BtclibNode.Lib.Worklist
import BtclibNode.Chainstate.BlockIndex
import BtclibNode.Chainstate.HeaderTree
import BtclibNode.Chainstate.HeaderIndex
import BtclibNode.Chainstate.HeaderStatus
import BtclibNode.Chainstate.NewHeaders
import BtclibNode.Chainstate.IndexInvariant
import BtclibNode.Chainstate.Candidates
import BtclibNode.Chainstate.IndexCalls
import BtclibNode.Chainstate.IndexLoad
import BtclibNode.Chainstate.IndexRun
import BtclibNode.Chainstate.IndexStore
import BtclibNode.Chainstate.InvalidateCrash
import BtclibNode.Chainstate.CommonAncestor
import BtclibNode.Chainstate.FilterIndex
import BtclibNode.Chainstate.FilterChain
import BtclibNode.Node.Validate
import BtclibNode.Node.Node
import BtclibNode.Node.Forks
import BtclibNode.Node.Steps
import BtclibNode.Node.Commit
import BtclibNode.Node.UpdateChain
import BtclibNode.Node.NodeRun
import BtclibNode.Node.AllOrNothing
import BtclibNode.Node.Filters
import BtclibNode.Node.Start
import BtclibNode.Node.FilterProgress
import BtclibNode.Relay.TxRequest
import BtclibNode.Relay.TxRequestTable
import BtclibNode.Relay.TxRequestSelection
import BtclibNode.Relay.TxRequestTime
import BtclibNode.Relay.TxRequestRun
import BtclibNode.Relay.OrphanageRun
import BtclibNode.Rpc.Sections
import BtclibNode.Mempool.PersistRoundTrip
import BtclibNode.P2p.TransportDelivery
import BtclibNode.PeerDb.Runs
import BtclibNode.Cluster.Diagram
import BtclibNode.Node.TryConnect
import BtclibNode.Chainstate.UtxoOverwrite
import BtclibNode.Chainstate.StagedStatus
import BtclibNode.Rpc.Whitelist
import BtclibNode.Download.InFlightRun
import BtclibNode.Rpc.SnapshotDump
import BtclibNode.Chainstate.Ancestors
import BtclibNode.Download.PlainWalk
import BtclibNode.P2p.GetdataRun
import BtclibNode.BlockDb.Handles
import BtclibNode.Chainstate.ArrivalRun
import BtclibNode.Relay.OrphanageIndexes
import BtclibNode.P2p.RawBlockWalk
import BtclibNode.P2p.Addrv2Count
import BtclibNode.P2p.EvictionChoice
import BtclibNode.Bloom.Positions
import BtclibNode.Bloom.Window
import BtclibNode.Versionbits.UnknownActivations
import BtclibNode.Versionbits.History
import BtclibNode.Fees.EstimatesRun
import BtclibNode.Rpc.FixedPointExact
import BtclibNode.Rpc.NamedArguments
import BtclibNode.Cluster.SpanningForestRun
import BtclibNode.Download.Trickle
import BtclibNode.Signet.SignatureCommits
import BtclibNode.P2p.OutboundSlots
import BtclibNode.Settings.Survives
import BtclibNode.Lib.ExceptBind
import BtclibNode.Cli.Quoted
import BtclibNode.Cli.SameFiles
import BtclibNode.Cli.Masked
import BtclibNode.Node.Activate
import BtclibNode.Mempool.Mempool
import BtclibNode.Mempool.Methods
import BtclibNode.Mempool.Entries
import BtclibNode.Mempool.Staged
import BtclibNode.Mempool.Walks
import BtclibNode.Mempool.Events
import BtclibNode.Mempool.Calls
import BtclibNode.Mempool.Removals
import BtclibNode.Mempool.Reorg
import BtclibNode.Mempool.Run
