import Ghexbench.Cartex.Accesses
import Ghexbench.Cartex.CellEncoding
import Ghexbench.Cartex.Check
import Ghexbench.Cartex.CommandLine
import Ghexbench.Cartex.Decomposition
import Ghexbench.Cartex.DomainGrid
import Ghexbench.Cartex.Exchange
import Ghexbench.Cartex.ExchangeMatching
import Ghexbench.Cartex.ExchangeOrder
import Ghexbench.Cartex.Fields
import Ghexbench.Cartex.Halo
import Ghexbench.Cartex.HaloExchange
import Ghexbench.Cartex.HaloPhases
import Ghexbench.Cartex.HaloRounds
import Ghexbench.Cartex.HaloShapes
import Ghexbench.Cartex.KernelThreads
import Ghexbench.Cartex.Kernels
import Ghexbench.Cartex.KernelsCorrect
import Ghexbench.Cartex.LaunchParams
import Ghexbench.Cartex.Load
import Ghexbench.Cartex.Main
import Ghexbench.Cartex.MainLoop
import Ghexbench.Cartex.MemoryView
import Ghexbench.Cartex.MessageLengths
import Ghexbench.Cartex.Neighbor
import Ghexbench.Cartex.Neighborhood
import Ghexbench.Cartex.Oomph
import Ghexbench.Cartex.Pack
import Ghexbench.Cartex.Passing
import Ghexbench.Cartex.PassingEnds
import Ghexbench.Cartex.PassingHalos
import Ghexbench.Cartex.PassingRefines
import Ghexbench.Cartex.Regions
import Ghexbench.Cartex.Tags
import Ghexbench.Cartex.Tausch
import Ghexbench.Cartex.Tiling
import Ghexbench.Cartex.TimedLoop
import Ghexbench.Cartex.TimedSteps
import Ghexbench.Cartex.ZKernels
import Ghexbench.Cli.Entries
import Ghexbench.Cli.Options
import Ghexbench.Cli.OptionsCorrect
import Ghexbench.Cli.Values
import Ghexbench.Common.Arithmetic
import Ghexbench.Common.Block
import Ghexbench.Common.Copies
import Ghexbench.Common.Counting
import Ghexbench.Common.Grid
import Ghexbench.Common.Loops
import Ghexbench.Common.Matching
import Ghexbench.Common.MixedRadix
import Ghexbench.Common.Moments
import Ghexbench.Common.Numerals
import Ghexbench.Common.Ownership
import Ghexbench.Common.Pairing
import Ghexbench.Common.Partition
import Ghexbench.Common.Script
import Ghexbench.Common.ScriptOrder
import Ghexbench.Common.ScriptRuns
import Ghexbench.Common.Staged
import Ghexbench.Common.Transition
import Ghexbench.P2p.Chains
import Ghexbench.P2p.ChainsComplete
import Ghexbench.P2p.ChainsExact
import Ghexbench.P2p.ChainsInvariant
import Ghexbench.P2p.ChainsOrder
import Ghexbench.P2p.Check
import Ghexbench.P2p.Delivery
import Ghexbench.P2p.DeviceMap
import Ghexbench.P2p.Peers
import Ghexbench.P2p.Run
import Ghexbench.P2p.Workers
import Ghexbench.P2p.WorkersOrder
import Ghexbench.Stats.Accumulator
import Ghexbench.Stats.AccumulatorCorrect
import Ghexbench.Stats.Binning
import Ghexbench.Stats.Histogram
import Ghexbench.Stats.OrderStatistics
import Ghexbench.Stats.Rows
import Ghexbench.Sync.Barrier
import Ghexbench.Sync.BarrierCorrect
import Ghexbench.Sync.Bcast
import Ghexbench.Sync.BcastCorrect
import Ghexbench.Sync.RepeatFor
import Ghexbench.Sync.RepeatForAgree
import Ghexbench.Sync.RepeatForCorrect
import Ghexbench.Sync.RepeatForOrder
import Ghexbench.Sync.Team
import Ghexbench.Sync.TeamProgress
import Ghexbench.Sync.TeamRefines
import Ghexbench.Sync.TeamScripts
import Ghexbench.Sync.ThreadPool
import Ghexbench.Sync.ThreadPoolCollective
import Ghexbench.Sync.ThreadPoolCorrect
import Ghexbench.Sync.ThreadPoolInvariant
import Ghexbench.Sync.ThreadPoolOwner
import Ghexbench.Sync.ThreadPoolPhases
import Ghexbench.Sync.ThreadPoolProgram
import Ghexbench.Sync.ThreadPoolRounds
import Ghexbench.Topo.Handles
import Ghexbench.Topo.HwTopo
import Ghexbench.Topo.LevelCoords
import Ghexbench.Topo.Resources
