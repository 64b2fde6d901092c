import NetworkEmulator.Proofs.Geometry
import NetworkEmulator.Proofs.Ecn
import NetworkEmulator.Proofs.Wedge
import NetworkEmulator.Proofs.FinalVerdict
import NetworkEmulator.Proofs.Backends
import NetworkEmulator.Proofs.ExpirySound
import NetworkEmulator.Proofs.Occupancy
import NetworkEmulator.Proofs.Spinning
import NetworkEmulator.Proofs.Admission
import NetworkEmulator.Proofs.Barrier
import NetworkEmulator.Proofs.Reporting
import NetworkEmulator.Proofs.Replay
import NetworkEmulator.Proofs.Ticking
import NetworkEmulator.Proofs.LineOrder
import NetworkEmulator.Proofs.RoundRobin
import NetworkEmulator.Proofs.BestMetric
import NetworkEmulator.Proofs.Symbols
import NetworkEmulator.Proofs.Checksum
import NetworkEmulator.Proofs.HarqCache
import NetworkEmulator.Proofs.GuardTime
import NetworkEmulator.Proofs.Segmentation
import NetworkEmulator.Proofs.PayloadStore
import NetworkEmulator.Proofs.SortedEntries
import NetworkEmulator.Proofs.Losses
import NetworkEmulator.Proofs.Grants
import NetworkEmulator.Proofs.StepMetrics
import NetworkEmulator.Proofs.HeadOfLine
import NetworkEmulator.Model.PhyLayer
import NetworkEmulator.Proofs.Rank
import NetworkEmulator.Proofs.EfficiencyAmc
import NetworkEmulator.Proofs.McsTables
import NetworkEmulator.Proofs.UpdatePeriod
import NetworkEmulator.Proofs.Fading
import NetworkEmulator.Proofs.StaysInside
import NetworkEmulator.Proofs.Rewinding
import NetworkEmulator.Proofs.Latencies
import NetworkEmulator.Model.InfluxLine
import NetworkEmulator.Library.Delimited
import NetworkEmulator.Proofs.Dashboard
import NetworkEmulator.Proofs.Means
import NetworkEmulator.Proofs.Packetisation
import NetworkEmulator.Library.Interleave
import NetworkEmulator.Model.SharedPool
import NetworkEmulator.Proofs.Rounds
import NetworkEmulator.Model.ChannelState
import NetworkEmulator.Model.Cell
import NetworkEmulator.Model.Emulator
import NetworkEmulator.Proofs.Locality
import NetworkEmulator.Proofs.Threads
import NetworkEmulator.Library.Simulation
import NetworkEmulator.Proofs.SharedGrid
import NetworkEmulator.Proofs.SharedLayers
import NetworkEmulator.Proofs.SharedMetrics
import NetworkEmulator.Library.Periods
import NetworkEmulator.Proofs.ChannelRuns
import NetworkEmulator.Proofs.LayerSizes
import NetworkEmulator.Proofs.Throughput
import NetworkEmulator.Proofs.DirectionRuns
import NetworkEmulator.Model.Monitoring
import NetworkEmulator.Proofs.Monitored
import NetworkEmulator.Proofs.QueueReports
