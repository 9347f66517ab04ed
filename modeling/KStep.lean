import KStep.EarlyExit
import KStep.Blocks
import KStep.Trim
import KStep.Squeeze
import KStep.CString
import KStep.Runs
import KStep.RingQueue
import KStep.Lines
import KStep.FlatJson
import KStep.Backlog
import KStep.RowTable
import KStep.Checked
import KStep.Hex
import KStep.Newc
import KStep.Interleaving
import KStep.PublishedTable
import KStep.ClaimBuffer
import KStep.FileSystem
import KStep.Json
import KStep.JsonText
import KStep.Machine
import KStep.Controller
import KStep.MachineSteps
import KStep.Coherence
import KStep.SettleBarrier
import KStep.TickOrder
import KStep.TickSchedules
import KStep.TickMachine
import KStep.PeriodTimers
import KStep.PeriodDrift
import KStep.Cli
import KStep.TaskTable
import KStep.CreateLine
import KStep.ControlQueue
import KStep.CliSession
import KStep.QueueOverrun
import KStep.RefusedCreate
import KStep.Topology
import KStep.TopologyEntries
import KStep.TopologyIsolation
import KStep.TopologyNarrowing
import KStep.TopologyHistory
import KStep.TopologyRejection
import KStep.TopologyGrammar
import KStep.TopologyGroups
import KStep.TopologyWrites
import KStep.TopologyMeaning
import KStep.TaskMasks
import KStep.Shm
import KStep.ShmUpdate
import KStep.ShmDecode
import KStep.ShmTables
import KStep.ShmDomains
import KStep.ShmRegion
import KStep.ShmLossless
import KStep.ShmBytes
import KStep.ShmExact
import KStep.Balancer
import KStep.CgroupSession
import KStep.CgroupReport
import KStep.Fuzz
import KStep.FuzzCounts
import KStep.FuzzSetup
import KStep.FuzzNumbering
import KStep.FuzzCommand
import KStep.FuzzRefers
import KStep.FuzzLoops
import KStep.FuzzReturns
import KStep.FuzzPanics
import KStep.FuzzLocality
import KStep.FuzzReach
import KStep.FuzzSayable
import KStep.FuzzCgroups
import KStep.FuzzCgroupSteps
import KStep.FuzzCgroupRuns
import KStep.Checkout
import KStep.Channel
import KStep.ReadLine
import KStep.TxPool
import KStep.TxRecords
import KStep.Records
import KStep.RecordBuffer
import KStep.RecordLine
import KStep.Replies
import KStep.Driver
import KStep.RecordTimes
import KStep.HostSession
import KStep.ReplyPairing
import KStep.Findings
import KStep.Builds
import KStep.Snapshot
import KStep.LossyText
import KStep.Monitor
import KStep.TopoLine
import KStep.CliSpacing
import KStep.CliTokens
import KStep.CliFreq
import KStep.ControlRecord
import KStep.Pelt
import KStep.PeltFloor
import KStep.WorkConserve
import KStep.UtilDecay
import KStep.UtilHistory
import KStep.RunProgram
import KStep.SessionStart
import KStep.TaskMoves
import KStep.HaltWindow
import KStep.WindowSeats
import KStep.WindowRefines
import KStep.SettledSound
import KStep.StaleFlag
import KStep.LostWakeup
import KStep.Pipe
import KStep.PipeCounts
import KStep.PipeWakes
import KStep.Coverage
import KStep.Events
import KStep.Trace
import KStep.Checks
import KStep.SyncWakeup
import KStep.Warns
import KStep.Balances
import KStep.Executor
import KStep.Replay
import KStep.Mirror
import KStep.MirrorSound
import KStep.MirrorConverges
import KStep.Initramfs
import KStep.ShellWords
import KStep.Echo
import KStep.Layout
import KStep.ShmLayout
import KStep.StateReads
