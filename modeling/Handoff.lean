import Handoff.Lib.Machine
import Handoff.Lib.Rounding
import Handoff.Lib.Custody
import Handoff.Lib.Iterate
import Handoff.Lib.Serial
import Handoff.Lib.Returns
import Handoff.Lib.Interleaving
import Handoff.C
import Handoff.Packet
import Handoff.Worker
import Handoff.Action
import Handoff.Scheduler
import Handoff.Event
import Handoff.Stages
import Handoff.WorkerRun
import Handoff.Verdicts
import Handoff.Reorder
import Handoff.Handover
import Handoff.Clamp
import Handoff.AckProgress
import Handoff.EmulatorRun
import Handoff.DryRun
import Handoff.Suppression
import Handoff.SchedulerLoop
import Handoff.SchedulerRun
import Handoff.ScheduleOrder
import Handoff.TraceMeaning
import Handoff.Watch
import Handoff.TraceActions
import Handoff.TraceFields
import Handoff.Environment
import Handoff.SamplerPeriod
import Handoff.Progress
import Handoff.QueueTable
import Handoff.Isolation
import Handoff.Controller
import Handoff.QueueThread
import Handoff.QueueTeardown
import Handoff.LinkMemory
import Handoff.PassiveSample
import Handoff.History
import Handoff.Lifetime
import Handoff.RadioGap
import Handoff.Written
import Handoff.WindowTicks
import Handoff.Settling
import Handoff.BurstPhase
import Handoff.Freeze
import Handoff.Losses
import Handoff.EventTable
import Handoff.Settings
import Handoff.SuppressionWindows
import Handoff.Routing
import Handoff.SharedBaseline
import Handoff.LineFields
import Handoff.TraceFile
import Handoff.Uninitialised
import Handoff.SamplerStart
import Handoff.ReorderSession
import Handoff.HandoverOrder
import Handoff.Lib.StableSort
import Handoff.StableEvents
import Handoff.TableBounds
import Handoff.PacketBounds
import Handoff.Python
import Handoff.Jitter
import Handoff.PacketMatch
import Handoff.ClockOffset
import Handoff.Lib.Timeline
import Handoff.Bracketing
import Handoff.Reproducible
import Handoff.LinkDuration
import Handoff.HandoverTypes
import Handoff.RampUpReport
import Handoff.RampUp
import Handoff.DataFrame
import Handoff.Rollover
import Handoff.ReorderBounds
import Handoff.Frames
import Handoff.PacketLogFile
import Handoff.LogLines
import Handoff.PacketLogRun
import Handoff.TraceTools
import Handoff.TraceReaders
import Handoff.ArrivalOrder
import Handoff.CallbackSections
