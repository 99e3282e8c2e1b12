import BitflowCollector.ValueRing.Basic
import BitflowCollector.ValueRing.Loops
import BitflowCollector.ValueRing.Slots
import BitflowCollector.ValueRing.Cyclic
import BitflowCollector.ValueRing.Run
import BitflowCollector.ValueRing.Interleave
import BitflowCollector.ValueRing.History
import BitflowCollector.ValueRing.Overflow
import BitflowCollector.ValueRing.Rate
import BitflowCollector.Collector.Mock
import BitflowCollector.CmdHelper.FileOutput
import BitflowCollector.CmdHelper.LockOrder
import BitflowCollector.CmdHelper.Pipeline
import BitflowCollector.Collect.ProcFlags
import BitflowCollector.Libvirt.Driver
import BitflowCollector.Libvirt.Domain
