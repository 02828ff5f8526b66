import MachVirtuTerm.Ipc.SplayMap
import MachVirtuTerm.Ipc.PortAllocate
import MachVirtuTerm.Ipc.BlockedSenders
import MachVirtuTerm.Vm.MapDeleteRange
import MachVirtuTerm.Vm.MapWakeups
import MachVirtuTerm.Vm.ObjectCollapseRun
import MachVirtuTerm.Ipc.RightCopyinUndo
import MachVirtuTerm.Ipc.ScatterReceive
import MachVirtuTerm.Kern.LockInv
import MachVirtuTerm.Kern.TimerInv
import MachVirtuTerm.Vm.MapAttributesRun
import MachVirtuTerm.DefaultPager.ClusterInv
import MachVirtuTerm.DefaultPager.SelectSegment
import MachVirtuTerm.DefaultPager.PagerLists
import MachVirtuTerm.Vm.KernelMemory
import MachVirtuTerm.Kern.SemaphoreOrder
import MachVirtuTerm.Kern.ThreadStopRun
import MachVirtuTerm.Kern.LockSetOwner
import MachVirtuTerm.Device.NetFilterRun
import MachVirtuTerm.Device.NetDeliverySound
import MachVirtuTerm.Xkern.IpReassembly
import MachVirtuTerm.Vm.MemoryObjectRun
import MachVirtuTerm.Vm.ContigAllocSound
import MachVirtuTerm.Vm.ResidentRun
import MachVirtuTerm.App.TermInput
import MachVirtuTerm.App.TerminalView
import MachVirtuTerm.App.TtyRing
import MachVirtuTerm.App.VmLifeCycle
import MachVirtuTerm.Ipc.LocalHash
import MachVirtuTerm.Ipc.SplayTraverseSpec
import MachVirtuTerm.Xkern.IdMapRun
import MachVirtuTerm.Device.CirBufQueue
import MachVirtuTerm.Device.TtyInputSteps
import MachVirtuTerm.FileSystems.ReadFileRun
import MachVirtuTerm.Xkern.EventRun
import MachVirtuTerm.Ipc.KmsgCopyinError
import MachVirtuTerm.Ipc.KmsgDestroyRun
import MachVirtuTerm.Vm.FaultClusterRequest
import MachVirtuTerm.Vm.FaultCopySound
import MachVirtuTerm.Vm.MapCopyinCoverRun
import MachVirtuTerm.Kern.RunQueueSound
import MachVirtuTerm.Vm.MapFork
import MachVirtuTerm.Ipc.GlobalHash
import MachVirtuTerm.Device.NetSetFilter
