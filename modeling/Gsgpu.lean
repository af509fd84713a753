import Gsgpu.Lib.Run
import Gsgpu.HwSema
import Gsgpu.Context
import Gsgpu.Cs.IndirectPacket
import Gsgpu.Cs.Leaks
import Gsgpu.Cs.UserFence
import Gsgpu.Cs.Skipped
import Gsgpu.ParserBos.Balanced
import Gsgpu.Vm.Coverage
import Gsgpu.Vm.Submission
import Gsgpu.Vm.RangeClear
import Gsgpu.Vm.Split
import Gsgpu.Vm.Inside
import Gsgpu.Vm.Freed
import Gsgpu.Vm.Moved
import Gsgpu.Fill.Exact
import Gsgpu.Move.Exact
import Gsgpu.CpuPage.Exact
import Gsgpu.PageTable.Updates
import Gsgpu.PageTable.Agreement
import Gsgpu.PageTable.Budget
import Gsgpu.PageTable.Alloc
import Gsgpu.PageTable.Directories
import Gsgpu.Ring.Capacity
import Gsgpu.Ring.Schedule
import Gsgpu.Ring.Multiple
import Gsgpu.Ids.Truthful
import Gsgpu.Isolation.Executed
import Gsgpu.Sync.Latest
import Gsgpu.Fences.Empty
import Gsgpu.Suballoc.Termination
import Gsgpu.Chash.Map
import Gsgpu.Chash.Iterators
import Gsgpu.Userptr.Current
import Gsgpu.I2c.Success
import Gsgpu.PixelPll
import Gsgpu.Irq
import Gsgpu.DcIrq
import Gsgpu.Ih.Once
import Gsgpu.Mn.Notifier
import Gsgpu.GttMgr
import Gsgpu.Vram.VisibleSize
import Gsgpu.Vram.Resume
import Gsgpu.Vbios.Faithful
import Gsgpu.Recover
import Gsgpu.VramLost
import Gsgpu.BoList.Undisturbed
import Gsgpu.BoList.Sorted
import Gsgpu.Sched.Fair
import Gsgpu.Sched.Service
import Gsgpu.Reserve.Progress
import Gsgpu.Throttle
import Gsgpu.Cs.Debt
