import CcKernel.Kernel.ProcTab
import CcKernel.Kernel.Lolevel
import CcKernel.Kernel.Paths
import CcKernel.Kernel.Traps
import CcKernel.Kernel.Reset
import CcKernel.Kernel.Switch
import CcKernel.Kernel.Preempt
import CcKernel.Kernel.Stack
import CcKernel.Device.PL011
import CcKernel.Lib.Blocks
import CcKernel.Device.Disk
import CcKernel.Device.DiskServer
import CcKernel.Device.DiskCalls
import CcKernel.Device.DiskStore
import CcKernel.Device.DiskErrors
import CcKernel.Device.DiskLines
import CcKernel.Lib.CStr
import CcKernel.User.Console
import CcKernel.Lib.Exchange
import CcKernel.Device.DiskRetry
import CcKernel.Device.DiskGrammar
import CcKernel.User.Gets
import CcKernel.User.Session
import CcKernel.Lib.CInt
import CcKernel.Lib.Decimal
import CcKernel.User.Atoi
import CcKernel.User.Itoa
import CcKernel.Lib.Loop
import CcKernel.User.P5
import CcKernel.Device.Uart
import CcKernel.Lib.BitField
import CcKernel.User.P3
import CcKernel.User.P4
import CcKernel.Device.MMU
import CcKernel.Device.Link
import CcKernel.Device.DiskLink
import CcKernel.Kernel.Isolation
import CcKernel.User.Syscalls
import CcKernel.Kernel.Log
import CcKernel.Device.DiskRequests
import CcKernel.Kernel.Vectors
import CcKernel.User.Stream
import CcKernel.Device.NonBlocking
import CcKernel.Kernel.Interrupts
import CcKernel.User.Terminal
