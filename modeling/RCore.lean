import RCore.Proofs.EasyFs.Allocation
import RCore.Proofs.EasyFs.BitmapSet
import RCore.Proofs.EasyFs.Clearing
import RCore.Proofs.EasyFs.Devices
import RCore.Proofs.EasyFs.DiskLayout
import RCore.Proofs.EasyFs.EmptyWrite
import RCore.Proofs.EasyFs.Names
import RCore.Proofs.Mm.FreeList
import RCore.Proofs.Mm.Insert
import RCore.Proofs.Mm.Loading
import RCore.Proofs.Mm.PageTable
import RCore.Proofs.Os.Counter
import RCore.Proofs.Os.Delivery
import RCore.Proofs.Os.Descriptors
import RCore.Proofs.Os.EndOfFile
import RCore.Proofs.Os.ExecStack
import RCore.Proofs.Os.FileIo
import RCore.Proofs.Os.Handlers
import RCore.Proofs.Os.Isolation
import RCore.Proofs.Os.Join
import RCore.Proofs.Os.Preempt
import RCore.Proofs.Os.Sigaction
import RCore.Proofs.Os.Stacks
import RCore.Proofs.Os.Switch
import RCore.Proofs.Os.Timers
import RCore.Proofs.Os.Trap
