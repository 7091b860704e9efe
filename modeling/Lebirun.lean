import Lebirun.Heap.Run
import Lebirun.Pmm.Owners
import Lebirun.Pmm.Bitmap
import Lebirun.Seccomp.Filter
import Lebirun.Slab.Flush
import Lebirun.Pmm.Owners
import Lebirun.Pmm.Frames
import Lebirun.Pmm.Alloc
import Lebirun.Pmm.Init
import Lebirun.Lib.Words
import Lebirun.Vfl.Apic
import Lebirun.Lib.Threads
import Lebirun.Regex.Handles
import Lebirun.Regex.Lifetime
import Lebirun.Lib.Circular
import Lebirun.Tcp.Socket
import Lebirun.Tcp.Listen
import Lebirun.Tcp.Buffer
import Lebirun.Tcp.Stream
import Lebirun.Net.Dns
import Lebirun.Ext4.BlockMap
import Lebirun.Ext4.InodeCache
import Lebirun.Ext4.Journal
import Lebirun.Ext4.Replay
import Lebirun.Tls.Certificate
import Lebirun.Tls.Verify
import Lebirun.Tls.Handshake
import Lebirun.Lib.Chase
import Lebirun.Vfs.Lookup
import Lebirun.Vfs.Chroot
import Lebirun.Vfs.Mounts
import Lebirun.Vfs.Namespaces
import Lebirun.Lib.Table
import Lebirun.Ramfs.State
import Lebirun.Ramfs.Ops
import Lebirun.Ramfs.Links
import Lebirun.Ramfs.Names
import Lebirun.Ramfs.Lifetime
import Lebirun.Ipv67.Address
import Lebirun.Ipv67.State
import Lebirun.Ipv67.Asn
import Lebirun.Ipv67.Ownership
import Lebirun.Ipv67.Send
import Lebirun.Ipv67.Receive
import Lebirun.Ipv67.Consistency
import Lebirun.Ipv67.TableRuns
import Lebirun.Ipv67.Quiet
import Lebirun.Ipv67.Replay
import Lebirun.Lib.Shifts
import Lebirun.Vfl.Cpu
import Lebirun.Vfl.Shift
import Lebirun.Vfl.ShiftSpec
import Lebirun.Lib.Halves
import Lebirun.Vfl.MulDiv
import Lebirun.Tasks.Children
import Lebirun.Tasks.WaitRuns
import Lebirun.Tasks.WaitLive
import Lebirun.Lib.Keyed
import Lebirun.Tasks.Futex
import Lebirun.Tasks.FutexInv
import Lebirun.Tasks.FutexRuns
import Lebirun.Tasks.FutexWakes
import Lebirun.Pthread.Exclusion
import Lebirun.Pthread.Runs
import Lebirun.Tasks.OneCpu
import Lebirun.Tasks.OneCpuRuns
import Lebirun.Lib.Carry
import Lebirun.Vfl.Alu
import Lebirun.Vfl.AluSpec
import Lebirun.Vfl.AluLazy
import Lebirun.Vfl.Lea
import Lebirun.Vfl.LeaSpec
import Lebirun.Pmm.Leaves
import Lebirun.Pmm.Windows
import Lebirun.Pmm.Marks
import Lebirun.Pmm.WindowRuns
import Lebirun.Pmm.Restore
import Lebirun.Pmm.BootModules
import Lebirun.Ext4.Access
import Lebirun.Ext4.Tags
import Lebirun.Fat.Volume
import Lebirun.Regex.Fnmatch
import Lebirun.Regex.Glob
import Lebirun.Xz.X86Filter
import Lebirun.Fat.Table
import Lebirun.Lib.Sparse
import Lebirun.Net.DnsNames
import Lebirun.Ramfs.Data
import Lebirun.Fat.Alloc
import Lebirun.Fat.AllocRuns
import Lebirun.Fat.Time
import Lebirun.Fsname.Transcode
import Lebirun.Ipv67.AddressText
import Lebirun.Lib.Copies
import Lebirun.Lib.Limbs
import Lebirun.Tasks.ExecStack
import Lebirun.Tls.BigEndian
import Lebirun.Tls.Bignum
import Lebirun.Tls.P256Field
import Lebirun.Tls.Record
import Lebirun.Tls.Rsa
import Lebirun.Tls.Signature
import Lebirun.Tls.Ecdsa
import Lebirun.Tls.Hkdf
import Lebirun.Tls.Gcm
import Lebirun.Crypto.Hmac
import Lebirun.Slab.Search
import Lebirun.Partition.Gpt
import Lebirun.Tasks.DescriptorRuns
import Lebirun.Mman.Remap
import Lebirun.Shm.Runs
import Lebirun.Shm.Search
import Lebirun.Paging.Runs
