import Xv6Mmap.Kalloc
import Xv6Mmap.Proc
import Xv6Mmap.Sysproc
import Xv6Mmap.Exec
import Xv6Mmap.System
import Xv6Mmap.Lib.Count
import Xv6Mmap.Proof.Kalloc
import Xv6Mmap.Proof.Allocator
import Xv6Mmap.Proof.Words
import Xv6Mmap.Proof.Trees
import Xv6Mmap.Lib.Keeps
import Xv6Mmap.Proof.Frame
import Xv6Mmap.Proof.Regions
import Xv6Mmap.Log
import Xv6Mmap.Lib.Writes
import Xv6Mmap.Proof.Log
import Xv6Mmap.Proof.LogCrash
import Xv6Mmap.Proof.LogRun
import Xv6Mmap.Proof.LogSpace
import Xv6Mmap.Wait
import Xv6Mmap.Proof.Wait
import Xv6Mmap.Proof.WaitStep
import Xv6Mmap.Proof.WaitRun
import Xv6Mmap.Fs
import Xv6Mmap.Sysfile
import Xv6Mmap.Lib.Triple
import Xv6Mmap.Proof.FsRefs
import Xv6Mmap.Proof.FsFrame
import Xv6Mmap.Proof.FsRefsPath
import Xv6Mmap.Proof.FsRefsFile
import Xv6Mmap.Proof.FsRefsRun
import Xv6Mmap.Lib.Ring
import Xv6Mmap.Pipe
import Xv6Mmap.Proof.Pipe
import Xv6Mmap.Lib.Pool
import Xv6Mmap.Lib.Slots
import Xv6Mmap.Lib.Links
import Xv6Mmap.FsLog
import Xv6Mmap.Bio
import Xv6Mmap.Proof.FsName
import Xv6Mmap.Proof.FsBlocks
import Xv6Mmap.Proof.FsContent
import Xv6Mmap.Proof.FsInode
import Xv6Mmap.Proof.FsWritei
import Xv6Mmap.Proof.FsItrunc
import Xv6Mmap.Proof.FsSound
import Xv6Mmap.Proof.FsFile
import Xv6Mmap.Proof.FsScan
import Xv6Mmap.Lib.Bytes
import Xv6Mmap.Mkfs
import Xv6Mmap.Proof.MkfsSlots
import Xv6Mmap.Proof.Mkfs
import Xv6Mmap.Proof.MkfsImage
import Xv6Mmap.Proof.FsMkfs
import Xv6Mmap.Proof.FsDir
import Xv6Mmap.Proof.FsLog
import Xv6Mmap.Proof.FsGraph
import Xv6Mmap.Proof.FsWork
import Xv6Mmap.Proof.Bio
import Xv6Mmap.Virtio
import Xv6Mmap.Proof.Virtio
import Xv6Mmap.Proof.VirtioDesc
import Xv6Mmap.Proof.VirtioRun
import Xv6Mmap.Proof.Capacity
import Xv6Mmap.KallocRaw
import Xv6Mmap.Proof.KallocRaw
import Xv6Mmap.Proof.KallocRawRun
import Xv6Mmap.Console
import Xv6Mmap.Proof.Console
import Xv6Mmap.Copyin
import Xv6Mmap.Proof.Walk
import Xv6Mmap.Proof.Copyin
import Xv6Mmap.Lib.Radix
import Xv6Mmap.Sbrk
import Xv6Mmap.Proof.Lent
import Xv6Mmap.Proof.Table
import Xv6Mmap.Proof.Space
import Xv6Mmap.Proof.Sbrk
import Xv6Mmap.Proof.Mappages
import Xv6Mmap.Proof.Uvmcopy
import Xv6Mmap.Proof.UserMem
import Xv6Mmap.Proof.FreePagetable
import Xv6Mmap.Proof.ExecLoad
import Xv6Mmap.Proof.ExecArgs
import Xv6Mmap.Proof.Exec
import Xv6Mmap.Lib.Runs
import Xv6Mmap.Proof.FsNamex
import Xv6Mmap.FsTx
import Xv6Mmap.Proof.FsTxSim
import Xv6Mmap.Proof.FsTxSpace
import Xv6Mmap.Proof.FsTxWork
import Xv6Mmap.Proof.FsTxCalls
import Xv6Mmap.Proof.FsTxCreate
import Xv6Mmap.Proof.FsTxBound
import Xv6Mmap.Umalloc
import Xv6Mmap.Lib.Cyclic
import Xv6Mmap.Lib.Tiling
import Xv6Mmap.Proof.Umalloc
import Xv6Mmap.Proof.UmallocRun
import Xv6Mmap.Proof.UmallocSbrk
import Xv6Mmap.Sh
import Xv6Mmap.Proof.ShLex
import Xv6Mmap.Proof.ShParse
import Xv6Mmap.Proof.ShCmd
