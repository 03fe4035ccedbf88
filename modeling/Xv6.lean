import Xv6.Lib.ByteMem
import Xv6.Lib.Ring
import Xv6.Lib.DList
import Xv6.Lib.Chain
import Xv6.Lib.ListFamily
import Xv6.Lib.StateExcept
import Xv6.Lib.Writes
import Xv6.Lib.Terminate
import Xv6.Lib.Bitmap
import Xv6.Lib.Scan
import Xv6.Kernel.Param
import Xv6.Kernel.String
import Xv6.Kernel.Kalloc
import Xv6.Kernel.KallocInv
import Xv6.Kernel.Pipe
import Xv6.Kernel.Proc
import Xv6.Kernel.ProcTree
import Xv6.Kernel.Kill
import Xv6.Kernel.Vm
import Xv6.Kernel.VmSpec
import Xv6.Kernel.PageTable
import Xv6.Kernel.PageMap
import Xv6.Kernel.CopyUser
import Xv6.Kernel.Trap
import Xv6.Kernel.Sbrk
import Xv6.Kernel.CowFork
import Xv6.Kernel.Lazy
import Xv6.Kernel.PageFree
import Xv6.Kernel.Exec
import Xv6.Kernel.Console
import Xv6.Fs.Bio
import Xv6.Fs.Log
import Xv6.Fs.LogCrash
import Xv6.Fs.LogBudget
import Xv6.User.Ulib
import Xv6.User.Printf
import Xv6.Fs.Path
import Xv6.Fs.Layout
import Xv6.Fs.Balloc
import Xv6.Fs.Inode
import Xv6.Fs.InodeSpec
import Xv6.Fs.ReadWrite
import Xv6.Fs.Itrunc
import Xv6.Fs.Files
import Xv6.Fs.Dinode
import Xv6.Fs.Itable
import Xv6.Fs.Dir
import Xv6.User.GrepMatch
import Xv6.User.Grep
import Xv6.User.Umalloc
import Xv6.User.ShLex
import Xv6.User.ShParse
import Xv6.User.ShGrammar
import Xv6.User.ShCorrect
