import Xv6.Kernel.Param
import Xv6.Lib.Writes

/-! The write-ahead log of `log.c`. A transaction collects the blocks that file-system calls
write between `begin_op` and `end_op`; the last `end_op` commits it by copying the blocks to
the log (`write_log`), writing the header (`write_head`, the commit point), copying them to
their homes (`install_trans`) and clearing the header. After a crash `recover_from_log`
installs whatever a written header names.

Each `bwrite` is one `DiskWrite`, and the functions that write return their writes in the
order they issue them, so that a crash after any prefix of them can be stated. The buffer
cache is a total map from block numbers to their cached contents: the code pins a logged
block's buffer until the commit, which is what lets `write_log` find it there. -/
namespace Xv6

variable {β : Type}

/-- The disk as the log sees it: the home blocks of the file system by number, the log's
data blocks `log.start + 1 + i` by their index `i`, and the header block `log.start` as the
list of its `n` block numbers. -/
structure Disk (β : Type) where
  home : Nat → β
  slot : Nat → β
  head : List Nat

/-- One `bwrite`, atomic: a home block, a log data block or the header. -/
inductive DiskWrite (β : Type) where
  | home (b : Nat) (v : β)
  | slot (i : Nat) (v : β)
  | head (l : List Nat)

def Disk.write (d : Disk β) : DiskWrite β → Disk β
  | .home b v => { d with home := Function.update d.home b v }
  | .slot i v => { d with slot := Function.update d.slot i v }
  | .head l => { d with head := l }

/-- The disk after the writes `ws`, in the order they were issued. -/
def Disk.writeAll (d : Disk β) (ws : List (DiskWrite β)) : Disk β := ws.foldl Disk.write d

/-- `write_log()`: each logged block's cached copy to its log block. -/
def writeLog (cache : Nat → β) (lh : List Nat) : List (DiskWrite β) :=
  lh.mapIdx fun tail b => .slot tail (cache b)

/-- `write_head()`: the header block naming the blocks of `lh`. Written with a nonempty
`lh`, it is the commit point. -/
def writeHead (lh : List Nat) : DiskWrite β := .head lh

/-- `install_trans()`: each log block to its home block, the log blocks read from `slot`. -/
def installTrans (slot : Nat → β) (lh : List Nat) : List (DiskWrite β) :=
  lh.mapIdx fun tail b => .home b (slot tail)

/-- `commit()` on the disk `d`: its writes, in order. `install_trans` reads back the log
blocks `write_log` has just written. -/
def commit (d : Disk β) (cache : Nat → β) (lh : List Nat) : List (DiskWrite β) :=
  if lh.length > 0 then
    writeLog cache lh ++ [writeHead lh] ++
      installTrans (d.writeAll (writeLog cache lh)).slot lh ++ [writeHead []]
  else []

/-- `recover_from_log()`: `read_head`, `install_trans(1)` from the log blocks on the disk,
and the header cleared. -/
def recoverFromLog (d : Disk β) : List (DiskWrite β) :=
  installTrans d.slot d.head ++ [writeHead []]

/-- The in-memory `struct log` with the buffer cache: the cached contents of every block,
the header `lh` of the running transaction and the count of outstanding operations. -/
structure Log (β : Type) where
  cache : Nat → β
  lh : List Nat
  outstanding : Nat

/-- The log as `initlog` leaves it, its recovery done: the cache holds the disk's blocks. -/
def logInit (d : Disk β) : Log β := ⟨d.home, [], 0⟩

/-- `begin_op()`: `none` where it sleeps, because the operation might not fit in the log.
`log.committing` is never seen set: a commit runs inside the `end_op` that starts it, and
no other operation is outstanding then. -/
def beginOp (s : Log β) : Option (Log β) :=
  if s.lh.length + (s.outstanding + 1) * MAXOPBLOCKS > LOGSIZE then none
  else some { s with outstanding := s.outstanding + 1 }

/-- `log_write(b)` with a log of `size` blocks (`sb.nlog`). -/
def logWrite (size : Nat) (s : Log β) (b : Nat) : Except String (Log β) := do
  if s.lh.length ≥ LOGSIZE ∨ s.lh.length ≥ size - 1 then throw "too big a transaction"
  if s.outstanding < 1 then throw "log_write outside of trans"
  -- log absorption: a block already in the transaction keeps its entry
  let i := s.lh.idxOf b
  if i = s.lh.length then return { s with lh := s.lh ++ [b] }
  return { s with lh := s.lh.set i b }

/-- A file-system call's write of `v` to block `b`: the cached buffer is changed under its
lock, then `log_write`. -/
def writeBlock (size : Nat) (s : Log β) (b : Nat) (v : β) : Except String (Log β) :=
  logWrite size { s with cache := Function.update s.cache b v } b

/-- `end_op()` on the disk `d`: the log after it, and the writes of the commit it runs when
it ends the last outstanding operation. -/
def endOp (s : Log β) (d : Disk β) : Log β × List (DiskWrite β) :=
  if s.outstanding - 1 = 0 then ({ s with outstanding := 0, lh := [] }, commit d s.cache s.lh)
  else ({ s with outstanding := s.outstanding - 1 }, [])

/-- What file-system calls do to the log, with the process that does it. -/
inductive LogEvent (β : Type) where
  | begin (p : Nat)
  | write (p b : Nat) (v : β)
  | finish (p : Nat)

/-- The disk with the in-memory log. -/
structure LogSys (β : Type) where
  disk : Disk β
  log : Log β

/-- A run of the events `tr` from `s` to `t`, issuing the disk writes `ws` in order. The
processes interleave freely: a `begin_op` happens once it is admitted, a write when
`log_write` does not panic, and the `end_op` that ends the last operation commits. -/
inductive LogRun (size : Nat) :
    LogSys β → List (LogEvent β) → LogSys β → List (DiskWrite β) → Prop
  | nil (s : LogSys β) : LogRun size s [] s []
  | begin {s t : LogSys β} {l : Log β} {p : Nat} {tr : List (LogEvent β)}
      {ws : List (DiskWrite β)} :
      beginOp s.log = some l → LogRun size ⟨s.disk, l⟩ tr t ws →
      LogRun size s (.begin p :: tr) t ws
  | write {s t : LogSys β} {l : Log β} {p b : Nat} {v : β} {tr : List (LogEvent β)}
      {ws : List (DiskWrite β)} :
      writeBlock size s.log b v = .ok l → LogRun size ⟨s.disk, l⟩ tr t ws →
      LogRun size s (.write p b v :: tr) t ws
  | finish {s t : LogSys β} {p : Nat} {tr : List (LogEvent β)} {ws : List (DiskWrite β)} :
      LogRun size ⟨s.disk.writeAll (endOp s.log s.disk).2, (endOp s.log s.disk).1⟩ tr t ws →
      LogRun size s (.finish p :: tr) t ((endOp s.log s.disk).2 ++ ws)

end Xv6
