import Mathlib.Data.List.FinRange
import Xv6.Kernel.Param

/-! The process table of `kernel/proc.c` as far as the process tree goes: states, parent
pointers, pids, exit status, the `killed` flag and sleep channels. Each function is one
critical section under `wait_lock` or a `p->lock`, run atomically; `fork` has three. Memory
allocations that may fail are a Boolean argument saying whether they succeeded. -/
namespace Xv6

inductive ProcState where
  | UNUSED
  | USED
  | SLEEPING
  | RUNNABLE
  | RUNNING
  | ZOMBIE
  deriving DecidableEq, Repr

/-- What a process sleeps on: `wait` sleeps on the process itself, and every other caller
of `sleep` (a pipe, a buffer, the tick count) on some other address. -/
inductive Chan where
  | proc (i : Fin NPROC)
  | other (a : Nat)
  deriving DecidableEq, Repr

/-- Where the kernel thread of a process is in `fork`: not in it, past the section that
allocates the child `np`, or past the one that links it to its parent. -/
inductive ForkPc where
  | idle
  | allocated (np : Fin NPROC)
  | linked (np : Fin NPROC)
  deriving DecidableEq, Repr

/-- A `struct proc`; `parent` is a pointer into the table or null. -/
structure Proc where
  state : ProcState
  chan : Option Chan
  killed : Bool
  xstate : Int
  pid : Nat
  parent : Option (Fin NPROC)
  fork : ForkPc
  deriving DecidableEq, Repr

/-- The table `proc[NPROC]`, `nextpid`, and `initproc` (null before `userinit`). -/
structure PTable where
  proc : Fin NPROC → Proc
  nextpid : Nat
  initproc : Option (Fin NPROC)

/-- Replace slot `i` by `f` of it. -/
def PTable.set (t : PTable) (i : Fin NPROC) (f : Proc → Proc) : PTable :=
  { t with proc := Function.update t.proc i (f (t.proc i)) }

/-- A slot as `procinit` leaves it: zero-initialised and `UNUSED`. -/
def Proc.unused : Proc := ⟨.UNUSED, none, false, 0, 0, none, .idle⟩

def procinit : PTable := ⟨fun _ => Proc.unused, 1, none⟩

/-- `freeproc(p)`. -/
def freeproc (p : Proc) : Proc :=
  { p with
    pid := 0
    parent := none
    chan := none
    killed := false
    xstate := 0
    state := .UNUSED }

/-- The scan of `allocproc`: the first `UNUSED` slot. -/
def allocSlot (t : PTable) : Option (Fin NPROC) :=
  (List.finRange NPROC).find? fun i => (t.proc i).state = .UNUSED

/-- `allocproc()`: the first free slot takes the next pid and becomes `USED`; it is freed
again if the trapframe or page-table allocation fails (`memOk = false`). -/
def allocproc (t : PTable) (memOk : Bool) : PTable × Option (Fin NPROC) :=
  match allocSlot t with
  | none => (t, none)
  | some i =>
    let t' := { t.set i (fun p => { p with pid := t.nextpid, state := .USED }) with
      nextpid := t.nextpid + 1 }
    if memOk then (t', some i) else (t'.set i freeproc, none)

/-- `wakeup(chan)`. -/
def wakeup (t : PTable) (ch : Chan) : PTable :=
  { t with proc := fun i =>
      if (t.proc i).state = .SLEEPING ∧ (t.proc i).chan = some ch then
        { t.proc i with state := .RUNNABLE }
      else t.proc i }

/-- `wakeup` on a process pointer, which may be null: nothing sleeps on null. -/
def wakeupProc (t : PTable) : Option (Fin NPROC) → PTable
  | none => t
  | some i => wakeup t (.proc i)

/-- `userinit()`: the first process. -/
def userinit (t : PTable) : PTable :=
  match allocproc t true with
  | (t', some p) => { t'.set p (fun q => { q with state := .RUNNABLE }) with initproc := some p }
  | (t', none) => t'

/-- The first section of `fork()` by `c`, up to `release(&np->lock)`: `allocproc`, then
`uvmcopy` (`copyOk`). It returns `-1`, or `none` while the fork goes on. -/
def forkAlloc (t : PTable) (c : Fin NPROC) (allocOk copyOk : Bool) : PTable × Option Int :=
  match allocproc t allocOk with
  | (t', none) => (t', some (-1))
  | (t', some np) =>
    if copyOk then (t'.set c fun p => { p with fork := .allocated np }, none)
    else (t'.set np freeproc, some (-1))

/-- The second section of `fork()`: `np->parent = p` under `wait_lock`. -/
def forkLink (t : PTable) (c np : Fin NPROC) : PTable :=
  (t.set np fun p => { p with parent := some c }).set c fun p => { p with fork := .linked np }

/-- The last section of `fork()`: `np->state = RUNNABLE`; it returns the child's pid. -/
def forkRun (t : PTable) (c np : Fin NPROC) : PTable × Int :=
  ((t.set np fun p => { p with state := .RUNNABLE }).set c fun p => { p with fork := .idle },
    (t.proc np).pid)

/-- The body of `reparent`'s loop at slot `pp`. -/
def reparentOne (c : Fin NPROC) (t : PTable) (pp : Fin NPROC) : PTable :=
  if (t.proc pp).parent = some c then
    wakeupProc (t.set pp fun q => { q with parent := t.initproc }) t.initproc
  else t

/-- `reparent(p)`: the loop over the table gives each child of `c` to `initproc`. -/
def reparent (t : PTable) (c : Fin NPROC) : PTable :=
  (List.finRange NPROC).foldl (reparentOne c) t

/-- `exit(status)` by `c`, from `acquire(&wait_lock)` on; the process then never runs
again. -/
def exit (t : PTable) (c : Fin NPROC) (status : Int) : Except String PTable :=
  if t.initproc = some c then throw "init exiting"
  else
    let t₁ := reparent t c
    let t₂ := wakeupProc t₁ (t₁.proc c).parent
    pure (t₂.set c fun p => { p with xstate := status, state := .ZOMBIE })

/-- How one pass of `wait`'s loop ends. -/
inductive WaitResult where
  | returned (r : Int)
  | sleeping
  deriving DecidableEq, Repr

/-- The scan in `wait` for the children of `c`: the first `ZOMBIE` child, and whether `c`
has any child. -/
def waitScan (t : PTable) (c : Fin NPROC) : Option (Fin NPROC) × Bool :=
  ((List.finRange NPROC).find? fun i => (t.proc i).parent = some c ∧ (t.proc i).state = .ZOMBIE,
    (List.finRange NPROC).any fun i => (t.proc i).parent = some c)

/-- One pass of `wait(addr)`'s loop by `c`; `copyOk` says whether the exit status was
stored (or `addr` was 0). After a wakeup the loop starts again with a new pass. -/
def wait (t : PTable) (c : Fin NPROC) (copyOk : Bool) : PTable × WaitResult :=
  match (waitScan t c).1 with
  | some pp =>
    if copyOk then (t.set pp freeproc, .returned (t.proc pp).pid) else (t, .returned (-1))
  | none =>
    if (waitScan t c).2 = false ∨ (t.proc c).killed then (t, .returned (-1))
    else (t.set c fun p => { p with chan := some (.proc c), state := .SLEEPING }, .sleeping)

/-- `kill(pid)`: the first slot holding `pid`. -/
def kill (t : PTable) (pid : Int) : PTable × Int :=
  match (List.finRange NPROC).find? (fun i => ((t.proc i).pid : Int) = pid) with
  | some i =>
    (t.set i fun p => { p with
      killed := true
      state := if p.state = .SLEEPING then .RUNNABLE else p.state }, 0)
  | none => (t, -1)

/-- `scheduler()` switches to a `RUNNABLE` process; when it resumes from `sleep` it clears
its channel. -/
def schedule (t : PTable) (i : Fin NPROC) : PTable :=
  t.set i fun p => { p with state := .RUNNING, chan := none }

def yield (t : PTable) (c : Fin NPROC) : PTable :=
  t.set c fun p => { p with state := .RUNNABLE }

/-- `sleep(chan, lk)` by `c`. -/
def sleep (t : PTable) (c : Fin NPROC) (ch : Chan) : PTable :=
  t.set c fun p => { p with chan := some ch, state := .SLEEPING }

/-- The steps of the system, one critical section each, by the process running it. -/
inductive PStep : PTable → PTable → Prop
  | forkAlloc {t : PTable} {c : Fin NPROC} (allocOk copyOk : Bool) :
      (t.proc c).state = .RUNNING → (t.proc c).fork = .idle →
      PStep t (forkAlloc t c allocOk copyOk).1
  | forkLink {t : PTable} {c np : Fin NPROC} :
      (t.proc c).state = .RUNNING → (t.proc c).fork = .allocated np → PStep t (forkLink t c np)
  | forkRun {t : PTable} {c np : Fin NPROC} :
      (t.proc c).state = .RUNNING → (t.proc c).fork = .linked np → PStep t (forkRun t c np).1
  | exit {t t' : PTable} {c : Fin NPROC} (status : Int) :
      (t.proc c).state = .RUNNING → (t.proc c).fork = .idle → exit t c status = .ok t' →
      PStep t t'
  | wait {t : PTable} {c : Fin NPROC} (copyOk : Bool) :
      (t.proc c).state = .RUNNING → (t.proc c).fork = .idle → PStep t (wait t c copyOk).1
  | kill {t : PTable} (pid : Int) : PStep t (kill t pid).1
  | schedule {t : PTable} {i : Fin NPROC} : (t.proc i).state = .RUNNABLE → PStep t (schedule t i)
  | yield {t : PTable} {c : Fin NPROC} : (t.proc c).state = .RUNNING → PStep t (yield t c)
  | sleep {t : PTable} {c : Fin NPROC} (a : Nat) :
      (t.proc c).state = .RUNNING → (t.proc c).fork = .idle → PStep t (sleep t c (.other a))
  | wakeup {t : PTable} (a : Nat) : PStep t (wakeup t (.other a))

/-- The tables reachable from boot: `procinit`, `userinit`, then any steps. -/
inductive PReach : PTable → Prop
  | boot : PReach (userinit procinit)
  | step {t t' : PTable} : PReach t → PStep t t' → PReach t'

end Xv6
