import Mathlib.Tactic.Ring

/-! The kernel's compile-time constants (`param.h`, `memlayout.h`) and the address and
page-table-entry macros of `riscv.h`. Values of C type `uint64` are natural numbers below
`2 ^ 64`; the macros that can wrap take the remainder explicitly. -/
namespace Xv6

/-- `NCPU`: maximum number of CPUs. -/
def NCPU : Nat := 8
/-- `NPROC`: maximum number of processes. -/
def NPROC : Nat := 64
/-- `MAXARG`: the most arguments `exec` takes. -/
def MAXARG : Nat := 32

/-- `MAXOPBLOCKS`: the most blocks one file-system operation writes. -/
def MAXOPBLOCKS : Nat := 10
/-- `LOGSIZE`: the most data blocks in the on-disk log. -/
def LOGSIZE : Nat := MAXOPBLOCKS * 3
/-- `NBUF`: the size of the disk block cache. -/
def NBUF : Nat := MAXOPBLOCKS * 3

instance : NeZero NCPU := ⟨by decide⟩
instance : NeZero NPROC := ⟨by decide⟩
instance : NeZero NBUF := ⟨by decide⟩

def PGSIZE : Nat := 4096
def PGSHIFT : Nat := 12

/-- One beyond the highest virtual address: Sv39 less its top bit. -/
def MAXVA : Nat := 2 ^ (9 + 9 + 9 + 12 - 1)
def TRAMPOLINE : Nat := MAXVA - PGSIZE
def TRAPFRAME : Nat := TRAMPOLINE - PGSIZE

def KERNBASE : Nat := 0x80000000
def PHYSTOP : Nat := KERNBASE + 128 * 1024 * 1024

def PTE_V : Nat := 2 ^ 0
def PTE_R : Nat := 2 ^ 1
def PTE_W : Nat := 2 ^ 2
def PTE_X : Nat := 2 ^ 3
def PTE_U : Nat := 2 ^ 4
def PTE_COW : Nat := 2 ^ 8

/-- C's `~` on a 64-bit operand. -/
def bnot64 (x : Nat) : Nat := 2 ^ 64 - 1 - x

/-- An integer converted to `uint64`. -/
def u64 (x : Int) : Nat := (x % 2 ^ 64).toNat

/-- A `uint64` stored in an `int`: its low 32 bits in two's complement. -/
def int32 (x : Nat) : Int := if x % 2 ^ 32 < 2 ^ 31 then x % 2 ^ 32 else x % 2 ^ 32 - 2 ^ 32

/-- `PGROUNDUP(sz)`, computed in `uint64`: it wraps to zero in the last page. -/
def PGROUNDUP (sz : Nat) : Nat := (sz + PGSIZE - 1) % 2 ^ 64 / PGSIZE * PGSIZE

def PGROUNDDOWN (a : Nat) : Nat := a / PGSIZE * PGSIZE

def PA2PTE (pa : Nat) : Nat := pa >>> 12 <<< 10

/-- `PTE2PA(pte)`; the shift left is taken modulo `2 ^ 64`. -/
def PTE2PA (pte : Nat) : Nat := (pte >>> 10 <<< 12) % 2 ^ 64

def PTE_FLAGS (pte : Nat) : Nat := pte &&& 0x3FF

def PXMASK : Nat := 0x1FF
def PXSHIFT (level : Nat) : Nat := PGSHIFT + 9 * level
def PX (level va : Nat) : Nat := va >>> PXSHIFT level &&& PXMASK

/-- Whether `pte` has every bit of the one-bit mask `flag`. -/
def hasFlag (pte flag : Nat) : Bool := pte &&& flag != 0

theorem PGROUNDDOWN_le (a : Nat) : PGROUNDDOWN a ≤ a := by
  unfold PGROUNDDOWN PGSIZE
  exact Nat.div_mul_le_self a 4096

theorem lt_PGROUNDDOWN_add (a : Nat) : a < PGROUNDDOWN a + PGSIZE := by
  unfold PGROUNDDOWN PGSIZE
  omega

theorem PGROUNDDOWN_mod (a : Nat) : PGROUNDDOWN a % PGSIZE = 0 := by
  unfold PGROUNDDOWN
  exact Nat.mul_mod_left _ _

theorem PGROUNDDOWN_of_mod {a : Nat} (h : a % PGSIZE = 0) : PGROUNDDOWN a = a := by
  unfold PGROUNDDOWN
  exact Nat.div_mul_cancel (Nat.dvd_of_mod_eq_zero h)

theorem PGROUNDUP_mod (a : Nat) : PGROUNDUP a % PGSIZE = 0 := by
  unfold PGROUNDUP
  exact Nat.mul_mod_left _ _

/-- Away from the top of the address space `PGROUNDUP` is the next page boundary. -/
theorem PGROUNDUP_of_lt {a : Nat} (h : a + PGSIZE ≤ 2 ^ 64) :
    PGROUNDUP a = (a + PGSIZE - 1) / PGSIZE * PGSIZE := by
  unfold PGROUNDUP
  rw [Nat.mod_eq_of_lt (by omega)]

end Xv6
