import Xv6.Kernel.VmSpec

/-! `sys_sbrk` checks only that `p->sz + n` does not wrap a `uint64`: with lazy allocation
nothing else bounds the size, so a process grows past `TRAPFRAME` and `MAXVA` in 128 calls.
The loops of `uvmfree` and `uvmcopy` then visit the page at `MAXVA`, where `walk` panics. -/
namespace Xv6
open StateExcept

/-- `k` calls of `sbrk(n)` in a row by one process, each on the size the last one left. -/
def sbrkCalls (id : Fin NCPU) (n : Int32) : Nat → UProc → KM UProc
  | 0, p => pure p
  | k + 1, p => do
    let r ← sysSbrk id p n
    sbrkCalls id n k r.1

theorem u64_of_nonneg {x : Int} (h0 : 0 ≤ x) (h : x < 2 ^ 64) : u64 x = x.toNat := by
  unfold u64
  rw [Int.emod_eq_of_lt h0 h]

section Grow

variable {id : Fin NCPU} {s : KState} {n : Int32}

/-- A growing `sbrk` that does not wrap moves `sz` and nothing else: no memory is touched. -/
theorem sysSbrk_run_grow {p : UProc} (hn : 0 ≤ n.toInt)
    (hsz : p.sz + n.toInt.toNat < 2 ^ 64) :
    (sysSbrk id p n).run s = .ok (({ p with sz := p.sz + n.toInt.toNat }, p.sz), s) := by
  have hneg : ¬ n < 0 := by
    rw [Int32.lt_iff_toInt_lt, Int32.toInt_zero]
    omega
  have hge : n ≥ 0 := by
    rw [ge_iff_le, Int32.le_iff_toInt_le, Int32.toInt_zero]
    exact hn
  have hwrap : (p.sz + u64 n.toInt) % 2 ^ 64 = p.sz + n.toInt.toNat := by
    rw [u64_of_nonneg hn (by have := n.toInt_lt; omega)]
    exact Nat.mod_eq_of_lt hsz
  have hkeep : (n ≥ 0 ∧ (p.sz + u64 n.toInt) % 2 ^ 64 ≥ p.sz) ∨
      (n < 0 ∧ u64 (-n).toInt ≤ p.sz) := .inl ⟨hge, by omega⟩
  rw [sysSbrk, run_ite, if_neg (fun h => hneg h.1)]
  dsimp only
  rw [run_ite, if_pos hkeep, hwrap]
  rfl

/-- `k` growing calls that do not wrap add `k * n` to the size, in the state they started. -/
theorem sbrkCalls_run_grow (hn : 0 ≤ n.toInt) (k : Nat) :
    ∀ {p : UProc}, p.sz + k * n.toInt.toNat < 2 ^ 64 →
      (sbrkCalls id n k p).run s = .ok ({ p with sz := p.sz + k * n.toInt.toNat }, s) := by
  induction k with
  | zero =>
    intro p _
    simp only [Nat.zero_mul, Nat.add_zero]
    rfl
  | succ k ih =>
    intro p h
    rw [Nat.succ_mul] at h
    rw [sbrkCalls, run_bind_of_ok (sysSbrk_run_grow hn (by omega)), ih (by dsimp only; omega)]
    simp only [Nat.succ_mul, Nat.add_assoc, Nat.add_comm n.toInt.toNat]

end Grow

/-- A call that the overflow check refuses changes nothing and answers the old size, as a
call that succeeds does: there is no `return -1` in `sys_sbrk`. -/
theorem sysSbrk_run_refused {id : Fin NCPU} {s : KState} {p : UProc} {n : Int32}
    (h : ¬ ((n ≥ 0 ∧ (p.sz + u64 n.toInt) % 2 ^ 64 ≥ p.sz) ∨ (n < 0 ∧ u64 (-n).toInt ≤ p.sz))) :
    (sysSbrk id p n).run s = .ok ((p, p.sz), s) := by
  -- the guard of `uvmdealloc` is the second half of the refused check
  have hdealloc : ¬ (n < 0 ∧ u64 (-n).toInt ≤ p.sz) := fun hd => h (.inr hd)
  rw [sysSbrk, run_ite, if_neg hdealloc]
  dsimp only
  rw [run_ite, if_neg h]
  rfl

/-- A process of one page asks to shrink by two: `sbrk(-8192)` is refused, leaves the
process and the kernel as they were, and returns the old size 4096, not `(uint64)-1`. -/
theorem sbrk_refusal_returns_old_size (id : Fin NCPU) (pagetable trapframe : Nat) (s : KState) :
    (sysSbrk id ⟨pagetable, PGSIZE, trapframe⟩ (-8192)).run s =
      .ok ((⟨pagetable, PGSIZE, trapframe⟩, PGSIZE), s) ∧ PGSIZE ≠ 2 ^ 64 - 1 :=
  ⟨sysSbrk_run_refused (by dsimp only; decide), by decide⟩

section Past

variable {id : Fin NCPU} {s : KState}

private theorem maxva_eq : MAXVA = 4096 * 67108864 := rfl

/-- `uvmfree` of a size past `MAXVA` never returns: `uvmunmap`'s loop reaches the page at
`MAXVA` before it ends, and the `walk` there panics. -/
theorem uvmfree_run_past_maxva {pagetable sz : Nat} (hsz : MAXVA < sz)
    (hwrap : sz + PGSIZE ≤ 2 ^ 64) (r : Unit × KState) :
    (uvmfree id pagetable sz).run s ≠ .ok r := by
  intro h
  rw [uvmfree, run_ite, if_pos (by omega)] at h
  obtain ⟨_, s₁, hfree, _⟩ := run_bind_eq_ok h
  -- the count is the whole rounded size, which takes in the page at `MAXVA`
  have hup := PGROUNDUP_of_lt hwrap
  have hcount : ((0 + PGROUNDUP sz / PGSIZE * PGSIZE) % 2 ^ 64 - 0) / PGSIZE =
      (sz + PGSIZE - 1) / PGSIZE := by
    rw [hup]
    unfold PGSIZE at hwrap ⊢
    rw [Nat.mod_eq_of_lt (by omega)]
    omega
  have hlt := uvmunmap_lt_of_ok hfree (MAXVA / PGSIZE)
  rw [hcount, maxva_eq] at hlt
  rw [maxva_eq] at hsz
  unfold PGSIZE at hlt
  have := hlt (by omega)
  omega

/-- Nor does `proc_freepagetable`, which ends with `uvmfree`. -/
theorem procFreepagetable_run_past_maxva {pagetable sz : Nat} (hsz : MAXVA < sz)
    (hwrap : sz + PGSIZE ≤ 2 ^ 64) (r : Unit × KState) :
    (procFreepagetable id pagetable sz).run s ≠ .ok r := by
  intro h
  rw [procFreepagetable] at h
  obtain ⟨_, s₁, _, h₁⟩ := run_bind_eq_ok h
  obtain ⟨_, s₂, _, h₂⟩ := run_bind_eq_ok h₁
  exact uvmfree_run_past_maxva hsz hwrap r h₂

/-- `uvmcopy` of a size past `MAXVA` never succeeds: it panics at `MAXVA`, or fails before. -/
theorem uvmcopy_run_past_maxva {old new sz : Nat} (hsz : MAXVA < sz) (s' : KState) :
    (uvmcopy id old new sz).run s ≠ .ok (0, s') := by
  intro h
  have hlt := uvmcopy_lt_of_ok h (MAXVA / PGSIZE)
  rw [maxva_eq] at hlt hsz
  unfold PGSIZE at hlt
  have := hlt (by omega)
  omega

end Past

/-- The first process, of size `PGSIZE`, calls `sbrk(INT_MAX)` 128 times. Every call is
accepted and leaves the kernel state alone, and the size ends past `TRAPFRAME` and `MAXVA`:
from then on freeing its page table always panics, and `uvmcopy` (so `fork`) never succeeds. -/
theorem sbrk_passes_trapframe (id : Fin NCPU) (s : KState) (pagetable trapframe new : Nat) :
    ∃ p, (sbrkCalls id 2147483647 128 ⟨pagetable, PGSIZE, trapframe⟩).run s = .ok (p, s) ∧
      TRAPFRAME < p.sz ∧ MAXVA < p.sz ∧
      (∀ t r, (procFreepagetable id p.pagetable p.sz).run t ≠ .ok r) ∧
      ∀ t t', (uvmcopy id p.pagetable new p.sz).run t ≠ .ok (0, t') := by
  have hsz : PGSIZE + 128 * (2147483647 : Int32).toInt.toNat = MAXVA + 3968 := rfl
  refine ⟨_, sbrkCalls_run_grow (by decide) 128 ?_, ?_, ?_, ?_, ?_⟩ <;> dsimp only <;> rw [hsz]
  · decide
  · decide
  · omega
  · exact fun t r => procFreepagetable_run_past_maxva (by omega) (by decide) r
  · exact fun t t' => uvmcopy_run_past_maxva (by omega) t'

end Xv6
