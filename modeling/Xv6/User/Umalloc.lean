import Xv6.Kernel.Sbrk
/-! The allocator of `user/umalloc.c`: a circular free list of headers ordered by address,
threaded through `base`, and `morecore`, which grows the process by `sbrk` and frees the new
block into the list. Header pointers are byte addresses; `hdr + k` moves `16 * k` bytes. -/
namespace Xv6
namespace User

/-- `sizeof(Header)`: a pointer and a `uint`, padded to the alignment of `long`. -/
def HSIZE : Nat := 16

/-- `union header`: the next block on the free list and the block's size in headers. -/
structure Header where
  ptr : Nat
  size : UInt32

/-- The allocator's state: the header stored at each address, `freep`, the address of the
static `base`, and the process size that `sbrk` moves. -/
structure Heap where
  hdr : Nat → Header
  freep : Nat
  base : Nat
  sz : Nat

/-- `p + k` for a `Header *p`, in 64-bit pointer arithmetic. -/
def ptrAdd (p k : Nat) : Nat := (p + HSIZE * k) % 2 ^ 64

/-- `(Header*)ap - 1`. -/
def ptrPred (p : Nat) : Nat := (p + 2 ^ 64 - HSIZE) % 2 ^ 64

/-- `a->s.ptr = q`. -/
def setPtr (m : Nat → Header) (a q : Nat) : Nat → Header :=
  Function.update m a { m a with ptr := q }

/-- `a->s.size = s`. -/
def setSize (m : Nat → Header) (a : Nat) (s : UInt32) : Nat → Header :=
  Function.update m a { m a with size := s }

section Stores

variable {m : Nat → Header} {a b q : Nat} {s : UInt32}

@[simp] theorem setPtr_ptr_self : (setPtr m a q a).ptr = q := by
  simp [setPtr]

@[simp] theorem setPtr_size : (setPtr m a q b).size = (m b).size := by
  by_cases hb : b = a
  · subst hb
    simp [setPtr]
  · simp [setPtr, hb]

@[simp] theorem setSize_size_self : (setSize m a s a).size = s := by
  simp [setSize]

@[simp] theorem setSize_ptr : (setSize m a s b).ptr = (m b).ptr := by
  by_cases hb : b = a
  · subst hb
    simp [setSize]
  · simp [setSize, hb]

theorem setSize_of_ne (hb : b ≠ a) : setSize m a s b = m b := by
  simp [setSize, hb]

end Stores

/-- What `sbrk(n)` returns and the process size after it, as `sys_sbrk` computes them: the
old size always, and the size moves only when `addr + n` passes its overflow check. -/
def sbrk (sz : Nat) (n : Int32) : Nat × Nat :=
  if (n ≥ 0 ∧ (sz + u64 n.toInt) % 2 ^ 64 ≥ sz) ∨ (n < 0 ∧ u64 (-n).toInt ≤ sz) then
    (sz, (sz + u64 n.toInt) % 2 ^ 64)
  else (sz, sz)

/-- A growing `sbrk` is the kernel's `sys_sbrk`: the same answer and the same new size, with
nothing else of the kernel touched. -/
theorem sysSbrk_run_of_nonneg {id : Fin NCPU} {s : KState} {p : UProc} {n : Int32}
    (hn : ¬ n < 0) :
    (sysSbrk id p n).run s = .ok (({ p with sz := (sbrk p.sz n).2 }, (sbrk p.sz n).1), s) := by
  by_cases hkeep : (n ≥ 0 ∧ (p.sz + u64 n.toInt) % 2 ^ 64 ≥ p.sz) ∨
      (n < 0 ∧ u64 (-n).toInt ≤ p.sz)
  · have hdealloc : ¬ (n < 0 ∧ u64 (-n).toInt ≤ p.sz) := fun hd => hn hd.1
    rw [sysSbrk, StateExcept.run_ite, if_neg hdealloc]
    dsimp only
    rw [StateExcept.run_ite, if_pos hkeep, sbrk, if_pos hkeep]
    rfl
  · rw [sysSbrk_run_refused hkeep, sbrk, if_neg hkeep]

/-- The scan of `free` for the block `p` after which `bp` belongs: `bp` lies between `p` and
`p->s.ptr`, or `p` is the wrap point of the list and `bp` lies past one of its ends. -/
def freeScan (m : Nat → Header) (bp : Nat) : Nat → Nat → Option Nat
  | 0, _ => none
  | fuel + 1, p =>
    if bp > p ∧ bp < (m p).ptr then some p
    else if p ≥ (m p).ptr ∧ (bp > p ∨ bp < (m p).ptr) then some p
    else freeScan m bp fuel (m p).ptr

/-- `free(ap)`: link the block before `ap` in after the block `freeScan` finds, merged with
the next block when they touch and into that block when it touches. The stores are made in
the order of the source, each reading the headers the one before left. -/
def free (h : Heap) (ap fuel : Nat) : Option Heap := do
  let bp := ptrPred ap
  let p ← freeScan h.hdr bp fuel h.freep
  let m := h.hdr
  let m :=
    if ptrAdd bp (m bp).size.toNat = (m p).ptr then
      let m := setSize m bp ((m bp).size + (m (m p).ptr).size)
      setPtr m bp (m (m p).ptr).ptr
    else setPtr m bp (m p).ptr
  let m :=
    if ptrAdd p (m p).size.toNat = bp then
      let m := setSize m p ((m p).size + (m bp).size)
      setPtr m p (m bp).ptr
    else setPtr m p bp
  pure { h with hdr := m, freep := p }

/-- `morecore(nu)`: the heap after it and the pointer it returns, `freep`, or `0` when `sbrk`
answers `-1`. `nu * sizeof(Header)` is a `uint64` that the call to `sbrk(int)` cuts to its
low 32 bits. -/
def morecore (h : Heap) (nu : UInt32) (fuel : Nat) : Option (Heap × Nat) :=
  let nu := if nu < 4096 then 4096 else nu
  let r := sbrk h.sz (Int32.ofNat (nu.toNat * HSIZE))
  if r.1 = 2 ^ 64 - 1 then some ({ h with sz := r.2 }, 0)
  else
    let h := { h with hdr := setSize h.hdr r.1 nu, sz := r.2 }
    (free h (ptrAdd r.1 1) fuel).map fun h => (h, h.freep)

/-- The loop of `malloc` from `prevp` and `p = prevp->s.ptr`: the first block of at least
`nunits` headers is taken whole or cut from its end; passing `freep` again asks `morecore`
for more. The pointer returned is `0` when `morecore` fails; `none` is the fuel running out. -/
def mallocLoop (nunits : UInt32) : Nat → Heap → Nat → Nat → Option (Heap × Nat)
  | 0, _, _, _ => none
  | fuel + 1, h, prevp, p =>
    let m := h.hdr
    if (m p).size ≥ nunits then
      if (m p).size = nunits then
        some ({ h with hdr := setPtr m prevp (m p).ptr, freep := prevp }, ptrAdd p 1)
      else
        let m := setSize m p ((m p).size - nunits)
        let p := ptrAdd p (m p).size.toNat
        let m := setSize m p nunits
        some ({ h with hdr := m, freep := prevp }, ptrAdd p 1)
    else if p = h.freep then
      match morecore h nunits fuel with
      | none => none
      | some (h', 0) => some (h', 0)
      | some (h', p') => mallocLoop nunits fuel h' p' (h'.hdr p').ptr
    else mallocLoop nunits fuel h p (m p).ptr

/-- `malloc(nbytes)`: the size in headers, one more for the header, computed in `uint64` and
kept as a `uint`; the first call makes `base` an empty list of its own. -/
def malloc (h : Heap) (nbytes : UInt32) (fuel : Nat) : Option (Heap × Nat) :=
  let nunits := UInt32.ofNat ((nbytes.toNat + HSIZE - 1) / HSIZE + 1)
  let h :=
    if h.freep = 0 then
      { h with hdr := setSize (setPtr h.hdr h.base h.base) h.base 0, freep := h.base }
    else h
  mallocLoop nunits fuel h h.freep (h.hdr h.freep).ptr

theorem ptrAdd_of_lt {p k : Nat} (h : p + HSIZE * k < 2 ^ 64) : ptrAdd p k = p + HSIZE * k :=
  Nat.mod_eq_of_lt h

theorem ptrPred_ptrAdd_one {p : Nat} (h : p + HSIZE < 2 ^ 64) : ptrPred (ptrAdd p 1) = p := by
  rw [ptrAdd_of_lt (by omega), ptrPred]
  simp only [HSIZE] at h ⊢
  omega

theorem int32_ofNat_nonneg {k : Nat} (hk : k < 2 ^ 31) : Int32.ofNat k ≥ 0 := by
  rw [ge_iff_le, Int32.le_iff_toInt_le, Int32.toInt_ofNat_of_lt hk, Int32.toInt_zero]
  omega

/-- A growing `sbrk` whose argument fits an `int` and whose new size fits a `uint64`. -/
theorem sbrk_of_lt {sz k : Nat} (hk : k < 2 ^ 31) (hsz : sz + k < 2 ^ 64) :
    sbrk sz (Int32.ofNat k) = (sz, sz + k) := by
  have hval : (Int32.ofNat k).toInt = k := Int32.toInt_ofNat_of_lt hk
  have hge : Int32.ofNat k ≥ 0 := int32_ofNat_nonneg hk
  have hu : u64 (Int32.ofNat k).toInt = k := by
    rw [hval, u64_of_nonneg (by omega) (by omega)]
    rfl
  have hwrap : (sz + u64 (Int32.ofNat k).toInt) % 2 ^ 64 = sz + k := by
    rw [hu]
    exact Nat.mod_eq_of_lt hsz
  rw [sbrk, hwrap, if_pos (.inl ⟨hge, Nat.le_add_right sz k⟩)]

/-- At the wrap point of the list, a block past its end is linked in after it. -/
theorem freeScan_wrap {m : Nat → Header} {bp p : Nat} (hw : (m p).ptr ≤ p) (hp : p < bp)
    (fuel : Nat) : freeScan m bp (fuel + 1) p = some p := by
  have hbetween : ¬ (bp > p ∧ bp < (m p).ptr) := fun h => by omega
  rw [freeScan, if_neg hbetween, if_pos ⟨hw, .inl hp⟩]

/-- A freed block that touches neither neighbour is linked in between them, unmerged. -/
theorem free_of_apart {h : Heap} {ap fuel p : Nat}
    (hscan : freeScan h.hdr (ptrPred ap) fuel h.freep = some p)
    (hnext : ptrAdd (ptrPred ap) (h.hdr (ptrPred ap)).size.toNat ≠ (h.hdr p).ptr)
    (hprev : ptrAdd p (h.hdr p).size.toNat ≠ ptrPred ap) :
    free h ap fuel = some { h with
      hdr := setPtr (setPtr h.hdr (ptrPred ap) (h.hdr p).ptr) p (ptrPred ap), freep := p } := by
  simp only [free, hscan, Option.pure_def, Option.bind_eq_bind, Option.bind_some, if_neg hnext,
    setPtr_size, if_neg hprev]

/-- A block of at least `nunits` headers is taken, whole or from its end: the pointer returned
is past its header and the `nunits - 1` headers after it stay inside the block. -/
theorem mallocLoop_take {nunits : UInt32} {h : Heap} {p : Nat} (fuel prevp : Nat)
    (hpos : 0 < nunits.toNat) (hfit : nunits ≤ (h.hdr p).size)
    (hend : p + HSIZE * (h.hdr p).size.toNat < 2 ^ 64) :
    ∃ h' q, mallocLoop nunits (fuel + 1) h prevp p = some (h', q) ∧ h'.sz = h.sz ∧
      p + HSIZE ≤ q ∧ q + HSIZE * (nunits.toNat - 1) ≤ p + HSIZE * (h.hdr p).size.toNat := by
  have hle : nunits.toNat ≤ (h.hdr p).size.toNat := UInt32.le_iff_toNat_le.mp hfit
  unfold HSIZE at hend ⊢
  by_cases heq : (h.hdr p).size = nunits
  · -- an exact fit is unlinked whole
    rw [mallocLoop, if_pos hfit, if_pos heq]
    refine ⟨_, _, rfl, rfl, ?_, ?_⟩
    all_goals
      rw [ptrAdd_of_lt (by unfold HSIZE; omega)]
      unfold HSIZE
      omega
  · -- a larger block keeps its first `size - nunits` headers on the list
    have hsub : ((h.hdr p).size - nunits).toNat = (h.hdr p).size.toNat - nunits.toNat :=
      UInt32.toNat_sub_of_le _ _ hfit
    rw [mallocLoop, if_pos hfit, if_neg heq]
    refine ⟨_, _, rfl, rfl, ?_, ?_⟩
    all_goals
      simp only [setSize_size_self, hsub]
      rw [ptrAdd_of_lt (p := p) (by unfold HSIZE; omega),
        ptrAdd_of_lt (k := 1) (by unfold HSIZE; omega)]
      unfold HSIZE
      omega

/-- Passing `freep` with no block large enough calls `morecore`, and the loop goes on from the
pointer it returns. -/
theorem mallocLoop_morecore {nunits : UInt32} {fuel : Nat} {h h' : Heap} {p p' : Nat} (prevp : Nat)
    (hsmall : ¬ (h.hdr p).size ≥ nunits) (hp : p = h.freep)
    (hm : morecore h nunits fuel = some (h', p')) (hp' : p' ≠ 0) :
    mallocLoop nunits (fuel + 1) h prevp p = mallocLoop nunits fuel h' p' (h'.hdr p').ptr := by
  obtain ⟨q, rfl⟩ := Nat.exists_eq_succ_of_ne_zero hp'
  rw [mallocLoop]
  simp only [if_neg hsmall, if_pos hp, hm]

/-- `morecore` on the list of `base` alone: the new block of `nu'` headers at the old size is
linked in after `base`, and `base` is `freep` again. -/
theorem morecore_alone {h : Heap} {nu nu' : UInt32} (fuel : Nat)
    (hnu : nu' = if nu < 4096 then 4096 else nu) (hfree : h.freep = h.base)
    (hloop : (h.hdr h.base).ptr = h.base) (hsize : (h.hdr h.base).size = 0)
    (hbsz : h.base < h.sz) (hfit : nu'.toNat * HSIZE < 2 ^ 31) (hsz : h.sz + 2 ^ 31 < 2 ^ 64) :
    morecore h nu (fuel + 1) = some ({ h with
      hdr := setPtr (setPtr (setSize h.hdr h.sz nu') h.sz h.base) h.base h.sz,
      sz := h.sz + nu'.toNat * HSIZE, freep := h.base }, h.base) := by
  have hne : h.base ≠ h.sz := Nat.ne_of_lt hbsz
  have h16 : h.sz + HSIZE < 2 ^ 64 := by
    unfold HSIZE
    omega
  have hsbrk : sbrk h.sz (Int32.ofNat (nu'.toNat * HSIZE)) = (h.sz, h.sz + nu'.toNat * HSIZE) :=
    sbrk_of_lt hfit (by omega)
  have hnot : h.sz ≠ 2 ^ 64 - 1 := by omega
  let m := setSize h.hdr h.sz nu'
  have hbase : m h.base = h.hdr h.base := setSize_of_ne hne
  -- the scan stops at once: `base` is the wrap point and the block lies past it
  have hscan : freeScan m (ptrPred (ptrAdd h.sz 1)) (fuel + 1) h.base = some h.base := by
    rw [ptrPred_ptrAdd_one h16]
    exact freeScan_wrap (by rw [hbase, hloop]) hbsz fuel
  have hnext : ptrAdd h.sz (m h.sz).size.toNat ≠ (m h.base).ptr := by
    rw [hbase, hloop, setSize_size_self, ptrAdd_of_lt (by rw [Nat.mul_comm]; omega)]
    omega
  have hprev : ptrAdd h.base (m h.base).size.toNat ≠ h.sz := by
    rw [hbase, hsize, ptrAdd_of_lt (by unfold HSIZE; simp; omega)]
    simpa using hne
  rw [morecore]
  dsimp only
  rw [← hnu, hsbrk, if_neg hnot]
  dsimp only
  rw [free_of_apart (h := { h with hdr := m, sz := h.sz + nu'.toNat * HSIZE })
    (by rw [hfree]; exact hscan)
    (by rw [ptrPred_ptrAdd_one h16]; exact hnext)
    (by rw [ptrPred_ptrAdd_one h16]; exact hprev)]
  simp only [Option.map_some, ptrPred_ptrAdd_one h16, hbase, hloop]
  rfl

/-- The first `malloc(nbytes)` of a program, for a request that fits an `int`, answers a
block of `nbytes` bytes inside the memory `morecore` got from `sbrk`, and the size it leaves
is what one growing `sys_sbrk` gives a process of the old size. -/
theorem malloc_first_in_break {h : Heap} {nbytes : UInt32} {fuel : Nat}
    (hfresh : h.freep = 0) (hbase : 0 < h.base) (hbsz : h.base < h.sz)
    (hn : nbytes.toNat + 2 * HSIZE ≤ 2 ^ 31) (hsz : h.sz + 2 ^ 31 < 2 ^ 64) (hfuel : 2 ≤ fuel) :
    ∃ h' p, malloc h nbytes fuel = some (h', p) ∧ h.sz + HSIZE ≤ p ∧ p + nbytes.toNat ≤ h'.sz ∧
      ∀ (id : Fin NCPU) (s : KState) (up : UProc), up.sz = h.sz →
        ∃ n : Int32, (sysSbrk id up n).run s = .ok (({ up with sz := h'.sz }, h.sz), s) := by
  obtain ⟨k, rfl⟩ : ∃ k, fuel = k + 2 := ⟨fuel - 2, by omega⟩
  unfold HSIZE at hn
  set N : UInt32 := UInt32.ofNat ((nbytes.toNat + HSIZE - 1) / HSIZE + 1) with hN
  have hNval : N.toNat = (nbytes.toNat + 15) / 16 + 1 :=
    UInt32.toNat_ofNat_of_lt' (by unfold HSIZE; simp only [UInt32.size]; omega)
  set nu' : UInt32 := if N < 4096 then 4096 else N with hnu
  have hnu' : nu'.toNat = max N.toNat 4096 := by
    rw [hnu]
    split_ifs with hlt
    · rw [UInt32.lt_iff_toNat_lt] at hlt
      simp only [UInt32.reduceToNat] at hlt ⊢
      omega
    · rw [UInt32.lt_iff_toNat_lt] at hlt
      simp only [UInt32.reduceToNat] at hlt
      omega
  have hfit : nu'.toNat * HSIZE < 2 ^ 31 := by
    unfold HSIZE
    omega
  let h1 : Heap :=
    { h with hdr := setSize (setPtr h.hdr h.base h.base) h.base 0, freep := h.base }
  have hinit : malloc h nbytes (k + 2) = mallocLoop N (k + 2) h1 h.base h.base := by
    rw [malloc, if_pos hfresh]
    simp only [setSize_ptr, setPtr_ptr_self]
    rfl
  have hmore := morecore_alone (h := h1) k hnu rfl
    (by simp [h1]) (by simp [h1]) hbsz hfit hsz
  have hsmall : ¬ (h1.hdr h1.base).size ≥ N := by
    rw [setSize_size_self, ge_iff_le, UInt32.le_iff_toNat_le]
    simp only [UInt32.reduceToNat]
    omega
  have hstep := mallocLoop_morecore h.base hsmall rfl hmore (Nat.ne_of_gt hbase)
  let h3 : Heap := { h1 with
    hdr := setPtr (setPtr (setSize h1.hdr h1.sz nu') h1.sz h1.base) h1.base h1.sz,
    sz := h1.sz + nu'.toNat * HSIZE, freep := h1.base }
  have hsize3 : (h3.hdr h.sz).size = nu' := by
    simp [h3, h1]
  have hnext3 : (h3.hdr h.base).ptr = h.sz := by
    simp [h3, h1]
  have hfitN : N ≤ (h3.hdr h.sz).size := by
    rw [hsize3, UInt32.le_iff_toNat_le, hnu']
    omega
  have hend : h.sz + HSIZE * (h3.hdr h.sz).size.toNat < 2 ^ 64 := by
    rw [hsize3]
    unfold HSIZE at hfit ⊢
    omega
  obtain ⟨h', q, hq, hsz', hlo, hhi⟩ :=
    mallocLoop_take k h.base (by omega) hfitN hend
  have hsz3 : h'.sz = h.sz + nu'.toNat * HSIZE := hsz'
  refine ⟨h', q, ?_, hlo, ?_, fun id s up hup => ⟨Int32.ofNat (nu'.toNat * HSIZE), ?_⟩⟩
  · rw [hinit, hstep]
    change mallocLoop N (k + 1) h3 h.base (h3.hdr h.base).ptr = _
    rw [hnext3]
    exact hq
  · rw [hsize3] at hhi
    rw [hsz3]
    unfold HSIZE at hhi ⊢
    omega
  · -- the one `sbrk` of `morecore`, made by the kernel
    have hnn : ¬ Int32.ofNat (nu'.toNat * HSIZE) < 0 := Int32.not_lt.mpr (int32_ofNat_nonneg hfit)
    rw [sysSbrk_run_of_nonneg hnn, hup, sbrk_of_lt hfit (by omega), hsz3]

/-- The first `malloc(100)` of a program with `base` at `0x1000` and size `0x4000`. -/
theorem malloc_first_in_break_small :
    ∃ h' p, malloc ⟨fun _ => ⟨0, 0⟩, 0, 0x1000, 0x4000⟩ 100 2 = some (h', p) ∧
      0x4000 + HSIZE ≤ p ∧ p + 100 ≤ h'.sz ∧
      ∀ (id : Fin NCPU) (s : KState) (up : UProc), up.sz = 0x4000 →
        ∃ n : Int32, (sysSbrk id up n).run s = .ok (({ up with sz := h'.sz }, 0x4000), s) :=
  malloc_first_in_break rfl (by decide) (by decide) (by decide) (by decide) (by decide)

/-- The first `malloc(0xFFFFFFFF)` of a program with `base` at `0x1000` and size `0x4000`
needs `2^28 + 1` headers, whose `2^32 + 16` bytes reach `sbrk` as `16`: the process grows by
one header, and the block returned starts at the new size, past all the memory it has. -/
theorem malloc_max_past_break :
    (malloc ⟨fun _ => ⟨0, 0⟩, 0, 0x1000, 0x4000⟩ 0xFFFFFFFF 3).map (fun r => (r.2, r.1.sz)) =
      some (0x4010, 0x4010) := by
  decide +kernel

end User
end Xv6

