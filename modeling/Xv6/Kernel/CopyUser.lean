import Xv6.Kernel.PageMap
/-! `copyin`, `copyout` and `copyinstr` move the bytes of a user range page by page. Each
pass handles the bytes from the current address to the end of its page, at most the count
left, and the next pass starts at the next page. The theorems here follow the passes by
strong induction on the count: every byte of the range is moved once, from or to the frame
its page maps, as long as the kernel buffer lies outside the frames and the page-table
pages, so that no pass changes what a later one reads. -/
namespace Xv6
open ByteMem StateExcept ListFamily

/-- The physical address of the user byte at `va`, when its page is mapped. -/
def userAddr (m : Memory) (pagetable va : Nat) : Option Nat :=
  (translate m pagetable (PGROUNDDOWN va)).map fun pa => pa + (va - PGROUNDDOWN va)

/-- The `n` bytes from `x` miss the page `q`. -/
def Apart (x n q : Nat) : Prop := x + n ≤ q ∨ q + PGSIZE ≤ x

instance (x n q : Nat) : Decidable (Apart x n q) := inferInstanceAs (Decidable (_ ∨ _))

theorem Apart.mono {x n q x' n' : Nat} (h : Apart x n q) (h1 : x ≤ x') (h2 : x' + n' ≤ x + n) :
    Apart x' n' q := by
  unfold Apart at *
  omega

theorem userByte_of_translate {m : Memory} {pagetable va pa : Nat}
    (ht : translate m pagetable (PGROUNDDOWN va) = some pa) :
    userByte m pagetable va = some (m (pa + (va - PGROUNDDOWN va))) := by
  unfold userByte
  rw [ht]
  rfl

theorem userAddr_of_translate {m : Memory} {pagetable va pa : Nat}
    (ht : translate m pagetable (PGROUNDDOWN va) = some pa) :
    userAddr m pagetable va = some (pa + (va - PGROUNDDOWN va)) := by
  unfold userAddr
  rw [ht]
  rfl

/-- A user byte depends only on its page's translation and on its frame. -/
theorem userByte_congr {m m' : Memory} {pagetable va : Nat}
    (ht : translate m' pagetable (PGROUNDDOWN va) = translate m pagetable (PGROUNDDOWN va))
    (hf : ∀ pa, translate m pagetable (PGROUNDDOWN va) = some pa →
      ∀ x, pa ≤ x → x < pa + PGSIZE → m' x = m x) :
    userByte m' pagetable va = userByte m pagetable va := by
  cases hp : translate m pagetable (PGROUNDDOWN va) with
  | none =>
    unfold userByte
    rw [ht, hp]
    rfl
  | some pa =>
    have h1 := lt_PGROUNDDOWN_add va
    have h2 := PGROUNDDOWN_le va
    rw [userByte_of_translate (ht.trans hp), userByte_of_translate hp,
      hf pa hp _ (Nat.le_add_right _ _) (by omega)]

/-- `translate` reads only the pages of the tree. -/
theorem translate_of_agree {m m' : Memory} {pagetable : Nat}
    (h : AgreeOn m m' (IsTable m pagetable)) (va : Nat) :
    translate m' pagetable va = translate m pagetable va := by
  unfold translate
  by_cases hva : MAXVA ≤ va
  · rw [if_pos (.inl hva), if_pos (.inl hva)]
  have hva' := Nat.not_le.mp hva
  have hw : walkPte m' pagetable va = walkPte m pagetable va := by
    rw [walkPte_eq, walkPte_eq, l0Page_of_agree h hva']
  rw [hw]
  cases hl : l0Page m pagetable va with
  | none =>
    have h0 : walkPte m pagetable va = 0 := by rw [walkPte_eq, hl]
    rw [h0, if_pos (.inr rfl), if_pos (.inr rfl)]
  | some p0 =>
    have h0 : walkPte m pagetable va = pteAddr p0 0 va := by rw [walkPte_eq, hl]
    rw [h0, read64_entry_of_agree h (isTable_of_l0 hva' hl)]

section Pass

variable {va len k : Nat}

/-- A pass moves at least one byte. -/
theorem pass_pos (va : Nat) (hlen : len ≠ 0) : 0 < min (PGSIZE - (va - PGROUNDDOWN va)) len := by
  have := lt_PGROUNDDOWN_add va
  have := PGROUNDDOWN_le va
  omega

/-- The bytes of a pass lie in the page of its first byte. -/
theorem PGROUNDDOWN_of_pass (hk : k < min (PGSIZE - (va - PGROUNDDOWN va)) len) :
    PGROUNDDOWN (va + k) = PGROUNDDOWN va := by
  have h1 := PGROUNDDOWN_le va
  have h2 := lt_PGROUNDDOWN_add va
  unfold PGROUNDDOWN PGSIZE at *
  omega

/-- A pass that leaves bytes over ends at the end of its page. -/
theorem pass_next (va len : Nat) (h : min (PGSIZE - (va - PGROUNDDOWN va)) len < len) :
    va + min (PGSIZE - (va - PGROUNDDOWN va)) len = PGROUNDDOWN va + PGSIZE := by
  have := PGROUNDDOWN_le va
  have := lt_PGROUNDDOWN_add va
  omega

/-- A byte of the first pass is read from the frame of the pass's page. -/
theorem userByte_of_pass {m : Memory} {pagetable pa : Nat}
    (ht : translate m pagetable (PGROUNDDOWN va) = some pa)
    (hk : k < min (PGSIZE - (va - PGROUNDDOWN va)) len) :
    userByte m pagetable (va + k) = some (m (pa + (va - PGROUNDDOWN va) + k)) := by
  have hpage := PGROUNDDOWN_of_pass hk
  have htk : translate m pagetable (PGROUNDDOWN (va + k)) = some pa := by
    rw [hpage]
    exact ht
  have := PGROUNDDOWN_le va
  rw [userByte_of_translate htk, hpage]
  congr 2
  omega

/-- A byte past the first pass lies on a later page. -/
theorem PGROUNDDOWN_after_pass {va len k : Nat} (hn : min (PGSIZE - (va - PGROUNDDOWN va)) len ≤ k)
    (hk : k < len) : PGROUNDDOWN (va + k) ≠ PGROUNDDOWN va := fun he => by
  have := lt_PGROUNDDOWN_add (va + k)
  have := PGROUNDDOWN_le va
  have := pass_next va len (by omega)
  omega

end Pass

/-! ### `copyin` -/

section Copyin

variable {pagetable : Nat} {id : Fin NCPU} {p : UProc}

/-- `copyin` from a range whose pages are all mapped, to a kernel buffer outside the
page-table pages and the range's frames: it returns 0, the buffer holds the range's bytes,
and nothing else changes. -/
theorem copyin_run_mapped (len dst srcva : Nat) {s : KState}
    (hmap : ∀ k < len, ∃ pa, translate s.mem pagetable (PGROUNDDOWN (srcva + k)) = some pa ∧
      pa ≠ 0 ∧ Apart dst len pa)
    (htab : ∀ q, IsTable s.mem pagetable q → Apart dst len q) :
    ∃ m', (copyin id p pagetable dst srcva len).run s = .ok (0, { s with mem := m' }) ∧
      (∀ k < len, some (m' (dst + k)) = userByte s.mem pagetable (srcva + k)) ∧
      ∀ x, x < dst ∨ dst + len ≤ x → m' x = s.mem x := by
  induction len using Nat.strong_induction_on generalizing s dst srcva with
  | _ len ih =>
  by_cases hlen : len = 0
  · subst hlen
    exact ⟨s.mem, copyin_run_zero, fun k hk => absurd hk (Nat.not_lt_zero k), fun _ _ => rfl⟩
  obtain ⟨pa0, ht0, hpa0, -⟩ := hmap 0 (Nat.pos_of_ne_zero hlen)
  rw [Nat.add_zero] at ht0
  have hpos := pass_pos srcva hlen
  generalize hn : min (PGSIZE - (srcva - PGROUNDDOWN srcva)) len = n at hpos
  have hnle : n ≤ len := hn ▸ Nat.min_le_right _ _
  have hag : AgreeOn s.mem (copy s.mem dst (pa0 + (srcva - PGROUNDDOWN srcva)) n)
      (IsTable s.mem pagetable) :=
    agreeOn_copy fun q hq => (htab q hq).mono le_rfl (by omega)
  obtain ⟨m', hrun, hbytes, hout⟩ := ih (len - n) (by omega) (dst + n)
    (PGROUNDDOWN srcva + PGSIZE) (s := { s with
      mem := copy s.mem dst (pa0 + (srcva - PGROUNDDOWN srcva)) n })
    (fun k hk => by
      have hnext := pass_next srcva len (by omega)
      obtain ⟨pa, ht, h0, hap⟩ := hmap (n + k) (by omega)
      refine ⟨pa, ?_, h0, hap.mono (by omega) (by omega)⟩
      rw [translate_of_agree hag, ← ht]
      congr 2
      omega)
    (fun q hq => (htab q ((isTable_of_agree hag q).mp hq)).mono (by omega) (by omega))
  refine ⟨m', ?_, fun k hk => ?_, fun x hx => ?_⟩
  · rw [copyin_run_step hlen (copyinAddr_run_mapped ht0 hpa0), hn]
    exact hrun
  · by_cases hkn : k < n
    · -- a byte of the first pass
      have hpage := PGROUNDDOWN_of_pass (hn ▸ hkn : k < min (PGSIZE - (srcva - PGROUNDDOWN srcva)) len)
      have htk : translate s.mem pagetable (PGROUNDDOWN (srcva + k)) = some pa0 := by
        rw [hpage]
        exact ht0
      rw [hout (dst + k) (.inl (by omega))]
      dsimp only
      rw [copy_apply, if_pos ⟨by omega, by omega⟩, userByte_of_translate htk, hpage]
      have := PGROUNDDOWN_le srcva
      congr 2
      omega
    · -- a byte of a later pass
      have hnext := pass_next srcva len (by omega)
      have hb := hbytes (k - n) (by omega)
      rw [show dst + n + (k - n) = dst + k by omega,
        show PGROUNDDOWN srcva + PGSIZE + (k - n) = srcva + k by omega] at hb
      rw [hb]
      refine userByte_congr (translate_of_agree hag _) fun pa ht x h1 h2 => copy_of_outside ?_
      obtain ⟨pa', ht', -, hap⟩ := hmap k hk
      rw [ht'] at ht
      cases ht
      unfold Apart at hap
      omega
  · exact (hout x (by omega)).trans (copy_of_outside (by omega))

end Copyin

/-- The entry with `PTE_COW` cleared and `PTE_W` set. -/
def cowClear (e : Nat) : Nat := e &&& bnot64 PTE_COW ||| PTE_W

theorem testBit_bnot64 {x : Nat} (hx : x < 2 ^ 64) (i : Nat) :
    (bnot64 x).testBit i = (decide (i < 64) && !x.testBit i) := by
  rw [bnot64, show 2 ^ 64 - 1 - x = 2 ^ 64 - (x + 1) by omega, Nat.testBit_two_pow_sub_succ hx]

theorem cowClear_lt (e : Nat) : cowClear e < 2 ^ 64 :=
  Nat.or_lt_two_pow (Nat.and_lt_two_pow _ (by unfold bnot64 PTE_COW; omega)) (by decide)

section CowClear

variable {e : Nat} (he : e < 2 ^ 64)
include he

/-- Bit by bit: bit 2 set, bit 8 cleared, every other bit kept. -/
theorem testBit_cowClear (i : Nat) :
    (cowClear e).testBit i = if i = 2 then true else if i = 8 then false else e.testBit i := by
  unfold cowClear PTE_COW PTE_W
  rw [Nat.testBit_or, Nat.testBit_and, testBit_bnot64 (by decide), Nat.testBit_two_pow,
    Nat.testBit_two_pow]
  by_cases h2 : i = 2
  · subst h2
    simp
  by_cases h8 : i = 8
  · subst h8
    simp
  rw [if_neg h2, if_neg h8]
  by_cases h64 : i < 64
  · simp [h64, Ne.symm h2, Ne.symm h8]
  · have hz : e.testBit i = false :=
      Nat.testBit_lt_two_pow (lt_of_lt_of_le he (Nat.pow_le_pow_right (by decide) (by omega)))
    simp [hz, Ne.symm h2]

theorem hasFlag_cowClear {k : Nat} (h2 : k ≠ 2) (h8 : k ≠ 8) :
    hasFlag (cowClear e) (2 ^ k) = hasFlag e (2 ^ k) := by
  rw [hasFlag_two_pow, hasFlag_two_pow, testBit_cowClear he, if_neg h2, if_neg h8]

/-- The page the entry leads to is the same. -/
theorem PTE2PA_cowClear : PTE2PA (cowClear e) = PTE2PA e := by
  have hshift : cowClear e >>> 10 = e >>> 10 := by
    apply Nat.eq_of_testBit_eq
    intro j
    rw [Nat.testBit_shiftRight, Nat.testBit_shiftRight, testBit_cowClear he, if_neg (by omega),
      if_neg (by omega)]
  unfold PTE2PA
  rw [hshift]

/-- A user access through the new entry reaches the same page. -/
theorem leafTarget_cowClear : leafTarget (cowClear e) = leafTarget e := by
  unfold leafTarget
  rw [show PTE_V = 2 ^ 0 from rfl, show PTE_U = 2 ^ 4 from rfl,
    hasFlag_cowClear he (by decide) (by decide), hasFlag_cowClear he (by decide) (by decide),
    PTE2PA_cowClear he]

/-- With `PTE_W` set, the entry is a leaf. -/
theorem cowClear_flags : PTE_FLAGS (cowClear e) ≠ PTE_V := by
  intro hf
  have h2 : (PTE_FLAGS (cowClear e)).testBit 2 = true := by
    unfold PTE_FLAGS
    rw [Nat.testBit_and, testBit_cowClear he, if_pos rfl]
    decide
  rw [hf] at h2
  exact absurd h2 (by decide)

end CowClear

/-- The new entry is writable. -/
theorem hasFlag_cowClear_W {e : Nat} : hasFlag (cowClear e) PTE_W := by
  rw [cowClear, show PTE_W = 2 ^ 2 from rfl, hasFlag_or]
  exact Bool.or_eq_true_iff.mpr (.inr (by decide))

theorem hasFlag_mapPte_W {pa perm : Nat} (h : hasFlag perm PTE_W) : hasFlag (mapPte pa perm) PTE_W := by
  rw [show PTE_W = 2 ^ 2 from rfl] at h ⊢
  rw [mapPte, hasFlag_or, hasFlag_or, h]
  simp

theorem cowClear_flags_lt (e : Nat) : cowClear (PTE_FLAGS e) < 2 ^ 10 :=
  Nat.or_lt_two_pow (lt_of_le_of_lt Nat.and_le_left
    (lt_of_le_of_lt Nat.and_le_right (by decide))) (by decide)

theorem hasFlag_cowClear_flags {e k : Nat} (hk : k < 10) (h2 : k ≠ 2) (h8 : k ≠ 8) :
    hasFlag (cowClear (PTE_FLAGS e)) (2 ^ k) = hasFlag e (2 ^ k) := by
  have hlt : PTE_FLAGS e < 2 ^ 64 := lt_of_le_of_lt Nat.and_le_right (by decide)
  rw [hasFlag_cowClear hlt h2 h8, hasFlag_two_pow, hasFlag_two_pow, PTE_FLAGS, Nat.testBit_and,
    show (0x3FF : Nat) = 2 ^ 10 - 1 by rfl, Nat.testBit_two_pow_sub_one, decide_eq_true hk,
    Bool.and_true]

theorem PTE2PA_mod (e : Nat) : PTE2PA e % PGSIZE = 0 := by
  unfold PTE2PA PGSIZE
  rw [Nat.shiftLeft_eq]
  omega

theorem translate_mod {m : Memory} {pagetable va pa : Nat}
    (ht : translate m pagetable va = some pa) : pa % PGSIZE = 0 := by
  unfold translate at ht
  split_ifs at ht
  cases ht
  exact PTE2PA_mod _

theorem translate_lt {m : Memory} {pagetable va pa : Nat}
    (ht : translate m pagetable va = some pa) : va < MAXVA := by
  unfold translate at ht
  split_ifs at ht with h
  exact Nat.not_le.mp fun h' => h (.inl h')

/-- Over a well-formed tree `translate` reads the leaf. -/
theorem PTree.translate_leaf {m : Memory} {kend pagetable va : Nat}
    (ht : PTree m kend pagetable) (hk : Layout kend) (hva : va < MAXVA) :
    translate m pagetable va = leafTarget (leafPte m pagetable va) :=
  translate_eq_leaf (fun p0 h0 => (ht.managed p0 (isTable_of_l0 hva h0)).ne_zero hk) hva

theorem leafTarget_zero : leafTarget 0 = none := by decide

theorem translate_of_ge {m : Memory} {pagetable va : Nat} (h : MAXVA ≤ va) :
    translate m pagetable va = none := by
  unfold translate
  rw [if_pos (.inl h)]

theorem leafTarget_eq_some {e pa : Nat} (h : leafTarget e = some pa) :
    hasFlag e PTE_V ∧ hasFlag e PTE_U ∧ PTE2PA e = pa := by
  unfold leafTarget at h
  split_ifs at h with hvu
  rw [Bool.and_eq_true] at hvu
  exact ⟨hvu.1, hvu.2, Option.some.inj h⟩

theorem write64_pteAddr_of_outside {m : Memory} {p level va v x : Nat}
    (h : x < p ∨ p + PGSIZE ≤ x) : write64 m (pteAddr p level va) v x = m x := by
  have := pteAddr_add_le p level va
  exact writeLE_of_outside (by unfold pteAddr at *; omega)

/-- Over well-formed trees, equal leaves give equal translations. -/
theorem PTree.translate_congr {m m' : Memory} {kend kend' pagetable v : Nat} (ht : PTree m kend pagetable)
    (ht' : PTree m' kend' pagetable) (hk : Layout kend) (hk' : Layout kend')
    (hl : v < MAXVA → leafPte m' pagetable v = leafPte m pagetable v) :
    translate m' pagetable v = translate m pagetable v := by
  by_cases hv : v < MAXVA
  · rw [ht'.translate_leaf hk' hv, ht.translate_leaf hk hv, hl hv]
  · rw [translate_of_ge (Nat.not_lt.mp hv), translate_of_ge (Nat.not_lt.mp hv)]

/-! ### `copyout` -/

section Copyout

variable {pagetable : Nat}

/-- `copyout`'s preparation of a mapped page over a well-formed tree, when the page is not
copy-on-write or no other page table holds it: the handler leaves the page where it is,
clearing `PTE_COW` in place if set. Only that page's leaf changes, and not what it maps. -/
theorem PTree.copyoutPrepare (id : Fin NCPU) (p : UProc) {s : KState} {va0 pa : Nat}
    (ht : PTree s.mem s.kend pagetable) (hk : Layout s.kend) (htr : translate s.mem pagetable va0 = some pa) (hpa : pa ≠ 0)
    (hcow : hasFlag (leafPte s.mem pagetable va0) PTE_COW → s.refCount pa ≤ 1) :
    ∃ m₁, (copyoutPrepare id p pagetable va0).run s = .ok (true, { s with mem := m₁ }) ∧
      PTree m₁ s.kend pagetable ∧ (∀ v, translate m₁ pagetable v = translate s.mem pagetable v) ∧
      (∀ v < MAXVA, PGROUNDDOWN v ≠ PGROUNDDOWN va0 →
        leafPte m₁ pagetable v = leafPte s.mem pagetable v) ∧
      (∀ q, IsTable m₁ pagetable q ↔ IsTable s.mem pagetable q) ∧
      ∀ x, (∀ q, IsTable s.mem pagetable q → x < q ∨ q + PGSIZE ≤ x) → m₁ x = s.mem x := by
  have hva := translate_lt htr
  rw [ht.translate_leaf hk hva] at htr
  obtain ⟨p0, h0⟩ : ∃ p0, l0Page s.mem pagetable va0 = some p0 := by
    cases h : l0Page s.mem pagetable va0 with
    | none =>
      rw [leafPte_of_l0_none h, leafTarget_zero] at htr
      cases htr
    | some p0 => exact ⟨p0, rfl⟩
  have hwp : walkPte s.mem pagetable va0 = pteAddr p0 0 va0 := by rw [walkPte_eq, h0]
  have hle : read64 s.mem (walkPte s.mem pagetable va0) = leafPte s.mem pagetable va0 := by
    rw [hwp, leafPte_of_l0 h0]
  have hw0 : walkPte s.mem pagetable va0 ≠ 0 := by
    have := (ht.managed p0 (isTable_of_l0 hva h0)).ne_zero hk
    rw [hwp]
    unfold pteAddr
    omega
  have hpa' : PTE2PA (read64 s.mem (walkPte s.mem pagetable va0)) = pa := by
    rw [hle]
    unfold leafTarget at htr
    split_ifs at htr
    cases htr
    rfl
  cases hc : hasFlag (leafPte s.mem pagetable va0) PTE_COW with
  | false =>
    refine ⟨s.mem, copyoutPrepare_run_of_cow (cowPagefaultHandler_run_notCow hva hw0
      (by rw [hpa']; exact hpa) (by rw [hle]; exact hc)) (by decide), ht, fun _ => rfl,
      fun _ _ _ => rfl, fun _ => Iff.rfl, fun _ _ => rfl⟩
  | true =>
    have hc1 : ¬ 1 < (if isPaValid s.kend (pa % 2 ^ 32) = -1 then -1 else s.refCount pa) := by
      have := hcow hc
      split_ifs <;> omega
    have he : leafPte s.mem pagetable va0 < 2 ^ 64 := hle ▸ read64_lt _ _
    have hcl := cowClear_lt (leafPte s.mem pagetable va0)
    have ht₁ := ht.store hva h0 hcl fun _ => cowClear_flags he
    refine ⟨write64 s.mem (pteAddr p0 0 va0) (cowClear (leafPte s.mem pagetable va0)), ?_, ht₁,
      fun v => ?_, fun v hv hd => ?_, isTable_store ht hva h0, fun x hx => ?_⟩
    · rw [copyoutPrepare_run_of_cow (cowPagefaultHandler_run_inPlace hva hw0
        (by rw [hpa']; exact hpa) (by rw [hle]; exact hc) (by rw [hpa', getPageRef_run]) hc1)
        (le_refl 0), hle, hwp]
      rfl
    · by_cases hv : v < MAXVA
      · rw [ht₁.translate_leaf hk hv, ht.translate_leaf hk hv, leafPte_store ht hva h0 hcl hv]
        split_ifs with hd
        · rw [leafTarget_cowClear he, leafPte_of_same_page hd]
        · rfl
      · rw [translate_of_ge (Nat.not_lt.mp hv), translate_of_ge (Nat.not_lt.mp hv)]
    · rw [leafPte_store ht hva h0 hcl hv, if_neg hd]
    · have h1 := pteAddr_add_le p0 0 va0
      have h2 := hx p0 (isTable_of_l0 hva h0)
      exact writeLE_of_outside (by unfold pteAddr at *; omega)

section CowCopy

variable {s : KState} {L : Fin NCPU → List Nat} {id : Fin NCPU} {va0 p0 pa : Nat}

/-- `mappages` of one page whose leaf is clear, on a path whose level-0 page exists: the
leaf is written, and nothing is allocated. -/
theorem mappages_run_cleared (id : Fin NCPU) (r perm : Nat) (hk : Layout s.kend)
    (ht : PTree s.mem s.kend pagetable)
    (hva : va0 < MAXVA) (hal : va0 % PGSIZE = 0) (h0 : l0Page s.mem pagetable va0 = some p0)
    (hz : leafPte s.mem pagetable va0 = 0) :
    (mappages id pagetable va0 PGSIZE r perm).run s =
      .ok (0, { s with mem := write64 s.mem (pteAddr p0 0 va0) (mapPte r perm) }) := by
  have hwp : walkPte s.mem pagetable va0 = pteAddr p0 0 va0 := by rw [walkPte_eq, h0]
  have hw0 : walkPte s.mem pagetable va0 ≠ 0 := by
    have := (ht.managed p0 (isTable_of_l0 hva h0)).ne_zero hk
    rw [hwp]
    unfold pteAddr
    omega
  have hv : hasFlag (read64 s.mem (pteAddr p0 0 va0)) PTE_V = false := by
    rw [← leafPte_of_l0 h0, hz]
    rfl
  rw [mappages_page hal hva, StateT.run_bind, mappagesPage_run (walk_run_of_walkPte hva hw0), hwp,
    if_neg (hwp ▸ hw0), hv, Bool.false_and, if_neg Bool.false_ne_true, ok_bind]
  rfl

variable (h : PTInv s L pagetable)
include h

/-- `kalloc` from a CPU whose list starts with `r`, and the page `pa` copied into `r`: `r`
leaves the lists and holds `pa`'s bytes, and no byte outside the free pages changes. -/
theorem PTInv.kalloc_copy {r : Nat} {rest : List Nat} (hL : L id = r :: rest)
    (hm : Managed s.kend pa) (hpaL : ¬ Mem L pa) :
    ∃ L₁ s₂, (Xv6.kalloc id).run s = .ok (r, (s.popFree id).addRef r 1) ∧
      { (s.popFree id).addRef r 1 with
        mem := copy ((s.popFree id).addRef r 1).mem r pa PGSIZE } = s₂ ∧
      PTInv s₂ L₁ pagetable ∧ (∀ q, Mem L₁ q ↔ Mem L q ∧ q ≠ r) ∧ s₂.kend = s.kend ∧
      (s₂.kmems id).size + 1 = (s.kmems id).size ∧ s₂.refCount pa = s.refCount pa ∧
      AgreeOn s.mem s₂.mem (IsTable s.mem pagetable) ∧
      (∀ i < PGSIZE, s₂.mem (r + i) = s.mem (pa + i)) ∧
      ∀ x, OutsideFree L x → s₂.mem x = s.mem x := by
  have hr := h.alloc.head_eq hL
  have hrL : Mem L r := ⟨id, by rw [hL]; exact List.mem_cons_self⟩
  have hrm : Managed s.kend r := h.alloc.managed id r (by rw [hL]; exact List.mem_cons_self)
  have hr0 : (s.kmems id).freelist ≠ 0 := by rw [hr]; exact hrm.ne_zero h.alloc.layout
  have hsz : (s.kmems id).size ≠ 0 := by
    rw [h.alloc.size id, hL, List.length_cons]
    omega
  have hk : (Xv6.kalloc id).run s = .ok (r, (s.popFree id).addRef r 1) := by
    have hb := h.alloc.head_bounds id hr0
    rw [kalloc_run_head hsz hr0 hb.1 hb.2, hr]
  obtain ⟨L₁, h₁, hmem₁, -, hag₁, -⟩ := h.kalloc hk
  obtain ⟨-, hfr₁⟩ := h.alloc.kalloc_frame hk
  -- `r` was free, so it is no page of the tree; `pa` is in use, so it is not `r`
  have hnt : ¬ IsTable s.mem pagetable r := fun ht => h.notFree r ht hrL
  have hne : pa ≠ r := fun he => hpaL (he ▸ hrL)
  have hag₂ : AgreeOn ((s.popFree id).addRef r 1).mem
      (copy ((s.popFree id).addRef r 1).mem r pa PGSIZE) (IsTable s.mem pagetable) :=
    agreeOn_copy fun q hq => sep_of_ne hrm.1 (h.tree.aligned hq) fun he => hnt (he ▸ hq)
  refine ⟨L₁, _, hk, rfl, h₁.of_inPage hrm.1 (fun hm => ((hmem₁ r).mp hm).2 rfl)
    (fun ht => hnt ((isTable_of_agree hag₁ r).mp ht)) fun x hx => copy_of_outside hx, hmem₁, rfl,
    ?_, ?_, hag₁.trans hag₂, fun i hi => ?_, fun x hx => ?_⟩
  · show ((s.popFree id).kmems id).size + 1 = _
    rw [KState.popFree_kmems, Function.update_self]
    dsimp only
    omega
  · show ((s.popFree id).addRef r 1).refCount pa = _
    rw [KState.refCount_addRef (s := s.popFree id) hm hrm, if_neg hne]
    rfl
  · show copy _ r pa PGSIZE (r + i) = _
    rw [copy_apply_add _ hi]
    exact hfr₁ _ (h.alloc.toListsWF.outsideFree hm.1 hpaL (Nat.le_add_right pa i) (by omega))
  · show copy _ r pa PGSIZE x = _
    rw [copy_of_outside (by have := hx r hrL; omega)]
    exact hfr₁ x hx

variable (hva : va0 < MAXVA) (hal : va0 % PGSIZE = 0) (h0 : l0Page s.mem pagetable va0 = some p0)
include hva hal h0

/-- `uvmunmap` with `do_free` of one page whose frame other page tables still hold: the
frame loses a reference and the leaf is cleared. -/
theorem PTInv.uvmunmap_shared (id : Fin NCPU) (hv : hasFlag (leafPte s.mem pagetable va0) PTE_V)
    (hpa : PTE2PA (leafPte s.mem pagetable va0) = pa) (hm : Managed s.kend pa)
    (hc1 : 1 < s.refCount pa) :
    ∃ s₃, (uvmunmap id pagetable va0 1 true).run s = .ok ((), s₃) ∧ PTInv s₃ L pagetable ∧
      s₃.kend = s.kend ∧ s₃.kmems = s.kmems ∧ s₃.mem = write64 s.mem (pteAddr p0 0 va0) 0 := by
  have hwp : walkPte s.mem pagetable va0 = pteAddr p0 0 va0 := by rw [walkPte_eq, h0]
  have hw0 : pteAddr p0 0 va0 ≠ 0 := by
    have := (h.tree.managed p0 (isTable_of_l0 hva h0)).ne_zero h.alloc.layout
    unfold pteAddr
    omega
  have hle : read64 s.mem (pteAddr p0 0 va0) = leafPte s.mem pagetable va0 := (leafPte_of_l0 h0).symm
  have hkf : (kfree id pa).run s = .ok ((), s.addRef pa (-1)) := by
    rw [kfree_run, if_neg ((managed_iff_kfree_ok h.alloc.layout).mp hm), h.alloc.running,
      if_neg Bool.false_ne_true, if_pos hc1]
  have hp : (uvmunmapPage id pagetable true va0).run s =
      .ok ((), { s.addRef pa (-1) with mem := write64 s.mem (pteAddr p0 0 va0) 0 }) := by
    rw [uvmunmapPage_run hva, hwp, if_neg hw0, hle, hv, if_neg (by decide),
      if_neg (h.tree.leaf va0 hva hv), if_pos rfl, hpa, hkf, ok_bind]
    rfl
  have hlt : va0 + 1 * PGSIZE < 2 ^ 64 := by
    unfold MAXVA PGSIZE at *
    omega
  have hd : PTInv (s.addRef pa (-1)) L pagetable := ⟨h.alloc.dropRef hm hc1, h.tree, h.notFree⟩
  exact ⟨_, by rw [uvmunmap_run_loop hal hlt, uvmunmapLoop_run_succ hp]; rfl,
    hd.store hva h0 (by decide) fun h => absurd h (by decide), rfl, rfl, rfl⟩

/-- The copy branch of `cow_pagefault_handler` at a shared copy-on-write page `va0`, with
`r` at the head of this CPU's list: `va0`'s bytes are copied into `r`, the old frame loses a
reference, and `va0` maps `r`, writable and no longer copy-on-write. In memory only `r` and
the leaf change. -/
theorem PTInv.cowCopy {r : Nat} {rest : List Nat} (hL : L id = r :: rest)
    (htr : leafTarget (leafPte s.mem pagetable va0) = some pa)
    (hc : hasFlag (leafPte s.mem pagetable va0) PTE_COW) (hm : Managed s.kend pa)
    (hc1 : 1 < s.refCount pa) :
    ∃ s₁ L₁, (cowPagefaultHandler id pagetable va0).run s = .ok (0, s₁) ∧
      PTInv s₁ L₁ pagetable ∧ s₁.kend = s.kend ∧ (s₁.kmems id).size + 1 = (s.kmems id).size ∧
      (∀ q, Mem L₁ q ↔ Mem L q ∧ q ≠ r) ∧ translate s₁.mem pagetable va0 = some r ∧
      hasFlag (leafPte s₁.mem pagetable va0) PTE_W ∧
      (∀ v < MAXVA, PGROUNDDOWN v ≠ va0 → leafPte s₁.mem pagetable v = leafPte s.mem pagetable v) ∧
      (∀ q, IsTable s₁.mem pagetable q ↔ IsTable s.mem pagetable q) ∧
      (∀ i < PGSIZE, s₁.mem (r + i) = s.mem (pa + i)) ∧
      ∀ x, (∀ q, IsTable s.mem pagetable q → x < q ∨ q + PGSIZE ≤ x) → OutsideFree L x →
        s₁.mem x = s.mem x := by
  obtain ⟨hv, hU, hpa⟩ := leafTarget_eq_some htr
  have hpaL : ¬ Mem L pa := fun hp => by
    have := (h.alloc.free pa hm).mp hp
    omega
  have hrL : Mem L r := ⟨id, by rw [hL]; exact List.mem_cons_self⟩
  have hrm : Managed s.kend r := h.alloc.managed id r (by rw [hL]; exact List.mem_cons_self)
  have hp0 : IsTable s.mem pagetable p0 := isTable_of_l0 hva h0
  obtain ⟨L₁, s₂, hk, hs₂, h₂, hmem₁, hkend₂, hsz₂, hc₂, hag₂, hbytes₂, hfr₂⟩ :=
    h.kalloc_copy hL hm hpaL
  have hleaf₂ : leafPte s₂.mem pagetable va0 = leafPte s.mem pagetable va0 :=
    leafPte_of_agree hag₂ hva
  have h0₂ := (l0Page_of_agree hag₂ hva).trans h0
  obtain ⟨s₃, hu, h₃, hkend₃, hkm₃, hmem₃⟩ := h₂.uvmunmap_shared hva hal h0₂ id
    (hleaf₂ ▸ hv) (hleaf₂ ▸ hpa) (hkend₂ ▸ hm) (hc₂ ▸ hc1)
  have h0₃ : l0Page s₃.mem pagetable va0 = some p0 := by
    rw [hmem₃]
    exact (l0Page_store h₂.tree hva h0₂ hva).trans h0₂
  have hz₃ : leafPte s₃.mem pagetable va0 = 0 := by
    rw [hmem₃, leafPte_store h₂.tree hva h0₂ (by decide) hva, if_pos rfl]
  have hperm := cowClear_flags_lt (leafPte s.mem pagetable va0)
  have hU' : hasFlag (cowClear (PTE_FLAGS (leafPte s.mem pagetable va0))) PTE_U :=
    (hasFlag_cowClear_flags (by decide) (by decide) (by decide)).trans hU
  have hmp := mappages_run_cleared id r (cowClear (PTE_FLAGS (leafPte s.mem pagetable va0)))
    h₃.alloc.layout h₃.tree hva hal
    h0₃ hz₃
  have hmap := mapPte_lt hperm hrm.lt
  have h₄ := h₃.store hva h0₃ hmap fun _ => mapPte_flags hperm hU'
  have hwp : walkPte s.mem pagetable va0 = pteAddr p0 0 va0 := by rw [walkPte_eq, h0]
  have hle : read64 s.mem (walkPte s.mem pagetable va0) = leafPte s.mem pagetable va0 := by
    rw [hwp, leafPte_of_l0 h0]
  have hw : walkPte s.mem pagetable va0 ≠ 0 := by
    have := (h.tree.managed p0 hp0).ne_zero h.alloc.layout
    rw [hwp]
    unfold pteAddr
    omega
  have hok := (managed_iff_kfree_ok h.alloc.layout).mp hm
  have hrun := cowPagefaultHandler_run_copy hva hw
    (by rw [hle, hpa]; exact hm.ne_zero h.alloc.layout) (by rw [hle]; exact hc) (c := s.refCount pa)
    (by rw [hle, hpa, getPageRef_run, if_neg (isPaValid_ne (by omega) (by omega))]) hc1 hk
    (hrm.ne_zero h.alloc.layout) (by rw [PGROUNDDOWN_of_mod hal, hle, hpa, hs₂]; exact hu)
    (by rw [PGROUNDDOWN_of_mod hal, hle]; exact hmp)
  have hpage : ∀ v, PGROUNDDOWN v ≠ va0 → PGROUNDDOWN v ≠ PGROUNDDOWN va0 := fun v hd => by
    rw [PGROUNDDOWN_of_mod hal]
    exact hd
  have hleaf₄ : leafPte (write64 s₃.mem (pteAddr p0 0 va0)
      (mapPte r (cowClear (PTE_FLAGS (leafPte s.mem pagetable va0))))) pagetable va0 =
      mapPte r (cowClear (PTE_FLAGS (leafPte s.mem pagetable va0))) := by
    rw [leafPte_store h₃.tree hva h0₃ hmap hva, if_pos rfl]
  refine ⟨_, L₁, hrun, h₄, hkend₃.trans hkend₂, ?_, hmem₁, ?_, ?_, fun v hv hd => ?_,
    fun q => ?_, fun i hi => ?_, fun x hx hfx => ?_⟩
  · show (s₃.kmems id).size + 1 = _
    rw [hkm₃]
    exact hsz₂
  · rw [h₄.tree.translate_leaf h₄.alloc.layout hva]
    show leafTarget (leafPte (write64 s₃.mem (pteAddr p0 0 va0) _) pagetable va0) = _
    rw [hleaf₄]
    exact leafTarget_mapPte hperm hrm.1 hrm.lt hU'
  · show hasFlag (leafPte (write64 s₃.mem (pteAddr p0 0 va0) _) pagetable va0) PTE_W
    rw [hleaf₄]
    exact hasFlag_mapPte_W hasFlag_cowClear_W
  · show leafPte (write64 s₃.mem (pteAddr p0 0 va0) _) pagetable v = _
    rw [leafPte_store h₃.tree hva h0₃ hmap hv, if_neg (hpage v hd), hmem₃,
      leafPte_store h₂.tree hva h0₂ (by decide) hv, if_neg (hpage v hd), leafPte_of_agree hag₂ hv]
  · show IsTable (write64 s₃.mem (pteAddr p0 0 va0) _) pagetable q ↔ _
    rw [isTable_store h₃.tree hva h0₃, hmem₃, isTable_store h₂.tree hva h0₂, isTable_of_agree hag₂]
  · -- `r` was free, so it is no page of the tree
    have hout := sep_of_ne hrm.1 (h.tree.aligned hp0) fun he => h.notFree r (he ▸ hp0) hrL
    have hx : r + i < p0 ∨ p0 + PGSIZE ≤ r + i := by omega
    show write64 s₃.mem (pteAddr p0 0 va0) _ (r + i) = _
    rw [write64_pteAddr_of_outside hx, hmem₃, write64_pteAddr_of_outside hx]
    exact hbytes₂ i hi
  · have hx₀ := hx p0 hp0
    show write64 s₃.mem (pteAddr p0 0 va0) _ x = _
    rw [write64_pteAddr_of_outside hx₀, hmem₃, write64_pteAddr_of_outside hx₀]
    exact hfr₂ x hfx

end CowCopy

/-- The byte at `x` in the frame `pa` lies outside every other frame. -/
theorem outside_of_frame {pa q x : Nat} (hpa : pa % PGSIZE = 0) (hq : q % PGSIZE = 0)
    (hne : pa ≠ q) (h1 : pa ≤ x) (h2 : x < pa + PGSIZE) : x < q ∨ q + PGSIZE ≤ x := by
  have := sep_of_ne hpa hq hne
  omega

/-- The frame a page maps after `copyout` prepared it, its old frame or a page taken from the
free lists, is no page of the tree. -/
theorem PTInv.not_table_of_taken {s : KState} {L : Fin NCPU → List Nat} {m : Memory} {pa pa₁ : Nat}
    (h : PTInv s L pagetable) (htab : ∀ q, IsTable m pagetable q ↔ IsTable s.mem pagetable q)
    (hnt : ¬ IsTable s.mem pagetable pa) (hpa₁ : pa₁ = pa ∨ Mem L pa₁) :
    ¬ IsTable m pagetable pa₁ := by
  rw [htab]
  rcases hpa₁ with rfl | hm
  · exact hnt
  · exact fun ht => h.notFree _ ht hm

/-- `copyout`'s preparation of a mapped page `va0` outside the tree and the free lists, with a
page on this CPU's list: afterwards `va0` maps the frame it mapped, or, for a shared
copy-on-write page, a page taken from the lists, and that frame holds the old frame's bytes.
In memory only the leaf and a taken page change. -/
theorem PTInv.copyoutPrepare (id : Fin NCPU) (p : UProc) {s : KState} {L : Fin NCPU → List Nat}
    {va0 pa : Nat} (h : PTInv s L pagetable) (htr : translate s.mem pagetable va0 = some pa)
    (hal : va0 % PGSIZE = 0) (hpa : pa ≠ 0) (hnt : ¬ IsTable s.mem pagetable pa)
    (hnf : ¬ Mem L pa) (hcow : hasFlag (leafPte s.mem pagetable va0) PTE_COW → Managed s.kend pa)
    (hsz : (s.kmems id).size ≠ 0) :
    ∃ s₁ L₁ pa₁, (Xv6.copyoutPrepare id p pagetable va0).run s = .ok (true, s₁) ∧
      PTInv s₁ L₁ pagetable ∧ s₁.kend = s.kend ∧ (s.kmems id).size ≤ (s₁.kmems id).size + 1 ∧
      (∀ q, Mem L₁ q ↔ Mem L q ∧ q ≠ pa₁) ∧ (pa₁ = pa ∨ Mem L pa₁) ∧
      translate s₁.mem pagetable va0 = some pa₁ ∧
      (∀ v < MAXVA, PGROUNDDOWN v ≠ va0 → leafPte s₁.mem pagetable v = leafPte s.mem pagetable v) ∧
      (∀ q, IsTable s₁.mem pagetable q ↔ IsTable s.mem pagetable q) ∧
      (∀ i < PGSIZE, s₁.mem (pa₁ + i) = s.mem (pa + i)) ∧
      ∀ x, (∀ q, IsTable s.mem pagetable q → x < q ∨ q + PGSIZE ≤ x) → OutsideFree L x →
        s₁.mem x = s.mem x := by
  have hva := translate_lt htr
  have htr' := htr
  rw [h.tree.translate_leaf h.alloc.layout hva] at htr'
  by_cases hshared : hasFlag (leafPte s.mem pagetable va0) PTE_COW ∧ 1 < s.refCount pa
  · -- shared copy-on-write: the handler copies the page into the head of this CPU's list
    obtain ⟨p0, h0⟩ : ∃ p0, l0Page s.mem pagetable va0 = some p0 := by
      cases h0 : l0Page s.mem pagetable va0 with
      | none =>
        rw [leafPte_of_l0_none h0, leafTarget_zero] at htr'
        cases htr'
      | some p0 => exact ⟨p0, rfl⟩
    obtain ⟨r, rest, hL⟩ : ∃ r rest, L id = r :: rest :=
      List.exists_cons_of_ne_nil fun he => hsz (by rw [h.alloc.size id, he]; rfl)
    obtain ⟨s₁, L₁, hrun, h₁, hkend, hsz₁, hmem, htr₁, -, hleaf, htab, hbytes, hfr⟩ :=
      h.cowCopy hva hal h0 hL htr' hshared.1 (hcow hshared.1) hshared.2
    exact ⟨s₁, L₁, r, copyoutPrepare_run_of_cow hrun (le_refl 0), h₁, hkend, by omega, hmem,
      .inr ⟨id, by rw [hL]; exact List.mem_cons_self⟩, htr₁, hleaf, htab, hbytes, hfr⟩
  · -- otherwise the page stays where it is
    obtain ⟨m₁, hprep, ht₁, htr₁, hleaf₁, htab₁, hfr₁⟩ := h.tree.copyoutPrepare id p h.alloc.layout
      htr hpa fun hc => Int.not_lt.mp fun hlt => hshared ⟨hc, hlt⟩
    have hag : AgreeOn s.mem m₁ (Mem L) := fun q hq x h1 h2 => hfr₁ x fun q' hq' => by
      obtain ⟨hq0, hne⟩ := h.free_sep hq' q hq
      have := sep_of_ne hq0 (h.tree.aligned hq') hne
      omega
    refine ⟨{ s with mem := m₁ }, L, pa, hprep, ⟨h.alloc.of_agree hag rfl rfl rfl rfl, ht₁,
      fun q hq => h.notFree q ((htab₁ q).mp hq)⟩, rfl,
      by show (s.kmems id).size ≤ (s.kmems id).size + 1; omega,
      fun q => ⟨fun hq => ⟨hq, fun he => hnf (he ▸ hq)⟩, fun hq => hq.1⟩, .inl rfl,
      (htr₁ va0).trans htr,
      fun v hv hd => hleaf₁ v hv (by rw [PGROUNDDOWN_of_mod hal]; exact hd), htab₁,
      fun i hi => hfr₁ _ fun q hq => ?_, fun x hx _ => hfr₁ x hx⟩
    have := sep_of_ne (translate_mod htr) (h.tree.aligned hq) (ne_of_not_isTable hnt hq)
    omega

/-- The first pass of `copyout` from `dstva`: `dstva`'s page is prepared, and the `n` bytes
that fit in it are written into its frame `pa₁` at `dstva`'s offset; the loop goes on from
the next page. -/
theorem PTInv.copyoutPass (id : Fin NCPU) (p : UProc) {s : KState} {L : Fin NCPU → List Nat}
    {dstva src len n pa : Nat} (h : PTInv s L pagetable) (hlen : len ≠ 0)
    (hn : min (PGSIZE - (dstva - PGROUNDDOWN dstva)) len = n)
    (htr : translate s.mem pagetable (PGROUNDDOWN dstva) = some pa) (hpa : pa ≠ 0)
    (hnt : ¬ IsTable s.mem pagetable pa) (hnf : ¬ Mem L pa)
    (hcow : hasFlag (leafPte s.mem pagetable dstva) PTE_COW → Managed s.kend pa)
    (hsz : (s.kmems id).size ≠ 0) (hsrc : ∀ q, IsTable s.mem pagetable q → Apart src len q)
    (hfree : ∀ q, Mem L q → Apart src len q) :
    ∃ s₂ L₁ pa₁, (copyout id p pagetable dstva src len).run s =
        (copyout id p pagetable (PGROUNDDOWN dstva + PGSIZE) (src + n) (len - n)).run s₂ ∧
      PTInv s₂ L₁ pagetable ∧ s₂.kend = s.kend ∧ (s.kmems id).size ≤ (s₂.kmems id).size + 1 ∧
      (∀ q, Mem L₁ q ↔ Mem L q ∧ q ≠ pa₁) ∧ (pa₁ = pa ∨ Mem L pa₁) ∧
      translate s₂.mem pagetable (PGROUNDDOWN dstva) = some pa₁ ∧
      (∀ v < MAXVA, PGROUNDDOWN v ≠ PGROUNDDOWN dstva →
        leafPte s₂.mem pagetable v = leafPte s.mem pagetable v) ∧
      (∀ q, IsTable s₂.mem pagetable q ↔ IsTable s.mem pagetable q) ∧
      (∀ k < n, s₂.mem (pa₁ + (dstva - PGROUNDDOWN dstva) + k) = s.mem (src + k)) ∧
      (∀ i < PGSIZE, i < dstva - PGROUNDDOWN dstva ∨ dstva - PGROUNDDOWN dstva + n ≤ i →
        s₂.mem (pa₁ + i) = s.mem (pa + i)) ∧
      ∀ x, (∀ q, IsTable s.mem pagetable q → x < q ∨ q + PGSIZE ≤ x) → OutsideFree L x →
        x < pa₁ ∨ pa₁ + PGSIZE ≤ x → s₂.mem x = s.mem x := by
  have hva : PGROUNDDOWN dstva < MAXVA := translate_lt htr
  obtain ⟨s₁, L₁, pa₁, hprep, h₁, hkend, hsz₁, hmem, hpa₁, htr₁, hleaf, htab, hbytes, hfr⟩ :=
    h.copyoutPrepare id p htr (PGROUNDDOWN_mod dstva) hpa hnt hnf
      (by rw [leafPte_PGROUNDDOWN]; exact hcow) hsz
  have hnf₁ : ¬ Mem L₁ pa₁ := fun hm => ((hmem pa₁).mp hm).2 rfl
  have hnt₁ : ¬ IsTable s₁.mem pagetable pa₁ := h.not_table_of_taken htab hnt hpa₁
  have hpa₁0 : pa₁ ≠ 0 := by
    rcases hpa₁ with rfl | ⟨i, hm⟩
    · exact hpa
    · exact (h.alloc.managed i pa₁ hm).ne_zero h.alloc.layout
  have hal₁ := translate_mod htr₁
  have hoff := lt_PGROUNDDOWN_add dstva
  have hoff' := PGROUNDDOWN_le dstva
  have hnP : n ≤ PGSIZE - (dstva - PGROUNDDOWN dstva) := hn ▸ Nat.min_le_left _ _
  have hnl : n ≤ len := hn ▸ Nat.min_le_right _ _
  have hag : AgreeOn s₁.mem (copy s₁.mem (pa₁ + (dstva - PGROUNDDOWN dstva)) src n)
      (IsTable s₁.mem pagetable) := agreeOn_copy fun q hq => by
    have := sep_of_ne hal₁ (h₁.tree.aligned hq) (ne_of_not_isTable hnt₁ hq)
    omega
  have hsrc₁ : ∀ k < len, s₁.mem (src + k) = s.mem (src + k) := fun k hk =>
    hfr _ (fun q hq => by have := hsrc q hq; unfold Apart at this; omega)
      fun q hq => by have := hfree q hq; unfold Apart at this; omega
  refine ⟨_, L₁, pa₁, ?_, h₁.of_inPage hal₁ hnf₁ hnt₁ fun x hx => copy_of_outside (by omega),
    hkend, hsz₁, hmem, hpa₁, (translate_of_agree hag _).trans htr₁,
    fun v hv hd => (leafPte_of_agree hag hv).trans (hleaf v hv hd),
    fun q => (isTable_of_agree hag q).trans (htab q), fun k hk => ?_, fun i hi hout => ?_,
    fun x hx hfx hpx => ?_⟩
  · rw [copyout_run_step hlen hva hprep htr₁ hpa₁0, hn]
  · show copy s₁.mem (pa₁ + (dstva - PGROUNDDOWN dstva)) src n _ = _
    rw [copy_apply_add _ hk]
    exact hsrc₁ k (by omega)
  · show copy s₁.mem (pa₁ + (dstva - PGROUNDDOWN dstva)) src n _ = _
    rw [copy_of_outside (by omega)]
    exact hbytes i hi
  · show copy s₁.mem (pa₁ + (dstva - PGROUNDDOWN dstva)) src n _ = _
    rw [copy_of_outside (by omega)]
    exact hfr x hx hfx

/-- `copyout` to a range whose pages are all mapped, each to its own frame outside the tree and
the free lists, a copy-on-write frame being one `kfree` accepts, from a kernel buffer outside
those frames, the tree's pages and the free pages, with a page on this CPU's list for every
page of the range. It returns 0 and keeps the invariant; every byte of the range reads the
buffer's byte and every other byte of the range's pages reads as before. A page of the range
maps its old frame or a page taken from the free lists, every other page keeps its
translation, and no byte outside the range's frames, the tree's pages and the free pages
changes. -/
theorem copyout_run_mapped (id : Fin NCPU) (p : UProc) (len dstva src : Nat) {s : KState}
    {L : Fin NCPU → List Nat} (h : PTInv s L pagetable)
    (hmap : ∀ k < len, ∃ pa, translate s.mem pagetable (PGROUNDDOWN (dstva + k)) = some pa ∧
      pa ≠ 0 ∧ ¬ IsTable s.mem pagetable pa ∧ ¬ Mem L pa ∧ Apart src len pa ∧
      (hasFlag (leafPte s.mem pagetable (dstva + k)) PTE_COW → Managed s.kend pa))
    (halias : ∀ i < len, ∀ j < len, translate s.mem pagetable (PGROUNDDOWN (dstva + i)) =
      translate s.mem pagetable (PGROUNDDOWN (dstva + j)) →
        PGROUNDDOWN (dstva + i) = PGROUNDDOWN (dstva + j))
    (hsrc : ∀ q, IsTable s.mem pagetable q → Apart src len q)
    (hfree : ∀ q, Mem L q → Apart src len q)
    (hpages : dstva % PGSIZE + len ≤ (s.kmems id).size * PGSIZE) :
    ∃ s' L', (copyout id p pagetable dstva src len).run s = .ok (0, s') ∧
      PTInv s' L' pagetable ∧ s'.kend = s.kend ∧ (∀ q, Mem L' q → Mem L q) ∧
      (∀ k < len, userByte s'.mem pagetable (dstva + k) = some (s.mem (src + k))) ∧
      (∀ v, (∃ k < len, PGROUNDDOWN v = PGROUNDDOWN (dstva + k)) → (∀ k < len, v ≠ dstva + k) →
        userByte s'.mem pagetable v = userByte s.mem pagetable v) ∧
      (∀ k < len, ∃ pa, translate s'.mem pagetable (PGROUNDDOWN (dstva + k)) = some pa ∧
        (translate s.mem pagetable (PGROUNDDOWN (dstva + k)) = some pa ∨
          Mem L pa ∧ ¬ Mem L' pa)) ∧
      (∀ v, (∀ k < len, PGROUNDDOWN v ≠ PGROUNDDOWN (dstva + k)) →
        translate s'.mem pagetable v = translate s.mem pagetable v) ∧
      (∀ q, IsTable s'.mem pagetable q ↔ IsTable s.mem pagetable q) ∧
      ∀ x, (∀ k < len, userAddr s.mem pagetable (dstva + k) ≠ some x) →
        (∀ q, IsTable s.mem pagetable q → x < q ∨ q + PGSIZE ≤ x) → OutsideFree L x →
          s'.mem x = s.mem x := by
  induction len using Nat.strong_induction_on generalizing s L dstva src with
  | _ len ih =>
  by_cases hlen : len = 0
  · subst hlen
    exact ⟨s, L, copyout_run_zero, h, rfl, fun _ hq => hq, fun k hk => absurd hk (Nat.not_lt_zero k),
      fun _ ⟨k, hk, _⟩ => absurd hk (Nat.not_lt_zero k), fun k hk => absurd hk (Nat.not_lt_zero k),
      fun _ _ => rfl, fun _ => Iff.rfl, fun _ _ _ _ => rfl⟩
  obtain ⟨pa0, ht0, hpa0, hnt0, hnf0, hap0, hcow0⟩ := hmap 0 (Nat.pos_of_ne_zero hlen)
  rw [Nat.add_zero] at ht0 hcow0
  have hsz : (s.kmems id).size ≠ 0 := by
    unfold PGSIZE at hpages
    omega
  have hpos := pass_pos dstva hlen
  have hoff := lt_PGROUNDDOWN_add dstva
  have hoff' := PGROUNDDOWN_le dstva
  generalize hn : min (PGSIZE - (dstva - PGROUNDDOWN dstva)) len = n at hpos
  have hnle : n ≤ len := hn ▸ Nat.min_le_right _ _
  have hnP : n ≤ PGSIZE - (dstva - PGROUNDDOWN dstva) := hn ▸ Nat.min_le_left _ _
  obtain ⟨s₂, L₁, pa₁, hrun₁, h₂, hkend₂, hsz₂, hmem₁, hpa₁, htr₁, hleaf₁, htab₁, hbytes₁, hrest₁,
    hfr₁⟩ := h.copyoutPass id p hlen hn ht0 hpa0 hnt0 hnf0 hcow0 hsz hsrc hfree
  have hfirst : ∀ k < n, PGROUNDDOWN (dstva + k) = PGROUNDDOWN dstva := fun k hk =>
    PGROUNDDOWN_of_pass (hn ▸ hk)
  have hlater : ∀ k, n ≤ k → k < len → PGROUNDDOWN (dstva + k) ≠ PGROUNDDOWN dstva :=
    fun k h1 h2 => PGROUNDDOWN_after_pass (hn ▸ h1) h2
  have hidx : ∀ k < len - n, PGROUNDDOWN dstva + PGSIZE + k = dstva + (n + k) := fun k hk => by
    have := pass_next dstva len (by omega)
    omega
  have htr₂ : ∀ v, PGROUNDDOWN v ≠ PGROUNDDOWN dstva →
      translate s₂.mem pagetable v = translate s.mem pagetable v := fun v hv =>
    h.tree.translate_congr h₂.tree h.alloc.layout h₂.alloc.layout fun hlt => hleaf₁ v hlt hv
  have htrL : ∀ k, n ≤ k → k < len → translate s₂.mem pagetable (PGROUNDDOWN (dstva + k)) =
      translate s.mem pagetable (PGROUNDDOWN (dstva + k)) := fun k h1 h2 =>
    htr₂ _ (by rw [PGROUNDDOWN_of_mod (PGROUNDDOWN_mod _)]; exact hlater k h1 h2)
  have hne₁ : ∀ k, n ≤ k → k < len → ∀ pa,
      translate s.mem pagetable (PGROUNDDOWN (dstva + k)) = some pa → pa ≠ pa₁ := by
    intro k h1 h2 pa htk he
    obtain ⟨pa', htk', -, -, hnfk, -⟩ := hmap k h2
    rw [htk] at htk'
    cases htk'
    rcases hpa₁ with rfl | hm
    · exact hlater k h1 h2 (by
        have := halias k h2 0 (Nat.pos_of_ne_zero hlen) (by rw [htk, Nat.add_zero, ht0, he])
        rwa [Nat.add_zero] at this)
    · exact hnfk (he ▸ hm)
  have hal₁ := translate_mod htr₁
  have hframe₂ : ∀ k, n ≤ k → k < len → ∀ pa,
      translate s.mem pagetable (PGROUNDDOWN (dstva + k)) = some pa →
      ∀ x, pa ≤ x → x < pa + PGSIZE → s₂.mem x = s.mem x := by
    intro k h1 h2 pa htk x hx1 hx2
    obtain ⟨pa', htk', -, hntk, hnfk, -⟩ := hmap k h2
    rw [htk] at htk'
    cases htk'
    have hal := translate_mod htk
    refine hfr₁ x (fun q hq => outside_of_frame hal (h.tree.aligned hq) (ne_of_not_isTable hntk hq)
      hx1 hx2) (h.alloc.toListsWF.outsideFree hal hnfk hx1 hx2)
      (outside_of_frame hal hal₁ (hne₁ k h1 h2 pa htk) hx1 hx2)
  obtain ⟨s', L', hrun', h', hkend', hsub', hbytes', hrest', hmap', htro', htab', hframe'⟩ :=
    ih (len - n) (by omega) (s := s₂) (L := L₁) (PGROUNDDOWN dstva + PGSIZE) (src + n) h₂
      (fun k hk => by
        obtain ⟨pa, htk, h0k, hntk, hnfk, hapk, hcowk⟩ := hmap (n + k) (by omega)
        have hd := hlater (n + k) (by omega) (by omega)
        have hleaf : leafPte s₂.mem pagetable (PGROUNDDOWN dstva + PGSIZE + k) =
            leafPte s.mem pagetable (dstva + (n + k)) := by
          rw [hidx k hk, ← leafPte_PGROUNDDOWN, ← leafPte_PGROUNDDOWN s.mem]
          exact hleaf₁ _ (translate_lt htk) (by rw [PGROUNDDOWN_of_mod (PGROUNDDOWN_mod _)]; exact hd)
        refine ⟨pa, by rw [hidx k hk, htrL (n + k) (by omega) (by omega)]; exact htk,
          h0k, fun ht => hntk ((htab₁ pa).mp ht), fun hm => hnfk ((hmem₁ pa).mp hm).1,
          hapk.mono (by omega) (by omega), fun hc => hkend₂ ▸ hcowk (hleaf ▸ hc)⟩)
      (fun i hi j hj hij => by
        rw [hidx i hi, hidx j hj] at hij ⊢
        rw [htrL _ (by omega) (by omega), htrL _ (by omega) (by omega)] at hij
        exact halias _ (by omega) _ (by omega) hij)
      (fun q hq => (hsrc q ((htab₁ q).mp hq)).mono (by omega) (by omega))
      (fun q hq => (hfree q ((hmem₁ q).mp hq).1).mono (by omega) (by omega))
      (by
        have := h₂.alloc.size id
        unfold PGROUNDDOWN PGSIZE at *
        omega)
  have hnf₁ : ¬ Mem L₁ pa₁ := fun hm => ((hmem₁ pa₁).mp hm).2 rfl
  have hnt₁ : ¬ IsTable s₂.mem pagetable pa₁ := h.not_table_of_taken htab₁ hnt0 hpa₁
  have hkeep : ∀ i < PGSIZE, s'.mem (pa₁ + i) = s₂.mem (pa₁ + i) := fun i hi =>
    hframe' _ (fun k hk hx => by
      obtain ⟨pa, htk, -⟩ := hmap (n + k) (by omega)
      rw [hidx k hk, userAddr_of_translate ((htrL (n + k) (by omega) (by omega)).trans htk),
        Option.some.injEq] at hx
      have h1 := PGROUNDDOWN_le (dstva + (n + k))
      have h2 := lt_PGROUNDDOWN_add (dstva + (n + k))
      have := outside_of_frame (x := pa + (dstva + (n + k) - PGROUNDDOWN (dstva + (n + k))))
        (translate_mod htk) hal₁ (hne₁ (n + k) (by omega) (by omega) pa htk) (by omega) (by omega)
      omega)
      (fun q hq => outside_of_frame hal₁ (h₂.tree.aligned hq) (ne_of_not_isTable hnt₁ hq)
        (by omega) (by omega))
      (h₂.alloc.toListsWF.outsideFree hal₁ hnf₁ (by omega) (by omega))
  have htr₁' : translate s'.mem pagetable (PGROUNDDOWN dstva) = some pa₁ :=
    (htro' _ fun k hk => by
      rw [hidx k hk, PGROUNDDOWN_of_mod (PGROUNDDOWN_mod _)]
      exact (hlater (n + k) (by omega) (by omega)).symm).trans htr₁
  have hsrc₂ : ∀ k < len, s₂.mem (src + k) = s.mem (src + k) := fun k hk => by
    have hap₁ : Apart src len pa₁ := by
      rcases hpa₁ with he | hm
      · exact he ▸ hap0
      · exact hfree pa₁ hm
    unfold Apart at hap₁
    exact hfr₁ _ (fun q hq => by have := hsrc q hq; unfold Apart at this; omega)
      (fun q hq => by have := hfree q hq; unfold Apart at this; omega) (by omega)
  refine ⟨s', L', by rw [hrun₁]; exact hrun', h', hkend'.trans hkend₂,
    fun q hq => ((hmem₁ q).mp (hsub' q hq)).1, fun k hk => ?_, fun v hv hnot => ?_,
    fun k hk => ?_, fun v hv => ?_, fun q => (htab' q).trans (htab₁ q), fun x hx htx hfx => ?_⟩
  · by_cases hkn : k < n
    · rw [userByte_of_pass htr₁' (hn ▸ hkn), Nat.add_assoc, hkeep _ (by omega), ← Nat.add_assoc,
        hbytes₁ k hkn]
    · have hb := hbytes' (k - n) (by omega)
      rw [hidx _ (by omega), show n + (k - n) = k by omega,
        show src + n + (k - n) = src + k by omega] at hb
      rw [hb, hsrc₂ k hk]
  · obtain ⟨k, hk, hvk⟩ := hv
    have hv1 := PGROUNDDOWN_le v
    have hv2 := lt_PGROUNDDOWN_add v
    by_cases hkn : k < n
    · -- on the first page, outside the bytes the first pass wrote
      rw [hfirst k hkn] at hvk
      have hout : v - PGROUNDDOWN v < dstva - PGROUNDDOWN dstva ∨
          dstva - PGROUNDDOWN dstva + n ≤ v - PGROUNDDOWN v := by
        by_contra hin
        exact hnot (v - dstva) (by omega) (by omega)
      rw [userByte_of_translate (by rw [hvk]; exact htr₁'), userByte_of_translate (by rw [hvk]; exact ht0),
        hkeep _ (by omega), hrest₁ _ (by omega) hout]
    · rw [hrest' v ⟨k - n, by omega, by rw [hidx _ (by omega), show n + (k - n) = k by omega]; exact hvk⟩
        fun k' hk' he => hnot (n + k') (by omega) (by rw [he, hidx k' hk'])]
      exact userByte_congr (by rw [hvk]; exact htrL k (by omega) hk)
        fun pa hpa => hframe₂ k (by omega) hk pa (hvk ▸ hpa)
  · by_cases hkn : k < n
    · refine ⟨pa₁, by rw [hfirst k hkn]; exact htr₁', ?_⟩
      rcases hpa₁ with he | hm
      · exact .inl (by rw [hfirst k hkn, he]; exact ht0)
      · exact .inr ⟨hm, fun hm' => hnf₁ (hsub' _ hm')⟩
    · obtain ⟨pa, htk, hor⟩ := hmap' (k - n) (by omega)
      rw [hidx _ (by omega), show n + (k - n) = k by omega] at htk hor
      refine ⟨pa, htk, ?_⟩
      rcases hor with hor | ⟨hm, hm'⟩
      · exact .inl ((htrL k (by omega) hk).symm.trans hor)
      · exact .inr ⟨((hmem₁ pa).mp hm).1, hm'⟩
  · rw [htro' v fun k hk => by rw [hidx k hk]; exact hv (n + k) (by omega)]
    exact htr₂ v (by have := hv 0 (Nat.pos_of_ne_zero hlen); rwa [Nat.add_zero] at this)
  · have hx₂ : s'.mem x = s₂.mem x := hframe' x (fun k hk he => hx (n + k) (by omega) (by
        rw [hidx k hk] at he
        unfold userAddr at he ⊢
        rwa [htrL (n + k) (by omega) (by omega)] at he))
      (fun q hq => htx q ((htab₁ q).mp hq)) fun q hq => hfx q ((hmem₁ q).mp hq).1
    rw [hx₂]
    by_cases hin : pa₁ ≤ x ∧ x < pa₁ + PGSIZE
    · rcases hpa₁ with he | hm
      · -- a byte of the first frame that no byte of the range names
        have hout : x - pa₁ < dstva - PGROUNDDOWN dstva ∨
            dstva - PGROUNDDOWN dstva + n ≤ x - pa₁ := by
          by_contra hw
          apply hx (x - pa₁ - (dstva - PGROUNDDOWN dstva)) (by omega)
          rw [userAddr_of_translate (by rw [hfirst _ (by omega)]; exact ht0), hfirst _ (by omega), ← he]
          congr 1
          omega
        have := hrest₁ (x - pa₁) (by omega) hout
        rwa [Nat.add_sub_cancel' hin.1, ← he, Nat.add_sub_cancel' hin.1] at this
      · exact absurd (hfx pa₁ hm) (by omega)
    · exact hfr₁ x htx hfx (by omega)

end Copyout

/-! ### `copyinstr` -/

section Copyinstr

variable {pagetable : Nat} {id : Fin NCPU}

/-- `copyinstr`'s inner loop over `n` bytes from `src` that it does not write: it reports a
NUL exactly when one is among them, and copies each byte up to and including the first. -/
theorem copyinstrCopy_spec {m m' : Memory} {src dst n : Nat} {found : Bool}
    (hd : dst + n ≤ src ∨ src + n ≤ dst) (h : copyinstrCopy m src dst n = (m', found)) :
    (∀ x, x < dst ∨ dst + n ≤ x → m' x = m x) ∧ (found = true ↔ ∃ j < n, m (src + j) = 0) ∧
      ∀ i < n, (∀ i' < i, m (src + i') ≠ 0) → m' (dst + i) = m (src + i) := by
  induction n generalizing m src dst with
  | zero =>
    cases h
    exact ⟨fun _ _ => rfl, by simp, fun i hi => absurd hi (Nat.not_lt_zero i)⟩
  | succ n ih =>
    rw [copyinstrCopy] at h
    by_cases hz : m src = 0
    · -- the NUL: it is copied and the loop stops
      rw [if_pos hz] at h
      cases h
      refine ⟨fun x hx => if_neg (by omega), ⟨fun _ => ⟨0, by omega, hz⟩, fun _ => rfl⟩,
        fun i _ hi => ?_⟩
      cases i with
      | zero => simp [hz]
      | succ i => exact absurd (Nat.add_zero src ▸ hz) (hi 0 (by omega))
    · -- a byte that is not NUL: copied, and the loop goes on one byte further
      rw [if_neg hz] at h
      have hread : ∀ j < n, setByte m dst (m src) (src + 1 + j) = m (src + 1 + j) :=
        fun j hj => if_neg (by omega)
      obtain ⟨hfr, hfound, hbytes⟩ := ih (by omega) h
      refine ⟨fun x hx => ?_, ?_, fun i hi hnz => ?_⟩
      · rw [hfr x (by omega)]
        exact if_neg (by omega)
      · rw [hfound]
        constructor
        · rintro ⟨j, hj, h0⟩
          exact ⟨j + 1, by omega, by rw [show src + (j + 1) = src + 1 + j by omega, ← hread j hj, h0]⟩
        · rintro ⟨j, hj, h0⟩
          cases j with
          | zero => exact absurd h0 hz
          | succ j =>
            refine ⟨j, by omega, ?_⟩
            rw [hread j (by omega), ← h0]
            congr 1
            omega
      · cases i with
        | zero =>
          rw [Nat.add_zero, Nat.add_zero, hfr dst (.inl (by omega))]
          exact if_pos rfl
        | succ i =>
          have hb := hbytes i (by omega) fun i' hi' => by
            rw [hread i' (by omega), show src + 1 + i' = src + (i' + 1) by omega]
            exact hnz (i' + 1) (by omega)
          rw [show dst + (i + 1) = dst + 1 + i by omega, hb, hread i (by omega)]
          congr 1
          omega

/-- The user string at `srcva` ends at byte `j`: that byte is a NUL, and every byte before it
is mapped and is not. -/
def StrEnd (m : Memory) (pagetable srcva j : Nat) : Prop :=
  userByte m pagetable (srcva + j) = some 0 ∧
    ∀ i < j, userByte m pagetable (srcva + i) ≠ none ∧ userByte m pagetable (srcva + i) ≠ some 0

instance (m : Memory) (pagetable srcva j : Nat) : Decidable (StrEnd m pagetable srcva j) :=
  inferInstanceAs (Decidable (_ ∧ ∀ i < j, _ ∧ _))

/-- Where a string ends depends only on the bytes up to its end. -/
theorem strEnd_congr {m m' : Memory} {srcva j : Nat}
    (h : ∀ i ≤ j, userByte m' pagetable (srcva + i) = userByte m pagetable (srcva + i)) :
    StrEnd m' pagetable srcva j ↔ StrEnd m pagetable srcva j := by
  unfold StrEnd
  rw [h j le_rfl]
  constructor
  · rintro ⟨h0, hlt⟩
    exact ⟨h0, fun i hi => h i hi.le ▸ hlt i hi⟩
  · rintro ⟨h0, hlt⟩
    exact ⟨h0, fun i hi => (h i hi.le).symm ▸ hlt i hi⟩

section Prefix

variable {m : Memory} {srcva n : Nat}
  (hpre : ∀ i < n, ∃ c, userByte m pagetable (srcva + i) = some c ∧ c ≠ 0)
include hpre

/-- Past `n` bytes that are mapped and not NUL, the string ends where its rest ends. -/
theorem strEnd_shift {j : Nat} : StrEnd m pagetable (srcva + n) j ↔ StrEnd m pagetable srcva (n + j) := by
  unfold StrEnd
  rw [Nat.add_assoc]
  constructor
  · rintro ⟨h0, hlt⟩
    refine ⟨h0, fun i hi => ?_⟩
    by_cases hin : i < n
    · obtain ⟨c, hc, hc0⟩ := hpre i hin
      rw [hc]
      exact ⟨Option.some_ne_none c, fun h => hc0 (Option.some.inj h)⟩
    · have := hlt (i - n) (by omega)
      rwa [Nat.add_assoc, show n + (i - n) = i by omega] at this
  · rintro ⟨h0, hlt⟩
    refine ⟨h0, fun i hi => ?_⟩
    rw [Nat.add_assoc]
    exact hlt (n + i) (by omega)

/-- A string whose first `n` bytes are not NUL ends at `n` or later. -/
theorem le_of_strEnd {j : Nat} (h : StrEnd m pagetable srcva j) : n ≤ j := by
  by_contra hj
  obtain ⟨c, hc, hc0⟩ := hpre j (by omega)
  rw [h.1] at hc
  exact hc0 (Option.some.inj hc).symm

end Prefix

/-- `copyinstr` of at most `max` bytes from `srcva` into a kernel buffer outside the
page-table pages and the frames it reads: it returns 0 exactly when the string at `srcva`
ends within `max` bytes, and -1 otherwise; the buffer then holds the string's bytes up to and
including its NUL, and nothing outside the buffer changes. -/
theorem copyinstr_run_mapped (max dst srcva : Nat) {s : KState}
    (hmap : ∀ k < max, ∀ pa, translate s.mem pagetable (PGROUNDDOWN (srcva + k)) = some pa →
      pa ≠ 0 ∧ Apart dst max pa)
    (htab : ∀ q, IsTable s.mem pagetable q → Apart dst max q) :
    ∃ m', (copyinstr id pagetable dst srcva max).run s =
        .ok (if ∃ j < max, StrEnd s.mem pagetable srcva j then 0 else -1, { s with mem := m' }) ∧
      (∀ j < max, StrEnd s.mem pagetable srcva j → ∀ i ≤ j,
        userByte s.mem pagetable (srcva + i) = some (m' (dst + i))) ∧
      ∀ x, x < dst ∨ dst + max ≤ x → m' x = s.mem x := by
  induction max using Nat.strong_induction_on generalizing s dst srcva with
  | _ max ih =>
  by_cases hmax : max = 0
  · subst hmax
    refine ⟨s.mem, ?_, fun j hj => absurd hj (Nat.not_lt_zero j), fun _ _ => rfl⟩
    have hno : ¬ ∃ j < 0, StrEnd s.mem pagetable srcva j := by
      rintro ⟨j, hj, -⟩
      exact Nat.not_lt_zero j hj
    rw [if_neg hno, copyinstr, dif_pos rfl]
    rfl
  cases ht0 : translate s.mem pagetable (PGROUNDDOWN srcva) with
  | none =>
    have hnone : userByte s.mem pagetable srcva = none := by
      unfold userByte
      rw [ht0]
      rfl
    have hno : ¬ ∃ j < max, StrEnd s.mem pagetable srcva j := by
      rintro ⟨j, -, h0, hlt⟩
      cases j with
      | zero =>
        rw [Nat.add_zero, hnone] at h0
        cases h0
      | succ j => exact (hlt 0 (Nat.succ_pos j)).1 (by rw [Nat.add_zero]; exact hnone)
    refine ⟨s.mem, ?_, fun j hj hs => absurd ⟨j, hj, hs⟩ hno, fun _ _ => rfl⟩
    rw [copyinstr_run_unmapped hmax ht0, if_neg hno]
  | some pa0 =>
  obtain ⟨hpa0, hap0⟩ := hmap 0 (Nat.pos_of_ne_zero hmax) pa0 (by rw [Nat.add_zero]; exact ht0)
  have hpos := pass_pos srcva hmax
  have hbyte : ∀ k < min (PGSIZE - (srcva - PGROUNDDOWN srcva)) max,
      userByte s.mem pagetable (srcva + k) =
        some (s.mem (pa0 + (srcva - PGROUNDDOWN srcva) + k)) := fun k hk =>
    userByte_of_pass ht0 hk
  have hnP := Nat.min_le_left (PGSIZE - (srcva - PGROUNDDOWN srcva)) max
  generalize hn : min (PGSIZE - (srcva - PGROUNDDOWN srcva)) max = n at hpos hbyte hnP
  have hnle : n ≤ max := hn ▸ Nat.min_le_right _ _
  rcases hr : copyinstrCopy s.mem (pa0 + (srcva - PGROUNDDOWN srcva)) dst n with ⟨m₁, found⟩
  obtain ⟨hfr₁, hfound, hcopied⟩ := copyinstrCopy_spec (by unfold Apart at hap0; omega) hr
  rw [← hn] at hr
  rw [copyinstr_run_step hmax ht0 hpa0 hr, hn]
  cases found with
  | true =>
    have hex := hfound.mp rfl
    obtain ⟨hj₀, hz₀⟩ := Nat.find_spec hex
    have hend : StrEnd s.mem pagetable srcva (Nat.find hex) := by
      refine ⟨by rw [hbyte _ hj₀, hz₀], fun i hi => ?_⟩
      have hi0 : s.mem (pa0 + (srcva - PGROUNDDOWN srcva) + i) ≠ 0 :=
        fun h0 => Nat.find_min hex hi ⟨by omega, h0⟩
      rw [hbyte i (by omega)]
      exact ⟨Option.some_ne_none _, fun h => hi0 (Option.some.inj h)⟩
    refine ⟨m₁, ?_, fun j hj hs i hi => ?_, fun x hx => hfr₁ x (by omega)⟩
    · rw [if_pos rfl, if_pos ⟨_, by omega, hend⟩]
    -- any string end is at or before that NUL, so in this page, and copied
    have hjn : j < n := by
      by_contra hge
      have := (hs.2 (Nat.find hex) (by omega)).2
      rw [hbyte _ hj₀, hz₀] at this
      exact this rfl
    rw [hbyte i (by omega), hcopied i (by omega) fun i' hi' h0 => ?_]
    have := (hs.2 i' (by omega)).2
    rw [hbyte i' (by omega), h0] at this
    exact this rfl
  | false =>
    have hnz : ∀ k < n, s.mem (pa0 + (srcva - PGROUNDDOWN srcva) + k) ≠ 0 :=
      fun k hk h0 => Bool.false_ne_true (hfound.mpr ⟨k, hk, h0⟩)
    have hpre : ∀ i < n, ∃ c, userByte s.mem pagetable (srcva + i) = some c ∧ c ≠ 0 :=
      fun i hi => ⟨_, hbyte i hi, hnz i hi⟩
    have hag : AgreeOn s.mem m₁ (IsTable s.mem pagetable) := fun q hq x h1 h2 =>
      hfr₁ x (by have := htab q hq; unfold Apart at this; omega)
    have hub : ∀ k < max, userByte m₁ pagetable (srcva + k) = userByte s.mem pagetable (srcva + k) :=
      fun k hk => userByte_congr (translate_of_agree hag _) fun pa ht x h1 h2 =>
        hfr₁ x (by have := (hmap k hk pa ht).2; unfold Apart at this; omega)
    have hshift : ∀ j, n + j < max → (StrEnd m₁ pagetable (PGROUNDDOWN srcva + PGSIZE) j ↔
        StrEnd s.mem pagetable srcva (n + j)) := fun j hj => by
      have hnext := pass_next srcva max (by omega)
      rw [hn] at hnext
      rw [← hnext]
      refine (strEnd_congr fun i hi => ?_).trans (strEnd_shift hpre)
      rw [Nat.add_assoc]
      exact hub (n + i) (by omega)
    have hiff : (∃ j < max - n, StrEnd m₁ pagetable (PGROUNDDOWN srcva + PGSIZE) j) ↔
        ∃ j < max, StrEnd s.mem pagetable srcva j := by
      constructor
      · rintro ⟨j, hj, hs⟩
        exact ⟨n + j, by omega, (hshift j (by omega)).mp hs⟩
      · rintro ⟨j, hj, hs⟩
        have hnj := le_of_strEnd hpre hs
        refine ⟨j - n, by omega, (hshift (j - n) (by omega)).mpr ?_⟩
        rwa [show n + (j - n) = j by omega]
    obtain ⟨m', hrun, hbytes, hfr⟩ := ih (max - n) (by omega) (dst + n)
      (PGROUNDDOWN srcva + PGSIZE) (s := { s with mem := m₁ })
      (fun k hk pa ht => by
        have hnext := pass_next srcva max (by omega)
        rw [hn] at hnext
        rw [translate_of_agree hag, show PGROUNDDOWN srcva + PGSIZE + k = srcva + (n + k) by omega]
          at ht
        obtain ⟨h0, hap⟩ := hmap (n + k) (by omega) pa ht
        exact ⟨h0, hap.mono (by omega) (by omega)⟩)
      (fun q hq => (htab q ((isTable_of_agree hag q).mp hq)).mono (by omega) (by omega))
    refine ⟨m', ?_, fun j hj hs i hi => ?_, fun x hx => ?_⟩
    · rw [if_neg Bool.false_ne_true, hrun]
      by_cases hc : ∃ j < max, StrEnd s.mem pagetable srcva j
      · rw [if_pos (hiff.mpr hc), if_pos hc]
      · rw [if_neg (mt hiff.mp hc), if_neg hc]
    have hnj := le_of_strEnd hpre hs
    by_cases hin : i < n
    · -- a byte of this pass, which the later passes leave alone
      rw [hfr (dst + i) (.inl (by omega)), hbyte i hin]
      exact congrArg some (hcopied i hin fun i' hi' => hnz i' (by omega)).symm
    · -- a byte of a later pass
      have hnext := pass_next srcva max (by omega)
      rw [hn] at hnext
      have hb := hbytes (j - n) (by omega)
        ((hshift (j - n) (by omega)).mpr (by rwa [show n + (j - n) = j by omega])) (i - n) (by omega)
      rw [show PGROUNDDOWN srcva + PGSIZE + (i - n) = srcva + i by omega,
        show dst + n + (i - n) = dst + i by omega, hub i (by omega)] at hb
      exact hb
    · exact (hfr x (by omega)).trans (hfr₁ x (by omega))

end Copyinstr

end Xv6

