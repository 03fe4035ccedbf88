import Xv6.Kernel.Sbrk
import Xv6.Kernel.Trap

/-! The loop of `exec` (`kernel/exec.c`) that pushes the argument strings onto the new user
stack: each string with its NUL goes below the stack pointer, rounded down to 16 bytes, and its
address into the array `ustack`; a string that would go below `stackbase`, the bottom of the
stack page, ends the loop at `bad`. The rest of `exec` is not modelled.

`argv` is the list of the strings' kernel addresses before the null pointer that ends the
C array, and `ustack` the address of the local array `ustack[MAXARG]` on the kernel stack.
The stack pointer is a `uint64`; a subtraction that could wrap is taken through `u64`.

Over the loop: where the strings go (`argSlot`, `argSlots`, `argsEnd`) and the layout those
addresses have; a `copyout` that stays in one page without `PTE_COW`; and the run of the loop
on a stack page as `StackPage` describes, by induction on `argv`. -/
namespace Xv6
open ByteMem StateExcept

/-- The loop `for(argc = 0; argv[argc]; argc++)` from the string `argc` with the stack
pointer at `sp`: each string is copied with its NUL below `sp`, at a multiple of 16, and its
address stored in `ustack[argc]`. `none` is a jump to `bad`; `some (argc, sp)` is the count
and the stack pointer the loop ends with. `strlen(argv[argc])`, called twice in the source,
reads the same memory both times. -/
def execPush (id : Fin NCPU) (p : UProc) (pagetable stackbase ustack : Nat) :
    List Nat → Nat → Nat → KM (Option (Nat × Nat))
  | [], argc, sp => return some (argc, sp)
  | arg :: argv, argc, sp => do
    if argc ≥ MAXARG then return none
    let len := strlen (← get).mem arg
    let sp := u64 ((sp : Int) - (len + 1 : Nat))
    let sp := sp - sp % 16
    if sp < stackbase then return none
    if (← copyout id p pagetable sp arg (len + 1)) < 0 then return none
    modify fun s => { s with mem := write64 s.mem (ustack + 8 * argc) sp }
    execPush id p pagetable stackbase ustack argv (argc + 1) sp

/-- Where the argument loop puts a string of `len` bytes below the stack pointer `sp` when
`sp -= strlen + 1` does not wrap: that address rounded down to a multiple of 16. -/
def argSlot (sp len : Nat) : Nat := (sp - (len + 1)) - (sp - (len + 1)) % 16

/-- The addresses of strings of lengths `lens` pushed from `sp`, in the order pushed. -/
def argSlots : Nat → List Nat → List Nat
  | _, [] => []
  | sp, len :: lens => argSlot sp len :: argSlots (argSlot sp len) lens

/-- The stack pointer once strings of lengths `lens` are pushed from `sp`. -/
def argsEnd (sp : Nat) (lens : List Nat) : Nat := lens.foldl argSlot sp

theorem argSlot_mod (sp len : Nat) : argSlot sp len % 16 = 0 := by
  unfold argSlot
  omega

theorem argSlot_le (sp len : Nat) : argSlot sp len ≤ sp := by
  unfold argSlot
  omega

theorem argSlot_add_le {sp len : Nat} (h : len + 1 ≤ sp) : argSlot sp len + (len + 1) ≤ sp := by
  unfold argSlot
  omega

theorem argsEnd_le (sp : Nat) (lens : List Nat) : argsEnd sp lens ≤ sp := by
  induction lens generalizing sp with
  | nil => exact Nat.le_refl sp
  | cons len lens ih => exact (ih (argSlot sp len)).trans (argSlot_le sp len)

/-- The layout when every string with its NUL fits below the final stack pointer: each slot is
16-byte aligned and at or above the final stack pointer, each string lies below `sp`, and a
string pushed later ends below the start of every string pushed before it. -/
theorem argSlots_layout (sp : Nat) (lens : List Nat) (h : ∀ l ∈ lens, l + 1 ≤ argsEnd sp lens) :
    (∀ a ∈ argSlots sp lens, a % 16 = 0 ∧ argsEnd sp lens ≤ a) ∧
      (∀ x ∈ (argSlots sp lens).zip lens, x.1 + x.2 + 1 ≤ sp) ∧
      ((argSlots sp lens).zip lens).Pairwise (fun x y => y.1 + y.2 + 1 ≤ x.1) := by
  induction lens generalizing sp with
  | nil => exact ⟨fun a ha => absurd ha List.not_mem_nil, fun x hx => absurd hx List.not_mem_nil,
      List.Pairwise.nil⟩
  | cons len lens ih =>
    have hend : argsEnd sp (len :: lens) = argsEnd (argSlot sp len) lens := rfl
    rw [hend] at h
    obtain ⟨hal, hbelow, hpair⟩ := ih (argSlot sp len) fun l hl => h l (List.mem_cons_of_mem len hl)
    have hhead : argSlot sp len + (len + 1) ≤ sp :=
      argSlot_add_le (((h len List.mem_cons_self).trans (argsEnd_le _ lens)).trans (argSlot_le sp len))
    refine ⟨fun a ha => ?_, fun x hx => ?_, List.pairwise_cons.mpr ⟨hbelow, hpair⟩⟩
    · rw [hend]
      rcases List.mem_cons.mp ha with rfl | ha
      · exact ⟨argSlot_mod sp len, argsEnd_le _ lens⟩
      · exact hal a ha
    · rcases List.mem_cons.mp hx with rfl | hx
      · show argSlot sp len + len + 1 ≤ sp
        omega
      · exact (hbelow x hx).trans (argSlot_le sp len)

/-- An address of the user page at the aligned `sb`: its offset in the page, and the page. -/
theorem mod_of_page {sb v : Nat} (hal : sb % PGSIZE = 0) (h1 : sb ≤ v) (h2 : v < sb + PGSIZE) :
    v % PGSIZE = v - sb ∧ PGROUNDDOWN v = sb := by
  unfold PGROUNDDOWN
  unfold PGSIZE at *
  omega

theorem u64_sub {sp n : Nat} (h : n ≤ sp) (hsp : sp < 2 ^ 64) : u64 ((sp : Int) - (n : Nat)) = sp - n := by
  rw [u64_of_nonneg (by omega) (by omega)]
  omega

/-- `copyout` of bytes that fit in one page, mapped to the frame `pa` without `PTE_COW`: the
copy-on-write handler leaves the page alone, and one copy into the frame is all that changes. -/
theorem copyout_run_onePage (id : Fin NCPU) (p : UProc) {s : KState} {pagetable pa : Nat}
    (dstva src len : Nat) (hlen : len ≠ 0) (hfit : dstva % PGSIZE + len ≤ PGSIZE)
    (htr : translate s.mem pagetable (PGROUNDDOWN dstva) = some pa) (hpa : pa ≠ 0)
    (hcow : hasFlag (leafPte s.mem pagetable dstva) PTE_COW = false) :
    (copyout id p pagetable dstva src len).run s =
      .ok (0, { s with mem := copy s.mem (pa + dstva % PGSIZE) src len }) := by
  have hva := translate_lt htr
  have hw : walkPte s.mem pagetable (PGROUNDDOWN dstva) ≠ 0 := fun h0 => by
    unfold translate at htr
    rw [if_pos (.inr h0)] at htr
    cases htr
  have he : PTE2PA (read64 s.mem (walkPte s.mem pagetable (PGROUNDDOWN dstva))) = pa := by
    unfold translate at htr
    rw [if_neg (not_or.mpr ⟨Nat.not_le.mpr hva, hw⟩)] at htr
    split_ifs at htr
    exact Option.some.inj htr
  have hc : hasFlag (read64 s.mem (walkPte s.mem pagetable (PGROUNDDOWN dstva))) PTE_COW = false := by
    rw [read64_walkPte hw, leafPte_PGROUNDDOWN]
    exact hcow
  have hoff : dstva - PGROUNDDOWN dstva = dstva % PGSIZE := by
    unfold PGROUNDDOWN PGSIZE
    omega
  have hcow' : (cowPagefaultHandler id pagetable (PGROUNDDOWN dstva)).run s = .ok (1, s) :=
    cowPagefaultHandler_run_notCow hva hw (by rw [he]; exact hpa) hc
  have hprep := copyoutPrepare_run_of_cow (p := p) hcow' (le_of_lt one_pos)
  rw [copyout_run_step hlen hva hprep htr hpa, hoff, min_eq_right (by omega), Nat.sub_self,
    copyout_run_zero]

/-- The user stack page at `stackbase`, at least a page up, mapped user-accessible to the
frame `pa` without `PTE_COW`; the frame and the array `ustack` lie apart from each other and
from every page-table page. -/
structure StackPage (m : Memory) (pagetable stackbase pa ustack : Nat) : Prop where
  aligned : stackbase % PGSIZE = 0
  above : PGSIZE ≤ stackbase
  mapped : translate m pagetable stackbase = some pa
  frame_ne : pa ≠ 0
  not_cow : hasFlag (leafPte m pagetable stackbase) PTE_COW = false
  table : ∀ q, IsTable m pagetable q → Apart pa PGSIZE q ∧ Apart ustack (8 * MAXARG) q
  ustack_apart : Apart ustack (8 * MAXARG) pa

/-- `m'` differs from `m` at most in the frame `pa` and the array `ustack`. -/
def StackFrame (m m' : Memory) (pa ustack : Nat) : Prop :=
  ∀ x, (x < pa ∨ pa + PGSIZE ≤ x) → (x < ustack ∨ ustack + 8 * MAXARG ≤ x) → m' x = m x

/-- The argument strings: each NUL-terminated and shorter than a page, outside the stack's
frame and the array `ustack`. -/
def ArgsOk (m : Memory) (pa ustack : Nat) (argv : List Nat) : Prop :=
  ∀ arg ∈ argv, strlen m arg < PGSIZE ∧ Apart arg (strlen m arg + 1) pa ∧
    (arg + (strlen m arg + 1) ≤ ustack ∨ ustack + 8 * MAXARG ≤ arg)

theorem StackPage.of_frame {m m' : Memory} {pagetable stackbase pa ustack : Nat}
    (h : StackPage m pagetable stackbase pa ustack) (hfr : StackFrame m m' pa ustack) :
    AgreeOn m m' (IsTable m pagetable) ∧ StackPage m' pagetable stackbase pa ustack := by
  have hag : AgreeOn m m' (IsTable m pagetable) := fun q hq x h1 h2 => by
    obtain ⟨hf, hu⟩ := h.table q hq
    unfold Apart at hf hu
    exact hfr x (by omega) (by omega)
  have hva := translate_lt h.mapped
  refine ⟨hag, h.aligned, h.above, (translate_of_agree hag stackbase).trans h.mapped, h.frame_ne,
    by rw [leafPte_of_agree hag hva]; exact h.not_cow, fun q hq => h.table q ((isTable_of_agree hag q).mp hq),
    h.ustack_apart⟩

/-- The strings outside the frame and `ustack` read the same after a change confined to them. -/
theorem ArgsOk.of_frame {m m' : Memory} {pa ustack : Nat} {argv : List Nat} (h : ArgsOk m pa ustack argv)
    (hfr : StackFrame m m' pa ustack) :
    ∀ arg ∈ argv, strlen m' arg = strlen m arg ∧ ∀ k ≤ strlen m arg, m' (arg + k) = m (arg + k) := by
  intro arg harg
  obtain ⟨hlen, hf, hu⟩ := h arg harg
  have hsame : ∀ k ≤ strlen m arg, m' (arg + k) = m (arg + k) := fun k hk => by
    unfold Apart at hf
    exact hfr _ (by omega) (by omega)
  exact ⟨strlen_congr (by unfold PGSIZE at hlen; omega) hsame, hsame⟩

/-- A byte of the stack page reads its frame. -/
theorem StackPage.userByte_eq {m : Memory} {pagetable stackbase pa ustack v : Nat}
    (h : StackPage m pagetable stackbase pa ustack) (h1 : stackbase ≤ v) (h2 : v < stackbase + PGSIZE) :
    userByte m pagetable v = some (m (pa + (v - stackbase))) := by
  obtain ⟨-, hpd⟩ := mod_of_page h.aligned h1 h2
  rw [userByte, hpd, h.mapped]
  rfl

theorem ArgsOk.congr {m m' : Memory} {pa ustack : Nat} {argv : List Nat} (h : ArgsOk m pa ustack argv)
    (hfr : StackFrame m m' pa ustack) : ArgsOk m' pa ustack argv := fun arg harg => by
  rw [((h.of_frame hfr) arg harg).1]
  exact h arg harg

section Push

variable (id : Fin NCPU) (p : UProc) {pagetable stackbase ustack : Nat} {arg argc sp : Nat}
  {argv : List Nat} {s s₁ : KState}

theorem execPush_run_full (h : MAXARG ≤ argc) :
    (execPush id p pagetable stackbase ustack (arg :: argv) argc sp).run s = .ok (none, s) := by
  rw [execPush, run_ite, if_pos h]
  rfl

variable {len : Nat} (hc : argc < MAXARG) (hl : strlen s.mem arg = len) (hw : len + 1 ≤ sp)
  (hsp : sp < 2 ^ 64)
include hc hl hw hsp

/-- A string that does not fit above `stackbase` ends the loop with `none`. -/
theorem execPush_run_low (hlow : argSlot sp len < stackbase) :
    (execPush id p pagetable stackbase ustack (arg :: argv) argc sp).run s = .ok (none, s) := by
  rw [execPush, run_ite, if_neg (Nat.not_le.mpr hc), StateT.run_bind, StateT.run_get, pure_bind]
  dsimp only
  rw [hl, u64_sub hw hsp, show sp - (len + 1) - (sp - (len + 1)) % 16 = argSlot sp len from rfl,
    run_ite, if_pos hlow]
  rfl

/-- A string that fits and is copied out goes on with the next, its slot stored in `ustack`. -/
theorem execPush_run_cons (hslot : stackbase ≤ argSlot sp len)
    (hcopy : (copyout id p pagetable (argSlot sp len) arg (len + 1)).run s = .ok (0, s₁)) :
    (execPush id p pagetable stackbase ustack (arg :: argv) argc sp).run s =
      (execPush id p pagetable stackbase ustack argv (argc + 1) (argSlot sp len)).run
        { s₁ with mem := write64 s₁.mem (ustack + 8 * argc) (argSlot sp len) } := by
  rw [execPush, run_ite, if_neg (Nat.not_le.mpr hc), StateT.run_bind, StateT.run_get, pure_bind]
  dsimp only
  rw [hl, u64_sub hw hsp, show sp - (len + 1) - (sp - (len + 1)) % 16 = argSlot sp len from rfl,
    run_ite, if_neg (Nat.not_lt.mpr hslot), StateT.run_bind, hcopy, ok_bind,
    run_ite, if_neg (Int.lt_irrefl 0), StateT.run_bind, StateT.run_modify, pure_bind]

end Push

/-- The argument loop from the string `argc` with the stack pointer at `sp`, on a stack page and
strings as `StackPage` and `ArgsOk` describe. The result is the count and the last slot when the
count stays within `MAXARG` and every string fits above `stackbase`, and `none` otherwise. Only
the frame below `sp` and `ustack` from `argc` on are written; and when the loop returns, each
string is in the frame at its slot with its NUL, `ustack` lists the slots, and the frame below
the last slot is as it was. -/
theorem execPush_run (id : Fin NCPU) (p : UProc) {pagetable stackbase pa ustack : Nat} (argv : List Nat) :
    ∀ (argc sp : Nat) (s : KState), StackPage s.mem pagetable stackbase pa ustack →
      ArgsOk s.mem pa ustack argv → argc ≤ MAXARG → stackbase ≤ sp → sp ≤ stackbase + PGSIZE →
      ∃ m', (execPush id p pagetable stackbase ustack argv argc sp).run s =
          .ok (if argc + argv.length ≤ MAXARG ∧ stackbase ≤ argsEnd sp (argv.map (strlen s.mem)) then
            some (argc + argv.length, argsEnd sp (argv.map (strlen s.mem))) else none,
            { s with mem := m' }) ∧
        (∀ x, (x < pa ∨ pa + (sp - stackbase) ≤ x) →
          (x < ustack + 8 * argc ∨ ustack + 8 * MAXARG ≤ x) → m' x = s.mem x) ∧
        (argc + argv.length ≤ MAXARG → stackbase ≤ argsEnd sp (argv.map (strlen s.mem)) →
          (∀ x ∈ argv.zip (argSlots sp (argv.map (strlen s.mem))), ∀ k ≤ strlen s.mem x.1,
            m' (pa + (x.2 - stackbase) + k) = s.mem (x.1 + k)) ∧
          (List.range argv.length).map (fun i => read64 m' (ustack + 8 * (argc + i))) =
            argSlots sp (argv.map (strlen s.mem)) ∧
          ∀ x, pa ≤ x → x < pa + (argsEnd sp (argv.map (strlen s.mem)) - stackbase) → m' x = s.mem x) := by
  induction argv with
  | nil =>
    intro argc sp s _ _ hc hsp1 _
    have hfit : argc + ([] : List Nat).length ≤ MAXARG ∧
        stackbase ≤ argsEnd sp (([] : List Nat).map (strlen s.mem)) := ⟨hc, hsp1⟩
    refine ⟨s.mem, ?_, fun _ _ _ => rfl, fun _ _ => ⟨fun x hx => absurd hx List.not_mem_nil, rfl,
      fun _ _ _ => rfl⟩⟩
    rw [if_pos hfit]
    rfl
  | cons arg argv ih =>
    intro argc sp s hpage hargs hc hsp1 hsp2
    obtain ⟨hlen, hapart, hus⟩ := hargs arg List.mem_cons_self
    obtain ⟨len, hl⟩ : ∃ len, strlen s.mem arg = len := ⟨_, rfl⟩
    rw [hl] at hlen hapart hus
    have hmap : (arg :: argv).map (strlen s.mem) = len :: argv.map (strlen s.mem) := by
      rw [List.map_cons, hl]
    have hn : argc + (arg :: argv).length = argc + 1 + argv.length := by
      rw [List.length_cons]
      omega
    have hend : argsEnd sp (len :: argv.map (strlen s.mem)) =
        argsEnd (argSlot sp len) (argv.map (strlen s.mem)) := rfl
    rw [hmap, hn, hend]
    have hsp : sp < 2 ^ 64 := by
      have := translate_lt hpage.mapped
      have := hpage.aligned
      unfold MAXVA PGSIZE at *
      omega
    have hw : len + 1 ≤ sp := by
      have := hpage.above
      omega
    by_cases hfull : MAXARG ≤ argc
    · refine ⟨s.mem, ?_, fun _ _ _ => rfl, fun hfit => absurd hfit (by omega)⟩
      rw [execPush_run_full id p hfull, if_neg fun h => absurd h.1 (by omega)]
    have hc' : argc < MAXARG := Nat.lt_of_not_le hfull
    by_cases hlow : argSlot sp len < stackbase
    · have hout : ¬ stackbase ≤ argsEnd (argSlot sp len) (argv.map (strlen s.mem)) := fun h =>
        absurd (h.trans (argsEnd_le _ _)) (Nat.not_le.mpr hlow)
      refine ⟨s.mem, ?_, fun _ _ _ => rfl, fun _ h => absurd h hout⟩
      rw [execPush_run_low id p hc' hl hw hsp hlow, if_neg fun h => hout h.2]
    have hslot : stackbase ≤ argSlot sp len := Nat.le_of_not_lt hlow
    have hadd := argSlot_add_le hw
    obtain ⟨hoff, hpd⟩ := mod_of_page hpage.aligned hslot (by omega)
    have hcopy := copyout_run_onePage id p (argSlot sp len) arg (len + 1) (Nat.succ_ne_zero len) (by omega)
      (by rw [hpd]; exact hpage.mapped) hpage.frame_ne
      (by rw [← leafPte_PGROUNDDOWN, hpd]; exact hpage.not_cow)
    rw [hoff] at hcopy
    obtain ⟨m₂, hm₂⟩ : ∃ m₂, m₂ = write64 (copy s.mem (pa + (argSlot sp len - stackbase)) arg (len + 1))
        (ustack + 8 * argc) (argSlot sp len) := ⟨_, rfl⟩
    have hstep : ∀ x, (x < pa + (argSlot sp len - stackbase) ∨
        pa + (argSlot sp len - stackbase) + (len + 1) ≤ x) →
        (x < ustack + 8 * argc ∨ ustack + 8 * argc + 8 ≤ x) → m₂ x = s.mem x := fun x h1 h2 => by
      rw [hm₂, write64, writeLE_of_outside h2, copy_of_outside h1]
    have hua := hpage.ustack_apart
    unfold Apart at hua
    have hframe : StackFrame s.mem m₂ pa ustack := fun x h1 h2 => hstep x (by omega) (by omega)
    obtain ⟨-, hpage₂⟩ := hpage.of_frame hframe
    have htail : ArgsOk s.mem pa ustack argv := fun a ha => hargs a (List.mem_cons_of_mem arg ha)
    have hsame := htail.of_frame hframe
    have hlens : argv.map (strlen m₂) = argv.map (strlen s.mem) :=
      List.map_congr_left fun a ha => (hsame a ha).1
    obtain ⟨m', hrun', hF', hS'⟩ := ih (argc + 1) (argSlot sp len) { s with mem := m₂ } hpage₂
      (htail.congr hframe) (by omega) hslot (by omega)
    dsimp only at hrun' hF' hS'
    rw [hlens] at hrun' hS'
    have hcons : (execPush id p pagetable stackbase ustack (arg :: argv) argc sp).run s =
        (execPush id p pagetable stackbase ustack argv (argc + 1) (argSlot sp len)).run
          { s with mem := m₂ } := by
      rw [execPush_run_cons id p hc' hl hw hsp hslot hcopy, hm₂]
    refine ⟨m', hcons.trans hrun', fun x h1 h2 => (hF' x (by omega) (by omega)).trans
      (hstep x (by omega) (by omega)), fun hfit hlow' => ?_⟩
    obtain ⟨hC', hU', hB'⟩ := hS' hfit hlow'
    have hslots : argSlots sp (len :: argv.map (strlen s.mem)) =
        argSlot sp len :: argSlots (argSlot sp len) (argv.map (strlen s.mem)) := rfl
    have hae := argsEnd_le (argSlot sp len) (argv.map (strlen s.mem))
    refine ⟨fun x hx k hk => ?_, ?_, fun x h1 h2 => (hB' x h1 h2).trans
      (hstep x (by omega) (by omega))⟩
    · rw [hslots, List.zip_cons_cons] at hx
      rcases List.mem_cons.mp hx with rfl | hx
      · dsimp only at hk ⊢
        rw [hl] at hk
        rw [hF' _ (.inr (by omega)) (by omega), hm₂, write64, writeLE_of_outside (by omega),
          copy_apply_add _ (by omega)]
      · have hx1 := (List.of_mem_zip hx).1
        exact (hC' x hx k (by rw [(hsame x.1 hx1).1]; exact hk)).trans ((hsame x.1 hx1).2 k hk)
    · rw [hslots, List.length_cons, List.range_succ_eq_map, List.map_cons, List.map_map, ← hU']
      refine List.cons_eq_cons.mpr ⟨?_, ?_⟩
      · have hread : read64 m' (ustack + 8 * (argc + 0)) = read64 m₂ (ustack + 8 * argc) :=
          readLE_congr 8 fun x h1 h2 => hF' x (by omega) (by omega)
        rw [hread, hm₂]
        exact read64_write64_self _ _ _ (by omega)
      · refine List.map_congr_left fun i _ => ?_
        simp only [Function.comp]
        rw [show argc + (i + 1) = argc + 1 + i by omega]

/-- A pair of two zipped lists, the other way round and with the first component mapped. -/
theorem mem_zip_map_swap {α β γ : Type} (f : α → γ) :
    ∀ {l₁ : List α} {l₂ : List β} {a : α} {b : β}, (a, b) ∈ l₁.zip l₂ → (b, f a) ∈ l₂.zip (l₁.map f)
  | [], _, _, _, h => absurd h List.not_mem_nil
  | _ :: _, [], _, _, h => absurd h List.not_mem_nil
  | a' :: l₁, b' :: l₂, a, b, h => by
    rw [List.zip_cons_cons] at h
    rw [List.map_cons, List.zip_cons_cons]
    rcases List.mem_cons.mp h with h | h
    · obtain ⟨rfl, rfl⟩ := Prod.mk.inj h
      exact List.mem_cons_self
    · exact List.mem_cons_of_mem _ (mem_zip_map_swap f h)

/-- `exec`'s argument loop from the top of the user stack page at `stackbase`: a page mapped
without `PTE_COW` to a frame apart from the page-table pages and the array `ustack`, for strings
shorter than a page outside the frame and `ustack`. The loop returns the count and the final
stack pointer exactly when there are at most `MAXARG` strings and all fit above `stackbase`, and
`none` otherwise, and it writes nothing outside the frame and `ustack`. When it returns, every
slot is 16-byte aligned and at or above the final stack pointer, every string lies below the top
of the page and ends below the start of each string pushed before it; the user stack holds each
string with its NUL at its slot, `ustack` holds the slots in order, and the stack below the
final stack pointer reads as before. -/
theorem exec_push_args (id : Fin NCPU) (p : UProc) {s : KState} {pagetable stackbase pa ustack : Nat}
    (argv : List Nat) (hpage : StackPage s.mem pagetable stackbase pa ustack)
    (hargs : ArgsOk s.mem pa ustack argv) :
    ∃ m', (execPush id p pagetable stackbase ustack argv 0 (stackbase + PGSIZE)).run s =
        .ok (if argv.length ≤ MAXARG ∧
            stackbase ≤ argsEnd (stackbase + PGSIZE) (argv.map (strlen s.mem)) then
          some (argv.length, argsEnd (stackbase + PGSIZE) (argv.map (strlen s.mem))) else none,
          { s with mem := m' }) ∧
      StackFrame s.mem m' pa ustack ∧
      (argv.length ≤ MAXARG → stackbase ≤ argsEnd (stackbase + PGSIZE) (argv.map (strlen s.mem)) →
        (∀ a ∈ argSlots (stackbase + PGSIZE) (argv.map (strlen s.mem)),
          a % 16 = 0 ∧ argsEnd (stackbase + PGSIZE) (argv.map (strlen s.mem)) ≤ a) ∧
        (∀ x ∈ (argSlots (stackbase + PGSIZE) (argv.map (strlen s.mem))).zip (argv.map (strlen s.mem)),
          x.1 + x.2 + 1 ≤ stackbase + PGSIZE) ∧
        ((argSlots (stackbase + PGSIZE) (argv.map (strlen s.mem))).zip (argv.map (strlen s.mem))).Pairwise
          (fun x y => y.1 + y.2 + 1 ≤ x.1) ∧
        (∀ x ∈ argv.zip (argSlots (stackbase + PGSIZE) (argv.map (strlen s.mem))),
          (∀ k < strlen s.mem x.1, userByte m' pagetable (x.2 + k) = some (s.mem (x.1 + k))) ∧
            userByte m' pagetable (x.2 + strlen s.mem x.1) = some 0) ∧
        (List.range argv.length).map (fun i => read64 m' (ustack + 8 * i)) =
          argSlots (stackbase + PGSIZE) (argv.map (strlen s.mem)) ∧
        ∀ v, stackbase ≤ v → v < argsEnd (stackbase + PGSIZE) (argv.map (strlen s.mem)) →
          userByte m' pagetable v = userByte s.mem pagetable v) := by
  obtain ⟨m', hrun, hF, hS⟩ := execPush_run id p argv 0 (stackbase + PGSIZE) s hpage hargs
    (Nat.zero_le _) (Nat.le_add_right _ _) (Nat.le_refl _)
  simp only [Nat.zero_add, Nat.mul_zero, Nat.add_zero, Nat.add_sub_cancel_left] at hrun hF hS
  have hframe : StackFrame s.mem m' pa ustack := fun x h1 h2 => hF x h1 (by omega)
  have hpage' := (hpage.of_frame hframe).2
  refine ⟨m', hrun, hframe, fun hfit hlow => ?_⟩
  obtain ⟨hC, hU, hB⟩ := hS hfit hlow
  have hlens : ∀ l ∈ argv.map (strlen s.mem), l + 1 ≤ argsEnd (stackbase + PGSIZE) (argv.map (strlen s.mem)) :=
    fun l hl => by
      obtain ⟨a, ha, rfl⟩ := List.mem_map.mp hl
      have := (hargs a ha).1
      have := hpage.above
      omega
  obtain ⟨hal, hbelow, hpair⟩ := argSlots_layout _ _ hlens
  refine ⟨hal, hbelow, hpair, fun x hx => ?_, hU, fun v h1 h2 => ?_⟩
  · have hx1 := (List.of_mem_zip hx).1
    have hslot := (hal x.2 (List.of_mem_zip hx).2).2
    have htop := hbelow _ (mem_zip_map_swap (strlen s.mem) hx)
    dsimp only at htop
    have hbyte : ∀ k ≤ strlen s.mem x.1, userByte m' pagetable (x.2 + k) = some (s.mem (x.1 + k)) :=
      fun k hk => by
        rw [hpage'.userByte_eq (by omega) (by omega), show pa + (x.2 + k - stackbase) =
          pa + (x.2 - stackbase) + k by omega, hC x hx k hk]
    have hnul := (strlen_spec (m := s.mem) (s := x.1) (by have := (hargs x.1 hx1).1; unfold PGSIZE at this; omega)).1
    exact ⟨fun k hk => hbyte k hk.le, by rw [hbyte _ (Nat.le_refl _), hnul]⟩
  · have hend := argsEnd_le (stackbase + PGSIZE) (argv.map (strlen s.mem))
    rw [hpage'.userByte_eq h1 (by omega), hpage.userByte_eq h1 (by omega), hB _ (by omega) (by omega)]

/-- The frame `page 2` mapped at `PGSIZE` in the parent's page table with the flags
`uvmalloc(..., PTE_W)` gives a stack page. -/
def stackState : KState :=
  walkedState.store (pteAddr (page 4) 0 PGSIZE) (PA2PTE (page 2) ||| (PTE_R ||| PTE_U ||| PTE_W) ||| PTE_V)

/-- The walk to the PTE of `PGSIZE` takes the same two page-table pages as that of 0. -/
theorem walk_stack_page :
    (walk 0 (page 1) PGSIZE true).run frameState = .ok (pteAddr (page 4) 0 PGSIZE, walkedState) :=
  walk_run_of_levels (by decide)
    (walkLevel_run_new (by decide) (kalloc_run_at (r := page 3) (by decide)
      (by decide) (by decide) (by decide) (by decide)) (by decide))
    (walkLevel_run_new (by decide) (kalloc_run_at (r := page 4) (by decide)
      (by decide) (by decide) (by decide) (by decide)) (by decide))

theorem stackState_inv : ∃ L, PTInv stackState L (page 1) ∧ ¬ IsTable stackState.mem (page 1) (page 2) := by
  obtain ⟨L, hL, hnt, hnf⟩ := frameState_inv
  have hrun : (mappages 0 (page 1) PGSIZE PGSIZE (page 2) (PTE_R ||| PTE_U ||| PTE_W)).run frameState =
      .ok (0, stackState) := by
    rw [mappages_page (by decide) (by decide), StateT.run_bind, mappagesPage_run walk_stack_page,
      if_neg (by decide), if_neg (by decide), ok_bind]
    rfl
  obtain ⟨L', h', hkept, -⟩ := hL.mappages (show PTE_R ||| PTE_U ||| PTE_W < 2 ^ 10 by decide)
    (by decide) (by decide) (by decide) (by decide) hrun
  exact ⟨L', h', (hkept _ hnt hnf).1⟩

theorem stackState_stackPage : StackPage stackState.mem (page 1) PGSIZE (page 2) (KERNBASE + 16) := by
  obtain ⟨L, h, hnt⟩ := stackState_inv
  refine ⟨by decide, Nat.le_refl _, by decide, by decide, by decide, fun q hq => ?_, by decide⟩
  obtain ⟨hal, hq1, -⟩ := h.tree.managed q hq
  have hsep := sep_of_ne (by decide : page 2 % PGSIZE = 0) hal fun he => hnt (he ▸ hq)
  have hup : PGROUNDUP stackState.kend = PHYSTOP - 7 * PGSIZE := by decide
  rw [hup] at hq1
  unfold Apart
  unfold page PHYSTOP KERNBASE PGSIZE MAXARG at *
  omega

theorem strlen_stackState : strlen stackState.mem KERNBASE = 0 :=
  strlen_eq (by decide) (fun k hk => absurd hk (Nat.not_lt_zero k)) (by decide)

/-- One empty string pushed onto the stack page at `PGSIZE`: its NUL lands 16 bytes below the
top of the page, and `ustack[0]` holds that address. -/
theorem exec_push_args_empty_string :
    StackPage stackState.mem (page 1) PGSIZE (page 2) (KERNBASE + 16) ∧
      ArgsOk stackState.mem (page 2) (KERNBASE + 16) [KERNBASE] ∧
      ∃ m', (execPush 0 ⟨page 1, 2 * PGSIZE, 0⟩ (page 1) PGSIZE (KERNBASE + 16) [KERNBASE] 0
          (PGSIZE + PGSIZE)).run stackState =
        .ok (some (1, 2 * PGSIZE - 16), { stackState with mem := m' }) ∧
        userByte m' (page 1) (2 * PGSIZE - 16) = some 0 ∧ read64 m' (KERNBASE + 16) = 2 * PGSIZE - 16 := by
  have hargs : ArgsOk stackState.mem (page 2) (KERNBASE + 16) [KERNBASE] := fun a ha => by
    rw [List.mem_singleton.mp ha, strlen_stackState]
    exact ⟨by decide, by decide, .inl (by decide)⟩
  obtain ⟨m', hrun, -, hS⟩ := exec_push_args 0 ⟨page 1, 2 * PGSIZE, 0⟩ [KERNBASE] stackState_stackPage hargs
  simp only [List.map_cons, List.map_nil, strlen_stackState] at hrun hS
  have hfit : [KERNBASE].length ≤ MAXARG ∧ PGSIZE ≤ argsEnd (PGSIZE + PGSIZE) [0] := by decide
  have hend : argsEnd (PGSIZE + PGSIZE) [0] = 2 * PGSIZE - 16 := by decide
  rw [if_pos hfit, hend] at hrun
  obtain ⟨-, -, -, hstr, hU, -⟩ := hS hfit.1 hfit.2
  have hmem : (KERNBASE, 2 * PGSIZE - 16) ∈ [KERNBASE].zip (argSlots (PGSIZE + PGSIZE) [0]) := by decide
  have hnul := (hstr _ hmem).2
  rw [strlen_stackState] at hnul
  refine ⟨stackState_stackPage, hargs, m', hrun, hnul, ?_⟩
  have hhead := congrArg List.head? hU
  exact Option.some.inj hhead

end Xv6
