import Mathlib.Data.Fin.SuccPred
import Mathlib.Data.List.FinRange
import Xv6.Fs.ReadWrite
import Xv6.Lib.ListFamily

/-! `itrunc` against the blocks a file names (`Owns`). On a well-formed file it gives back every
block the file names, each once, so that it never stops the kernel with "freeing free block";
it leaves the file empty, naming no block; and it writes the bitmap and the block of the file's
`struct dinode` and nothing else, the freed blocks keeping their bytes. -/
namespace Xv6
open ByteMem StateExcept

/-- The blocks of a file in the order of its slots, which is the order `itrunc` frees them in:
the direct blocks, the blocks its indirect block names, and the indirect block. -/
def fileBlocks (d : Memory) (i : Inode) : List Nat :=
  ((List.range (MAXFILE + 1)).map (slotOf d i)).filter (· ≠ 0)

/-- The direct slots, the list of `itrunc`'s first loop. -/
def directSlots : List (Fin (NDIRECT + 1)) := (List.finRange NDIRECT).map Fin.castSucc

section Blocks

variable {sb : Superblock} {d : Memory} {i : Inode}

theorem mem_fileBlocks {b : Nat} : b ∈ fileBlocks d i ↔ Owns d i b := by
  simp only [fileBlocks, List.mem_filter, List.mem_map, List.mem_range, decide_eq_true_eq, Owns]
  constructor
  · rintro ⟨⟨k, hk, rfl⟩, h0⟩
    exact ⟨h0, k, Nat.le_of_lt_succ hk, rfl⟩
  · rintro ⟨h0, k, hk, rfl⟩
    exact ⟨⟨k, Nat.lt_succ_of_le hk, rfl⟩, h0⟩

/-- A well-formed file names each of its blocks once. -/
theorem FileOk.nodup_fileBlocks (hok : FileOk sb d i) : (fileBlocks d i).Nodup :=
  ListFamily.nodup_filter_map List.nodup_range fun k hk k' hk' h0 he =>
    hok.inj k (Nat.le_of_lt_succ (List.mem_range.mp hk)) k'
      (Nat.le_of_lt_succ (List.mem_range.mp hk')) h0 he

theorem mem_directSlots {k : Fin (NDIRECT + 1)} : k ∈ directSlots ↔ k ≠ INDIRECT := by
  simp only [directSlots, List.mem_map, List.mem_finRange, true_and, INDIRECT]
  exact Fin.exists_castSucc_eq

theorem nodup_directSlots : directSlots.Nodup :=
  (List.nodup_finRange NDIRECT).map (Fin.castSucc_injective NDIRECT)

/-- The slots of a file: the direct blocks, the entries of the indirect block, the indirect
block. -/
theorem range_slots : List.range (MAXFILE + 1) =
    List.range NDIRECT ++ (List.range NINDIRECT).map (NDIRECT + ·) ++ [MAXFILE] := by
  rw [List.range_succ, MAXFILE, List.range_add]

theorem direct_blocks (d : Memory) (i : Inode) :
    directSlots.map i.addrs = (List.range NDIRECT).map (slotOf d i) := by
  rw [← List.map_coe_finRange_eq_range, List.map_map, directSlots, List.map_map]
  refine List.map_congr_left fun k _ => ?_
  have hk : k.val < MAXFILE := by
    unfold MAXFILE
    omega
  rw [Function.comp_apply, Function.comp_apply, slotOf_eq_blockOf hk, blockOf_direct k.isLt]

theorem entry_blocks (hind : i.addrs INDIRECT ≠ 0) :
    (List.range NINDIRECT).map (fun j => read32 d (i.addrs INDIRECT * BSIZE + 4 * j)) =
      ((List.range NINDIRECT).map (NDIRECT + ·)).map (slotOf d i) := by
  rw [List.map_map]
  refine List.map_congr_left fun j hj => ?_
  have hj' := List.mem_range.mp hj
  rw [Function.comp_apply, slotOf_eq_blockOf (by unfold MAXFILE; omega), blockOf_indirect (by omega),
    if_neg hind, Nat.add_sub_cancel_left]

/-- With an indirect block, a file's blocks are its direct blocks, then the blocks its indirect
block names, then the indirect block. -/
theorem fileBlocks_of_ind (hind : i.addrs INDIRECT ≠ 0) :
    fileBlocks d i = (directSlots.map i.addrs).filter (· ≠ 0) ++
      ((List.range NINDIRECT).map fun j => read32 d (i.addrs INDIRECT * BSIZE + 4 * j)).filter
        (· ≠ 0) ++ [i.addrs INDIRECT] := by
  rw [fileBlocks, range_slots, List.map_append, List.map_append, List.filter_append,
    List.filter_append, direct_blocks d, entry_blocks hind]
  simp [slotOf, hind]

/-- Without an indirect block, a file's blocks are its direct blocks. -/
theorem fileBlocks_of_zero (hind : i.addrs INDIRECT = 0) :
    fileBlocks d i = (directSlots.map i.addrs).filter (· ≠ 0) := by
  have hnil : (((List.range NINDIRECT).map (NDIRECT + ·)).map (slotOf d i)).filter (· ≠ 0) = [] := by
    rw [List.filter_eq_nil_iff]
    intro b hb
    obtain ⟨k, hk, rfl⟩ := List.mem_map.mp hb
    obtain ⟨j, hj, rfl⟩ := List.mem_map.mp hk
    have hj' := List.mem_range.mp hj
    rw [slotOf_eq_blockOf (by unfold MAXFILE; omega), blockOf_indirect (by omega), if_pos hind]
    simp
  rw [fileBlocks, range_slots, List.map_append, List.map_append, List.filter_append,
    List.filter_append, direct_blocks d, hnil]
  simp [slotOf, hind]

end Blocks

section Loops

variable {sb : Superblock} {ip : Fin NINODE}

/-- The first loop of `itrunc`, over distinct slots whose blocks are in use and named once,
frees those blocks in order and empties the slots. -/
theorem itruncDirect_run : ∀ (ks : List (Fin (NDIRECT + 1))) (s : FsState), ks.Nodup →
    ((ks.map (s.inode ip).addrs).filter (· ≠ 0)).Nodup →
    (∀ b ∈ (ks.map (s.inode ip).addrs).filter (· ≠ 0), used sb s.disk b = true) →
    (itruncDirect sb ip ks).run s =
      .ok ((), ({ s with disk := freeAll sb s.disk ((ks.map (s.inode ip).addrs).filter (· ≠ 0)) } :
        FsState).setInode ip fun i => { i with addrs := fun k => if k ∈ ks then 0 else i.addrs k })
  | [], s, _, _, _ => by
    rw [FsState.setInode_of_eq _ (by simp)]
    rfl
  | k :: ks, s, hnd, hD, hused => by
    obtain ⟨hk, hnd'⟩ := List.nodup_cons.mp hnd
    by_cases ha : (s.inode ip).addrs k = 0
    · -- an empty slot: nothing to free
      have hf : ((k :: ks).map (s.inode ip).addrs).filter (· ≠ 0) =
          (ks.map (s.inode ip).addrs).filter (· ≠ 0) := by
        rw [List.map_cons, List.filter_cons, if_neg (by simp [ha])]
      rw [hf] at hD hused ⊢
      have hrun : (itruncDirect sb ip (k :: ks)).run s = (itruncDirect sb ip ks).run s := by
        simp only [itruncDirect, StateT.run_bind, StateT.run_get, pure_bind, run_ite, ha, ne_eq,
          not_true_eq_false, if_false]
      rw [hrun, itruncDirect_run ks s hnd' hD hused]
      refine congrArg (fun t => Except.ok ((), t)) (FsState.setInode_congr _ ?_)
      congr 1
      funext k'
      by_cases hkk : k' = k
      · rw [hkk, if_neg hk, if_pos (List.mem_cons_self), ha]
      · simp [hkk]
    · -- a block: `bfree` it, then empty the slot
      have hf : ((k :: ks).map (s.inode ip).addrs).filter (· ≠ 0) =
          (s.inode ip).addrs k :: (ks.map (s.inode ip).addrs).filter (· ≠ 0) := by
        rw [List.map_cons, List.filter_cons, if_pos (by simp [ha])]
      rw [hf] at hD hused ⊢
      obtain ⟨hnotin, hD'⟩ := List.nodup_cons.mp hD
      set s₂ := ({ s with disk := freeDisk sb s.disk ((s.inode ip).addrs k) } : FsState).setInode ip
        (·.setAddr k 0) with hs₂
      have hmap : ks.map (s₂.inode ip).addrs = ks.map (s.inode ip).addrs :=
        List.map_congr_left fun k' hk' => by
          rw [hs₂, FsState.setInode_self, Inode.setAddr_addrs,
            Function.update_of_ne (fun h => hk (by rw [← h]; exact hk'))]
      have hused' : ∀ b ∈ (ks.map (s₂.inode ip).addrs).filter (· ≠ 0), used sb s₂.disk b = true := by
        rw [hmap]
        intro b hb
        have hne : b ≠ (s.inode ip).addrs k := fun h => hnotin (h ▸ hb)
        rw [hs₂, FsState.setInode_disk, used_freeDisk, hused b (.tail _ hb)]
        simp [hne]
      have hrun : (itruncDirect sb ip (k :: ks)).run s = (itruncDirect sb ip ks).run s₂ := by
        simp only [itruncDirect, StateT.run_bind, StateT.run_get, pure_bind, run_ite, if_pos ha,
          bfree_run, if_pos (hused _ (.head _))]
        rfl
      rw [hrun, itruncDirect_run ks s₂ hnd' (by rw [hmap]; exact hD') hused', hmap]
      set L := (ks.map (s.inode ip).addrs).filter (· ≠ 0) with hL
      have hst : ({ s₂ with disk := freeAll sb s₂.disk L } : FsState) =
          ({ s with disk := freeAll sb s.disk ((s.inode ip).addrs k :: L) } : FsState).setInode ip
            (·.setAddr k 0) := rfl
      rw [hst, FsState.setInode_setInode]
      refine congrArg (fun t => Except.ok ((), t)) (FsState.setInode_congr _ ?_)
      simp only [Function.comp_apply, Inode.setAddr]
      congr 1
      funext k'
      by_cases hkk : k' = k
      · rw [hkk]
        simp [hk]
      · simp [hkk]

/-- Entry `j` of the indirect block `ind` lies inside that block. -/
theorem entry_div {ind j x : Nat} (hj : j < NINDIRECT) (h1 : ind * BSIZE + 4 * j ≤ x)
    (h2 : x < ind * BSIZE + 4 * j + 4) : x / BSIZE = ind := by
  refine div_BSIZE_of_mem (by omega) ?_
  unfold NINDIRECT at hj
  unfold BSIZE at *
  omega

/-- The second loop of `itrunc`, over entries of an indirect block outside the bitmap whose
blocks are in use and named once, frees those blocks in order. -/
theorem itruncInd_run (hsb : SbOk sb) {ind : Nat} (hind : ∀ x, x / BSIZE = ind → ¬ BitmapArea sb x) :
    ∀ (js : List Nat) (s : FsState), (∀ j ∈ js, j < NINDIRECT) →
      ((js.map fun j => read32 s.disk (ind * BSIZE + 4 * j)).filter (· ≠ 0)).Nodup →
      (∀ b ∈ (js.map fun j => read32 s.disk (ind * BSIZE + 4 * j)).filter (· ≠ 0),
        used sb s.disk b = true ∧ b < sb.size) →
      (itruncInd sb ind js).run s = .ok ((), { s with
        disk := freeAll sb s.disk ((js.map fun j => read32 s.disk (ind * BSIZE + 4 * j)).filter (· ≠ 0)) })
  | [], s, _, _, _ => rfl
  | j :: js, s, hjs, hE, hused => by
    have hjs' : ∀ j' ∈ js, j' < NINDIRECT := fun j' h => hjs j' (.tail _ h)
    by_cases ha : read32 s.disk (ind * BSIZE + 4 * j) = 0
    · -- an empty entry: nothing to free
      have hf : ((j :: js).map fun j => read32 s.disk (ind * BSIZE + 4 * j)).filter (· ≠ 0) =
          (js.map fun j => read32 s.disk (ind * BSIZE + 4 * j)).filter (· ≠ 0) := by
        rw [List.map_cons, List.filter_cons, if_neg (by simp [ha])]
      rw [hf] at hE hused ⊢
      have hrun : (itruncInd sb ind (j :: js)).run s = (itruncInd sb ind js).run s := by
        simp only [itruncInd, StateT.run_bind, StateT.run_get, pure_bind, run_ite, ha, ne_eq,
          not_true_eq_false, if_false]
      rw [hrun]
      exact itruncInd_run hsb hind js s hjs' hE hused
    · -- a block: `bfree` it; the entries left read the same, the bitmap being elsewhere
      have hf : ((j :: js).map fun j => read32 s.disk (ind * BSIZE + 4 * j)).filter (· ≠ 0) =
          read32 s.disk (ind * BSIZE + 4 * j) ::
            (js.map fun j => read32 s.disk (ind * BSIZE + 4 * j)).filter (· ≠ 0) := by
        rw [List.map_cons, List.filter_cons, if_pos (by simp [ha])]
      rw [hf] at hE hused ⊢
      obtain ⟨hnotin, hE'⟩ := List.nodup_cons.mp hE
      obtain ⟨hua, hasz⟩ := hused _ (.head _)
      set s₁ : FsState := { s with disk := freeDisk sb s.disk (read32 s.disk (ind * BSIZE + 4 * j)) }
        with hs₁
      have hkeep : Keeps (BitmapArea sb) s.disk s₁.disk := keeps_freeDisk hsb hasz
      have hmap : (js.map fun j => read32 s₁.disk (ind * BSIZE + 4 * j)) =
          js.map fun j => read32 s.disk (ind * BSIZE + 4 * j) :=
        List.map_congr_left fun j' hj' =>
          readLE_congr 4 fun x h1 h2 => hkeep x (hind x (entry_div (hjs' j' hj') h1 h2))
      have hused' : ∀ b ∈ (js.map fun j => read32 s₁.disk (ind * BSIZE + 4 * j)).filter (· ≠ 0),
          used sb s₁.disk b = true ∧ b < sb.size := by
        rw [hmap]
        intro b hb
        have hne : b ≠ read32 s.disk (ind * BSIZE + 4 * j) := fun h => hnotin (h ▸ hb)
        obtain ⟨hub, hbsz⟩ := hused b (.tail _ hb)
        refine ⟨?_, hbsz⟩
        rw [hs₁, used_freeDisk, hub]
        simp [hne]
      have hrun : (itruncInd sb ind (j :: js)).run s = (itruncInd sb ind js).run s₁ := by
        simp only [itruncInd, StateT.run_bind, StateT.run_get, pure_bind, run_ite, if_pos ha,
          bfree_run, if_pos hua]
        rfl
      rw [hrun, itruncInd_run hsb hind js s₁ hjs' (by rw [hmap]; exact hE') hused', hmap]
      rfl

end Loops

section Itrunc

variable {sb : Superblock} {ip : Fin NINODE} {s : FsState}

/-- Once the first loop has emptied the direct slots, there are none left if the indirect slot
is empty too. -/
theorem cleared_addrs {a : Fin (NDIRECT + 1) → Nat} (h : a INDIRECT = 0) :
    (fun k => if k ∈ directSlots then 0 else a k) = fun _ => 0 := by
  funext k
  split_ifs with hk
  · rfl
  · rw [mem_directSlots, not_not] at hk
    rw [hk, h]

/-- The inode written back once it is emptied and its blocks given back. -/
theorem iupdate_run_emptied {t : FsState} (hmem : t.mem = s.mem)
    (hothers : ∀ j, j ≠ ip → t.inode j = s.inode j)
    (hip : t.inode ip = { s.inode ip with size := 0, addrs := fun _ => 0 }) {D : Memory}
    (hdisk : t.disk = D) :
    (iupdate sb ip).run t = .ok ((), { s with
      disk := writeDinode D (dinodeAddr sb (s.inode ip).inum)
        { s.inode ip with size := 0, addrs := fun _ => 0 }
      inode := Function.update s.inode ip { s.inode ip with size := 0, addrs := fun _ => 0 } }) := by
  rw [iupdate_run]
  refine congrArg (fun x => Except.ok ((), x)) ?_
  ext1
  · show writeDinode t.disk (dinodeAddr sb (t.inode ip).inum) (t.inode ip) = _
    rw [hdisk, hip]
  · exact hmem
  · funext j
    show t.inode j = Function.update s.inode ip _ j
    by_cases hj : j = ip
    · rw [hj, Function.update_self]
      exact hip
    · rw [Function.update_of_ne hj]
      exact hothers j hj

/-- What `itrunc` leaves of a well-formed file: every block the file named given back, in the
order of its slots, and the inode emptied and written back. -/
theorem itrunc_run (hok : FileOk sb s.disk (s.inode ip)) (hsb : SbOk sb) :
    (itrunc sb ip).run s = .ok ((), { s with
      disk := writeDinode (freeAll sb s.disk (fileBlocks s.disk (s.inode ip)))
        (dinodeAddr sb (s.inode ip).inum) { s.inode ip with size := 0, addrs := fun _ => 0 }
      inode := Function.update s.inode ip { s.inode ip with size := 0, addrs := fun _ => 0 } }) := by
  have hnd := hok.nodup_fileBlocks
  have hheld : ∀ b ∈ fileBlocks s.disk (s.inode ip), Held sb s.disk b :=
    fun b hb => hok.owns_held (mem_fileBlocks.mp hb)
  set D := (directSlots.map (s.inode ip).addrs).filter (· ≠ 0) with hD
  obtain ⟨rest, hrest⟩ : ∃ rest, fileBlocks s.disk (s.inode ip) = D ++ rest := by
    by_cases h0 : (s.inode ip).addrs INDIRECT = 0
    · exact ⟨[], by rw [fileBlocks_of_zero h0, List.append_nil]⟩
    · exact ⟨_, by rw [fileBlocks_of_ind h0, List.append_assoc]⟩
  obtain ⟨s₁, hrun1, hdisk1, hmem1, hothers1, hip1⟩ : ∃ s₁ : FsState,
      (itruncDirect sb ip ((List.finRange NDIRECT).map Fin.castSucc)).run s = .ok ((), s₁) ∧
      s₁.disk = freeAll sb s.disk D ∧ s₁.mem = s.mem ∧ (∀ j, j ≠ ip → s₁.inode j = s.inode j) ∧
      s₁.inode ip = { s.inode ip with
        addrs := fun k => if k ∈ directSlots then 0 else (s.inode ip).addrs k } :=
    ⟨_, itruncDirect_run directSlots s nodup_directSlots (List.nodup_append.mp (hrest ▸ hnd)).1
      (fun b hb => (hheld b (by rw [hrest]; exact List.mem_append_left _ hb)).2.2),
      rfl, rfl, fun j hj => FsState.setInode_of_ne _ _ hj, FsState.setInode_self _ _ _⟩
  dsimp only at hip1
  have hind1 : (s₁.inode ip).addrs INDIRECT = (s.inode ip).addrs INDIRECT := by
    rw [hip1]
    dsimp only
    exact if_neg fun h => mem_directSlots.mp h rfl
  simp only [itrunc, StateT.run_bind, hrun1, ok_bind, StateT.run_get, pure_bind, run_ite, hind1]
  by_cases h0 : (s.inode ip).addrs INDIRECT = 0
  · -- no indirect block
    simp only [h0, ne_eq, not_true_eq_false, if_false, StateT.run_modify, pure_bind]
    refine iupdate_run_emptied (by rw [FsState.setInode_mem]; exact hmem1)
      (fun j hj => by rw [FsState.setInode_of_ne _ _ hj]; exact hothers1 j hj) ?_
      (by rw [FsState.setInode_disk, hdisk1, fileBlocks_of_zero h0])
    rw [FsState.setInode_self, hip1]
    dsimp only
    rw [cleared_addrs h0]
  · -- an indirect block: the second loop frees the blocks it names, then it is freed
    simp only [h0, ne_eq, not_false_eq_true, if_true]
    set ind := (s.inode ip).addrs INDIRECT with hind
    set E := ((List.range NINDIRECT).map fun j => read32 s.disk (ind * BSIZE + 4 * j)).filter (· ≠ 0)
      with hE
    have hfb : fileBlocks s.disk (s.inode ip) = D ++ E ++ [ind] := fileBlocks_of_ind h0
    rw [hfb] at hnd hheld ⊢
    obtain ⟨hDE, -, hlast⟩ := List.nodup_append.mp hnd
    obtain ⟨hDnd, hEnd, hdisj⟩ := List.nodup_append.mp hDE
    have hheldD : ∀ b ∈ D, Held sb s.disk b := fun b hb =>
      hheld b (List.mem_append_left _ (List.mem_append_left _ hb))
    have hheldE : ∀ b ∈ E, Held sb s.disk b := fun b hb =>
      hheld b (List.mem_append_left _ (List.mem_append_right _ hb))
    have hheldI : Held sb s.disk ind := hheld ind (List.mem_append_right _ (List.mem_singleton_self _))
    have hind_bm : ∀ x, x / BSIZE = ind → ¬ BitmapArea sb x := fun x hx => hheldI.not_bitmapArea hx
    have hk1 : Keeps (BitmapArea sb) s.disk s₁.disk := by
      rw [hdisk1]
      exact keeps_freeAll hsb fun b hb => (hheldD b hb).2.1
    have hE1 : (List.range NINDIRECT).map (fun j => read32 s₁.disk (ind * BSIZE + 4 * j)) =
        (List.range NINDIRECT).map fun j => read32 s.disk (ind * BSIZE + 4 * j) :=
      List.map_congr_left fun j hj => readLE_congr 4 fun x h1 h2 =>
        hk1 x (hind_bm x (entry_div (List.mem_range.mp hj) h1 h2))
    have hrun2 := itruncInd_run hsb hind_bm (List.range NINDIRECT) s₁
      (fun j hj => List.mem_range.mp hj) (by rw [hE1]; exact hEnd) (by
        rw [hE1]
        intro b hb
        have hbD : b ∉ D := fun h => hdisj b h b hb rfl
        refine ⟨?_, (hheldE b hb).2.1⟩
        rw [hdisk1, used_freeAll, (hheldE b hb).2.2]
        simp [hbD])
    rw [hE1] at hrun2
    have hused_ind : used sb (freeAll sb s₁.disk E) ind = true := by
      have hiD : ind ∉ D := fun h => hlast ind (List.mem_append_left _ h) ind (List.mem_singleton_self _) rfl
      have hiE : ind ∉ E := fun h => hlast ind (List.mem_append_right _ h) ind (List.mem_singleton_self _) rfl
      rw [used_freeAll, hdisk1, used_freeAll, hheldI.2.2]
      simp [hiD, hiE]
    simp only [hrun2, ok_bind, bfree_run, StateT.run_modify, pure_bind]
    rw [if_pos hused_ind, ok_bind]
    refine iupdate_run_emptied (by simp only [FsState.setInode_mem]; exact hmem1)
      (fun j hj => by
        rw [FsState.setInode_of_ne _ _ hj, FsState.setInode_of_ne _ _ hj]
        exact hothers1 j hj) ?_ ?_
    · simp only [FsState.setInode_self, Inode.setAddr, hip1]
      congr 1
      funext k
      by_cases hk : k = INDIRECT
      · rw [hk, Function.update_self]
      · rw [Function.update_of_ne hk, if_pos (mem_directSlots.mpr hk)]
    · dsimp only
      rw [hdisk1, freeAll_append, freeAll_append]
      rfl

/-- What `itrunc` leaves: the blocks the file named given back and every other bit of the
bitmap as it was, the inode empty, memory and the other inodes as they were, the metadata blocks
still marked, and the disk written only in the bitmap and in the file's `struct dinode`,
written last with the inode emptied. -/
structure ItruncPost (sb : Superblock) (ip : Fin NINODE) (s s' : FsState) : Prop where
  freed : ∀ y < sb.size,
    used sb s'.disk y = true ↔ used sb s.disk y = true ∧ ¬ Owns s.disk (s.inode ip) y
  inode : s'.inode ip = { s.inode ip with size := 0, addrs := fun _ => 0 }
  others : ∀ j, j ≠ ip → s'.inode j = s.inode j
  mem : s'.mem = s.mem
  metaUsed : MetaUsed sb s'.disk
  frame : Keeps (fun a => BitmapArea sb a ∨
    (dinodeAddr sb (s.inode ip).inum ≤ a ∧ a < dinodeAddr sb (s.inode ip).inum + 64)) s.disk s'.disk
  stored : ∃ d, s'.disk = writeDinode d (dinodeAddr sb (s.inode ip).inum) (s'.inode ip)

/-- `itrunc` on a well-formed file gives back exactly the blocks the file names, without ever
finding one of them free, and leaves the file empty, with all that `ItruncPost` says. -/
theorem itrunc_spec (hok : FileOk sb s.disk (s.inode ip)) (hsb : SbOk sb) (hm : MetaUsed sb s.disk)
    (hinum : (s.inode ip).inum < sb.ninodes) :
    ∃ s', (itrunc sb ip).run s = .ok ((), s') ∧ ItruncPost sb ip s s' := by
  refine ⟨_, itrunc_run hok hsb, ?_⟩
  have hF : Keeps (BitmapArea sb) s.disk (freeAll sb s.disk (fileBlocks s.disk (s.inode ip))) :=
    keeps_freeAll hsb fun b hb => (hok.owns_held (mem_fileBlocks.mp hb)).2.1
  have hD' := keeps_writeDinode (freeAll sb s.disk (fileBlocks s.disk (s.inode ip)))
    (dinodeAddr sb (s.inode ip).inum) { s.inode ip with size := 0, addrs := fun _ => 0 }
  have hD : Keeps (fun x => x / BSIZE = IBLOCK (s.inode ip).inum sb)
      (freeAll sb s.disk (fileBlocks s.disk (s.inode ip)))
      (writeDinode (freeAll sb s.disk (fileBlocks s.disk (s.inode ip)))
        (dinodeAddr sb (s.inode ip).inum) { s.inode ip with size := 0, addrs := fun _ => 0 }) :=
    hD'.mono fun x hx => dinode_mem sb _ hx.1 hx.2
  have hW : ∀ x, x / BSIZE = IBLOCK (s.inode ip).inum sb → x / BSIZE < sb.bmapstart :=
    fun x hx => hx ▸ hsb.IBLOCK_lt hinum
  have hused : ∀ y < sb.size, used sb (writeDinode (freeAll sb s.disk (fileBlocks s.disk (s.inode ip)))
      (dinodeAddr sb (s.inode ip).inum) { s.inode ip with size := 0, addrs := fun _ => 0 }) y =
      (used sb s.disk y && !decide (y ∈ fileBlocks s.disk (s.inode ip))) := fun y hy => by
    rw [used_of_keeps_meta hsb hD hW hy, used_freeAll]
  refine ⟨fun y hy => ?_, Function.update_self _ _ _, fun j hj => Function.update_of_ne hj _ _, rfl,
    fun y hy => ?_, hF.trans hD', ⟨_, by dsimp only; rw [Function.update_self]⟩⟩
  · rw [hused y hy, ← mem_fileBlocks]
    simp
  · -- a metadata block is none of the file's
    have hy' := Nat.lt_of_lt_of_le hy (dataStart_le sb)
    have hno : y ∉ fileBlocks s.disk (s.inode ip) := fun ho => by
      have := (hok.owns_held (mem_fileBlocks.mp ho)).1
      omega
    show used sb _ y = true
    rw [hused y hy', hm y hy]
    simp [hno]

theorem itrunc_spec_mkfs :
    ∃ s', (itrunc mkfsSb 0).run mkfsState = .ok ((), s') ∧ ItruncPost mkfsSb 0 mkfsState s' :=
  itrunc_spec (FileOk.empty (fun _ => rfl) rfl) mkfsSb_ok mkfsDisk_metaUsed (by decide)

end Itrunc

end Xv6
