import Mathlib.Data.Fintype.Card
import Xv6.Lib.DList
import Xv6.Kernel.Param

/-! The buffer cache (`kernel/bio.c`): `NBUF` buffers on a circular doubly-linked list through
`bcache.head`, the most recently released first. Each call's `bcache.lock` section is one
step. The sleep-locks, the data and the disk are left out.

Over the pointer-level `BCache` stands `LruCache`, the same buffers with the list as a `List`.
Each pointer operation refines the list operation of the same name, and the invariant is
proved over the lists. -/
namespace Xv6
open DList

/-- The fields of `struct buf` that the cache reads and writes. `refcnt` counts without a
wrap: balanced callers never take it below 0. -/
structure Buf where
  valid : Bool
  dev : Nat
  blockno : Nat
  refcnt : Nat
  deriving DecidableEq, Repr

/-- The block a buffer holds. -/
def Buf.ident (b : Buf) : Nat × Nat := (b.dev, b.blockno)

/-- `bcache`: the buffers and their links; the node `none` is `bcache.head`. -/
structure BCache where
  buf : Fin NBUF → Buf
  next : Option (Fin NBUF) → Option (Fin NBUF)
  prev : Option (Fin NBUF) → Option (Fin NBUF)

/-- A buffer of the zeroed global `bcache` at boot. -/
def bootBuf : Buf := ⟨false, 0, 0, 0⟩

/-- The loop of `binit`: each buffer in turn is linked in after the head. -/
def binitLoop :
    (Option (Fin NBUF) → Option (Fin NBUF)) × (Option (Fin NBUF) → Option (Fin NBUF)) →
      List (Fin NBUF) → (Option (Fin NBUF) → Option (Fin NBUF)) × (Option (Fin NBUF) → Option (Fin NBUF))
  | links, [] => links
  | links, b :: bs => binitLoop (pushFront links.1 links.2 b) bs

/-- `binit()`: the head's links point at the head, and the loop stores every buffer's. -/
def binit : BCache :=
  let links := binitLoop (fun _ => none, fun _ => none) (List.finRange NBUF)
  ⟨fun _ => bootBuf, links.1, links.2⟩

/-- `bget(dev, blockno)`: the cache after and the buffer returned, `none` for
`panic("bget: no buffers")`. The lookup walks forward from `head.next`, the recycling walks
back from `head.prev`; `NBUF + 1` passes reach the head again on the ring. -/
def bget (c : BCache) (dev blockno : Nat) : Option (BCache × Fin NBUF) :=
  match walk c.next (fun b => (c.buf b).dev == dev && (c.buf b).blockno == blockno) (NBUF + 1)
      (c.next none) with
  | some b => some ({ c with buf := Function.update c.buf b { c.buf b with refcnt := (c.buf b).refcnt + 1 } }, b)
  | none =>
    match walk c.prev (fun b => (c.buf b).refcnt == 0) (NBUF + 1) (c.prev none) with
    | some b => some ({ c with buf := Function.update c.buf b ⟨false, dev, blockno, 1⟩ }, b)
    | none => none

/-- `bread(dev, blockno)`: `bget`, then a disk read when the buffer is not valid. -/
def bread (c : BCache) (dev blockno : Nat) : Option (BCache × Fin NBUF) :=
  (bget c dev blockno).map fun r =>
    ({ r.1 with buf := Function.update r.1.buf r.2 { r.1.buf r.2 with valid := true } }, r.2)

/-- `brelse(b)`: the last release moves the buffer to the front of the list. -/
def brelse (c : BCache) (b : Fin NBUF) : BCache :=
  let c1 : BCache := { c with buf := Function.update c.buf b { c.buf b with refcnt := (c.buf b).refcnt - 1 } }
  if (c1.buf b).refcnt = 0 then
    let u := unlink c1.next c1.prev b
    let p := pushFront u.1 u.2 b
    { c1 with next := p.1, prev := p.2 }
  else c1

def bpin (c : BCache) (b : Fin NBUF) : BCache :=
  { c with buf := Function.update c.buf b { c.buf b with refcnt := (c.buf b).refcnt + 1 } }

def bunpin (c : BCache) (b : Fin NBUF) : BCache :=
  { c with buf := Function.update c.buf b { c.buf b with refcnt := (c.buf b).refcnt - 1 } }

/-- The cache with its list as a `List`, most recently released first. -/
structure LruCache where
  buf : Fin NBUF → Buf
  order : List (Fin NBUF)

/-- `bget` on the list: the first buffer holding the block, else the last unreferenced one. -/
def LruCache.bget (a : LruCache) (dev blockno : Nat) : Option (LruCache × Fin NBUF) :=
  match a.order.find? (fun b => (a.buf b).dev == dev && (a.buf b).blockno == blockno) with
  | some b => some ({ a with buf := Function.update a.buf b { a.buf b with refcnt := (a.buf b).refcnt + 1 } }, b)
  | none =>
    match a.order.reverse.find? (fun b => (a.buf b).refcnt == 0) with
    | some b => some ({ a with buf := Function.update a.buf b ⟨false, dev, blockno, 1⟩ }, b)
    | none => none

/-- `brelse` on the list: the last release moves the buffer to the front. -/
def LruCache.brelse (a : LruCache) (b : Fin NBUF) : LruCache :=
  let buf := Function.update a.buf b { a.buf b with refcnt := (a.buf b).refcnt - 1 }
  if (buf b).refcnt = 0 then ⟨buf, b :: a.order.erase b⟩ else ⟨buf, a.order⟩

/-- The pointers of `c` link the buffers of `a` in the order of its list. -/
def Represents (c : BCache) (a : LruCache) : Prop := c.buf = a.buf ∧ Links c.next c.prev a.order

/-- No two buffers hold one block, but the block 0 of device 0 that `binit` leaves in all. -/
def IdentUnique (buf : Fin NBUF → Buf) : Prop :=
  ∀ b₁ b₂, b₁ ≠ b₂ → (buf b₁).ident = (buf b₂).ident → (buf b₁).ident = (0, 0)

/-- The list holds every buffer, and blocks are held once. -/
def LruInv (a : LruCache) : Prop := (∀ b, b ∈ a.order) ∧ IdentUnique a.buf

/-- The loop of `binit` links the buffers in, each in front of those before it. -/
theorem binitLoop_links :
    ∀ (bs : List (Fin NBUF)) (links : (Option (Fin NBUF) → Option (Fin NBUF)) × (Option (Fin NBUF) → Option (Fin NBUF)))
      (l : List (Fin NBUF)), Links links.1 links.2 l → bs.Nodup → (∀ b ∈ bs, b ∉ l) →
      Links (binitLoop links bs).1 (binitLoop links bs).2 (bs.reverse ++ l) := by
  intro bs
  induction bs with
  | nil => intro links l h _ _; exact h
  | cons b bs ih =>
    intro links l h hnd hfresh
    have hb : b ∉ l := hfresh b List.mem_cons_self
    have h' := links_pushFront h hb
    rw [List.reverse_cons, List.append_assoc, List.singleton_append]
    exact ih _ (b :: l) h' (List.nodup_cons.mp hnd).2 fun b' hb' hmem => by
      rcases List.mem_cons.mp hmem with rfl | hl
      · exact (List.nodup_cons.mp hnd).1 hb'
      · exact hfresh b' (List.mem_cons_of_mem b hb') hl

/-- At boot the list holds the buffers from the last of the array to the first. -/
theorem binit_represents : Represents binit ⟨fun _ => bootBuf, (List.finRange NBUF).reverse⟩ := by
  refine ⟨rfl, ?_⟩
  have h := binitLoop_links (List.finRange NBUF) (fun _ => none, fun _ => none) []
    ⟨List.nodup_nil, rfl, rfl⟩ (List.nodup_finRange NBUF) (fun _ _ h => List.not_mem_nil h)
  rw [List.append_nil] at h
  exact h

theorem length_lt_of_nodup {l : List (Fin NBUF)} (h : l.Nodup) : l.length < NBUF + 1 := by
  have := h.length_le_card
  rw [Fintype.card_fin] at this
  omega

/-- The two walks of `bget` are the two searches of the list. -/
theorem bget_refines {c : BCache} {a : LruCache} (h : Represents c a) (dev blockno : Nat) :
    bget c dev blockno = (a.bget dev blockno).map fun r => ({ c with buf := r.1.buf }, r.2) := by
  obtain ⟨hbuf, hl⟩ := h
  have hlen := length_lt_of_nodup hl.1
  unfold bget LruCache.bget
  rw [hbuf, hl.walk_next _ hlen, hl.walk_prev _ hlen]
  split <;> [rfl; split <;> rfl]

/-- The stores of `brelse` move the buffer to the front exactly when its count reaches 0. -/
theorem brelse_refines {c : BCache} {a : LruCache} (h : Represents c a) (hall : ∀ b, b ∈ a.order)
    (b : Fin NBUF) : Represents (brelse c b) (a.brelse b) := by
  obtain ⟨hbuf, hl⟩ := h
  unfold brelse LruCache.brelse
  rw [hbuf]
  dsimp only
  split_ifs
  · refine ⟨rfl, ?_⟩
    exact links_pushFront (links_unlink hl (hall b)) (hl.1.not_mem_erase)
  · exact ⟨rfl, hl⟩

/-- A store that keeps a buffer's block keeps blocks held once. -/
theorem IdentUnique.update_same {buf : Fin NBUF → Buf} (h : IdentUnique buf) {b : Fin NBUF}
    {x : Buf} (hx : x.ident = (buf b).ident) : IdentUnique (Function.update buf b x) := by
  have hid : ∀ b', (Function.update buf b x b').ident = (buf b').ident := fun b' => by
    rw [Function.update_apply]
    split_ifs with hb
    · rw [hb, hx]
    · rfl
  intro b₁ b₂ hne he
  rw [hid] at he ⊢
  rw [hid] at he
  exact h b₁ b₂ hne he

/-- Recycling a buffer for a block no buffer holds keeps blocks held once. -/
theorem IdentUnique.update_fresh {buf : Fin NBUF → Buf} (h : IdentUnique buf) (b : Fin NBUF)
    {x : Buf} (hx : ∀ b', (buf b').ident ≠ x.ident) : IdentUnique (Function.update buf b x) := by
  intro b₁ b₂ hne he
  by_cases h₁ : b₁ = b
  · subst h₁
    rw [Function.update_self, Function.update_of_ne (Ne.symm hne)] at he
    exact absurd he.symm (hx b₂)
  · by_cases h₂ : b₂ = b
    · subst h₂
      rw [Function.update_self, Function.update_of_ne hne] at he
      exact absurd he (hx b₁)
    · rw [Function.update_of_ne h₁, Function.update_of_ne h₂] at he
      rw [Function.update_of_ne h₁]
      exact h b₁ b₂ hne he

/-- What `bget` does on the list: it bumps the count of the first buffer that holds the
block, or, when none does, recycles the last buffer whose count is 0. The list stays. -/
theorem LruCache.bget_spec {a : LruCache} (hall : ∀ b, b ∈ a.order) {dev blockno : Nat}
    {a' : LruCache} {b : Fin NBUF} (h : a.bget dev blockno = some (a', b)) :
    a'.order = a.order ∧
      (((a.buf b).ident = (dev, blockno) ∧
          a'.buf = Function.update a.buf b { a.buf b with refcnt := (a.buf b).refcnt + 1 }) ∨
        ((∀ b', (a.buf b').ident ≠ (dev, blockno)) ∧ (a.buf b).refcnt = 0 ∧
          a.order.reverse.find? (fun b => (a.buf b).refcnt == 0) = some b ∧
          a'.buf = Function.update a.buf b ⟨false, dev, blockno, 1⟩)) := by
  unfold LruCache.bget at h
  split at h
  · -- the lookup found the block
    rename_i hfind
    cases h
    have hp := List.find?_some hfind
    simp only [Bool.and_eq_true, beq_iff_eq] at hp
    exact ⟨rfl, .inl ⟨by rw [Buf.ident, hp.1, hp.2], rfl⟩⟩
  · rename_i hfind
    split at h
    · -- no buffer holds it: the last free one is recycled
      rename_i hfree
      cases h
      have hp := List.find?_some hfree
      refine ⟨rfl, .inr ⟨fun b' he => ?_, by simpa using hp, hfree, rfl⟩⟩
      have hno := List.find?_eq_none.mp hfind b' (hall b')
      simp only [Buf.ident, Prod.mk.injEq] at he
      simp [he.1, he.2] at hno
    · cases h

theorem LruInv.bget {a : LruCache} (h : LruInv a) {dev blockno : Nat} {a' : LruCache}
    {b : Fin NBUF} (hb : a.bget dev blockno = some (a', b)) : LruInv a' := by
  obtain ⟨horder, hcase⟩ := LruCache.bget_spec h.1 hb
  refine ⟨fun b' => horder ▸ h.1 b', ?_⟩
  rcases hcase with ⟨-, hbuf⟩ | ⟨hfresh, -, -, hbuf⟩
  · rw [hbuf]
    exact h.2.update_same rfl
  · rw [hbuf]
    exact h.2.update_fresh b hfresh

theorem LruInv.brelse {a : LruCache} (h : LruInv a) (b : Fin NBUF) : LruInv (a.brelse b) := by
  unfold LruCache.brelse
  dsimp only
  split_ifs
  · refine ⟨fun b' => ?_, h.2.update_same rfl⟩
    by_cases hb : b' = b
    · exact hb ▸ List.mem_cons_self
    · exact List.mem_cons_of_mem b ((List.mem_erase_of_ne hb).mpr (h.1 b'))
  · exact ⟨h.1, h.2.update_same rfl⟩

/-- A store of one buffer's count or `valid` flag keeps the list view and the invariant. -/
theorem Represents.setBuf {c : BCache} {a : LruCache} (h : Represents c a) (hinv : LruInv a)
    (b : Fin NBUF) {x : Buf} (hx : x.ident = (c.buf b).ident) :
    Represents { c with buf := Function.update c.buf b x } ⟨Function.update a.buf b x, a.order⟩ ∧
      LruInv ⟨Function.update a.buf b x, a.order⟩ :=
  ⟨⟨by rw [h.1], h.2⟩, hinv.1, hinv.2.update_same (by rw [← h.1]; exact hx)⟩

/-- The cache states that `binit` and any sequence of `bcache.lock` sections reach, with
balanced callers: `brelse` and `bunpin` only on a buffer with a reference. -/
inductive BReach : BCache → Prop
  | init : BReach binit
  | bget {c c' : BCache} {b : Fin NBUF} (dev blockno : Nat) :
      BReach c → bget c dev blockno = some (c', b) → BReach c'
  | bread {c c' : BCache} {b : Fin NBUF} (dev blockno : Nat) :
      BReach c → bread c dev blockno = some (c', b) → BReach c'
  | brelse {c : BCache} (b : Fin NBUF) : BReach c → 0 < (c.buf b).refcnt → BReach (brelse c b)
  | bpin {c : BCache} (b : Fin NBUF) : BReach c → BReach (bpin c b)
  | bunpin {c : BCache} (b : Fin NBUF) : BReach c → 0 < (c.buf b).refcnt → BReach (bunpin c b)

/-- A `bget` step from a represented state lands in a represented state. -/
theorem Represents.bget {c c' : BCache} {a : LruCache} (h : Represents c a) (hinv : LruInv a)
    {dev blockno : Nat} {b : Fin NBUF} (hb : bget c dev blockno = some (c', b)) :
    ∃ a', Represents c' a' ∧ LruInv a' ∧ a.bget dev blockno = some (a', b) := by
  rw [bget_refines h] at hb
  obtain ⟨⟨a', b'⟩, ha, he⟩ := Option.map_eq_some_iff.mp hb
  cases he
  obtain ⟨horder, -⟩ := LruCache.bget_spec hinv.1 ha
  exact ⟨a', ⟨rfl, horder ▸ h.2⟩, hinv.bget ha, ha⟩

/-- Every reachable state is the pointer form of a list that holds every buffer once, in a
state where no two buffers hold one block but the boot block. -/
theorem BReach.represents {c : BCache} (h : BReach c) : ∃ a, Represents c a ∧ LruInv a := by
  induction h with
  | init =>
    refine ⟨_, binit_represents, fun b => List.mem_reverse.mpr (List.mem_finRange b), ?_⟩
    intro b₁ b₂ _ _
    rfl
  | bget dev blockno _ hb ih =>
    obtain ⟨a, hrep, hinv⟩ := ih
    obtain ⟨a', hrep', hinv', -⟩ := hrep.bget hinv hb
    exact ⟨a', hrep', hinv'⟩
  | bread dev blockno _ hb ih =>
    obtain ⟨a, hrep, hinv⟩ := ih
    obtain ⟨⟨c₁, b₁⟩, hget, he⟩ := Option.map_eq_some_iff.mp hb
    cases he
    obtain ⟨a₁, hrep₁, hinv₁, -⟩ := hrep.bget hinv hget
    obtain ⟨hrep', hinv'⟩ := hrep₁.setBuf hinv₁ b₁ (x := { c₁.buf b₁ with valid := true }) rfl
    exact ⟨_, hrep', hinv'⟩
  | brelse b _ _ ih =>
    obtain ⟨a, hrep, hinv⟩ := ih
    exact ⟨_, brelse_refines hrep hinv.1 b, hinv.brelse b⟩
  | @bpin c b _ ih =>
    obtain ⟨a, hrep, hinv⟩ := ih
    obtain ⟨hrep', hinv'⟩ :=
      hrep.setBuf hinv b (x := { c.buf b with refcnt := (c.buf b).refcnt + 1 }) rfl
    exact ⟨_, hrep', hinv'⟩
  | @bunpin c b _ _ ih =>
    obtain ⟨a, hrep, hinv⟩ := ih
    obtain ⟨hrep', hinv'⟩ :=
      hrep.setBuf hinv b (x := { c.buf b with refcnt := (c.buf b).refcnt - 1 }) rfl
    exact ⟨_, hrep', hinv'⟩

/-- The list after `brelse`: the buffer goes to the front exactly when its count reaches 0. -/
theorem LruCache.brelse_order (a : LruCache) (b : Fin NBUF) :
    (a.brelse b).order = if (a.buf b).refcnt - 1 = 0 then b :: a.order.erase b else a.order := by
  unfold LruCache.brelse
  dsimp only
  rw [Function.update_self]
  split_ifs <;> rfl

/-- The buffer cache in every state reachable with balanced callers: the links form one ring
through the head holding each buffer once, with `prev` undoing `next`; no two buffers hold one
block, but the block 0 of device 0 that `binit` leaves in every buffer; `bget` bumps the count
of a buffer that holds the block, or recycles the unreferenced buffer nearest the end of the
list and only when no buffer holds the block, and keeps the links; and `brelse` moves the
buffer to the front exactly when its count reaches 0, and otherwise keeps the links. -/
theorem bcache_invariant {c : BCache} (h : BReach c) :
    ∃ order : List (Fin NBUF), Links c.next c.prev order ∧ (∀ b, b ∈ order) ∧ IdentUnique c.buf ∧
      (∀ dev blockno c' b, bget c dev blockno = some (c', b) →
        c'.next = c.next ∧ c'.prev = c.prev ∧ (∀ b', b' ≠ b → c'.buf b' = c.buf b') ∧
        (((c.buf b).ident = (dev, blockno) ∧ (c'.buf b).refcnt = (c.buf b).refcnt + 1) ∨
          ((∀ b', (c.buf b').ident ≠ (dev, blockno)) ∧ (c.buf b).refcnt = 0 ∧
            order.reverse.find? (fun b => (c.buf b).refcnt == 0) = some b ∧
            c'.buf b = ⟨false, dev, blockno, 1⟩))) ∧
      (∀ b, 0 < (c.buf b).refcnt → Links (brelse c b).next (brelse c b).prev
        (if (c.buf b).refcnt = 1 then b :: order.erase b else order)) := by
  obtain ⟨a, ⟨hbuf, hl⟩, hall, huniq⟩ := h.represents
  refine ⟨a.order, hl, hall, hbuf ▸ huniq, fun dev blockno c' b hb => ?_, fun b hpos => ?_⟩
  · -- `bget`: the list view's two searches
    rw [bget_refines ⟨hbuf, hl⟩] at hb
    obtain ⟨⟨a', b'⟩, ha, he⟩ := Option.map_eq_some_iff.mp hb
    cases he
    obtain ⟨-, hcase⟩ := LruCache.bget_spec hall ha
    rw [hbuf]
    rcases hcase with ⟨hid, hnew⟩ | ⟨hfresh, hfree, hlast, hnew⟩
    · refine ⟨rfl, rfl, fun b' hne => ?_, .inl ⟨hid, by dsimp only; rw [hnew, Function.update_self]⟩⟩
      dsimp only
      rw [hnew, Function.update_of_ne hne]
    · refine ⟨rfl, rfl, fun b' hne => ?_,
        .inr ⟨hfresh, hfree, hlast, by dsimp only; rw [hnew, Function.update_self]⟩⟩
      dsimp only
      rw [hnew, Function.update_of_ne hne]
  · -- `brelse`: the list view moves the buffer when its count reaches 0
    have hrel := (brelse_refines ⟨hbuf, hl⟩ hall b).2
    rw [LruCache.brelse_order, ← hbuf] at hrel
    have hiff : (c.buf b).refcnt - 1 = 0 ↔ (c.buf b).refcnt = 1 := by omega
    simp only [hiff] at hrel
    exact hrel

/-- `bget(0, 0)` right after `binit` finds block 0 of device 0 in buffer 29, the front of the
list, since `binit` leaves that block in every buffer. -/
theorem bget_binit_boot_block :
    bget binit 0 0 =
      some ({ binit with buf := Function.update binit.buf 29 { bootBuf with refcnt := 1 } }, 29) := by
  have hfind : (List.finRange NBUF).reverse.find?
      (fun b => ((fun _ => bootBuf) b : Buf).dev == 0 && ((fun _ => bootBuf) b : Buf).blockno == 0) =
      some 29 := by decide
  rw [bget_refines binit_represents]
  unfold LruCache.bget
  rw [hfind]
  rfl

/-- From boot, `bget(0, 0)` takes the buffer at the front of the list, and the `brelse` that
follows reaches a state whose links still hold every buffer once. -/
theorem bcache_invariant_at_boot :
    let c₁ : BCache := { binit with buf := Function.update binit.buf 29 { bootBuf with refcnt := 1 } }
    bget binit 0 0 = some (c₁, 29) ∧ BReach (brelse c₁ 29) ∧
      ∃ order : List (Fin NBUF), Links (brelse c₁ 29).next (brelse c₁ 29).prev order ∧ ∀ b, b ∈ order := by
  intro c₁
  have hreach : BReach (brelse c₁ 29) := .brelse 29 (.bget 0 0 .init bget_binit_boot_block) (by decide)
  obtain ⟨order, hl, hall, -⟩ := bcache_invariant hreach
  exact ⟨bget_binit_boot_block, hreach, order, hl, hall⟩

/-- Asked for block 0 of device 0 after `binit`, `bget` finds it in the first buffer of the
list, and the other buffers hold it too: buffers 0 and 1 both hold the block asked for. -/
theorem bget_boot_block_held_twice :
    ∃ c' b, bget binit 0 0 = some (c', b) ∧ (c'.buf 0).ident = (0, 0) ∧ (c'.buf 1).ident = (0, 0) :=
  ⟨_, _, bget_binit_boot_block, by decide, by decide⟩

end Xv6
