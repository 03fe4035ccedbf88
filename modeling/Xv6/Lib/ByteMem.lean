import Mathlib.Tactic.Ring
/-! Byte-addressed memory. Multi-byte words are little-endian; a block fill and a
block copy are range updates. Each update comes with the frame lemma that says
which addresses it can touch. -/
namespace ByteMem

/-- A byte at every address. -/
abbrev Memory := Nat → UInt8

/-- Store one byte. -/
def setByte (m : Memory) (a : Nat) (b : UInt8) : Memory :=
  fun x => if x = a then b else m x

/-- The little-endian number spelled by the `n` bytes at `a`. -/
def readLE (m : Memory) (a : Nat) : Nat → Nat
  | 0 => 0
  | n + 1 => (m a).toNat + 256 * readLE m (a + 1) n

/-- Store the low `n` bytes of `v` at `a`, least significant byte first. -/
def writeLE (m : Memory) (a v n : Nat) : Memory :=
  fun x => if a ≤ x ∧ x < a + n then UInt8.ofNat (v / 256 ^ (x - a)) else m x

/-- Set `n` bytes at `a` to `c`. -/
def fill (m : Memory) (a n : Nat) (c : UInt8) : Memory :=
  fun x => if a ≤ x ∧ x < a + n then c else m x

/-- Copy `n` bytes from `src` to `dst`, every byte read before any is written. -/
def copy (m : Memory) (dst src n : Nat) : Memory :=
  fun x => if dst ≤ x ∧ x < dst + n then m (src + (x - dst)) else m x

/-- Copy `n` bytes from `src` in the memory `m'` to `dst` in `m`: a copy between two
memories, which cannot overlap. -/
def copyFrom (m : Memory) (dst : Nat) (m' : Memory) (src n : Nat) : Memory :=
  fun x => if dst ≤ x ∧ x < dst + n then m' (src + (x - dst)) else m x

/-- A 64-bit word. -/
def read64 (m : Memory) (a : Nat) : Nat := readLE m a 8

def write64 (m : Memory) (a v : Nat) : Memory := writeLE m a v 8

@[simp] theorem setByte_apply (m : Memory) (a x : Nat) (b : UInt8) :
    setByte m a b x = if x = a then b else m x := rfl

theorem fill_apply (m : Memory) (a n x : Nat) (c : UInt8) :
    fill m a n c x = if a ≤ x ∧ x < a + n then c else m x := rfl

theorem copy_apply (m : Memory) (dst src n x : Nat) :
    copy m dst src n x = if dst ≤ x ∧ x < dst + n then m (src + (x - dst)) else m x := rfl

theorem copy_apply_add (m : Memory) {dst src n k : Nat} (hk : k < n) :
    copy m dst src n (dst + k) = m (src + k) := by
  rw [copy_apply, if_pos ⟨Nat.le_add_right dst k, by omega⟩, Nat.add_sub_cancel_left]

theorem copyFrom_apply (m : Memory) (dst : Nat) (m' : Memory) (src n x : Nat) :
    copyFrom m dst m' src n x = if dst ≤ x ∧ x < dst + n then m' (src + (x - dst)) else m x := rfl

theorem copyFrom_apply_add (m : Memory) {dst : Nat} (m' : Memory) {src n k : Nat} (hk : k < n) :
    copyFrom m dst m' src n (dst + k) = m' (src + k) := by
  simp only [copyFrom]
  rw [if_pos ⟨Nat.le_add_right dst k, by omega⟩, Nat.add_sub_cancel_left]

theorem copyFrom_of_outside {m m' : Memory} {dst src n x : Nat} (h : x < dst ∨ dst + n ≤ x) :
    copyFrom m dst m' src n x = m x := by
  simp only [copyFrom]
  rw [if_neg (by omega)]

theorem copyFrom_zero (m : Memory) (dst : Nat) (m' : Memory) (src : Nat) :
    copyFrom m dst m' src 0 = m :=
  funext fun _ => copyFrom_of_outside (by omega)

/-- A copy reads only the `n` bytes of its source. -/
theorem copyFrom_congr_src {m m₁ m₂ : Memory} {dst src₁ src₂ n : Nat}
    (h : ∀ j < n, m₁ (src₁ + j) = m₂ (src₂ + j)) :
    copyFrom m dst m₁ src₁ n = copyFrom m dst m₂ src₂ n := by
  funext x
  rw [copyFrom_apply, copyFrom_apply]
  split_ifs with hx
  · rw [h _ (by omega)]
  · rfl

/-- Two copies of consecutive ranges from consecutive bytes of one source are one copy. -/
theorem copyFrom_copyFrom (m : Memory) (dst : Nat) (m' : Memory) (src a b : Nat) :
    copyFrom (copyFrom m dst m' src a) (dst + a) m' (src + a) b = copyFrom m dst m' src (a + b) := by
  funext x
  rw [copyFrom_apply, copyFrom_apply, copyFrom_apply]
  by_cases hb : dst + a ≤ x ∧ x < dst + a + b
  · rw [if_pos hb, if_pos (by omega)]
    congr 1
    omega
  · rw [if_neg hb]
    by_cases ha : dst ≤ x ∧ x < dst + a
    · rw [if_pos ha, if_pos (by omega)]
    · rw [if_neg ha, if_neg (by omega)]

theorem fill_of_outside {m : Memory} {a n x : Nat} (c : UInt8) (h : x < a ∨ a + n ≤ x) :
    fill m a n c x = m x := by
  simp only [fill_apply]
  rw [if_neg (by omega)]

theorem copy_of_outside {m : Memory} {dst src n x : Nat} (h : x < dst ∨ dst + n ≤ x) :
    copy m dst src n x = m x := by
  simp only [copy_apply]
  rw [if_neg (by omega)]

theorem writeLE_of_outside {m : Memory} {a v n x : Nat} (h : x < a ∨ a + n ≤ x) :
    writeLE m a v n x = m x := by
  simp only [writeLE]
  rw [if_neg (by omega)]

/-- A read sees only the bytes it spans. -/
theorem readLE_congr {m m' : Memory} {a : Nat} (n : Nat)
    (h : ∀ x, a ≤ x → x < a + n → m x = m' x) : readLE m a n = readLE m' a n := by
  induction n generalizing a with
  | zero => rfl
  | succ n ih =>
    simp only [readLE]
    rw [h a (le_refl a) (by omega), ih (fun x h1 h2 => h x (by omega) (by omega))]

/-- Two reads agree when the bytes they span agree one for one. -/
theorem readLE_shift {m m' : Memory} {a a' : Nat} (n : Nat) (h : ∀ j < n, m (a + j) = m' (a' + j)) :
    readLE m a n = readLE m' a' n := by
  induction n generalizing a a' with
  | zero => rfl
  | succ n ih =>
    have h0 : m a = m' a' := h 0 (Nat.succ_pos n)
    have hs : ∀ j < n, m (a + 1 + j) = m' (a' + 1 + j) := fun j hj => by
      rw [Nat.add_assoc, Nat.add_assoc, Nat.add_comm 1 j]
      exact h (j + 1) (by omega)
    simp only [readLE]
    rw [h0, ih hs]

theorem readLE_lt (m : Memory) (a n : Nat) : readLE m a n < 256 ^ n := by
  induction n generalizing a with
  | zero => simp [readLE]
  | succ n ih =>
    have hb := (m a).toNat_lt
    have hr := ih (a + 1)
    simp only [readLE, Nat.pow_succ]
    omega

private theorem readLE_digits (v a n k : Nat) :
    readLE (fun x => UInt8.ofNat (v / 256 ^ (x - a))) (a + k) n = v / 256 ^ k % 256 ^ n := by
  induction n generalizing k with
  | zero => simp [readLE, Nat.mod_one]
  | succ n ih =>
    have hk : a + k + 1 = a + (k + 1) := by omega
    have hdiv : v / 256 ^ (k + 1) = v / 256 ^ k / 256 := by
      rw [Nat.pow_succ, Nat.div_div_eq_div_mul]
    have hbyte : (UInt8.ofNat (v / 256 ^ (a + k - a))).toNat = v / 256 ^ k % 256 := by
      rw [UInt8.toNat_ofNat', Nat.add_sub_cancel_left]
    simp only [readLE, hk, ih, hbyte, hdiv]
    rw [Nat.pow_succ', Nat.mod_mul]

/-- Reading back a written word gives its low `n` bytes. -/
theorem readLE_writeLE_self (m : Memory) (a v n : Nat) :
    readLE (writeLE m a v n) a n = v % 256 ^ n := by
  have hc : readLE (writeLE m a v n) a n =
      readLE (fun x => UInt8.ofNat (v / 256 ^ (x - a))) a n :=
    readLE_congr n (fun x h1 h2 => by simp only [writeLE]; rw [if_pos ⟨h1, h2⟩])
  rw [hc]
  simpa using readLE_digits v a n 0

theorem readLE_of_disjoint {m m' : Memory} {a n b k : Nat}
    (hout : ∀ x, (x < a ∨ a + n ≤ x) → m' x = m x) (h : b + k ≤ a ∨ a + n ≤ b) :
    readLE m' b k = readLE m b k :=
  readLE_congr k (fun x h1 h2 => hout x (by omega))

theorem read64_write64_self (m : Memory) (a v : Nat) (hv : v < 2 ^ 64) :
    read64 (write64 m a v) a = v := by
  simp only [read64, write64, readLE_writeLE_self]
  exact Nat.mod_eq_of_lt (by simpa using hv)

theorem read64_lt (m : Memory) (a : Nat) : read64 m a < 2 ^ 64 :=
  readLE_lt m a 8

/-- Two words eight bytes apart or more do not overlap. -/
theorem read64_write64_of_ne (m : Memory) {a b : Nat} (v : Nat) (h : b + 8 ≤ a ∨ a + 8 ≤ b) :
    read64 (write64 m a v) b = read64 m b :=
  readLE_of_disjoint (fun _ hx => writeLE_of_outside hx) h

theorem read64_fill_of_disjoint (m : Memory) {a n b : Nat} (c : UInt8)
    (h : b + 8 ≤ a ∨ a + n ≤ b) : read64 (fill m a n c) b = read64 m b :=
  readLE_of_disjoint (fun _ hx => fill_of_outside c hx) h

theorem readLE_zero (a n : Nat) : readLE (fun _ => 0) a n = 0 := by
  induction n generalizing a with
  | zero => rfl
  | succ n ih => simp [readLE, ih]

/-- A word inside a block of zeros reads 0. -/
theorem readLE_fill_zero (m : Memory) {a n b k : Nat} (h1 : a ≤ b) (h2 : b + k ≤ a + n) :
    readLE (fill m a n 0) b k = 0 := by
  have hc : readLE (fill m a n 0) b k = readLE (fun _ => 0) b k :=
    readLE_congr k fun x hx1 hx2 => by rw [fill_apply, if_pos ⟨by omega, by omega⟩]
  rw [hc, readLE_zero]

/-- `m'` differs from `m` at most where `W` holds. -/
def Keeps (W : Nat → Prop) (m m' : Memory) : Prop := ∀ x, ¬ W x → m' x = m x

section Keeps

variable {W W' : Nat → Prop} {m m' m'' : Memory}

theorem Keeps.refl (W : Nat → Prop) (m : Memory) : Keeps W m m := fun _ _ => rfl

theorem Keeps.trans (h : Keeps W m m') (h' : Keeps W' m' m'') :
    Keeps (fun x => W x ∨ W' x) m m'' :=
  fun x hx => (h' x fun hw => hx (.inr hw)).trans (h x fun hw => hx (.inl hw))

theorem Keeps.mono (h : Keeps W m m') (hw : ∀ x, W x → W' x) : Keeps W' m m' :=
  fun x hx => h x fun h' => hx (hw x h')

/-- A word none of whose bytes may have changed reads the same. -/
theorem Keeps.read64_eq (h : Keeps W m m') {a : Nat} (ha : ∀ x, a ≤ x → x < a + 8 → ¬ W x) :
    read64 m' a = read64 m a :=
  readLE_congr 8 fun x h1 h2 => h x (ha x h1 h2)

theorem keeps_setByte (m : Memory) (a : Nat) (b : UInt8) : Keeps (fun x => x = a) m (setByte m a b) :=
  fun _ hx => by rw [setByte_apply, if_neg hx]

theorem keeps_writeLE (m : Memory) (a v n : Nat) :
    Keeps (fun x => a ≤ x ∧ x < a + n) m (writeLE m a v n) :=
  fun _ hx => writeLE_of_outside (by omega)

theorem keeps_fill (m : Memory) (a n : Nat) (c : UInt8) :
    Keeps (fun x => a ≤ x ∧ x < a + n) m (fill m a n c) :=
  fun _ hx => fill_of_outside c (by omega)

theorem keeps_copyFrom (m : Memory) (dst : Nat) (m' : Memory) (src n : Nat) :
    Keeps (fun x => dst ≤ x ∧ x < dst + n) m (copyFrom m dst m' src n) :=
  fun _ hx => copyFrom_of_outside (by omega)

end Keeps

end ByteMem

