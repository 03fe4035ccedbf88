import Mathlib.Tactic.IntervalCases
import Xv6.User.Ulib

/-! `printint`, `printptr` and `vprintf` of `user/printf.c`, as the characters they write to
`fd`. `printint`'s digit loop is `Nat.toDigits` read backward, in the table
`"0123456789ABCDEF"`. So `%d` writes `toString v` for every `int`, `INT_MIN` included, and
`%x` the hexadecimal digits of `v` as a `uint`. `%l` passes its `uint64` through `printint`'s
`int` parameter, and writes the value modulo `2^32`. -/
namespace Xv6
namespace User

/-- `static char digits[] = "0123456789ABCDEF";` -/
def digits : List Char := "0123456789ABCDEF".toList

/-- `do{ buf[i++] = digits[x % base]; }while((x /= base) != 0);`: the characters of `buf` in
the order they are stored, least significant digit first. `fuel` bounds the passes as in
`Nat.toDigits`; `printint` gives `x + 1`, which the loop never uses up when `1 < base`. -/
def printintLoop (base : Nat) : Nat → Nat → List Char
  | 0, _ => []
  | fuel + 1, x =>
    digits.getD (x % base) '?' :: if x / base = 0 then [] else printintLoop base fuel (x / base)

/-- `printint(fd, xx, base, sgn)`: what it writes. `xx` is an `int`; both `x = -xx` and
`x = xx` store into a `uint`, which keeps the value modulo `2^32`. The loop fills `buf`, a
`'-'` follows for a negative value, and `while(--i >= 0)` writes `buf` backward. -/
def printint (xx : Int) (base : Nat) (sgn : Bool) : List Char :=
  let neg := sgn && decide (xx < 0)
  let x := if neg then (-xx % 2 ^ 32).toNat else (xx % 2 ^ 32).toNat
  (printintLoop base (x + 1) x ++ if neg then ['-'] else []).reverse

/-- `for (i = 0; i < 16; i++, x <<= 4) putc(fd, digits[x >> 60]);` over a `uint64`. -/
def printptrLoop : Nat → Nat → List Char
  | 0, _ => []
  | k + 1, x => digits.getD (x >>> 60) '?' :: printptrLoop k (x <<< 4 % 2 ^ 64)

/-- `printptr(fd, x)`. -/
def printptr (x : Nat) : List Char := '0' :: 'x' :: printptrLoop 16 x

/-- An `int` read by `va_arg(ap, int)` from its 64-bit argument slot: the low 32 bits, two's
complement. The same conversion takes `%l`'s `uint64` into `printint`'s `int`. -/
def toInt32 (w : Nat) : Int :=
  if w % 2 ^ 32 < 2 ^ 31 then (w % 2 ^ 32 : Nat) else ((w % 2 ^ 32 : Nat) : Int) - 2 ^ 32

/-- `vprintf`'s `state`: 0, or `'%'` right after a percent sign. -/
inductive FmtState
  | plain
  | percent
  deriving DecidableEq, Repr

/-- The loop of `vprintf(fd, fmt, ap)` over the characters of `fmt` before its NUL, with the
arguments as the 64-bit words `va_arg` takes in turn. `str p` is the string at `p` up to its
NUL, for `%s`. -/
def vprintfLoop (str : Nat → List Char) : List Char → FmtState → List Nat → List Char
  | [], _, _ => []
  | c :: fmt, .plain, args =>
    if c = '%' then vprintfLoop str fmt .percent args
    else c :: vprintfLoop str fmt .plain args
  | c :: fmt, .percent, args =>
    let a := args.headD 0
    if c = 'd' then printint (toInt32 a) 10 true ++ vprintfLoop str fmt .plain args.tail
    else if c = 'l' then printint (toInt32 a) 10 false ++ vprintfLoop str fmt .plain args.tail
    else if c = 'x' then printint (toInt32 a) 16 false ++ vprintfLoop str fmt .plain args.tail
    else if c = 'p' then printptr a ++ vprintfLoop str fmt .plain args.tail
    else if c = 's' then
      (if a = 0 then "(null)".toList else str a) ++ vprintfLoop str fmt .plain args.tail
    else if c = 'c' then Char.ofNat (a % 256) :: vprintfLoop str fmt .plain args.tail
    else if c = '%' then c :: vprintfLoop str fmt .plain args
    else '%' :: c :: vprintfLoop str fmt .plain args

/-- `vprintf(fd, fmt, ap)`: the characters it writes. -/
def vprintf (str : Nat → List Char) (fmt : List Char) (args : List Nat) : List Char :=
  vprintfLoop str fmt .plain args

/-- The table holds the digits `Nat.toDigits` uses, in upper case. -/
theorem digits_getD {d : Nat} (hd : d < 16) : digits.getD d '?' = (Nat.digitChar d).toUpper := by
  interval_cases d <;> rfl

/-- With enough fuel, the loop stores the digits of `x` least significant first. -/
theorem printintLoop_reverse {base : Nat} (hb : 1 < base) (hb16 : base ≤ 16) :
    ∀ fuel x, x < fuel →
      (printintLoop base fuel x).reverse = (Nat.toDigits base x).map Char.toUpper := by
  intro fuel
  induction fuel with
  | zero => intro x hx; omega
  | succ fuel ih =>
    intro x hx
    have hd : digits.getD (x % base) '?' = (Nat.digitChar (x % base)).toUpper :=
      digits_getD (by have := Nat.mod_lt x (show 0 < base by omega); omega)
    rw [printintLoop, hd]
    by_cases hq : x / base = 0
    · -- one digit
      have hlt : x < base := (Nat.div_eq_zero_iff_lt (by omega)).mp hq
      rw [if_pos hq, Nat.toDigits_of_lt_base hlt, Nat.mod_eq_of_lt hlt]
      rfl
    · -- the digits of `x / base`, then the last one
      have hle : base ≤ x := Nat.not_lt.mp fun h => hq ((Nat.div_eq_zero_iff_lt (by omega)).mpr h)
      have hdiv : x / base < fuel := by
        have := Nat.div_lt_self (show 0 < x by omega) hb
        omega
      rw [if_neg hq, List.reverse_cons, ih (x / base) hdiv, Nat.toDigits_of_base_le hb hle,
        List.map_append]
      rfl

theorem toUpper_of_isDigit {c : Char} (h : c.isDigit) : c.toUpper = c := by
  have ha : ('a' : Char).val.toNat = 97 := rfl
  have h9 : ('9' : Char).val.toNat = 57 := rfl
  simp only [Char.isDigit, Bool.and_eq_true, decide_eq_true_eq, UInt32.le_iff_toNat_le,
    ge_iff_le] at h
  unfold Char.toUpper
  rw [dif_neg]
  simp only [UInt32.le_iff_toNat_le, not_and]
  intro h1
  omega

/-- Decimal digits are their own upper case. -/
theorem toDigits_ten_toUpper (n : Nat) :
    (Nat.toDigits 10 n).map Char.toUpper = Nat.toDigits 10 n := by
  rw [List.map_congr_left fun c hc =>
    toUpper_of_isDigit (Nat.isDigit_of_mem_toDigits (by decide) (by decide) hc), List.map_id']

/-- Without a sign, `printint` writes the digits of `xx` read as a `uint`. -/
theorem printint_unsigned (xx : Int) {base : Nat} (hb : 1 < base) (hb16 : base ≤ 16) :
    printint xx base false = (Nat.toDigits base (xx % 2 ^ 32).toNat).map Char.toUpper := by
  simp only [printint, Bool.false_and, Bool.false_eq_true, if_false, List.append_nil]
  exact printintLoop_reverse hb hb16 _ _ (Nat.lt_succ_self _)

/-- With a sign, `printint` writes the decimal representation of every `int`: the minus sign,
then the digits of `-xx`, which as a `uint` is `-xx` itself, `INT_MIN` included. -/
theorem printint_decimal {xx : Int} (h1 : -2 ^ 31 ≤ xx) (h2 : xx < 2 ^ 31) :
    printint xx 10 true = xx.repr.toList := by
  cases xx with
  | ofNat m =>
    rw [Int.ofNat_eq_natCast] at h2 ⊢
    have hm : ((m : Int) % 2 ^ 32).toNat = m := by omega
    have hpos : ¬ (m : Int) < 0 := by omega
    simp only [printint, Bool.true_and, decide_eq_false hpos, Bool.false_eq_true, if_false,
      List.append_nil, hm]
    rw [printintLoop_reverse (by decide) (by decide) _ _ (Nat.lt_succ_self m),
      toDigits_ten_toUpper]
    exact Nat.toList_repr.symm
  | negSucc m =>
    have hm : (-Int.negSucc m % 2 ^ 32).toNat = m + 1 := by omega
    have hneg : Int.negSucc m < 0 := Int.negSucc_lt_zero m
    simp only [printint, Bool.true_and, decide_eq_true hneg, if_true, hm, List.reverse_append]
    rw [printintLoop_reverse (by decide) (by decide) _ _ (Nat.lt_succ_self _),
      toDigits_ten_toUpper]
    show ['-'] ++ Nat.toDigits 10 (m + 1) = ("-" ++ Nat.repr (m + 1)).toList
    rw [String.toList_append, Nat.toList_repr]
    rfl

theorem toInt32_bounds (w : Nat) : -2 ^ 31 ≤ toInt32 w ∧ toInt32 w < 2 ^ 31 := by
  unfold toInt32
  split_ifs <;> omega

/-- The conversion keeps the value modulo `2^32`. -/
theorem toInt32_toNat (w : Nat) : (toInt32 w % 2 ^ 32).toNat = w % 2 ^ 32 := by
  unfold toInt32
  split_ifs <;> omega

/-- Every `int` is the value of some argument word. -/
theorem toInt32_surj {v : Int} (h1 : -2 ^ 31 ≤ v) (h2 : v < 2 ^ 31) :
    toInt32 (v % 2 ^ 32).toNat = v := by
  unfold toInt32
  split_ifs <;> omega

section Conversions

variable (str : Nat → List Char) (w : Nat) (fmt : List Char) (args : List Nat)

/-- Text without a percent sign is written as it stands. -/
theorem vprintfLoop_plain_append {pre : List Char} (h : '%' ∉ pre) :
    vprintfLoop str (pre ++ fmt) .plain args = pre ++ vprintfLoop str fmt .plain args := by
  induction pre with
  | nil => rfl
  | cons c pre ih =>
    have hc : c ≠ '%' := fun he => h (he ▸ List.mem_cons_self)
    rw [List.cons_append, vprintfLoop, if_neg hc, ih fun hm => h (List.mem_cons_of_mem c hm)]
    rfl

/-- `%d` writes the argument's decimal representation as an `int`. -/
theorem vprintfLoop_d : vprintfLoop str ('%' :: 'd' :: fmt) .plain (w :: args) =
    (toInt32 w).repr.toList ++ vprintfLoop str fmt .plain args := by
  show printint (toInt32 w) 10 true ++ _ = _
  rw [printint_decimal (toInt32_bounds w).1 (toInt32_bounds w).2]
  rfl

/-- `%x` writes the hexadecimal digits of the argument as a `uint`. -/
theorem vprintfLoop_x : vprintfLoop str ('%' :: 'x' :: fmt) .plain (w :: args) =
    (Nat.toDigits 16 (w % 2 ^ 32)).map Char.toUpper ++ vprintfLoop str fmt .plain args := by
  show printint (toInt32 w) 16 false ++ _ = _
  rw [printint_unsigned _ (by decide) (by decide), toInt32_toNat]
  rfl

/-- `%l` writes the decimal digits of its `uint64` modulo `2^32`. -/
theorem vprintf_l : vprintf str ['%', 'l'] [w] = Nat.toDigits 10 (w % 2 ^ 32) := by
  show printint (toInt32 w) 10 false ++ [] = _
  rw [List.append_nil, printint_unsigned _ (by decide) (by decide), toInt32_toNat, toDigits_ten_toUpper]

/-- `printf(fmt, v, ...)` for every `int` `v`, `INT_MIN` included: the text before the first
conversion as it stands, then `%d` as `v`'s decimal representation and `%x` as the
hexadecimal digits of `v` as a `uint`, then the rest of the format with the other arguments. -/
theorem printf_int_conversions (pre : List Char) (v : Int) (h : '%' ∉ pre)
    (h1 : -2 ^ 31 ≤ v) (h2 : v < 2 ^ 31) :
    vprintf str (pre ++ '%' :: 'd' :: fmt) ((v % 2 ^ 32).toNat :: args) =
      pre ++ v.repr.toList ++ vprintf str fmt args ∧
    vprintf str (pre ++ '%' :: 'x' :: fmt) ((v % 2 ^ 32).toNat :: args) =
      pre ++ (Nat.toDigits 16 (v % 2 ^ 32).toNat).map Char.toUpper ++ vprintf str fmt args := by
  have hmod : (v % 2 ^ 32).toNat % 2 ^ 32 = (v % 2 ^ 32).toNat := by omega
  constructor
  · rw [vprintf, vprintfLoop_plain_append _ _ _ h, vprintfLoop_d, toInt32_surj h1 h2,
      List.append_assoc]
    rfl
  · rw [vprintf, vprintfLoop_plain_append _ _ _ h, vprintfLoop_x, hmod, List.append_assoc]
    rfl

/-- `printf("n=%d\n", INT_MIN)` and `printf("n=%x\n", INT_MIN)`. -/
theorem printf_int_conversions_min :
    vprintf (fun _ => []) ("n=".toList ++ '%' :: 'd' :: ['\n']) [2 ^ 31] =
      "n=-2147483648\n".toList ∧
    vprintf (fun _ => []) ("n=".toList ++ '%' :: 'x' :: ['\n']) [2 ^ 31] =
      "n=80000000\n".toList := by
  obtain ⟨hd, hx⟩ := printf_int_conversions (fun _ => []) ['\n'] [] "n=".toList (-2 ^ 31)
    (by decide) (by decide) (by decide)
  exact ⟨hd.trans (by decide), hx.trans (by decide)⟩

end Conversions

/-- `printf("%l", 4294967296)` writes `0`, not the decimal representation of `2^32`. -/
theorem printf_l_drops_high_bits :
    vprintf (fun _ => []) ['%', 'l'] [2 ^ 32] = ['0'] ∧ ['0'] ≠ (Nat.repr (2 ^ 32)).toList := by
  refine ⟨by rw [vprintf_l, Nat.mod_self, Nat.toDigits_zero], ?_⟩
  decide

end User
end Xv6
