import Tos.Rlp.Stream
import Mathlib.Data.BitVec

/-!
# The arithmetic of the virtual machine

The stack of the interpreter holds 256-bit words. Most instructions are one operation of the
integer library on them; this file has those that take several steps, as the cases of
`LegacyVM::interpretCases` carry them out, and says what they compute.

## Main results

* `sdiv_eq`, `smod_eq`: truncated division of the signed values.
* `sar_eq`: division by a power of two, rounded down.
* `signextend_eq`, `byte_eq`, `exp256_eq`.
* `significantBytes_eq`: `32 - firstBitSet / 8` is the number of significant bytes.

## Implementation notes

The signed types of the integer library keep a sign and a magnitude of the full width, so `s256`
holds every number of magnitude below `2 ^ 256`. A signed number is an `ℤ` here, and a conversion
into a signed type cuts its magnitude.
-/

namespace Tos.Tvm

open BitVec (eq_of_getLsbD_eq eq_of_toNat_eq getLsbD_and getLsbD_not getLsbD_or getLsbD_shiftLeft
  getLsbD_ushiftRight getLsbD_zero toNat_mul toNat_ofInt toNat_ofNat toNat_ushiftRight)

/-- `u256`. -/
abbrev U256 := BitVec 256

/-- `Address`, a hash of 20 bytes. -/
abbrev Address := BitVec 160

/-- `asAddress`: the low 160 bits of a word. -/
def asAddress (item : U256) : Address := item.setWidth 160

/-- `fromAddress`. -/
def fromAddress (a : Address) : U256 := a.setWidth 256

/-- The bytes of a word, most significant first, as `h256` keeps them. -/
def wordBytes (x : U256) : Bytes := BigEndian.fixed 32 x.toNat

/-- The word with these bytes. -/
def ofWordBytes (b : Bytes) : U256 := BitVec.ofNat 256 (BigEndian.value b)

@[simp] lemma length_wordBytes (x : U256) : (wordBytes x).length = 32 :=
  BigEndian.length_fixed (by simpa using x.isLt)

/-! ### Signed numbers -/

/-- A number as a sign and a magnitude of `w` bits. -/
def signMagnitude (w : ℕ) (z : ℤ) : ℤ := z.sign * ((z.natAbs % 2 ^ w : ℕ) : ℤ)

/-- `s256`. -/
def s256 (z : ℤ) : ℤ := signMagnitude 256 z

/-- `s512`. -/
def s512 (z : ℤ) : ℤ := signMagnitude 512 z

lemma signMagnitude_of_lt {w : ℕ} {z : ℤ} (h : z.natAbs < 2 ^ w) : signMagnitude w z = z := by
  rw [signMagnitude, Nat.mod_eq_of_lt h, Int.sign_mul_natAbs]

/-- `u2s`: the signed number that a word stands for in two's complement. -/
def u2s (u : U256) : ℤ :=
  if u.getLsbD 255 then s256 (-(2 ^ 256 - (u.toNat : ℤ))) else s256 u.toNat

/-- `s2u`: the two's complement of a signed number. -/
def s2u (z : ℤ) : U256 :=
  if 0 ≤ z then BitVec.ofInt 256 z else BitVec.ofInt 256 (2 ^ 256 + z)

/-- `divWorkaround`, without the conversion of the result. -/
def divWorkaround (a b : ℤ) : ℤ := (s512 a).tdiv (s512 b)

/-- `modWorkaround`, without the conversion of the result. -/
def modWorkaround (a b : ℤ) : ℤ := (s512 a).tmod (s512 b)

/-- The result of `DIV`. -/
def div (a b : U256) : U256 :=
  if b ≠ 0#256 then BitVec.ofInt 256 (divWorkaround a.toNat b.toNat) else 0#256

/-- The result of `MOD`. -/
def mod (a b : U256) : U256 :=
  if b ≠ 0#256 then BitVec.ofInt 256 (modWorkaround a.toNat b.toNat) else 0#256

/-- The result of `SDIV`. -/
def sdiv (a b : U256) : U256 :=
  if b ≠ 0#256 then s2u (s256 (divWorkaround (u2s a) (u2s b))) else 0#256

/-- The result of `SMOD`. -/
def smod (a b : U256) : U256 :=
  if b ≠ 0#256 then s2u (s256 (modWorkaround (u2s a) (u2s b))) else 0#256

lemma u2s_eq_toInt (u : U256) : u2s u = u.toInt := by
  have hu := u.isLt
  have hbit : u.getLsbD 255 = decide (2 ^ 255 ≤ u.toNat) := by
    rw [BitVec.getLsbD, Nat.testBit_eq_decide_div_mod_eq]
    rw [decide_eq_decide]
    omega
  rw [u2s, hbit, BitVec.toInt_eq_toNat_cond]
  by_cases h : 2 ^ 255 ≤ u.toNat
  · rw [if_pos (by simpa using h), if_neg (by omega), s256, signMagnitude_of_lt (by omega)]
    push_cast
    ring
  · rw [if_neg (by simpa using h), if_pos (by omega), s256, signMagnitude_of_lt (by omega)]

lemma s2u_eq_ofInt (z : ℤ) : s2u z = BitVec.ofInt 256 z := by
  rw [s2u]
  split_ifs
  · rfl
  · apply eq_of_toNat_eq
    rw [toNat_ofInt, toNat_ofInt]
    congr 1
    simp

/-- The signed value of a word is of magnitude at most `2 ^ 255`. -/
lemma natAbs_toInt_lt (u : U256) {w : ℕ} (hw : 255 < w) : u.toInt.natAbs < 2 ^ w := by
  have hlo := BitVec.le_toInt u
  have hhi := BitVec.toInt_lt (x := u)
  have hle : u.toInt.natAbs ≤ 2 ^ 255 := by
    norm_num at hlo hhi ⊢
    omega
  exact hle.trans_lt (Nat.pow_lt_pow_right (by omega) hw)

lemma s512_toInt (u : U256) : s512 u.toInt = u.toInt :=
  signMagnitude_of_lt (natAbs_toInt_lt u (by omega))

/-- `SDIV` is truncated division; by zero it gives zero, and `-2 ^ 255 / -1` comes back to
`-2 ^ 255`. -/
theorem sdiv_eq (a b : U256) : sdiv a b = BitVec.ofInt 256 (a.toInt.tdiv b.toInt) := by
  rw [sdiv]
  split_ifs with hb
  · rw [divWorkaround, u2s_eq_toInt, u2s_eq_toInt, s512_toInt, s512_toInt, s2u_eq_ofInt, s256,
      signMagnitude_of_lt]
    calc (a.toInt.tdiv b.toInt).natAbs ≤ a.toInt.natAbs := by
          rw [Int.natAbs_tdiv]
          exact Nat.div_le_self _ _
      _ < 2 ^ 256 := natAbs_toInt_lt a (by omega)
  · simp only [ne_eq, not_not] at hb
    subst hb
    simp

/-- `SMOD` is the remainder of truncated division, with the sign of the dividend. -/
theorem smod_eq (a b : U256) :
    smod a b = if b = 0#256 then 0#256 else BitVec.ofInt 256 (a.toInt.tmod b.toInt) := by
  rw [smod]
  by_cases hb : b = 0#256
  · simp [hb]
  · rw [if_pos hb, if_neg hb, modWorkaround, u2s_eq_toInt, u2s_eq_toInt, s512_toInt, s512_toInt,
      s2u_eq_ofInt, s256, signMagnitude_of_lt]
    calc (a.toInt.tmod b.toInt).natAbs ≤ a.toInt.natAbs := by
          rw [Int.natAbs_tmod]
          exact Nat.mod_le _ _
      _ < 2 ^ 256 := natAbs_toInt_lt a (by omega)

/-! ### Shifts and bytes -/

/-- The result of `SAR`. -/
def sar (shift shiftee : U256) : U256 :=
  let hibit : U256 := 1#256 <<< 255
  let allbits : U256 := BitVec.allOnes 256
  if 256 ≤ shift.toNat then
    if shiftee &&& hibit ≠ 0#256 then allbits else 0#256
  else
    let amount := shift.toNat
    if shiftee &&& hibit ≠ 0#256 then shiftee >>> amount ||| allbits <<< (256 - amount)
    else shiftee >>> amount

/-- The result of `SIGNEXTEND`: the second operand, changed in place. -/
def signextend (k number : U256) : U256 :=
  if k.toNat < 31 then
    let testBit := k.toNat * 8 + 7
    let mask : U256 := (1#256 <<< testBit) - 1#256
    if number.getLsbD testBit then number ||| ~~~mask else number &&& mask
  else number

/-- The result of `BYTE`. -/
def byte (i x : U256) : U256 :=
  if i.toNat < 32 then (x >>> ((8#256 * (31#256 - i)).toNat % 2 ^ 32)) &&& 0xff#256 else 0#256

/-- The test for the sign of a word in `SAR`. -/
lemma and_hibit_ne_zero (x : U256) : x &&& (1#256 <<< 255) ≠ 0#256 ↔ x.msb = true := by
  have hbit (i : ℕ) (hi : i < 256) :
      (x &&& (1#256 <<< 255)).getLsbD i = (x.getLsbD i && decide (i = 255)) := by
    rw [getLsbD_and, getLsbD_shiftLeft, BitVec.getLsbD_one]
    congr 1
    rw [Bool.eq_iff_iff]
    simp only [hi, decide_true, Bool.true_and, Bool.and_eq_true, Bool.not_eq_true',
      decide_eq_false_iff_not, decide_eq_true_eq]
    omega
  rw [BitVec.msb_eq_getLsbD_last]
  constructor
  · intro h
    by_contra hx
    refine h (eq_of_getLsbD_eq fun i hi => ?_)
    rw [hbit i hi, getLsbD_zero]
    by_cases h255 : i = 255
    · subst h255
      simpa using hx
    · simp [h255]
  · intro h hzero
    have h255 := hbit 255 (by omega)
    rw [hzero, getLsbD_zero] at h255
    simp only [decide_true, Bool.and_true] at h255
    rw [← h255] at h
    exact Bool.false_ne_true h

/-- An arithmetic shift of a word is division by a power of two, rounded down. -/
lemma sshiftRight_eq_ofInt (x : U256) (n : ℕ) :
    x.sshiftRight n = BitVec.ofInt 256 (x.toInt / 2 ^ n) := by
  rw [BitVec.sshiftRight, Int.shiftRight_eq_div_pow]
  norm_cast

/-- `SAR` is the arithmetic shift, for every amount. -/
lemma sar_eq_sshiftRight (shift x : U256) : sar shift x = x.sshiftRight shift.toNat := by
  apply eq_of_getLsbD_eq
  intro i hi
  have hge : ¬ 256 ≤ i := by omega
  rw [sar, BitVec.getLsbD_sshiftRight]
  simp only [and_hibit_ne_zero, hge, decide_false, Bool.not_false, Bool.true_and]
  by_cases hs : 256 ≤ shift.toNat
  · have hout : ¬ shift.toNat + i < 256 := by omega
    rw [if_pos hs, if_neg hout]
    cases hmsb : x.msb with
    | false => rw [if_neg Bool.false_ne_true, getLsbD_zero]
    | true => rw [if_pos rfl, BitVec.getLsbD_allOnes, decide_eq_true hi]
  · rw [if_neg hs]
    by_cases hlt : shift.toNat + i < 256
    · -- The bits that were shifted down are those of the operand.
      rw [if_pos hlt]
      split_ifs with hmsb
      · have hlow : i < 256 - shift.toNat := by omega
        rw [getLsbD_or, getLsbD_ushiftRight, getLsbD_shiftLeft,
          decide_eq_true hlow, Bool.not_true, Bool.and_false, Bool.false_and, Bool.or_false]
      · rw [getLsbD_ushiftRight]
    · -- The bits that came in are copies of the sign.
      rw [if_neg hlt]
      have hbeyond : x.getLsbD (shift.toNat + i) = false := BitVec.getLsbD_of_ge _ _ (by omega)
      cases hmsb : x.msb with
      | false => rw [if_neg Bool.false_ne_true, getLsbD_ushiftRight, hbeyond]
      | true =>
        have hhigh : ¬ i < 256 - shift.toNat := by omega
        have hin : i - (256 - shift.toNat) < 256 := by omega
        rw [if_pos rfl, getLsbD_or, getLsbD_ushiftRight, hbeyond, Bool.false_or,
          getLsbD_shiftLeft, decide_eq_true hi, decide_eq_false hhigh,
          BitVec.getLsbD_allOnes, decide_eq_true hin]
        rfl

theorem sar_eq (shift x : U256) : sar shift x = BitVec.ofInt 256 (x.toInt / 2 ^ shift.toNat) := by
  rw [sar_eq_sshiftRight, sshiftRight_eq_ofInt]

/-- The mask of `SIGNEXTEND` has the bits below the tested one. -/
lemma getLsbD_mask {t : ℕ} (ht : t < 256) (i : ℕ) :
    ((1#256 <<< t) - 1#256).getLsbD i = decide (i < t) := by
  have hpow : 2 ^ t < 2 ^ 256 := Nat.pow_lt_pow_right (by omega) ht
  have hpos : 0 < 2 ^ t := Nat.two_pow_pos t
  have hshift : (1#256 <<< t).toNat = 2 ^ t := by
    rw [BitVec.toNat_shiftLeft, BitVec.toNat_one (by omega), Nat.shiftLeft_eq, one_mul,
      Nat.mod_eq_of_lt hpow]
  have hmask : ((1#256 <<< t) - 1#256).toNat = 2 ^ t - 1 := by
    rw [BitVec.toNat_sub_of_le (by rw [BitVec.le_def, hshift]; exact hpos), hshift]
    rfl
  rw [BitVec.getLsbD, hmask, Nat.testBit_two_pow_sub_one]

/-- `SIGNEXTEND` takes byte `k`, counted from the least significant one, as the sign byte. -/
theorem signextend_eq (k x : U256) :
    signextend k x =
      if k.toNat < 31 then (x.setWidth (8 * (k.toNat + 1))).signExtend 256 else x := by
  simp only [signextend]
  by_cases hk : k.toNat < 31
  · rw [if_pos hk, if_pos hk]
    have ht : k.toNat * 8 + 7 < 256 := by omega
    apply eq_of_getLsbD_eq
    intro i hi
    have hmsb : (x.setWidth (8 * (k.toNat + 1))).msb = x.getLsbD (k.toNat * 8 + 7) := by
      rw [BitVec.msb_eq_getLsbD_last, BitVec.getLsbD_setWidth, decide_eq_true (by omega),
        Bool.true_and]
      congr 1
      omega
    rw [BitVec.getLsbD_signExtend, hmsb, decide_eq_true hi, Bool.true_and,
      BitVec.getLsbD_setWidth]
    by_cases hlow : i < 8 * (k.toNat + 1)
    · rw [if_pos hlow, decide_eq_true hlow, Bool.true_and]
      by_cases htop : i = k.toNat * 8 + 7
      · subst htop
        split_ifs with hbit
        · rw [getLsbD_or, hbit, Bool.true_or]
        · rw [getLsbD_and, Bool.eq_false_of_not_eq_true hbit, Bool.false_and]
      · have hbelow : i < k.toNat * 8 + 7 := by omega
        split_ifs with hbit
        · rw [getLsbD_or, getLsbD_not, getLsbD_mask ht, decide_eq_true hbelow,
            Bool.not_true, Bool.and_false, Bool.or_false]
        · rw [getLsbD_and, getLsbD_mask ht, decide_eq_true hbelow, Bool.and_true]
    · have habove : ¬ i < k.toNat * 8 + 7 := by omega
      rw [if_neg hlow]
      split_ifs with hbit
      · rw [hbit, getLsbD_or, getLsbD_not, getLsbD_mask ht, decide_eq_false habove,
          decide_eq_true hi, Bool.not_false, Bool.and_true, Bool.or_true]
      · rw [getLsbD_and, getLsbD_mask ht, decide_eq_false habove, Bool.and_false,
          Bool.eq_false_of_not_eq_true hbit]
  · rw [if_neg hk, if_neg hk]

/-- `BYTE` gives byte `i`, counted from the most significant one. -/
theorem byte_eq (i x : U256) :
    byte i x = BitVec.ofNat 256 (if i.toNat < 32 then x.toNat / 256 ^ (31 - i.toNat) % 256
      else 0) := by
  rw [byte]
  split_ifs with hi
  · have hamount : (8#256 * (31#256 - i)).toNat % 2 ^ 32 = 8 * (31 - i.toNat) := by
      have : (31#256 - i).toNat = 31 - i.toNat := by
        rw [BitVec.toNat_sub]
        simp
        omega
      rw [toNat_mul, this]
      simp
      omega
    apply eq_of_toNat_eq
    have hand : ∀ n : ℕ, n &&& 255 = n % 256 := fun n => Nat.and_two_pow_sub_one_eq_mod n 8
    rw [hamount, BitVec.toNat_and, toNat_ushiftRight, Nat.shiftRight_eq_div_pow,
      Nat.pow_mul, toNat_ofNat, toNat_ofNat]
    norm_num
    rw [hand]
    omega
  · rfl

/-! ### Exponentiation -/

/-- The loop of `exp256`: exponentiation by squaring. -/
def exp256Loop (result base exponent : U256) : U256 :=
  if exponent = 0#256 then result
  else exp256Loop (if exponent.getLsbD 0 then result * base else result) (base * base)
    (exponent >>> 1)
termination_by exponent.toNat
decreasing_by
  rename_i h
  have hpos : exponent.toNat ≠ 0 := fun hz => h (eq_of_toNat_eq (by simpa using hz))
  rw [toNat_ushiftRight, Nat.shiftRight_eq_div_pow]
  omega

/-- `LegacyVM::exp256`. -/
def exp256 (base exponent : U256) : U256 := exp256Loop 1#256 base exponent

/-- The loop multiplies the result by the power that is left to be taken. -/
lemma toNat_exp256Loop (result base exponent : U256) :
    (exp256Loop result base exponent).toNat =
      result.toNat * base.toNat ^ exponent.toNat % 2 ^ 256 := by
  fun_induction exp256Loop result base exponent with
  | case1 result base =>
    rw [toNat_ofNat, Nat.zero_mod, pow_zero, mul_one, Nat.mod_eq_of_lt result.isLt]
  | case2 result base exponent h ih =>
    simp only [dite_eq_ite] at ih
    have hodd : exponent.getLsbD 0 = decide (exponent.toNat % 2 = 1) := Nat.testBit_zero _
    have hhalf : (exponent >>> 1).toNat = exponent.toNat / 2 := by
      rw [toNat_ushiftRight, Nat.shiftRight_eq_div_pow, pow_one]
    have hsquare (n : ℕ) : (base.toNat * base.toNat) ^ n = base.toNat ^ (2 * n) := by
      rw [← pow_two, ← pow_mul]
    rw [ih, hhalf, toNat_mul, Nat.mul_mod, ← Nat.pow_mod, ← Nat.mul_mod, hsquare, hodd]
    by_cases hone : exponent.toNat % 2 = 1
    · have hexp : exponent.toNat = 2 * (exponent.toNat / 2) + 1 := by omega
      rw [if_pos (decide_eq_true hone), toNat_mul, Nat.mod_mul_mod]
      conv_rhs => rw [hexp, pow_succ]
      congr 1
      ring
    · have hexp : 2 * (exponent.toNat / 2) = exponent.toNat := by omega
      rw [if_neg (by simpa using hone), hexp]

theorem exp256_eq (base exponent : U256) :
    exp256 base exponent = BitVec.ofNat 256 (base.toNat ^ exponent.toNat) := by
  apply eq_of_toNat_eq
  rw [exp256, toNat_exp256Loop, toNat_ofNat]
  simp

/-! ### Leading zero bits -/

/-- The inner loop of `FixedHash::firstBitSet`: the zero bits in front of the highest bit of a
byte that is not zero. -/
def highBit : ℕ → UInt8 → ℕ
  | 0, _ => 0
  | n + 1, d => if d &&& 0x80 ≠ 0 then 0 else highBit n (d <<< 1) + 1

/-- `FixedHash::firstBitSet`. -/
def firstBitSet : Bytes → ℕ
  | [] => 0
  | d :: rest => if d ≠ 0 then highBit 8 d else 8 + firstBitSet rest

/-- A byte that is not zero has its highest bit among the eight. -/
lemma highBit_lt {d : UInt8} (h : d ≠ 0) : highBit 8 d < 8 := by
  have hall : ∀ n : Fin 256, UInt8.ofNat n ≠ 0 → highBit 8 (UInt8.ofNat n) < 8 := by decide +kernel
  have := hall ⟨d.toNat, d.toNat_lt⟩
  rw [UInt8.ofNat_toNat] at this
  exact this h

lemma firstBitSet_replicate_append (m : ℕ) (l : Bytes) :
    firstBitSet (List.replicate m 0 ++ l) = 8 * m + firstBitSet l := by
  induction m with
  | zero => simp
  | succ m ih =>
    rw [List.replicate_succ, List.cons_append, firstBitSet, if_neg (by simp), ih]
    ring

/-- The leading zero bits before a byte that is not zero, in whole bytes. -/
lemma firstBitSet_div_eight {l : Bytes} (h : l.head? ≠ some 0) : firstBitSet l / 8 = 0 := by
  cases l with
  | nil => rfl
  | cons d rest =>
    have hd : d ≠ 0 := by simpa using h
    rw [firstBitSet, if_pos hd]
    exact Nat.div_eq_of_lt (highBit_lt hd)

/-- The bytes that `EXP` pays for are the significant bytes of the exponent. -/
theorem significantBytes_eq (x : U256) :
    32 - firstBitSet (wordBytes x) / 8 = (BigEndian.bytes x.toNat).length := by
  have hlen : (BigEndian.bytes x.toNat).length ≤ 32 :=
    BigEndian.length_bytes_le_iff.mpr (by simpa using x.isLt)
  have hhead := firstBitSet_div_eight (BigEndian.head?_bytes_ne_zero x.toNat)
  rw [wordBytes, BigEndian.fixed, firstBitSet_replicate_append]
  omega

end Tos.Tvm
