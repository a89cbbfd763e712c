import Tos.Rlp.Stream

/-!
# Network addresses and their groups

The class `CNetAddr` of `transport/netaddress.cpp`: sixteen bytes in network order, the tests for
the ranges that are set apart by some RFC, and `GetGroup`, the identifier of the part of the
network an address lies in. The node makes at most one connection to each group, so an attacker
who could place one machine in many groups would fill its connections.

An IPv4 address can be written as an IPv6 address in five ways. `GetGroup` looks through all of
them: the group of such an address is the group of the IPv4 address.

## Main results

* `CNetAddr.getGroup_of_embedded`, `getGroup_of_tor`, `getGroup_of_other`: the group of a
  routable address.
* `CNetAddr.getGroup_eq_iff`: when two addresses have one group.

## Implementation notes

`memcmp` of the first bytes with a constant is `startsWith`. The tests are `Bool`-valued functions
under the names of the source. That an address begins with some bytes is a statement about the
quotient of its value by a power of two (`startsWith_iff`), and the description of the groups is in
these terms.
-/

namespace Tos.Net

open List hiding Vector

/-- `enum Network`, without the number of its members. -/
inductive Network where
  | NET_UNROUTABLE
  | NET_IPV4
  | NET_IPV6
  | NET_TOR
  | NET_INTERNAL
  deriving DecidableEq

/-- The number of a network, as the first byte of a group. -/
def Network.code : Network → UInt8
  | NET_UNROUTABLE => 0
  | NET_IPV4 => 1
  | NET_IPV6 => 2
  | NET_TOR => 3
  | NET_INTERNAL => 4

def pchIPv4 : Bytes := [0, 0, 0, 0, 0, 0, 0, 0, 0, 0, 0xff, 0xff]

def pchOnionCat : Bytes := [0xFD, 0x87, 0xD8, 0x7E, 0xEB, 0x43]

def g_internal_prefix : Bytes := [0xFD, 0x6B, 0x88, 0xC0, 0x87, 0x24]

/-- `memcmp(a, b, 16) < 0`. -/
def memcmpLt (a b : Vector UInt8 16) : Bool :=
  BigEndian.value a.toList < BigEndian.value b.toList

lemma value_toList_inj {a b : Vector UInt8 16} :
    BigEndian.value a.toList = BigEndian.value b.toList ↔ a = b := by
  rw [BigEndian.value_inj (by simp), Vector.toList_inj]

/-- The class `CNetAddr`. -/
structure CNetAddr where
  /-- in network byte order -/
  ip : Vector UInt8 16 := Vector.replicate 16 0
  /-- for scoped addresses -/
  scopeId : UInt32 := 0
  deriving DecidableEq

namespace CNetAddr

variable (a : CNetAddr)

/-! ### The tests -/

/-- `memcmp(ip, p, sizeof(p)) == 0`. -/
def startsWith (p : Bytes) : Bool := a.ip.toList.take p.length == p

/-- `CNetAddr::GetByte`. -/
def getByte (n : ℕ) : UInt8 := a.ip[15 - n]

/-- `CNetAddr::IsIPv4`. -/
def isIPv4 : Bool := a.startsWith pchIPv4

/-- `CNetAddr::IsRFC1918`. -/
def isRFC1918 : Bool :=
  a.isIPv4 &&
    (a.getByte 3 == 10 || (a.getByte 3 == 192 && a.getByte 2 == 168) ||
      (a.getByte 3 == 172 && (16 ≤ a.getByte 2 && a.getByte 2 ≤ 31)))

/-- `CNetAddr::IsRFC2544`. -/
def isRFC2544 : Bool :=
  a.isIPv4 && a.getByte 3 == 198 && (a.getByte 2 == 18 || a.getByte 2 == 19)

/-- `CNetAddr::IsRFC3927`. -/
def isRFC3927 : Bool := a.isIPv4 && (a.getByte 3 == 169 && a.getByte 2 == 254)

/-- `CNetAddr::IsRFC6598`. -/
def isRFC6598 : Bool :=
  a.isIPv4 && a.getByte 3 == 100 && (64 ≤ a.getByte 2 && a.getByte 2 ≤ 127)

/-- `CNetAddr::IsRFC5737`. -/
def isRFC5737 : Bool :=
  a.isIPv4 &&
    ((a.getByte 3 == 192 && a.getByte 2 == 0 && a.getByte 1 == 2) ||
      (a.getByte 3 == 198 && a.getByte 2 == 51 && a.getByte 1 == 100) ||
      (a.getByte 3 == 203 && a.getByte 2 == 0 && a.getByte 1 == 113))

/-- `CNetAddr::IsRFC3849`. -/
def isRFC3849 : Bool :=
  a.getByte 15 == 0x20 && a.getByte 14 == 0x01 && a.getByte 13 == 0x0D && a.getByte 12 == 0xB8

/-- `CNetAddr::IsRFC3964`. -/
def isRFC3964 : Bool := a.getByte 15 == 0x20 && a.getByte 14 == 0x02

/-- `CNetAddr::IsRFC6052`. -/
def isRFC6052 : Bool := a.startsWith [0, 0x64, 0xFF, 0x9B, 0, 0, 0, 0, 0, 0, 0, 0]

/-- `CNetAddr::IsRFC4380`. -/
def isRFC4380 : Bool :=
  a.getByte 15 == 0x20 && a.getByte 14 == 0x01 && a.getByte 13 == 0 && a.getByte 12 == 0

/-- `CNetAddr::IsRFC4862`. -/
def isRFC4862 : Bool := a.startsWith [0xFE, 0x80, 0, 0, 0, 0, 0, 0]

/-- `CNetAddr::IsRFC4193`. -/
def isRFC4193 : Bool := (a.getByte 15 &&& 0xFE) == 0xFC

/-- `CNetAddr::IsRFC6145`. -/
def isRFC6145 : Bool := a.startsWith [0, 0, 0, 0, 0, 0, 0, 0, 0xFF, 0xFF, 0, 0]

/-- `CNetAddr::IsRFC4843`. -/
def isRFC4843 : Bool :=
  a.getByte 15 == 0x20 && a.getByte 14 == 0x01 && a.getByte 13 == 0x00 &&
    (a.getByte 12 &&& 0xF0) == 0x10

/-- `CNetAddr::IsTor`. -/
def isTor : Bool := a.startsWith pchOnionCat

/-- `CNetAddr::IsLocal`. -/
def isLocal : Bool :=
  (a.isIPv4 && (a.getByte 3 == 127 || a.getByte 3 == 0)) ||
    a.startsWith [0, 0, 0, 0, 0, 0, 0, 0, 0, 0, 0, 0, 0, 0, 0, 1]

/-- `CNetAddr::IsInternal`. -/
def isInternal : Bool := a.startsWith g_internal_prefix

/-- `CNetAddr::IsValid`. -/
def isValid : Bool :=
  if a.startsWith (pchIPv4.drop 3) then false
  else if a.startsWith (List.replicate 16 0) then false
  else if a.isRFC3849 then false
  else if a.isInternal then false
  else if a.isIPv4 then
    a.ip.toList.drop 12 != [0xff, 0xff, 0xff, 0xff] && a.ip.toList.drop 12 != [0, 0, 0, 0]
  else true

/-- `CNetAddr::IsRoutable`. -/
def isRoutable : Bool :=
  a.isValid &&
    !(a.isRFC1918 || a.isRFC2544 || a.isRFC3927 || a.isRFC4862 || a.isRFC6598 || a.isRFC5737 ||
      (a.isRFC4193 && !a.isTor) || a.isRFC4843 || a.isLocal || a.isInternal)

/-! ### The group -/

/-- The loop of `GetGroup`, with what follows it: `nBits` bits from a byte on, of which the last
byte is filled up with ones. -/
def pushBits (nStartByte nBits : ℕ) : Bytes :=
  if 8 ≤ nBits then a.getByte (15 - nStartByte) :: pushBits (nStartByte + 1) (nBits - 8)
  else if 0 < nBits then [a.getByte (15 - nStartByte) ||| UInt8.ofNat (2 ^ (8 - nBits) - 1)]
  else []
termination_by nBits

/-- `CNetAddr::GetGroup`. A local address that is not for internal usage is not routable, so the
class `255` does not remain. -/
def getGroup : Bytes :=
  let nClass := if a.isLocal then 255 else Network.NET_IPV6.code
  let nBits := if a.isLocal then 0 else 16
  if a.isInternal then
    Network.NET_INTERNAL.code :: a.pushBits g_internal_prefix.length
      ((16 - g_internal_prefix.length) * 8)
  else if !a.isRoutable then Network.NET_UNROUTABLE.code :: a.pushBits 0 0
  else if a.isIPv4 || a.isRFC6145 || a.isRFC6052 then Network.NET_IPV4.code :: a.pushBits 12 nBits
  else if a.isRFC3964 then Network.NET_IPV4.code :: a.pushBits 2 nBits
  else if a.isRFC4380 then
    [Network.NET_IPV4.code, a.getByte 3 ^^^ 0xFF, a.getByte 2 ^^^ 0xFF]
  else if a.isTor then Network.NET_TOR.code :: a.pushBits 6 4
  else if a.getByte 15 == 0x20 && a.getByte 14 == 0x01 && a.getByte 13 == 0x04 &&
      a.getByte 12 == 0x70 then
    nClass :: a.pushBits 0 36
  else nClass :: a.pushBits 0 32

/-! ### Addresses as numbers -/

/-- The address as a number of 128 bits. -/
def value : ℕ := BigEndian.value a.ip.toList

/-- The IPv4 address that an address carries, in one of the five ways to embed it: mapped, SIIT,
behind the well-known prefix, 6to4, and inverted in a Teredo address. -/
def embeddedIPv4 : Option ℕ :=
  if a.value / 2 ^ 32 = 0xffff then some (a.value % 2 ^ 32)
  else if a.value / 2 ^ 32 = 0xffff0000 then some (a.value % 2 ^ 32)
  else if a.value / 2 ^ 32 = 0x0064ff9b0000000000000000 then some (a.value % 2 ^ 32)
  else if a.value / 2 ^ 112 = 0x2002 then some (a.value / 2 ^ 80 % 2 ^ 32)
  else if a.value / 2 ^ 96 = 0x20010000 then some (2 ^ 32 - 1 - a.value % 2 ^ 32)
  else none

/-- The address of a hidden service. -/
def IsOnion : Prop := a.value / 2 ^ 80 = 0xfd87d87eeb43

/-- The network `2001:470::/32`. -/
def InHurricane : Prop := a.value / 2 ^ 96 = 0x20010470

instance : Decidable a.IsOnion := inferInstanceAs (Decidable (_ = _))

instance : Decidable a.InHurricane := inferInstanceAs (Decidable (_ = _))

/-- The two addresses agree in the first `n` bits. -/
def SamePrefix (n : ℕ) (x y : CNetAddr) : Prop :=
  x.value / 2 ^ (128 - n) = y.value / 2 ^ (128 - n)

/-! ### Bytes and bits of the value -/

variable {a}

/-- The value of the first `j` bytes. -/
lemma value_take (j : ℕ) : a.value / 256 ^ (16 - j) = BigEndian.value (a.ip.toList.take j) := by
  have htail : BigEndian.value (a.ip.toList.drop j) < 256 ^ (16 - j) := by
    simpa using BigEndian.value_lt (a.ip.toList.drop j)
  have hcut : a.value = BigEndian.value (a.ip.toList.take j) * 256 ^ (16 - j) +
      BigEndian.value (a.ip.toList.drop j) := by
    rw [value, ← take_append_drop j a.ip.toList, BigEndian.value_append]
    simp
  rw [hcut, Nat.add_comm, Nat.mul_comm, Nat.add_mul_div_left _ _ (by positivity),
    Nat.div_eq_of_lt htail, Nat.zero_add]

/-- The value of the bytes from `i` up to `j`. -/
lemma value_slice (i : ℕ) {j : ℕ} (hj : j ≤ 16) :
    a.value / 256 ^ (16 - j) % 256 ^ (j - i) =
      BigEndian.value ((a.ip.toList.take j).drop i) := by
  have hlen : ((a.ip.toList.take j).drop i).length = j - i := by simp [Nat.min_eq_left hj]
  have hlt := BigEndian.value_lt ((a.ip.toList.take j).drop i)
  rw [value_take j]
  conv_lhs => rw [← take_append_drop i (a.ip.toList.take j)]
  rw [BigEndian.value_append, hlen, Nat.mul_add_mod_self_right, Nat.mod_eq_of_lt (hlen ▸ hlt)]

/-- An address begins with some bytes if the quotient of its value is the number they denote. -/
lemma startsWith_iff {p : Bytes} (hp : p.length ≤ 16) :
    a.startsWith p = true ↔ a.value / 256 ^ (16 - p.length) = BigEndian.value p := by
  rw [startsWith, beq_iff_eq, value_take, BigEndian.value_inj (by simpa using hp)]

/-- The byte that `getGroup` reads at a position. -/
lemma getByte_sub {k : ℕ} (hk : k < 16) : a.getByte (15 - k) = a.ip[k] := by
  simp only [getByte, show 15 - (15 - k) = k by omega]

lemma drop_take_eq_cons {k n : ℕ} (hk : k < 16) (hn : k < n) :
    (a.ip.toList.take n).drop k = a.ip[k] :: (a.ip.toList.take n).drop (k + 1) := by
  rw [drop_eq_getElem_cons (by simp; omega)]
  simp

/-- The loop of `getGroup` copies whole bytes. -/
lemma pushBits_add {k n r : ℕ} (h : k + n ≤ 16) :
    a.pushBits k (8 * n + r) = (a.ip.toList.take (k + n)).drop k ++ a.pushBits (k + n) r := by
  induction n generalizing k with
  | zero => simp
  | succ n ih =>
    have hk : k < 16 := by omega
    have hrest : 8 * (n + 1) + r - 8 = 8 * n + r := by omega
    have hnext : k + 1 + n = k + (n + 1) := by omega
    rw [pushBits, if_pos (by omega), getByte_sub hk, hrest, ih (by omega), hnext,
      drop_take_eq_cons hk (by omega), cons_append]

@[simp] lemma pushBits_zero (k : ℕ) : a.pushBits k 0 = [] := by
  rw [pushBits, if_neg (by omega), if_neg (by omega)]

lemma pushBits_four {k : ℕ} (hk : k < 16) : a.pushBits k 4 = [a.ip[k] ||| 0x0F] := by
  rw [pushBits, if_neg (by omega), if_pos (by omega), getByte_sub hk]
  rfl

lemma toNat_or_fifteen (b : UInt8) : (b ||| 0x0F).toNat = b.toNat / 16 * 16 + 15 := by
  have h : ∀ n < 256, n ||| 15 = n / 16 * 16 + 15 := by decide +kernel
  exact h _ b.toNat_lt

lemma toNat_xor_ones (b : UInt8) : (b ^^^ 0xFF).toNat = 255 - b.toNat := by
  have h : ∀ n < 256, n ^^^ 255 = 255 - n := by decide +kernel
  exact h _ b.toNat_lt

/-- Two bytes that are filled up with ones agree if their upper halves do. -/
lemma or_fifteen_inj {b c : UInt8} : b ||| 0x0F = c ||| 0x0F ↔ b.toNat / 16 = c.toNat / 16 := by
  rw [← UInt8.toNat_inj, toNat_or_fifteen, toNat_or_fifteen]
  omega

/-! ### The group of a routable address -/

lemma isIPv4_iff : a.isIPv4 = true ↔ a.value / 2 ^ 32 = 0xffff := startsWith_iff (by decide)

lemma isRFC6145_iff : a.isRFC6145 = true ↔ a.value / 2 ^ 32 = 0xffff0000 :=
  startsWith_iff (by decide)

lemma isRFC6052_iff : a.isRFC6052 = true ↔ a.value / 2 ^ 32 = 0x0064ff9b0000000000000000 :=
  startsWith_iff (by decide)

lemma isTor_iff : a.isTor = true ↔ a.IsOnion := startsWith_iff (by decide)

lemma take_four :
    a.ip.toList.take 4 = [a.getByte 15, a.getByte 14, a.getByte 13, a.getByte 12] := by
  have h := @pushBits_add a 0 4 0 (by omega)
  simpa [pushBits] using h.symm

lemma take_two : a.ip.toList.take 2 = [a.getByte 15, a.getByte 14] := by
  have h := congrArg (List.take 2) (@take_four a)
  simpa [take_take] using h

lemma isRFC3964_iff : a.isRFC3964 = true ↔ a.value / 2 ^ 112 = 0x2002 := by
  have h : a.isRFC3964 = a.startsWith [0x20, 0x02] := by
    simp [isRFC3964, startsWith, take_two]
  rw [h]
  exact startsWith_iff (by decide)

lemma isRFC4380_iff : a.isRFC4380 = true ↔ a.value / 2 ^ 96 = 0x20010000 := by
  have h : a.isRFC4380 = a.startsWith [0x20, 0x01, 0, 0] := by
    simp [isRFC4380, startsWith, take_four, Bool.and_assoc]
  rw [h]
  exact startsWith_iff (by decide)

lemma hurricane_iff :
    (a.getByte 15 == 0x20 && a.getByte 14 == 0x01 && a.getByte 13 == 0x04 &&
      a.getByte 12 == 0x70) = true ↔ a.InHurricane := by
  have h : (a.getByte 15 == 0x20 && a.getByte 14 == 0x01 && a.getByte 13 == 0x04 &&
      a.getByte 12 == 0x70) = a.startsWith [0x20, 0x01, 0x04, 0x70] := by
    simp [startsWith, take_four, Bool.and_assoc]
  rw [h]
  exact startsWith_iff (by decide)

lemma not_isLocal (h : a.isRoutable = true) : a.isLocal = false := by
  cases hl : a.isLocal with
  | false => rfl
  | true => simp [isRoutable, hl] at h

lemma not_isInternal (h : a.isRoutable = true) : a.isInternal = false := by
  cases hl : a.isInternal with
  | false => rfl
  | true => simp [isRoutable, hl] at h

/-- An address that carries an IPv4 address has the class of IPv4 and the upper sixteen bits of
that address as its group. -/
lemma getGroup_of_embedded {v : ℕ} (h : a.isRoutable = true) (hv : a.embeddedIPv4 = some v) :
    ∃ w : Bytes, w.length = 2 ∧ BigEndian.value w = v / 2 ^ 16 ∧
      a.getGroup = Network.NET_IPV4.code :: w := by
  have hpush (k : ℕ) (hk : k + 2 ≤ 16) : a.pushBits k 16 = (a.ip.toList.take (k + 2)).drop k := by
    simpa using @pushBits_add a k 2 0 hk
  have hlen (k : ℕ) (hk : k + 2 ≤ 16) : ((a.ip.toList.take (k + 2)).drop k).length = 2 := by
    simp [Nat.min_eq_left hk]
  have hvalue (k : ℕ) (hk : k + 2 ≤ 16) := @value_slice a k (k + 2) hk
  simp only [getGroup, h, not_isLocal h, not_isInternal h, Bool.not_true, Bool.false_eq_true,
    if_false]
  by_cases hlow : (a.isIPv4 || a.isRFC6145 || a.isRFC6052) = true
  · -- the last four bytes
    rw [if_pos hlow, hpush 12 (by omega)]
    refine ⟨_, hlen 12 (by omega), ?_, rfl⟩
    have hv : v = a.value % 2 ^ 32 := by
      simp only [Bool.or_eq_true, isIPv4_iff, isRFC6145_iff, isRFC6052_iff] at hlow
      unfold embeddedIPv4 at hv
      split_ifs at hv <;> first | exact (Option.some.inj hv).symm | omega
    rw [← hvalue 12 (by omega), hv]
    omega
  · rw [if_neg hlow]
    simp only [Bool.or_eq_true, isIPv4_iff, isRFC6145_iff, isRFC6052_iff, not_or] at hlow
    rw [embeddedIPv4, if_neg hlow.1.1, if_neg hlow.1.2, if_neg hlow.2] at hv
    split_ifs at hv with h3964 h4380
    · -- the bytes behind the first two
      rw [if_pos (isRFC3964_iff.mpr h3964), hpush 2 (by omega)]
      refine ⟨_, hlen 2 (by omega), ?_, rfl⟩
      rw [← hvalue 2 (by omega), ← Option.some.inj hv]
      omega
    · rw [if_neg (mt isRFC3964_iff.mp h3964), if_pos (isRFC4380_iff.mpr h4380)]
      refine ⟨_, rfl, ?_, rfl⟩
      have hbytes : (a.ip.toList.take 14).drop 12 = [a.getByte 3, a.getByte 2] := by
        rw [drop_take_eq_cons (by omega) (by omega), drop_take_eq_cons (by omega) (by omega),
          drop_eq_nil_of_le (by simp)]
        rfl
      have hvalue := hvalue 12 (by omega)
      have h3 := (a.getByte 3).toNat_lt
      have h2 := (a.getByte 2).toNat_lt
      rw [hbytes] at hvalue
      rw [← Option.some.inj hv]
      simp only [BigEndian.value, foldl_cons, foldl_nil, toNat_xor_ones] at hvalue ⊢
      omega

/-- The branches of `getGroup` that remain for a routable address without an IPv4 address. -/
lemma getGroup_of_none (h : a.isRoutable = true) (hv : a.embeddedIPv4 = none) :
    a.getGroup =
      if a.IsOnion then [Network.NET_TOR.code, a.ip[6] ||| 0x0F]
      else if a.InHurricane then
        Network.NET_IPV6.code :: (a.ip.toList.take 4 ++ [a.ip[4] ||| 0x0F])
      else Network.NET_IPV6.code :: a.ip.toList.take 4 := by
  unfold embeddedIPv4 at hv
  split_ifs at hv with h4 h6145 h6052 h3964 h4380
  have hlow : (a.isIPv4 || a.isRFC6145 || a.isRFC6052) ≠ true := by
    simp only [ne_eq, Bool.or_eq_true, isIPv4_iff, isRFC6145_iff, isRFC6052_iff, h4, h6145, h6052,
      or_self, not_false_eq_true]
  have h32 : a.pushBits 0 32 = a.ip.toList.take 4 := by simpa using @pushBits_add a 0 4 0 (by omega)
  have h36 : a.pushBits 0 36 = a.ip.toList.take 4 ++ [a.ip[4] ||| 0x0F] := by
    simpa [pushBits_four] using @pushBits_add a 0 4 4 (by omega)
  simp only [getGroup, h, not_isLocal h, not_isInternal h, Bool.not_true, Bool.false_eq_true,
    if_false, if_neg hlow, if_neg (mt isRFC3964_iff.mp h3964), if_neg (mt isRFC4380_iff.mp h4380),
    isTor_iff, hurricane_iff, h32, h36, pushBits_four (show 6 < 16 by omega)]

/-- An address that is not routable has a class of its own. -/
lemma getGroup_of_unroutable (h : a.isRoutable = false) :
    a.getGroup.head? = some Network.NET_UNROUTABLE.code ∨
      a.getGroup.head? = some Network.NET_INTERNAL.code := by
  rw [getGroup]
  split_ifs with hi hr
  · exact .inr rfl
  · exact .inl rfl
  all_goals exact absurd h (by simpa using hr)

/-- The class of a routable address is one of the other three. -/
lemma head?_getGroup_of_routable (h : a.isRoutable = true) :
    a.getGroup.head? = some (if a.embeddedIPv4.isSome then Network.NET_IPV4.code
      else if a.IsOnion then Network.NET_TOR.code else Network.NET_IPV6.code) := by
  cases hv : a.embeddedIPv4 with
  | some v =>
    obtain ⟨w, -, -, hw⟩ := getGroup_of_embedded h hv
    rw [hw]
    rfl
  | none =>
    rw [getGroup_of_none h hv]
    split_ifs <;> first | rfl | contradiction

/-! ### Equal groups -/

lemma value_take_four : a.value / 2 ^ 96 = BigEndian.value (a.ip.toList.take 4) :=
  @value_take a 4

/-- The quotient by the bits behind half a byte. -/
lemma value_div_half {k : ℕ} (hk : k < 16) :
    a.value / 256 ^ (15 - k) / 16 = a.value / 256 ^ (16 - k) * 16 + a.ip[k].toNat / 16 := by
  have hcut : a.ip.toList.take (k + 1) = a.ip.toList.take k ++ [a.ip[k]] := by
    rw [take_succ_eq_append_getElem (by simpa using hk)]
    simp
  have hk1 := @value_take a (k + 1)
  rw [show 16 - (k + 1) = 15 - k by omega] at hk1
  rw [hk1, value_take k, hcut, BigEndian.value_concat]
  omega

/-- The groups of two addresses with IPv4 addresses. -/
lemma getGroup_eq_iff_of_embedded {x y : CNetAddr} {v w : ℕ} (hx : x.isRoutable = true)
    (hy : y.isRoutable = true) (hv : x.embeddedIPv4 = some v) (hw : y.embeddedIPv4 = some w) :
    x.getGroup = y.getGroup ↔ v / 2 ^ 16 = w / 2 ^ 16 := by
  obtain ⟨s, hs, hsv, hgx⟩ := getGroup_of_embedded hx hv
  obtain ⟨t, ht, htw, hgy⟩ := getGroup_of_embedded hy hw
  rw [hgx, hgy, ← hsv, ← htw, BigEndian.value_inj (hs.trans ht.symm)]
  simp

/-- The groups of two addresses without. -/
lemma getGroup_eq_iff_of_none {x y : CNetAddr} (hx : x.isRoutable = true)
    (hy : y.isRoutable = true) (hv : x.embeddedIPv4 = none) (hw : y.embeddedIPv4 = none) :
    x.getGroup = y.getGroup ↔
      (x.IsOnion ∧ y.IsOnion ∧ SamePrefix 52 x y) ∨
        (¬ x.IsOnion ∧ ¬ y.IsOnion ∧ SamePrefix 32 x y ∧
          (x.InHurricane → SamePrefix 36 x y)) := by
  have h32 : SamePrefix 32 x y ↔ x.ip.toList.take 4 = y.ip.toList.take 4 := by
    rw [SamePrefix, value_take_four, value_take_four, BigEndian.value_inj (by simp)]
  have h36 : SamePrefix 36 x y ↔ SamePrefix 32 x y ∧
      x.ip[4].toNat / 16 = y.ip[4].toNat / 16 := by
    have hxk := @value_div_half x 4 (by omega)
    have hyk := @value_div_half y 4 (by omega)
    rw [SamePrefix, SamePrefix]
    omega
  have h52 (hxo : x.IsOnion) (hyo : y.IsOnion) :
      SamePrefix 52 x y ↔ x.ip[6].toNat / 16 = y.ip[6].toNat / 16 := by
    have hxk := @value_div_half x 6 (by omega)
    have hyk := @value_div_half y 6 (by omega)
    rw [IsOnion] at hxo hyo
    rw [SamePrefix]
    omega
  have hhe (h : SamePrefix 32 x y) : x.InHurricane ↔ y.InHurricane := by
    rw [InHurricane, InHurricane, show x.value / 2 ^ 96 = y.value / 2 ^ 96 from h]
  have hlen : (x.ip.toList.take 4).length = (y.ip.toList.take 4).length := by simp
  rw [getGroup_of_none hx hv, getGroup_of_none hy hw]
  by_cases hxo : x.IsOnion <;> by_cases hyo : y.IsOnion
  · simp [hxo, hyo, h52 hxo hyo, or_fifteen_inj]
  · simp only [hxo, hyo, if_true, if_false]
    split_ifs <;> simp [Network.code]
  · simp only [hxo, hyo, if_true, if_false]
    split_ifs <;> simp [Network.code]
  · simp only [hxo, hyo, if_false, false_and, false_or, not_false_eq_true, true_and]
    -- one of them in `2001:470::/32` and not the other: the groups have different lengths
    have hne (hxy : ¬ (x.InHurricane ↔ y.InHurricane)) (P : Prop) {l m : Bytes}
        (hl : l.length ≠ m.length) : l = m ↔ SamePrefix 32 x y ∧ P :=
      ⟨fun h => absurd (congrArg List.length h) hl, fun h => absurd (hhe h.1) hxy⟩
    by_cases hxe : x.InHurricane <;> by_cases hye : y.InHurricane
    · rw [if_pos hxe, if_pos hye, List.cons.injEq, h36]
      constructor
      · rintro ⟨-, h⟩
        obtain ⟨hfour, hhalf⟩ := append_inj h hlen
        have hhalf := or_fifteen_inj.mp (singleton_inj.mp hhalf)
        exact ⟨h32.mpr hfour, fun _ => ⟨h32.mpr hfour, hhalf⟩⟩
      · rintro ⟨hfour, h⟩
        rw [h32.mp hfour, or_fifteen_inj.mpr (h hxe).2]
        exact ⟨rfl, rfl⟩
    · rw [if_pos hxe, if_neg hye]
      exact hne (by simp [hxe, hye]) _ (by simp)
    · rw [if_neg hxe, if_pos hye]
      exact hne (by simp [hxe, hye]) _ (by simp)
    · simp [hxe, hye, h32]

/-- **When two addresses have one group.** Routable addresses that carry IPv4 addresses, embedded
in whatever way, have one group if these agree in the upper sixteen bits. An address that carries
one and an address that does not have different groups. Of the others, hidden services have one
group if they agree in four bits behind the onion prefix, and the rest if they agree in 32 bits, or
36 in `2001:470::/32`. An address that is not routable has its group with no routable one.

**Proof sketch.** The first byte is the class, by `head?_getGroup_of_routable` and
`getGroup_of_unroutable`. In one class the remaining bytes are compared: they are the first bytes
of a number, and half a byte filled up with ones says what its upper half is. -/
theorem getGroup_eq_iff (x y : CNetAddr) :
    (x.isRoutable = true → y.isRoutable = true →
      (∀ v w, x.embeddedIPv4 = some v → y.embeddedIPv4 = some w →
        (x.getGroup = y.getGroup ↔ v / 2 ^ 16 = w / 2 ^ 16)) ∧
      (x.embeddedIPv4.isSome ≠ y.embeddedIPv4.isSome → x.getGroup ≠ y.getGroup) ∧
      (x.embeddedIPv4 = none → y.embeddedIPv4 = none →
        (x.getGroup = y.getGroup ↔
          (x.IsOnion ∧ y.IsOnion ∧ SamePrefix 52 x y) ∨
            (¬ x.IsOnion ∧ ¬ y.IsOnion ∧ SamePrefix 32 x y ∧
              (x.InHurricane → SamePrefix 36 x y))))) ∧
    (x.isRoutable = false → y.isRoutable = true → x.getGroup ≠ y.getGroup) := by
  refine ⟨fun hx hy => ⟨fun v w hv hw => getGroup_eq_iff_of_embedded hx hy hv hw, fun h heq => ?_,
    fun hv hw => getGroup_eq_iff_of_none hx hy hv hw⟩, fun hx hy heq => ?_⟩
  · -- the classes differ
    have hhead := congrArg List.head? heq
    rw [head?_getGroup_of_routable hx, head?_getGroup_of_routable hy] at hhead
    cases hsx : x.embeddedIPv4.isSome <;> cases hsy : y.embeddedIPv4.isSome <;>
      simp only [hsx, hsy, ne_eq, not_true_eq_false, Bool.false_eq_true, if_false, if_true]
        at h hhead
    all_goals split_ifs at hhead <;> simp [Network.code] at hhead
  · have hhead := head?_getGroup_of_routable hy
    rw [← heq] at hhead
    obtain h | h := getGroup_of_unroutable hx
    all_goals
      rw [h, Option.some.injEq] at hhead
      revert hhead
      split_ifs <;> decide

/-- `::ffff:8.8.4.4`. -/
def mappedAddress : CNetAddr := { ip := #v[0, 0, 0, 0, 0, 0, 0, 0, 0, 0, 0xff, 0xff, 8, 8, 4, 4] }

/-- A Teredo address with the client address `8.8.8.8`. -/
def teredoAddress : CNetAddr :=
  { ip := #v[0x20, 0x01, 0, 0, 1, 2, 3, 4, 0x80, 0, 0x10, 0, 0xf7, 0xf7, 0xf7, 0xf7] }

theorem getGroup_eq_iff_mapped_teredo :
    mappedAddress.isRoutable = true ∧ teredoAddress.isRoutable = true ∧
      mappedAddress.getGroup = teredoAddress.getGroup :=
  ⟨by decide +kernel, by decide +kernel,
    (((getGroup_eq_iff mappedAddress teredoAddress).1 (by decide +kernel) (by decide +kernel)).1
      0x08080404 0x08080808 (by decide +kernel) (by decide +kernel)).mpr rfl⟩

end CNetAddr

end Tos.Net
