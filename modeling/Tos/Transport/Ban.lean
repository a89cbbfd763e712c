import Tos.Foundation.OrderedMap
import Tos.Transport.NetAddress
import Mathlib.Data.List.Induction
import Mathlib.Data.Prod.Lex

/-!
# The ban list

The functions of `transport/net.cpp` that keep the banned subnets, and the class `CSubNet` of
`transport/netaddress.cpp`.

The map of the bans is ordered by network and mask. Equality and `Match` also look at the flag
`valid`, so two subnets that are not equal can count as one key. The key that was there first stays
when the value is replaced: a ban of an invalid subnet shadows a later ban of the valid one, which
then matches nothing.

## Main results

* `Bans.isBanned_iff`: an address is banned exactly when a ban is in force that matches it.
* `Bans.shadowed_ban`: a ban that has no effect.

## Implementation notes

For sixteen bytes the order of `memcmp` is the order of the numbers they denote. Notifications of
the user interface are left out. Every call reads the clock once.
-/

namespace Tos.Net

open OrderedMap (Same eq_of_same find_eq_none_iff find_eq_some_iff find_set_self get? mem_erase
  mem_filter mem_set same_refl)

/-! ### Subnets -/

/-- The class `CSubNet`. -/
structure CSubNet where
  network : CNetAddr := {}
  netmask : Vector UInt8 16 := Vector.replicate 16 0
  valid : Bool := false
  deriving DecidableEq

namespace CSubNet

/-- The constructor with a number of bits. -/
def ofBits (addr : CNetAddr) (mask : ℤ) : CSubNet :=
  let astartofs := if addr.isIPv4 then 12 else 0
  let ones := Vector.replicate 16 255
  let (netmask, valid) :=
    if 0 ≤ mask ∧ mask ≤ 128 - astartofs * 8 then
      let n := (mask + astartofs * 8).toNat
      -- clear the bits from `n` on
      ((List.range' n (128 - n)).foldl (fun v n =>
        v.mapIdx fun x b => if x = n / 8 then b &&& ~~~(1 <<< UInt8.ofNat (7 - n % 8)) else b) ones,
        true)
    else (ones, false)
  { network := { addr with ip := Vector.zipWith (· &&& ·) addr.ip netmask }, netmask, valid }

/-- The constructor for a single address. -/
def ofAddr (addr : CNetAddr) : CSubNet :=
  { network := addr, netmask := Vector.replicate 16 255, valid := addr.isValid }

/-- `CSubNet::Match`. -/
def isMatch (s : CSubNet) (addr : CNetAddr) : Bool :=
  s.valid && addr.isValid && Vector.zipWith (· &&& ·) addr.ip s.netmask == s.network.ip

/-- `operator==`. -/
def Eqv (a b : CSubNet) : Prop :=
  a.valid = b.valid ∧ a.network.ip = b.network.ip ∧ a.netmask = b.netmask

instance (a b : CSubNet) : Decidable (Eqv a b) := inferInstanceAs (Decidable (_ ∧ _ ∧ _))

/-- `operator<`. -/
def lt (a b : CSubNet) : Bool :=
  memcmpLt a.network.ip b.network.ip ||
    (a.network.ip == b.network.ip && memcmpLt a.netmask b.netmask)

lemma Eqv.symm {a b : CSubNet} (h : Eqv a b) : Eqv b a := ⟨h.1.symm, h.2.1.symm, h.2.2.symm⟩

lemma Eqv.trans {a b c : CSubNet} (h : Eqv a b) (h' : Eqv b c) : Eqv a c :=
  ⟨h.1.trans h'.1, h.2.1.trans h'.2.1, h.2.2.trans h'.2.2⟩

lemma Eqv.isMatch_eq {a b : CSubNet} (h : Eqv a b) (addr : CNetAddr) :
    a.isMatch addr = b.isMatch addr := by
  rw [isMatch, isMatch, h.1, h.2.1, h.2.2]

lemma lt_iff (a b : CSubNet) : lt a b = true ↔
    toLex (BigEndian.value a.network.ip.toList, BigEndian.value a.netmask.toList) <
      toLex (BigEndian.value b.network.ip.toList, BigEndian.value b.netmask.toList) := by
  simp [lt, memcmpLt, Prod.Lex.toLex_lt_toLex, value_toList_inj]

instance : IsStrictWeakOrder CSubNet (fun a b => lt a b = true) :=
  isStrictWeakOrder_of_key _ lt_iff

/-- The order looks at the network and the mask only. -/
lemma same_iff {a b : CSubNet} :
    Same lt a b ↔ a.network.ip = b.network.ip ∧ a.netmask = b.netmask := by
  have h (x y : CSubNet) := not_congr (lt_iff x y)
  simp only [Bool.not_eq_true, not_lt] at h
  rw [Same, h, h, ← le_antisymm_iff]
  simp only [EmbeddingLike.apply_eq_iff_eq, Prod.mk.injEq, value_toList_inj]
  exact ⟨fun h => ⟨h.1.symm, h.2.symm⟩, fun h => ⟨h.1.symm, h.2.symm⟩⟩

lemma Eqv.same {a b : CSubNet} (h : Eqv a b) : Same lt a b := same_iff.mpr h.2

end CSubNet

/-! ### The bans -/

def BanReasonUnknown : UInt8 := 0
def BanReasonNodeMisbehaving : UInt8 := 1
def BanReasonManuallyAdded : UInt8 := 2

/-- The class `CBanEntry`. -/
structure CBanEntry where
  nVersion : ℤ := 1
  nCreateTime : Int64 := 0
  nBanUntil : Int64 := 0
  banReason : UInt8 := BanReasonUnknown
  deriving DecidableEq

/-- `banmap_t`. -/
abbrev BanMap : Type := OrderedMap CSubNet CBanEntry CSubNet.lt

/-- The members of `CConnman` that bans concern; of a node the address and `fDisconnect`. -/
structure Bans where
  setBanned : BanMap := .empty
  setBannedIsDirty : Bool := false
  vNodes : List (CNetAddr × Bool) := []

namespace Bans

/-- `CConnman::IsBanned` of an address, at a time. -/
def isBanned (c : Bans) (now : Int64) (ip : CNetAddr) : Bool :=
  c.setBanned.entries.any fun e => e.1.isMatch ip && now < e.2.nBanUntil

/-- `CConnman::SweepBanned`. -/
def sweepBanned (now : Int64) (c : Bans) : Bans :=
  let kept := c.setBanned.filter fun e => !decide (now > e.2.nBanUntil)
  { c with
    setBanned := kept
    setBannedIsDirty := c.setBannedIsDirty || kept.entries.length != c.setBanned.entries.length }

/-- `CConnman::DumpBanlist`, where `written` says whether `CBanDB::Write` succeeds. `GetBanned`
sweeps once more. -/
def dumpBanlist (now : Int64) (written : Bool) (c : Bans) : Bans :=
  let c := c.sweepBanned now
  if !c.setBannedIsDirty then c
  else
    let c := c.sweepBanned now
    if written then { c with setBannedIsDirty := false } else c

/-- `CConnman::ClearBanned`. -/
def clearBanned (now : Int64) (written : Bool) (c : Bans) : Bans :=
  dumpBanlist now written { c with setBanned := .empty, setBannedIsDirty := true }

/-- `CConnman::Unban`. -/
def unban (now : Int64) (written : Bool) (subNet : CSubNet) (c : Bans) : Bool × Bans :=
  if (c.setBanned.find subNet).isNone then (false, c)
  else
    (true, dumpBanlist now written
      { c with setBanned := c.setBanned.erase subNet, setBannedIsDirty := true })

/-- The time at which a ban ends. -/
def banUntil (bantime now bantimeoffset : Int64) (sinceUnixEpoch : Bool) : Int64 :=
  if bantimeoffset ≤ 0 then now + bantime
  else (if sinceUnixEpoch then 0 else now) + bantimeoffset

/-- `CConnman::Ban`, where `bantime` is the argument `-bantime`. The operator `[]` puts in a null
entry for a new subnet. -/
def ban (bantime now : Int64) (written : Bool) (subNet : CSubNet) (banReason : UInt8)
    (bantimeoffset : Int64) (sinceUnixEpoch : Bool) (c : Bans) : Bans :=
  let banEntry : CBanEntry :=
    { nCreateTime := now, banReason
      nBanUntil := banUntil bantime now bantimeoffset sinceUnixEpoch }
  let setBanned := if (c.setBanned.find subNet).isNone then c.setBanned.set subNet {}
    else c.setBanned
  if ((setBanned.get? subNet).getD {}).nBanUntil < banEntry.nBanUntil then
    let c := { c with
      setBanned := setBanned.set subNet banEntry
      setBannedIsDirty := true
      vNodes := c.vNodes.map fun node => (node.1, node.2 || subNet.isMatch node.1) }
    if banReason = BanReasonManuallyAdded then c.dumpBanlist now written else c
  else { c with setBanned }

end Bans

/-! ### Sequences of calls -/

/-- A call that changes the bans. -/
inductive BanCall where
  | ban (subNet : CSubNet) (banReason : UInt8) (bantimeoffset : Int64) (sinceUnixEpoch : Bool)
  | unban (subNet : CSubNet)
  | sweepBanned
  | clearBanned

/-- A call, the time of it, and whether the list could be written to disk. -/
structure BanEvent where
  now : Int64
  written : Bool
  call : BanCall

/-- The state after a call. -/
def Bans.handle (bantime : Int64) (c : Bans) (e : BanEvent) : Bans :=
  match e.call with
  | .ban subNet banReason bantimeoffset sinceUnixEpoch =>
    c.ban bantime e.now e.written subNet banReason bantimeoffset sinceUnixEpoch
  | .unban subNet => (c.unban e.now e.written subNet).2
  | .sweepBanned => c.sweepBanned e.now
  | .clearBanned => c.clearBanned e.now e.written

/-- The state after some calls, from an empty list of bans. -/
def Bans.run (bantime : Int64) (events : List BanEvent) : Bans :=
  events.foldl (handle bantime) {}

/-- The call lifts a ban of the subnet. -/
def BanCall.Lifts (call : BanCall) (s : CSubNet) : Prop :=
  match call with
  | .unban u => CSubNet.Eqv u s
  | .clearBanned => True
  | _ => False

/-- After the calls, a ban of the subnet until a time is in force: it was made, and none of the
calls after it lifted it. The time is an integer, not one of 64 bits. -/
def InForce (events : List BanEvent) (s : CSubNet) (banUntil : ℤ) : Prop :=
  ∃ before after now written banReason bantimeoffset sinceUnixEpoch,
    events = before ++ ⟨now, written, .ban s banReason bantimeoffset sinceUnixEpoch⟩ :: after ∧
    (∀ e ∈ after, ¬ e.call.Lifts s) ∧
    banUntil = (if sinceUnixEpoch then 0 else now.toInt) + bantimeoffset.toInt

/-- After the calls, at a time, a ban that has not ended matches the address. -/
def BannedBy (events : List BanEvent) (now : Int64) (ip : CNetAddr) : Prop :=
  ∃ s banUntil, InForce events s banUntil ∧ s.isMatch ip = true ∧ now.toInt < banUntil

/-- What a call must meet, in the state before it: a ban ends at a time that is positive and fits 64
bits, and a subnet that is banned or unbanned does not count as one key with an entry that is valid
when it is not, or the other way round. -/
def BanEvent.Plain (c : Bans) (e : BanEvent) : Prop :=
  match e.call with
  | .ban s _ bantimeoffset sinceUnixEpoch =>
    (0 < (if sinceUnixEpoch then 0 else e.now.toInt) + bantimeoffset.toInt ∧
      (if sinceUnixEpoch then 0 else e.now.toInt) + bantimeoffset.toInt < 2 ^ 63) ∧
    ∀ x ∈ c.setBanned.entries, Same CSubNet.lt x.1 s → x.1.valid = s.valid
  | .unban s => ∀ x ∈ c.setBanned.entries, Same CSubNet.lt x.1 s → x.1.valid = s.valid
  | _ => True

/-- A ban has a positive length. -/
def BanCall.Positive : BanCall → Prop
  | .ban _ _ bantimeoffset _ => 0 < bantimeoffset
  | _ => True

/-! ### The bans in force -/

/-- The bans in force after one more call. -/
lemma inForce_concat {events : List BanEvent} {e : BanEvent} {s : CSubNet} {t : ℤ} :
    InForce (events ++ [e]) s t ↔ (InForce events s t ∧ ¬ e.call.Lifts s) ∨
      ∃ banReason bantimeoffset sinceUnixEpoch,
        e.call = .ban s banReason bantimeoffset sinceUnixEpoch ∧
        t = (if sinceUnixEpoch then 0 else e.now.toInt) + bantimeoffset.toInt := by
  constructor
  · rintro ⟨before, after, now, written, banReason, bantimeoffset, sinceUnixEpoch, heq, hafter, rfl⟩
    obtain rfl | ⟨after, last, rfl⟩ := List.eq_nil_or_concat' after
    · obtain ⟨-, hlast⟩ := List.append_inj' heq rfl
      obtain rfl := List.singleton_inj.mp hlast
      exact .inr ⟨banReason, bantimeoffset, sinceUnixEpoch, rfl, rfl⟩
    · rw [← List.cons_append, ← List.append_assoc] at heq
      obtain ⟨rfl, hlast⟩ := List.append_inj' heq rfl
      obtain rfl := List.singleton_inj.mp hlast
      exact .inl ⟨⟨before, after, now, written, banReason, bantimeoffset, sinceUnixEpoch, rfl,
        fun x hx => hafter x (List.mem_append_left _ hx), rfl⟩, hafter e (by simp)⟩
  · rintro (⟨⟨before, after, now, written, banReason, bantimeoffset, sinceUnixEpoch, rfl, hafter,
      rfl⟩, he⟩ | ⟨banReason, bantimeoffset, sinceUnixEpoch, hcall, rfl⟩)
    · refine ⟨before, after ++ [e], now, written, banReason, bantimeoffset, sinceUnixEpoch,
        by simp, fun x hx => ?_, rfl⟩
      obtain hx | hx := List.mem_append.mp hx
      · exact hafter x hx
      · exact List.mem_singleton.mp hx ▸ he
    · refine ⟨events, [], e.now, e.written, banReason, bantimeoffset, sinceUnixEpoch, ?_,
        fun x hx => absurd hx List.not_mem_nil, rfl⟩
      rw [← hcall]

/-- The map holds the bans in force that have not ended. -/
structure Bans.Holds (c : Bans) (events : List BanEvent) : Prop where
  /-- every entry is a ban in force -/
  backed : ∀ x ∈ c.setBanned.entries,
    ∃ s, CSubNet.Eqv x.1 s ∧ InForce events s x.2.nBanUntil.toInt
  /-- a ban in force that had not ended at any of the calls has an entry that does not end earlier
  -/
  kept : ∀ s t, InForce events s t → (∀ e ∈ events, e.now.toInt < t) →
    ∃ x ∈ c.setBanned.entries, CSubNet.Eqv x.1 s ∧ t ≤ x.2.nBanUntil.toInt

namespace Bans

variable {c : Bans} {events : List BanEvent} {e : BanEvent}

/-- Sweeping at the time of a call. -/
lemma Holds.sweepBanned (h : c.Holds events) (he : e ∈ events) :
    (c.sweepBanned e.now).Holds events where
  backed x hx := h.backed x (mem_filter.mp hx).1
  kept s t hs ht := by
    obtain ⟨x, hx, heqv, hle⟩ := h.kept s t hs ht
    refine ⟨x, mem_filter.mpr ⟨hx, ?_⟩, heqv, hle⟩
    have hlt := ht e he
    simp only [gt_iff_lt, Bool.not_eq_true', decide_eq_false_iff_not, Int64.lt_iff_toInt_lt]
    omega

lemma Holds.dumpBanlist (h : c.Holds events) (he : e ∈ events) (written : Bool) :
    (c.dumpBanlist e.now written).Holds events := by
  have hsweep := h.sweepBanned he
  rw [Bans.dumpBanlist]
  split_ifs
  · exact hsweep
  · exact ⟨(hsweep.sweepBanned he).backed, (hsweep.sweepBanned he).kept⟩
  · exact hsweep.sweepBanned he

/-- The map after a ban until the time `t`, before it is written to disk: there is one entry for the
subnet, it ends at `t` or is an older one that ends later. -/
lemma ban_cases (bantime now : Int64) (written : Bool) (s : CSubNet) (banReason : UInt8)
    (bantimeoffset : Int64) (sinceUnixEpoch : Bool) (c : Bans)
    (hpos : 0 < (banUntil bantime now bantimeoffset sinceUnixEpoch)) :
    ∃ c' : Bans, (c.ban bantime now written s banReason bantimeoffset sinceUnixEpoch = c' ∨
        c.ban bantime now written s banReason bantimeoffset sinceUnixEpoch =
          c'.dumpBanlist now written) ∧
      ∃ k v, (∀ x, x ∈ c'.setBanned.entries ↔
          (x ∈ c.setBanned.entries ∧ ¬ Same CSubNet.lt x.1 s) ∨ x = (k, v)) ∧
        (k = s ∨ ∃ w, (k, w) ∈ c.setBanned.entries ∧ Same CSubNet.lt k s) ∧
        (v.nBanUntil = banUntil bantime now bantimeoffset sinceUnixEpoch ∨
          ((k, v) ∈ c.setBanned.entries ∧
            banUntil bantime now bantimeoffset sinceUnixEpoch ≤ v.nBanUntil)) ∧
        ∀ x ∈ c.setBanned.entries, Same CSubNet.lt x.1 s →
          x.2.nBanUntil ≤ v.nBanUntil := by
  set t := banUntil bantime now bantimeoffset sinceUnixEpoch with ht
  -- the branch that assigns the new entry to the map `m`
  have hassign {m : BanMap} {k : CSubNet}
      (hlt : ((m.get? s).getD {}).nBanUntil < t) (hk : ((m.find s).map Prod.fst).getD s = k)
      (hm : (if (c.setBanned.find s).isNone then c.setBanned.set s {} else c.setBanned) = m) :
      ∃ c' : Bans, (c.ban bantime now written s banReason bantimeoffset sinceUnixEpoch = c' ∨
          c.ban bantime now written s banReason bantimeoffset sinceUnixEpoch =
            c'.dumpBanlist now written) ∧
        ∃ v : CBanEntry, v.nBanUntil = t ∧ ∀ x, x ∈ c'.setBanned.entries ↔
          (x ∈ m.entries ∧ ¬ Same CSubNet.lt x.1 s) ∨ x = (k, v) := by
    refine ⟨{ c with
      setBanned := m.set s { nCreateTime := now, banReason, nBanUntil := t }
      setBannedIsDirty := true
      vNodes := c.vNodes.map fun node => (node.1, node.2 || s.isMatch node.1) }, ?_, _, rfl,
      fun x => by rw [← hk]; exact mem_set⟩
    rw [ban]
    simp only [hm, ← ht, if_pos hlt]
    split_ifs
    · exact .inr rfl
    · exact .inl rfl
  cases hf : c.setBanned.find s with
  | none =>
    have hself := find_set_self (m := c.setBanned) (k := s) (v := ({} : CBanEntry))
    rw [hf] at hself
    obtain ⟨c', hc', v, hv, hmem⟩ := @hassign (c.setBanned.set s {}) s
      (by rw [get?, hself]; exact hpos) (by rw [hself]; rfl) (by rw [hf]; rfl)
    refine ⟨c', hc', s, v, fun x => ?_, .inl rfl, .inl hv,
      fun x hx hs => absurd hs (find_eq_none_iff.mp hf x hx)⟩
    rw [hmem, mem_set, hf]
    constructor
    · rintro (⟨⟨hx, -⟩ | rfl, hs⟩ | h)
      · exact .inl ⟨hx, hs⟩
      · exact absurd (same_refl s) hs
      · exact .inr h
    · rintro (⟨hx, hs⟩ | h)
      · exact .inl ⟨.inl ⟨hx, hs⟩, hs⟩
      · exact .inr h
  | some d =>
    obtain ⟨hd, hds⟩ := find_eq_some_iff.mp hf
    have huniq {x : CSubNet × CBanEntry} (hx : x ∈ c.setBanned.entries)
        (hs : Same CSubNet.lt x.1 s) : x = d :=
      eq_of_same hx hd (hs.trans hds.symm)
    by_cases hlt : d.2.nBanUntil < t
    · obtain ⟨c', hc', v, hv, hmem⟩ := @hassign c.setBanned d.1
        (by rw [get?, hf]; exact hlt) (by rw [hf]; rfl) (by rw [hf]; rfl)
      exact ⟨c', hc', d.1, v, hmem, .inr ⟨d.2, hd, hds⟩, .inl hv, fun x hx hs => by
        rw [huniq hx hs, hv]
        exact Int64.le_of_lt hlt⟩
    · refine ⟨c, .inl ?_, d.1, d.2, fun x => ?_, .inr ⟨d.2, hd, hds⟩,
        .inr ⟨hd, Int64.not_lt.mp hlt⟩, fun x hx hs => huniq hx hs ▸ Int64.le_refl _⟩
      · rw [ban]
        simp only [hf, get?, Option.isNone_some, Bool.false_eq_true, if_false, ← ht,
          Option.map_some, Option.getD_some, if_neg hlt]
      · constructor
        · intro hx
          by_cases hs : Same CSubNet.lt x.1 s
          · exact .inr (huniq hx hs)
          · exact .inl ⟨hx, hs⟩
        · rintro (⟨hx, -⟩ | rfl)
          · exact hx
          · exact hd

/-- The time at which a ban ends, if it fits. -/
lemma toInt_banUntil (bantime : Int64) {now bantimeoffset : Int64} {sinceUnixEpoch : Bool}
    (hoff : 0 < bantimeoffset)
    (hpos : 0 < (if sinceUnixEpoch then 0 else now.toInt) + bantimeoffset.toInt)
    (hfit : (if sinceUnixEpoch then 0 else now.toInt) + bantimeoffset.toInt < 2 ^ 63) :
    (banUntil bantime now bantimeoffset sinceUnixEpoch).toInt =
      (if sinceUnixEpoch then 0 else now.toInt) + bantimeoffset.toInt := by
  have hlow := bantimeoffset.le_toInt
  rw [banUntil, if_neg (Int64.not_le.mpr hoff), Int64.toInt_add]
  cases sinceUnixEpoch with
  | true =>
    simp only [if_true, Int64.toInt_zero] at *
    exact Int.bmod_eq_of_le (by omega) (by omega)
  | false =>
    simp only [Bool.false_eq_true, if_false] at *
    exact Int.bmod_eq_of_le (by omega) (by omega)

/-- A call that neither bans nor lifts a ban. -/
lemma Holds.concat (h : c.Holds events) (hban : ∀ s banReason bantimeoffset sinceUnixEpoch,
      e.call ≠ .ban s banReason bantimeoffset sinceUnixEpoch)
    (hlift : ∀ s, ¬ e.call.Lifts s) : c.Holds (events ++ [e]) where
  backed x hx := by
    obtain ⟨s, heqv, hs⟩ := h.backed x hx
    exact ⟨s, heqv, inForce_concat.mpr (.inl ⟨hs, hlift s⟩)⟩
  kept s t hs ht := by
    obtain ⟨hs, -⟩ | ⟨_, _, _, hcall, -⟩ := inForce_concat.mp hs
    · exact h.kept s t hs fun e' he' => ht e' (List.mem_append_left _ he')
    · exact absurd hcall (hban _ _ _ _)

/-- A call that lifts the ban of a subnet, when the entries with its key are gone. -/
lemma Holds.lift {s : CSubNet} (h : c.Holds events) (c' : Bans) (hcall : e.call = .unban s)
    (hvalid : ∀ x ∈ c.setBanned.entries, Same CSubNet.lt x.1 s → x.1.valid = s.valid)
    (hmem : ∀ x, x ∈ c'.setBanned.entries ↔
      x ∈ c.setBanned.entries ∧ ¬ Same CSubNet.lt x.1 s) :
    c'.Holds (events ++ [e]) where
  backed x hx := by
    obtain ⟨hx, hne⟩ := (hmem x).mp hx
    obtain ⟨s', heqv, hs'⟩ := h.backed x hx
    refine ⟨s', heqv, inForce_concat.mpr (.inl ⟨hs', ?_⟩)⟩
    rw [hcall]
    exact fun hlift => hne (heqv.trans (CSubNet.Eqv.symm hlift)).same
  kept s' t hs' ht := by
    obtain ⟨hs', hlift⟩ | ⟨_, _, _, hban, -⟩ := inForce_concat.mp hs'
    · obtain ⟨x, hx, heqv, hle⟩ :=
        h.kept s' t hs' fun e' he' => ht e' (List.mem_append_left _ he')
      refine ⟨x, (hmem x).mpr ⟨hx, fun hsame => hlift ?_⟩, heqv, hle⟩
      rw [hcall]
      exact CSubNet.Eqv.trans ⟨(hvalid x hx hsame).symm, (CSubNet.same_iff.mp hsame.symm)⟩ heqv
    · rw [hcall] at hban
      cases hban

/-- A ban, when the entry of its key does not end earlier. -/
lemma Holds.ban {c' : Bans} {s k : CSubNet} {v : CBanEntry} {t : ℤ} (h : c.Holds events)
    (hnew : ∀ s' t', InForce (events ++ [e]) s' t' ↔
      InForce events s' t' ∨ (s' = s ∧ t' = t))
    (hvalid : ∀ x ∈ c.setBanned.entries, Same CSubNet.lt x.1 s → x.1.valid = s.valid)
    (hmem : ∀ x, x ∈ c'.setBanned.entries ↔
      (x ∈ c.setBanned.entries ∧ ¬ Same CSubNet.lt x.1 s) ∨ x = (k, v))
    (hk : k = s ∨ ∃ w, (k, w) ∈ c.setBanned.entries ∧ Same CSubNet.lt k s)
    (hv : v.nBanUntil.toInt = t ∨ ((k, v) ∈ c.setBanned.entries ∧ t ≤ v.nBanUntil.toInt))
    (hold : ∀ x ∈ c.setBanned.entries, Same CSubNet.lt x.1 s →
      x.2.nBanUntil ≤ v.nBanUntil) : c'.Holds (events ++ [e]) := by
  have heqv {x : CSubNet × CBanEntry} (hx : x ∈ c.setBanned.entries)
      (hsame : Same CSubNet.lt x.1 s) : CSubNet.Eqv x.1 s :=
    ⟨hvalid x hx hsame, CSubNet.same_iff.mp hsame⟩
  have hks : CSubNet.Eqv k s := by
    obtain rfl | ⟨w, hw, hsame⟩ := hk
    · exact ⟨rfl, rfl, rfl⟩
    · exact heqv hw hsame
  refine ⟨fun x hx => ?_, fun s' t' hs' ht' => ?_⟩
  · have hcase : (x ∈ c.setBanned.entries) ∨ (x.1 = k ∧ x.2.nBanUntil.toInt = t) := by
      obtain ⟨hx, -⟩ | rfl := (hmem x).mp hx
      · exact .inl hx
      · exact hv.elim (fun h => .inr ⟨rfl, h⟩) fun h => .inl h.1
    obtain hx | ⟨hxk, hxt⟩ := hcase
    · obtain ⟨s', hs', hf⟩ := h.backed x hx
      exact ⟨s', hs', (hnew _ _).mpr (.inl hf)⟩
    · exact ⟨s, hxk ▸ hks, (hnew _ _).mpr (.inr ⟨rfl, hxt⟩)⟩
  · have hkv := (hmem (k, v)).mpr (.inr rfl)
    obtain hs' | ⟨rfl, rfl⟩ := (hnew s' t').mp hs'
    · obtain ⟨x, hx, hxs, hle⟩ :=
        h.kept s' t' hs' fun e' he' => ht' e' (List.mem_append_left _ he')
      by_cases hsame : Same CSubNet.lt x.1 s
      · exact ⟨(k, v), hkv, hks.trans ((heqv hx hsame).symm.trans hxs),
          hle.trans (Int64.le_iff_toInt_le.mp (hold x hx hsame))⟩
      · exact ⟨x, (hmem x).mpr (.inl ⟨hx, hsame⟩), hxs, hle⟩
    · exact ⟨(k, v), hkv, hks, hv.elim (fun h => h.ge) fun h => h.2⟩

/-- **One call.** A call that meets its condition keeps the map in step with the bans in force. -/
lemma Holds.handle (h : c.Holds events) (bantime : Int64) (hplain : e.Plain c)
    (hpositive : e.call.Positive) : (c.handle bantime e).Holds (events ++ [e]) := by
  have hmem : e ∈ events ++ [e] := by simp
  rw [Bans.handle]
  cases hcall : e.call with
  | ban s banReason bantimeoffset sinceUnixEpoch =>
    simp only [BanEvent.Plain, BanCall.Positive, hcall] at hplain hpositive
    obtain ⟨⟨hpos, hfit⟩, hvalid⟩ := hplain
    have ht := toInt_banUntil bantime hpositive hpos hfit
    have hnew (s' : CSubNet) (t' : ℤ) : InForce (events ++ [e]) s' t' ↔ InForce events s' t' ∨
        (s' = s ∧ t' = (if sinceUnixEpoch then 0 else e.now.toInt) + bantimeoffset.toInt) := by
      rw [inForce_concat, hcall]
      simp only [BanCall.Lifts, not_false_eq_true, and_true]
      refine or_congr_right ⟨?_, ?_⟩
      · rintro ⟨_, _, _, hban, rfl⟩
        cases hban
        exact ⟨rfl, rfl⟩
      · rintro ⟨rfl, rfl⟩
        exact ⟨banReason, bantimeoffset, sinceUnixEpoch, rfl, rfl⟩
    obtain ⟨c', hc', k, v, hentries, hk, hv, hold⟩ := ban_cases bantime e.now e.written s banReason
      bantimeoffset sinceUnixEpoch c (by rw [Int64.lt_iff_toInt_lt, ht]; exact hpos)
    have hholds : c'.Holds (events ++ [e]) := by
      refine h.ban hnew hvalid hentries hk (hv.imp (fun h => ?_) fun h => ⟨h.1, ?_⟩) hold
      · rw [h, ht]
      · rw [← ht]
        exact Int64.le_iff_toInt_le.mp h.2
    show (c.ban bantime e.now e.written s banReason bantimeoffset sinceUnixEpoch).Holds _
    obtain hc' | hc' := hc'
    · rwa [hc']
    · rw [hc']
      exact hholds.dumpBanlist hmem _
  | unban s =>
    simp only [BanEvent.Plain, hcall] at hplain
    simp only [unban]
    split_ifs with hnone
    · refine h.lift c hcall hplain fun x => ⟨fun hx => ⟨hx, ?_⟩, And.left⟩
      exact find_eq_none_iff.mp (Option.isNone_iff_eq_none.mp hnone) x hx
    · exact (h.lift { c with setBanned := c.setBanned.erase s, setBannedIsDirty := true }
        hcall hplain fun x => mem_erase).dumpBanlist hmem _
  | sweepBanned =>
    exact (h.concat (by simp [hcall]) (by simp [hcall, BanCall.Lifts])).sweepBanned hmem
  | clearBanned =>
    refine Holds.dumpBanlist (c := { c with setBanned := .empty, setBannedIsDirty := true })
      ⟨fun x hx => absurd hx List.not_mem_nil, fun s t hs _ => ?_⟩ hmem _
    obtain ⟨-, hlift⟩ | ⟨_, _, _, hban, -⟩ := inForce_concat.mp hs
    · exact absurd (by simp [hcall, BanCall.Lifts]) hlift
    · rw [hcall] at hban
      cases hban

lemma run_concat (bantime : Int64) (events : List BanEvent) (e : BanEvent) :
    run bantime (events ++ [e]) = (run bantime events).handle bantime e := by
  rw [run, List.foldl_append]
  rfl

/-- **Every sequence of calls.** If every call meets its condition, the map is in step with the bans
in force. -/
lemma holds_run (bantime : Int64) {events : List BanEvent}
    (hplain : ∀ before e after, events = before ++ e :: after → e.Plain (run bantime before))
    (hpositive : ∀ e ∈ events, e.call.Positive) : (run bantime events).Holds events := by
  induction events using List.reverseRecOn with
  | nil =>
    refine ⟨fun x hx => absurd hx List.not_mem_nil, fun s t hs _ => ?_⟩
    obtain ⟨before, after, _, _, _, _, _, heq, -⟩ := hs
    simp at heq
  | append_singleton events e ih =>
    rw [run_concat]
    refine (ih (fun before e' after heq => hplain before e' (after ++ [e]) (by simp [heq]))
      fun e' he' => hpositive e' (List.mem_append_left _ he')).handle bantime
      (hplain events e [] rfl) (hpositive e (by simp))

/-- **Ban bookkeeping.** After a sequence of calls that all meet the condition, at any time that is
not before a call, an address is banned exactly when a ban that is in force and has not ended
matches it.

**Proof sketch.** The map holds the bans in force, by induction over the calls. An entry that
matches and has not ended is backed by a ban in force of an equal subnet, and a ban in force that
has not ended has an entry that does not end earlier. -/
theorem isBanned_iff (bantime : Int64) (events : List BanEvent)
    (hplain : ∀ before e after, events = before ++ e :: after → e.Plain (run bantime before))
    (hpositive : ∀ e ∈ events, e.call.Positive) (now : Int64) (hnow : ∀ e ∈ events, e.now ≤ now)
    (ip : CNetAddr) : (run bantime events).isBanned now ip = true ↔ BannedBy events now ip := by
  have h := holds_run bantime hplain hpositive
  simp only [isBanned, List.any_eq_true, Bool.and_eq_true, decide_eq_true_eq]
  constructor
  · rintro ⟨x, hx, hmatch, hlt⟩
    obtain ⟨s, heqv, hs⟩ := h.backed x hx
    exact ⟨s, _, hs, heqv.isMatch_eq ip ▸ hmatch, Int64.lt_iff_toInt_lt.mp hlt⟩
  · rintro ⟨s, t, hs, hmatch, hlt⟩
    obtain ⟨x, hx, heqv, hle⟩ := h.kept s t hs fun e he =>
      (Int64.le_iff_toInt_le.mp (hnow e he)).trans_lt hlt
    exact ⟨x, hx, heqv.isMatch_eq ip ▸ hmatch, Int64.lt_iff_toInt_lt.mpr (hlt.trans_le hle)⟩

/-- The address `8.8.8.8`. -/
def someAddress : CNetAddr := { ip := #v[0, 0, 0, 0, 0, 0, 0, 0, 0, 0, 0xff, 0xff, 8, 8, 8, 8] }

/-- A ban for a day at the time `1`. -/
def dayBan (s : CSubNet) : BanEvent := ⟨1, true, .ban s BanReasonNodeMisbehaving 86400 false⟩

instance (c : Bans) (e : BanEvent) : Decidable (e.Plain c) := by
  unfold BanEvent.Plain
  split <;> infer_instance

/-- The address is banned and unbanned; a subnet is banned until the time `13` and swept; and the
address is banned again. -/
def banHistory : List BanEvent :=
  [dayBan (.ofAddr someAddress), ⟨2, true, .unban (.ofAddr someAddress)⟩,
    ⟨3, false, .ban (.ofBits someAddress 24) BanReasonNodeMisbehaving 10 false⟩,
    ⟨20, true, .sweepBanned⟩,
      ⟨21, true, .ban (.ofAddr someAddress) BanReasonManuallyAdded 90000 true⟩]

/-- All its calls meet the condition. -/
lemma plain_banHistory {before after : List BanEvent} {e : BanEvent}
    (heq : banHistory = before ++ e :: after) : e.Plain (run 86400 before) := by
  have hall : ∀ n < 5, (banHistory[n]?).all
      (fun e => decide (e.Plain (run 86400 (banHistory.take n)))) = true := by decide +kernel
  have hlen : before.length < 5 := by
    have := congrArg List.length heq
    simp [banHistory] at this
    omega
  have h := hall before.length hlen
  rw [heq, List.take_left] at h
  simpa using h

/-- The ban that was lifted and the one that was swept count no more, and the last one does. -/
theorem isBanned_iff_history :
    ¬ BannedBy (banHistory.take 4) 20 someAddress ∧ BannedBy banHistory 30 someAddress := by
  constructor
  · refine (isBanned_iff 86400 (banHistory.take 4) (fun before e after heq => ?_) ?_ 20 ?_
      someAddress).not.mp (by decide +kernel)
    · refine @plain_banHistory before (after ++ banHistory.drop 4) e ?_
      refine (List.take_append_drop 4 banHistory).symm.trans ?_
      rw [heq, List.append_assoc, List.cons_append]
    · simp [banHistory, dayBan, BanCall.Positive]
    · decide +kernel
  · refine (isBanned_iff 86400 banHistory (fun _ _ _ => plain_banHistory) ?_ 30 ?_ someAddress).mp
      (by decide +kernel)
    · simp [banHistory, dayBan, BanCall.Positive]
    · decide +kernel

/-- A subnet with a mask that is out of range is invalid, and has the network and mask of the single
address. Banned first, it shadows the ban of the address. -/
theorem shadowed_ban :
    (∀ e ∈ [dayBan (.ofBits someAddress (-1)), dayBan (.ofAddr someAddress)], e.call.Positive) ∧
    ¬ ((run 86400 [dayBan (.ofBits someAddress (-1)), dayBan (.ofAddr someAddress)]).isBanned 2
        someAddress = true ↔
      BannedBy [dayBan (.ofBits someAddress (-1)), dayBan (.ofAddr someAddress)] 2
        someAddress) := by
  refine ⟨by simp [dayBan, BanCall.Positive], fun h => ?_⟩
  have hban : BannedBy [dayBan (.ofBits someAddress (-1)), dayBan (.ofAddr someAddress)] 2
      someAddress :=
    ⟨.ofAddr someAddress, 86401, ⟨[dayBan (.ofBits someAddress (-1))], [], 1, true, _, _, _, rfl,
      fun e he => absurd he List.not_mem_nil, by decide⟩, by decide +kernel, by decide⟩
  exact absurd (h.mpr hban) (by decide +kernel)

end Bans

end Tos.Net
