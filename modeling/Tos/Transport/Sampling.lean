import Tos.Transport.AddrCheck

/-!
# Sampling addresses

`CAddrMan::GetAddr_` shuffles a prefix of `vRandom` in place. In each round the id of a random place
behind the prefix is swapped to its end, and its address is taken unless the entry is terrible; the
loop ends when there are enough addresses.

## Main results

* `swapRandom_run`: one swap.
* `getAddrLoop_run`: the loop.
* `getAddr_spec`: the addresses that are given, and the manager afterwards.
-/

namespace Tos.Net.CAddrMan

open List
open AddrManM

/-- Only the order of `vRandom` has changed, and with it the places that the entries know. -/
structure Shuffled (m m' : CAddrMan) : Prop where
  rest : m' = { m with vRandom := m'.vRandom, mapInfo := m'.mapInfo }
  perm : m'.vRandom.toList.Perm m.vRandom.toList
  info : ∀ nId, m'.mapInfo.get? nId =
    (m.mapInfo.get? nId).map fun info => { info with nRandomPos := (m'.info nId).nRandomPos }

variable {m m' : CAddrMan}

namespace Shuffled

lemma refl (m : CAddrMan) : m.Shuffled m := by
  refine ⟨rfl, .refl _, fun nId => ?_⟩
  unfold CAddrMan.info
  cases m.mapInfo.get? nId <;> rfl

lemma trans {m₁ m₂ m₃ : CAddrMan} (h₁ : m₁.Shuffled m₂) (h₂ : m₂.Shuffled m₃) : m₁.Shuffled m₃ := by
  refine ⟨?_, h₂.perm.trans h₁.perm, fun nId => ?_⟩
  · rw [h₂.rest, h₁.rest]
  · rw [h₂.info, h₁.info, Option.map_map]
    rfl

lemma size_eq (h : m.Shuffled m') : m'.vRandom.size = m.vRandom.size := by
  simpa using h.perm.length_eq

end Shuffled

lemma swap_self {α : Type} {v : Array α} {p : ℕ} (hp : p < v.size) : v.swap p p hp hp = v := by
  refine Array.ext (by simp) fun k hk hk' => ?_
  rw [Array.getElem_swap]
  split_ifs with h
  · subst h
    rfl
  · rfl

/-- One swap. -/
lemma swapRandom_run (h : m.Aligned) {p q : ℕ} (hp : p < m.vRandom.size) (hq : q < m.vRandom.size) :
    ∃ m', (swapRandom p q).run m = .ok ((), m') ∧ m.Shuffled m' ∧ m'.Aligned ∧
      m'.vRandom = m.vRandom.swap p q hp hq := by
  rw [swapRandom, run_get_bind]
  by_cases hpq : p = q
  · subst hpq
    rw [if_pos rfl]
    exact ⟨m, rfl, .refl m, h, (swap_self _).symm⟩
  · obtain ⟨info₁, h₁, -⟩ := h.entry p hp
    obtain ⟨info₂, h₂, -⟩ := h.entry q hq
    have hne : m.vRandom[p] ≠ m.vRandom[q] := fun e => hpq (h.index_inj hp hq e)
    rw [if_neg hpq, dif_pos ⟨hp, hq⟩, run_assert_bind (by rw [h₁]; rfl),
      run_assert_bind (by rw [h₂]; rfl), run_modify_bind, run_modify_bind]
    set m' := modifyInfo m.vRandom[q] (fun info => { info with nRandomPos := p })
      (modifyInfo m.vRandom[p] (fun info => { info with nRandomPos := q }) m) with hm'
    have hget (n : ℤ) : m'.mapInfo.get? n =
        if m.vRandom[q] = n then some { info₂ with nRandomPos := p }
        else if m.vRandom[p] = n then some { info₁ with nRandomPos := q }
        else m.mapInfo.get? n := by
      have hinfo : (modifyInfo m.vRandom[p] (fun info => { info with nRandomPos := q }) m).info
          m.vRandom[q] = info₂ := by
        refine info_eq ?_
        rw [get?_modifyInfo, if_neg hne, h₂]
      rw [hm', get?_modifyInfo, hinfo, get?_modifyInfo, info_eq h₁]
    refine ⟨_, rfl, ⟨rfl, ?_, fun nId => ?_⟩, ⟨fun i hi => ?_, fun nId info hinfo => ?_⟩, rfl⟩
    · exact (Array.swap_perm hp hq).toList
    · change m'.mapInfo.get? nId = (m.mapInfo.get? nId).map fun info =>
        { info with nRandomPos := ((m'.mapInfo.get? nId).getD {}).nRandomPos }
      rw [hget nId]
      split_ifs with h₂' h₁'
      · rw [← h₂', h₂]
        rfl
      · rw [← h₁', h₁]
        rfl
      · cases m.mapInfo.get? nId <;> rfl
    · change ∃ info, m'.mapInfo.get? ((m.vRandom.swap p q hp hq)[i]) = some info ∧ _
      simp only [Array.size_swap] at hi
      rw [Array.getElem_swap, hget]
      by_cases hip : i = p
      · subst hip
        exact ⟨_, by rw [if_pos rfl, if_pos rfl], rfl⟩
      · by_cases hiq : i = q
        · subst hiq
          exact ⟨_, by rw [if_neg hip, if_pos rfl, if_neg hne.symm, if_pos rfl], rfl⟩
        · -- the other places keep their entries
          have hother {j : ℕ} (hj : j < m.vRandom.size) (hij : i ≠ j) :
              m.vRandom[j] ≠ m.vRandom[i] := fun e => hij (h.index_inj hj hi e).symm
          rw [if_neg hip, if_neg hiq, if_neg (hother hq hiq), if_neg (hother hp hip)]
          exact h.entry i hi
    · change m'.mapInfo.get? nId = some info at hinfo
      change 0 ≤ info.nRandomPos ∧ (m.vRandom.swap p q hp hq)[info.nRandomPos.toNat]? = some nId
      rw [hget] at hinfo
      split_ifs at hinfo with hq' hp'
      · obtain rfl := Option.some.inj hinfo
        refine ⟨by simp, ?_⟩
        rw [← hq', Array.getElem?_eq_some_iff]
        exact ⟨by simpa using hp, by simp⟩
      · obtain rfl := Option.some.inj hinfo
        refine ⟨by simp, ?_⟩
        rw [← hp', Array.getElem?_eq_some_iff]
        exact ⟨by simpa using hq, by simp⟩
      · obtain ⟨hnonneg, hpos⟩ := h.pos nId info hinfo
        obtain ⟨hlt, heq⟩ := Array.getElem?_eq_some_iff.mp hpos
        refine ⟨hnonneg, Array.getElem?_eq_some_iff.mpr ⟨by simpa using hlt, ?_⟩⟩
        rw [Array.getElem_swap, if_neg, if_neg, heq]
        · intro e
          simp only [e] at heq
          exact hq' heq
        · intro e
          simp only [e] at heq
          exact hp' heq

/-- A swap leaves the places before both alone. -/
lemma swap_prefix {v : Array ℤ} {p q i : ℕ} (hp : p < v.size) (hq : q < v.size) (hip : i < p)
    (hiq : i < q) : (v.swap p q hp hq)[i]? = v[i]? := by
  rw [Array.getElem?_eq_getElem (by simpa using hip.trans hp), Array.getElem?_eq_getElem
    (hip.trans hp), Array.getElem_swap, if_neg hip.ne, if_neg hiq.ne]

/-- The address that round `i` takes, if it takes one. -/
def drawn (now : ℕ → Int64) (m : CAddrMan) (i : ℕ) : Option CAddress :=
  m.vRandom[i]?.bind fun nId => (m.mapInfo.get? nId).bind fun info =>
    if info.isTerrible (now i) then none else some info.toCAddress

variable {now : ℕ → Int64}

/-- What a round takes does not depend on the places that entries know. -/
lemma drawn_of_shuffled (h : m.Shuffled m') {i : ℕ}
    (hi : m'.vRandom[i]? = m.vRandom[i]?) : drawn now m' i = drawn now m i := by
  unfold drawn
  rw [hi]
  cases m.vRandom[i]? with
  | none => rfl
  | some nId =>
    rw [Option.bind_some, Option.bind_some, h.info nId]
    cases m.mapInfo.get? nId <;> rfl

/-- The loop of `GetAddr_`: it shuffles the places from `n` on and takes the addresses of the first
ones, until there are enough or no place is left.

**Proof sketch.** By induction on the rounds that are left. After the swap, place `n` is not touched
any more, so the address that is taken is the one of the entry that is there in the end. -/
theorem getAddrLoop_run (rand : ℕ → ℕ) (now : ℕ → Int64) (nNodes k n : ℕ) (vAddr : List CAddress)
    (h : m.Aligned) (hk : n + k = m.vRandom.size) :
    ∃ m' c, n + c ≤ m.vRandom.size ∧
      (getAddrLoop rand now nNodes k n vAddr).run m =
        .ok (vAddr ++ (List.range' n c).filterMap (drawn now m'), m') ∧
      m.Shuffled m' ∧ m'.Aligned ∧ (∀ i < n, m'.vRandom[i]? = m.vRandom[i]?) ∧
      (vAddr.length ≤ nNodes →
        (vAddr ++ (List.range' n c).filterMap (drawn now m')).length ≤ nNodes) ∧
      (n + c = m.vRandom.size ∨
        nNodes ≤ (vAddr ++ (List.range' n c).filterMap (drawn now m')).length) := by
  induction k generalizing n vAddr m with
  | zero =>
    refine ⟨m, 0, by omega, ?_, .refl m, h, fun _ _ => rfl, ?_, .inl (by omega)⟩
    · rw [List.range'_zero, filterMap_nil, append_nil]
      rfl
    · simp
  | succ k ih =>
    rw [getAddrLoop]
    by_cases hfull : vAddr.length ≥ nNodes
    · rw [if_pos hfull]
      refine ⟨m, 0, by omega, ?_, .refl m, h, fun _ _ => rfl, ?_, .inr ?_⟩
      · rw [List.range'_zero, filterMap_nil, append_nil]
        rfl
      · simp
      · simpa using hfull
    · rw [if_neg hfull, run_get_bind]
      have hn : n < m.vRandom.size := by omega
      have hq : rand n % (m.vRandom.size - n) + n < m.vRandom.size := by
        have := Nat.mod_lt (rand n) (show 0 < m.vRandom.size - n by omega)
        omega
      obtain ⟨m₁, hswap, hsh₁, hal₁, hv₁⟩ := swapRandom_run h hn hq
      have hn₁ : n < m₁.vRandom.size := by rwa [hsh₁.size_eq]
      obtain ⟨info, hinfo, -⟩ := hal₁.entry n hn₁
      have hid : m₁.vRandom.getD n 0 = m₁.vRandom[n] := by simp [Array.getD, hn₁]
      have hdrawn : drawn now m₁ n =
          if info.isTerrible (now n) then none else some info.toCAddress := by
        rw [drawn, Array.getElem?_eq_getElem hn₁, Option.bind_some, hinfo, Option.bind_some]
      rw [run_bind_of_ok hswap, run_get_bind, hid, run_assert_bind (by rw [hinfo]; rfl),
        info_eq hinfo]
      obtain ⟨m', c, hc, hrun, hsh, hal, hpre, hle, hend⟩ :=
        ih (n + 1) (if info.isTerrible (now n) then vAddr else vAddr ++ [info.toCAddress]) hal₁
          (by rw [hsh₁.size_eq]; omega)
      -- place `n` stays as it is from now on
      have hlast : drawn now m' n = drawn now m₁ n := drawn_of_shuffled hsh (hpre n (by omega))
      have hlist : (if info.isTerrible (now n) then vAddr else vAddr ++ [info.toCAddress]) ++
          (List.range' (n + 1) c).filterMap (drawn now m') =
          vAddr ++ (List.range' n (c + 1)).filterMap (drawn now m') := by
        rw [List.range'_succ, filterMap_cons, hlast, hdrawn]
        split_ifs with hterr
        · rfl
        · simp
      rw [hlist] at hrun hle hend
      rw [hsh₁.size_eq] at hc hend
      refine ⟨m', c + 1, by omega, hrun, hsh₁.trans hsh, hal, fun i hi => ?_, fun _ => hle ?_, ?_⟩
      · rw [hpre i (by omega), hv₁]
        exact swap_prefix hn hq hi (by omega)
      · split_ifs
        · omega
        · simp only [length_append, length_singleton]
          omega
      · rcases hend with hend | hend
        · exact .inl (by omega)
        · exact .inr hend

/-- What a round has taken, in terms of the entries before the call. -/
lemma drawn_eq_some (h : m.Shuffled m') {i : ℕ} {a : CAddress} :
    drawn now m' i = some a ↔ ∃ nId info, m'.vRandom[i]? = some nId ∧
      m.mapInfo.get? nId = some info ∧ info.isTerrible (now i) = false ∧ info.toCAddress = a := by
  unfold drawn
  cases m'.vRandom[i]? with
  | none => simp
  | some nId =>
    rw [Option.bind_some, h.info nId]
    cases hinfo : m.mapInfo.get? nId with
    | none => simp [hinfo]
    | some info =>
      have hterr : ({ info with nRandomPos := (m'.info nId).nRandomPos } : CAddrInfo).isTerrible
          (now i) = info.isTerrible (now i) := rfl
      rw [Option.map_some, Option.bind_some, hterr]
      constructor
      · intro ha
        split_ifs at ha with ht
        exact ⟨nId, info, rfl, hinfo, by simpa using ht, Option.some.inj ha⟩
      · rintro ⟨nId', info', hid, hinfo', ht, rfl⟩
        obtain rfl := Option.some.inj hid
        obtain rfl := Option.some.inj (hinfo.symm.trans hinfo')
        rw [if_neg (by simp [ht])]

/-- The entry is not terrible at any of the times at which the clock is read. -/
def Fine (now : ℕ → Int64) (m : CAddrMan) (info : CAddrInfo) : Prop :=
  ∀ i < m.vRandom.size, info.isTerrible (now i) = false

instance (now : ℕ → Int64) (m : CAddrMan) (info : CAddrInfo) : Decidable (m.Fine now info) :=
  inferInstanceAs (Decidable (∀ i < m.vRandom.size, _))

/-- If all places have been visited, every entry that is not terrible has been taken. -/
lemma countP_fine_le (h : m.Shuffled m') (hal : m.Aligned) :
    m.mapInfo.entries.countP (fun e => m.Fine now e.2) ≤
      ((List.range' 0 m.vRandom.size).filterMap (drawn now m')).length := by
  have hids : m.mapInfo.entries.countP (fun e => m.Fine now e.2) =
      (m.mapInfo.entries.map Prod.fst).countP (fun nId => m.Fine now (m.info nId)) := by
    rw [countP_map]
    refine countP_congr fun e he => ?_
    have hinfo : m.info e.1 = e.2 := info_eq (get?_eq_some.mpr he)
    simp [hinfo]
  have hvector : m'.vRandom.toList = (List.range' 0 m.vRandom.size).map
      (fun i => m'.vRandom.getD i 0) := by
    refine ext_getElem (by simp [h.size_eq]) fun i hi hi' => ?_
    have hlt : i < m'.vRandom.size := by simpa using hi
    simp [Array.getD, hlt]
  rw [hids, ← (h.perm.trans hal.perm_ids).countP_eq, hvector, countP_map,
    length_filterMap_eq_countP]
  refine countP_mono_left fun i hi hfine => ?_
  have hlt : i < m.vRandom.size := by simpa [mem_range'] using hi
  have hlt' : i < m'.vRandom.size := by rwa [h.size_eq]
  have hid : m'.vRandom.getD i 0 = m'.vRandom[i] := by simp [Array.getD, hlt']
  have hmem : m'.vRandom[i] ∈ m.vRandom.toList :=
    h.perm.mem_iff.mp (Array.getElem_mem_toList hlt')
  obtain ⟨info, hinfo⟩ := Option.isSome_iff_exists.mp (hal.mem_vRandom_iff.mp hmem)
  simp only [Function.comp_apply, hid, info_eq hinfo, decide_eq_true_eq] at hfine
  rw [(drawn_eq_some h).mpr ⟨_, info, Array.getElem?_eq_getElem hlt', hinfo, hfine i hlt, rfl⟩]
  rfl

/-- **The addresses that `GetAddr_` gives.** They are addresses of different entries that were not
terrible when they were drawn, at most 23 percent of all and at most 2500, and as many if there are
enough entries that are not terrible. Afterwards only the order of `vRandom` has changed, and every
entry knows its place. -/
theorem getAddr_spec (hash : CheapHash) {m : CAddrMan} (h : m.check_ hash = 0) (rand : ℕ → ℕ)
    (now : ℕ → Int64) :
    ∃ vAddr m', (getAddr_ rand now []).run m = .ok (vAddr, m') ∧
      vAddr.Pairwise (fun a b => a.ip ≠ b.ip) ∧
      (∀ a ∈ vAddr, ∃ nId info i, m.mapInfo.get? nId = some info ∧ info.toCAddress = a ∧
        i < m.mapInfo.entries.length ∧ info.isTerrible (now i) = false) ∧
      vAddr.length ≤ min 2500 (23 * m.mapInfo.entries.length / 100) ∧
      (min 2500 (23 * m.mapInfo.entries.length / 100) ≤
          m.mapInfo.entries.countP (fun e => m.Fine now e.2) →
        vAddr.length = min 2500 (23 * m.mapInfo.entries.length / 100)) ∧
      m.Shuffled m' ∧
      ∀ nId info, m'.mapInfo.get? nId = some info → 0 ≤ info.nRandomPos ∧
        m'.vRandom[info.nRandomPos.toNat]? = some nId := by
  have hplaced := placed_of_check h
  have hal := hplaced.aligned
  have hmax : m.getAddrMax = min 2500 (23 * m.mapInfo.entries.length / 100) := by
    rw [getAddrMax, hplaced.size]
    rfl
  obtain ⟨m', c, hc, hrun, hsh, hal', -, hle, hend⟩ :=
    getAddrLoop_run rand now m.getAddrMax m.vRandom.size 0 [] hal (by omega)
  rw [nil_append] at hrun hle hend
  rw [Nat.zero_add] at hc hend
  have hle := hle (Nat.zero_le _)
  rw [← hmax]
  refine ⟨_, m', hrun, ?_, fun a ha => ?_, hle, fun henough => ?_, hsh, hal'.pos⟩
  · -- two rounds take the addresses of different ids
    refine pairwise_filterMap.mpr ((pairwise_lt_range' _ Nat.one_pos).imp fun hij => ?_)
    intro a ha b hb hip
    obtain ⟨nId, info, hid, hinfo, -, rfl⟩ := (drawn_eq_some hsh).mp ha
    obtain ⟨nId', info', hid', hinfo', -, rfl⟩ := (drawn_eq_some hsh).mp hb
    obtain rfl := hplaced.addr nId nId' info info' hinfo hinfo' hip
    obtain ⟨hi, hi'⟩ := Array.getElem?_eq_some_iff.mp hid
    obtain ⟨hj, hj'⟩ := Array.getElem?_eq_some_iff.mp hid'
    exact hij.ne (hal'.index_inj hi hj (hi'.trans hj'.symm))
  · obtain ⟨i, hi, hdrawn⟩ := mem_filterMap.mp ha
    obtain ⟨nId, info, -, hinfo, hterr, rfl⟩ := (drawn_eq_some hsh).mp hdrawn
    refine ⟨nId, info, i, hinfo, rfl, ?_, hterr⟩
    have := mem_range'_1.mp hi
    rw [← hplaced.size]
    omega
  · rcases hend with rfl | hfull
    · exact le_antisymm hle (henough.trans (countP_fine_le hsh hal))
    · exact le_antisymm hle hfull

/-- A peer with the address `1.0.0.k` and the port `k`; nothing was heard of the first ones. -/
def peer (k : ℕ) : CAddress where
  ip := ⟨#[0, 0, 0, 0, 0, 0, 0, 0, 0, 0, 0xff, 0xff, 1, 0, 0, UInt8.ofNat k], rfl⟩
  port := UInt16.ofNat k
  nTime := if k < 4 then 0 else 1000

/-- A manager with nine new peers, each of them at the place of its number in the first bucket. -/
def peopled : CAddrMan where
  nIdCount := 9
  mapInfo := ⟨(List.range 9).map fun k : ℕ =>
    ((k : ℤ), { toCAddress := peer k, nRefCount := 1, nRandomPos := k }), by decide⟩
  mapAddr := ⟨(List.range 9).map fun k : ℕ => ((peer k).toCNetAddr, (k : ℤ)), by decide⟩
  vRandom := #[0, 1, 2, 3, 4, 5, 6, 7, 8]
  nNew := 9
  vvNew b i := if b.val = 0 ∧ i.val < 9 then i.val else -1
  nKey := [1]

/-- A hash by which a peer is placed after the low byte of its port. -/
def lastByte : CheapHash := fun l => (l.getLastD 0).toUInt64

/-- The nine peers pass the check. -/
lemma check_peopled : peopled.check_ lastByte = 0 := by
  have htried (s : List ℤ) : (places ADDRMAN_TRIED_BUCKET_COUNT).foldlM
      (peopled.checkTried lastByte) s = .ok s :=
    foldlM_checkTried_of_empty lastByte (fun _ _ => rfl) s
  have hnew (s : OrderedMap ℤ ℤ idLt) : (places ADDRMAN_NEW_BUCKET_COUNT).foldlM
      (peopled.checkNew lastByte) s = ((List.finRange ADDRMAN_BUCKET_SIZE).map
        (fun i => ((0 : NewBucket), i))).foldlM (peopled.checkNew lastByte) s := by
    rw [places_succ, foldlM_append]
    refine (bind_congr fun s' => foldlM_checkNew_of_empty lastByte ?_ s').trans (bind_pure _)
    intro p hp
    obtain ⟨b, -, hp⟩ := mem_flatMap.mp hp
    obtain ⟨i, -, rfl⟩ := mem_map.mp hp
    simp [peopled]
  rw [check_, checkAll]
  simp only [htried, hnew]
  decide +kernel

/-- Of the nine peers two are given. The first one that is drawn is terrible. -/
theorem getAddr_spec_peopled :
    ∃ m', (getAddr_ (fun _ => 3) (fun _ => 1000) []).run peopled = .ok ([peer 4, peer 5], m') ∧
      [peer 4, peer 5].length = min 2500 (23 * peopled.mapInfo.entries.length / 100) ∧
      peopled.Shuffled m' ∧ m'.vRandom = #[3, 4, 5, 0, 1, 2, 6, 7, 8] ∧
      ∀ nId info, m'.mapInfo.get? nId = some info → 0 ≤ info.nRandomPos ∧
        m'.vRandom[info.nRandomPos.toNat]? = some nId := by
  obtain ⟨vAddr, m', hrun, -, -, -, hfull, hshuffled, hpos⟩ :=
    getAddr_spec lastByte check_peopled (fun _ => 3) (fun _ => 1000)
  have hout : ((getAddr_ (fun _ => 3) (fun _ => 1000) []).run peopled).map
      (fun r => (r.1, r.2.vRandom)) =
        .ok ([peer 4, peer 5], #[3, 4, 5, 0, 1, 2, 6, 7, 8]) := by decide +kernel
  rw [hrun] at hout
  obtain ⟨rfl, hrandom⟩ := Prod.ext_iff.mp (Except.ok.inj hout)
  exact ⟨m', hrun, hfull (by decide +kernel), hshuffled, hrandom, hpos⟩

end Tos.Net.CAddrMan
