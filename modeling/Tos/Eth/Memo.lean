import Mathlib.Logic.Function.Basic
import Tos.Eth.BlockHeader

/-!
# The memoised hashes of a header

A `BlockHeader` keeps its two hashes, with and without the seal, once they have been computed; zero
stands for "not computed". Every method that changes a field must call `noteDirty`, and one does
not: `populateFromParent` leaves the memos of the object as they are, and takes the hash of the
parent from its memo, which may not have been computed.

The states are the objects of a program, and the steps are the methods that the header has: the
constructors, the assignment, the setters, `clear`, `hash` and `populateFromParent`.

## Main results

* `BlockHeader.coherent_iff`: a memo that is set is the hash of the fields.
* `HeaderPool.Reached.coherent`: in careful runs all objects are coherent.
* `HeaderPool.memo_of_careful_run`: in careful runs the memos and the parent hashes are
  right.
* `HeaderPool.populateFromParent_stale`: without care neither is.

## Implementation notes

`setSeal` is generic in the value; here it gets the bytes `rlp(_value)`. Its `_offset + 1` is an
`unsigned`, and with the largest offset the seal is cut off and written behind its end: there is no
state behind such a step. A step that throws leaves the objects as they are.
-/

namespace Tos.Eth

open Sdag (H256)
open Function (update update_of_ne update_self)

open Sdag.Wire (Address U256)

namespace BlockHeader

variable (h : BlockHeader)

/-! ### The methods -/

def setParentHash (v : H256) : BlockHeader := { h with m_parentHash := v }.noteDirty

def setSha3Uncles (v : H256) : BlockHeader := { h with m_sha3Uncles := v }.noteDirty

def setTimestamp (v : ℤ) : BlockHeader := { h with m_timestamp := v }.noteDirty

def setAuthor (v : Address) : BlockHeader := { h with m_author := v }.noteDirty

def setRoots (t r u s : H256) : BlockHeader :=
  { h with
    m_transactionsRoot := t, m_receiptsRoot := r, m_stateRoot := s, m_sha3Uncles := u }.noteDirty

def setGasUsed (v : U256) : BlockHeader := { h with m_gasUsed := v }.noteDirty

def setNumber (v : ℤ) : BlockHeader := { h with m_number := v }.noteDirty

def setGasLimit (v : U256) : BlockHeader := { h with m_gasLimit := v }.noteDirty

def setExtraData (v : Bytes) : BlockHeader := { h with m_extraData := v }.noteDirty

def setLogBloom (v : BitVec 2048) : BlockHeader := { h with m_logBloom := v }.noteDirty

def setDifficulty (v : U256) : BlockHeader := { h with m_difficulty := v }.noteDirty

/-- `std::vector::resize`. -/
def resize (items : List Bytes) (n : ℕ) : List Bytes :=
  items.take n ++ List.replicate (n - items.length) []

/-- `setSeal(_offset, _value)` for a value that is written as `value`. -/
def setSeal (offset : UInt32) (value : Bytes) : Option BlockHeader :=
  let items := if h.m_seal.length ≤ offset.toNat then resize h.m_seal (offset + 1).toNat
    else h.m_seal
  if offset.toNat < items.length then
    some { h with m_seal := items.set offset.toNat value }.noteDirty
  else none

/-- The copy constructor, and the assignment of another object. -/
def copyOf (other : BlockHeader) : BlockHeader where
  m_parentHash := other.m_parentHash
  m_sha3Uncles := other.m_sha3Uncles
  m_stateRoot := other.m_stateRoot
  m_transactionsRoot := other.m_transactionsRoot
  m_receiptsRoot := other.m_receiptsRoot
  m_logBloom := other.m_logBloom
  m_number := other.m_number
  m_gasLimit := other.m_gasLimit
  m_gasUsed := other.m_gasUsed
  m_extraData := other.m_extraData
  m_timestamp := other.m_timestamp
  m_author := other.m_author
  m_difficulty := other.m_difficulty
  m_seal := other.m_seal
  m_hash := other.m_hash
  m_hashWithout := other.m_hashWithout

variable (sha3 : Bytes → H256)

/-- `EmptyListSHA3`. -/
def emptyListSHA3 : H256 := sha3 [0xc0]

/-- `EmptyTrie`. -/
def emptyTrie : H256 := sha3 [0x80]

/-- `BlockHeader::clear`. -/
def clear : BlockHeader :=
  { h with
    m_parentHash := 0
    m_sha3Uncles := emptyListSHA3 sha3
    m_author := 0
    m_stateRoot := emptyTrie sha3
    m_transactionsRoot := emptyTrie sha3
    m_receiptsRoot := emptyTrie sha3
    m_logBloom := 0
    m_difficulty := 0
    m_number := 0
    m_gasLimit := 0
    m_gasUsed := 0
    m_timestamp := -1
    m_extraData := []
    m_seal := [] }.noteDirty

/-- `BlockHeader::populateFromParent`. The number of the parent is an `int64_t`. -/
def populateFromParent (parent : BlockHeader) : BlockHeader :=
  { h with
    m_stateRoot := parent.m_stateRoot
    m_number := (parent.m_number + 1).bmod (2 ^ 64)
    m_parentHash := parent.m_hash
    m_gasLimit := parent.m_gasLimit
    m_difficulty := parent.m_difficulty
    m_gasUsed := 0 }

/-! ### Coherence -/

/-- What `hash` returns. -/
def hashValue (i : IncludeSeal) : Except HeaderError H256 := (hash sha3 h i).map Prod.fst

/-- The hash of the current fields. -/
def freshHash (i : IncludeSeal) : Except HeaderError H256 := (out h i).map sha3

/-- `hash` gives the hash of what `streamRLP` writes for the current fields. -/
def Coherent : Prop := ∀ i, h.hashValue sha3 i = h.freshHash sha3 i

variable {h sha3}

/-- **A memo that is set is the hash of the fields.** -/
lemma coherent_iff : Coherent h sha3 ↔
    (h.m_hash ≠ 0 → h.freshHash sha3 .withSeal = .ok h.m_hash) ∧
      (h.m_hashWithout ≠ 0 → h.freshHash sha3 .withoutSeal = .ok h.m_hashWithout) := by
  constructor
  · intro hc
    refine ⟨fun hne => ?_, fun hne => ?_⟩
    · have := hc .withSeal
      rw [hashValue, hash, if_neg hne] at this
      exact this.symm
    · have := hc .withoutSeal
      rw [hashValue, hash, if_neg hne] at this
      exact this.symm
  · rintro ⟨hwith, hwithout⟩ i
    cases i with
    | withSeal =>
      by_cases hne : h.m_hash = 0
      · rw [hashValue, hash, if_pos hne, freshHash]
        cases out h _ <;> rfl
      · rw [hashValue, hash, if_neg hne, hwith hne]
        rfl
    | withoutSeal =>
      by_cases hne : h.m_hashWithout = 0
      · rw [hashValue, hash, if_pos hne, freshHash]
        cases out h _ <;> rfl
      · rw [hashValue, hash, if_neg hne, hwithout hne]
        rfl
    | onlySeal =>
      rw [hashValue, hash, freshHash]
      cases out h _ <;> rfl

lemma coherent_of_empty (h0 : h.m_hash = 0) (h1 : h.m_hashWithout = 0) : Coherent h sha3 :=
  coherent_iff.mpr ⟨fun hne => absurd h0 hne, fun hne => absurd h1 hne⟩

lemma coherent_noteDirty : Coherent h.noteDirty sha3 := coherent_of_empty rfl rfl

/-- `hash` keeps an object coherent: the memo it sets is the hash of the fields, which it leaves
as they are. -/
lemma Coherent.hash (hc : Coherent h sha3) {i : IncludeSeal} {x : H256} {h' : BlockHeader}
    (hrun : BlockHeader.hash sha3 h i = .ok (x, h')) : Coherent h' sha3 := by
  obtain ⟨hwith, hwithout⟩ := coherent_iff.mp hc
  cases i with
  | withSeal =>
    rw [BlockHeader.hash] at hrun
    split_ifs at hrun with h0
    · obtain ⟨b, hb, hrun⟩ := RLP.bind_eq_ok_iff.mp hrun
      obtain ⟨-, rfl⟩ := Prod.mk.inj (Except.ok.inj hrun)
      refine coherent_iff.mpr ⟨fun _ => ?_, hwithout⟩
      change (out h .withSeal).map sha3 = _
      rw [hb]
      rfl
    · obtain ⟨-, rfl⟩ := Prod.mk.inj (Except.ok.inj hrun)
      exact hc
  | withoutSeal =>
    rw [BlockHeader.hash] at hrun
    split_ifs at hrun with h0
    · obtain ⟨b, hb, hrun⟩ := RLP.bind_eq_ok_iff.mp hrun
      obtain ⟨-, rfl⟩ := Prod.mk.inj (Except.ok.inj hrun)
      refine coherent_iff.mpr ⟨hwith, fun _ => ?_⟩
      change (out h .withoutSeal).map sha3 = _
      rw [hb]
      rfl
    · obtain ⟨-, rfl⟩ := Prod.mk.inj (Except.ok.inj hrun)
      exact hc
  | onlySeal =>
    rw [BlockHeader.hash] at hrun
    obtain ⟨b, -, hrun⟩ := RLP.bind_eq_ok_iff.mp hrun
    obtain ⟨-, rfl⟩ := Prod.mk.inj (Except.ok.inj hrun)
    exact hc

lemma coherent_populateFromParent (parent : BlockHeader) (h0 : h.m_hash = 0)
    (h1 : h.m_hashWithout = 0) : Coherent (h.populateFromParent parent) sha3 :=
  coherent_of_empty h0 h1

end BlockHeader

/-! ### Runs -/

/-- A call of a setter. -/
inductive HeaderSetter where
  | setParentHash (v : H256)
  | setSha3Uncles (v : H256)
  | setTimestamp (v : ℤ)
  | setAuthor (v : Address)
  | setRoots (t r u s : H256)
  | setGasUsed (v : U256)
  | setNumber (v : ℤ)
  | setGasLimit (v : U256)
  | setExtraData (v : Bytes)
  | setLogBloom (v : BitVec 2048)
  | setDifficulty (v : U256)
  | setSeal (offset : UInt32) (value : Bytes)

/-- The object after a setter. -/
def HeaderSetter.apply (h : BlockHeader) : HeaderSetter → Option BlockHeader
  | setParentHash v => h.setParentHash v
  | setSha3Uncles v => h.setSha3Uncles v
  | setTimestamp v => h.setTimestamp v
  | setAuthor v => h.setAuthor v
  | setRoots t r u s => h.setRoots t r u s
  | setGasUsed v => h.setGasUsed v
  | setNumber v => h.setNumber v
  | setGasLimit v => h.setGasLimit v
  | setExtraData v => h.setExtraData v
  | setLogBloom v => h.setLogBloom v
  | setDifficulty v => h.setDifficulty v
  | setSeal offset value => h.setSeal offset value

/-- Every setter ends with `noteDirty`. -/
lemma HeaderSetter.exists_noteDirty {f : HeaderSetter} {h h' : BlockHeader}
    (hf : f.apply h = some h') : ∃ g : BlockHeader, h' = g.noteDirty := by
  cases f with
  | setSeal offset value =>
    rw [HeaderSetter.apply, BlockHeader.setSeal] at hf
    split_ifs at hf <;> exact ⟨_, (Option.some.inj hf).symm⟩
  | _ => exact ⟨_, (Option.some.inj hf).symm⟩

/-- The objects of a program. -/
abbrev HeaderPool := ℕ → BlockHeader

/-- What is done to the objects. -/
inductive HeaderOp where
  /-- `BlockHeader x;` -/
  | construct (x : ℕ)
  /-- `BlockHeader x(y);` -/
  | copy (x y : ℕ)
  /-- `x = y;` -/
  | assign (x y : ℕ)
  | set (x : ℕ) (f : HeaderSetter)
  | clear (x : ℕ)
  | hash (x : ℕ) (i : IncludeSeal)
  /-- `x.populateFromParent(y);` -/
  | populateFromParent (x y : ℕ)

namespace HeaderPool

variable (sha3 : Bytes → H256)

/-- The objects after a call of `hash`; it may not return. -/
def stepHash (s : HeaderPool) (x : ℕ) (i : IncludeSeal) : Option HeaderPool :=
  match (s x).hash sha3 i with
  | .ok (_, h) => some (update s x h)
  | .error .diverges => none
  | .error _ => some s

/-- The objects after one call. -/
def step (s : HeaderPool) : HeaderOp → Option HeaderPool
  | .construct x => some (update s x {})
  | .copy x y => some (update s x (.copyOf (s y)))
  | .assign x y => if x = y then some s else some (update s x (.copyOf (s y)))
  | .set x f => (f.apply (s x)).map (update s x)
  | .clear x => some (update s x ((s x).clear sha3))
  | .hash x i => s.stepHash sha3 x i
  | .populateFromParent x y => some (update s x ((s x).populateFromParent (s y)))

end HeaderPool

/-- The condition on a call of `populateFromParent`: the hash of the parent has been computed, and
no hash of the object. -/
def HeaderOp.Careful (s : HeaderPool) : HeaderOp → Prop
  | .populateFromParent x y => (s x).m_hash = 0 ∧ (s x).m_hashWithout = 0 ∧ (s y).m_hash ≠ 0
  | _ => True

namespace HeaderPool

variable (sha3 : Bytes → H256)

/-- The states of the runs all of whose steps are careful. -/
inductive Reached : HeaderPool → Prop where
  | start : Reached fun _ => {}
  | step {s s' : HeaderPool} (op : HeaderOp) (hs : Reached s) (hop : op.Careful s)
      (hstep : s.step sha3 op = some s') : Reached s'

variable {sha3} {s s' : HeaderPool}

/-- Changing one object to a coherent one. -/
lemma coherent_update (hs : ∀ x, (s x).Coherent sha3) {y : ℕ} {h : BlockHeader}
    (hh : h.Coherent sha3) (x : ℕ) : (update s y h x).Coherent sha3 := by
  rcases eq_or_ne x y with rfl | hne
  · rwa [update_self]
  · rw [update_of_ne hne]
    exact hs x

/-- One careful step keeps all objects coherent. -/
lemma coherent_step (hs : ∀ x, (s x).Coherent sha3) {op : HeaderOp} (hop : op.Careful s)
    (hstep : s.step sha3 op = some s') (x : ℕ) : (s' x).Coherent sha3 := by
  cases op with
  | construct y =>
    obtain rfl := Option.some.inj hstep
    exact coherent_update hs (BlockHeader.coherent_of_empty rfl rfl) x
  | copy y z =>
    obtain rfl := Option.some.inj hstep
    exact coherent_update hs (hs z) x
  | assign y z =>
    rw [step] at hstep
    split_ifs at hstep
    · obtain rfl := Option.some.inj hstep
      exact hs x
    · obtain rfl := Option.some.inj hstep
      exact coherent_update hs (hs z) x
  | set y f =>
    obtain ⟨h, hf, rfl⟩ := Option.map_eq_some_iff.mp hstep
    obtain ⟨g, rfl⟩ := f.exists_noteDirty hf
    exact coherent_update hs BlockHeader.coherent_noteDirty x
  | clear y =>
    obtain rfl := Option.some.inj hstep
    exact coherent_update hs BlockHeader.coherent_noteDirty x
  | hash y i =>
    rw [step, stepHash] at hstep
    split at hstep
    · next hrun =>
      obtain rfl := Option.some.inj hstep
      exact coherent_update hs ((hs y).hash hrun) x
    · cases hstep
    · obtain rfl := Option.some.inj hstep
      exact hs x
  | populateFromParent y z =>
    obtain rfl := Option.some.inj hstep
    exact coherent_update hs (BlockHeader.coherent_populateFromParent _ hop.1 hop.2.1) x

lemma Reached.coherent (h : Reached sha3 s) (x : ℕ) : (s x).Coherent sha3 := by
  induction h generalizing x with
  | start => exact BlockHeader.coherent_of_empty rfl rfl
  | step op hs hop hstep ih => exact coherent_step ih hop hstep x

/-- After a careful `populateFromParent` the parent hash is the hash of the parent. -/
lemma parentHash_of_careful {x y : ℕ} (hop : (HeaderOp.populateFromParent x y).Careful s)
    (hstep : s.step sha3 (.populateFromParent x y) = some s') :
    (s' y).hashValue sha3 .withSeal = .ok (s' x).m_parentHash := by
  obtain rfl := Option.some.inj hstep
  obtain ⟨hx, -, hy⟩ := hop
  have hne : y ≠ x := by
    rintro rfl
    exact hy hx
  rw [update_self, update_of_ne hne, BlockHeader.hashValue, BlockHeader.hash,
    if_neg hy]
  rfl

/-- **The memos in careful runs.** In every state of a run in which `populateFromParent` is called
with a parent whose hash has been computed, on objects none of whose hashes has been computed,
`hash` returns the hash of what `streamRLP` writes for the current fields of the object, and after
each `populateFromParent` the parent hash is the hash of the parent. -/
theorem memo_of_careful_run (h : Reached sha3 s) :
    (∀ x i, (s x).hashValue sha3 i = (s x).freshHash sha3 i) ∧
      ∀ x y s', (HeaderOp.populateFromParent x y).Careful s →
        s.step sha3 (.populateFromParent x y) = some s' →
        (s' y).hashValue sha3 .withSeal = .ok (s' x).m_parentHash :=
  ⟨fun x => h.coherent x, fun _ _ _ hop hstep => parentHash_of_careful hop hstep⟩

/-- A function that stands for the hash: the sum of the bytes, and one. -/
def byteSum (b : Bytes) : H256 := BitVec.ofNat 256 ((b.map UInt8.toNat).sum + 1)

lemma hash_new : BlockHeader.hash byteSum {} .withSeal = .ok (3376, { m_hash := 3376 }) := by
  decide +kernel

/-- New objects, one of which has computed its hash. -/
def oneHashed (x : ℕ) : HeaderPool := update (fun _ => {}) x { m_hash := 3376 }

lemma step_oneHashed (x : ℕ) :
    step byteSum (fun _ => {}) (.hash x .withSeal) = some (oneHashed x) := by
  rw [step, stepHash, hash_new]
  rfl

/-- A careful run: the hash of a new object is computed, and another one is populated from it. -/
theorem memo_of_careful_run_populated : ∃ s s' : HeaderPool,
    (Reached byteSum s ∧ s.step byteSum (.populateFromParent 0 1) = some s' ∧
      (s' 0).m_number = 1) ∧
    (s' 1).hashValue byteSum .withSeal = .ok (s' 0).m_parentHash ∧
    (s' 0).hashValue byteSum .withSeal = (s' 0).freshHash byteSum .withSeal := by
  have hs : Reached byteSum (oneHashed 1) := .step (.hash 1 .withSeal) .start trivial
    (step_oneHashed 1)
  have hop : (HeaderOp.populateFromParent 0 1).Careful (oneHashed 1) := by
    refine ⟨rfl, rfl, ?_⟩
    decide
  have hs' : Reached byteSum _ := .step (.populateFromParent 0 1) hs hop rfl
  exact ⟨_, _, ⟨hs, rfl, by decide⟩, (memo_of_careful_run hs).2 0 1 _ hop rfl,
    (memo_of_careful_run hs').1 0 .withSeal⟩

/-- The hash of an object is computed, and then the object is populated from a new object: its
hash is still the one of its old fields, and its parent hash is not the hash of the parent. -/
theorem populateFromParent_stale : ∃ s s' : HeaderPool,
    step byteSum (fun _ => {}) (.hash 0 .withSeal) = some s ∧
    step byteSum s (.populateFromParent 0 1) = some s' ∧
    (s' 0).hashValue byteSum .withSeal ≠ (s' 0).freshHash byteSum .withSeal ∧
    (s' 1).hashValue byteSum .withSeal ≠ .ok (s' 0).m_parentHash := by
  refine ⟨oneHashed 0, _, step_oneHashed 0, rfl, ?_, ?_⟩
  · decide +kernel
  · decide +kernel

end HeaderPool

end Tos.Eth
