import Mathlib.Data.List.TakeWhile
import Tos.Storage.TrieInsert

/-!
# The root of a map

`toscore/storage/TrieHash.cpp`: the root of the trie for a whole map, computed from the sorted
list of its entries without a database. On the entries of a canonical tree it writes the encoding
of the tree.

## Main results

* `Trie.hash256rlp_spec`: the node for the words of a canonical tree is its encoding.
* `Trie.rlp256_spec`: the root node of a map.

## Implementation notes

A range of iterators is the list of the entries in it. The recursion takes a bound on its depth,
as that of `GenericTrieDB` does. Reading behind the end of a key, which is undefined, gives zero.
-/

namespace Tos

open Sdag (H256)
open List

open Sdag.Wire (hashBytes)

/-- `BytesMap`. -/
abbrev BytesMap := Std.TreeMap Bytes Bytes

/-- `HexMap`, from vectors of nibbles to values. -/
abbrev HexMap := Std.TreeMap Bytes Bytes

/-- `asNibbles`. -/
def asNibbles : Bytes → Bytes
  | [] => []
  | i :: s => i / 16 :: i % 16 :: asNibbles s

/-- A call of the RLP library. -/
def ofRlp {α : Type} (x : Except RlpError α) : Except TrieError α := x.mapError .rlp

/-- The loop that counts what two keys share from the nibble `shared` on, at most `n` more. -/
def sharedFrom (first second : Bytes) : ℕ → ℕ → ℕ
  | 0, shared => shared
  | n + 1, shared =>
    if first.getD shared 0 = second.getD shared 0 then sharedFrom first second n (shared + 1)
    else shared

/-- The loop that finds what all keys share with the first one. -/
def sharedPreLoop (first : Bytes) (preLen : ℕ) : List (Bytes × Bytes) → ℕ → ℕ
  | [], sharedPre => sharedPre
  | i :: is, sharedPre =>
    if sharedPre = 0 then sharedPre
    else
      let x := min sharedPre (min (u32 first.length) (u32 i.1.length))
      let shared := sharedFrom first i.1 (x - preLen) preLen
      sharedPreLoop first preLen is (min shared sharedPre)

section Recursion

variable (sha3 : Bytes → H256)
  (node : List (Bytes × Bytes) → ℕ → RLPStream → Except TrieError RLPStream)

/-- `hash256aux`, with `hash256rlp` as an argument. -/
def hash256aux (range : List (Bytes × Bytes)) (preLen : ℕ) (s : RLPStream) :
    Except TrieError RLPStream := do
  let r ← node range preLen {}
  let out ← ofRlp r.out
  if out.length < 32 then ofRlp (s.appendRaw out 1)
  else ofRlp (s.append (hashBytes (sha3 out)))

/-- The loop over the places of a branch, with the entries `b` that are left. -/
def placesLoop (preLen : ℕ) :
    List ℕ → List (Bytes × Bytes) → RLPStream → Except TrieError RLPStream
  | [], _, s => .ok s
  | i :: is, b, s => do
    let range := b.takeWhile fun e => (e.1.getD preLen 0).toNat = i
    let n := b.dropWhile fun e => (e.1.getD preLen 0).toNat = i
    let s ← if range = [] then ofRlp (s.append [])
      else hash256aux sha3 node range (u32 (preLen + 1)) s
    placesLoop preLen is n s

end Recursion

/-- `hash256rlp`. -/
def hash256rlp (sha3 : Bytes → H256) :
    ℕ → List (Bytes × Bytes) → ℕ → RLPStream → Except TrieError RLPStream
  | 0, _, _, _ => .error .diverges
  | _ + 1, [], _, s => ofRlp (s.append [])
  | _ + 1, [e], preLen, s => do
    let s ← ofRlp (s.appendList 2)
    let s ← ofRlp (s.append (hexPrefixEncodeVector e.1 true (i32 preLen)))
    ofRlp (s.append e.2)
  | fuel + 1, e :: e' :: rest, preLen, s => do
    let sharedPre := sharedPreLoop e.1 preLen (e' :: rest) (2 ^ 32 - 1)
    if sharedPre > preLen then
      let s ← ofRlp (s.appendList 2)
      let s ← ofRlp (s.append (hexPrefixEncodeVector e.1 false (i32 preLen) (i32 sharedPre)))
      hash256aux sha3 (hash256rlp sha3 fuel) (e :: e' :: rest) sharedPre s
    else
      let s ← ofRlp (s.appendList 17)
      let b := if preLen = e.1.length then e' :: rest else e :: e' :: rest
      let s ← placesLoop sha3 (hash256rlp sha3 fuel) preLen (List.range 16) b s
      if preLen = e.1.length then ofRlp (s.append e.2) else ofRlp (s.append [])

/-- The map from nibbles to values that `rlp256` builds. -/
def hexMap (s : BytesMap) : HexMap :=
  s.toList.reverse.foldl (fun m i => m.insert (asNibbles i.1) i.2) ∅

/-- `rlp256`. -/
def rlp256 (sha3 : Bytes → H256) (fuel : ℕ) (s : BytesMap) : Except TrieError Bytes := do
  if s.isEmpty then return RLPNull
  else ofRlp (← hash256rlp sha3 fuel (hexMap s).toList 0 {}).out

/-- `hash256`. -/
def hash256 (sha3 : Bytes → H256) (fuel : ℕ) (s : BytesMap) : Except TrieError H256 := do
  return sha3 (← rlp256 sha3 fuel s)

namespace Trie

open Rlp (Item encode encodeList)

open Patricia (shared Apart)

open Patricia.Node hiding insert delete lookup leaf

open HexPrefix (nibbles high low)

open RLPStream (appendList appendList_upTo appends_append out_upTo upTo)

/-! ### Keys in order -/

lemma asNibbles_eq (s : Bytes) : asNibbles s = hexes (nibbles s) := by
  induction s with
  | nil => rfl
  | cons b s ih =>
    have hb := b.toNat_lt
    have hhigh : b / 16 = UInt8.ofNat (high b) := by
      apply UInt8.toNat_inj.mp
      simp only [UInt8.toNat_div, high, UInt8.toNat_ofNat', Fin.ofNat]
      change b.toNat / 16 = _
      omega
    have hlow : b % 16 = UInt8.ofNat (low b) := by
      apply UInt8.toNat_inj.mp
      simp only [UInt8.toNat_mod, low, UInt8.toNat_ofNat', Fin.ofNat]
      change b.toNat % 16 = _
      omega
    rw [asNibbles, ih, hhigh, hlow]
    rfl

/-- Entries in ascending order of their keys. -/
abbrev Ascending (L : List (Bytes × Bytes)) : Prop :=
  L.Pairwise fun a b => compare a.1 b.1 = .lt

lemma compare_append (p x y : Bytes) : compare (p ++ x) (p ++ y) = compare x y := by
  induction p with
  | nil => rfl
  | cons a p ih =>
    rw [cons_append, cons_append, List.compare_cons_cons, Std.ReflOrd.compare_self,
      ih]
    rfl

/-- Of two keys in order, the first one does not go on behind the second. -/
lemma not_compare_append_lt (p x : Bytes) : compare (p ++ x) p ≠ .lt := by
  have h := compare_append p x []
  rw [append_nil] at h
  rw [h]
  cases x with
  | nil => simp
  | cons a x => simp [List.compare_cons_nil]

lemma compare_ofNat_eq_lt {a b : Fin 16} :
    compare (UInt8.ofNat a) (UInt8.ofNat b) = .lt ↔ a < b := by
  decide +revert

lemma compare_ofNat_eq_eq {a b : Fin 16} :
    compare (UInt8.ofNat a) (UInt8.ofNat b) = .eq ↔ a = b := by
  decide +revert

/-- Of two keys in order, the next nibbles are in order. -/
lemma le_of_compare_lt {p x y : List (Fin 16)} {a b : Fin 16}
    (h : compare (hexes (p ++ a :: x)) (hexes (p ++ b :: y)) = .lt) : a ≤ b := by
  rw [hexes_append, hexes_append, compare_append] at h
  change compare (UInt8.ofNat a :: hexes x) (UInt8.ofNat b :: hexes y) = .lt at h
  rw [List.compare_cons_cons, Ordering.then_eq_lt, compare_ofNat_eq_lt, compare_ofNat_eq_eq] at h
  rcases h with h | ⟨h, -⟩
  · exact h.le
  · exact h.le

/-- A list in order that has one entry. -/
lemma Ascending.eq_singleton {L : List (Bytes × Bytes)} (h : Ascending L) {e : Bytes × Bytes}
    (hmem : ∀ e', e' ∈ L ↔ e' = e) : L = [e] := by
  obtain ⟨e', rest, rfl⟩ := exists_cons_of_ne_nil (ne_nil_of_mem ((hmem e).mpr rfl))
  have hrest : rest = [] := by
    rw [eq_nil_iff_forall_not_mem]
    intro e'' he''
    have hlt := rel_of_pairwise_cons h he''
    rw [(hmem e').mp mem_cons_self, (hmem e'').mp (mem_cons_of_mem e' he'')] at hlt
    simp at hlt
  rw [hrest, (hmem e').mp mem_cons_self]

/-! ### The words of a tree -/

/-- The entries of a list are the words of a tree behind `p`, in order. -/
structure Lists (p : List (Fin 16)) (m : Node) (L : List (Bytes × Bytes)) : Prop where
  ascending : Ascending L
  mem : ∀ e, e ∈ L ↔ ∃ x v, m.lookup x = some v ∧ e = (hexes (p ++ x), v)

namespace Lists

variable {p k : List (Fin 16)} {m : Node} {L : List (Bytes × Bytes)}

lemma eq_nil (h : Lists p .nil L) : L = [] := by
  rw [eq_nil_iff_forall_not_mem]
  intro e he
  obtain ⟨x, v, hx, -⟩ := (h.mem e).mp he
  simp at hx

lemma eq_leaf {v : Bytes} (h : Lists p (.leaf k v) L) : L = [(hexes (p ++ k), v)] := by
  refine h.ascending.eq_singleton fun e => (h.mem e).trans ⟨?_, ?_⟩
  · rintro ⟨x, w, hx, rfl⟩
    rw [lookup_leaf] at hx
    split_ifs at hx with hxk
    rw [hxk, Option.some.inj hx]
  · rintro rfl
    exact ⟨k, v, by rw [lookup_leaf, if_pos rfl], rfl⟩

lemma of_prepend (h : Lists p (prepend k m) L) : Lists (p ++ k) m L := by
  refine ⟨h.ascending, fun e => (h.mem e).trans ⟨?_, ?_⟩⟩
  · rintro ⟨x, v, hx, rfl⟩
    rw [lookup_prepend, Option.bind_eq_some_iff] at hx
    obtain ⟨y, hy, hv⟩ := hx
    obtain rfl := Patricia.dropPrefix_eq_some.mp hy
    exact ⟨y, v, hv, by rw [append_assoc]⟩
  · rintro ⟨y, v, hv, rfl⟩
    exact ⟨k ++ y, v, by rwa [lookup_prepend_append], by rw [append_assoc]⟩

/-- A list without entries is that of an empty tree. -/
lemma tree_eq_nil (h : Lists p m []) (hc : Canon m) : m = .nil := by
  by_contra hne
  obtain ⟨x, hx⟩ := hc.exists_lookup hne
  obtain ⟨v, hv⟩ := Option.ne_none_iff_exists'.mp hx
  exact absurd ((h.mem _).mpr ⟨x, v, hv, rfl⟩) (not_mem_nil)

end Lists

/-! ### What the keys share -/

lemma sharedFrom_eq (p x y : List (Fin 16)) {n : ℕ} (hx : n ≤ x.length) (hy : n ≤ y.length) :
    sharedFrom (hexes (p ++ x)) (hexes (p ++ y)) n p.length = p.length + min n (shared x y) := by
  induction n generalizing p x y with
  | zero => simp [sharedFrom]
  | succ n ih =>
    obtain ⟨a, x, rfl⟩ := exists_cons_of_length_pos (show 0 < x.length by omega)
    obtain ⟨b, y, rfl⟩ := exists_cons_of_length_pos (show 0 < y.length by omega)
    have hget : ∀ (a : Fin 16) (x : List (Fin 16)),
        (hexes (p ++ a :: x)).getD p.length 0 = UInt8.ofNat a :=
      fun a x => getD_hexes (drop_left' rfl)
    have hab : UInt8.ofNat a = UInt8.ofNat b ↔ a = b := by
      clear * -
      decide +revert
    simp only [sharedFrom, hget, hab, shared]
    split_ifs with h
    · subst h
      rw [length_cons] at hx hy
      have hnext := ih (p ++ [a]) x y (by omega) (by omega)
      rw [append_assoc, append_assoc, length_append] at hnext
      change sharedFrom _ _ n (p.length + 1) = _ at hnext
      rw [singleton_append, singleton_append] at hnext
      rw [hnext]
      change p.length + 1 + min n (shared x y) = p.length + min (n + 1) (shared x y + 1)
      omega
    · simp

/-- The loop ends with the least number that a key shares with the first one. -/
lemma sharedPreLoop_spec {p x : List (Fin 16)} (hx : (p ++ x).length < 2 ^ 31) {r : ℕ}
    (hr : p.length ≤ r) {L : List (Bytes × Bytes)}
    (hL : ∀ e ∈ L, ∃ y, e.1 = hexes (p ++ y) ∧ (p ++ y).length < 2 ^ 31) :
    ∃ r', sharedPreLoop (hexes (p ++ x)) p.length L r = r' ∧ p.length ≤ r' ∧ r' ≤ r ∧
      (∀ y, hexes (p ++ y) ∈ L.map Prod.fst → r' ≤ p.length + shared x y) ∧
      (r' = r ∨ ∃ y, hexes (p ++ y) ∈ L.map Prod.fst ∧ r' = p.length + shared x y) := by
  induction L generalizing r with
  | nil => exact ⟨r, rfl, hr, le_rfl, by simp, .inl rfl⟩
  | cons e L ih =>
    obtain ⟨y, hy, hylen⟩ := hL e mem_cons_self
    have hle := Patricia.shared_le_length x y
    -- One round takes the minimum with what the next key shares.
    have hround : sharedPreLoop (hexes (p ++ x)) p.length (e :: L) r =
        if r = 0 then r
        else sharedPreLoop (hexes (p ++ x)) p.length L (min r (p.length + shared x y)) := by
      rw [length_append] at hx hylen
      have hu : ∀ w : List (Fin 16), (p ++ w).length < 2 ^ 31 →
          u32 (hexes (p ++ w)).length = p.length + w.length := by
        intro w hw
        rw [length_hexes, length_append] at *
        unfold u32
        omega
      simp only [sharedPreLoop, hy, hu x (by rwa [length_append]),
        hu y (by rwa [length_append])]
      rw [sharedFrom_eq p x y (by omega) (by omega)]
      congr 2
      omega
    rw [hround]
    have hsame : ∀ z, hexes (p ++ z) = e.1 → z = y := fun z hz =>
      append_cancel_left (hexes_injective (hz.trans hy))
    split_ifs with hzero
    · exact ⟨r, rfl, hr, le_rfl, fun z _ => by omega, .inl rfl⟩
    · obtain ⟨r', heq, hge, hmin, hall, hone⟩ := ih (r := min r (p.length + shared x y))
        (by omega) fun e' he' => hL e' (mem_cons_of_mem e he')
      refine ⟨r', heq, hge, by omega, fun z hz => ?_, ?_⟩
      · rw [map_cons, mem_cons] at hz
        rcases hz with hz | hz
        · rw [hsame z hz]
          omega
        · exact hall z hz
      · rcases hone with h | ⟨z, hz, hr'⟩
        · rcases le_total r (p.length + shared x y) with hcase | hcase
          · exact .inl (by omega)
          · exact .inr ⟨y, by rw [map_cons, ← hy]; exact mem_cons_self, by omega⟩
        · exact .inr ⟨z, by rw [map_cons]; exact mem_cons_of_mem _ hz, hr'⟩

namespace Lists

variable {p k : List (Fin 16)} {c : Fin 16 → Node} {u : Option Bytes} {e : Bytes × Bytes}
  {L : List (Bytes × Bytes)}

/-- What all words share is what is in front of the first branch, and there are several words. -/
lemma sharedPre_eq (h : Lists p (prepend k (.branch c u)) (e :: L)) (hc : Canon (.branch c u))
    (hlen : ∀ e' ∈ e :: L, e'.1.length < 2 ^ 31) :
    L ≠ [] ∧ sharedPreLoop e.1 p.length L (2 ^ 32 - 1) = p.length + k.length := by
  have hbranch := h.of_prepend
  have hword : ∀ e' ∈ e :: L, ∃ y, (Patricia.Node.branch c u).lookup y ≠ none ∧
      e'.1 = hexes (p ++ (k ++ y)) := by
    intro e' he'
    obtain ⟨y, v, hy, rfl⟩ := (hbranch.mem e').mp he'
    exact ⟨y, by rw [hy]; simp, by rw [← append_assoc]⟩
  obtain ⟨x, -, hx⟩ := hword e mem_cons_self
  -- some word leaves the first one right behind the branch
  obtain ⟨z, hz, hzx, hapart⟩ := hc.exists_apart x
  obtain ⟨v, hv⟩ := Option.ne_none_iff_exists'.mp hz
  have hzL : (hexes (p ++ k ++ z), v) ∈ L := by
    refine (mem_cons.mp ((hbranch.mem _).mpr ⟨z, v, hv, rfl⟩)).resolve_left fun he => hzx ?_
    have hkey : hexes (p ++ k ++ z) = hexes (p ++ (k ++ x)) := (congrArg Prod.fst he).trans hx
    rw [append_assoc] at hkey
    exact append_cancel_left (append_cancel_left (hexes_injective hkey))
  have hzmem : hexes (p ++ (k ++ z)) ∈ L.map Prod.fst := by
    rw [← append_assoc]
    exact mem_map_of_mem hzL
  have hfirst := hlen e mem_cons_self
  rw [hx, length_hexes] at hfirst
  have hrest : ∀ e' ∈ L, ∃ y, e'.1 = hexes (p ++ y) ∧ (p ++ y).length < 2 ^ 31 := by
    intro e' he'
    obtain ⟨y, -, hy⟩ := hword e' (mem_cons_of_mem e he')
    have := hlen e' (mem_cons_of_mem e he')
    rw [hy, length_hexes] at this
    exact ⟨k ++ y, hy, this⟩
  obtain ⟨r, hr, -, -, hall, hone⟩ := sharedPreLoop_spec hfirst (r := 2 ^ 32 - 1)
    (by rw [length_append] at hfirst; omega) hrest
  refine ⟨ne_nil_of_mem hzL, ?_⟩
  rw [hx, hr]
  have hshared : ∀ y, shared (k ++ x) (k ++ y) = k.length + shared x y :=
    fun y => Patricia.shared_append k x y
  have hle := hall _ hzmem
  rw [hshared, Patricia.shared_eq_zero_iff.mpr hapart, Nat.add_zero] at hle
  rcases hone with rfl | ⟨y, hy, rfl⟩
  · rw [length_append, length_append] at hfirst
    omega
  · obtain ⟨e', he', hey⟩ := mem_map.mp hy
    obtain ⟨w, -, hw⟩ := hword e' (mem_cons_of_mem e he')
    obtain rfl : k ++ w = y := append_cancel_left (hexes_injective (hw.symm.trans hey))
    rw [hshared] at hle ⊢
    omega

/-- The word that ends at a branch comes first. -/
lemma first_of_branch (h : Lists p (.branch c u) (e :: L)) :
    (p.length = e.1.length ∧ u = some e.2) ∨ (p.length ≠ e.1.length ∧ u = none) := by
  obtain ⟨x, v, hx, rfl⟩ := (h.mem e).mp mem_cons_self
  cases x with
  | nil =>
    rw [append_nil, length_hexes]
    exact .inl ⟨rfl, hx⟩
  | cons a x =>
    refine .inr ⟨by rw [length_hexes, length_append, length_cons]; omega, ?_⟩
    by_contra hu
    obtain ⟨w, rfl⟩ := Option.ne_none_iff_exists'.mp hu
    have hmem : (hexes p, w) ∈ (hexes (p ++ a :: x), v) :: L :=
      (h.mem _).mpr ⟨[], w, rfl, by rw [append_nil]⟩
    rcases mem_cons.mp hmem with heq | hL
    · have := congrArg List.length (congrArg Prod.fst heq)
      rw [length_hexes, length_hexes, length_append, length_cons] at this
      omega
    · have hlt := rel_of_pairwise_cons h.ascending hL
      rw [hexes_append] at hlt
      exact not_compare_append_lt _ _ hlt

end Lists

/-! ### The places of a branch -/

/-- The entries are the words behind the places of a branch from `i` on, in order. -/
structure ListsFrom (i : ℕ) (p : List (Fin 16)) (c : Fin 16 → Node) (L : List (Bytes × Bytes)) :
    Prop where
  ascending : Ascending L
  mem : ∀ e, e ∈ L ↔ ∃ (a : Fin 16) (x : List (Fin 16)) (v : Bytes),
    i ≤ a ∧ (c a).lookup x = some v ∧ e = (hexes (p ++ a :: x), v)

variable {p : List (Fin 16)} {c : Fin 16 → Node} {u : Option Bytes}

/-- The loop starts behind the word that ends at the branch. -/
lemma Lists.listsFrom {e : Bytes × Bytes} {L : List (Bytes × Bytes)}
    (h : Lists p (.branch c u) (e :: L)) :
    ListsFrom 0 p c (if p.length = e.1.length then L else e :: L) := by
  have hword : ∀ (x : List (Fin 16)) (v : Bytes), p.length = (hexes (p ++ x), v).1.length ↔
      x = [] := by
    intro x v
    rw [length_hexes, length_append]
    simp
  have hback : ∀ (a : Fin 16) (x : List (Fin 16)) (v : Bytes), (c a).lookup x = some v →
      (hexes (p ++ a :: x), v) ∈ e :: L := fun a x v hv => (h.mem _).mpr ⟨a :: x, v, hv, rfl⟩
  split_ifs with hlen
  · refine ⟨h.ascending.of_cons, fun e' => ⟨fun he' => ?_, ?_⟩⟩
    · obtain ⟨x, v, hx, rfl⟩ := (h.mem e').mp (mem_cons_of_mem e he')
      obtain ⟨y, w, hy, rfl⟩ := (h.mem e).mp mem_cons_self
      obtain rfl := (hword y w).mp hlen
      cases x with
      | nil =>
        have hlt := rel_of_pairwise_cons h.ascending he'
        simp at hlt
      | cons a x => exact ⟨a, x, v, Nat.zero_le _, hx, rfl⟩
    · rintro ⟨a, x, v, -, hv, rfl⟩
      refine (mem_cons.mp (hback a x v hv)).resolve_left ?_
      rintro rfl
      exact absurd ((hword (a :: x) v).mp hlen) (by simp)
  · refine ⟨h.ascending, fun e' => ⟨fun he' => ?_, ?_⟩⟩
    · obtain ⟨x, v, hx, rfl⟩ := (h.mem e').mp he'
      cases x with
      | nil =>
        -- the word that ends here would be the first one
        obtain ⟨hne, hu⟩ := h.first_of_branch.resolve_left fun hl => hlen hl.1
        rw [lookup_branch_nil, hu] at hx
        simp at hx
      | cons a x => exact ⟨a, x, v, Nat.zero_le _, hx, rfl⟩
    · rintro ⟨a, x, v, -, hv, rfl⟩
      exact hback a x v hv

lemma toNat_getD_hexes (a : Fin 16) (x : List (Fin 16)) :
    ((hexes (p ++ a :: x)).getD p.length 0).toNat = a := by
  have hnat : ∀ a : Fin 16, (UInt8.ofNat a).toNat = a := by decide
  rw [getD_hexes (drop_left' rfl), hnat]

/-- One round of the loop takes the entries of one place. -/
lemma ListsFrom.split {i : Fin 16} {b : List (Bytes × Bytes)} (h : ListsFrom i p c b) :
    Lists (p ++ [i]) (c i) (b.takeWhile fun e => (e.1.getD p.length 0).toNat = i) ∧
      ListsFrom (i + 1) p c (b.dropWhile fun e => (e.1.getD p.length 0).toNat = i) := by
  set f : Bytes × Bytes → Bool := fun e => (e.1.getD p.length 0).toNat = i with hf
  have hfa : ∀ (a : Fin 16) (x : List (Fin 16)) (v : Bytes),
      f (hexes (p ++ a :: x), v) = true ↔ a = i := by
    intro a x v
    rw [hf, decide_eq_true_iff, toNat_getD_hexes, Fin.val_inj]
  have happend := takeWhile_append_dropWhile (p := f) (l := b)
  have hsub : ∀ e, e ∈ b ↔ e ∈ b.takeWhile f ∨ e ∈ b.dropWhile f := by
    intro e
    conv_lhs => rw [← happend]
    exact mem_append
  have hasc := h.ascending
  rw [← happend, Ascending, pairwise_append] at hasc
  obtain ⟨hrange, hrest, -⟩ := hasc
  -- The entries that are left are behind the first of them, which is behind the place.
  have hlater : ∀ (a : Fin 16) (x : List (Fin 16)) (v : Bytes), i ≤ a →
      (hexes (p ++ a :: x), v) ∈ b.dropWhile f → i < a := by
    intro a x v hia hmem
    obtain ⟨e, rest, hcons⟩ := exists_cons_of_ne_nil (ne_nil_of_mem hmem)
    have hhead : ¬ f e = true := by
      have := head_dropWhile_not f (l := b) (by rw [hcons]; simp)
      simp only [hcons, head_cons] at this
      simp [this]
    obtain ⟨a', x', v', hia', -, rfl⟩ := (h.mem e).mp
      ((hsub e).mpr (.inr (by rw [hcons]; exact mem_cons_self)))
    rw [hfa] at hhead
    have hlt : i < a' := lt_of_le_of_ne hia' fun e => hhead e.symm
    rw [hcons] at hmem hrest
    rcases mem_cons.mp hmem with heq | hmem
    · have hkey := append_cancel_left (hexes_injective (congrArg Prod.fst heq))
      rw [(List.cons.inj hkey).1]
      exact hlt
    · exact hlt.trans_le (le_of_compare_lt (rel_of_pairwise_cons hrest hmem))
  refine ⟨⟨hrange, fun e => ⟨fun he => ?_, ?_⟩⟩, ⟨hrest, fun e => ⟨fun he => ?_, ?_⟩⟩⟩
  · obtain ⟨a, x, v, -, hv, rfl⟩ := (h.mem e).mp ((hsub e).mpr (.inl he))
    obtain rfl := (hfa a x v).mp (mem_takeWhile_imp he)
    exact ⟨x, v, hv, by rw [append_assoc]; rfl⟩
  · rintro ⟨x, v, hv, rfl⟩
    rw [append_assoc, singleton_append]
    refine ((hsub _).mp ((h.mem _).mpr ⟨i, x, v, le_rfl, hv, rfl⟩)).resolve_right fun hmem => ?_
    exact lt_irrefl i (hlater i x v le_rfl hmem)
  · obtain ⟨a, x, v, hia, hv, rfl⟩ := (h.mem e).mp ((hsub e).mpr (.inr he))
    exact ⟨a, x, v, hlater a x v hia he, hv, rfl⟩
  · rintro ⟨a, x, v, hia, hv, rfl⟩
    refine ((hsub _).mp ((h.mem _).mpr ⟨a, x, v, by omega, hv, rfl⟩)).resolve_left fun hmem => ?_
    have := (hfa a x v).mp (mem_takeWhile_imp hmem)
    omega

/-! ### The encoding -/

@[simp] lemma ofRlp_ok {α : Type} (a : α) : ofRlp (.ok a) = .ok a := rfl

variable {sha3 : Bytes → H256}

/-- The node of a tree is written. -/
def Writes (sha3 : Bytes → H256) (m : Node) (r : Except TrieError RLPStream) : Prop :=
  ∃ s, r = .ok s ∧ s.out = .ok (enc sha3 m)

section Append

variable {xs ys : List Item} {i : ℕ} (hsize : (encode (.list xs)).length ≤ RLP.maxLength)
include hsize

lemma append_upTo {d : Bytes} (hx : xs.drop i = .data d :: ys) (hd : d.length < 2 ^ 64) :
    ofRlp ((upTo xs i).append d) = .ok (upTo xs (i + 1)) := by
  rw [(appends_append hd).upTo hx (length_encodeList_lt hsize)]
  rfl

/-- A child is written. -/
lemma hash256aux_upTo {node : List (Bytes × Bytes) → ℕ → RLPStream → Except TrieError RLPStream}
    {range : List (Bytes × Bytes)} {preLen : ℕ} {m : Node}
    (h : Writes sha3 m (node range preLen {})) (hx : xs.drop i = ref sha3 (item sha3 m) :: ys) :
    hash256aux sha3 node range preLen (upTo xs i) = .ok (upTo xs (i + 1)) := by
  obtain ⟨s, hs, hout⟩ := h
  rw [hash256aux, hs, ok_bind, hout, ofRlp_ok, ok_bind]
  split_ifs with hlt
  · rw [ref_of_lt hlt] at hx
    rw [enc, (RLPStream.appends_appendRaw _).upTo hx (length_encodeList_lt hsize)]
    rfl
  · rw [ref_of_ge hlt] at hx
    exact append_upTo hsize hx (by rw [Sdag.Wire.length_hashBytes]; norm_num)

end Append

/-- The loop writes the places of a branch. -/
lemma placesLoop_upTo {node : List (Bytes × Bytes) → ℕ → RLPStream → Except TrieError RLPStream}
    (hfits : Fits (.branch c u)) (hc : ∀ a, Canon (c a)) (hp : p.length < 2 ^ 31)
    (hnode : ∀ a L, c a ≠ .nil → Lists (p ++ [a]) (c a) L →
      Writes sha3 (c a) (node L (p.length + 1) {})) {n i : ℕ} (hn : i + n = 16)
    {b : List (Bytes × Bytes)} (hb : ListsFrom i p c b) :
    placesLoop sha3 node p.length (List.range' i n) b (upTo (places (refs sha3 c) u) i) =
      .ok (upTo (places (refs sha3 c) u) 16) := by
  have hsize := hfits.length_branch_le sha3
  induction n generalizing i b with
  | zero =>
    rw [Nat.add_zero] at hn
    rw [hn]
    rfl
  | succ n ih =>
    have hi : i < 16 := by omega
    obtain ⟨ys, hys⟩ := drop_places (refs sha3 c) u ⟨i, hi⟩
    obtain ⟨hrange, hrest⟩ := ListsFrom.split (i := ⟨i, hi⟩) hb
    have hnext : u32 ((p.length : ℤ) + 1) = p.length + 1 := by
      unfold u32
      omega
    rw [List.range'_succ, placesLoop]
    dsimp only
    split_ifs with hnil
    · rw [hnil] at hrange
      rw [refs, hrange.tree_eq_nil (hc _), item, ref_nil] at hys
      rw [append_upTo hsize hys (by norm_num), ok_bind]
      exact ih (by omega) hrest
    · have hne : c ⟨i, hi⟩ ≠ .nil := by
        intro e
        rw [e] at hrange
        exact hnil hrange.eq_nil
      rw [hnext, hash256aux_upTo hsize (hnode _ _ hne hrange) hys, ok_bind]
      exact ih (by omega) hrest

lemma i32_natCast {n : ℕ} (h : n < 2 ^ 31) : i32 n = n := by
  unfold i32
  rw [Int.bmod_eq_of_le] <;> omega

lemma Lists.length_lt {m : Node} {L : List (Bytes × Bytes)} (h : Lists p m L)
    (hlen : ∀ x, m.lookup x ≠ none → p.length + x.length < 2 ^ 31 - 1) :
    ∀ e ∈ L, e.1.length < 2 ^ 31 := by
  intro e he
  obtain ⟨x, v, hx, rfl⟩ := (h.mem e).mp he
  have := hlen x (by rw [hx]; simp)
  rw [length_hexes, length_append]
  omega

lemma Lists.exists_cons {m : Node} {L : List (Bytes × Bytes)} (h : Lists p m L) (hc : Canon m)
    (hne : m ≠ .nil) : ∃ e L', L = e :: L' := by
  refine exists_cons_of_ne_nil fun hL => hne ?_
  subst hL
  exact h.tree_eq_nil hc

/-- **The node of a map.** On the words of a canonical tree in order, `hash256rlp` writes the
encoding of the tree.

**Proof sketch.** Induction on the tree. What all words share is what is in front of the first
branch. The words behind one place of a branch are next to each other. -/
theorem hash256rlp_spec {m : Node} (hc : Canon m) (hs : Small m) {p : List (Fin 16)}
    {L : List (Bytes × Bytes)} {fuel : ℕ} (h : Lists p m L)
    (hlen : ∀ x, m.lookup x ≠ none → p.length + x.length < 2 ^ 31 - 1) (hpos : 0 < fuel)
    (hfuel : ∀ x, m.lookup x ≠ none → x.length < fuel) :
    Writes sha3 m (hash256rlp sha3 fuel L p.length {}) := by
  induction hc generalizing p L fuel with
  | nil =>
    obtain _ | fuel := fuel
    · omega
    rw [h.eq_nil, hash256rlp]
    refine ⟨_, by rw [(appends_append (d := []) (by norm_num)).run_empty]; rfl, ?_⟩
    rfl
  | leaf k v =>
    obtain _ | fuel := fuel
    · omega
    have hfits := hs.fits (.leaf k v)
    have hk : p.length + k.length < 2 ^ 31 - 1 := hlen k (by simp [lookup_leaf])
    have hsize := hfits.length_leaf_le
    have hkey : hexPrefixEncodeVector (hexes (p ++ k)) true (i32 p.length) =
        HexPrefix.encode true k := by
      rw [i32_natCast (by omega), hexPrefixEncodeVector_drop (by simp)
        (by rw [length_append]; omega), drop_left' rfl]
    have hkeylen : (HexPrefix.encode true k).length ≤ 2 ^ 30 := length_hexPrefix_le hfits.1
    have hnew : ofRlp (appendList {} 2) =
        .ok (upTo [.data (HexPrefix.encode true k), .data v] 0) := by
      rw [show 2 = [Item.data (HexPrefix.encode true k), .data v].length from rfl,
        appendList_upTo (by simp)]
      rfl
    rw [h.eq_leaf, hash256rlp, hnew, ok_bind, hkey, append_upTo hsize rfl (by omega), ok_bind,
      append_upTo hsize rfl (hfits.2.1.trans (by norm_num))]
    exact ⟨_, rfl, out_upTo _⟩
  | @ext k c u hk hn ih =>
    obtain _ | fuel := fuel
    · omega
    have hfits := hs.fits (.ext hk hn)
    have hpos' := length_pos_iff.mpr hk
    obtain ⟨e, L, rfl⟩ := h.exists_cons (.ext hk hn) (by simp)
    have h' : Lists p (prepend k (.branch c u)) (e :: L) := by
      rwa [prepend_branch hk]
    obtain ⟨hL, hshared⟩ := h'.sharedPre_eq hn (h.length_lt hlen)
    obtain ⟨e', L, rfl⟩ := exists_cons_of_ne_nil hL
    obtain ⟨x, v, hx, rfl⟩ := (h'.of_prepend.mem e).mp mem_cons_self
    have hlookup := lookup_ext_append k (Patricia.Node.branch c u)
    have hxne : (Patricia.Node.ext k (.branch c u)).lookup (k ++ x) ≠ none := by
      rw [hlookup, hx]
      simp
    have hword := hlen (k ++ x) hxne
    have hdepth := hfuel (k ++ x) hxne
    rw [length_append] at hword hdepth
    have hsize := hfits.length_ext_le sha3
    have hkeylen : (HexPrefix.encode false k).length ≤ 2 ^ 30 := length_hexPrefix_le hfits.1
    have hkey : hexPrefixEncodeVector (hexes (p ++ k ++ x)) false (i32 p.length)
        (i32 (p.length + k.length : ℕ)) = HexPrefix.encode false k := by
      rw [i32_natCast (by omega), i32_natCast (by omega), hexPrefixEncodeVector_eq (by omega)
        (by simp) (by simp only [length_append]; omega), append_assoc,
        drop_left' rfl, Nat.add_sub_cancel_left, take_left' rfl]
    have hnew : ofRlp (appendList {} 2) = .ok (upTo [.data (HexPrefix.encode false k),
        ref sha3 (item sha3 (.branch c u))] 0) := by
      rw [show 2 = [Item.data (HexPrefix.encode false k),
        ref sha3 (item sha3 (.branch c u))].length from rfl, appendList_upTo (by simp)]
      rfl
    have hchild : Writes sha3 (.branch c u) (hash256rlp sha3 fuel
        ((hexes (p ++ k ++ x), v) :: e' :: L) (p ++ k).length {}) := by
      refine ih hs.ext h'.of_prepend (fun y hy => ?_) (by omega) fun y hy => ?_
      · have := hlen (k ++ y) (by rwa [hlookup])
        rw [length_append] at this ⊢
        omega
      · have := hfuel (k ++ y) (by rwa [hlookup])
        rw [length_append] at this
        omega
    rw [length_append] at hchild
    rw [hash256rlp]
    simp only [hshared]
    rw [if_pos (by omega), hnew, ok_bind, hkey, append_upTo hsize rfl (by omega), ok_bind,
      hash256aux_upTo hsize hchild rfl]
    exact ⟨_, rfl, out_upTo _⟩
  | @branch c u hc hu ih =>
    obtain _ | fuel := fuel
    · omega
    have hbranch : Canon (.branch c u) := .branch hc hu
    have hfits := hs.fits hbranch
    have hsize := hfits.length_branch_le sha3
    obtain ⟨e, L, rfl⟩ := h.exists_cons hbranch (by simp)
    have h' : Lists p (prepend [] (.branch c u)) (e :: L) := by
      rwa [prepend_nil]
    obtain ⟨hL, hshared⟩ := h'.sharedPre_eq hbranch (h.length_lt hlen)
    obtain ⟨e', L, rfl⟩ := exists_cons_of_ne_nil hL
    have hnew : ofRlp (appendList {} 17) =
        .ok (upTo (places (refs sha3 c) u) 0) := by
      rw [← length_places (refs sha3 c) u, appendList_upTo (by simp [places])]
      rfl
    have hplen : p.length < 2 ^ 31 := by
      obtain ⟨x, hx⟩ := hbranch.exists_lookup (by simp)
      have := hlen x hx
      omega
    have hchild : ∀ a L, c a ≠ .nil → Lists (p ++ [a]) (c a) L →
        Writes sha3 (c a) (hash256rlp sha3 fuel L (p.length + 1) {}) := by
      intro a L hne hL
      obtain ⟨y, hy⟩ := (hc a).exists_lookup hne
      have hdepth := hfuel (a :: y) hy
      rw [length_cons] at hdepth
      have hwrites : Writes sha3 (c a) (hash256rlp sha3 fuel L (p ++ [a]).length {}) := by
        refine ih a (hs.child a) hL (fun x hx => ?_) (by omega) fun x hx => ?_
        · have := hlen (a :: x) hx
          rw [length_cons] at this
          rw [length_append, length_singleton]
          omega
        · have := hfuel (a :: x) hx
          rw [length_cons] at this
          omega
      rwa [length_append, length_singleton] at hwrites
    have hloop := placesLoop_upTo (n := 16) hfits hc hplen hchild rfl h.listsFrom
    rw [← range_eq_range'] at hloop
    have hvalue : (u.getD []).length < 2 ^ 62 := by
      cases u with
      | none => norm_num
      | some v => exact (hfits.2 v rfl).1
    have hlast := append_upTo hsize (drop_places_value (refs sha3 c) u) (by omega)
    rw [hash256rlp]
    simp only [hshared]
    rw [if_neg (by simp), hnew, ok_bind, hloop, ok_bind]
    have hout : Writes sha3 (.branch c u) (.ok (upTo (places (refs sha3 c) u) 17)) :=
      ⟨_, rfl, by rw [← length_places (refs sha3 c) u]; exact out_upTo _⟩
    rcases h.first_of_branch with ⟨hend, rfl⟩ | ⟨hend, rfl⟩
    · rw [if_pos hend]
      exact hlast ▸ hout
    · rw [if_neg hend]
      exact hlast ▸ hout

/-! ### Whole maps -/

lemma getElem?_foldl_insert {l : List (Bytes × Bytes)}
    (hl : l.Pairwise fun a b => a.1 ≠ b.1) (M : HexMap) (x v : Bytes) :
    (l.foldl (fun m i => m.insert (asNibbles i.1) i.2) M)[x]? = some v ↔
      (∃ e ∈ l, asNibbles e.1 = x ∧ e.2 = v) ∨
        (∀ e ∈ l, asNibbles e.1 ≠ x) ∧ M[x]? = some v := by
  induction l generalizing M with
  | nil => simp
  | cons e l ih =>
    obtain ⟨hne, hl⟩ := pairwise_cons.mp hl
    rw [foldl_cons, ih hl, Std.TreeMap.getElem?_insert]
    simp only [Std.LawfulEqOrd.compare_eq_iff_eq, mem_cons, exists_eq_or_imp, forall_eq_or_imp]
    have hinj : ∀ e' ∈ l, asNibbles e'.1 ≠ asNibbles e.1 := by
      intro e' he' heq
      rw [asNibbles_eq, asNibbles_eq] at heq
      exact hne e' he' (HexPrefix.nibbles_injective (hexes_injective heq)).symm
    split_ifs with hx
    · subst hx
      constructor
      · rintro (h | ⟨-, h⟩)
        · exact .inl (.inr h)
        · exact .inl (.inl ⟨rfl, Option.some.inj h⟩)
      · rintro ((⟨-, h⟩ | h) | ⟨⟨h, -⟩, -⟩)
        · exact .inr ⟨hinj, congrArg some h⟩
        · exact .inl h
        · exact absurd rfl h
    · simp only [hx, false_and, false_or, ne_eq, not_false_iff, true_and]

/-- The entries of the map from nibbles. -/
lemma mem_hexMap_toList (s : BytesMap) (e : Bytes × Bytes) :
    e ∈ (hexMap s).toList ↔ ∃ k v, s[k]? = some v ∧ e = (asNibbles k, v) := by
  have hdistinct : s.toList.reverse.Pairwise fun a b => a.1 ≠ b.1 := by
    rw [pairwise_reverse]
    refine Std.TreeMap.distinct_keys_toList.imp fun h heq => h ?_
    rw [heq]
    exact Std.ReflOrd.compare_self
  obtain ⟨x, v⟩ := e
  rw [Std.TreeMap.mem_toList_iff_getElem?_eq_some, hexMap, getElem?_foldl_insert hdistinct]
  constructor
  · rintro (⟨⟨k, w⟩, hk, rfl, rfl⟩ | ⟨-, h⟩)
    · exact ⟨k, w, Std.TreeMap.mem_toList_iff_getElem?_eq_some.mp (mem_reverse.mp hk), rfl⟩
    · simp at h
  · rintro ⟨k, w, hk, he⟩
    obtain ⟨rfl, rfl⟩ := Prod.mk.inj he
    exact .inl ⟨(k, v), mem_reverse.mpr
      (Std.TreeMap.mem_toList_iff_getElem?_eq_some.mpr hk), rfl, rfl⟩

/-- The words of a tree are the keys of a map. -/
def Represents (m : Node) (s : BytesMap) : Prop :=
  ∀ x v, m.lookup x = some v ↔ ∃ k, x = nibbles k ∧ s[k]? = some v

lemma Represents.lists {m : Node} {s : BytesMap} (h : Represents m s) :
    Lists [] m (hexMap s).toList := by
  refine ⟨Std.TreeMap.ordered_keys_toList, fun e => (mem_hexMap_toList s e).trans ⟨?_, ?_⟩⟩
  · rintro ⟨k, v, hk, rfl⟩
    exact ⟨nibbles k, v, (h _ _).mpr ⟨k, rfl, hk⟩, by rw [asNibbles_eq]; rfl⟩
  · rintro ⟨x, v, hx, rfl⟩
    obtain ⟨k, rfl, hk⟩ := (h x v).mp hx
    exact ⟨k, v, hk, by rw [asNibbles_eq]; rfl⟩

/-- **The root node of a map** is the encoding of its tree. -/
theorem rlp256_spec {m : Node} (hc : Canon m) (hs : Small m) {s : BytesMap} (h : Represents m s)
    {fuel : ℕ} (hfuel : 2 ^ 31 ≤ fuel) : rlp256 sha3 fuel s = .ok (enc sha3 m) := by
  have hlen : ∀ x, m.lookup x ≠ none → x.length < 2 ^ 31 - 1 := by
    intro x hx
    obtain ⟨v, hv⟩ := Option.ne_none_iff_exists'.mp hx
    exact (hs x v hv).1
  have hwrites : Writes sha3 m (hash256rlp sha3 fuel (hexMap s).toList
      ([] : List (Fin 16)).length {}) := by
    refine hash256rlp_spec hc hs h.lists (fun x hx => ?_) (by omega) fun x hx => ?_
    · rw [length_nil, Nat.zero_add]
      exact hlen x hx
    · exact (hlen x hx).trans (by omega)
  obtain ⟨r, hr, hout⟩ := hwrites
  rw [length_nil] at hr
  rw [rlp256]
  split_ifs with hempty
  · have hnil : m = .nil := by
      by_contra hne
      obtain ⟨x, hx⟩ := hc.exists_lookup hne
      obtain ⟨v, hv⟩ := Option.ne_none_iff_exists'.mp hx
      obtain ⟨k, -, hk⟩ := (h x v).mp hv
      rw [Std.TreeMap.getElem?_of_isEmpty hempty] at hk
      simp at hk
    rw [hnil, enc_nil]
    rfl
  · rw [hr, ok_bind, hout]
    rfl

end Trie

end Tos
