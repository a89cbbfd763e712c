import Tos.Rlp.Reader

/-!
# What lazy reading has seen

`RLP::operator[]` finds an item without looking at those behind it, and without looking into
those before it. So a byte string from which some items have been read need not be an encoding:
only the frames of these items are known, and the rest may be anything. The statements here go
from a successful call back to the bytes.

## Main results

* `itemCached_again`: reading an item once more.
* `SeenUpTo.first`, `SeenUpTo.next`: one more item; `SeenUpTo.int`, `SeenUpTo.hash`: one
  more item that is converted.
* `SeenUpTo.itemCached_eq`: the cache does not change what is read.
* `SeenUpTo.rest_eq_nil`: the number of items bounds what can follow.
* `toInt_eq_ok`, `toHash_veryStrict_eq_ok`: what a frame is when it is converted.
-/

namespace Tos.RLP

open List
open Rlp (Kind frame)

/-- Frames one after the other. -/
def frames (fs : List (Kind × Bytes)) : Bytes := fs.flatMap fun f => frame f.1 f.2

lemma frames_append_singleton (fs : List (Kind × Bytes)) (f : Kind × Bytes) :
    frames (fs ++ [f]) = frames fs ++ frame f.1 f.2 := by
  simp [frames]

lemma length_le_of_mem_frames {fs : List (Kind × Bytes)} {f : Kind × Bytes} (h : f ∈ fs) :
    f.2.length ≤ (frames fs).length := by
  obtain ⟨as, bs, rfl⟩ := append_of_mem h
  have := Rlp.length_le_length_frame f.1 f.2
  simp only [frames, flatMap_append, flatMap_cons, length_append]
  omega

/-- Frames can be cut off the front in at most one way. -/
lemma frames_append_inj {fs gs : List (Kind × Bytes)} {q r : Bytes} (hlen : fs.length = gs.length)
    (hfs : ∀ f ∈ fs, f.2.length < 2 ^ 64) (hgs : ∀ g ∈ gs, g.2.length < 2 ^ 64)
    (h : frames fs ++ q = frames gs ++ r) : fs = gs ∧ q = r := by
  induction fs generalizing gs with
  | nil =>
    obtain rfl := length_eq_zero_iff.mp hlen.symm
    exact ⟨rfl, h⟩
  | cons f fs ih =>
    cases gs with
    | nil => simp at hlen
    | cons g gs =>
      simp only [frames, flatMap_cons, append_assoc] at h
      obtain ⟨hk, hp, h⟩ := Rlp.frame_append_inj (hfs f (by simp)) (hgs g (by simp)) h
      obtain ⟨rfl, rfl⟩ := ih (by simpa using hlen) (fun x hx => hfs x (by simp [hx]))
        (fun x hx => hgs x (by simp [hx])) h
      exact ⟨by rw [Prod.ext hk hp], rfl⟩

/-- The list with payload `p` has been read up to the item `f`: before it are the frames of `fs`,
behind it is `q`, and the cache stands at it. -/
structure SeenUpTo (p : Bytes) (fs : List (Kind × Bytes)) (f : Kind × Bytes) (q : Bytes)
    (c : Cache) : Prop where
  payload_eq : p = frames (fs ++ [f]) ++ q
  cache : c = ⟨fs.length, (frames (fs ++ [f])).length, frame f.1 f.2⟩
  small : ∀ g ∈ fs ++ [f], g.2.length < maxLength

variable {n : ℕ}

/-- A byte string at the front of which an item is found. -/
lemma exists_frame_of_cut {p y : Bytes} (hs : sizeAsEncoded p = .ok n)
    (hy : cropped p 0 n = y) (hne : y ≠ []) :
    ∃ f : Kind × Bytes, ∃ q, f.2.length < maxLength ∧ y = frame f.1 f.2 ∧
      p = frame f.1 f.2 ++ q ∧ n = (frame f.1 f.2).length := by
  have hp : p ≠ [] := by
    rintro rfl
    exact hne (by rw [← hy]; simp [cropped])
  obtain ⟨k, x, q, rfl, hx, rfl⟩ := (sizeAsEncoded_eq_ok hp).mp hs
  have hcut : cropped (frame k x ++ q) 0 (frame k x).length = frame k x := by simp [cropped]
  exact ⟨(k, x), q, hx, hy.symm.trans hcut, rfl, rfl⟩

/-- The constructor for an item gives the bytes that it was given. -/
lemma eq_of_ofBytes_item {x y : Bytes} (h : ofBytes x (ThrowOnFail ||| FailIfTooSmall) = .ok y) :
    x = y := by
  rw [ofBytes_failIfTooSmall] at h
  obtain ⟨a, -, h⟩ := bind_eq_ok_iff.mp h
  split_ifs at h
  exact Except.ok.inj h

/-- What the strict constructor has accepted is a frame, unless it is empty. -/
lemma exists_frame_of_ofBytes {b d : Bytes} (h : ofBytes b VeryStrict = .ok d) (hb : b ≠ []) :
    d = b ∧ ∃ k p, b = frame k p ∧ p.length < maxLength := by
  rcases ofBytes_veryStrict_cases hb with ⟨k, p, rfl, hp, hok⟩ | ⟨e, he, -⟩
  · exact ⟨Except.ok.inj (h.symm.trans hok), k, p, rfl, hp⟩
  · rw [he] at h
    cases h

/-- A list that the strict constructor accepts. -/
lemma exists_list_of_ofBytes {b d : Bytes} (h : ofBytes b VeryStrict = .ok d)
    (hlist : isList d = true) : d = b ∧ ∃ p, b = frame .list p ∧ p.length < maxLength := by
  have hb : b ≠ [] := by
    rintro rfl
    obtain rfl := Except.ok.inj h
    simp [isList] at hlist
  obtain ⟨rfl, k, p, rfl, hp⟩ := exists_frame_of_ofBytes h hb
  obtain rfl := (isList_whole_iff hp).mp hlist
  exact ⟨rfl, p, rfl, hp⟩

/-- The loop of `operator[]` stops at the item that is asked for or where there is none. -/
lemma seek_lastIndex {d : Bytes} {c c' : Cache} (h : seek d n c = .ok c') :
    c'.m_lastIndex ≤ c.m_lastIndex + n ∧
      (c'.m_lastItem.length = 0 ∨ c'.m_lastIndex = c.m_lastIndex + n) := by
  induction n generalizing c with
  | zero =>
    obtain rfl := Except.ok.inj h
    exact ⟨le_rfl, Or.inr rfl⟩
  | succ n ih =>
    rw [seek] at h
    split_ifs at h with hnil
    · obtain rfl := Except.ok.inj h
      exact ⟨Nat.le_add_right _ _, Or.inl hnil⟩
    · simp only [bind_eq_ok_iff] at h
      obtain ⟨p, -, m, -, h⟩ := h
      have hstep := ih h
      dsimp only at hstep
      omega

variable {i : ℕ}

/-- An item can be read again, and the cache stays where it is. -/
lemma itemCached_again {d y : Bytes} {c c' : Cache} (h : itemCached d c i = .ok (y, c')) :
    itemCached d c' i = .ok (y, c') := by
  simp only [itemCached, bind_eq_ok_iff] at h
  obtain ⟨c₁, h₁, c₂, h₂, z, hz, h⟩ := h
  obtain ⟨rfl, rfl⟩ := Prod.mk.inj (Except.ok.inj h)
  have hstart : c₁.m_lastIndex ≤ i := by
    rw [restart] at h₁
    split_ifs at h₁ with hlt
    · simp only [bind_eq_ok_iff] at h₁
      obtain ⟨p, -, m, -, p', -, h₁⟩ := h₁
      obtain rfl := Except.ok.inj h₁
      exact Nat.zero_le _
    · obtain rfl := Except.ok.inj h₁
      omega
  obtain ⟨hle, hor⟩ := seek_lastIndex h₂
  have hstay : seek d (i - c₂.m_lastIndex) c₂ = .ok c₂ := by
    cases hn : i - c₂.m_lastIndex with
    | zero => rfl
    | succ n => rw [seek, if_pos (hor.resolve_right (by omega))]
  simp only [itemCached, bind_eq_ok_iff]
  exact ⟨c₂, by rw [restart, if_neg (by omega)], c₂, hstay, z, hz, rfl⟩

namespace SeenUpTo

variable {d p y q : Bytes} {c c' : Cache} {fs : List (Kind × Bytes)} {f : Kind × Bytes}

/-- The first item. -/
lemma first (hd : payload d = .ok p) (h : itemCached d {} 0 = .ok (y, c)) (hne : y ≠ []) :
    ∃ f q, y = frame f.1 f.2 ∧ SeenUpTo p [] f q c := by
  simp only [itemCached, bind_eq_ok_iff] at h
  obtain ⟨c₁, h₁, c₂, h₂, z, hz, h⟩ := h
  obtain ⟨rfl, rfl⟩ := Prod.mk.inj (Except.ok.inj h)
  rw [restart, if_pos (by norm_num)] at h₁
  simp only [hd, bind_eq_ok_iff, Except.ok.injEq, exists_eq_left'] at h₁
  obtain ⟨n, hs, h₁⟩ := h₁
  obtain rfl := Except.ok.inj h₁
  obtain rfl := Except.ok.inj h₂
  have hz' : cropped p 0 n = z := eq_of_ofBytes_item hz
  obtain ⟨f, q, hf, hy, hp, hn⟩ := exists_frame_of_cut hs hz' hne
  refine ⟨f, q, hy, by simpa [frames] using hp, ?_, by simpa using hf⟩
  rw [hz', hn, hy]
  simp [frames]

/-- The item behind the last one that was read. -/
lemma next (hd : payload d = .ok p) (hc : SeenUpTo p fs f q c) (hi : i = fs.length + 1)
    (h : itemCached d c i = .ok (y, c')) (hne : y ≠ []) :
    ∃ g q', y = frame g.1 g.2 ∧ q = y ++ q' ∧ SeenUpTo p (fs ++ [f]) g q' c' := by
  subst hi
  obtain ⟨hp, rfl, hsmall⟩ := hc
  simp only [itemCached, bind_eq_ok_iff] at h
  obtain ⟨c₁, h₁, c₂, h₂, z, hz, h⟩ := h
  obtain ⟨rfl, rfl⟩ := Prod.mk.inj (Except.ok.inj h)
  rw [restart, if_neg (by simp)] at h₁
  obtain rfl := Except.ok.inj h₁
  have hone : fs.length + 1 - fs.length = 0 + 1 := by omega
  simp only [hone] at h₂
  rw [seek, if_neg (by simp)] at h₂
  simp only [hd, bind_eq_ok_iff, Except.ok.injEq, exists_eq_left', hp, drop_left'] at h₂
  obtain ⟨n, hs, h₂⟩ := h₂
  obtain rfl := Except.ok.inj h₂
  have hz' : cropped q 0 n = z := eq_of_ofBytes_item hz
  obtain ⟨g, q', hg, hy, rfl, rfl⟩ := exists_frame_of_cut hs hz' hne
  refine ⟨g, q', hy, by rw [hy], ?_, ?_, ?_⟩
  · rw [hp, frames_append_singleton (fs ++ [f]), append_assoc]
  · have hcut : cropped (frame g.1 g.2 ++ q') 0 (frame g.1 g.2).length = frame g.1 g.2 := by
      rw [hz', hy]
    rw [hcut, frames_append_singleton (fs ++ [f]), length_append, length_append]
    rfl
  · intro x hx
    rcases mem_append.mp hx with hx | hx
    · exact hsmall x hx
    · rw [mem_singleton.mp hx]
      exact hg

end SeenUpTo

/-! ### The number of items -/

lemma length_le_length_frames (fs : List (Kind × Bytes)) : fs.length ≤ (frames fs).length := by
  induction fs with
  | nil => simp
  | cons f fs ih =>
    have := Rlp.length_frame_pos f.1 f.2
    simp only [frames, flatMap_cons, List.length_cons, length_append] at ih ⊢
    omega

/-- The loop of `items` over frames. -/
lemma itemsLoop_frames {fs : List (Kind × Bytes)} (h : ∀ f ∈ fs, f.2.length < maxLength) (q : Bytes)
    {fuel n : ℕ} (hfuel : fs.length ≤ fuel) (hn : itemsLoop fuel (frames fs ++ q) = .ok n) :
    ∃ m, itemsLoop (fuel - fs.length) q = .ok m ∧ n = fs.length + m := by
  induction fs generalizing fuel n with
  | nil => exact ⟨n, by simpa [frames] using hn, by simp⟩
  | cons f fs ih =>
    obtain ⟨fuel, rfl⟩ : ∃ k, fuel = k + 1 := ⟨fuel - 1, by simp at hfuel; omega⟩
    obtain ⟨hf, hfs⟩ := forall_mem_cons.mp h
    have hsplit : frames (f :: fs) ++ q = frame f.1 f.2 ++ (frames fs ++ q) := by
      simp [frames]
    have hs := (sizeAsEncoded_eq_ok (d := frame f.1 f.2 ++ (frames fs ++ q)) (by simp)).mpr
      ⟨f.1, f.2, _, rfl, hf, rfl⟩
    rw [hsplit, itemsLoop, if_neg (by simp), hs] at hn
    simp only [bind_eq_ok_iff, Except.ok.injEq, exists_eq_left', drop_left'] at hn
    obtain ⟨m, hm, hn⟩ := hn
    obtain rfl := Except.ok.inj hn
    obtain ⟨k, hk, rfl⟩ := ih hfs (by simpa using hfuel) hm
    refine ⟨k, ?_, by rw [List.length_cons]; omega⟩
    rw [List.length_cons, Nat.add_sub_add_right]
    exact hk

/-- What is counted to its end is frames. -/
lemma exists_frames_of_itemsLoop {fuel n : ℕ} {q : Bytes} (hn : itemsLoop fuel q = .ok n)
    (hfuel : q.length ≤ fuel) :
    ∃ fs, q = frames fs ∧ fs.length = n ∧ ∀ f ∈ fs, f.2.length < maxLength := by
  induction fuel generalizing q n with
  | zero =>
    obtain rfl := length_eq_zero_iff.mp (Nat.le_zero.mp hfuel)
    obtain rfl := Except.ok.inj hn
    exact ⟨[], rfl, rfl, by simp⟩
  | succ fuel ih =>
    rw [itemsLoop] at hn
    split_ifs at hn with hq
    · subst hq
      obtain rfl := Except.ok.inj hn
      exact ⟨[], rfl, rfl, by simp⟩
    · simp only [bind_eq_ok_iff] at hn
      obtain ⟨a, ha, m, hm, hn⟩ := hn
      obtain rfl := Except.ok.inj hn
      obtain ⟨k, x, r, rfl, hx, rfl⟩ := (sizeAsEncoded_eq_ok hq).mp ha
      rw [drop_left] at hm
      have hpos := Rlp.length_frame_pos k x
      rw [length_append] at hfuel
      obtain ⟨fs, rfl, rfl, hfs⟩ := ih hm (by omega)
      refine ⟨(k, x) :: fs, by simp [frames], by simp, ?_⟩
      exact forall_mem_cons.mpr ⟨hx, hfs⟩

/-- What follows the items that have been read, when all are counted. -/
lemma SeenUpTo.exists_rest {d p q : Bytes} {c : Cache} {fs : List (Kind × Bytes)}
    {f : Kind × Bytes} (hc : SeenUpTo p fs f q c) (hd : payload d = .ok p)
    (hlist : isList d = true) (hn : itemCount d = .ok n) :
    ∃ gs, q = frames gs ∧ n = fs.length + 1 + gs.length ∧ ∀ g ∈ gs, g.2.length < maxLength := by
  rw [itemCount, if_pos hlist, items, if_pos hlist, hd] at hn
  change itemsLoop p.length p = .ok n at hn
  have hframes := length_le_length_frames (fs ++ [f])
  have hfs : (fs ++ [f]).length = fs.length + 1 := by simp
  have hp : p.length = (frames (fs ++ [f])).length + q.length := by
    rw [hc.payload_eq, length_append]
  obtain ⟨m, hm, rfl⟩ := itemsLoop_frames hc.small q (show _ ≤ p.length by omega)
    (by rw [← hc.payload_eq]; exact hn)
  obtain ⟨gs, rfl, rfl, hgs⟩ := exists_frames_of_itemsLoop hm (by omega)
  exact ⟨gs, rfl, by omega, hgs⟩

/-- Where as many items are counted as have been read, nothing follows. -/
lemma SeenUpTo.rest_eq_nil {d p q : Bytes} {c : Cache} {fs : List (Kind × Bytes)}
    {f : Kind × Bytes} (hc : SeenUpTo p fs f q c) (hd : payload d = .ok p)
    (hlist : isList d = true) (hn : itemCount d = .ok n) (hle : n ≤ fs.length + 1) : q = [] := by
  obtain ⟨gs, rfl, hcount, -⟩ := hc.exists_rest hd hlist hn
  obtain rfl : gs = [] := length_eq_zero_iff.mp (by omega)
  rfl

/-! ### Converting a frame -/

variable {maxSize size : ℕ}

section Convert

variable {k : Kind} {p : Bytes} (hp : p.length < maxLength)
include hp

/-- A list is not an integer. -/
lemma isInt_frame_list : isInt (frame .list p) = .ok false := by
  have hgood := requireGood_whole (k := .list) hp
  have hlist := isList_whole (k := .list) hp
  obtain ⟨b, t, e⟩ := exists_cons_of_ne_nil (Rlp.frame_ne_nil .list p)
  rw [e] at hgood hlist ⊢
  have hb : 0xc0 ≤ b.toNat := by simpa [isList] using hlist
  rw [isInt_cons, hgood]
  simp only [Except.bind]
  rw [if_neg (by omega), if_neg (by omega), if_neg (by omega), if_neg (by omega)]

/-- A frame that is read as an integer is that of its shortest byte string. -/
lemma toInt_eq_ok : toInt maxSize (frame k p) Strict = .ok n ↔
    k = .data ∧ p = BigEndian.bytes n ∧ n < 256 ^ maxSize := by
  have h := @toInt_frame_eq_ok p hp [] maxSize n
  rw [append_nil] at h
  cases k with
  | data => simpa using h
  | list =>
    simp only [reduceCtorEq, false_and, iff_false, toInt, requireGood_whole hp,
      isInt_frame_list hp]
    simp [bind, Except.bind, has, Strict, AllowNonCanon, ThrowOnFail, FailIfTooBig]

/-- A frame that is read as a hash with no tolerance is that of the hash. -/
lemma toHash_veryStrict_eq_ok {x : Bytes} : toHash size (frame k p) VeryStrict = .ok x ↔
    k = .data ∧ p.length = size ∧ x = p := by
  have hflags : has VeryStrict ThrowOnFail = true ∧ has VeryStrict FailIfTooBig = true ∧
      has VeryStrict FailIfTooSmall = true := by decide
  simp only [toHash, requireGood_whole hp, payload_whole hp, isData_whole hp, hflags, bind,
    Except.bind, pure, Except.pure]
  by_cases hk : k = .data
  · rcases Nat.lt_trichotomy p.length size with hlt | rfl | hgt
    · simp [hk, hlt, hlt.ne]
    · simp [hk, @eq_comm _ x]
    · simp [hk, hgt, hgt.ne']
  · simp [hk]

end Convert

/-! ### Reading and converting -/

lemma ne_nil_of_toInt {x : Bytes} (h : toInt maxSize x Strict = .ok n) : x ≠ [] := by
  rintro rfl
  simp [toInt, requireGood, bind, Except.bind] at h

lemma ne_nil_of_toHash {x z : Bytes} (h : toHash size x VeryStrict = .ok z) : x ≠ [] := by
  rintro rfl
  simp [toHash, requireGood, bind, Except.bind] at h

namespace SeenUpTo

variable {d p y q : Bytes} {c c' : Cache} {fs : List (Kind × Bytes)} {f : Kind × Bytes}

/-- An integer that is read behind the items seen so far. -/
lemma int (hd : payload d = .ok p) (hc : SeenUpTo p fs f q c)
    (hi : i = fs.length + 1) (hy : itemCached d c i = .ok (y, c'))
    (hn : toInt maxSize y Strict = .ok n) :
    n < 256 ^ maxSize ∧ ∃ q', SeenUpTo p (fs ++ [f]) (.data, BigEndian.bytes n) q' c' := by
  obtain ⟨g, q', rfl, -, hc'⟩ := hc.next hd hi hy (ne_nil_of_toInt hn)
  have hg := hc'.small g (by simp)
  obtain ⟨hk, hp, hlt⟩ := (toInt_eq_ok hg).mp hn
  obtain ⟨k, x⟩ := g
  obtain rfl : k = .data := hk
  obtain rfl : x = BigEndian.bytes n := hp
  exact ⟨hlt, q', hc'⟩

/-- A hash that is read behind the items seen so far. -/
lemma hash (hd : payload d = .ok p) (hc : SeenUpTo p fs f q c) {z : Bytes}
    (hi : i = fs.length + 1) (hy : itemCached d c i = .ok (y, c'))
    (hz : toHash size y VeryStrict = .ok z) :
    z.length = size ∧ ∃ q', SeenUpTo p (fs ++ [f]) (.data, z) q' c' := by
  obtain ⟨g, q', rfl, -, hc'⟩ := hc.next hd hi hy (ne_nil_of_toHash hz)
  have hg := hc'.small g (by simp)
  obtain ⟨hk, hlen, rfl⟩ := (toHash_veryStrict_eq_ok hg).mp hz
  obtain ⟨k, x⟩ := g
  obtain rfl : k = .data := hk
  exact ⟨hlen, q', hc'⟩

end SeenUpTo

/-! ### The cache does not change what is read -/

/-- The loop of `operator[]` in two parts. -/
lemma seek_add (d : Bytes) (m n : ℕ) (c : Cache) :
    seek d (m + n) c = (seek d m c).bind (seek d n) := by
  induction m generalizing c with
  | zero => rw [Nat.zero_add]; rfl
  | succ m ih =>
    rw [Nat.add_right_comm, seek, seek]
    split_ifs with hnil
    · cases n with
      | zero => rfl
      | succ n => rw [Except.bind, seek, if_pos hnil]
    · cases payload d with
      | error e => rfl
      | ok p =>
        simp only [bind, Except.bind]
        cases sizeAsEncoded (List.drop c.m_lastEnd p) with
        | error e => rfl
        | ok k => exact ih _

/-- The cache that stands at the item `f`, which is behind the frames of `fs`. -/
def cacheBehind (fs : List (Kind × Bytes)) (f : Kind × Bytes) : Cache :=
  ⟨fs.length, (frames (fs ++ [f])).length, frame f.1 f.2⟩

section Frames

variable {d : Bytes}

/-- One step of the loop over frames. -/
lemma seek_one_frames {fs : List (Kind × Bytes)} {f g : Kind × Bytes} {q : Bytes}
    (hd : payload d = .ok (frames (fs ++ [f]) ++ (frame g.1 g.2 ++ q)))
    (hg : g.2.length < maxLength) :
    seek d 1 (cacheBehind fs f) = .ok (cacheBehind (fs ++ [f]) g) := by
  have hs := (sizeAsEncoded_eq_ok (d := frame g.1 g.2 ++ q) (by simp)).mpr
    ⟨g.1, g.2, q, rfl, hg, rfl⟩
  have hcut : cropped (frame g.1 g.2 ++ q) 0 (frame g.1 g.2).length = frame g.1 g.2 := by
    simp [cropped]
  rw [seek, if_neg (by simp [cacheBehind]), hd]
  simp only [cacheBehind, bind, Except.bind, drop_left', hs, hcut, seek]
  rw [frames_append_singleton (fs ++ [f]), length_append, length_append]
  rfl

/-- The loop over frames. -/
lemma seek_frames {gs fs : List (Kind × Bytes)} {f g : Kind × Bytes} {q : Bytes}
    (hd : payload d = .ok (frames (fs ++ [f] ++ gs ++ [g]) ++ q))
    (hsmall : ∀ x ∈ gs ++ [g], x.2.length < maxLength) :
    seek d (gs.length + 1) (cacheBehind fs f) = .ok (cacheBehind (fs ++ [f] ++ gs) g) := by
  induction gs generalizing fs f with
  | nil =>
    rw [append_nil] at hd ⊢
    rw [frames_append_singleton, append_assoc] at hd
    exact seek_one_frames hd (hsmall g (by simp))
  | cons x gs ih =>
    have hone : seek d 1 (cacheBehind fs f) = .ok (cacheBehind (fs ++ [f]) x) := by
      refine seek_one_frames (q := frames (gs ++ [g]) ++ q) ?_ (hsmall x (by simp))
      rw [hd]
      simp [frames]
    have hrest : ∀ y ∈ gs ++ [g], y.2.length < maxLength :=
      fun y hy => hsmall y (mem_cons_of_mem x hy)
    rw [List.length_cons, Nat.add_comm _ 1, seek_add, hone, Except.bind,
      ih (by rw [hd]; simp [frames]) hrest]
    simp

end Frames

/-- The item that follows is read. -/
lemma SeenUpTo.read {d p q : Bytes} {c : Cache} {fs : List (Kind × Bytes)} {f g : Kind × Bytes}
    (hc : SeenUpTo p fs f (frame g.1 g.2 ++ q) c) (hd : payload d = .ok p)
    (hg : g.2.length < maxLength) : ∃ c',
      itemCached d c (fs.length + 1) = .ok (frame g.1 g.2, c') ∧ SeenUpTo p (fs ++ [f]) g q c' := by
  have hcache : c = cacheBehind fs f := hc.cache
  have hstay : restart d c (fs.length + 1) = .ok c := by
    rw [restart, if_neg (by rw [hcache]; exact Nat.not_lt.mpr (Nat.le_succ _))]
  have hone : seek d 1 c = .ok (cacheBehind (fs ++ [f]) g) := by
    rw [hcache]
    exact seek_one_frames (q := q) (by rw [hd, hc.payload_eq]) hg
  have hofBytes : ofBytes (frame g.1 g.2) (ThrowOnFail ||| FailIfTooSmall) =
      .ok (frame g.1 g.2) := by
    have hsize : actualSize (frame g.1 g.2) = .ok (frame g.1 g.2).length := by
      simpa using actualSize_frame (k := g.1) hg []
    simp [ofBytes_failIfTooSmall, hsize, Except.bind]
  have hindex : fs.length + 1 - c.m_lastIndex = 1 := by
    rw [hcache]
    exact Nat.add_sub_cancel_left _ _
  refine ⟨cacheBehind (fs ++ [f]) g, ?_, ?_, rfl, ?_⟩
  · simp only [itemCached, hstay, bind, Except.bind, hindex, hone]
    rw [show (cacheBehind (fs ++ [f]) g).m_lastItem = frame g.1 g.2 from rfl, hofBytes]
    rfl
  · rw [hc.payload_eq, frames_append_singleton (fs ++ [f]), append_assoc]
  · intro x hx
    rcases mem_append.mp hx with hx | hx
    · exact hc.small x hx
    · rw [mem_singleton.mp hx]
      exact hg

/-- **The cache does not change what is read**, from the item on at which it stands. -/
lemma SeenUpTo.itemCached_eq {d p q : Bytes} {c : Cache} {fs : List (Kind × Bytes)}
    {f : Kind × Bytes} (hc : SeenUpTo p fs f q c) (hd : payload d = .ok p)
    (hle : fs.length ≤ i) (hi : i < 2 ^ 64 - 1) : itemCached d {} i = itemCached d c i := by
  have hcache : c = cacheBehind fs f := hc.cache
  have hstay : restart d c i = .ok c := by
    rw [restart, if_neg (by rw [hcache]; exact Nat.not_lt.mpr hle)]
  -- the first item, where the loop of a new object starts
  obtain ⟨g, hg, hfirst⟩ : ∃ g : Kind × Bytes, restart d {} i = .ok (cacheBehind [] g) ∧
      seek d fs.length (cacheBehind [] g) = .ok c := by
    have hrestart : ∀ (g : Kind × Bytes) r, p = frame g.1 g.2 ++ r → g.2.length < maxLength →
        restart d {} i = .ok (cacheBehind [] g) := by
      intro g r hp hg
      have hs := (sizeAsEncoded_eq_ok (d := frame g.1 g.2 ++ r) (by simp)).mpr
        ⟨g.1, g.2, r, rfl, hg, rfl⟩
      rw [restart, if_pos hi, hd, hp]
      simp [bind, Except.bind, hs, pure, Except.pure, cacheBehind, frames, cropped]
    cases fs with
    | nil => exact ⟨f, hrestart f q (by simpa [frames] using hc.payload_eq)
        (hc.small f (by simp)), by rw [hcache]; rfl⟩
    | cons g fs =>
      refine ⟨g, hrestart g (frames (fs ++ [f]) ++ q) ?_ (hc.small g (by simp)), ?_⟩
      · rw [hc.payload_eq]
        simp [frames]
      · rw [hcache]
        refine @seek_frames d fs [] g f q (by rw [hd, hc.payload_eq]; simp) ?_
        exact fun x hx => hc.small x (mem_cons_of_mem g hx)
  have hindex : c.m_lastIndex = fs.length := by rw [hcache]; rfl
  have hsplit : i - (cacheBehind [] g).m_lastIndex = fs.length + (i - fs.length) := by
    simp [cacheBehind]; omega
  simp only [itemCached, hg, hstay, hindex, bind, Except.bind]
  rw [hsplit, seek_add, hfirst]
  rfl

end Tos.RLP
