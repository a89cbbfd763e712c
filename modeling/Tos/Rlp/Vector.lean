import Tos.Rlp.Lazy

/-!
# Reading a list into an array

`RLP::toVectorRef` of `toscore/utils/RLP.h` reads a list into an array that is already there. The
array has a size of its own, and a list of another size is an error only when the caller asks for
errors; otherwise the array keeps what it had. The readers of network addresses use it for the
bytes of an address.

## Main results

* `Seen.next`, `Seen.int`: reading one more item.
* `toVectorRef_eq_ok`: what an array holds after it has been read.
-/

namespace Tos.RLP

open List hiding Vector length_cons
open Rlp (Kind frame)

/-! ### The methods -/

/-- `RLP::itemCountStrict`. -/
def itemCountStrict (d : Bytes) : Except RlpError ℕ :=
  if isList d then items d else .error .badCast

section ToVectorRef

variable {T : Type} {size : ℕ} (convert : Bytes → Except RlpError T)

/-- The loop of `toVectorRef` from index `i` on, with `n` items left. -/
def toVectorRefLoop (d : Bytes) :
    (n i : ℕ) → Cache → Vector T size → Except RlpError (Vector T size)
  | 0, _, _, out => .ok out
  | n + 1, i, c, out => do
    let (x, c) ← itemCached d c i
    let v ← convert x
    toVectorRefLoop d n (i + 1) c (out.setIfInBounds i v)

/-- `RLP::toVectorRef`, with the conversion of an item under the same flags. -/
def toVectorRef (d : Bytes) (out : Vector T size) (flags : ℕ) :
    Except RlpError (Vector T size) := do
  if (← itemCountStrict d) ≠ size then
    if has flags ThrowOnFail then .error .badCast else return out
  else toVectorRefLoop convert d size 0 {} out

end ToVectorRef

/-! ### Reading from the first item on -/

/-- The cache behind the frames that have been read. -/
def cacheAfter (fs : List (Kind × Bytes)) : Cache :=
  match fs.getLast? with
  | none => {}
  | some f => ⟨fs.length - 1, (frames fs).length, frame f.1 f.2⟩

/-- The items `fs` of a payload have been read in order, and `q` is left of it. In contrast to
`SeenUpTo`, nothing need have been read. -/
structure Seen (p : Bytes) (fs : List (Kind × Bytes)) (q : Bytes) (c : Cache) : Prop where
  payload_eq : p = frames fs ++ q
  cache : c = cacheAfter fs
  small : ∀ f ∈ fs, f.2.length < maxLength

namespace Seen

variable {d p q y : Bytes} {c c' : Cache} {fs gs : List (Kind × Bytes)} {f g : Kind × Bytes}

lemma none (p : Bytes) : Seen p [] p {} := ⟨rfl, rfl, by simp⟩

lemma of_seenUpTo (h : SeenUpTo p fs f q c) : Seen p (fs ++ [f]) q c := by
  refine ⟨h.payload_eq, ?_, h.small⟩
  rw [h.cache]
  simp [cacheAfter]

lemma seenUpTo (h : Seen p (fs ++ [f]) q c) : SeenUpTo p fs f q c := by
  refine ⟨h.payload_eq, ?_, h.small⟩
  rw [h.cache]
  simp [cacheAfter]

/-- The next item, if there is one. -/
lemma next (hd : payload d = .ok p) (hc : Seen p fs q c) {i : ℕ} (hi : i = fs.length)
    (h : itemCached d c i = .ok (y, c')) (hne : y ≠ []) :
    ∃ g q', y = frame g.1 g.2 ∧ q = y ++ q' ∧ Seen p (fs ++ [g]) q' c' := by
  rcases eq_nil_or_concat fs with rfl | ⟨gs, f, rfl⟩
  · obtain rfl := hi
    have hq : p = q := hc.payload_eq
    have hcache : c = {} := hc.cache
    rw [hcache] at h
    obtain ⟨g, q', rfl, hg⟩ := SeenUpTo.first hd h hne
    refine ⟨g, q', rfl, ?_, of_seenUpTo hg⟩
    rw [← hq, hg.payload_eq]
    simp [frames]
  · rw [concat_eq_append] at hi hc ⊢
    obtain ⟨g, q', rfl, hq, hg⟩ := hc.seenUpTo.next hd (by simpa using hi) h hne
    exact ⟨g, q', rfl, hq, of_seenUpTo hg⟩

/-- The next item, when it is converted to a number. -/
lemma int (hd : payload d = .ok p) (hc : Seen p fs q c) {i maxSize n : ℕ} (hi : i = fs.length)
    (hy : itemCached d c i = .ok (y, c')) (hn : toInt maxSize y Strict = .ok n) :
    n < 256 ^ maxSize ∧ ∃ q', Seen p (fs ++ [(.data, BigEndian.bytes n)]) q' c' := by
  obtain ⟨g, q', rfl, -, hc'⟩ := hc.next hd hi hy (ne_nil_of_toInt hn)
  have hg := hc'.small g (by simp)
  obtain ⟨hk, hp, hlt⟩ := (toInt_eq_ok hg).mp hn
  exact ⟨hlt, q', by rwa [show g = (.data, BigEndian.bytes n) from Prod.ext hk hp] at hc'⟩

/-- The first item of a payload is read. -/
lemma read_first (hd : payload d = .ok (frame g.1 g.2 ++ q)) (hg : g.2.length < maxLength) :
    itemCached d {} 0 = .ok (frame g.1 g.2, cacheAfter [g]) := by
  have hs := (sizeAsEncoded_eq_ok (d := frame g.1 g.2 ++ q) (by simp)).mpr
    ⟨g.1, g.2, q, rfl, hg, rfl⟩
  have hrestart : restart d {} 0 = .ok (cacheAfter [g]) := by
    rw [restart, if_pos (by norm_num), hd]
    simp [bind, Except.bind, hs, pure, Except.pure, cacheAfter, frames, cropped]
  have hsize : actualSize (frame g.1 g.2) = .ok (frame g.1 g.2).length := by
    simpa using actualSize_frame (k := g.1) hg []
  have hofBytes : ofBytes (cacheAfter [g]).m_lastItem (ThrowOnFail ||| FailIfTooSmall) =
      .ok (frame g.1 g.2) := by
    simp [ofBytes_failIfTooSmall, hsize, Except.bind, cacheAfter]
  simp only [itemCached, hrestart, bind, Except.bind, Nat.zero_sub, seek, hofBytes]
  rfl

/-- An item that is there is read. -/
lemma read (hd : payload d = .ok p) (hc : Seen p fs (frame g.1 g.2 ++ q) c)
    (hg : g.2.length < maxLength) :
    itemCached d c fs.length = .ok (frame g.1 g.2, cacheAfter (fs ++ [g])) ∧
      Seen p (fs ++ [g]) q (cacheAfter (fs ++ [g])) := by
  rcases eq_nil_or_concat fs with rfl | ⟨gs, f, rfl⟩
  · have hp : frame g.1 g.2 ++ q = p := hc.payload_eq.symm
    have hcache : c = {} := hc.cache
    refine ⟨by rw [hcache]; exact read_first (by rw [hd, hp]) hg, ?_, rfl, ?_⟩
    · simp [← hp, frames]
    · simpa using hg
  · rw [concat_eq_append] at hc ⊢
    obtain ⟨c', h, hc'⟩ := hc.seenUpTo.read hd hg
    have := of_seenUpTo hc'
    obtain rfl := this.cache
    exact ⟨by rw [← h, length_append]; rfl, this⟩

end Seen

/-- An item of a payload, read from a new object. -/
lemma item_frames {d q : Bytes} {fs : List (Kind × Bytes)} {g : Kind × Bytes}
    (hd : payload d = .ok (frames fs ++ (frame g.1 g.2 ++ q)))
    (hfs : ∀ f ∈ fs, f.2.length < maxLength) (hg : g.2.length < maxLength)
    (hlen : fs.length < 2 ^ 64 - 1) : item d fs.length = .ok (frame g.1 g.2) := by
  have hc : Seen _ fs (frame g.1 g.2 ++ q) (cacheAfter fs) := ⟨rfl, rfl, hfs⟩
  have hread := (hc.read hd hg).1
  have hsame : itemCached d {} fs.length = itemCached d (cacheAfter fs) fs.length := by
    rcases eq_nil_or_concat fs with rfl | ⟨gs, f, rfl⟩
    · rfl
    · rw [concat_eq_append] at hd hc hlen ⊢
      exact hc.seenUpTo.itemCached_eq hd (by simp) hlen
  rw [item, hsame, hread]
  rfl

/-- An item of a frame whose payload begins with frames. -/
lemma item_frame {k : Kind} {gs : List (Kind × Bytes)} {q : Bytes}
    (hlen : (frames gs ++ q).length < maxLength) {i : ℕ} {g : Kind × Bytes} (hg : gs[i]? = some g) :
    item (frame k (frames gs ++ q)) i = .ok (frame g.1 g.2) := by
  obtain ⟨hi, rfl⟩ := List.getElem?_eq_some_iff.mp hg
  have hsplit : frames gs ++ q = frames (gs.take i) ++
      (frame gs[i].1 gs[i].2 ++ (frames (gs.drop (i + 1)) ++ q)) := by
    have hgs : gs.take i ++ gs[i] :: gs.drop (i + 1) = gs := by
      rw [← drop_eq_getElem_cons hi, take_append_drop]
    have := congrArg frames hgs
    simp only [frames, flatMap_append, flatMap_cons] at this ⊢
    rw [← this]
    simp
  have hsmall : ∀ f ∈ gs, f.2.length < maxLength := fun f hf =>
    (length_le_of_mem_frames hf).trans_lt (lt_of_le_of_lt (by simp) hlen)
  have hcount : gs.length ≤ (frames gs ++ q).length :=
    (length_le_length_frames gs).trans (by simp)
  have hitem := item_frames (d := frame k (frames gs ++ q))
    (by rw [← hsplit]; exact payload_whole hlen)
    (fun f hf => hsmall f (mem_of_mem_take hf)) (hsmall _ (getElem_mem hi))
    (by rw [length_take]; unfold maxLength at hlen; omega)
  rwa [length_take, Nat.min_eq_left hi.le] at hitem

/-- The number of items of a payload that consists of frames. -/
lemma itemsLoop_frames_eq {gs : List (Kind × Bytes)} (h : ∀ g ∈ gs, g.2.length < maxLength)
    {fuel : ℕ} (hfuel : gs.length ≤ fuel) : itemsLoop fuel (frames gs) = .ok gs.length := by
  induction gs generalizing fuel with
  | nil => cases fuel <;> simp [itemsLoop, frames]
  | cons g gs ih =>
    cases fuel with
    | zero => simp at hfuel
    | succ fuel =>
      have hcons : frames (g :: gs) = frame g.1 g.2 ++ frames gs := by simp [frames]
      have hs := (sizeAsEncoded_eq_ok (d := frame g.1 g.2 ++ frames gs) (by simp)).mpr
        ⟨g.1, g.2, frames gs, rfl, h g (by simp), rfl⟩
      rw [itemsLoop, if_neg (by simp [hcons]), hcons, hs]
      simp only [bind, Except.bind]
      rw [drop_left' rfl, ih (fun x hx => h x (mem_cons_of_mem g hx))
        (by simpa using hfuel)]
      rfl

lemma itemCount_frames {gs : List (Kind × Bytes)} (hlen : (frames gs).length < maxLength)
    (h : ∀ g ∈ gs, g.2.length < maxLength) :
    itemCount (frame .list (frames gs)) = .ok gs.length := by
  have hlist := (isList_whole_iff hlen).mpr rfl
  rw [itemCount, if_pos hlist, items, if_pos hlist, payload_whole hlen]
  exact itemsLoop_frames_eq h (length_le_length_frames gs)

/-- Frames can be told apart. -/
lemma frames_inj {fs gs : List (Kind × Bytes)} (hfs : (frames fs).length < 2 ^ 64)
    (hgs : (frames gs).length < 2 ^ 64) (h : frames fs = frames gs) : fs = gs := by
  induction fs generalizing gs with
  | nil =>
    cases gs with
    | nil => rfl
    | cons g gs => simp [frames] at h
  | cons f fs ih =>
    cases gs with
    | nil => simp [frames] at h
    | cons g gs =>
      have hf := length_le_of_mem_frames (mem_cons_self (a := f) (l := fs))
      have hg := length_le_of_mem_frames (mem_cons_self (a := g) (l := gs))
      have h' : frame f.1 f.2 ++ frames fs = frame g.1 g.2 ++ frames gs := by
        simpa [frames] using h
      obtain ⟨hk, hp, hrest⟩ := Rlp.frame_append_inj (by omega) (by omega) h'
      simp only [frames, flatMap_cons, length_append] at hfs hgs ih
      rw [Prod.ext hk hp, ih (by omega) (by omega) hrest]

/-- A lenient conversion of data takes the value of its last bytes. -/
lemma toInt_laissezFaire {p : Bytes} (hp : p.length < maxLength) (maxSize : ℕ) :
    toInt maxSize (frame .data p) LaissezFaire = .ok (BigEndian.value p % 256 ^ maxSize) := by
  have hint : isInt (frame .data p) = .ok (decide (p.head? ≠ some 0)) := by
    simpa using isInt_frame hp []
  have hnull : isNull (frame .data p) = false := by simpa using isNull_frame (k := .data) hp []
  have hflags : has LaissezFaire AllowNonCanon = true ∧
      has LaissezFaire FailIfTooBig = false := by decide
  simp [toInt, requireGood_whole hp, hint, payload_whole hp, isList_whole hp, hnull, hflags, bind,
    Except.bind, pure, Except.pure]

/-! ### The array that is read -/

section ToVectorRef

variable {T : Type} {size : ℕ} {convert : Bytes → Except RlpError T} {d p : Bytes}

/-- The loop over the items that are left converts one after the other.

**Proof sketch.** By induction on the items left. The next one is read (`Seen.read`), and what
the conversion gives is put behind the entries that were written before, which the rest of the
loop keeps. -/
lemma toVectorRefLoop_eq_ok (hd : payload d = .ok p) {gs : List (Kind × Bytes)}
    (hgs : ∀ g ∈ gs, g.2.length < maxLength) {fs : List (Kind × Bytes)} {c : Cache}
    (hc : Seen p fs (frames gs) c) (hsize : fs.length + gs.length = size) {out v : Vector T size}
    (h : toVectorRefLoop convert d gs.length fs.length c out = .ok v) :
    v.toList.take fs.length = out.toList.take fs.length ∧
      List.Forall₂ (fun g x => convert (frame g.1 g.2) = .ok x) gs (v.toList.drop fs.length) := by
  induction gs generalizing fs c out with
  | nil =>
    obtain rfl := Except.ok.inj h
    have hdrop : out.toList.drop fs.length = [] :=
      drop_of_length_le (by simp at hsize ⊢; omega)
    exact ⟨rfl, by rw [hdrop]; exact .nil⟩
  | cons g gs ih =>
    have hq : frames (g :: gs) = frame g.1 g.2 ++ frames gs := by simp [frames]
    rw [hq] at hc
    rw [List.length_cons] at hsize h
    obtain ⟨hread, hseen⟩ := Seen.read hd hc (hgs g (by simp))
    rw [toVectorRefLoop, hread] at h
    obtain ⟨x, hx, h⟩ := bind_eq_ok_iff.mp (show (convert (frame g.1 g.2)).bind _ = .ok v from h)
    have hlen : (fs ++ [g]).length = fs.length + 1 := by simp
    rw [← hlen] at h
    obtain ⟨htake, hrest⟩ := ih (fun g' hg' => hgs g' (mem_cons_of_mem g hg')) hseen
      (by simp; omega) h
    have hlt : fs.length < v.toList.length := by simp; omega
    have hlt' : fs.length < out.toList.length := by simp; omega
    rw [hlen] at htake hrest
    have hhead : v.toList[fs.length] = x := by
      have := congrArg (·[fs.length]?) htake
      rw [Vector.toList_setIfInBounds] at this
      simpa only [List.getElem?_take, Nat.lt_succ_self, if_true, List.getElem?_set_self hlt',
        List.getElem?_eq_getElem hlt, Option.some.injEq] using this
    have hbefore : v.toList.take fs.length = out.toList.take fs.length := by
      have := congrArg (List.take fs.length) htake
      simpa [take_take, take_set_of_le] using this
    refine ⟨hbefore, ?_⟩
    rw [drop_eq_getElem_cons hlt, hhead]
    exact .cons hx hrest

/-- **What `toVectorRef` does with a list.** A list of another size than the array is passed over,
and the array is as before; a list of the same size is converted item by item. -/
lemma toVectorRef_eq_ok {flags : ℕ} {out v : Vector T size} (hp : p.length < maxLength)
    (h : toVectorRef convert (frame .list p) out flags = .ok v) :
    ∃ gs, p = frames gs ∧ (∀ g ∈ gs, g.2.length < maxLength) ∧
      if gs.length = size then
        List.Forall₂ (fun g x => convert (frame g.1 g.2) = .ok x) gs v.toList
      else v = out := by
  have hlist := (isList_whole_iff hp).mpr rfl
  rw [toVectorRef, itemCountStrict, if_pos hlist, items, if_pos hlist, payload_whole hp] at h
  obtain ⟨n, hn, h⟩ := bind_eq_ok_iff.mp h
  obtain ⟨gs, hgs, rfl, hsmall⟩ := exists_frames_of_itemsLoop hn le_rfl
  refine ⟨gs, hgs, hsmall, ?_⟩
  split_ifs with hsize
  · rw [if_neg (by simpa using hsize)] at h
    subst hsize
    have hseen : Seen p [] (frames gs) {} := hgs ▸ Seen.none _
    simpa using (toVectorRefLoop_eq_ok (payload_whole hp) hsmall hseen (by simp) h).2
  · rw [if_pos hsize] at h
    split_ifs at h
    exact (Except.ok.inj h).symm

end ToVectorRef
end Tos.RLP
