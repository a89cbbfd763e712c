import Tos.Rlp.Canonical
import Tos.Rlp.Vector

/-!
# Iterating over a list

The range loop over `begin() .. end()`, as in `RLP::toList`. The iterators compare by the address
and the size of their items. The items stop at the end of the payload that the header states, but
`end()` is the end of the bytes that the object refers to, and which bytes an object may refer to
depends on the strictness of its constructor.

## Main results

* `iterate_frame`: the loop over a list with something behind it.
* `iterate_ends_iff`: when the loop ends, and what it has visited then.
* `actualSize_of_strict`: the constructor that refuses both too much and too little.
-/

namespace Tos.RLP

open List
open Rlp (Kind frame)

variable (mem : Bytes)

/-- The first check of the constructor: the reference is reset, or there is an exception, when the
item is smaller than what is referred to. -/
def checkTooBig (r : VectorRef) (s : ℕ) : Except RlpError VectorRef :=
  if has s FailIfTooBig then do
    let a ← actualSize (r.bytes mem)
    if a < r.m_count then
      if has s ThrowOnFail then .error (.oversizeRLP (constructRLPSizeErrorInfo a r.m_count))
      else .ok {}
    else .ok r
  else .ok r

/-- The second check of the constructor, of the reference `m_data` that the first one has left. -/
def checkTooSmall (r m_data : VectorRef) (s : ℕ) : Except RlpError VectorRef :=
  if has s FailIfTooSmall then do
    let a ← actualSize (m_data.bytes mem)
    if a > r.m_count then
      if has s ThrowOnFail then .error (.undersizeRLP (constructRLPSizeErrorInfo a r.m_count))
      else .ok {}
    else .ok m_data
  else .ok m_data

/-- The constructor `RLP(bytesConstRef, Strictness)`: the reference that the object holds. -/
def ofRef (r : VectorRef) (s : ℕ) : Except RlpError VectorRef := do
  checkTooSmall mem r (← checkTooBig mem r s) s

/-- The range loop from an iterator up to `last`, with the items visited. -/
def visit : ℕ → Iterator → Iterator → Except TraverseError (List Bytes)
  | 0, _, _ => .error .outOfFuel
  | fuel + 1, it, last =>
    if it.m_currentItem = last.m_currentItem then .ok []
    else do
      -- `operator*` constructs the item with the default strictness
      let x ← (ofBytes (it.m_currentItem.bytes mem) VeryStrict).mapError .rlp
      let it ← (it.next mem).mapError .rlp
      return x :: (← visit fuel it last)

/-- The items of an object from `begin()` to `end()`. -/
def iterate (fuel : ℕ) (r : VectorRef) : Except TraverseError (List Bytes) := do
  let first ← (beginIterator mem r).mapError .rlp
  visit mem fuel first (endIterator r)

variable {mem}

/-! ### What the constructor lets through -/

@[simp] lemma bytes_null : (VectorRef.bytes mem {}) = [] := rfl

@[simp] lemma bytes_ofBuffer : (VectorRef.ofBuffer mem).bytes mem = mem := by
  simp [VectorRef.bytes, VectorRef.ofBuffer]

variable {r : VectorRef} {s : ℕ}

lemma checkTooBig_eq_ok {r m : VectorRef} (h : checkTooBig mem r s = .ok m) :
    m = {} ∨ m = r ∧ (has s FailIfTooBig = true →
      ∃ a, actualSize (r.bytes mem) = .ok a ∧ r.m_count ≤ a) := by
  rw [checkTooBig] at h
  by_cases hbig : has s FailIfTooBig = true
  · rw [if_pos hbig] at h
    obtain ⟨a, ha, h⟩ := bind_eq_ok_iff.mp h
    split_ifs at h with hlt
    · exact .inl (Except.ok.inj h).symm
    · exact .inr ⟨(Except.ok.inj h).symm, fun _ => ⟨a, ha, Nat.not_lt.mp hlt⟩⟩
  · rw [if_neg hbig] at h
    exact .inr ⟨(Except.ok.inj h).symm, fun hb => absurd hb hbig⟩

lemma checkTooSmall_eq_ok {r m m' : VectorRef} (h : checkTooSmall mem r m s = .ok m') :
    m' = {} ∨ m' = m ∧ (has s FailIfTooSmall = true →
      ∃ a, actualSize (m.bytes mem) = .ok a ∧ a ≤ r.m_count) := by
  rw [checkTooSmall] at h
  by_cases hsmall : has s FailIfTooSmall = true
  · rw [if_pos hsmall] at h
    obtain ⟨a, ha, h⟩ := bind_eq_ok_iff.mp h
    split_ifs at h with hgt
    · exact .inl (Except.ok.inj h).symm
    · exact .inr ⟨(Except.ok.inj h).symm, fun _ => ⟨a, ha, Nat.not_lt.mp hgt⟩⟩
  · rw [if_neg hsmall] at h
    exact .inr ⟨(Except.ok.inj h).symm, fun hs => absurd hs hsmall⟩

variable {b : Bytes}

/-- **What the constructor lets through**: the whole buffer, or nothing. With both flags set, the
buffer is exactly the item. -/
lemma ofRef_eq_ok (h : ofRef b (.ofBuffer b) s = .ok r) :
    r = {} ∨ r = .ofBuffer b ∧ (has s FailIfTooBig = true → has s FailIfTooSmall = true →
      actualSize b = .ok b.length) := by
  obtain ⟨m, hm, h⟩ := bind_eq_ok_iff.mp h
  rcases checkTooBig_eq_ok hm with rfl | ⟨rfl, hbig⟩
  · rcases checkTooSmall_eq_ok h with rfl | ⟨rfl, -⟩ <;> exact .inl rfl
  rcases checkTooSmall_eq_ok h with rfl | ⟨rfl, hsmall⟩
  · exact .inl rfl
  refine .inr ⟨rfl, fun hb hs => ?_⟩
  obtain ⟨a, ha, hge⟩ := hbig hb
  obtain ⟨a', ha', hle⟩ := hsmall hs
  obtain rfl := Except.ok.inj (ha.symm.trans ha')
  rw [bytes_ofBuffer] at ha
  rw [ha, Nat.le_antisymm hle hge]
  rfl

/-- A constructor that refuses what is too big and what is too small gives an object that refers
to its item and nothing else. -/
theorem actualSize_of_strict
    (h : ofRef b (.ofBuffer b) s = .ok r) (hbig : has s FailIfTooBig = true)
    (hsmall : has s FailIfTooSmall = true) : actualSize (r.bytes b) = .ok (r.bytes b).length := by
  rcases ofRef_eq_ok h with rfl | ⟨rfl, hsize⟩
  · rfl
  · rw [bytes_ofBuffer]
    exact hsize hbig hsmall

/-! ### The loop -/

/-- The loop from the first of the bytes `q` at address `a` up to the address `z`. -/
def visitFrom (mem : Bytes) (fuel a : ℕ) (q : Bytes) (z : ℕ) :
    Except TraverseError (List Bytes) := do
  let it ← (iteratorAt a q).mapError .rlp
  visit mem fuel it ⟨0, refTo z []⟩

variable {a fuel z : ℕ} {q : Bytes}

/-- One round of the loop at an item. -/
lemma visitFrom_frame {f : Kind × Bytes} (hf : f.2.length < maxLength)
    (hmem : Holds mem a (frame f.1 f.2 ++ q)) :
    visitFrom mem (fuel + 1) a (frame f.1 f.2 ++ q) z =
      (visitFrom mem fuel (a + (frame f.1 f.2).length) q z).map (frame f.1 f.2 :: ·) := by
  have hs := (sizeAsEncoded_eq_ok (d := frame f.1 f.2 ++ q) (by simp)).mpr
    ⟨f.1, f.2, q, rfl, hf, rfl⟩
  have hit : iteratorAt a (frame f.1 f.2 ++ q) = .ok ⟨q.length, refTo a (frame f.1 f.2)⟩ := by
    simp [iteratorAt, hs, bind, Except.bind, pure, Except.pure]
  have hne : refTo a (frame f.1 f.2) ≠ refTo z [] := by
    have := Rlp.length_frame_pos f.1 f.2
    simp only [refTo, ne_eq, VectorRef.mk.injEq, length_nil]
    omega
  have hitem : ofBytes (frame f.1 f.2) VeryStrict = .ok (frame f.1 f.2) := by
    have hsize : actualSize (frame f.1 f.2) = .ok (frame f.1 f.2).length := by
      simpa using actualSize_frame (k := f.1) hf []
    simp [ofBytes_veryStrict, hsize, Except.bind]
  rw [visitFrom, hit]
  simp only [Except.mapError, bind, Except.bind, visit, if_neg hne, hmem.left.bytes_refTo, hitem,
    next_eq hmem, visitFrom]
  cases iteratorAt (a + (frame f.1 f.2).length) q with
  | error e => rfl
  | ok it =>
    dsimp only
    cases visit mem fuel it ⟨0, refTo z []⟩ <;> rfl

/-- The loop ends at the end of the payload if that is where `end()` is, -/
lemma visitFrom_nil_self (fuel a : ℕ) : visitFrom mem (fuel + 1) a [] a = .ok [] := by
  simp [visitFrom, iteratorAt, Except.mapError, bind, Except.bind, pure, Except.pure, visit]

/-- and stays there for ever if it is not. -/
lemma visitFrom_nil_of_ne (h : a ≠ z) (fuel : ℕ) :
    visitFrom mem fuel a [] z = .error .outOfFuel := by
  induction fuel with
  | zero => rfl
  | succ fuel ih =>
    have hne : refTo a [] ≠ refTo z [] := fun e => h (Option.some.inj (congrArg VectorRef.m_data e))
    have hnext : Iterator.next mem ⟨0, refTo a []⟩ = .ok ⟨0, refTo a []⟩ := rfl
    have hbytes : (refTo a []).bytes mem = [] := by simp [VectorRef.bytes, refTo]
    have hit : iteratorAt a [] = .ok ⟨0, refTo a []⟩ := rfl
    rw [visitFrom, hit] at ih ⊢
    simp only [Except.mapError, bind, Except.bind, visit, if_neg hne, hbytes, hnext] at ih ⊢
    rw [show ofBytes [] VeryStrict = .ok [] from rfl, ih]

/-- The loop over frames. -/
lemma visitFrom_frames {gs : List (Kind × Bytes)} (hgs : ∀ g ∈ gs, g.2.length < maxLength)
    (hmem : Holds mem a (frames gs ++ q)) :
    visitFrom mem (gs.length + fuel) a (frames gs ++ q) z =
      (visitFrom mem fuel (a + (frames gs).length) q z).map
        (gs.map (fun g => frame g.1 g.2) ++ ·) := by
  induction gs generalizing a with
  | nil =>
    simp only [frames, length_nil, Nat.zero_add, flatMap_nil, nil_append,
      Nat.add_zero, map_nil]
    cases visitFrom mem fuel a q z <;> rfl
  | cons g gs ih =>
    obtain ⟨hg, hrest⟩ := forall_mem_cons.mp hgs
    have hsplit : frames (g :: gs) ++ q = frame g.1 g.2 ++ (frames gs ++ q) := by simp [frames]
    have hlen : (frames (g :: gs)).length = (frame g.1 g.2).length + (frames gs).length := by
      simp [frames]
    rw [hsplit] at hmem ⊢
    rw [List.length_cons, Nat.add_right_comm, visitFrom_frame hg hmem, ih hrest hmem.right, hlen,
      ← Nat.add_assoc]
    cases visitFrom mem fuel (a + (frame g.1 g.2).length + (frames gs).length) q z <;> rfl

variable {e : RlpError}

/-- A header that cannot be read ends the loop with an exception. -/
lemma visitFrom_of_error (h : sizeAsEncoded q = .error e)
    (fuel : ℕ) : visitFrom mem fuel a q z = .error (.rlp e) := by
  rw [visitFrom, iteratorAt, h]
  rfl

/-! ### The three kinds of lists -/

/-- What cannot be counted is frames up to a header that cannot be read. -/
lemma exists_frames_of_itemsLoop_error (h : itemsLoop fuel q = .error e) :
    ∃ gs q', q = frames gs ++ q' ∧ (∀ g ∈ gs, g.2.length < maxLength) ∧
      sizeAsEncoded q' = .error e := by
  induction fuel generalizing q with
  | zero => cases h
  | succ fuel ih =>
    rw [itemsLoop] at h
    split_ifs at h with hq
    cases hs : sizeAsEncoded q with
    | error e' =>
      rw [hs] at h
      obtain rfl : e' = e := by simpa [bind, Except.bind] using h
      exact ⟨[], q, rfl, by simp, hs⟩
    | ok m =>
      obtain ⟨k, x, r, rfl, hx, rfl⟩ := (sizeAsEncoded_eq_ok hq).mp hs
      rw [hs] at h
      simp only [bind, Except.bind, drop_left'] at h
      cases hr : itemsLoop fuel r with
      | ok n => rw [hr] at h; cases h
      | error e' =>
        rw [hr] at h
        obtain rfl : e' = e := by simpa using h
        obtain ⟨gs, q', rfl, hgs, hq'⟩ := ih hr
        exact ⟨(k, x) :: gs, q', by simp [frames], forall_mem_cons.mpr ⟨hx, hgs⟩, hq'⟩

lemma ofBuffer_eq_refTo (b : Bytes) : VectorRef.ofBuffer b = refTo 0 b := rfl

lemma holds_self (b : Bytes) : Holds b 0 b := ⟨[], by simp⟩

/-- A list has a payload that cannot be found, one that is there, or one that is said to reach
behind the end of the buffer. -/
lemma list_cases (hlist : isList b = true) :
    (∃ e, payload b = .error e ∧ payloadRef b (.ofBuffer b) = .error e) ∨
      (∃ p t, b = frame .list p ++ t ∧ p.length < maxLength) ∨
      (payload b = .ok [] ∧ payloadRef b (.ofBuffer b) = .ok {} ∧
        ∃ a, actualSize b = .ok a ∧ b.length < a) := by
  have hb : b ≠ [] := by
    rintro rfl
    simp [isList] at hlist
  have hcount : (VectorRef.ofBuffer b).m_count = b.length := rfl
  have hcropped (off l : ℕ) (h : ¬ off + l ≤ b.length) :
      (VectorRef.ofBuffer b).cropped off l = {} := by
    rw [VectorRef.cropped, VectorRef.ofBuffer]
    exact if_neg fun hfit => h hfit.2.2
  cases hl : length b with
  | error e => exact .inl ⟨e, by rw [payload, hl]; rfl, by rw [payloadRef, bytes_ofBuffer, hl]; rfl⟩
  | ok l =>
    by_cases hlong : l > b.length
    · refine .inl ⟨.badRLP, ?_, ?_⟩
      · simp [payload, hl, bind, Except.bind, hlong]
      · simp [payloadRef, hl, bind, Except.bind, hlong, hcount]
    by_cases hfit : payloadOffset b + l ≤ b.length
    · obtain ⟨k, p, t, rfl, rfl, hp⟩ := exists_frame_of_length hb hl hfit
      rw [isList_frame hp] at hlist
      obtain rfl : k = .list := of_decide_eq_true hlist
      exact .inr (.inl ⟨p, t, rfl, hp⟩)
    · refine .inr (.inr ⟨?_, ?_, payloadOffset b + l, ?_, by omega⟩)
      · simp [payload, hl, bind, Except.bind, hlong, cropped, hfit, pure, Except.pure]
      · simp [payloadRef, hl, bind, Except.bind, hlong, hcount, hcropped _ _ hfit, pure,
          Except.pure]
      · rw [actualSize_eq hb, hl]
        rfl

/-- The loop over a list, whatever is behind it. -/
lemma iterate_frame {p t : Bytes} (hp : p.length < maxLength) (fuel : ℕ) :
    iterate (frame .list p ++ t) fuel (.ofBuffer (frame .list p ++ t)) =
      visitFrom (frame .list p ++ t) fuel (Rlp.header .list p.length).length p
        (frame .list p ++ t).length := by
  rw [iterate, ofBuffer_eq_refTo, beginIterator_eq hp (holds_self _), endIterator_eq, Nat.zero_add,
    Nat.zero_add]
  rfl

/-- The loop that starts at a null reference never ends. -/
lemma visit_null (mem : Bytes) (fuel z : ℕ) :
    visit mem fuel ⟨0, {}⟩ ⟨0, refTo z []⟩ = .error .outOfFuel := by
  induction fuel with
  | zero => rfl
  | succ fuel ih =>
    have hnext : Iterator.next mem ⟨0, {}⟩ = .ok ⟨0, {}⟩ := rfl
    rw [visit, if_neg (by simp [refTo]), hnext]
    simp only [bytes_null, Except.mapError, bind, Except.bind, ih]
    rfl

/-! ### When the loop ends -/

/-- The loop comes to an end, and when it has come to `end()` it has visited the items that
`operator[]` gives, one after the other. -/
def Iterates (b : Bytes) (r : VectorRef) : Prop :=
  (∃ N, ∀ fuel ≥ N, iterate b fuel r ≠ .error .outOfFuel) ∧
    ∀ fuel xs, iterate b fuel r = .ok xs → ∃ n, itemCount (r.bytes b) = .ok n ∧
      xs.map .ok = (List.range n).map (item (r.bytes b))

/-- An object that is no list has no items. -/
lemma iterates_of_not_list (h : isList (r.bytes b) = false) : Iterates b r := by
  have hit : ∀ fuel, iterate b (fuel + 1) r = .ok [] := fun fuel => by
    simp [iterate, beginIterator, h, Except.mapError, bind, Except.bind, pure, Except.pure, visit,
      endIterator]
  refine ⟨⟨1, fun fuel hfuel => ?_⟩, fun fuel xs hxs => ⟨0, ?_, ?_⟩⟩
  · obtain ⟨k, rfl⟩ : ∃ k, fuel = k + 1 := ⟨fuel - 1, by omega⟩
    rw [hit]
    rintro ⟨⟩
  · simp [itemCount, h]
  · cases fuel with
    | zero =>
      rw [iterate, beginIterator, h] at hxs
      cases hxs
    | succ fuel =>
      rw [hit] at hxs
      obtain rfl := Except.ok.inj hxs
      rfl

/-- More fuel does not change what has been visited. -/
lemma visit_add {it last : Iterator} {xs : List Bytes}
    (h : visit mem fuel it last = .ok xs) (k : ℕ) : visit mem (fuel + k) it last = .ok xs := by
  induction fuel generalizing it xs with
  | zero => cases h
  | succ fuel ih =>
    rw [visit] at h
    rw [Nat.add_right_comm, visit]
    split_ifs at h ⊢ with hend
    · exact h
    · simp only [bind_eq_ok_iff] at h ⊢
      obtain ⟨x, hx, it', hit', ys, hys, h⟩ := h
      exact ⟨x, hx, it', hit', ys, ih hys, h⟩

lemma iterate_add {xs : List Bytes}
    (h : iterate b fuel r = .ok xs) (k : ℕ) : iterate b (fuel + k) r = .ok xs := by
  rw [iterate, bind_eq_ok_iff] at h ⊢
  obtain ⟨it, hit, h⟩ := h
  exact ⟨it, hit, visit_add h k⟩

/-- A loop that throws does not run on. -/
lemma iterates_of_error {N : ℕ}
    (h : ∀ fuel, iterate b (N + fuel) r = .error (.rlp e)) : Iterates b r := by
  refine ⟨⟨N, fun fuel hfuel => ?_⟩, fun fuel xs hok => ?_⟩
  · rw [← Nat.add_sub_cancel' hfuel, h]
    rintro ⟨⟩
  · have hmore := iterate_add hok N
    rw [Nat.add_comm, h] at hmore
    cases hmore

/-- The payload of a list, where the loop is. -/
lemma holds_payload (p t : Bytes) :
    Holds (frame .list p ++ t) (Rlp.header .list p.length).length p := by
  have h := holds_self (frame .list p ++ t)
  rw [Rlp.frame_list, append_assoc] at h
  rw [Rlp.frame_list]
  simpa using h.right.left

/-- A list that ends with the buffer, and whose items can be counted. -/
lemma iterates_of_frames {gs : List (Kind × Bytes)} (hgs : ∀ g ∈ gs, g.2.length < maxLength)
    (hp : (frames gs).length < maxLength) :
    Iterates (frame .list (frames gs)) (.ofBuffer (frame .list (frames gs))) := by
  have hmem : Holds (frame .list (frames gs))
      (Rlp.header .list (frames gs).length).length (frames gs ++ []) := by
    rw [append_nil]
    simpa using holds_payload (frames gs) []
  have hrun : ∀ fuel, iterate (frame .list (frames gs)) (gs.length + (fuel + 1))
      (.ofBuffer (frame .list (frames gs))) = .ok (gs.map fun g => frame g.1 g.2) := by
    intro fuel
    have hit := iterate_frame (t := []) hp (gs.length + (fuel + 1))
    have hend : (frame .list (frames gs)).length =
        (Rlp.header .list (frames gs).length).length + (frames gs).length := by
      rw [Rlp.frame_list, length_append]
    have hvisit := @visitFrom_frames _ _ (fuel + 1) (frame .list (frames gs)).length _ _ hgs hmem
    rw [append_nil] at hit hvisit
    rw [hit, hvisit, hend, visitFrom_nil_self]
    simp [Except.map]
  refine ⟨⟨gs.length + 1, fun fuel hfuel => ?_⟩, fun fuel xs hxs => ⟨gs.length, ?_, ?_⟩⟩
  · obtain ⟨k, rfl⟩ : ∃ k, fuel = gs.length + (k + 1) := ⟨fuel - gs.length - 1, by omega⟩
    rw [hrun]
    rintro ⟨⟩
  · rw [bytes_ofBuffer]
    exact itemCount_frames hp hgs
  · have hmore := iterate_add hxs (gs.length + 1)
    rw [Nat.add_left_comm, hrun fuel] at hmore
    obtain rfl := Except.ok.inj hmore
    rw [bytes_ofBuffer]
    refine ext_getElem (by simp) fun i hi hi' => ?_
    have hi : i < gs.length := by simpa using hi
    have hitem := item_frame (k := .list) (q := []) (by simpa using hp)
      (List.getElem?_eq_getElem hi)
    rw [append_nil] at hitem
    simp [hitem]

/-- A list with something behind it, or nothing: if its items can be counted, the loop ends only
if there is nothing. -/
lemma iterates_frame_iff {p t : Bytes} (hp : p.length < maxLength) :
    Iterates (frame .list p ++ t) (.ofBuffer (frame .list p ++ t)) ↔
      ((∃ n, itemsLoop p.length p = .ok n) → t = []) := by
  cases hloop : itemsLoop p.length p with
  | error e =>
    obtain ⟨gs, q, rfl, hgs, hq⟩ := exists_frames_of_itemsLoop_error hloop
    refine iff_of_true (iterates_of_error (N := gs.length) (e := e) fun fuel => ?_)
      (by rintro ⟨n, ⟨⟩⟩)
    rw [iterate_frame hp, visitFrom_frames hgs (holds_payload _ t), visitFrom_of_error hq]
    rfl
  | ok n =>
    obtain ⟨gs, rfl, -, hgs⟩ := exists_frames_of_itemsLoop hloop le_rfl
    rw [forall_prop_of_true ⟨n, rfl⟩]
    rcases eq_or_ne t [] with rfl | ht
    · rw [append_nil]
      exact iff_of_true (iterates_of_frames hgs hp) rfl
    · refine iff_of_false (fun hit => ?_) ht
      have hend : (Rlp.header .list (frames gs).length).length + (frames gs).length ≠
          (frame .list (frames gs) ++ t).length := by
        have := length_pos_iff.mpr ht
        rw [Rlp.frame_list, length_append, length_append]
        omega
      have hmem : Holds (frame .list (frames gs) ++ t)
          (Rlp.header .list (frames gs).length).length (frames gs ++ []) := by
        rw [append_nil]
        exact holds_payload _ t
      obtain ⟨N, hN⟩ := hit.1
      refine hN (gs.length + N) (Nat.le_add_left _ _) ?_
      have hvisit := @visitFrom_frames _ _ N (frame .list (frames gs) ++ t).length _ _ hgs hmem
      rw [append_nil, visitFrom_nil_of_ne hend] at hvisit
      rw [iterate_frame hp, hvisit]
      rfl

/-- **When the loop over a list ends.** For every buffer and all flags with which the constructor
accepts it, the loop from `begin()` to `end()` ends, with the items that `operator[]` gives unless
it throws, exactly when a list whose items can be counted is as long as its header says.

**Proof sketch.** An object that is no list, or whose payload cannot be found, is done at once. The
loop over a payload that is there goes from frame to frame up to a header that cannot be read, or
to the end of the payload, where it stays if that is not the end of the buffer. A payload that is
said to reach behind the end of the buffer is a null reference, and so are all that follow. -/
theorem iterate_ends_iff {b : Bytes} {s : ℕ} {r : VectorRef} (h : ofRef b (.ofBuffer b) s = .ok r) :
    Iterates b r ↔ (isList (r.bytes b) = true → (∃ n, itemCount (r.bytes b) = .ok n) →
      actualSize (r.bytes b) = .ok (r.bytes b).length) := by
  cases hlist : isList (r.bytes b) with
  | false => exact iff_of_true (iterates_of_not_list hlist) (by rintro ⟨⟩)
  | true =>
    obtain rfl : r = .ofBuffer b := by
      rcases ofRef_eq_ok h with rfl | ⟨rfl, -⟩
      · cases hlist
      · rfl
    rw [forall_prop_of_true rfl]
    rw [bytes_ofBuffer] at hlist ⊢
    have hcount : itemCount b = (payload b).bind fun p => itemsLoop p.length p := by
      rw [itemCount, if_pos hlist, items, if_pos hlist]
      rfl
    rcases list_cases hlist with ⟨e, hpay, href⟩ | ⟨p, t, rfl, hp⟩ | ⟨hpay, href, a, ha, hlt⟩
    · have hrun : ∀ fuel, iterate b fuel (.ofBuffer b) = .error (.rlp e) := fun fuel => by
        rw [iterate, beginIterator, bytes_ofBuffer, if_pos hlist, href]
        rfl
      refine iff_of_true (iterates_of_error (N := 0) fun fuel => hrun _) ?_
      rintro ⟨n, hn⟩
      rw [hcount, hpay] at hn
      cases hn
    · rw [iterates_frame_iff hp, hcount, payload_frame hp, actualSize_frame hp]
      refine imp_congr_right fun _ => ⟨fun ht => by rw [ht, append_nil], fun hsize => ?_⟩
      have hlen := Except.ok.inj hsize
      rw [length_append] at hlen
      exact length_eq_zero_iff.mp (by omega)
    · have hrun : ∀ fuel, iterate b fuel (.ofBuffer b) = .error .outOfFuel := fun fuel => by
        rw [iterate, beginIterator, bytes_ofBuffer, if_pos hlist, href, ofBuffer_eq_refTo,
          endIterator_eq]
        exact visit_null b fuel _
      refine iff_of_false (fun hit => ?_) fun hsize => ?_
      · obtain ⟨N, hN⟩ := hit.1
        exact hN N le_rfl (hrun N)
      · have := hsize ⟨0, by rw [hcount, hpay]; rfl⟩
        rw [ha] at this
        exact hlt.ne' (Except.ok.inj this)

/-- A list with a byte behind it, accepted by a constructor that does not look for what is too big:
the loop never ends, although the list has no items. -/
theorem iterate_trailing :
    ofRef [0xc0, 0x01] (.ofBuffer [0xc0, 0x01]) (ThrowOnFail ||| FailIfTooSmall) =
        .ok (.ofBuffer [0xc0, 0x01]) ∧
      itemCount [0xc0, 0x01] = .ok 0 ∧
      ∀ fuel, iterate [0xc0, 0x01] fuel (.ofBuffer [0xc0, 0x01]) = .error .outOfFuel := by
  refine ⟨by decide, by decide, fun fuel => ?_⟩
  have h := iterate_frame (p := []) (t := [0x01]) (by norm_num [maxLength]) fuel
  rw [visitFrom_nil_of_ne (by decide)] at h
  exact h

/-- The loop over a list of two items that the strict constructor accepts ends. -/
theorem iterate_ends_iff_pair :
    ofRef [0xc2, 0x01, 0x02] (.ofBuffer [0xc2, 0x01, 0x02]) VeryStrict =
        .ok (.ofBuffer [0xc2, 0x01, 0x02]) ∧
      Iterates [0xc2, 0x01, 0x02] (.ofBuffer [0xc2, 0x01, 0x02]) :=
  ⟨by decide, (iterate_ends_iff (s := VeryStrict) (by decide)).mpr fun _ _ => by decide⟩

end Tos.RLP
