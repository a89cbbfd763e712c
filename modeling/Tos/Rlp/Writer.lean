import Tos.Rlp.Stream

/-!
# Writing items into open lists

What an operation on an `RLPStream` does to the lists that are open: as long as the innermost
one has room for the items, the bytes go to the end of the buffer and the items are counted,
however the work is cut into operations. `Appends` states this for a function on streams, and
its rules put such functions together: one after the other, over the elements of a list, and
inside a list that is opened first.

## Main results

* `RLPStream.noteAppended_bind`: items may be counted in two steps.
* `RLPStream.Appends.cons`, `appends_foldlM`, `Appends.opened`: the rules.
* `RLPStream.Appends.out`: what such a function leaves on a stream of its own.
-/

namespace Tos

open Rlp (Item encode encodeList)
open List

namespace RLPStream

/-- The innermost open list, if any, has room for `n` more items. -/
def Room (s : RLPStream) (n : ℕ) : Prop :=
  ∀ f p st, s.m_listStack = (f, p) :: st → n ≤ f

lemma room_zero (s : RLPStream) : s.Room 0 := fun _ _ _ _ => Nat.zero_le _

variable {s : RLPStream} {n : ℕ}

lemma Room.mono {m n : ℕ} (h : s.Room n) (hmn : m ≤ n) : s.Room m :=
  fun f p st e => hmn.trans (h f p st e)

/-- The innermost open list after `n` items that do not complete it. -/
def count (s : RLPStream) (n : ℕ) : RLPStream :=
  match s.m_listStack with
  | [] => s
  | (f, p) :: st => { s with m_listStack := (f - n, p) :: st }

/-- Items that leave room for another one only lower the count of the innermost list. -/
lemma noteAppended_of_room (h : s.Room (n + 1)) : s.noteAppended n = .ok (s.count n) := by
  obtain ⟨out, stack⟩ := s
  rcases Nat.eq_zero_or_pos n with rfl | hn
  · cases stack <;> simp [count]
  · cases stack with
    | nil => simp [noteAppended, hn.ne', noteAppendedLoop, count]
    | cons top st =>
      obtain ⟨f, p⟩ := top
      have hf : n + 1 ≤ f := h f p st rfl
      have h1 : ¬ f < n := by omega
      have h2 : f - n ≠ 0 := by omega
      simp only [noteAppended, noteAppendedLoop, count]
      rw [if_neg hn.ne', if_neg h1, if_pos h2]

variable {x : Bytes}

/-- Room left for later items stays when the first ones have been counted. -/
lemma Room.of_noteAppended {s s' : RLPStream} {a b : ℕ} (h : s.Room (a + b))
    (hs : (s.push x).noteAppended a = .ok s') : s'.Room b := by
  rcases Nat.eq_zero_or_pos b with rfl | hb
  · exact room_zero s'
  · have hroom : (s.push x).Room (a + 1) := fun f p st e => le_trans (by omega) (h f p st e)
    rw [noteAppended_of_room hroom, Except.ok.injEq] at hs
    subst hs
    intro f p st e
    obtain ⟨out, stack⟩ := s
    cases stack with
    | nil => simp [count, push] at e
    | cons top st' =>
      obtain ⟨f', p'⟩ := top
      have hf := h f' p' st' rfl
      simp only [count, push, List.cons.injEq, Prod.mk.injEq] at e
      omega

/-- **Counting items in two steps.** Pushing one run of items and counting it, then another
one, is the same as pushing and counting both at once, when the innermost list has room for
both. -/
lemma noteAppended_bind {a b : ℕ} {x y : Bytes} (h : s.Room (a + b)) (hy : b = 0 → y = []) :
    ((s.push x).noteAppended a).bind (fun s => (s.push y).noteAppended b) =
      (s.push (x ++ y)).noteAppended (a + b) := by
  rcases Nat.eq_zero_or_pos b with rfl | hb
  · rw [hy rfl]
    cases hx : (s.push x).noteAppended a <;> simp [Except.bind, hx]
  have hroom : (s.push x).Room (a + 1) := fun f p st e => le_trans (by omega) (h f p st e)
  rw [noteAppended_of_room hroom]
  obtain ⟨out, stack⟩ := s
  cases stack with
  | nil => simp [Except.bind, count, push, noteAppended, noteAppendedLoop, hb.ne']
  | cons top st =>
    obtain ⟨f, p⟩ := top
    have hf : a + b ≤ f := h f p st rfl
    have h1 : ¬ f - a < b := by omega
    have h2 : ¬ f < a + b := by omega
    have h3 : f - a - b = f - (a + b) := by omega
    simp only [Except.bind, count, push, noteAppended, noteAppendedLoop, append_assoc]
    rw [if_neg hb.ne', if_neg h1, if_neg (show ¬ a + b = 0 by omega), if_neg h2, h3]

/-- Giving a freshly opened list all its items closes it, and counts it as one item. -/
lemma noteAppended_opened (s : RLPStream) (hn : 0 < n) {items : Bytes} (h : items.length < 2 ^ 64) :
    ({ s with m_listStack := (n, s.m_out.length) :: s.m_listStack }.push items).noteAppended n =
      (s.push (Rlp.frame .list items)).noteAppended 1 := by
  simp only [push, noteAppended, noteAppendedLoop]
  rw [if_neg hn.ne', if_neg (lt_irrefl n), if_neg (by simp), closeList_eq _ _ h]
  rfl

/-! ### Functions that append trees -/

/-- On every stream whose innermost list has room for `n` items, `g` appends the encoding of
`xs` and counts it. -/
def Appends (n : ℕ) (g : RLPStream → Except RlpError RLPStream) (xs : List Item) : Prop :=
  ∀ s : RLPStream, s.Room n → g s = (s.push (encodeList xs)).noteAppended xs.length

variable {f g : RLPStream → Except RlpError RLPStream} {xs : List Item}

/-- Items whose number is known, followed by a function that appends `xs`. -/
lemma Appends.bind (h : Appends n g xs) (hn : xs.length ≤ n) {k : ℕ} (hroom : s.Room (k + n)) :
    ((s.push x).noteAppended k).bind g =
      (s.push (x ++ encodeList xs)).noteAppended (k + xs.length) := by
  rw [← noteAppended_bind (hroom.mono (by omega))
    (fun h0 => by simp [List.length_eq_zero_iff.mp h0])]
  cases hs : (s.push x).noteAppended k with
  | error e => rfl
  | ok s' => exact h s' (hroom.of_noteAppended hs)

/-- One tree, and a function that appends more. -/
lemma Appends.cons {x : Item} (hf : Appends 1 f [x]) (hg : Appends xs.length g xs) :
    Appends (x :: xs).length (fun s => (f s).bind g) (x :: xs) := by
  intro s hroom
  rw [length_cons, Nat.add_comm] at hroom ⊢
  change (f s).bind g = _
  rw [hf s (hroom.mono (by omega)), length_singleton, hg.bind le_rfl hroom]
  simp

lemma Appends.last {x : Item} (h : Appends 1 g [x]) : Appends [x].length g [x] := h

/-- A loop that appends one tree for each element of a list. -/
lemma appends_foldlM {α : Type} {w : RLPStream → α → Except RlpError RLPStream}
    {item : α → Item} (l : List α) (h : ∀ a ∈ l, Appends 1 (fun s => w s a) [item a]) :
    Appends (l.map item).length (fun s => l.foldlM w s) (l.map item) := by
  induction l with
  | nil =>
    intro s _
    simp [pure, Except.pure]
  | cons a l ih =>
    exact (h a mem_cons_self).cons (ih fun b hb => h b (mem_cons_of_mem a hb))

/-- Two functions one after the other. -/
lemma Appends.append {ys : List Item} (hf : Appends xs.length f xs) (hg : Appends ys.length g ys) :
    Appends (xs ++ ys).length (fun s => (f s).bind g) (xs ++ ys) := by
  intro s hroom
  rw [length_append] at hroom ⊢
  change (f s).bind g = _
  rw [hf s (hroom.mono (by omega)), hg.bind le_rfl hroom, Rlp.encodeList_append]

/-- Opening a list and giving it all its items writes the list. -/
lemma Appends.appendList_bind (h : Appends xs.length g xs) (hx : (encodeList xs).length < 2 ^ 64)
    (s : RLPStream) :
    (s.appendList xs.length).bind g =
      (s.push (Rlp.frame .list (encodeList xs))).noteAppended 1 := by
  rcases Nat.eq_zero_or_pos xs.length with h0 | hpos
  · obtain rfl := List.length_eq_zero_iff.mp h0
    rw [length_nil, appendList_zero, Rlp.encodeList_nil]
    cases hs : (s.push (Rlp.frame .list [])).noteAppended 1 with
    | error e => rfl
    | ok s' =>
      change g s' = _
      rw [h s' (room_zero s')]
      simp
  · rw [appendList_of_pos s hpos]
    change g _ = _
    rw [h _ (fun f p st e => by simp_all), noteAppended_opened s hpos hx]

lemma Appends.opened (h : Appends xs.length g xs) (hx : (encodeList xs).length < 2 ^ 64) :
    Appends 1 (fun s => (s.appendList xs.length).bind g) [.list xs] := by
  intro s _
  rw [Rlp.encodeList_cons, Rlp.encodeList_nil, append_nil, Rlp.encode_list]
  exact h.appendList_bind hx s

lemma appends_append {d : Bytes} (hd : d.length < 2 ^ 64) :
    Appends 1 (fun s => s.append d) [.data d] := by
  intro s _
  simp only [append_eq s hd, Rlp.encodeList_cons, Rlp.encodeList_nil, append_nil,
    Rlp.encode_data]
  rfl

lemma appends_appendInt {i : ℕ} (hi : (BigEndian.bytes i).length < 2 ^ 64) :
    Appends 1 (fun s => s.appendInt i) [.data (BigEndian.bytes i)] := by
  intro s _
  simp only [appendInt_eq s hi, Rlp.encodeList_cons, Rlp.encodeList_nil, append_nil,
    Rlp.encode_data]
  rfl

lemma appends_appendRaw (x : Item) : Appends 1 (fun s => s.appendRaw (encode x) 1) [x] := by
  intro s _
  rw [Rlp.encodeList_cons, Rlp.encodeList_nil, append_nil]
  rfl

/-- Items whose number is known, followed by raw items, which need not be trees. -/
lemma noteAppended_foldlM_appendRaw {k : ℕ} (l : List Bytes) (hroom : s.Room (k + l.length)) :
    ((s.push x).noteAppended k).bind (fun s => l.foldlM (fun s y => s.appendRaw y 1) s) =
      (s.push (x ++ l.flatten)).noteAppended (k + l.length) := by
  induction l generalizing x k with
  | nil => cases h : (s.push x).noteAppended k <;> simp [Except.bind, h, pure, Except.pure]
  | cons y l ih =>
    rw [length_cons, Nat.add_comm l.length, ← Nat.add_assoc] at hroom ⊢
    rw [flatten_cons, ← append_assoc, ← ih hroom,
      ← noteAppended_bind (hroom.mono (Nat.le_add_right _ _)) (by simp)]
    cases (s.push x).noteAppended k <;> rfl

/-- A function that appends trees leaves their encodings on a stream of its own. -/
lemma Appends.run_empty (h : Appends n g xs) : g {} = .ok ⟨encodeList xs, []⟩ := by
  rw [h {} (fun f p st e => by simp at e)]
  simp only [push, noteAppended, noteAppendedLoop, nil_append]
  split <;> rfl

/-- A list of trees followed by raw items. -/
lemma Appends.exists_appendList_raw (h : Appends xs.length g xs) (l : List Bytes)
    (hpos : 0 < xs.length + l.length) (hsize : (encodeList xs ++ l.flatten).length < 2 ^ 64) :
    ∃ s s', appendList {} (xs.length + l.length) = .ok s ∧ g s = .ok s' ∧
      l.foldlM (fun s y => s.appendRaw y 1) s' =
        .ok ⟨Rlp.frame .list (encodeList xs ++ l.flatten), []⟩ := by
  have hroom : RLPStream.Room ⟨[], [(xs.length + l.length, 0)]⟩ (xs.length + l.length) := by
    intro f p st e
    simp only [List.cons.injEq, Prod.mk.injEq] at e
    omega
  have hall := noteAppended_foldlM_appendRaw (x := encodeList xs) l hroom
  have hclose := noteAppended_opened {} hpos hsize
  have hone : ∀ y, (push {} y).noteAppended 1 = .ok ⟨y, []⟩ := fun y => rfl
  rw [hone] at hclose
  obtain ⟨s', hs', hlast⟩ := RLP.bind_eq_ok_iff.mp (hall.trans hclose)
  exact ⟨_, s', appendList_of_pos _ hpos,
    (h _ (hroom.mono (Nat.le_add_right _ _))).trans hs', hlast⟩

/-! ### A list that is written item by item -/

/-- The stream that was opened with a list of `n` items and has got the items `xs`. -/
def listSoFar (n : ℕ) (xs : List Item) : RLPStream :=
  if xs.length < n then ⟨encodeList xs, [(n - xs.length, 0)]⟩ else ⟨encode (.list xs), []⟩

lemma appendList_listSoFar (hn : 0 < n) : appendList {} n = .ok (listSoFar n []) := by
  rw [appendList_of_pos _ hn, listSoFar, if_pos (by simpa using hn)]
  simp

/-- One more item. -/
lemma Appends.listSoFar {x : Item} (h : Appends 1 g [x]) (hlen : xs.length < n)
    (hsize : (encodeList (xs ++ [x])).length < 2 ^ 64) :
    g (listSoFar n xs) = .ok (listSoFar n (xs ++ [x])) := by
  have hroom : (RLPStream.listSoFar n xs).Room 1 := by
    intro f p st e
    rw [RLPStream.listSoFar, if_pos hlen] at e
    simp only [List.cons.injEq, Prod.mk.injEq] at e
    omega
  rw [h _ hroom, RLPStream.listSoFar, if_pos hlen]
  simp only [push, noteAppended, length_singleton, Nat.one_ne_zero, if_false,
    noteAppendedLoop]
  rw [if_neg (by omega)]
  have hpush : encodeList xs ++ encodeList [x] = encodeList (xs ++ [x]) := by simp
  rw [hpush]
  by_cases hlast : xs.length + 1 = n
  · have hclose := closeList_eq [] _ hsize
    rw [nil_append, nil_append, length_nil] at hclose
    rw [if_neg (by omega), hclose, RLPStream.listSoFar, if_neg (by simp; omega), Rlp.encode_list]
    rfl
  · rw [if_pos (by omega), RLPStream.listSoFar, if_pos (by simp; omega)]
    simp only [length_append, length_singleton, Nat.sub_sub]

lemma out_listSoFar (xs : List Item) : (listSoFar xs.length xs).out = .ok (encode (.list xs)) := by
  rw [listSoFar, if_neg (lt_irrefl _)]
  rfl

/-- The stream that was opened with the list `xs` and has got its first `i` items. -/
def upTo (xs : List Item) (i : ℕ) : RLPStream := listSoFar xs.length (xs.take i)

lemma appendList_upTo (hx : xs ≠ []) : appendList {} xs.length = .ok (upTo xs 0) :=
  appendList_listSoFar (List.length_pos_iff.mpr hx)

/-- The next item. -/
lemma Appends.upTo {x : Item} {ys : List Item} {i : ℕ} (h : Appends 1 g [x])
    (hx : xs.drop i = x :: ys) (hsize : (encodeList xs).length < 2 ^ 64) :
    g (upTo xs i) = .ok (upTo xs (i + 1)) := by
  have hi : i < xs.length := by
    by_contra hle
    rw [drop_of_length_le (by omega)] at hx
    simp at hx
  have htake : xs.take (i + 1) = xs.take i ++ [x] := by
    rw [drop_eq_getElem_cons hi, List.cons.injEq] at hx
    rw [take_succ_eq_append_getElem hi, hx.1]
  have hlen : (encodeList (xs.take i ++ [x])).length < 2 ^ 64 := by
    rw [← take_append_drop (i + 1) xs, Rlp.encodeList_append, length_append,
      htake] at hsize
    omega
  rw [RLPStream.upTo, RLPStream.upTo, htake]
  exact h.listSoFar (by rw [length_take]; omega) hlen

lemma out_upTo (xs : List Item) : (upTo xs xs.length).out = .ok (encode (.list xs)) := by
  rw [upTo, take_length, out_listSoFar]

end RLPStream

end Tos
