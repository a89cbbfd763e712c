import Tos.Rlp.Writer
import Tos.Rlp.Canonical

/-!
# The writer meets the textbook definition

A tree can be written to an `RLPStream` in many ways: a list is opened with
`appendList(size_t)` and followed by its items, or its items are encoded on a stream of
their own and handed over as one piece by `appendList(bytes)`, or a run of items that has
been encoded elsewhere is put in with `appendRaw` and its item count. A `Plan` fixes one such
way for a sequence of trees; every mixture is a plan.

## Main results

* `Plan.writes_textbookCalls`: a plan appends the encodings of its trees and counts them.
* `Plan.run_take`: the state of the stream after any number of calls.
* `Plan.out_eq_encode`: a plan for one tree leaves the textbook encoding in `out()`, and
  on the way `out()` throws exactly while a list is incomplete.
* `Plan.reads_back`: the reader gives the tree for it.

## Implementation notes

The invariant is in the shape of the results: a run of calls has the same effect as pushing
the encodings of the trees completed so far and one `noteAppended` with their number. Two
such effects compose (`RLPStream.noteAppended_bind`) because a list with room for both runs
cannot be closed by the first one.
-/

namespace Tos

open Rlp (Item encode encodeList encodeList_cons encode_list)
open List (length_append length_cons take_succ_cons)

namespace RLPStream

/-- A call of one of the writing operations. -/
inductive Call where
  | append (b : Bytes)
  | appendList (items : ℕ)
  | appendListOf (rlp : Bytes)
  | appendRaw (rlp : Bytes) (itemCount : ℕ)
  deriving Repr

/-- The effect of a call. -/
def call (s : RLPStream) : Call → Except RlpError RLPStream
  | .append b => s.append b
  | .appendList n => s.appendList n
  | .appendListOf b => s.appendListOf b
  | .appendRaw b n => s.appendRaw b n

/-- Calls made one after the other, up to the first exception. -/
def run (s : RLPStream) : List Call → Except RlpError RLPStream
  | [] => .ok s
  | c :: cs => (s.call c).bind fun s => s.run cs

lemma run_singleton (s : RLPStream) (c : Call) : s.run [c] = s.call c := by
  simp only [run]
  cases s.call c <;> rfl

lemma run_append (s : RLPStream) (cs ds : List Call) :
    s.run (cs ++ ds) = (s.run cs).bind fun s => s.run ds := by
  induction cs generalizing s with
  | nil => rfl
  | cons c cs ih =>
    simp only [List.cons_append, run]
    cases s.call c with
    | error e => rfl
    | ok s' => exact ih s'

end RLPStream

/-- A way to write a sequence of trees. -/
inductive Plan where
  /-- Nothing is left to write. -/
  | done
  /-- Write a byte string with `append`. -/
  | data (b : Bytes) (rest : Plan)
  /-- Open a list with `appendList(size_t)` and write its items to the same stream. -/
  | opened (items rest : Plan)
  /-- Encode the items of a list on another stream and pass them to `appendList(bytes)`. -/
  | sealed (items rest : Plan)
  /-- Encode some trees on another stream and pass them to `appendRaw`. -/
  | raw (items rest : Plan)

namespace Plan

/-- The trees a plan writes. -/
def items : Plan → List Item
  | done => []
  | data b rest => .data b :: rest.items
  | opened is rest => .list is.items :: rest.items
  | sealed is rest => .list is.items :: rest.items
  | raw is rest => is.items ++ rest.items

/-- The calls a plan makes. What is encoded on another stream is what that stream's `out()`
gives, so a plan throws when one of these streams does. -/
def calls : Plan → Except RlpError (List RLPStream.Call)
  | done => .ok []
  | data b rest => do
    let cs ← rest.calls
    return .append b :: cs
  | opened is rest => do
    let inner ← is.calls
    let cs ← rest.calls
    return .appendList is.items.length :: (inner ++ cs)
  | sealed is rest => do
    let inner ← is.calls
    let other ← RLPStream.run {} inner
    let rlp ← other.out
    let cs ← rest.calls
    return .appendListOf rlp :: cs
  | raw is rest => do
    let inner ← is.calls
    let other ← RLPStream.run {} inner
    let rlp ← other.out
    let cs ← rest.calls
    return .appendRaw rlp is.items.length :: cs

/-- The number of calls of a plan. -/
def size : Plan → ℕ
  | done => 0
  | data _ rest => rest.size + 1
  | opened is rest => is.size + rest.size + 1
  | sealed _ rest => rest.size + 1
  | raw _ rest => rest.size + 1

/-- The number of trees of a plan that are completely written after its first `m` calls. -/
def received : Plan → ℕ → ℕ
  | done, _ => 0
  | _, 0 => 0
  | data _ rest, m + 1 => 1 + rest.received m
  | opened is rest, m + 1 =>
    if is.received m < is.items.length then 0 else 1 + rest.received (m - is.size)
  | sealed _ rest, m + 1 => 1 + rest.received m
  | raw is rest, m + 1 => is.items.length + rest.received m

/-- After the first `m` calls of a plan some list that has been opened has not received all
its items. A list inside an incomplete one need not be looked at: as long as it is
incomplete itself, it is an item the outer list has not received. -/
def Incomplete : Plan → ℕ → Prop
  | done, _ => False
  | _, 0 => False
  | data _ rest, m + 1 => rest.Incomplete m
  | opened is rest, m + 1 =>
    is.received m < is.items.length ∨ rest.Incomplete (m - is.size)
  | sealed _ rest, m + 1 => rest.Incomplete m
  | raw _ rest, m + 1 => rest.Incomplete m

/-- The calls of a plan, with the textbook encodings in place of the other streams' output. -/
def textbookCalls : Plan → List RLPStream.Call
  | done => []
  | data b rest => .append b :: rest.textbookCalls
  | opened is rest => .appendList is.items.length :: (is.textbookCalls ++ rest.textbookCalls)
  | sealed is rest => .appendListOf (encodeList is.items) :: rest.textbookCalls
  | raw is rest => .appendRaw (encodeList is.items) is.items.length :: rest.textbookCalls

@[simp] lemma length_textbookCalls (p : Plan) : p.textbookCalls.length = p.size := by
  induction p <;> simp_all [textbookCalls, size]

open RLPStream

/-- On every stream whose innermost list has room for `n` items, the calls `cs` append the
encoding of `xs` and count it. -/
def Writes (n : ℕ) (cs : List Call) (xs : List Item) : Prop :=
  ∀ s : RLPStream, s.Room n → s.run cs = (s.push (encodeList xs)).noteAppended xs.length

lemma Writes.appends {n : ℕ} {cs : List Call} {xs : List Item} (h : Writes n cs xs) :
    Appends n (fun s => s.run cs) xs := h

/-- On every stream whose innermost list has room for `n` items, the calls `cs` succeed and
leave a list open. -/
def LeavesOpen (n : ℕ) (cs : List Call) : Prop :=
  ∀ s : RLPStream, s.Room n → ∃ s', s.run cs = .ok s' ∧ s'.m_listStack ≠ []

/-- Items that leave room for another one, followed by calls that leave a list open. -/
lemma LeavesOpen.bind {n : ℕ} {cs : List Call} (h : LeavesOpen n cs) (hn : 0 < n) {s : RLPStream}
    {x : Bytes} {k : ℕ} (hroom : s.Room (k + n)) :
    ∃ s', ((s.push x).noteAppended k).bind (fun s => s.run cs) = .ok s' ∧
      s'.m_listStack ≠ [] := by
  have hk : (s.push x).noteAppended k = .ok ((s.push x).count k) :=
    noteAppended_of_room fun f p st e => le_trans (by omega) (hroom f p st e)
  rw [hk]
  exact h _ (hroom.of_noteAppended hk)

/-- A list that has received some but not all of its items stays open. -/
lemma Writes.leavesOpen {n : ℕ} {cs : List Call} {xs : List Item} (h : Writes n cs xs)
    (hn : xs.length < n) (s : RLPStream) :
    ∃ s', (s.call (.appendList n)).bind (fun s => s.run cs) = .ok s' ∧ s'.m_listStack ≠ [] := by
  rw [call, appendList_of_pos s (by omega)]
  change ∃ s', RLPStream.run _ cs = .ok s' ∧ _
  refine ⟨_, (h _ fun f p st e => by simp_all).trans
    (noteAppended_of_room fun f p st e => ?_), by simp [count, push]⟩
  simp only [push_m_listStack, List.cons.injEq, Prod.mk.injEq] at e
  omega

/-- Calls that append some trees, before calls that append others. -/
lemma Writes.append {n : ℕ} {cs ds : List Call} {xs ys : List Item} (h : Writes ys.length cs ys)
    (hds : Writes n ds xs) (hn : xs.length ≤ n) :
    Writes (ys.length + n) (cs ++ ds) (ys ++ xs) := by
  intro s hroom
  rw [run_append, h s (hroom.mono (by omega)), hds.appends.bind hn hroom,
    Rlp.encodeList_append, length_append]

/-- A list that is opened and gets all its items. -/
lemma Writes.opened {cs : List Call} {xs : List Item} (h : Writes xs.length cs xs)
    (hx : (encodeList xs).length < 2 ^ 64) :
    Writes [Item.list xs].length (.appendList xs.length :: cs) [.list xs] :=
  h.appends.opened hx

lemma writes_append {b : Bytes} (hb : b.length < 2 ^ 64) :
    Writes [Item.data b].length [.append b] [.data b] := by
  intro s hroom
  rw [run_singleton]
  exact appends_append hb s hroom

lemma writes_appendListOf {xs : List Item} (hx : (encodeList xs).length < 2 ^ 64) :
    Writes [Item.list xs].length [.appendListOf (encodeList xs)] [.list xs] := by
  intro s _
  rw [run_singleton, call, appendListOf_eq s hx]
  simp

lemma writes_appendRaw (xs : List Item) :
    Writes xs.length [.appendRaw (encodeList xs) xs.length] xs := by
  intro s _
  rw [run_singleton]
  rfl

/-- The calls `cs` append the encoding of `xs`, unless they leave a list open. -/
def Reaches (n : ℕ) (cs : List Call) (xs : List Item) (isOpen : Prop) : Prop :=
  (¬ isOpen → Writes n cs xs) ∧ (isOpen → LeavesOpen n cs)

/-- Calls that append some trees, before the first calls of those that append others. -/
lemma Writes.reaches {cs ds : List Call} {xs ys : List Item} {k : ℕ} {isOpen : Prop}
    (h : Writes ys.length cs ys) (hds : Reaches xs.length ds (xs.take k) isOpen)
    (hpos : isOpen → 0 < xs.length) :
    Reaches (ys ++ xs).length (cs ++ ds) ((ys ++ xs).take (ys.length + k)) isOpen := by
  rw [length_append, List.take_length_add_append]
  refine ⟨fun hi => h.append (hds.1 hi) (by simp), fun hi s hroom => ?_⟩
  rw [run_append, h s (hroom.mono (by omega))]
  exact (hds.2 hi).bind (hpos hi) hroom

/-- The payload of a list that fits in a stream fits. -/
private lemma length_encodeList_lt {xs ys : List Item}
    (h : (encodeList (.list xs :: ys)).length < 2 ^ 64) : (encodeList xs).length < 2 ^ 64 := by
  have := Rlp.length_le_length_frame .list (encodeList xs)
  simp only [encodeList_cons, encode_list, length_append] at h
  omega

/-! ### The effect of the first calls -/

@[simp] lemma received_zero (p : Plan) : p.received 0 = 0 := by
  cases p <;> rfl

@[simp] lemma not_incomplete_zero (p : Plan) : ¬ p.Incomplete 0 := by
  cases p <;> simp [Incomplete]

/-- Once all calls have been made, all trees are complete. -/
lemma received_of_size_le {p : Plan} {m : ℕ} (h : p.size ≤ m) : p.received m = p.items.length := by
  induction p generalizing m with
  | done => rfl
  | data b rest ih =>
    simp only [size] at h
    obtain _ | m := m
    · omega
    simp [received, items, ih (show rest.size ≤ m by omega), Nat.add_comm]
  | opened is rest ihi ihr =>
    simp only [size] at h
    obtain _ | m := m
    · omega
    simp [received, items, ihi (show is.size ≤ m by omega),
      ihr (show rest.size ≤ m - is.size by omega), Nat.add_comm]
  | sealed is rest _ ih =>
    simp only [size] at h
    obtain _ | m := m
    · omega
    simp [received, items, ih (show rest.size ≤ m by omega), Nat.add_comm]
  | raw is rest _ ih =>
    simp only [size] at h
    obtain _ | m := m
    · omega
    simp [received, items, ih (show rest.size ≤ m by omega)]

/-- No more trees are complete than the plan has. -/
lemma received_le (p : Plan) (m : ℕ) : p.received m ≤ p.items.length := by
  induction p generalizing m with
  | done => simp [received]
  | data b rest ih =>
    cases m with
    | zero => simp
    | succ m => simpa [received, items, Nat.add_comm] using ih m
  | opened is rest _ ihr =>
    cases m with
    | zero => simp
    | succ m =>
      have := ihr (m - is.size)
      simp only [received, items, length_cons]
      split <;> omega
  | sealed is rest _ ih =>
    cases m with
    | zero => simp
    | succ m => simpa [received, items, Nat.add_comm] using ih m
  | raw is rest _ ih =>
    cases m with
    | zero => simp
    | succ m => simpa [received, items] using ih m

/-- While a list is incomplete, the tree it belongs to is still to come. -/
lemma Incomplete.received_lt {p : Plan} {m : ℕ} (h : p.Incomplete m) :
    p.received m < p.items.length := by
  induction p generalizing m with
  | done => exact absurd h (by simp [Incomplete])
  | data b rest ih =>
    cases m with
    | zero => exact absurd h (not_incomplete_zero _)
    | succ m => simpa [received, items, Nat.add_comm] using ih (m := m) h
  | opened is rest _ ihr =>
    cases m with
    | zero => exact absurd h (not_incomplete_zero _)
    | succ m =>
      simp only [received, items, length_cons]
      split_ifs with hi
      · omega
      · have := ihr (h.resolve_left hi)
        omega
  | sealed is rest _ ih =>
    cases m with
    | zero => exact absurd h (not_incomplete_zero _)
    | succ m => simpa [received, items, Nat.add_comm] using ih (m := m) h
  | raw is rest _ ih =>
    cases m with
    | zero => exact absurd h (not_incomplete_zero _)
    | succ m => simpa [received, items] using ih (m := m) h

/-- **After any number of calls** of a plan: if no list is incomplete, the stream has the trees
completed so far and has counted them; if some list is, the stream has it open.

**Proof sketch.** Induction on the plan, for every number of calls. A single call is its own
specification followed by the induction hypothesis. For an opened list there are two cases.
If it has received all its items, it has been closed and counts as one tree. If it has not,
the calls that follow it have not been reached; either a list inside it is open, or its own
count has not come down to zero. -/
theorem run_take (p : Plan) (hp : (encodeList p.items).length < 2 ^ 64) (m : ℕ) :
    Reaches p.items.length (p.textbookCalls.take m) (p.items.take (p.received m))
      (p.Incomplete m) := by
  have hpos : ∀ {p : Plan} {m : ℕ}, p.Incomplete m → 0 < p.items.length :=
    fun h => Nat.zero_lt_of_lt h.received_lt
  have base : ∀ p : Plan, Reaches p.items.length (p.textbookCalls.take 0)
      (p.items.take (p.received 0)) (p.Incomplete 0) := by
    intro p
    refine ⟨fun _ s _ => ?_, fun h => absurd h (not_incomplete_zero p)⟩
    simp [run]
  induction p generalizing m with
  | done =>
    refine ⟨fun _ s _ => ?_, fun h => absurd h (by simp [Incomplete])⟩
    simp [textbookCalls, run, items]
  | data b rest ih =>
    cases m with
    | zero => exact base _
    | succ m =>
      simp only [items, encodeList_cons, Rlp.encode_data, length_append] at hp
      have := Rlp.length_le_length_frame .data b
      exact (writes_append (b := b) (by omega)).reaches (ih (by omega) m) fun h => hpos h
  | opened is rest ihi ihr =>
    cases m with
    | zero => exact base _
    | succ m =>
      have his := length_encodeList_lt hp
      simp only [items, encodeList_cons, encode_list, length_append] at hp
      have htake : (opened is rest).textbookCalls.take (m + 1) = (.appendList is.items.length ::
          is.textbookCalls.take m) ++ rest.textbookCalls.take (m - is.size) := by
        simp [textbookCalls, List.take_append]
      simp only [htake, items, received, Incomplete]
      by_cases hc : is.received m < is.items.length
      · -- the calls after the list have not been reached
        have hm : m - is.size = 0 := by
          by_contra hne
          exact absurd (received_of_size_le (p := is) (m := m) (by omega)) (by omega)
        refine ⟨fun h => absurd (Or.inl hc) h, fun _ s hroom => ?_⟩
        rw [hm, List.take_zero, List.append_nil]
        by_cases hin : is.Incomplete m
        · rw [run, call, appendList_of_pos s (by omega)]
          exact (ihi his m).2 hin _ fun f p st e => by simp_all
        · exact ((ihi his m).1 hin).leavesOpen (by simp; omega) s
      · have hall : is.received m = is.items.length := by
          have := received_le is m
          omega
        have hw : Writes is.items.length (is.textbookCalls.take m) is.items := by
          have := (ihi his m).1 fun h => hc h.received_lt
          rwa [hall, List.take_length] at this
        rw [if_neg hc, or_iff_right hc]
        exact (hw.opened his).reaches (ihr (by omega) _) fun h => hpos h
  | sealed is rest _ ih =>
    cases m with
    | zero => exact base _
    | succ m =>
      have his := length_encodeList_lt hp
      simp only [items, encodeList_cons, encode_list, length_append] at hp
      exact (writes_appendListOf his).reaches (ih (by omega) m) fun h => hpos h
  | raw is rest _ ih =>
    cases m with
    | zero => exact base _
    | succ m =>
      simp only [items, Rlp.encodeList_append, length_append] at hp
      exact (writes_appendRaw _).reaches (ih (by omega) m) fun h => hpos h

/-! ### The effect of a whole plan -/

/-- The calls of a plan append the encodings of its trees and count them. -/
theorem writes_textbookCalls (p : Plan) (hp : (encodeList p.items).length < 2 ^ 64) :
    Writes p.items.length p.textbookCalls p.items := by
  have hall := received_of_size_le (le_refl p.size)
  have := (run_take p hp p.size).1 fun h => absurd h.received_lt (by omega)
  rwa [hall, List.take_length, ← length_textbookCalls, List.take_length] at this

/-- On a stream of its own a plan leaves the encodings of its trees. -/
lemma run_empty_textbookCalls (p : Plan) (hp : (encodeList p.items).length < 2 ^ 64) :
    RLPStream.run {} p.textbookCalls = .ok ⟨encodeList p.items, []⟩ :=
  (writes_textbookCalls p hp).appends.run_empty

/-- The streams a plan uses on the side give the textbook encodings. -/
theorem calls_eq (p : Plan) (hp : (encodeList p.items).length < 2 ^ 64) :
    p.calls = .ok p.textbookCalls := by
  induction p with
  | done => rfl
  | data b rest ih =>
    simp only [items, encodeList_cons, length_append] at hp
    rw [calls, ih (by omega)]
    rfl
  | opened is rest ihi ihr =>
    have his := length_encodeList_lt hp
    simp only [items, encodeList_cons, length_append] at hp
    rw [calls, ihi his, ihr (by omega)]
    rfl
  | sealed is rest ihi ihr =>
    have his := length_encodeList_lt hp
    simp only [items, encodeList_cons, length_append] at hp
    rw [calls, ihi his, ihr (by omega)]
    simp only [bind, Except.bind, run_empty_textbookCalls is his, out]
    rfl
  | raw is rest ihi ihr =>
    simp only [items, Rlp.encodeList_append, length_append] at hp
    rw [calls, ihi (by omega), ihr (by omega)]
    simp only [bind, Except.bind, run_empty_textbookCalls is (by omega), out]
    rfl

/-- **The writer meets the recursive definition.** However a tree is written, every call
succeeds and `out()` is the textbook encoding of the tree; and after any number of the calls
`out()` throws exactly when some list that has been opened has not received all its items. -/
theorem out_eq_encode (p : Plan) (t : Item) (ht : p.items = [t])
    (hlen : (encode t).length < 2 ^ 64) :
    ∃ cs, p.calls = .ok cs ∧
      (∃ s, RLPStream.run {} cs = .ok s ∧ s.out = .ok (encode t)) ∧
      ∀ m ≤ cs.length, ∃ s, RLPStream.run {} (cs.take m) = .ok s ∧
        ((∃ e, s.out = .error e) ↔ p.Incomplete m) := by
  have hp : (encodeList p.items).length < 2 ^ 64 := by simpa [ht] using hlen
  have hroom : RLPStream.Room {} p.items.length := fun f q st e => by simp at e
  refine ⟨p.textbookCalls, calls_eq p hp, ⟨_, run_empty_textbookCalls p hp, ?_⟩, fun m _ => ?_⟩
  · simp [out, ht]
  · by_cases hi : p.Incomplete m
    · obtain ⟨s, hs, hne⟩ := (run_take p hp m).2 hi {} hroom
      exact ⟨s, hs, by simp [out, hne, hi]⟩
    · refine ⟨_, ((run_take p hp m).1 hi {} hroom).trans
        (noteAppended_of_room fun f q st e => by simp at e), ?_⟩
      simp [out, hi, count, push]

/-- A list of four items, the second one written as a whole and the last two copied in. -/
theorem out_eq_encode_mixed :
    ∃ p : Plan, p.items = [.list [.data [1], .list [.data [2, 3]], .data [0x80], .list []]] ∧
      ∃ cs, p.calls = .ok cs ∧ ∃ s, RLPStream.run {} cs = .ok s ∧ s.out =
        .ok (encode (.list [.data [1], .list [.data [2, 3]], .data [0x80], .list []])) :=
  let p : Plan := opened (data [1] (sealed (data [2, 3] done)
    (raw (data [0x80] (opened done done)) done))) done
  ⟨p, rfl, by
    obtain ⟨cs, hcs, hs, -⟩ := out_eq_encode p _ rfl (by decide +kernel)
    exact ⟨cs, hcs, hs⟩⟩

/-- **What was written is read back.** However a tree is written, the reader gives it for the
output. -/
theorem reads_back (p : Plan) (t : Item) (ht : p.items = [t])
    (hlen : (encode t).length < 2 ^ 64 - 0x100) :
    ∃ cs s b, p.calls = .ok cs ∧ RLPStream.run {} cs = .ok s ∧ s.out = .ok b ∧
      ∀ fuel ≥ 2 * b.length, RLP.traverse b fuel (.ofBuffer b) = .ok t := by
  have hp : (encodeList p.items).length < 2 ^ 64 := by
    simp only [ht, encodeList_cons, Rlp.encodeList_nil, List.append_nil]
    omega
  refine ⟨_, _, encode t, calls_eq p hp, run_empty_textbookCalls p hp, by simp [out, ht],
    fun fuel hfuel => ?_⟩
  have hread := @RLP.traverse_spec (encode t) _ le_rfl fuel 0 (encode t)
    (by norm_num [RLP.maxLength]; omega) (List.ne_nil_of_length_pos (Rlp.length_encode_pos t))
    hfuel ⟨[], by simp⟩
  obtain ⟨t', hread, he⟩ | ⟨e, -, hno⟩ := hread
  · rwa [Rlp.encode_injective_of_lt (by rw [he]; omega) (by omega) he] at hread
  · exact absurd rfl (hno t)

theorem reads_back_sealed : ∃ cs s b, (sealed (data [2, 3] done) done).calls = .ok cs ∧
    RLPStream.run {} cs = .ok s ∧ s.out = .ok b ∧
      ∀ fuel ≥ 2 * b.length, RLP.traverse b fuel (.ofBuffer b) = .ok (.list [.data [2, 3]]) :=
  reads_back _ _ rfl (by decide +kernel)

end Plan

end Tos
