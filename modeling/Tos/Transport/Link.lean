import Mathlib.Data.List.TakeWhile
import Tos.Transport.Net

/-!
# Messages arrive as they were sent

Two nodes and the bytes between them: one node pushes messages and sends what its socket takes,
the other one is given the bytes in chunks. Whatever the socket takes and wherever the bytes are
cut, the messages that are complete on one side are the first ones of those that were pushed on
the other side, and what has been received besides is the beginning of the next one.

## Main results

* `CNode.sendLoop_spec`, `CNode.receiveLoop_spec`: one call on each side.
* `Link.run_lossless`: every run.

## Implementation notes

A state of the receiver is described from the messages that have come and the number of bytes of
the next one, not by how the bytes were cut.
-/

namespace Tos.Net

open List hiding beq_eq_decide
open CMessageHeader (HEADER_SIZE copyCommand ofCommand serialize unserialize)
open CNetMessage (complete readData)

/-- A message that a node may push: the command has at most twelve bytes, none of them zero, and
the data is not larger than what is accepted. -/
structure CSerializedNetMsg.Valid (msg : CSerializedNetMsg) : Prop where
  command_length : msg.command.length ≤ 12
  command_ne_zero : ∀ b ∈ msg.command, b ≠ 0
  data_length : msg.data.length ≤ MAX_PROTOCOL_MESSAGE_LENGTH

/-- The bytes of a message on the wire. -/
def CSerializedNetMsg.wire (P : Params) (msg : CSerializedNetMsg) : Bytes :=
  (CNode.header P msg).serialize ++ msg.data

/-! ### Sending -/

/-- The queue from the buffer `it` on is consistent with the counters of the node. -/
structure Sending (l : List Bytes) (node : CNode) : Prop where
  nSendSize : node.nSendSize = (l.map List.length).sum
  ne_nil : ∀ data ∈ l, data ≠ []
  nSendOffset : ∀ data ∈ l.head?, node.nSendOffset < data.length
  nSendOffset_nil : l = [] → node.nSendOffset = 0

/-- The bytes of the queue that have not been sent. -/
def unsent (l : List Bytes) (node : CNode) : Bytes := l.flatten.drop node.nSendOffset

lemma unsent_cons {data : Bytes} {rest : List Bytes} {node : CNode}
    (h : node.nSendOffset ≤ data.length) :
    unsent (data :: rest) node = data.drop node.nSendOffset ++ rest.flatten := by
  rw [unsent, flatten_cons, drop_append_of_le_length h]

namespace CNode

/-- **The loop of `SocketSendData`.** No assertion fails, and what the socket takes is the front of
what has not been sent. -/
theorem sendLoop_spec (maxSize : ℕ) (now : ℤ) {l : List Bytes} (outcomes : List SendOutcome)
    (node : CNode) (h : Sending l node) :
    ∃ left node' out, sendLoop maxSize now l outcomes node = .ok (left, node', out) ∧
      Sending left node' ∧ unsent l node = out ++ unsent left node' := by
  induction l generalizing outcomes node with
  | nil => exact ⟨[], node, [], rfl, h, rfl⟩
  | cons data rest ih =>
    have hoff : node.nSendOffset < data.length := h.nSendOffset data rfl
    rw [sendLoop, if_neg (by simpa using hoff)]
    by_cases hsock : node.hSocket = true
    · rw [if_neg (by simp [hsock])]
      cases outcomes.headD .wouldBlock with
      | wouldBlock => exact ⟨_, _, _, rfl, h, rfl⟩
      | failed => exact ⟨_, _, _, rfl, ⟨h.1, h.2, h.3, h.4⟩, rfl⟩
      | sent n =>
        dsimp only
        split_ifs with hpos hfull
        · -- the buffer has been sent to its end
          have hsum : node.nSendSize - data.length = (rest.map List.length).sum := by
            rw [h.nSendSize, map_cons, sum_cons, Nat.add_sub_cancel_left]
          have hrest : ∀ x ∈ rest, x ≠ [] := fun x hx => h.ne_nil x (mem_cons_of_mem _ hx)
          obtain ⟨left, node', out, hloop, hsending, hunsent⟩ := ih outcomes.tail
            { node with
              nLastSend := now
              nSendBytes := (node.nSendBytes + min n (data.length - node.nSendOffset)) % 2 ^ 64
              nSendOffset := 0
              nSendSize := node.nSendSize - data.length
              fPauseSend := node.nSendSize - data.length > maxSize }
            ⟨hsum, hrest, fun x hx => length_pos_iff.mpr (hrest x (mem_of_mem_head? hx)),
              fun _ => rfl⟩
          refine ⟨left, node', _, by rw [hloop]; rfl, hsending, ?_⟩
          have htaken : (data.drop node.nSendOffset).take (min n (data.length - node.nSendOffset)) =
              data.drop node.nSendOffset := by
            apply take_of_length_le
            rw [length_drop]
            omega
          rw [htaken, append_assoc, ← hunsent, unsent_cons hoff.le, unsent, drop_zero]
        · refine ⟨_, _, _, rfl, ⟨h.1, h.2, ?_, by simp⟩, ?_⟩
          · intro x hx
            obtain rfl : data = x := Option.some.inj hx
            dsimp only at hfull ⊢
            omega
          · rw [unsent_cons hoff.le, unsent_cons (by dsimp only; omega), ← append_assoc]
            dsimp only
            rw [← drop_drop, take_append_drop]
        · exact ⟨_, _, _, rfl, h, rfl⟩
    · rw [if_pos (by simpa using hsock)]
      exact ⟨_, _, _, rfl, h, rfl⟩

/-- **`SocketSendData`.** -/
theorem socketSendData_spec (maxSize : ℕ) (now : ℤ) (outcomes : List SendOutcome) {node : CNode}
    (h : Sending node.vSendMsg node) :
    ∃ node' out, socketSendData maxSize now outcomes node = .ok (node', out) ∧
      Sending node'.vSendMsg node' ∧
      unsent node.vSendMsg node = out ++ unsent node'.vSendMsg node' := by
  obtain ⟨left, node', out, hloop, hsending, hunsent⟩ := sendLoop_spec maxSize now outcomes node h
  have hoffset : ¬ (left = [] ∧ node'.nSendOffset ≠ 0) :=
    fun h => h.2 (hsending.nSendOffset_nil h.1)
  have hsize : ¬ (left = [] ∧ node'.nSendSize ≠ 0) := by
    rintro ⟨rfl, hne⟩
    exact hne hsending.nSendSize
  refine ⟨{ node' with vSendMsg := left }, out, ?_,
    ⟨hsending.1, hsending.2, hsending.3, hsending.4⟩,
    hunsent⟩
  simp only [socketSendData, hloop, bind, Except.bind, if_neg hoffset, if_neg hsize]
  rfl

lemma length_copyCommand (command : Bytes) : (copyCommand command).length = 12 := by
  simp only [copyCommand, length_append, length_replicate,
    length_take]
  omega

lemma length_header (P : Params) (msg : CSerializedNetMsg) :
    (header P msg).serialize.length = 24 := by
  simp [serialize, header, ofCommand, P.length_messageStart,
    length_copyCommand, le32, P.length_hash]

/-- The queue with one more message. -/
lemma sending_queueMessage (P : Params) (maxSize : ℕ) (msg : CSerializedNetMsg) {node : CNode}
    (h : Sending node.vSendMsg node) :
    Sending (queueMessage P maxSize msg node).vSendMsg (queueMessage P maxSize msg node) ∧
      unsent (queueMessage P maxSize msg node).vSendMsg (queueMessage P maxSize msg node) =
        unsent node.vSendMsg node ++ msg.wire P := by
  have hlen := length_header P msg
  have hle : node.nSendOffset ≤ node.vSendMsg.flatten.length := by
    cases hl : node.vSendMsg with
    | nil => rw [h.nSendOffset_nil hl]; exact Nat.zero_le _
    | cons data rest =>
      have := h.nSendOffset data (by rw [hl]; rfl)
      rw [flatten_cons, length_append]
      omega
  have hdata : ((header P msg).serialize :: if msg.data.length ≠ 0 then [msg.data]
    else []).flatten =
      msg.wire P := by
    by_cases h0 : msg.data.length = 0
    · simp [CSerializedNetMsg.wire, length_eq_zero_iff.mp h0]
    · simp [CSerializedNetMsg.wire, h0]
  refine ⟨⟨?_, ?_, ?_, by simp [queueMessage]⟩, ?_⟩
  · simp only [queueMessage, map_append, sum_append, h.nSendSize, map_cons,
      sum_cons, hlen, HEADER_SIZE]
    by_cases h0 : msg.data.length = 0
    · simp [h0]
    · simp only [ne_eq, h0, not_false_eq_true, if_true, map_cons, map_nil, sum_cons,
        sum_nil]
      omega
  · intro data hmem
    simp only [queueMessage, mem_append, mem_cons] at hmem
    rcases hmem with hmem | rfl | hmem
    · exact h.ne_nil data hmem
    · exact ne_nil_of_length_pos (by omega)
    · split_ifs at hmem with h0
      · rw [mem_singleton.mp hmem]
        exact ne_nil_of_length_pos (by omega)
      · simp at hmem
  · intro data hmem
    change node.nSendOffset < data.length
    cases hl : node.vSendMsg with
    | nil =>
      simp only [queueMessage, hl, nil_append, List.head?_cons, Option.mem_def,
        Option.some.injEq] at hmem
      rw [h.nSendOffset_nil hl, ← hmem, hlen]
      norm_num
    | cons x rest =>
      refine h.nSendOffset data ?_
      simpa [queueMessage, hl] using hmem
  · simp only [unsent, queueMessage, flatten_append, hdata]
    rw [drop_append_of_le_length hle]

/-- **`PushMessage`.** -/
theorem pushMessage_spec (P : Params) (maxSize : ℕ) (now : ℤ) (outcomes : List SendOutcome)
    (msg : CSerializedNetMsg) {node : CNode} (h : Sending node.vSendMsg node) :
    ∃ node' out, pushMessage P maxSize now outcomes msg node = .ok (node', out) ∧
      Sending node'.vSendMsg node' ∧
      unsent node.vSendMsg node ++ msg.wire P = out ++ unsent node'.vSendMsg node' := by
  obtain ⟨hqueue, hunsent⟩ := sending_queueMessage P maxSize msg h
  rw [← hunsent]
  by_cases hnil : node.vSendMsg = []
  · obtain ⟨node', out, hsend, hsending, heq⟩ := socketSendData_spec maxSize now outcomes hqueue
    exact ⟨node', out, by simp only [pushMessage, hnil, if_true, hsend], hsending, heq⟩
  · exact ⟨_, [], by simp only [pushMessage, hnil, if_false]; rfl, hqueue, rfl⟩

end CNode

/-! ### Receiving -/

variable {more pch tail : Bytes}

section Buffers

lemma length_memcpy {buf src : Bytes} {pos : ℕ} (h : pos + src.length ≤ buf.length) :
    (memcpy buf pos src).length = buf.length := by
  simp only [memcpy, length_append, length_take, length_drop]
  omega

lemma take_memcpy {buf : Bytes} (src : Bytes) {pos : ℕ} (h : pos ≤ buf.length) :
    (memcpy buf pos src).take (pos + src.length) = buf.take pos ++ src := by
  rw [memcpy]
  exact take_left' (by simp only [length_append, length_take]; omega)

variable {n : ℕ}

/-- What is read of a stream when its front is known. -/
lemma take_eq_of_append_eq {pch more x tail : Bytes} (h : pch ++ more = x ++ tail)
    (hn : n ≤ pch.length) (hx : n ≤ x.length) : pch.take n = x.take n := by
  have := congrArg (List.take n) h
  rwa [take_append_of_le_length hn, take_append_of_le_length hx] at this

lemma drop_eq_of_append_eq {pch more x tail : Bytes} (h : pch ++ more = x ++ tail)
    (hn : n ≤ pch.length) (hx : n ≤ x.length) : pch.drop n ++ more = x.drop n ++ tail := by
  have := congrArg (List.drop n) h
  rwa [drop_append_of_le_length hn, drop_append_of_le_length hx] at this

lemma ofLe_le32 (h : n < 2 ^ 32) : ofLe (le32 n) = n := by
  simp only [le32, ofLe, UInt8.toNat_ofNat']
  omega

end Buffers

section Header

variable (P : Params) {m : CSerializedNetMsg}

lemma CSerializedNetMsg.length_wire (m : CSerializedNetMsg) :
    (m.wire P).length = 24 + m.data.length := by
  rw [CSerializedNetMsg.wire, length_append, CNode.length_header]

lemma CSerializedNetMsg.Valid.nMessageSize (h : m.Valid) :
    (CNode.header P m).nMessageSize = m.data.length := by
  have := h.data_length
  rw [MAX_PROTOCOL_MESSAGE_LENGTH] at this
  exact Nat.mod_eq_of_lt (by omega)

/-- A header is read as it was written. -/
lemma unserialize_header (m : CSerializedNetMsg) :
    unserialize (CNode.header P m).serialize = CNode.header P m := by
  have hstart : (CNode.header P m).pchMessageStart.length = 4 := P.length_messageStart
  have hcommand : (CNode.header P m).pchCommand.length = 12 := CNode.length_copyCommand _
  have hchecksum : (CNode.header P m).pchChecksum.length = 4 := by
    simp [CNode.header, P.length_hash]
  have hsize : (CNode.header P m).nMessageSize < 2 ^ 32 := Nat.mod_lt _ (by norm_num)
  generalize CNode.header P m = hdr at *
  obtain ⟨start, command, size, checksum⟩ := hdr
  dsimp only at *
  have hle : (le32 size).length = 4 := rfl
  have e1 : (start ++ command ++ le32 size ++ checksum).take 4 = start := by
    simp [← hstart]
  have e2 : ((start ++ command ++ le32 size ++ checksum).drop 4).take 12 = command := by
    simp [← hstart, ← hcommand]
  have e3 : ((start ++ command ++ le32 size ++ checksum).drop 16).take 4 = le32 size := by
    rw [append_assoc (start ++ command), drop_left' (by simp [hstart, hcommand]),
      take_left' hle]
  have e4 : ((start ++ command ++ le32 size ++ checksum).drop 20).take 4 = checksum := by
    rw [drop_left' (by simp [hstart, hcommand, hle]), take_of_length_le hchecksum.le]
  rw [unserialize, serialize]
  simp only [e1, e2, e3, e4, ofLe_le32 hsize]

/-- The command comes back. -/
lemma getCommand_header (h : m.Valid) : (CNode.header P m).getCommand = m.command := by
  have hall : m.command.takeWhile (· ≠ 0) = m.command :=
    takeWhile_eq_self_iff.mpr fun b hb => by simpa using h.command_ne_zero b hb
  have htake : m.command.take 12 = m.command := take_of_length_le h.command_length
  change (copyCommand m.command).takeWhile (· ≠ 0) = m.command
  rw [copyCommand, hall, htake]
  cases hn : 12 - m.command.length with
  | zero => simpa using hall
  | succ n =>
    rw [replicate_succ, takeWhile_append_of_pos fun b hb => by
      simpa using h.command_ne_zero b hb]
    simp

end Header

/-- A message object after `k` bytes of the message `m`. -/
inductive Absorbed (P : Params) (m : CSerializedNetMsg) : ℕ → CNetMessage → Prop where
  | header {k : ℕ} {msg : CNetMessage} (hk : k < 24) (hin : msg.in_data = false)
      (hpos : msg.nHdrPos = k) (hlen : msg.hdrbuf.length = 24)
      (hbuf : msg.hdrbuf.take k = (CNode.header P m).serialize.take k)
      (hfresh : msg.nDataPos = 0 ∧ msg.vRecv = [] ∧ msg.hasher = [] ∧
        msg.data_hash = List.replicate 32 0) : Absorbed P m k msg
  | data {j : ℕ} {msg : CNetMessage} (hin : msg.in_data = true) (hhdr : msg.hdr = CNode.header P m)
      (hpos : msg.nDataPos = j) (hhash : msg.hasher = m.data.take j)
      (hbuf : msg.vRecv.take j = m.data.take j) (hlow : j ≤ msg.vRecv.length)
      (hhigh : msg.vRecv.length ≤ m.data.length)
      (hfresh : msg.data_hash = List.replicate 32 0) : Absorbed P m (24 + j) msg

namespace Absorbed

variable {P : Params} {m : CSerializedNetMsg} {k : ℕ} {msg : CNetMessage}

lemma new : Absorbed P m 0 (.new P) :=
  .header (by norm_num) rfl rfl rfl rfl ⟨rfl, rfl, rfl, rfl⟩

lemma setTime (h : Absorbed P m k msg) (t : ℤ) : Absorbed P m k { msg with nTime := t } := by
  cases h with
  | header hk hin hpos hlen hbuf hfresh => exact .header hk hin hpos hlen hbuf hfresh
  | data hin hhdr hpos hhash hbuf hlow hhigh hfresh =>
    exact .data hin hhdr hpos hhash hbuf hlow hhigh hfresh

/-- The message is complete when all its bytes have come. -/
lemma complete_eq (hm : m.Valid) (h : Absorbed P m k msg) :
    msg.complete = decide (k = (m.wire P).length) := by
  rw [m.length_wire P]
  cases h with
  | header hk hin hpos hlen hbuf hfresh =>
    simp only [complete, hin, Bool.false_and]
    exact (decide_eq_false (by omega)).symm
  | @data j _ hin hhdr hpos hhash hbuf hlow hhigh hfresh =>
    simp only [complete, hin, hhdr, hm.nMessageSize P, hpos, Bool.true_and,
      beq_eq_decide, decide_eq_decide]
    omega

/-- What a complete message holds. -/
lemma complete_spec (hm : m.Valid) (h : Absorbed P m (m.wire P).length msg) :
    msg.hdr.getCommand = m.command ∧ msg.vRecv = m.data ∧
      msg.hdr.pchChecksum = (msg.getMessageHash P).take 4 := by
  rw [m.length_wire P] at h
  generalize hk : 24 + m.data.length = k at h
  cases h with
  | header hk' => omega
  | @data j _ hin hhdr hpos hhash hbuf hlow hhigh hfresh =>
    obtain rfl : j = m.data.length := by omega
    rw [take_length] at hhash hbuf
    refine ⟨by rw [hhdr, getCommand_header P hm], ?_, ?_⟩
    · rwa [take_of_length_le hhigh] at hbuf
    · rw [CNetMessage.getMessageHash, if_pos hfresh, hhash, hhdr]
      rfl

/-- More bytes of the header. -/
lemma readHeader (hm : m.Valid) (h : Absorbed P m k msg) (hk : k < 24)
    (hpch : pch ≠ []) (hstream : pch ++ more = (m.wire P).drop k ++ tail) :
    ∃ n : ℕ, ∃ msg', msg.readHeader pch = ((n : ℤ), msg') ∧ 0 < n ∧ n ≤ pch.length ∧
      k + n ≤ (m.wire P).length ∧ Absorbed P m (k + n) msg' := by
  have hlen24 := CNode.length_header P m
  have hpos := length_pos_iff.mpr hpch
  cases h with
  | data => omega
  | header _ hin hhpos hlen hbuf hfresh =>
    obtain ⟨n, hn⟩ : ∃ n, n = min (24 - k) pch.length := ⟨_, rfl⟩
    have hwire : ((m.wire P).drop k).take n = ((CNode.header P m).serialize.drop k).take n := by
      rw [CSerializedNetMsg.wire, drop_append_of_le_length (by omega),
        take_append_of_le_length (by rw [length_drop]; omega)]
    have hread : pch.take n = ((CNode.header P m).serialize.drop k).take n := by
      rw [← hwire]
      refine take_eq_of_append_eq hstream (by omega) ?_
      rw [length_drop, m.length_wire P]
      omega
    have htake : (pch.take n).length = n := by
      rw [length_take]
      omega
    have hbuf' : (memcpy msg.hdrbuf k (pch.take n)).take (k + n) =
        (CNode.header P m).serialize.take (k + n) := by
      have hcopy := take_memcpy (pch.take n) (show k ≤ msg.hdrbuf.length by omega)
      rw [htake] at hcopy
      rw [hcopy, hbuf, hread, ← take_add]
    have hbuflen : (memcpy msg.hdrbuf k (pch.take n)).length = 24 := by
      rw [length_memcpy (by omega), hlen]
    have hbounds : 0 < n ∧ n ≤ pch.length ∧ k + n ≤ (m.wire P).length := by
      rw [m.length_wire P]
      omega
    by_cases hpart : k + n < 24
    · refine ⟨n, { msg with hdrbuf := memcpy msg.hdrbuf k (pch.take n), nHdrPos := k + n }, ?_,
        hbounds.1, hbounds.2.1, hbounds.2.2, .header hpart hin rfl hbuflen hbuf' hfresh⟩
      simp only [CNetMessage.readHeader, hhpos, ← hn, if_pos hpart]
    · obtain hfull : k + n = 24 := by omega
      rw [hfull, take_of_length_le hbuflen.le, take_of_length_le hlen24.le] at hbuf'
      have hsize : ¬ (CNode.header P m).nMessageSize > MAX_SIZE := by
        have := hm.data_length
        rw [hm.nMessageSize P, MAX_SIZE]
        rw [MAX_PROTOCOL_MESSAGE_LENGTH] at this
        omega
      refine ⟨n, { msg with
          hdrbuf := [], nHdrPos := k + n, hdr := CNode.header P m, in_data := true }, ?_,
        hbounds.1, hbounds.2.1, hbounds.2.2, ?_⟩
      · simp only [CNetMessage.readHeader, hhpos, ← hn, if_neg hpart, hbuf', unserialize_header P m,
          if_neg hsize]
      · rw [hfull]
        exact .data (j := 0) rfl rfl hfresh.1 hfresh.2.2.1 (by simp) (Nat.zero_le _)
          (by simp [hfresh.2.1]) hfresh.2.2.2

/-- The buffer for the data is large enough for what is copied into it. -/
lemma length_grow {size pos : ℕ} (n : ℕ) {buf : Bytes} (hn : pos + n ≤ size)
    (hbuf : buf.length ≤ size)
    (hpos : pos ≤ buf.length) :
    let buf' := if buf.length < pos + n then resize buf (min size (pos + n + 256 * 1024)) else buf
    pos + n ≤ buf'.length ∧ buf'.length ≤ size ∧ buf'.take pos = buf.take pos := by
  dsimp only
  split_ifs with hlt
  · have hlen : (resize buf (min size (pos + n + 256 * 1024))).length =
        min size (pos + n + 256 * 1024) := by
      simp only [resize, length_append, length_take, length_replicate]
      omega
    refine ⟨by omega, by omega, ?_⟩
    have hall : buf.take (min size (pos + n + 256 * 1024)) = buf :=
      take_of_length_le (by omega)
    rw [resize, hall, take_append_of_le_length hpos]
  · exact ⟨by omega, hbuf, rfl⟩

/-- More bytes of the data. -/
lemma readData (hm : m.Valid) (h : Absorbed P m k msg) (hk : 24 ≤ k)
    (hlt : k < (m.wire P).length) (hpch : pch ≠ [])
    (hstream : pch ++ more = (m.wire P).drop k ++ tail) :
    ∃ n : ℕ, ∃ msg', msg.readData pch = ((n : ℤ), msg') ∧ 0 < n ∧ n ≤ pch.length ∧
      k + n ≤ (m.wire P).length ∧ Absorbed P m (k + n) msg' := by
  have hpos := length_pos_iff.mpr hpch
  have hlen24 := CNode.length_header P m
  rw [m.length_wire P] at hlt ⊢
  cases h with
  | header => omega
  | @data j _ hin hhdr hdpos hhash hbuf hlow hhigh hfresh =>
    obtain ⟨n, hn⟩ : ∃ n, n = min (m.data.length - j) pch.length := ⟨_, rfl⟩
    have hwire : (m.wire P).drop (24 + j) = m.data.drop j := by
      rw [CSerializedNetMsg.wire, ← drop_drop, drop_left' hlen24]
    rw [hwire] at hstream
    have hread : pch.take n = (m.data.drop j).take n :=
      take_eq_of_append_eq hstream (by omega) (by rw [length_drop]; omega)
    have htake : (pch.take n).length = n := by
      rw [length_take]
      omega
    obtain ⟨hlow', hhigh', hfront⟩ := length_grow n (by omega) hhigh hlow
    obtain ⟨buf', hbuf'⟩ : ∃ b, b = if msg.vRecv.length < j + n then
        resize msg.vRecv (min m.data.length (j + n + 256 * 1024)) else msg.vRecv := ⟨_, rfl⟩
    rw [← hbuf'] at hlow' hhigh' hfront
    refine ⟨n, { msg with
        hasher := msg.hasher ++ pch.take n
        vRecv := memcpy buf' j (pch.take n)
        nDataPos := j + n },
      ?_, by omega, by omega, by omega, ?_⟩
    · simp only [readData, hhdr, hm.nMessageSize P, hdpos, ← hn, hbuf']
    · rw [Nat.add_assoc]
      have hcopy := take_memcpy (pch.take n) (show j ≤ buf'.length by omega)
      rw [htake] at hcopy
      refine .data hin hhdr rfl ?_ ?_ ?_ ?_ hfresh
      · rw [hhash, hread, ← take_add]
      · rw [hcopy, hfront, hbuf, hread, ← take_add]
      · rw [length_memcpy (by omega)]
        exact hlow'
      · rw [length_memcpy (by omega)]
        exact hhigh'

end Absorbed

/-- A message of which all bytes have come. -/
def Arrived (P : Params) (m : CSerializedNetMsg) (msg : CNetMessage) : Prop :=
  Absorbed P m (m.wire P).length msg

/-- The receiver when the messages `done` have come, and `k` bytes of the next one, which is the
first of `rest`. -/
structure Receiving (P : Params) (done rest : List CSerializedNetMsg) (k : ℕ) (node : CNode)
    (before : List CNetMessage) : Prop where
  arrived : List.Forall₂ (Arrived P) done (node.vProcessMsg ++ before)
  current : (k = 0 ∧ node.vRecvMsg = before) ∨
    ∃ m ms msg, rest = m :: ms ∧ 0 < k ∧ k < (m.wire P).length ∧ Absorbed P m k msg ∧
      node.vRecvMsg = before ++ [msg]
  other : (node.mapRecvBytesPerMsgCmd NET_MESSAGE_COMMAND_OTHER).isSome

section Loop

variable {P : Params} {m : CSerializedNetMsg} {k : ℕ} {msg : CNetMessage} {node : CNode}
  {done rest : List CSerializedNetMsg} {before : List CNetMessage}

lemma complete_of_arrived (hdone : ∀ m ∈ done, m.Valid) {l : List CNetMessage}
    (h : List.Forall₂ (Arrived P) done l) : ∀ msg ∈ l, msg.complete = true := by
  induction h with
  | nil => simp
  | @cons m msg done l hm hl ih =>
    intro x hx
    rcases mem_cons.mp hx with rfl | hx
    · rw [Absorbed.complete_eq (hdone m (by simp)) hm]
      simp
    · exact ih (fun y hy => hdone y (by simp [hy])) x hx

/-- The message that the next bytes belong to. -/
lemma Receiving.currentMsg (hdone : ∀ m ∈ done, m.Valid) (hm : m.Valid)
    (h : Receiving P done (m :: rest) k node before) :
    ∃ msg, CNode.currentMsg P node.vRecvMsg = (before, msg) ∧ Absorbed P m k msg ∧
      k < (m.wire P).length := by
  rcases h.current with ⟨rfl, hbefore⟩ | ⟨m', ms, msg, heq, -, hlt, habs, hmsgs⟩
  · refine ⟨.new P, ?_, Absorbed.new, by rw [m.length_wire P]; omega⟩
    rw [hbefore, CNode.currentMsg]
    cases hlast : before.getLast? with
    | none => rfl
    | some x =>
      have hx := complete_of_arrived hdone h.arrived x
        (mem_append_right _ (mem_of_getLast? hlast))
      simp only [hx, if_true]
  · obtain ⟨rfl, rfl⟩ := List.cons.inj heq
    refine ⟨msg, ?_, habs, hlt⟩
    have hx : msg.complete = false := by
      rw [habs.complete_eq hm]
      exact decide_eq_false hlt.ne
    rw [hmsgs, CNode.currentMsg]
    simp [hx]

/-- Bytes of a message are taken in, whether its header or its data is read. -/
lemma Absorbed.read (hm : m.Valid) (h : Absorbed P m k msg)
    (hlt : k < (m.wire P).length) (hpch : pch ≠ [])
    (hstream : pch ++ more = (m.wire P).drop k ++ tail) :
    ∃ n : ℕ, ∃ msg', (if !msg.in_data then msg.readHeader pch else msg.readData pch) =
      ((n : ℤ), msg') ∧
      0 < n ∧ n ≤ pch.length ∧ k + n ≤ (m.wire P).length ∧ Absorbed P m (k + n) msg' := by
  by_cases hk : k < 24
  · have hin : msg.in_data = false := by
      cases h with
      | header _ hin => exact hin
      | data => omega
    rw [hin]
    exact h.readHeader hm hk hpch hstream
  · have hin : msg.in_data = true := by
      cases h with
      | header hk' => exact absurd hk' hk
      | data hin => exact hin
    rw [hin]
    exact h.readData hm (Nat.not_lt.mp hk) hlt hpch hstream

/-- A message that is taken in is not too large. -/
lemma Absorbed.not_oversized (hm : m.Valid) (h : Absorbed P m k msg) :
    (msg.in_data && decide (msg.hdr.nMessageSize > MAX_PROTOCOL_MESSAGE_LENGTH)) = false := by
  cases h with
  | header _ hin => rw [hin, Bool.false_and]
  | data hin hhdr =>
    rw [hin, hhdr, hm.nMessageSize P, Bool.true_and]
    exact decide_eq_false (Nat.not_lt.mpr hm.data_length)

/-- Counting a message keeps the entry for unknown commands. -/
lemma countReceived_spec (node : CNode) (msg : CNetMessage)
    (h : (node.mapRecvBytesPerMsgCmd NET_MESSAGE_COMMAND_OTHER).isSome) :
    ∃ f, node.countReceived msg = some f ∧ (f NET_MESSAGE_COMMAND_OTHER).isSome := by
  obtain ⟨key, hkey⟩ : ∃ key, key = if (node.mapRecvBytesPerMsgCmd msg.hdr.commandKey).isSome then
      msg.hdr.commandKey else NET_MESSAGE_COMMAND_OTHER := ⟨_, rfl⟩
  have hsome : (node.mapRecvBytesPerMsgCmd key).isSome := by
    rw [hkey]
    split_ifs with hcmd
    · exact hcmd
    · exact h
  obtain ⟨n, hn⟩ := Option.isSome_iff_exists.mp hsome
  refine ⟨_, by simp only [CNode.countReceived, ← hkey, hn]; rfl, ?_⟩
  split_ifs
  · rfl
  · exact h

/-- The bytes of messages one after the other. -/
def stream (P : Params) (ms : List CSerializedNetMsg) : Bytes := ms.flatMap fun m => m.wire P

/-- **The loop of `ReceiveMsgBytes`.** It ends and returns `true`; the messages that the bytes
complete are added, and the stream goes on behind the bytes.

**Proof sketch.** Induction on the rounds. A round reads bytes of the first message that has not
come; if they complete it, the next round starts with the next message. -/
theorem CNode.receiveLoop_spec (t : ℤ) {fuel : ℕ} (c : Bool) (node : CNode)
    (hdone : ∀ m ∈ done, m.Valid) (hrest : ∀ m ∈ rest, m.Valid)
    (h : Receiving P done rest k node before) (hstream : pch ++ more = (stream P rest).drop k)
    (hfuel : pch.length ≤ fuel) :
    ∃ c' node' done' rest' k' before', receiveLoop P t fuel pch c node = .done c' node' ∧
      rest = done' ++ rest' ∧ Receiving P (done ++ done') rest' k' node' before' ∧
      more = (stream P rest').drop k' := by
  induction fuel generalizing pch c node done rest k before with
  | zero =>
    obtain rfl := length_eq_zero_iff.mp (Nat.le_zero.mp hfuel)
    exact ⟨c, node, [], rest, k, before, by simp [receiveLoop], rfl, by simpa using h, hstream⟩
  | succ fuel ih =>
    cases pch with
    | nil => exact ⟨c, node, [], rest, k, before, by simp [receiveLoop], rfl,
      by simpa using h, hstream⟩
    | cons b pch =>
      cases rest with
      | nil => simp [stream] at hstream
      | cons m rest =>
        have hm := hrest m (by simp)
        have hrest' : ∀ x ∈ rest, x.Valid := fun x hx => hrest x (by simp [hx])
        obtain ⟨msg, hcurrent, habs, hlt⟩ := h.currentMsg hdone hm
        have hsplit : (stream P (m :: rest)).drop k = (m.wire P).drop k ++ stream P rest := by
          rw [stream, flatMap_cons, drop_append_of_le_length hlt.le]
          rfl
        rw [hsplit] at hstream
        obtain ⟨n, msg', hread, hn, hnle, hkn, habs'⟩ := habs.read hm hlt (by simp) hstream
        have hnext := drop_eq_of_append_eq hstream hnle (by rw [length_drop]; omega)
        rw [drop_drop] at hnext
        have hfuel' : ((b :: pch).drop n).length ≤ fuel := by
          rw [length_drop]
          omega
        have hneg : ¬ (n : ℤ) < 0 := by omega
        have hcomplete := habs'.complete_eq hm
        simp only [receiveLoop, hcurrent, hread, if_neg hneg, habs'.not_oversized hm,
          Bool.false_eq_true, if_false, Int.toNat_natCast]
        by_cases hend : k + n = (m.wire P).length
        · -- the message is complete
          rw [hcomplete, hend]
          obtain ⟨f, hf, hother⟩ := countReceived_spec
            { node with vRecvMsg := before ++ [msg'] } msg' h.other
          simp only [decide_true, if_true, hf]
          have hnew : Receiving P (done ++ [m]) rest 0 { node with
              vRecvMsg := before ++ [{ msg' with nTime := t }], mapRecvBytesPerMsgCmd := f }
              (before ++ [{ msg' with nTime := t }]) := by
            refine ⟨?_, Or.inl ⟨rfl, rfl⟩, hother⟩
            dsimp only
            rw [← append_assoc]
            refine rel_append h.arrived (.cons ?_ .nil)
            rw [hend] at habs'
            exact habs'.setTime t
          rw [hend, drop_length, nil_append] at hnext
          have hdone' : ∀ x ∈ done ++ [m], x.Valid := by
            intro x hx
            rcases mem_append.mp hx with hx | hx
            · exact hdone x hx
            · rwa [mem_singleton.mp hx]
          obtain ⟨c', node', done', rest', k', before', hloop, rfl, hrec, hmore⟩ :=
            ih true _ hdone' hrest' hnew (by rw [hnext, drop_zero]) hfuel'
          exact ⟨c', node', m :: done', rest', k', before', hloop, rfl, by simpa using hrec, hmore⟩
        · rw [hcomplete, decide_eq_false hend]
          simp only [Bool.false_eq_true, if_false]
          have hnew : Receiving P done (m :: rest) (k + n) { node with
              vRecvMsg := before ++ [msg'] } before :=
            ⟨h.arrived, Or.inr ⟨m, rest, msg', rfl, by omega, by omega, habs', rfl⟩, h.other⟩
          refine ih c _ hdone hrest hnew ?_ hfuel'
          rw [hnext, stream, stream, flatMap_cons, drop_append_of_le_length hkn]

end Loop

/-! ### The two nodes -/

/-- The node that sends, the bytes that are on the way, and the node that receives. -/
structure Link where
  sender : CNode
  wire : Bytes := []
  receiver : CNode

/-- What can happen: a message is pushed; what is in the queue is sent; bytes that are on the way
are received; complete messages are passed on. -/
inductive Event where
  | push (msg : CSerializedNetMsg) (now : ℤ) (outcomes : List CNode.SendOutcome)
  | send (now : ℤ) (outcomes : List CNode.SendOutcome)
  | receive (nBytes : UInt32) (nTimeMicros : ℤ)
  | handOver

/-- An assertion does not hold, `ReceiveMsgBytes` returns `false`, or does not return. -/
inductive LinkError where
  | assertion (text : String)
  | failed
  | diverges
  deriving DecidableEq

/-- The messages that are pushed. -/
def pushed (es : List Event) : List CSerializedNetMsg :=
  es.filterMap fun
    | .push msg _ _ => some msg
    | _ => none

namespace Link

variable (P : Params) (nSendBufferMaxSize nReceiveFloodSize : ℕ)

/-- Two new nodes. -/
def new : Link := { sender := .new P, receiver := .new P }

/-- What the socket of the sender has taken is on the way. -/
def sent (l : Link) : Except CNode.AssertionError (CNode × Bytes) → Except LinkError Link
  | .ok (node, out) => return { l with sender := node, wire := l.wire ++ out }
  | .error (.assertion text) => throw (.assertion text)

/-- What the receiver has been given is no longer on the way. -/
def received (l : Link) (nBytes : ℕ) : CNode.Received → Except LinkError Link
  | .done _ node => return { l with receiver := node, wire := l.wire.drop nBytes }
  | .failed _ _ => throw .failed
  | .assertion text => throw (.assertion text)
  | .diverges => throw .diverges

/-- One event. -/
def step (l : Link) : Event → Except LinkError Link
  | .push msg now outcomes =>
    l.sent (l.sender.pushMessage P nSendBufferMaxSize now outcomes msg)
  | .send now outcomes => l.sent (l.sender.socketSendData nSendBufferMaxSize now outcomes)
  | .receive nBytes nTimeMicros => l.received nBytes.toNat
    (l.receiver.receiveMsgBytes P nTimeMicros (l.wire.take nBytes.toNat))
  | .handOver => return { l with receiver := l.receiver.handOver nReceiveFloodSize }

/-- A sequence of events. -/
def run (l : Link) (es : List Event) : Except LinkError Link :=
  es.foldlM (step P nSendBufferMaxSize nReceiveFloodSize) l

variable {P}

/-- The messages `ms` have been pushed; the first ones have come, and a part of the next. -/
structure Underway (P : Params) (ms : List CSerializedNetMsg) (l : Link) : Prop where
  sending : Sending l.sender.vSendMsg l.sender
  receiving : ∃ done rest k before, ms = done ++ rest ∧ Receiving P done rest k l.receiver before ∧
    l.wire ++ unsent l.sender.vSendMsg l.sender = (stream P rest).drop k

lemma underway_new : Underway P [] (new P) where
  sending := ⟨rfl, by simp [new, CNode.new], by simp [new, CNode.new], fun _ => rfl⟩
  receiving := ⟨[], [], 0, [], rfl, ⟨.nil, Or.inl ⟨rfl, rfl⟩, by simp [new, CNode.new]⟩, rfl⟩

/-- Messages that follow do not change what has been received. -/
lemma append_receiving {done rest : List CSerializedNetMsg} (more : List CSerializedNetMsg) {k : ℕ}
    {node : CNode} {before : List CNetMessage} (h : Receiving P done rest k node before) :
    Receiving P done (rest ++ more) k node before ∧
      (stream P (rest ++ more)).drop k = (stream P rest).drop k ++ stream P more := by
  have happend : stream P (rest ++ more) = stream P rest ++ stream P more := flatMap_append
  rcases h.current with ⟨rfl, hbefore⟩ | ⟨m, ms, msg, rfl, hpos, hlt, habs, hmsgs⟩
  · exact ⟨⟨h.arrived, Or.inl ⟨rfl, hbefore⟩, h.other⟩, by simp [happend]⟩
  · refine ⟨⟨h.arrived, Or.inr ⟨m, ms ++ more, msg, rfl, hpos, hlt, habs, hmsgs⟩, h.other⟩, ?_⟩
    rw [happend, drop_append_of_le_length]
    rw [stream, flatMap_cons, length_append]
    omega

variable {ms : List CSerializedNetMsg} {l : Link}

/-- The sender has sent something, of which `more` was not in the queue before. -/
lemma Underway.sent (h : Underway P ms l) {more : List CSerializedNetMsg} {node : CNode}
    {out : Bytes} (hsending : Sending node.vSendMsg node)
    (hunsent : unsent l.sender.vSendMsg l.sender ++ stream P more = out ++
      unsent node.vSendMsg node) :
    Underway P (ms ++ more) { l with sender := node, wire := l.wire ++ out } := by
  obtain ⟨hs, done, rest, k, before, rfl, hrec, hstream⟩ := h
  obtain ⟨hrec', hdrop⟩ := append_receiving more hrec
  refine ⟨hsending, done, rest ++ more, k, before, by rw [append_assoc], hrec', ?_⟩
  rw [hdrop, ← hstream, append_assoc, append_assoc, hunsent]

/-- Bytes are received. -/
lemma Underway.received (hms : ∀ m ∈ ms, m.Valid) (h : Underway P ms l) (n : ℕ) (t : ℤ) :
    ∃ c node, l.receiver.receiveMsgBytes P t (l.wire.take n) = .done c node ∧
      Underway P ms { l with receiver := node, wire := l.wire.drop n } := by
  obtain ⟨hs, done, rest, k, before, rfl, hrec, hstream⟩ := h
  rw [← take_append_drop n l.wire, append_assoc] at hstream
  obtain ⟨c, node, done', rest', k', before', hloop, rfl, hrec', hmore⟩ :=
    CNode.receiveLoop_spec t false
      { l.receiver with
        nLastRecv := t.tdiv 1000000
        nRecvBytes := (l.receiver.nRecvBytes + (l.wire.take n).length) % 2 ^ 64 }
      (fun m hm => hms m (mem_append_left _ hm)) (fun m hm => hms m (mem_append_right _ hm))
      ⟨hrec.arrived, hrec.current, hrec.other⟩ hstream le_rfl
  exact ⟨c, node, hloop, hs, done ++ done', rest', k', before', by rw [append_assoc], hrec', hmore⟩

/-- Complete messages are passed on. -/
lemma Underway.handOver (hms : ∀ m ∈ ms, m.Valid) (h : Underway P ms l) (nReceiveFloodSize : ℕ) :
    Underway P ms { l with receiver := l.receiver.handOver nReceiveFloodSize } := by
  obtain ⟨hs, done, rest, k, before, rfl, hrec, hstream⟩ := h
  have hcomplete : ∀ msg ∈ before, msg.complete = true := fun msg hmsg =>
    complete_of_arrived (fun m hm => hms m (mem_append_left _ hm)) hrec.arrived msg
      (mem_append_right _ hmsg)
  refine ⟨hs, done, rest, k, [], rfl, ?_, hstream⟩
  rcases hrec.current with ⟨rfl, hbefore⟩ | ⟨m, ms', msg, rfl, hpos, hlt, habs, hmsgs⟩
  · have htake : l.receiver.vRecvMsg.takeWhile complete = before := by
      rw [hbefore]
      exact takeWhile_eq_self_iff.mpr hcomplete
    have hdrop : l.receiver.vRecvMsg.dropWhile complete = [] := by
      rw [hbefore]
      exact dropWhile_eq_nil_iff.mpr hcomplete
    refine ⟨?_, Or.inl ⟨rfl, hdrop⟩, hrec.other⟩
    simpa [CNode.handOver, htake] using hrec.arrived
  · have hopen : msg.complete = false := by
      rw [habs.complete_eq (hms m (by simp))]
      exact decide_eq_false hlt.ne
    have htake : l.receiver.vRecvMsg.takeWhile complete = before := by
      rw [hmsgs, takeWhile_append_of_pos hcomplete]
      simp [hopen]
    have hdrop : l.receiver.vRecvMsg.dropWhile complete = [msg] := by
      rw [hmsgs, dropWhile_append_of_pos hcomplete]
      simp [hopen]
    refine ⟨?_, Or.inr ⟨m, ms', msg, rfl, hpos, hlt, habs, hdrop⟩, hrec.other⟩
    simpa [CNode.handOver, htake] using hrec.arrived

/-- **One event.** -/
theorem step_underway (nSendBufferMaxSize nReceiveFloodSize : ℕ) (e : Event)
    (hms : ∀ m ∈ ms, m.Valid) (h : Underway P ms l) :
    ∃ l', step P nSendBufferMaxSize nReceiveFloodSize l e = .ok l' ∧
      Underway P (ms ++ pushed [e]) l' := by
  cases e with
  | push msg now outcomes =>
    obtain ⟨node, out, hpush, hsending, hunsent⟩ := CNode.pushMessage_spec P nSendBufferMaxSize now
      outcomes msg h.sending
    refine ⟨_, by rw [step, hpush]; rfl, h.sent hsending ?_⟩
    rw [← hunsent]
    simp [pushed, stream]
  | send now outcomes =>
    obtain ⟨node, out, hsend, hsending, hunsent⟩ := CNode.socketSendData_spec nSendBufferMaxSize now
      outcomes h.sending
    refine ⟨_, by rw [step, hsend]; rfl, h.sent hsending ?_⟩
    rw [← hunsent]
    simp [pushed, stream]
  | receive nBytes t =>
    obtain ⟨c, node, hreceive, hnew⟩ := h.received hms nBytes.toNat t
    exact ⟨_, by rw [step, hreceive]; rfl, by simpa [pushed] using hnew⟩
  | handOver => exact ⟨_, rfl, by simpa [pushed] using h.handOver hms nReceiveFloodSize⟩

/-- **Every run.** -/
theorem run_underway (nSendBufferMaxSize nReceiveFloodSize : ℕ) (es : List Event)
    (hms : ∀ m ∈ ms ++ pushed es, m.Valid) (h : Underway P ms l) :
    ∃ l', run P nSendBufferMaxSize nReceiveFloodSize l es = .ok l' ∧
      Underway P (ms ++ pushed es) l' := by
  induction es generalizing ms l with
  | nil => exact ⟨l, rfl, by simpa [pushed] using h⟩
  | cons e es ih =>
    have hcons : pushed (e :: es) = pushed [e] ++ pushed es := by
      rw [pushed, pushed, pushed, ← filterMap_append]
      rfl
    rw [hcons, ← append_assoc] at hms ⊢
    obtain ⟨l₁, hstep, hl₁⟩ := step_underway nSendBufferMaxSize nReceiveFloodSize e
      (fun m hm => hms m (mem_append_left _ (mem_append_left _ hm))) h
    obtain ⟨l₂, hrun, hl₂⟩ := ih hms hl₁
    exact ⟨l₂, by rw [run, foldlM_cons, hstep]; exact hrun, hl₂⟩

/-! ### Lossless transport -/

/-- The messages that are complete on the side of the receiver. -/
def completed (l : Link) : List CNetMessage :=
  l.receiver.vProcessMsg ++ l.receiver.vRecvMsg.filter complete

/-- A complete message is the one that was pushed. -/
structure SameMessage (P : Params) (m : CSerializedNetMsg) (msg : CNetMessage) : Prop where
  command : msg.hdr.getCommand = m.command
  payload : msg.vRecv = m.data
  checksum : msg.hdr.pchChecksum = (msg.getMessageHash P).take 4

/-- The messages `ms` are transported without loss: the messages that are complete are the first
ones, in order; behind them is at most one message, of which the bytes `part` have come; and these
bytes, those on the way and those in the queue are the messages that are not complete. -/
structure Lossless (P : Params) (ms : List CSerializedNetMsg) (l : Link) : Prop where
  nSendSize : l.sender.nSendSize = (l.sender.vSendMsg.map List.length).sum
  nSendOffset : ∀ data ∈ l.sender.vSendMsg.head?, l.sender.nSendOffset < data.length
  received : ∃ done rest part tail, ms = done ++ rest ∧
    List.Forall₂ (SameMessage P) done l.completed ∧
    l.receiver.vRecvMsg = l.receiver.vRecvMsg.filter complete ++ tail ∧
    tail.length ≤ 1 ∧ (tail = [] ↔ part = []) ∧
    part ++ l.wire ++ unsent l.sender.vSendMsg l.sender = stream P rest ∧
    (part = [] ∨ ∃ m ∈ rest.head?, part.length < (m.wire P).length)

lemma same_of_arrived {done : List CSerializedNetMsg} (hdone : ∀ m ∈ done, m.Valid)
    {msgs : List CNetMessage} (h : List.Forall₂ (Arrived P) done msgs) :
    List.Forall₂ (SameMessage P) done msgs := by
  induction h with
  | nil => exact .nil
  | @cons m msg done msgs hm hmsgs ih =>
    obtain ⟨hcommand, hpayload, hchecksum⟩ := Absorbed.complete_spec (hdone m (by simp)) hm
    exact .cons ⟨hcommand, hpayload, hchecksum⟩ (ih fun x hx => hdone x (by simp [hx]))

lemma Underway.lossless (hms : ∀ m ∈ ms, m.Valid) (h : Underway P ms l) : Lossless P ms l := by
  obtain ⟨hs, done, rest, k, before, rfl, hrec, hstream⟩ := h
  have hdone : ∀ m ∈ done, m.Valid := fun m hm => hms m (mem_append_left _ hm)
  have hfilter : before.filter complete = before :=
    filter_eq_self.mpr fun msg hmsg =>
      complete_of_arrived hdone hrec.arrived msg (mem_append_right _ hmsg)
  have hsame := same_of_arrived hdone hrec.arrived
  have hall : (stream P rest).take k ++ l.wire ++ unsent l.sender.vSendMsg l.sender =
      stream P rest := by
    rw [append_assoc, hstream, take_append_drop]
  refine ⟨hs.nSendSize, hs.nSendOffset, done, rest, (stream P rest).take k, ?_⟩
  rcases hrec.current with ⟨rfl, hbefore⟩ | ⟨m, ms', msg, rfl, hpos, hlt, habs, hmsgs⟩
  · refine ⟨[], rfl, ?_, ?_, by simp, by simp, hall, Or.inl (take_zero)⟩
    · rw [completed, hbefore, hfilter]
      exact hsame
    · rw [hbefore, hfilter, append_nil]
  · have hopen : msg.complete = false := by
      rw [habs.complete_eq (hms m (by simp))]
      exact decide_eq_false hlt.ne
    have hrecv : l.receiver.vRecvMsg.filter complete = before := by
      rw [hmsgs, filter_append, hfilter]
      simp [hopen]
    have hpart : ((stream P (m :: ms')).take k).length = k := by
      rw [stream, flatMap_cons, length_take, length_append]
      omega
    refine ⟨[msg], rfl, ?_, by rw [hrecv, hmsgs], by simp, ?_, hall, Or.inr ⟨m, rfl, ?_⟩⟩
    · rw [completed, hrecv]
      exact hsame
    · have hne : (stream P (m :: ms')).take k ≠ [] := ne_nil_of_length_pos (by omega)
      simp [hne]
    · omega

/-- When nothing is on the way any more and the queue is empty, all messages are complete. -/
lemma Lossless.all_completed (h : Lossless P ms l) (hwire : l.wire = [])
    (hqueue : l.sender.vSendMsg = []) : List.Forall₂ (SameMessage P) ms l.completed := by
  obtain ⟨done, rest, part, tail, rfl, hsame, -, -, -, hstream, hpart⟩ := h.received
  rw [hwire, hqueue, unsent, flatten_nil, drop_nil, append_nil, append_nil]
    at hstream
  cases rest with
  | nil => rwa [append_nil]
  | cons m rest =>
    have hlen := m.length_wire P
    rw [hstream] at hpart
    simp only [stream, flatMap_cons, List.head?_cons, Option.mem_def, Option.some.injEq,
      exists_eq_left', length_append] at hpart
    rcases hpart with hnil | hlt
    · have := congrArg List.length (append_eq_nil_iff.mp hnil).1
      rw [length_nil] at this
      omega
    · omega

/-- **Messages arrive as they were sent.** In every run from two new nodes, with any outcomes of
`send` and any cuts of the bytes, no assertion fails, the receiver reports no error, and the
messages are transported without loss. -/
theorem run_lossless (P : Params) (nSendBufferMaxSize nReceiveFloodSize : ℕ) (es : List Event)
    (hvalid : ∀ m ∈ pushed es, m.Valid) :
    ∃ l, run P nSendBufferMaxSize nReceiveFloodSize (new P) es = .ok l ∧ Lossless P (pushed es) l ∧
      (l.wire = [] → l.sender.vSendMsg = [] →
        List.Forall₂ (SameMessage P) (pushed es) l.completed) := by
  obtain ⟨l, hrun, hl⟩ := run_underway nSendBufferMaxSize nReceiveFloodSize es
    (by simpa using hvalid) (underway_new (P := P))
  have hlossless := hl.lossless (by simpa using hvalid)
  exact ⟨l, hrun, hlossless, hlossless.all_completed⟩

/-- A hash function that gives the length. -/
def sampleParams : Params where
  messageStart := [0xf9, 0xbe, 0xb4, 0xd9]
  length_messageStart := rfl
  hash := fun x => UInt8.ofNat x.length :: List.replicate 31 0
  length_hash := fun _ => by simp
  messageTypes := []

/-- The theorem at two messages of which the first is sent in two parts, the second one is cut in
its header, and the last bytes have not come. -/
theorem run_lossless_two_messages :
    ∃ l, run sampleParams 1000 1000 (new sampleParams)
        [.push ⟨[0x61], [1, 2, 3]⟩ 0 [.sent 20, .sent 30], .send 1 [.sent 2, .wouldBlock],
          .push ⟨[0x62], []⟩ 2 [], .send 3 [.sent 24, .sent 24, .sent 24], .receive 10 4,
          .receive 20 5, .handOver, .receive 8 6] = .ok l ∧
      Lossless sampleParams [⟨[0x61], [1, 2, 3]⟩, ⟨[0x62], []⟩] l := by
  obtain ⟨l, hrun, hl, -⟩ := run_lossless sampleParams 1000 1000
    [.push ⟨[0x61], [1, 2, 3]⟩ 0 [.sent 20, .sent 30], .send 1 [.sent 2, .wouldBlock],
      .push ⟨[0x62], []⟩ 2 [], .send 3 [.sent 24, .sent 24, .sent 24], .receive 10 4,
      .receive 20 5, .handOver, .receive 8 6]
    (by
      intro m hm
      rcases mem_pair.mp hm with rfl | rfl
      · exact ⟨by decide, by decide +kernel, by decide⟩
      · exact ⟨by decide, by decide +kernel, by decide⟩)
  exact ⟨l, hrun, hl⟩

end Link

end Tos.Net
