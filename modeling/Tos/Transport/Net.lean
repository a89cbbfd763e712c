import Tos.Rlp.Stream

/-!
# Messages between two nodes

The part of `transport/net.cpp` that moves messages: `CConnman::PushMessage` and `SocketSendData`
on the side that sends, `CNode::ReceiveMsgBytes` with `CNetMessage::readHeader` and `readData` on
the side that receives.

The sender has a queue of buffers, of which the first may have been sent in part. The receiver has
a list of messages, of which the last may be incomplete; its header is collected in a buffer of 24
bytes, and its data in a buffer that is made larger ahead of what has come.

## Main definitions

* `Tos.Net.CMessageHeader`, `CNetMessage`, `CNode`: the classes.
* `CNode.pushMessage`, `CNode.socketSendData`: sending.
* `CNode.receiveMsgBytes`: receiving; `CNode.handOver`: complete messages are passed on.

## Implementation notes

What `send` does is given as a list of outcomes, one for each call. The hash of a message is a
parameter; the object that computes it holds the bytes that have been written to it. A failed
assertion is an error. Sizes of what is in memory are natural numbers; the counters for statistics
wrap.
-/

namespace Tos.Net

/-- What the two nodes have in common: the message start, the hash function, the known commands. -/
structure Params where
  messageStart : Bytes
  length_messageStart : messageStart.length = 4
  hash : Bytes → Bytes
  length_hash : ∀ x, (hash x).length = 32
  messageTypes : List Bytes

def MAX_SIZE : ℕ := 0x02000000

def MAX_PROTOCOL_MESSAGE_LENGTH : ℕ := 4 * 1000 * 1000

/-- `NET_MESSAGE_COMMAND_OTHER`, the text `*other*`. -/
def NET_MESSAGE_COMMAND_OTHER : Bytes := [0x2a, 0x6f, 0x74, 0x68, 0x65, 0x72, 0x2a]

/-! ### Headers -/

/-- A `uint32_t` as it is serialized. -/
def le32 (n : ℕ) : Bytes :=
  [UInt8.ofNat n, UInt8.ofNat (n / 2 ^ 8), UInt8.ofNat (n / 2 ^ 16), UInt8.ofNat (n / 2 ^ 24)]

/-- The number with these bytes, the lowest one first. -/
def ofLe : Bytes → ℕ
  | [] => 0
  | b :: t => b.toNat + 256 * ofLe t

/-- The class `CMessageHeader`. -/
structure CMessageHeader where
  pchMessageStart : Bytes
  pchCommand : Bytes := List.replicate 12 0
  nMessageSize : ℕ := 2 ^ 32 - 1
  pchChecksum : Bytes := List.replicate 4 0
  deriving DecidableEq

namespace CMessageHeader

def HEADER_SIZE : ℕ := 24

/-- `strncpy(pchCommand, pszCommand, COMMAND_SIZE)`. -/
def copyCommand (command : Bytes) : Bytes :=
  let c := (command.takeWhile (· ≠ 0)).take 12
  c ++ List.replicate (12 - c.length) 0

/-- The constructor with a command and a size. -/
def ofCommand (messageStart command : Bytes) (nMessageSize : ℕ) : CMessageHeader :=
  { pchMessageStart := messageStart
    pchCommand := copyCommand command
    nMessageSize := nMessageSize % 2 ^ 32 }

/-- `CMessageHeader::GetCommand`. -/
def getCommand (hdr : CMessageHeader) : Bytes := hdr.pchCommand.takeWhile (· ≠ 0)

/-- The header as it is written. -/
def serialize (hdr : CMessageHeader) : Bytes :=
  hdr.pchMessageStart ++ hdr.pchCommand ++ le32 hdr.nMessageSize ++ hdr.pchChecksum

/-- `hdrbuf >> hdr`, for a buffer of 24 bytes. -/
def unserialize (buf : Bytes) : CMessageHeader :=
  { pchMessageStart := buf.take 4
    pchCommand := (buf.drop 4).take 12
    nMessageSize := ofLe ((buf.drop 16).take 4)
    pchChecksum := (buf.drop 20).take 4 }

/-- What `std::string(pchCommand)` reads. The array need not end with a zero; the size and the
checksum follow it in the object. -/
def commandKey (hdr : CMessageHeader) : Bytes :=
  (hdr.pchCommand ++ le32 hdr.nMessageSize ++ hdr.pchChecksum).takeWhile (· ≠ 0)

end CMessageHeader

/-! ### A message that is received -/

/-- `memcpy` into a buffer that is large enough. -/
def memcpy (buf : Bytes) (pos : ℕ) (src : Bytes) : Bytes :=
  buf.take pos ++ src ++ buf.drop (pos + src.length)

/-- `resize`: cut, or filled with zeros. -/
def resize (buf : Bytes) (n : ℕ) : Bytes := buf.take n ++ List.replicate (n - buf.length) 0

/-- The class `CNetMessage`. -/
structure CNetMessage where
  /-- the bytes that were written to the hasher -/
  hasher : Bytes := []
  data_hash : Bytes := List.replicate 32 0
  in_data : Bool := false
  hdrbuf : Bytes := List.replicate 24 0
  hdr : CMessageHeader
  nHdrPos : ℕ := 0
  vRecv : Bytes := []
  nDataPos : ℕ := 0
  nTime : ℤ := 0
  deriving DecidableEq

namespace CNetMessage

/-- The constructor. -/
def new (P : Params) : CNetMessage := { hdr := { pchMessageStart := P.messageStart } }

/-- `CNetMessage::complete`. -/
def complete (msg : CNetMessage) : Bool := msg.in_data && msg.hdr.nMessageSize == msg.nDataPos

/-- `CNetMessage::readHeader`. -/
def readHeader (msg : CNetMessage) (pch : Bytes) : ℤ × CNetMessage :=
  let nCopy := min (24 - msg.nHdrPos) pch.length
  let msg := { msg with
    hdrbuf := memcpy msg.hdrbuf msg.nHdrPos (pch.take nCopy), nHdrPos := msg.nHdrPos + nCopy }
  if msg.nHdrPos < 24 then (nCopy, msg)
  else
    -- reading to its end empties the buffer
    let msg := { msg with hdr := CMessageHeader.unserialize msg.hdrbuf, hdrbuf := [] }
    if msg.hdr.nMessageSize > MAX_SIZE then (-1, msg)
    else (nCopy, { msg with in_data := true })

/-- `CNetMessage::readData`. -/
def readData (msg : CNetMessage) (pch : Bytes) : ℤ × CNetMessage :=
  let nCopy := min (msg.hdr.nMessageSize - msg.nDataPos) pch.length
  let vRecv :=
    if msg.vRecv.length < msg.nDataPos + nCopy then
      resize msg.vRecv (min msg.hdr.nMessageSize (msg.nDataPos + nCopy + 256 * 1024))
    else msg.vRecv
  (nCopy, { msg with
    hasher := msg.hasher ++ pch.take nCopy
    vRecv := memcpy vRecv msg.nDataPos (pch.take nCopy)
    nDataPos := msg.nDataPos + nCopy })

/-- `CNetMessage::GetMessageHash` of a complete message. -/
def getMessageHash (P : Params) (msg : CNetMessage) : Bytes :=
  if msg.data_hash = List.replicate 32 0 then P.hash msg.hasher else msg.data_hash

end CNetMessage

/-- `CSerializedNetMsg`. -/
structure CSerializedNetMsg where
  command : Bytes
  data : Bytes
  deriving DecidableEq

/-- The class `CNode`, as far as it is used here. -/
structure CNode where
  /-- the socket is not `INVALID_SOCKET` -/
  hSocket : Bool := true
  fDisconnect : Bool := false
  nSendSize : ℕ := 0
  nSendOffset : ℕ := 0
  nSendBytes : ℕ := 0
  vSendMsg : List Bytes := []
  mapSendBytesPerMsgCmd : Bytes → ℕ := fun _ => 0
  fPauseSend : Bool := false
  nLastSend : ℤ := 0
  vRecvMsg : List CNetMessage := []
  nRecvBytes : ℕ := 0
  nLastRecv : ℤ := 0
  mapRecvBytesPerMsgCmd : Bytes → Option ℕ
  vProcessMsg : List CNetMessage := []
  nProcessQueueSize : ℕ := 0
  fPauseRecv : Bool := false

namespace CNode

/-- The constructor. -/
def new (P : Params) : CNode where
  mapRecvBytesPerMsgCmd := fun command =>
    if command ∈ P.messageTypes ∨ command = NET_MESSAGE_COMMAND_OTHER then some 0 else none

/-! ### Sending -/

/-- What `send` does: bytes are taken, but no more than are offered; the call would block; or it
fails in another way. -/
inductive SendOutcome where
  | sent (n : ℕ)
  | wouldBlock
  | failed
  deriving DecidableEq

/-- An assertion that does not hold. -/
inductive AssertionError where
  | assertion (text : String)
  deriving DecidableEq

/-- `CNode::CloseSocketDisconnect`. -/
def closeSocketDisconnect (node : CNode) : CNode :=
  { node with fDisconnect := true, hSocket := false }

/-- The loop of `SocketSendData` over the buffers from `it` on. It gives the buffers that are left,
the node, and the bytes that the socket has taken. -/
def sendLoop (nSendBufferMaxSize : ℕ) (now : ℤ) :
    List Bytes → List SendOutcome → CNode → Except AssertionError (List Bytes × CNode × Bytes)
  | [], _, node => return ([], node, [])
  | data :: rest, outcomes, node =>
    if ¬ data.length > node.nSendOffset then
      throw (.assertion "data.size() > pnode->nSendOffset")
    else if !node.hSocket then return (data :: rest, node, [])
    else match outcomes.headD .wouldBlock with
      | .sent n =>
        let nBytes := min n (data.length - node.nSendOffset)
        if nBytes > 0 then
          let taken := (data.drop node.nSendOffset).take nBytes
          let node := { node with
            nLastSend := now
            nSendBytes := (node.nSendBytes + nBytes) % 2 ^ 64
            nSendOffset := node.nSendOffset + nBytes }
          if node.nSendOffset = data.length then do
            let nSendSize := node.nSendSize - data.length
            let node := { node with
              nSendOffset := 0, nSendSize, fPauseSend := nSendSize > nSendBufferMaxSize }
            let (left, node, out) ← sendLoop nSendBufferMaxSize now rest outcomes.tail node
            return (left, node, taken ++ out)
          -- could not send full message; stop sending more
          else return (data :: rest, node, taken)
        else return (data :: rest, node, [])
      | .failed => return (data :: rest, node.closeSocketDisconnect, [])
      | .wouldBlock => return (data :: rest, node, [])

/-- `CConnman::SocketSendData`, with the bytes that the socket has taken. -/
def socketSendData (nSendBufferMaxSize : ℕ) (now : ℤ) (outcomes : List SendOutcome)
    (node : CNode) : Except AssertionError (CNode × Bytes) := do
  let (left, node, out) ← sendLoop nSendBufferMaxSize now node.vSendMsg outcomes node
  if left = [] ∧ node.nSendOffset ≠ 0 then throw (.assertion "pnode->nSendOffset == 0")
  else if left = [] ∧ node.nSendSize ≠ 0 then throw (.assertion "pnode->nSendSize == 0")
  else return ({ node with vSendMsg := left }, out)

/-- The header that `PushMessage` makes. -/
def header (P : Params) (msg : CSerializedNetMsg) : CMessageHeader :=
  { CMessageHeader.ofCommand P.messageStart msg.command msg.data.length with
    pchChecksum := (P.hash msg.data).take 4 }

/-- The first part of `CConnman::PushMessage`: the message is put into the queue. -/
def queueMessage (P : Params) (nSendBufferMaxSize : ℕ) (msg : CSerializedNetMsg) (node : CNode) :
    CNode :=
  let nTotalSize := msg.data.length + CMessageHeader.HEADER_SIZE
  let nSendSize := node.nSendSize + nTotalSize
  { node with
    mapSendBytesPerMsgCmd := fun command =>
      if command = msg.command then (node.mapSendBytesPerMsgCmd command + nTotalSize) % 2 ^ 64
      else node.mapSendBytesPerMsgCmd command
    nSendSize
    fPauseSend := if nSendSize > nSendBufferMaxSize then true else node.fPauseSend
    vSendMsg := node.vSendMsg ++ (header P msg).serialize ::
      if msg.data.length ≠ 0 then [msg.data] else [] }

/-- `CConnman::PushMessage`, with the bytes that the socket has taken. -/
def pushMessage (P : Params) (nSendBufferMaxSize : ℕ) (now : ℤ) (outcomes : List SendOutcome)
    (msg : CSerializedNetMsg) (node : CNode) : Except AssertionError (CNode × Bytes) :=
  let optimisticSend := node.vSendMsg = []
  let node := queueMessage P nSendBufferMaxSize msg node
  if optimisticSend then socketSendData nSendBufferMaxSize now outcomes node else return (node, [])

/-! ### Receiving -/

/-- What `ReceiveMsgBytes` comes to: it returns `true` or `false`, with the parameter `complete`, or
an assertion fails; `diverges` stands for a loop that does not end. -/
inductive Received where
  | done (complete : Bool) (node : CNode)
  | failed (complete : Bool) (node : CNode)
  | assertion (text : String)
  | diverges

/-- The current incomplete message, or a new one, with the messages before it. -/
def currentMsg (P : Params) (vRecvMsg : List CNetMessage) : List CNetMessage × CNetMessage :=
  match vRecvMsg.getLast? with
  | none => (vRecvMsg, .new P)
  | some msg => if msg.complete then (vRecvMsg, .new P) else (vRecvMsg.dropLast, msg)

/-- The received bytes per command, with those of a complete message. -/
def countReceived (node : CNode) (msg : CNetMessage) : Option (Bytes → Option ℕ) :=
  let key := if (node.mapRecvBytesPerMsgCmd msg.hdr.commandKey).isSome then msg.hdr.commandKey
    else NET_MESSAGE_COMMAND_OTHER
  match node.mapRecvBytesPerMsgCmd key with
  | none => none
  | some n => some fun command =>
    if command = key then
      some ((n + msg.hdr.nMessageSize + CMessageHeader.HEADER_SIZE) % 2 ^ 64)
    else node.mapRecvBytesPerMsgCmd command

/-- The loop of `ReceiveMsgBytes`. Each round takes at least one byte, so as many rounds as there
are bytes are enough. -/
def receiveLoop (P : Params) (nTimeMicros : ℤ) : ℕ → Bytes → Bool → CNode → Received
  | _, [], complete, node => .done complete node
  | 0, _ :: _, _, _ => .diverges
  | fuel + 1, b :: pch, complete, node =>
    let (before, msg) := currentMsg P node.vRecvMsg
    let (handled, msg) :=
      if !msg.in_data then msg.readHeader (b :: pch) else msg.readData (b :: pch)
    let node := { node with vRecvMsg := before ++ [msg] }
    if handled < 0 then .failed complete node
    else if msg.in_data && msg.hdr.nMessageSize > MAX_PROTOCOL_MESSAGE_LENGTH then
      .failed complete node
    else if msg.complete then
      match countReceived node msg with
      | none => .assertion "i != mapRecvBytesPerMsgCmd.end()"
      | some received =>
        receiveLoop P nTimeMicros fuel ((b :: pch).drop handled.toNat) true
          { node with
            vRecvMsg := before ++ [{ msg with nTime := nTimeMicros }]
            mapRecvBytesPerMsgCmd := received }
    else receiveLoop P nTimeMicros fuel ((b :: pch).drop handled.toNat) complete node

/-- `CNode::ReceiveMsgBytes`. -/
def receiveMsgBytes (P : Params) (nTimeMicros : ℤ) (pch : Bytes) (node : CNode) : Received :=
  receiveLoop P nTimeMicros pch.length pch false { node with
    nLastRecv := nTimeMicros.tdiv 1000000
    nRecvBytes := (node.nRecvBytes + pch.length) % 2 ^ 64 }

/-- The complete messages at the front of the list are passed on, as `ThreadSocketHandler` does it
when a call of `ReceiveMsgBytes` has completed one. -/
def handOver (nReceiveFloodSize : ℕ) (node : CNode) : CNode :=
  let ready := node.vRecvMsg.takeWhile CNetMessage.complete
  let nSizeAdded := (ready.map fun msg => msg.vRecv.length + CMessageHeader.HEADER_SIZE).sum
  let nProcessQueueSize := node.nProcessQueueSize + nSizeAdded
  { node with
    vProcessMsg := node.vProcessMsg ++ ready
    vRecvMsg := node.vRecvMsg.dropWhile CNetMessage.complete
    nProcessQueueSize
    fPauseRecv := nProcessQueueSize > nReceiveFloodSize }

end CNode

end Tos.Net
