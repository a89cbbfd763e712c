import Tos.Foundation.Method
import Tos.Sdag.FixedHash
import Tos.Storage.TrieCommon

/-!
# The trie over a database

The class template `GenericTrieDB` of `toscore/storage/TrieDB.h`: a Patricia tree whose nodes are
RLP lists. A node of 32 bytes and more is kept in a database under its hash and its parent has
the hash; a smaller one stands in its parent. Insertion and deletion take the nodes on the way
to a key out of the database and put the new ones in.

## Main definitions

* `Tos.NodeDB`: what the trie asks of its database.
* `GenericTrieDB`: the trie, with its root and its database.
* `GenericTrieDB.insert`, `remove`, `at_`: the operations, over `mergeAt`, `deleteAt` and
  `atAux`.

## Implementation notes

The recursion follows references in the database, so it takes a bound on its depth; without
enough of it a method fails with `TrieError.diverges`. An assertion that fails ends a method
with `TrieError.assertion`. The field `written` is not in the source: it holds the byte strings
that were put in the database, so that statements can say on which of them `sha3` should be free
of collisions. An item of a list is read on a fresh object; the lists here are well formed, and
then the cache of `operator[]` makes no difference (`RLP.itemCached_eq`).
-/

namespace Tos

open Sdag (H256)
open RLP (isEmpty isList isNull)

open Sdag.Wire (hashBytes ofHashBytes)

/-- The database of a trie. -/
class NodeDB (δ : Type) where
  lookup : δ → H256 → Bytes
  hasNode : δ → H256 → Bool
  insert : δ → H256 → Bytes → δ
  kill : δ → H256 → δ

/-- The ways a method of the trie fails to return. -/
inductive TrieError where
  | rlp (e : RlpError)
  | assertion
  | rootNotFound
  | badRoot (h : H256)
  | diverges
  deriving DecidableEq

/-- The class `GenericTrieDB`. -/
structure GenericTrieDB (δ : Type) where
  m_root : H256 := 0
  m_db : δ
  written : List Bytes := []

/-- `RLPNull`. -/
def RLPNull : Bytes := [0x80]

abbrev TrieM (δ : Type) := Method TrieError (GenericTrieDB δ)

namespace GenericTrieDB

variable {δ : Type} [NodeDB δ] (sha3 : Bytes → H256)

/-! ### Nodes and the database -/

/-- A call of the RLP library. -/
def rlp {α : Type} (x : Except RlpError α) : TrieM δ α := Method.call .rlp x

def assert (c : Bool) : TrieM δ Unit := if c then pure () else throw .assertion

/-- `GenericTrieDB::node`. -/
def node (h : H256) : TrieM δ Bytes := do return NodeDB.lookup (← get).m_db h

/-- `GenericTrieDB::forceInsertNode(bytesConstRef)`. -/
def forceInsertNode (v : Bytes) : TrieM δ H256 := do
  let h := sha3 v
  modify fun t => { t with m_db := NodeDB.insert t.m_db h v, written := v :: t.written }
  return h

/-- `GenericTrieDB::forceKillNode`. -/
def forceKillNode (h : H256) : TrieM δ Unit :=
  modify fun t => { t with m_db := NodeDB.kill t.m_db h }

/-- `GenericTrieDB::killNode(RLP, h256)`. -/
def killNodeAt (d : Bytes) (h : H256) : TrieM δ Unit :=
  if d.length ≥ 32 then forceKillNode h else pure ()

/-- `if (!_inLine) killNode(_orig, _origHash)`. -/
def killUnlessInLine (inLine : Bool) (d : Bytes) (h : H256) : TrieM δ Unit :=
  if inLine then pure () else killNodeAt d h

/-- `if (rootValue.size() < 32) forceKillNode(m_root)`: such a root is not killed as a node. -/
def killSmallRoot (rootValue : Bytes) (root : H256) : TrieM δ Unit :=
  if rootValue.length < 32 then forceKillNode root else pure ()

/-- `m_root = forceInsertNode(&b)`. -/
def replaceRoot (b : Bytes) : TrieM δ Unit := do
  let h ← forceInsertNode sha3 b
  modify fun t => { t with m_root := h }

/-- `GenericTrieDB::killNode(RLP)`. -/
def killNode (d : Bytes) : TrieM δ Unit := killNodeAt d (sha3 d)

/-- `GenericTrieDB::streamNode`. -/
def streamNode (s : RLPStream) (b : Bytes) : TrieM δ RLPStream := do
  if b.length < 32 then rlp (s.appendRaw b 1)
  else
    let h ← forceInsertNode sha3 b
    rlp (s.append (hashBytes h))

/-- `operator[]` of a node. -/
def item (x : Bytes) (i : ℕ) : TrieM δ Bytes := rlp (RLP.item x i)

/-- The constructor `RLP(std::string)`. -/
def ofNode (s : Bytes) : TrieM δ Bytes := rlp (RLP.ofBytes s RLP.VeryStrict)

/-- `toHash<h256>()`. -/
def toHash (x : Bytes) : TrieM δ H256 := do
  return ofHashBytes 256 (← rlp (RLP.toHash 32 x RLP.Strict))

/-- A child, in its parent or in the database. -/
def deref (x : Bytes) : TrieM δ Bytes :=
  if isList x then pure x
  else do ofNode (← node (← toHash x))

/-- The assertion that a node has two or seventeen items. -/
def assertNode (x : Bytes) (itemCount : ℕ) : TrieM δ Unit :=
  assert (isList x && (itemCount == 2 || itemCount == 17))

/-- `isLeaf`. -/
def isLeaf (x : Bytes) : TrieM δ Bool := do
  let n ← rlp (RLP.itemCount x)
  assert (isList x && n == 2)
  return leafFlag (← rlp (RLP.payload (← item x 0)))

/-- `keyOf(RLP)`. -/
def keyOfNode (x : Bytes) : TrieM δ NibbleSlice := do
  return keyOf (← rlp (RLP.payload (← item x 0)))

/-- `GenericTrieDB::isTwoItemNode`. -/
def isTwoItemNode (x : Bytes) : TrieM δ Bool := do
  if RLP.isData x then
    let r ← ofNode (← node (← toHash x))
    return (← rlp (RLP.itemCount r)) == 2
  else if isList x then return (← rlp (RLP.itemCount x)) == 2
  else return false

/-- The loop of `uniqueInUse`. -/
def uniqueInUseLoop (x : Bytes) (except : ℕ) : List ℕ → ℕ → TrieM δ ℕ
  | [], used => pure used
  | i :: is, used =>
    if i = except then uniqueInUseLoop x except is used
    else do
      if isEmpty (← item x i) then uniqueInUseLoop x except is used
      else if used = 255 then uniqueInUseLoop x except is i
      else return 255

/-- `uniqueInUse`. -/
def uniqueInUse (x : Bytes) (except : ℕ) : TrieM δ ℕ :=
  uniqueInUseLoop x except (List.range 17) 255

/-- A stream for a list of `n` items. -/
def newList (n : ℕ) : TrieM δ RLPStream := rlp (RLPStream.appendList {} n)

/-- `r << x[i]`. -/
def appendItem (x : Bytes) (s : RLPStream) (i : ℕ) : TrieM δ RLPStream := do
  rlp (s.appendRaw (← item x i) 1)

/-- `rlpList(x, y)`, for a byte string and an item that is there already. -/
def pairOf (key item : Bytes) : TrieM δ Bytes := do
  let s ← newList 2
  let s ← rlp (s.append key)
  let s ← rlp (s.appendRaw item 1)
  rlp s.out

/-! ### Looking up -/

/-- `GenericTrieDB::atAux`. -/
def atAux : ℕ → Bytes → NibbleSlice → TrieM δ Bytes
  | 0, _, _ => throw .diverges
  | fuel + 1, here, key => do
    if isEmpty here || isNull here then return []
    let itemCount := (← rlp (RLP.itemCount here)) % 2 ^ 32
    assertNode here itemCount
    if itemCount = 2 then
      let k ← keyOfNode here
      let leaf ← isLeaf here
      if key.equal k && leaf then rlp (RLP.toBytes (← item here 1) RLP.LaissezFaire)
      else if key.contains k && !leaf then
        atAux fuel (← deref (← item here 1)) (key.mid k.size)
      else return []
    else if key.size = 0 then rlp (RLP.toBytes (← item here 16) RLP.LaissezFaire)
    else
      let n ← item here (key.get 0)
      if isEmpty n then return []
      else atAux fuel (← deref n) (key.mid 1)

/-- `GenericTrieDB::at`. -/
def at_ (fuel : ℕ) (key : Bytes) : TrieM δ Bytes := do
  atAux fuel (← ofNode (← node (← get).m_root)) ⟨key, 0⟩

/-! ### Insertion -/

/-- `GenericTrieDB::place`. -/
def place (orig : Bytes) (k : NibbleSlice) (v : Bytes) : TrieM δ Bytes := do
  killNode sha3 orig
  if isEmpty orig then
    let s ← newList 2
    let s ← rlp (s.append (hexPrefixEncode k true))
    let s ← rlp (s.append v)
    rlp s.out
  else
    let itemCount ← rlp (RLP.itemCount orig)
    assertNode orig itemCount
    if itemCount = 2 then
      let s ← newList 2
      let s ← appendItem orig s 0
      let s ← rlp (s.append v)
      rlp s.out
    else
      let s ← newList 17
      let s ← (List.range 16).foldlM (appendItem orig) s
      let s ← rlp (s.append v)
      rlp s.out

/-- `GenericTrieDB::cleve`. -/
def cleve (orig : Bytes) (n : ℕ) : TrieM δ Bytes := do
  killNode sha3 orig
  let itemCount ← rlp (RLP.itemCount orig)
  assert (isList orig && itemCount == 2)
  let k ← keyOfNode orig
  assert (n != 0 && n ≤ k.size)
  let leaf ← isLeaf orig
  let bottom ← pairOf (hexPrefixEncode k leaf n) (← item orig 1)
  let top ← newList 2
  let top ← rlp (top.append (hexPrefixEncode k false 0 n))
  let top ← streamNode sha3 top bottom
  rlp top.out

/-- `GenericTrieDB::branch`. -/
def branch (orig : Bytes) : TrieM δ Bytes := do
  let itemCount ← rlp (RLP.itemCount orig)
  assert (isList orig && itemCount == 2)
  killNode sha3 orig
  let k ← keyOfNode orig
  let r ← newList 17
  let leaf ← isLeaf orig
  if k.size = 0 then
    assert leaf
    let r ← (List.range 16).foldlM (fun r _ => rlp (r.append [])) r
    let r ← appendItem orig r 1
    rlp r.out
  else
    let r ← (List.range 16).foldlM (fun r i =>
      if i = (k.get 0).val then
        if leaf || k.size > 1 then do
          streamNode sha3 r (← pairOf (hexPrefixEncode (k.mid 1) leaf) (← item orig 1))
        else appendItem orig r 1
      else rlp (r.append [])) r
    let r ← rlp (r.append [])
    rlp r.out

/-- `GenericTrieDB::mergeAtAux`, with the call of `mergeAt` as an argument. -/
def mergeAtAux (merge : Bytes → Bool → TrieM δ Bytes) (out : RLPStream) (orig : Bytes) :
    TrieM δ RLPStream := do
  if !isList orig && !isEmpty orig then
    let r ← ofNode (← node (← toHash orig))
    assert (!isNull r)
    streamNode sha3 out (← merge r false)
  else streamNode sha3 out (← merge orig true)

/-- `GenericTrieDB::mergeAt`. -/
def mergeAt (v : Bytes) : ℕ → Bytes → H256 → NibbleSlice → Bool → TrieM δ Bytes
  | 0, _, _, _, _ => throw .diverges
  | fuel + 1, orig, origHash, key, inLine => do
    if isEmpty orig then place sha3 orig key v
    else
      let itemCount := (← rlp (RLP.itemCount orig)) % 2 ^ 32
      assertNode orig itemCount
      if itemCount = 2 then
        let k ← keyOfNode orig
        let leaf ← isLeaf orig
        if k.equal key && leaf then place sha3 orig key v
        else if key.contains k && !leaf then
          killUnlessInLine inLine orig origHash
          let s ← newList 2
          let s ← appendItem orig s 0
          let s ← mergeAtAux sha3 (fun r => mergeAt v fuel r (sha3 r) (key.mid k.size)) s
            (← item orig 1)
          rlp s.out
        else
          let sh := key.shared k
          if sh ≠ 0 then
            let cleved ← cleve sha3 orig sh
            let r ← ofNode cleved
            mergeAt v fuel r (sha3 r) key true
          else
            let branched ← branch sha3 orig
            let r ← ofNode branched
            mergeAt v fuel r (sha3 r) key true
      else if key.size = 0 then place sha3 orig key v
      else
        killUnlessInLine inLine orig origHash
        let n := (key.get 0).val
        let r ← newList 17
        let r ← (List.range 17).foldlM (fun r i => do
          if i = n then
            mergeAtAux sha3 (fun x => mergeAt v fuel x (sha3 x) (key.mid 1)) r (← item orig i)
          else appendItem orig r i) r
        rlp r.out

/-- `GenericTrieDB::insert`. -/
def insert (fuel : ℕ) (key value : Bytes) : TrieM δ Unit := do
  let root := (← get).m_root
  let rootValue ← node root
  assert (rootValue.length != 0)
  let b ← mergeAt sha3 value fuel (← ofNode rootValue) root ⟨key, 0⟩ false
  killSmallRoot rootValue root
  replaceRoot sha3 b

/-! ### Deletion -/

/-- The child that `graft` takes in: one in the database is taken out of it. -/
def takeOut (x : Bytes) : TrieM δ Bytes :=
  if isList x then pure x
  else do
    let lh ← toHash x
    let s ← node lh
    forceKillNode lh
    ofNode s

/-- `GenericTrieDB::graft`. -/
def graft (orig : Bytes) : TrieM δ Bytes := do
  let itemCount ← rlp (RLP.itemCount orig)
  assert (isList orig && itemCount == 2)
  let n ← takeOut (← item orig 1)
  let itemCount ← rlp (RLP.itemCount n)
  assert (itemCount == 2)
  let k ← keyOfNode orig
  let l ← keyOfNode n
  let leaf ← isLeaf n
  pairOf (hexPrefixEncodeJoin k l leaf) (← item n 1)

/-- `GenericTrieDB::merge`. -/
def merge (orig : Bytes) (i : ℕ) : TrieM δ Bytes := do
  let itemCount ← rlp (RLP.itemCount orig)
  assert (isList orig && itemCount == 17)
  let x ← item orig i
  if i ≠ 16 then
    assert (!isEmpty x)
    pairOf (hexPrefixEncode ⟨[UInt8.ofNat i], 0⟩ false 1 2) x
  else pairOf (hexPrefixEncodeVector [] true) x

/-- The end of a deletion in a branch of which one place is in use: the place becomes a pair,
and is grafted if it is one already. -/
def mergeUsed (orig : Bytes) (used : ℕ) : TrieM δ Bytes := do
  if ← isTwoItemNode (← item orig used) then
    graft (← ofNode (← merge orig used))
  else merge orig used

/-- `GenericTrieDB::deleteAtAux`, with the call of `deleteAt` as an argument; `none` if nothing
was deleted. -/
def deleteAtAux (delete : Bytes → TrieM δ Bytes) (out : RLPStream) (orig : Bytes) :
    TrieM δ (Option RLPStream) := do
  let b ← deleteChild
  if b.length = 0 then return none
  else return some (← streamNode sha3 out b)
where
  /-- `_orig.isEmpty() ? bytes() : deleteAt(...)`. -/
  deleteChild : TrieM δ Bytes :=
    if isEmpty orig then pure [] else do delete (← deref orig)

/-- `_k.size() == 0 && !_orig[16].isEmpty()`. -/
def endsHere (orig : Bytes) (key : NibbleSlice) : TrieM δ Bool :=
  if key.size = 0 then do return !isEmpty (← item orig 16) else pure false

/-- The loop of `deleteAt` over the places of a branch, which ends when nothing was deleted. -/
def deleteLoop (delete : Bytes → TrieM δ Bytes) (orig : Bytes) (n : ℕ) :
    List ℕ → RLPStream → TrieM δ (Option RLPStream)
  | [], r => pure (some r)
  | i :: is, r => do
    if i = n then
      match ← deleteAtAux sha3 delete r (← item orig i) with
      | none => return none
      | some r => deleteLoop delete orig n is r
    else deleteLoop delete orig n is (← appendItem orig r i)

/-- The end of `deleteAt` in a pair, whose child was replaced in `s`. -/
def deletedInPair (orig : Bytes) : Option RLPStream → TrieM δ Bytes
  | none => return []
  | some s => do
    killNode sha3 orig
    let out ← rlp s.out
    let r ← ofNode out
    if ← isTwoItemNode (← item r 1) then graft r else return out

/-- The end of `deleteAt` in a branch, of which a child was replaced in `r`. -/
def deletedInBranch (orig : Bytes) : Option RLPStream → TrieM δ Bytes
  | none => return []
  | some r => do
    killNode sha3 orig
    let out ← rlp r.out
    let x ← ofNode out
    let used ← uniqueInUse x 255
    if used = 255 then return out
    else mergeUsed x used

/-- `GenericTrieDB::deleteAt`. -/
def deleteAt : ℕ → Bytes → NibbleSlice → TrieM δ Bytes
  | 0, _, _ => throw .diverges
  | fuel + 1, orig, key => do
    if isEmpty orig then return []
    let itemCount ← rlp (RLP.itemCount orig)
    assertNode orig itemCount
    if itemCount = 2 then
      let k ← keyOfNode orig
      let leaf ← isLeaf orig
      if k.equal key && leaf then
        killNode sha3 orig
        return RLPNull
      else if key.contains k then
        let s ← newList 2
        let s ← appendItem orig s 0
        deletedInPair sha3 orig
          (← deleteAtAux sha3 (fun x => deleteAt fuel x (key.mid k.size)) s (← item orig 1))
      else return []
    else if ← endsHere orig key then
      killNode sha3 orig
      let used ← uniqueInUse orig 16
      if used ≠ 255 then mergeUsed orig used
      else
        let r ← newList 17
        let r ← (List.range 16).foldlM (appendItem orig) r
        let r ← rlp (r.append [])
        rlp r.out
    else
      let r ← newList 17
      deletedInBranch sha3 orig
        (← deleteLoop sha3 (fun x => deleteAt fuel x (key.mid 1)) orig (key.get 0)
          (List.range 17) r)

/-- `GenericTrieDB::remove`. -/
def remove (fuel : ℕ) (key : Bytes) : TrieM δ Unit := do
  let root := (← get).m_root
  let rv ← node root
  let b ← deleteAt sha3 fuel (← ofNode rv) ⟨key, 0⟩
  if b.length ≠ 0 then
    killSmallRoot rv root
    replaceRoot sha3 b

/-! ### The root -/

/-- `GenericTrieDB::init`, with the call of `setRoot` as an argument. -/
def initAux (setRoot : H256 → TrieM δ Unit) : TrieM δ Unit := do
  let h ← forceInsertNode sha3 RLPNull
  setRoot h
  assert ((← node (← get).m_root).length != 0)

/-- `GenericTrieDB::setRoot` with `Verification::Normal`. -/
def setRoot : ℕ → H256 → TrieM δ Unit
  | 0, _ => throw .diverges
  | fuel + 1, root => do
    modify fun t => { t with m_root := root }
    if root = sha3 RLPNull ∧ !NodeDB.hasNode (← get).m_db root then
      initAux sha3 (setRoot fuel)
      requireRoot
    else requireRoot
where
  /-- `if (!node(m_root).size()) throw RootNotFound`. -/
  requireRoot : TrieM δ Unit := do
    if (← node (← get).m_root).length = 0 then throw .rootNotFound else pure ()

/-- `GenericTrieDB::init`. -/
def init (fuel : ℕ) : TrieM δ Unit := initAux sha3 (setRoot sha3 fuel)

/-- `GenericTrieDB::root`. -/
def root : TrieM δ H256 := do
  let h := (← get).m_root
  if (← node h).length = 0 then throw (.badRoot h)
  return h

end GenericTrieDB

end Tos
