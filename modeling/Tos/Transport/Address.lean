import Tos.Rlp.Canonical
import Tos.Rlp.Vector
import Tos.Rlp.Writer
import Tos.Transport.NetAddress

/-!
# Addresses of peers on the wire

The classes `CService` (`transport/netaddress.h`) and `CAddress` (`transport/protocol.h`) with their
`Serialize` and `UnSerialize`. An address travels as a list: on disk the version and the time, on
the network the time if the version is not too old, then the services and the pair of the sixteen
address bytes and the port.

The reader is lenient where the writer is not. `UnSerialize` does not count the items of the list
and takes a byte string for one, the version found on disk need not be the version of the stream,
and `toVectorRef` is called without `ThrowOnFail`: a list of bytes that has another length than
sixteen is passed over, and the object keeps the address bytes it had before.

## Main results

* `CAddress.unSerialize_eq_ok`: the form of accepted bytes, and the object read.
* `CAddress.readsBack_iff`: an object read depends on the bytes only, and is written as
  these bytes, exactly when accepted bytes pass the missing checks.
* `CAddress.keeps_old_address`: two objects that read the same bytes and differ.

## Implementation notes

`ServiceFlags` is an enumeration over `uint64_t` that is cast from any number, so it is `UInt64`.
The type of a stream is a set of flags in an `int`.
-/

namespace Tos.Net

open List hiding Vector
open RLP (bind_eq_ok_iff frames frames_inj isList itemCached item_frame length_le_of_mem_frames
  maxLength payload toInt_eq_ok)
open BigEndian (bytes length_bytes_le_iff value value_bytes)
open Rlp (Kind frame)

/-! ### The classes -/

/-- `htons` and `ntohs` on a machine that stores the low byte first. -/
def htons (x : UInt16) : UInt16 := UInt16.ofNat (x.toNat % 256 * 256 + x.toNat / 256)

lemma htons_htons (x : UInt16) : htons (htons x) = x := by
  have hx := x.toNat_lt
  have hlt : x.toNat % 256 * 256 + x.toNat / 256 < 2 ^ 16 := by omega
  have hlow : (x.toNat % 256 * 256 + x.toNat / 256) % 256 = x.toNat / 256 := by omega
  have hhigh : (x.toNat % 256 * 256 + x.toNat / 256) / 256 = x.toNat % 256 := by omega
  rw [← UInt16.toNat_inj, htons, htons, UInt16.toNat_ofNat', UInt16.toNat_ofNat',
    Nat.mod_eq_of_lt hlt, hlow, hhigh, Nat.div_add_mod', Nat.mod_eq_of_lt hx]

/-- The class `CService`: a network address and a port in host order. -/
structure CService extends CNetAddr where
  port : UInt16 := 0
  deriving DecidableEq

/-- The class `CAddress`: a service with information about it as peer. -/
structure CAddress extends CService where
  nServices : UInt64 := 0
  nTime : UInt32 := 100000000
  deriving DecidableEq

def SER_NETWORK : Int32 := 1
def SER_DISK : Int32 := 2
def SER_GETHASH : Int32 := 4

def CADDR_TIME_VERSION : Int32 := 31402

/-- `type & SER_DISK`. -/
def onDisk (type : Int32) : Bool := type &&& SER_DISK != 0

/-- The condition under which the time of an address is stored. -/
def withTime (type version : Int32) : Bool :=
  onDisk type || (version ≥ CADDR_TIME_VERSION && type &&& SER_GETHASH == 0)

/-- `RLPStream::append(vector_ref)` for bytes: a list of numbers. -/
def appendVectorRef (s : RLPStream) (v : Bytes) : Except RlpError RLPStream := do
  let s ← s.appendList v.length
  v.foldlM (fun s i => s.appendInt i.toNat) s

/-- `convert<unsigned char>` as `toVectorRef` calls it. -/
def convertByte (x : Bytes) : Except RlpError UInt8 :=
  (RLP.toInt 1 x RLP.LaissezFaire).map UInt8.ofNat

namespace CService

/-- `CService::Serialize`. -/
def serialize (a : CService) (s : RLPStream) : Except RlpError RLPStream := do
  let portN := htons a.port
  let s ← s.appendList 2
  let s ← appendVectorRef s a.ip.toList
  s.appendInt portN.toNat

/-- `CService::UnSerialize`. -/
def unSerialize (a : CService) (stream : Bytes) : Except RlpError CService := do
  let rlp ← RLP.ofBytes stream RLP.VeryStrict
  if !isList rlp || (← RLP.itemCount rlp) != 2 then
    throw (.rlpException "Unexpected data format.")
  else
    let (x0, c) ← itemCached rlp {} 0
    let ip ← RLP.toVectorRef convertByte x0 a.ip RLP.LaissezFaire
    let (x1, _) ← itemCached rlp c 1
    let portN ← RLP.toInt 2 x1 RLP.Strict
    return { a with ip, port := htons (UInt16.ofNat portN) }

end CService

namespace CAddress

/-- `CAddress::Init`. -/
def init (a : CAddress) : CAddress := { a with nServices := 0, nTime := 100000000 }

/-- The vector `fields` of `Serialize`. -/
def fields (a : CAddress) (type version : Int32) : List ℕ :=
  (if onDisk type then [version.toUInt32.toNat] else []) ++
    (if withTime type version then [a.nTime.toNat] else [])

/-- `CAddress::Serialize`. -/
def serialize (a : CAddress) (type version : Int32) (s : RLPStream) :
    Except RlpError RLPStream := do
  let fields := a.fields type version
  let s ← s.appendList (fields.length + 2)
  let s ← fields.foldlM (fun s field => s.appendInt field) s
  let s ← s.appendInt a.nServices.toNat
  a.toCService.serialize s

/-- The bytes that `Serialize` leaves on a new stream. -/
def bytesOf (a : CAddress) (type version : Int32) : Except RlpError Bytes := do
  (← a.serialize type version {}).out

/-- The beginning of `UnSerialize`: the version that counts and the index behind it. -/
def readVersion (rlp : Bytes) (type version : Int32) :
    Except RlpError (Int32 × ℕ × RLP.Cache) := do
  if onDisk type then
    let (x, c) ← itemCached rlp {} 0
    let nVersion ← RLP.toInt 4 x RLP.Strict
    return (Int32.ofNat nVersion, 1, c)
  else return (version, 0, {})

/-- The time, if it is there, and the index behind it. -/
def readTime (rlp : Bytes) (type nVersion : Int32) (index : ℕ) (c : RLP.Cache) (nTime : UInt32) :
    Except RlpError (UInt32 × ℕ × RLP.Cache) := do
  if withTime type nVersion then
    let (x, c) ← itemCached rlp c index
    let nTime ← RLP.toInt 4 x RLP.Strict
    return (UInt32.ofNat nTime, index + 1, c)
  else return (nTime, index, c)

/-- `CAddress::UnSerialize`. -/
def unSerialize (a : CAddress) (stream : Bytes) (type version : Int32) :
    Except RlpError CAddress := do
  let a := a.init
  let rlp ← RLP.ofBytes stream RLP.VeryStrict
  let (nVersion, index, c) ← readVersion rlp type version
  let (nTime, index, c) ← readTime rlp type nVersion index c a.nTime
  let (x, c) ← itemCached rlp c index
  let nServicesInt ← RLP.toInt 8 x RLP.Strict
  let (scv, _) ← itemCached rlp c (index + 1)
  let service ← a.toCService.unSerialize scv
  return { toCService := service, nServices := UInt64.ofNat nServicesInt, nTime }

end CAddress

/-! ### What is written -/

open Rlp (Item encode encodeList)
open RLPStream (Appends)

/-- The tree of a number. -/
def intItem (n : ℕ) : Item := .data (bytes n)

lemma length_encode_intItem_le {n : ℕ} (h : n < 2 ^ 64) : (encode (intItem n)).length ≤ 17 := by
  have hn : (bytes n).length ≤ 8 :=
    length_bytes_le_iff.mpr (by simpa using h)
  have hframe := Rlp.length_frame_le (k := .data) (p := bytes n) (by omega)
  rw [intItem, Rlp.encode_data]
  omega

/-- The encoding of a list of numbers is short. -/
lemma length_encodeList_intItem_le {α : Type} {f : α → ℕ} (l : List α) (h : ∀ x ∈ l, f x < 2 ^ 64) :
    (encodeList (l.map fun x => intItem (f x))).length ≤ 17 * l.length := by
  induction l with
  | nil => simp
  | cons x l ih =>
    have hx := length_encode_intItem_le (h x (by simp))
    have hrest := ih fun y hy => h y (mem_cons_of_mem x hy)
    simp only [map_cons, Rlp.encodeList_cons, length_append, length_cons]
    omega

lemma appends_intItem {n : ℕ} (h : n < 2 ^ 64) :
    Appends 1 (fun s => s.appendInt n) [intItem n] := by
  have hn : (bytes n).length ≤ 8 :=
    length_bytes_le_iff.mpr (by simpa using h)
  exact RLPStream.appends_appendInt (by omega)

namespace CService

/-- The trees of the address bytes. -/
def ipItems (a : CService) : List Item := a.ip.toList.map fun x => intItem x.toNat

/-- The trees of the two items of a service. -/
def items (a : CService) : List Item := [.list a.ipItems, intItem (htons a.port).toNat]

lemma length_encodeList_ipItems_le (a : CService) : (encodeList a.ipItems).length ≤ 272 := by
  have h := length_encodeList_intItem_le (f := UInt8.toNat) a.ip.toList
    fun x _ => x.toNat_lt.trans (by norm_num)
  simpa [ipItems] using h

lemma length_encodeList_items_le (a : CService) : (encodeList a.items).length ≤ 298 := by
  have hip := a.length_encodeList_ipItems_le
  have hframe := Rlp.length_frame_le (k := .list) (p := encodeList a.ipItems) (by omega)
  have hport := length_encode_intItem_le (n := (htons a.port).toNat)
    ((htons a.port).toNat_lt.trans (by norm_num))
  simp only [items, Rlp.encodeList_cons, Rlp.encodeList_nil, Rlp.encode_list, length_append,
    length_nil]
  omega

/-- What `CService::Serialize` writes. -/
lemma appends_serialize (a : CService) : Appends 1 a.serialize [.list a.items] := by
  have hbytes : Appends a.ipItems.length
      (fun s => a.ip.toList.foldlM (fun s i => s.appendInt i.toNat) s) a.ipItems :=
    RLPStream.appends_foldlM a.ip.toList fun x _ =>
      appends_intItem (x.toNat_lt.trans (by norm_num))
  have hip : Appends 1 (fun s => appendVectorRef s a.ip.toList) [.list a.ipItems] := by
    have h := hbytes.opened (a.length_encodeList_ipItems_le.trans_lt (by norm_num))
    rwa [ipItems, length_map] at h
  have hport := appends_intItem (n := (htons a.port).toNat)
    ((htons a.port).toNat_lt.trans (by norm_num))
  exact (hip.cons hport.last).opened (a.length_encodeList_items_le.trans_lt (by norm_num))

end CService

namespace CAddress

/-- The trees of the items of an address. -/
def items (a : CAddress) (type version : Int32) : List Item :=
  (a.fields type version).map intItem ++ [intItem a.nServices.toNat, .list a.toCService.items]

lemma fields_lt (a : CAddress) (type version : Int32) :
    ∀ n ∈ a.fields type version, n < 2 ^ 64 := by
  intro n hn
  rcases mem_append.mp hn with hn | hn
  all_goals
    split_ifs at hn
    · rw [mem_singleton.mp hn]
      exact (UInt32.toNat_lt _).trans (by norm_num)
    · simp at hn

lemma length_encodeList_items_lt (a : CAddress) (type version : Int32) :
    (encodeList (a.items type version)).length < maxLength := by
  have hfields : (encodeList ((a.fields type version).map intItem)).length ≤ 17 * _ :=
    length_encodeList_intItem_le (f := id) _ (a.fields_lt type version)
  have hcount : (a.fields type version).length ≤ 2 := by
    unfold fields
    split_ifs <;> simp
  have hservices := length_encode_intItem_le a.nServices.toNat_lt
  have hservice := a.toCService.length_encodeList_items_le
  have hframe := Rlp.length_frame_le (k := .list) (p := encodeList a.toCService.items) (by omega)
  simp only [Rlp.encodeList_cons, Rlp.encodeList_nil, length_append, length_nil,
    items, Rlp.encodeList_append, Rlp.encode_list, maxLength]
  omega

/-- **What `Serialize` writes.** -/
lemma bytesOf_eq (a : CAddress) (type version : Int32) :
    a.bytesOf type version = .ok (encode (.list (a.items type version))) := by
  have hfields : Appends _ (fun s => (a.fields type version).foldlM
      (fun s field => s.appendInt field) s) ((a.fields type version).map intItem) :=
    RLPStream.appends_foldlM _ fun n hn => appends_intItem (a.fields_lt type version n hn)
  have hservices := appends_intItem a.nServices.toNat_lt
  have hall := (hfields.append (hservices.cons a.toCService.appends_serialize.last)).opened
    ((a.length_encodeList_items_lt type version).trans (by norm_num [maxLength]))
  have hrun := hall.run_empty
  rw [length_append, length_map] at hrun
  change (a.serialize type version {}).bind (fun s => s.out) = _
  rw [show a.serialize type version {} = _ from hrun]
  simp [Except.bind, RLPStream.out, items]

end CAddress

/-! ### What is read -/

open RLP (Seen)

/-- The frame of a number. -/
def intFrame (n : ℕ) : Kind × Bytes := (.data, bytes n)

lemma encodeList_eq_frames (xs : List Item) :
    encodeList xs = frames (xs.map fun x => (x.kind, x.payload)) := by
  induction xs with
  | nil => rfl
  | cons x xs ih =>
    rw [Rlp.encodeList_cons, ih, Rlp.encode_eq_frame]
    simp [frames]

/-- The address bytes after a list of address bytes has been read, if the object had the bytes
`ip` before. -/
def IpRead (gs : List (Kind × Bytes)) (ip ip' : Vector UInt8 16) : Prop :=
  if gs.length = 16 then
    List.Forall₂ (fun g x => convertByte (frame g.1 g.2) = .ok x) gs ip'.toList
  else ip' = ip

/-- Address bytes that were read from canonical numbers are these numbers. -/
lemma IpRead.eq {gs : List (Kind × Bytes)} {ip ip' : Vector UInt8 16} (h : IpRead gs ip ip')
    (hlen : gs.length = 16) (hgs : ∀ g ∈ gs, ∃ n < 256, g = intFrame n) :
    gs = ip'.toList.map fun x => intFrame x.toNat := by
  rw [IpRead, if_pos hlen] at h
  have hboth := (forall₂_and_left _ _).mpr ⟨hgs, h⟩
  have heq : List.Forall₂ (fun g (x : UInt8) => g = intFrame x.toNat) gs ip'.toList := by
    refine hboth.imp ?_
    rintro g x ⟨⟨n, hn, rfl⟩, hx⟩
    have hbytes : (bytes n).length < maxLength :=
      (length_bytes_le_iff.mpr (show n < 256 ^ 1 by omega)).trans_lt
        (by norm_num [maxLength])
    rw [convertByte, intFrame, RLP.toInt_laissezFaire hbytes, value_bytes] at hx
    obtain rfl := Except.ok.inj hx
    rw [UInt8.toNat_ofNat', pow_one, Nat.mod_mod, Nat.mod_eq_of_lt hn]
  rwa [← forall₂_map_right_iff (R := Eq), forall₂_eq_eq_eq] at heq

/-- The items of a service, as far as the reader looks at them. -/
def serviceFrames (gs : List (Kind × Bytes)) (portN : ℕ) : List (Kind × Bytes) :=
  [(.list, frames gs), intFrame portN]

lemma intFrame_injective : Function.Injective intFrame := fun m n h => by
  rw [← value_bytes m, ← value_bytes n]
  exact congrArg (fun f => value f.2) h

/-- Services can be told apart. -/
lemma serviceFrames_inj {fs gs : List (Kind × Bytes)} {m n : ℕ}
    (hlen : (frames (serviceFrames fs m)).length < 2 ^ 64)
    (h : frames (serviceFrames fs m) = frames (serviceFrames gs n)) : fs = gs ∧ m = n := by
  have hboth := frames_inj hlen (by rwa [← h]) h
  simp only [serviceFrames, List.cons.injEq, Prod.mk.injEq, true_and, and_true] at hboth
  have hfs : (frames fs).length < 2 ^ 64 :=
    (length_le_of_mem_frames (f := (.list, frames fs)) (by simp [serviceFrames])).trans_lt hlen
  exact ⟨frames_inj hfs (by rwa [← hboth.1]) hboth.1, intFrame_injective hboth.2⟩

/-- **What `CService::UnSerialize` accepts and reads.** -/
lemma CService.unSerialize_eq_ok {b : Bytes} {a a' : CService} (h : a.unSerialize b = .ok a') :
    ∃ gs portN, b = frame .list (frames (serviceFrames gs portN)) ∧
      (frames (serviceFrames gs portN)).length < maxLength ∧
      (htons a'.port).toNat = portN ∧ IpRead gs a.ip a'.ip := by
  simp only [unSerialize, bind_eq_ok_iff] at h
  obtain ⟨d, hd, n, hn, h⟩ := h
  by_cases hcheck : (!isList d || n != 2) = true
  · rw [if_pos hcheck] at h
    cases h
  rw [if_neg hcheck] at h
  rw [Bool.or_eq_true, not_or] at hcheck
  have hlist : isList d = true := by simpa using hcheck.1
  obtain rfl : n = 2 := by simpa using hcheck.2
  obtain ⟨rfl, p, rfl, hp⟩ := RLP.exists_list_of_ofBytes hd hlist
  have hpay := RLP.payload_whole (k := .list) hp
  simp only [bind_eq_ok_iff, Prod.exists, pure, Except.pure, Except.ok.injEq] at h
  obtain ⟨x0, c, hx0, ip, hip, x1, c', hx1, portN, hport, rfl⟩ := h
  -- the first item is a list, the second a number
  obtain ⟨g, q, rfl, -, hseen⟩ := (Seen.none p).next hpay rfl hx0 (by
    rintro rfl
    simp [RLP.toVectorRef, RLP.itemCountStrict, isList, bind, Except.bind] at hip)
  have hg := hseen.small g (by simp)
  obtain ⟨k, pg⟩ := g
  obtain rfl : k = .list := by
    cases k with
    | list => rfl
    | data =>
      have hdata : isList (frame .data pg) = false := RLP.isList_whole hg
      simp [RLP.toVectorRef, RLP.itemCountStrict, hdata, bind, Except.bind] at hip
  obtain ⟨gs, rfl, -, hread⟩ := RLP.toVectorRef_eq_ok hg hip
  obtain ⟨hlt, q', hseen'⟩ := hseen.int hpay rfl hx1 hport
  have hq : q' = [] := hseen'.seenUpTo.rest_eq_nil hpay hlist hn (by simp)
  have hp' : p = frames (serviceFrames gs portN) := by
    rw [hseen'.payload_eq, hq, append_nil]
    rfl
  refine ⟨gs, portN, by rw [hp'], by rwa [← hp'], ?_, hread⟩
  rw [htons_htons, UInt16.toNat_ofNat']
  exact Nat.mod_eq_of_lt hlt

namespace CAddress

/-- The numbers in front of the services, for a version and a time. -/
def fieldsOf (type version : Int32) (ver time : ℕ) : List ℕ :=
  (if onDisk type then [ver] else []) ++ (if withTime type version then [time] else [])

/-- The items of an address, as far as the reader looks at them. -/
def addressFrames (type version : Int32) (ver time services : ℕ) (gs : List (Kind × Bytes))
    (portN : ℕ) : List (Kind × Bytes) :=
  (fieldsOf type version ver time).map intFrame ++
    [intFrame services, (.list, frames (serviceFrames gs portN))]

section Read

variable {d p q : Bytes} {type version v : Int32} {c c' : RLP.Cache} {i i' : ℕ}

/-- The version, if it is there. -/
lemma readVersion_eq_ok (hpay : payload d = .ok p)
    (h : readVersion d type version = .ok (v, i, c)) :
    ∃ ver < 2 ^ 32, ∃ q, Seen p ((if onDisk type then [ver] else []).map intFrame) q c ∧
      i = (if onDisk type then [ver] else []).length ∧
      withTime type v = withTime type version := by
  rw [readVersion] at h
  cases hdisk : onDisk type with
  | true =>
    simp only [hdisk, if_true, bind_eq_ok_iff, Prod.exists, pure, Except.pure,
      Except.ok.injEq, Prod.mk.injEq] at h
    obtain ⟨x, c₀, hx, ver, hver, rfl, rfl, rfl⟩ := h
    obtain ⟨hlt, q, hseen⟩ := (Seen.none p).int hpay rfl hx hver
    exact ⟨ver, hlt, q, hseen, rfl, by simp [withTime, hdisk]⟩
  | false =>
    simp only [hdisk, Bool.false_eq_true, if_false, pure, Except.pure, Except.ok.injEq,
      Prod.mk.injEq] at h
    obtain ⟨rfl, rfl, rfl⟩ := h
    exact ⟨0, by norm_num, p, Seen.none p, rfl, rfl⟩

/-- The time, if it is there. -/
lemma readTime_eq_ok (hpay : payload d = .ok p) {fs : List (Kind × Bytes)}
    (hc : Seen p fs q c) (hi : i = fs.length) {nTime nTime' : UInt32}
    (h : readTime d type v i c nTime = .ok (nTime', i', c')) :
    ∃ time < 2 ^ 32, ∃ q', Seen p (fs ++ (if withTime type v then [time] else []).map intFrame)
        q' c' ∧ i' = i + (if withTime type v then [time] else []).length ∧
      nTime' = if withTime type v then UInt32.ofNat time else nTime := by
  rw [readTime] at h
  cases htime : withTime type v with
  | true =>
    simp only [htime, if_true, bind_eq_ok_iff, Prod.exists, pure, Except.pure,
      Except.ok.injEq, Prod.mk.injEq] at h
    obtain ⟨x, c₀, hx, time, htime, rfl, rfl, rfl⟩ := h
    obtain ⟨hlt, q, hseen⟩ := hc.int hpay hi hx htime
    exact ⟨time, hlt, q, hseen, rfl, rfl⟩
  | false =>
    simp only [htime, Bool.false_eq_true, if_false, pure, Except.pure, Except.ok.injEq,
      Prod.mk.injEq] at h
    obtain ⟨rfl, rfl, rfl⟩ := h
    exact ⟨0, by norm_num, q, by simpa using hc, rfl, rfl⟩

end Read

/-- What an object holds after the items of an address have been read. -/
structure ReadFrom (type version : Int32) (time services : ℕ) (gs : List (Kind × Bytes))
    (portN : ℕ) (a a' : CAddress) : Prop where
  time_eq : withTime type version = true → a'.nTime.toNat = time
  time_default : withTime type version = false → a'.nTime = 100000000
  services_eq : a'.nServices.toNat = services
  port_eq : (htons a'.port).toNat = portN
  ip : IpRead gs a.ip a'.ip

/-- **What `CAddress::UnSerialize` accepts and reads.** The accepted bytes are a list, or a byte
string, that begins with the items of an address; more may follow.

**Proof sketch.** The payload is followed through the reads (`Seen`). The empty byte string has
an empty payload, which does not hold the items; everything else that the constructor accepts is
a frame. -/
lemma unSerialize_eq_ok {b : Bytes} {type version : Int32} {a a' : CAddress}
    (h : a.unSerialize b type version = .ok a') :
    ∃ k ver time services gs portN q, ver < 2 ^ 32 ∧
      b = frame k (frames (addressFrames type version ver time services gs portN) ++ q) ∧
      (frames (addressFrames type version ver time services gs portN) ++ q).length < maxLength ∧
      ReadFrom type version time services gs portN a a' := by
  simp only [unSerialize, bind_eq_ok_iff, Prod.exists, pure, Except.pure,
    Except.ok.injEq] at h
  obtain ⟨d, hd, v, i, c, hver, nTime, i', c', htime, x, c₁, hx, services, hservices, scv, c₂, hscv,
    service, hservice, rfl⟩ := h
  obtain ⟨gs, portN, rfl, hlen, hport, hip⟩ := CService.unSerialize_eq_ok hservice
  have hframes : ∀ p, payload d = .ok p → ∃ ver time q, ver < 2 ^ 32 ∧
      p = frames (addressFrames type version ver time services gs portN) ++ q ∧
      ReadFrom type version time services gs portN a
        { toCService := service, nServices := UInt64.ofNat services, nTime } := by
    intro p hpay
    obtain ⟨ver, hverLt, q, hseen, hi, hwith⟩ := readVersion_eq_ok hpay hver
    obtain ⟨time, htimeLt, q, hseen, hi', htime⟩ :=
      readTime_eq_ok hpay hseen (by simpa using hi) htime
    rw [hwith] at hseen hi' htime
    have hindex : i' = (fieldsOf type version ver time).length := by
      rw [hi', hi, fieldsOf, length_append]
    have hfields : (fieldsOf type version ver time).map intFrame = _ := map_append
    rw [← hfields] at hseen
    obtain ⟨hservicesLt, q, hseen⟩ := hseen.int hpay (by simpa using hindex) hx hservices
    obtain ⟨g, q, hg, -, hseen⟩ := hseen.next hpay (by simpa using hindex) hscv (by simp)
    have hlarge : maxLength < 2 ^ 64 := by norm_num [maxLength]
    obtain ⟨hk, hp⟩ := Rlp.frame_inj (hlen.trans hlarge)
      ((hseen.small g (by simp)).trans hlarge) hg
    refine ⟨ver, time, q, hverLt, ?_, ?_, ?_, ?_, hport, hip⟩
    · rw [hseen.payload_eq, show g = (.list, _) from Prod.ext hk.symm hp.symm, append_assoc]
      rfl
    · intro hw
      rw [htime, if_pos hw, UInt32.toNat_ofNat', Nat.mod_eq_of_lt htimeLt]
    · intro hw
      rw [htime, if_neg (by simp [hw])]
      rfl
    · rw [UInt64.toNat_ofNat']
      exact Nat.mod_eq_of_lt hservicesLt
  by_cases hb : b = []
  · subst hb
    obtain rfl : [] = d := Except.ok.inj hd
    obtain ⟨ver, time, q, -, hp, -⟩ := hframes [] rfl
    exact absurd hp.symm (by simp [addressFrames, frames])
  · obtain ⟨rfl, k, p, rfl, hp⟩ := RLP.exists_frame_of_ofBytes hd hb
    obtain ⟨ver, time, q, hverLt, rfl, hread⟩ := hframes p (RLP.payload_whole hp)
    exact ⟨k, ver, time, services, gs, portN, q, hverLt, rfl, hp, hread⟩

/-! ### The checks that are missing -/

/-- The frames of the address bytes, as they are written. -/
def ipFrames (a : CAddress) : List (Kind × Bytes) := a.ip.toList.map fun x => intFrame x.toNat

/-- The frames of the items of an address, as they are written. -/
def writtenFrames (a : CAddress) (type version : Int32) : List (Kind × Bytes) :=
  addressFrames type version version.toUInt32.toNat a.nTime.toNat a.nServices.toNat a.ipFrames
    (htons a.port).toNat

lemma encodeList_items (a : CAddress) (type version : Int32) :
    encodeList (a.items type version) = frames (a.writtenFrames type version) := by
  have hip : encodeList a.ipItems = frames a.ipFrames := by
    rw [encodeList_eq_frames, CService.ipItems, map_map]
    rfl
  have hservice : encodeList a.toCService.items =
      frames (serviceFrames a.ipFrames (htons a.port).toNat) := by
    rw [encodeList_eq_frames, serviceFrames, ← hip]
    rfl
  rw [encodeList_eq_frames, items, map_append, map_map, writtenFrames, addressFrames,
    ← hservice]
  rfl

/-- The number of items in front of the services. -/
def fieldCount (type version : Int32) : ℕ := (fieldsOf type version 0 0).length

lemma length_fieldsOf (type version : Int32) (ver time : ℕ) :
    (fieldsOf type version ver time).length = fieldCount type version := by
  unfold fieldCount fieldsOf
  split_ifs <;> rfl

/-- **The checks that the reader leaves out.** The bytes are a list with exactly the items of an
address, a version on disk is the version of the stream, and the list of address bytes consists of
sixteen numbers of one byte. -/
structure Exact (type version : Int32) (b : Bytes) : Prop where
  isList : isList b = true
  itemCount : RLP.itemCount b = .ok (fieldCount type version + 2)
  version_eq : onDisk type = true →
    ∃ x, RLP.item b 0 = .ok x ∧ RLP.toInt 4 x RLP.Strict = .ok version.toUInt32.toNat
  ip_bytes : ∃ service x, RLP.item b (fieldCount type version + 1) = .ok service ∧
    RLP.item service 0 = .ok x ∧ RLP.itemCount x = .ok 16 ∧
    ∀ i < 16, ∃ y n, RLP.item x i = .ok y ∧ RLP.toInt 1 y RLP.Strict = .ok n

section Accepted

variable {type version : Int32} {k : Kind} {ver time services portN : ℕ}
  {gs : List (Kind × Bytes)} {q : Bytes}

/-- The checks, for bytes that the reader accepts.

**Proof sketch.** The items that the checks look at are the frames that the reader has seen
(`RLP.item_frame`). -/
lemma exact_iff
    (hlen : (frames (addressFrames type version ver time services gs portN) ++ q).length <
      maxLength) (hver : ver < 2 ^ 32) :
    Exact type version
        (frame k (frames (addressFrames type version ver time services gs portN) ++ q)) ↔
      k = .list ∧ q = [] ∧ (onDisk type = true → ver = version.toUInt32.toNat) ∧
        gs.length = 16 ∧ ∀ g ∈ gs, ∃ n < 256, g = intFrame n := by
  set fs := addressFrames type version ver time services gs portN with hfs
  have hsmall : ∀ f ∈ fs, f.2.length < maxLength := fun f hf =>
    (length_le_of_mem_frames hf).trans_lt (lt_of_le_of_lt (by simp) hlen)
  have hserviceLen : (frames (serviceFrames gs portN)).length < maxLength :=
    hsmall (.list, frames (serviceFrames gs portN)) (by simp [hfs, addressFrames])
  have hipLen : (frames gs).length < maxLength :=
    (length_le_of_mem_frames (f := (.list, frames gs)) (by simp [serviceFrames])).trans_lt
      hserviceLen
  have hgs : ∀ g ∈ gs, g.2.length < maxLength := fun g hg =>
    (length_le_of_mem_frames hg).trans_lt hipLen
  -- the items that the checks look at
  have hservice : RLP.item (frame k (frames fs ++ q)) (fieldCount type version + 1) =
      .ok (frame .list (frames (serviceFrames gs portN))) :=
    item_frame hlen (g := (.list, frames (serviceFrames gs portN)))
      (by simp [hfs, addressFrames, length_fieldsOf])
  have hip : RLP.item (frame .list (frames (serviceFrames gs portN))) 0 =
      .ok (frame .list (frames gs)) := by
    have hfirst : (serviceFrames gs portN)[0]? = some (.list, frames gs) := rfl
    have := item_frame (k := .list) (q := []) (by simpa using hserviceLen) hfirst
    simpa using this
  have hcount := RLP.itemCount_frames hipLen hgs
  have hbyte : ∀ (i : ℕ) (hi : i < gs.length),
      RLP.item (frame .list (frames gs)) i = .ok (frame gs[i].1 gs[i].2) := by
    intro i hi
    have := item_frame (k := .list) (q := []) (by simpa using hipLen)
      (List.getElem?_eq_getElem hi)
    simpa using this
  have hverLen : (bytes ver).length < maxLength :=
    (length_bytes_le_iff.mpr (show ver < 256 ^ 4 from hver)).trans_lt
      (by norm_num [maxLength])
  have hversion : onDisk type = true →
      RLP.item (frame k (frames fs ++ q)) 0 = .ok (frame .data (bytes ver)) :=
    fun hdisk => item_frame hlen (g := intFrame ver)
      (by simp [hfs, addressFrames, fieldsOf, hdisk])
  constructor
  · rintro ⟨hlist, hitems, hver, service, x, hs, hx, hc, hbytes⟩
    obtain rfl := Except.ok.inj (hservice.symm.trans hs)
    obtain rfl := Except.ok.inj (hip.symm.trans hx)
    have hk := (RLP.isList_whole_iff hlen).mp hlist
    have hsixteen : gs.length = 16 := Except.ok.inj (hcount.symm.trans hc)
    have hpay := RLP.payload_whole (k := k) hlen
    have hseen : Seen (frames fs ++ q) fs q (RLP.cacheAfter fs) := ⟨rfl, rfl, hsmall⟩
    have hlast : fs = ((fieldsOf type version ver time).map intFrame ++ [intFrame services]) ++
        [(.list, frames (serviceFrames gs portN))] := by
      simp [hfs, addressFrames]
    rw [hlast] at hseen
    refine ⟨hk, hseen.seenUpTo.rest_eq_nil (by rw [← hlast]; exact hpay) hlist hitems
      (by simp [length_fieldsOf]), fun hdisk => ?_, hsixteen, fun g hg => ?_⟩
    · obtain ⟨y, hy, hn⟩ := hver hdisk
      obtain rfl := Except.ok.inj ((hversion hdisk).symm.trans hy)
      obtain ⟨-, hbytes, -⟩ := (toInt_eq_ok hverLen).mp hn
      rw [← value_bytes ver, hbytes, value_bytes]
    · obtain ⟨i, hi, rfl⟩ := getElem_of_mem hg
      obtain ⟨y, n, hy, hn⟩ := hbytes i (by omega)
      obtain rfl := Except.ok.inj ((hbyte i hi).symm.trans hy)
      obtain ⟨h1, h2, hlt⟩ := (toInt_eq_ok (hgs _ hg)).mp hn
      exact ⟨n, hlt, Prod.ext h1 h2⟩
  · rintro ⟨rfl, rfl, hver, hlen16, hbytes⟩
    rw [append_nil] at hlen hservice hversion ⊢
    refine ⟨(RLP.isList_whole_iff hlen).mpr rfl, ?_, fun hdisk => ?_,
      _, _, hservice, hip, by rw [hcount, hlen16], fun i hi => ?_⟩
    · rw [RLP.itemCount_frames hlen hsmall]
      simp [hfs, addressFrames, length_fieldsOf]
    · refine ⟨_, hversion hdisk, (toInt_eq_ok hverLen).mpr ⟨rfl, ?_, ?_⟩⟩
      · rw [hver hdisk]
      · exact UInt32.toNat_lt _
    · obtain ⟨n, hn, hg⟩ := hbytes gs[i] (getElem_mem (by omega))
      refine ⟨_, n, hbyte i (by omega), ?_⟩
      rw [toInt_eq_ok (hgs _ (getElem_mem (by omega)))]
      exact ⟨by rw [hg]; rfl, by rw [hg]; rfl, hn⟩

end Accepted

/-- **Bytes that are read back.** Whatever two objects were before, if both accept the bytes they
have the same address bytes, port, services and time afterwards, and both are written as these
bytes. -/
def ReadsBack (type version : Int32) (b : Bytes) : Prop :=
  ∀ x y x' y' : CAddress, x.unSerialize b type version = .ok x' →
    y.unSerialize b type version = .ok y' →
    (x'.ip = y'.ip ∧ x'.port = y'.port ∧ x'.nServices = y'.nServices ∧ x'.nTime = y'.nTime) ∧
      x'.bytesOf type version = .ok b ∧ y'.bytesOf type version = .ok b

/-- Addresses can be told apart. -/
lemma addressFrames_inj {type version : Int32} {ver ver' time time' services services' : ℕ}
    {gs gs' : List (Kind × Bytes)} {portN portN' : ℕ}
    (hlen : (frames (addressFrames type version ver time services gs portN)).length < maxLength)
    (h : addressFrames type version ver time services gs portN =
      addressFrames type version ver' time' services' gs' portN') :
    (onDisk type = true → ver = ver') ∧ (withTime type version = true → time = time') ∧
      services = services' ∧ gs = gs' ∧ portN = portN' := by
  obtain ⟨hfields, hrest⟩ := append_inj h (by simp [length_fieldsOf])
  have hnumbers := map_injective_iff.mpr intFrame_injective hfields
  simp only [List.cons.injEq, Prod.mk.injEq, true_and, and_true] at hrest
  have hservice : (frames (serviceFrames gs portN)).length < 2 ^ 64 :=
    ((length_le_of_mem_frames (f := (.list, frames (serviceFrames gs portN)))
      (by simp [addressFrames])).trans_lt hlen).trans (by norm_num [maxLength])
  obtain ⟨hgs, hport⟩ := serviceFrames_inj hservice hrest.2
  refine ⟨fun hdisk => ?_, fun htime => ?_, intFrame_injective hrest.1, hgs, hport⟩
  · simp only [fieldsOf, hdisk, if_true, singleton_append, List.cons.injEq] at hnumbers
    exact hnumbers.1
  · simp only [fieldsOf, htime, if_true] at hnumbers
    exact (List.cons.inj (append_inj' hnumbers rfl).2).1

/-- Written bytes, and the bytes that were read. -/
lemma bytesOf_eq_iff {type version : Int32} {k : Kind} {ver time services portN : ℕ}
    {gs : List (Kind × Bytes)} {q : Bytes} {x a : CAddress}
    (hlen : (frames (addressFrames type version ver time services gs portN) ++ q).length <
      maxLength) (hread : ReadFrom type version time services gs portN x a) :
    a.bytesOf type version =
        .ok (frame k (frames (addressFrames type version ver time services gs portN) ++ q)) ↔
      k = .list ∧ q = [] ∧ (onDisk type = true → ver = version.toUInt32.toNat) ∧
        gs = a.ipFrames := by
  have hmax : maxLength < 2 ^ 64 := by norm_num [maxLength]
  rw [bytesOf_eq, Rlp.encode_list, encodeList_items, Except.ok.injEq]
  constructor
  · intro h
    have hwritten := a.length_encodeList_items_lt type version
    rw [encodeList_items] at hwritten
    obtain ⟨hk, hp⟩ := Rlp.frame_inj (hwritten.trans hmax) (hlen.trans hmax) h
    have hcount : (a.writtenFrames type version).length =
        (addressFrames type version ver time services gs portN).length := by
      simp [writtenFrames, addressFrames, length_fieldsOf]
    obtain ⟨hall, hq⟩ := RLP.frames_append_inj (q := []) hcount
      (fun f hf => ((length_le_of_mem_frames hf).trans_lt hwritten).trans hmax)
      (fun f hf => ((length_le_of_mem_frames hf).trans_lt
        (lt_of_le_of_lt (by simp) hlen)).trans hmax) (by rwa [append_nil])
    obtain ⟨hver, -, -, hgs, -⟩ := addressFrames_inj hwritten hall
    exact ⟨hk.symm, hq.symm, fun hdisk => (hver hdisk).symm, hgs.symm⟩
  · rintro ⟨rfl, rfl, hver, rfl⟩
    have hfields : fieldsOf type version version.toUInt32.toNat a.nTime.toNat =
        fieldsOf type version ver time := by
      have htime := hread.time_eq
      unfold fieldsOf
      split_ifs with hdisk hwith hwith <;> simp_all
    rw [writtenFrames, addressFrames, hfields, hread.services_eq, hread.port_eq, append_nil]
    rfl

/-- Objects that are written as the same bytes agree in everything that is written. -/
lemma eq_of_bytesOf_eq {type version : Int32} {a a' : CAddress}
    (h : a.bytesOf type version = a'.bytesOf type version) :
    a.ip = a'.ip ∧ a.port = a'.port ∧ a.nServices = a'.nServices ∧
      (withTime type version = true → a.nTime = a'.nTime) := by
  have hmax : maxLength < 2 ^ 64 := by norm_num [maxLength]
  have hlen := a.length_encodeList_items_lt type version
  have hlen' := a'.length_encodeList_items_lt type version
  rw [bytesOf_eq, bytesOf_eq, Except.ok.injEq, Rlp.encode_list, Rlp.encode_list] at h
  obtain ⟨-, hp⟩ := Rlp.frame_inj (hlen.trans hmax) (hlen'.trans hmax) h
  rw [encodeList_items] at hlen hlen' hp
  rw [encodeList_items] at hp
  have hall := frames_inj (hlen.trans hmax) (hlen'.trans hmax) hp
  obtain ⟨-, htime, hservices, hip, hport⟩ := addressFrames_inj hlen hall
  have hbytes : Function.Injective fun x : UInt8 => intFrame x.toNat :=
    intFrame_injective.comp fun x y h => UInt8.toNat_inj.mp h
  refine ⟨Vector.toList_inj.mp (map_injective_iff.mpr hbytes hip), ?_,
    UInt64.toNat_inj.mp hservices, fun hw => UInt32.toNat_inj.mp (htime hw)⟩
  rw [← htons_htons a.port, UInt16.toNat_inj.mp hport, htons_htons]

/-- **When bytes are read back.**

**Proof sketch.** Accepted bytes have the form of `unSerialize_eq_ok`, which determines everything
but the address bytes. If an object that was read is written as these bytes, then the items that
the checks look at are those of written bytes. Conversely the checks say that the address bytes
are sixteen canonical numbers, which `toVectorRef` has read. -/
theorem readsBack_iff (type version : Int32) (b : Bytes) :
    ReadsBack type version b ↔
      ((∃ x x' : CAddress, x.unSerialize b type version = .ok x') → Exact type version b) := by
  constructor
  · rintro h ⟨x, x', hx⟩
    obtain ⟨-, hback, -⟩ := h x x x' x' hx hx
    obtain ⟨k, ver, time, services, gs, portN, q, hver, rfl, hlen, hread⟩ := unSerialize_eq_ok hx
    obtain ⟨hk, hq, hversion, rfl⟩ := (bytesOf_eq_iff hlen hread).mp hback
    refine (exact_iff hlen hver).mpr ⟨hk, hq, hversion, by simp [ipFrames], fun g hg => ?_⟩
    obtain ⟨y, -, rfl⟩ := mem_map.mp hg
    exact ⟨_, y.toNat_lt, rfl⟩
  · intro h x y x' y' hx hy
    -- each of the two objects is written as the bytes it was read from
    have hback : ∀ z z' : CAddress, z.unSerialize b type version = .ok z' →
        z'.bytesOf type version = .ok b ∧
          (withTime type version = false → z'.nTime = 100000000) := by
      intro z z' hz
      have hexact := h ⟨z, z', hz⟩
      obtain ⟨k, ver, time, services, gs, portN, q, hver, rfl, hlen, hread⟩ :=
        unSerialize_eq_ok hz
      obtain ⟨hk, hq, hversion, hlen16, hgs⟩ := (exact_iff hlen hver).mp hexact
      exact ⟨(bytesOf_eq_iff hlen hread).mpr ⟨hk, hq, hversion, hread.ip.eq hlen16 hgs⟩,
        hread.time_default⟩
    obtain ⟨hx', hxt⟩ := hback x x' hx
    obtain ⟨hy', hyt⟩ := hback y y' hy
    obtain ⟨hip, hport, hservices, htime⟩ := eq_of_bytesOf_eq (hx'.trans hy'.symm)
    refine ⟨⟨hip, hport, hservices, ?_⟩, hx', hy'⟩
    cases hw : withTime type version with
    | true => exact htime hw
    | false => rw [hxt hw, hyt hw]

/-- The bytes of an address without time whose list of address bytes is empty. -/
def shortAddress : Bytes :=
  encode (.list [intItem 1, .list [.list [], intItem 0x1234]])

/-- An object that reads an empty list of address bytes keeps the address it had before. -/
theorem keeps_old_address : ∃ x' y' : CAddress,
    unSerialize {} shortAddress SER_NETWORK 0 = .ok x' ∧
    unSerialize { ip := Vector.replicate 16 1 } shortAddress SER_NETWORK 0 = .ok y' ∧
    x'.ip ≠ y'.ip ∧ x'.bytesOf SER_NETWORK 0 ≠ .ok shortAddress := by
  refine ⟨{ port := 0x3412, nServices := 1 },
    { ip := Vector.replicate 16 1, port := 0x3412, nServices := 1 }, ?_, ?_, ?_, ?_⟩
  · decide +kernel
  · decide +kernel
  · decide +kernel
  · decide +kernel

end CAddress

end Tos.Net
