import Tos.Foundation.OrderedMap
import Mathlib.Data.List.Induction
import Mathlib.Data.List.Sort
import Mathlib.Data.Prod.Lex

/-!
# Eviction of an inbound peer

The function `CConnman::AttemptToEvictConnection` of `transport/net.cpp`, which makes room for a new
inbound connection when the node is full. It collects the peers that may be evicted, protects some
of them for each of five properties that are hard to forge, and disconnects from the largest network
group among the rest.

The statement that puts a peer into the list of candidates is commented out, so the list is empty
and no peer is ever evicted. What the rest of the function would do with the candidates is what the
comments say.

## Main results

* `leaves_eraseLastKElements`: what is erased is not below what remains.
* `mostConnections_spec`: the group that is found is a largest one.
* `evictFrom_makesRoom`: with the candidates of the comment, room is made.
* `attemptToEvictConnection_makesRoom_iff`: when the function does what it is for.

## Implementation notes

`std::sort` is a parameter, with what it guarantees for a strict weak order (`IsSort`): it does not
say in which order equivalent elements are put. Times are integers, since they are only compared.
-/

namespace Tos.Net.Eviction

open List

/-- The part of the class `CNode` that eviction reads; `pfilter` says whether there is one. -/
structure CNode where
  id : ℤ
  fWhitelisted : Bool
  fInbound : Bool
  fDisconnect : Bool
  nTimeConnected : ℤ
  nMinPingUsecTime : ℤ
  nLastBlockTime : ℤ
  nLastTXTime : ℤ
  nServices : UInt64
  fRelayTxes : Bool
  pfilter : Bool
  nKeyedNetGroup : UInt64
  deriving DecidableEq

/-- `struct NodeEvictionCandidate`, without the address, which nothing reads. -/
structure NodeEvictionCandidate where
  id : ℤ
  nTimeConnected : ℤ
  nMinPingUsecTime : ℤ
  nLastBlockTime : ℤ
  nLastTXTime : ℤ
  fRelevantServices : Bool
  fRelayTxes : Bool
  fBloomFilter : Bool
  nKeyedNetGroup : UInt64
  deriving DecidableEq

/-! ### The comparators -/

def reverseCompareNodeMinPingTime (a b : NodeEvictionCandidate) : Bool :=
  a.nMinPingUsecTime > b.nMinPingUsecTime

def reverseCompareNodeTimeConnected (a b : NodeEvictionCandidate) : Bool :=
  a.nTimeConnected > b.nTimeConnected

def compareNetGroupKeyed (a b : NodeEvictionCandidate) : Bool :=
  a.nKeyedNetGroup < b.nKeyedNetGroup

def compareNodeBlockTime (a b : NodeEvictionCandidate) : Bool :=
  if a.nLastBlockTime ≠ b.nLastBlockTime then a.nLastBlockTime < b.nLastBlockTime
  else if a.fRelevantServices ≠ b.fRelevantServices then b.fRelevantServices
  else a.nTimeConnected > b.nTimeConnected

def compareNodeTXTime (a b : NodeEvictionCandidate) : Bool :=
  if a.nLastTXTime ≠ b.nLastTXTime then a.nLastTXTime < b.nLastTXTime
  else if a.fRelayTxes ≠ b.fRelayTxes then b.fRelayTxes
  else if a.fBloomFilter ≠ b.fBloomFilter then a.fBloomFilter
  else a.nTimeConnected > b.nTimeConnected

/-! ### The candidates that remain -/

/-- The type of `std::sort` on candidates. -/
abbrev Sorter : Type :=
  (NodeEvictionCandidate → NodeEvictionCandidate → Bool) → List NodeEvictionCandidate →
    List NodeEvictionCandidate

/-- What is known of `std::sort`: it permutes, and for a strict weak order nothing stands behind
something greater. -/
structure IsSort (sort : Sorter) : Prop where
  perm : ∀ lt l, (sort lt l).Perm l
  pairwise : ∀ lt, IsStrictWeakOrder _ (fun a b => lt a b = true) →
    ∀ l, (sort lt l).Pairwise fun a b => lt b a = false

variable (sort : Sorter)

/-- `EraseLastKElements`. -/
def eraseLastKElements (elements : List NodeEvictionCandidate)
    (comparator : NodeEvictionCandidate → NodeEvictionCandidate → Bool) (k : ℕ) :
    List NodeEvictionCandidate :=
  let elements := sort comparator elements
  let eraseSize := min k elements.length
  elements.take (elements.length - eraseSize)

/-- The candidates that none of the five properties protects. -/
def unprotected (vEvictionCandidates : List NodeEvictionCandidate) : List NodeEvictionCandidate :=
  let v := eraseLastKElements sort vEvictionCandidates compareNetGroupKeyed 4
  let v := eraseLastKElements sort v reverseCompareNodeMinPingTime 8
  let v := eraseLastKElements sort v compareNodeTXTime 4
  let v := eraseLastKElements sort v compareNodeBlockTime 4
  eraseLastKElements sort v reverseCompareNodeTimeConnected (v.length / 2)

/-- The variables of the loop over the groups. `naMostConnections` has no value before the loop. -/
structure Groups where
  mapNetGroupNodes : UInt64 → List NodeEvictionCandidate := fun _ => []
  naMostConnections : Option UInt64 := none
  nMostConnections : ℕ := 0
  nMostConnectionsTime : ℤ := 0

/-- One turn of the loop over the groups. -/
def Groups.add (g : Groups) (node : NodeEvictionCandidate) : Groups :=
  let group := g.mapNetGroupNodes node.nKeyedNetGroup ++ [node]
  let grouptime := (group.head?.map NodeEvictionCandidate.nTimeConnected).getD 0
  let g := { g with
    mapNetGroupNodes := Function.update g.mapNetGroupNodes node.nKeyedNetGroup group }
  if group.length > g.nMostConnections ∨
      (group.length = g.nMostConnections ∧ grouptime > g.nMostConnectionsTime) then
    { g with
      nMostConnections := group.length
      nMostConnectionsTime := grouptime
      naMostConnections := some node.nKeyedNetGroup }
  else g

/-- The network group with the most connections. -/
def mostConnections (vEvictionCandidates : List NodeEvictionCandidate) :
    List NodeEvictionCandidate :=
  let g := vEvictionCandidates.foldl Groups.add {}
  (g.naMostConnections.map g.mapNetGroupNodes).getD []

/-- The loop that marks the peer with a number. -/
def disconnect (evicted : ℤ) : List CNode → Bool × List CNode
  | [] => (false, [])
  | pnode :: vNodes =>
    if pnode.id = evicted then (true, { pnode with fDisconnect := true } :: vNodes)
    else
      let (found, vNodes) := disconnect evicted vNodes
      (found, pnode :: vNodes)

/-- The part of `AttemptToEvictConnection` behind the collection of the candidates. -/
def evictFrom (vEvictionCandidates : List NodeEvictionCandidate) (vNodes : List CNode) :
    Bool × List CNode :=
  match unprotected sort vEvictionCandidates with
  | [] => (false, vNodes)
  | c :: v =>
    match mostConnections (c :: v) with
    | [] => (false, vNodes)
    | evicted :: _ => disconnect evicted.id vNodes

/-- The loop that should collect the candidates: what stands behind the three tests is commented
out. -/
def collectCandidates (vNodes : List CNode) : List NodeEvictionCandidate :=
  vNodes.foldl (fun v node =>
    if node.fWhitelisted then v
    else if !node.fInbound then v
    else if node.fDisconnect then v
    else v) []

/-- `CConnman::AttemptToEvictConnection`. -/
def attemptToEvictConnection (vNodes : List CNode) : Bool × List CNode :=
  evictFrom sort (collectCandidates vNodes) vNodes

/-! ### What the function is for -/

/-- The peers that may be evicted. -/
def CNode.Eligible (node : CNode) : Prop :=
  node.fWhitelisted = false ∧ node.fInbound = true ∧ node.fDisconnect = false

instance (node : CNode) : Decidable node.Eligible := inferInstanceAs (Decidable (_ ∧ _ ∧ _))

/-- `HasAllDesirableServiceFlags`: `NODE_NETWORK` and `NODE_WITNESS` are set. -/
def hasAllDesirableServiceFlags (nServices : UInt64) : Bool := (9 &&& ~~~nServices) == 0

/-- The candidate of a peer, as the comment has it. -/
def CNode.candidate (node : CNode) : NodeEvictionCandidate :=
  { id := node.id
    nTimeConnected := node.nTimeConnected
    nMinPingUsecTime := node.nMinPingUsecTime
    nLastBlockTime := node.nLastBlockTime
    nLastTXTime := node.nLastTXTime
    fRelevantServices := hasAllDesirableServiceFlags node.nServices
    fRelayTxes := node.fRelayTxes
    fBloomFilter := node.pfilter
    nKeyedNetGroup := node.nKeyedNetGroup }

/-- The candidates that should be collected. -/
def candidates (vNodes : List CNode) : List NodeEvictionCandidate :=
  (vNodes.filter fun node => node.Eligible).map CNode.candidate

/-- `after` is `before` with one peer marked. -/
def Marks (before after : List CNode) (node : CNode) : Prop :=
  ∃ l r, before = l ++ node :: r ∧ after = l ++ { node with fDisconnect := true } :: r

/-- `l'` is what remains of `l` when `k` elements are taken out, none of which is below one that
remains. -/
def Leaves (lt : NodeEvictionCandidate → NodeEvictionCandidate → Bool) (k : ℕ)
    (l l' : List NodeEvictionCandidate) : Prop :=
  ∃ p, (l' ++ p).Perm l ∧ p.length = min k l.length ∧ ∀ x ∈ p, ∀ y ∈ l', lt x y = false

/-- `l'` is what remains of the candidates `l` when the protected ones are taken out: 4 with the
highest keyed network groups, 8 with the lowest ping times, 4 that sent the last transactions, 4
that sent the last blocks, and the half that has been connected the longest. -/
def Unprotected (l l' : List NodeEvictionCandidate) : Prop :=
  ∃ l₁ l₂ l₃ l₄, Leaves compareNetGroupKeyed 4 l l₁ ∧ Leaves reverseCompareNodeMinPingTime 8 l₁ l₂ ∧
    Leaves compareNodeTXTime 4 l₂ l₃ ∧ Leaves compareNodeBlockTime 4 l₃ l₄ ∧
    Leaves reverseCompareNodeTimeConnected (l₄.length / 2) l₄ l'

/-- What is expected of an attempt with the result `out`: with 21 peers that may be evicted it
succeeds, and marks one of them that nothing protects; otherwise it marks none that is outbound or
whitelisted. -/
def MakesRoom (vNodes : List CNode) (out : Bool × List CNode) : Prop :=
  if 21 ≤ (vNodes.filter fun node => node.Eligible).length then
    out.1 = true ∧ ∃ node l, node.Eligible ∧ Marks vNodes out.2 node ∧
      Unprotected (candidates vNodes) l ∧ node.candidate ∈ l
  else
    ∀ (i : ℕ) (node : CNode), vNodes[i]? = some node →
      node.fInbound = false ∨ node.fWhitelisted = true → out.2[i]? = some node

/-! ### Sorting and erasing -/

variable {sort}

section Orders

lemma isStrictWeakOrder_netGroup : IsStrictWeakOrder _ (compareNetGroupKeyed · · = true) :=
  isStrictWeakOrder_of_key (fun a => a.nKeyedNetGroup.toNat) fun a b => by
    simp [compareNetGroupKeyed, UInt64.lt_iff_toNat_lt]

lemma isStrictWeakOrder_minPing : IsStrictWeakOrder _ (reverseCompareNodeMinPingTime · · = true) :=
  isStrictWeakOrder_of_key (fun a => -a.nMinPingUsecTime) fun a b => by
    simp [reverseCompareNodeMinPingTime]

lemma isStrictWeakOrder_timeConnected :
    IsStrictWeakOrder _ (reverseCompareNodeTimeConnected · · = true) :=
  isStrictWeakOrder_of_key (fun a => -a.nTimeConnected) fun a b => by
    simp [reverseCompareNodeTimeConnected]

lemma isStrictWeakOrder_blockTime : IsStrictWeakOrder _ (compareNodeBlockTime · · = true) :=
  isStrictWeakOrder_of_key
    (fun a => toLex (a.nLastBlockTime, toLex (a.fRelevantServices, -a.nTimeConnected)))
    fun a b => by
      simp only [compareNodeBlockTime, Prod.Lex.toLex_lt_toLex, Bool.lt_iff]
      split_ifs with hblock hservices
      · simp [hblock]
      · cases ha : a.fRelevantServices <;> cases hb : b.fRelevantServices <;> simp_all
      · simp_all

lemma isStrictWeakOrder_txTime : IsStrictWeakOrder _ (compareNodeTXTime · · = true) :=
  isStrictWeakOrder_of_key
    (fun a => toLex (a.nLastTXTime,
      toLex (a.fRelayTxes, toLex (!a.fBloomFilter, -a.nTimeConnected))))
    fun a b => by
      simp only [compareNodeTXTime, Prod.Lex.toLex_lt_toLex, Bool.lt_iff]
      split_ifs with htx hrelay hbloom
      · simp [htx]
      · cases ha : a.fRelayTxes <;> cases hb : b.fRelayTxes <;> simp_all
      · cases ha : a.fBloomFilter <;> cases hb : b.fBloomFilter <;> simp_all
      · simp_all

end Orders

section Erase

variable {l : List NodeEvictionCandidate} {k : ℕ}
  {lt : NodeEvictionCandidate → NodeEvictionCandidate → Bool}

/-- What is erased is not below what remains. -/
theorem leaves_eraseLastKElements (hs : IsSort sort)
    (hlt : IsStrictWeakOrder _ (fun a b => lt a b = true)) :
    Leaves lt k l (eraseLastKElements sort l lt k) := by
  have hpair := hs.pairwise lt hlt l
  have hlen := (hs.perm lt l).length_eq
  rw [← take_append_drop ((sort lt l).length - min k (sort lt l).length) (sort lt l),
    pairwise_append] at hpair
  refine ⟨(sort lt l).drop ((sort lt l).length - min k (sort lt l).length), ?_, ?_,
    fun x hx y hy => hpair.2.2 y hy x hx⟩
  · rw [eraseLastKElements, take_append_drop]
    exact hs.perm lt l
  · rw [length_drop]
    omega

lemma Leaves.length {l' : List NodeEvictionCandidate} (h : Leaves lt k l l') :
    l'.length = l.length - k := by
  obtain ⟨p, hperm, hp, -⟩ := h
  have hlen := hperm.length_eq
  rw [length_append] at hlen
  omega

lemma Leaves.mem {l' : List NodeEvictionCandidate} (h : Leaves lt k l l')
    {x : NodeEvictionCandidate} (hx : x ∈ l') : x ∈ l := by
  obtain ⟨p, hperm, -⟩ := h
  exact hperm.mem_iff.mp (mem_append_left _ hx)

end Erase

/-- The five calls of `EraseLastKElements` take out the protected candidates. -/
theorem unprotected_spec (hs : IsSort sort) (l : List NodeEvictionCandidate) :
    Unprotected l (unprotected sort l) :=
  ⟨_, _, _, _, leaves_eraseLastKElements hs isStrictWeakOrder_netGroup,
    leaves_eraseLastKElements hs isStrictWeakOrder_minPing,
    leaves_eraseLastKElements hs isStrictWeakOrder_txTime,
    leaves_eraseLastKElements hs isStrictWeakOrder_blockTime,
    leaves_eraseLastKElements hs isStrictWeakOrder_timeConnected⟩

/-- Of 21 candidates one remains. -/
lemma Unprotected.ne_nil {l l' : List NodeEvictionCandidate} (h : Unprotected l l')
    (hl : 21 ≤ l.length) : l' ≠ [] := by
  obtain ⟨l₁, l₂, l₃, l₄, h₁, h₂, h₃, h₄, h₅⟩ := h
  have hlen := h₅.length
  rw [h₄.length, h₃.length, h₂.length, h₁.length] at hlen
  exact ne_nil_of_length_pos (by omega)

lemma Unprotected.mem {l l' : List NodeEvictionCandidate} (h : Unprotected l l')
    {x : NodeEvictionCandidate} (hx : x ∈ l') : x ∈ l := by
  obtain ⟨l₁, l₂, l₃, l₄, h₁, h₂, h₃, h₄, h₅⟩ := h
  exact h₁.mem (h₂.mem (h₃.mem (h₄.mem (h₅.mem hx))))

/-! ### The largest group -/

/-- The groups of the candidates `v`, of which one with the most members is remembered. -/
structure Groups.Of (g : Groups) (v : List NodeEvictionCandidate) : Prop where
  map : ∀ k, g.mapNetGroupNodes k = v.filter fun node => node.nKeyedNetGroup = k
  le : ∀ k, (g.mapNetGroupNodes k).length ≤ g.nMostConnections
  most : (v = [] ∧ g.nMostConnections = 0) ∨ ∃ k, g.naMostConnections = some k ∧
    (g.mapNetGroupNodes k).length = g.nMostConnections

variable {v : List NodeEvictionCandidate}

/-- One turn of the loop.

**Proof sketch.** The group of the node gets one member more. If it is remembered it has at least as
many members as any group had before. If not, it has at most as many as the one that is, which is
therefore another one and has not changed. -/
lemma Groups.Of.add {g : Groups} (h : g.Of v)
    (node : NodeEvictionCandidate) : (g.add node).Of (v ++ [node]) := by
  have hmap (k : UInt64) :
      Function.update g.mapNetGroupNodes node.nKeyedNetGroup
        (g.mapNetGroupNodes node.nKeyedNetGroup ++ [node]) k =
      (v ++ [node]).filter fun node => node.nKeyedNetGroup = k := by
    rw [filter_append, Function.update_apply]
    split_ifs with hk
    · rw [← hk, h.map k, filter_singleton, hk]
      simp
    · rw [h.map k, filter_singleton]
      simp [Ne.symm hk]
  have hother {k : UInt64} (hk : k ≠ node.nKeyedNetGroup) :
      Function.update g.mapNetGroupNodes node.nKeyedNetGroup
        (g.mapNetGroupNodes node.nKeyedNetGroup ++ [node]) k = g.mapNetGroupNodes k :=
    Function.update_of_ne hk _ _
  rw [Groups.add]
  split_ifs with hcond
  · refine ⟨hmap, fun k => ?_, .inr ⟨_, rfl, by simp⟩⟩
    by_cases hk : k = node.nKeyedNetGroup
    · simp [hk]
    · have hle := h.le k
      have hgroup : g.nMostConnections ≤
          (g.mapNetGroupNodes node.nKeyedNetGroup ++ [node]).length := by
        dsimp only at hcond
        omega
      simpa only [hother hk] using hle.trans hgroup
  · have hsize : (g.mapNetGroupNodes node.nKeyedNetGroup ++ [node]).length ≤
        g.nMostConnections := by
      simp only [not_or] at hcond
      omega
    refine ⟨hmap, fun k => ?_, .inr ?_⟩
    · by_cases hk : k = node.nKeyedNetGroup
      · simpa [hk] using hsize
      · simpa only [hother hk] using h.le k
    · obtain ⟨-, hzero⟩ | ⟨k, hk, hlen⟩ := h.most
      · rw [length_append, length_singleton] at hsize
        omega
      · have hne : k ≠ node.nKeyedNetGroup := by
          rintro rfl
          rw [length_append, length_singleton] at hsize
          omega
        exact ⟨k, hk, by simpa only [hother hne] using hlen⟩

/-- The whole loop. -/
lemma Groups.of_foldl (v : List NodeEvictionCandidate) : (v.foldl Groups.add {}).Of v := by
  induction v using List.reverseRecOn with
  | nil => exact ⟨fun _ => rfl, fun _ => Nat.le_refl _, .inl ⟨rfl, rfl⟩⟩
  | append_singleton v node ih =>
    rw [foldl_append]
    exact ih.add node

/-- The group that is found is one of the groups, and none has more members. -/
theorem mostConnections_spec (hv : v ≠ []) :
    ∃ k, mostConnections v = v.filter (fun node => node.nKeyedNetGroup = k) ∧
      ∀ k', (v.filter fun node => node.nKeyedNetGroup = k').length ≤
        (mostConnections v).length := by
  have h := Groups.of_foldl v
  obtain ⟨hnil, -⟩ | ⟨k, hk, hlen⟩ := h.most
  · exact absurd hnil hv
  have hmost : mostConnections v = (v.foldl Groups.add {}).mapNetGroupNodes k := by
    simp [mostConnections, hk]
  refine ⟨k, hmost.trans (h.map k), fun k' => ?_⟩
  rw [hmost, hlen, ← h.map k']
  exact h.le k'

/-- The group that is found is not empty. -/
lemma mostConnections_ne_nil (hv : v ≠ []) : mostConnections v ≠ [] := by
  obtain ⟨k, -, hmax⟩ := mostConnections_spec hv
  obtain ⟨node, v, rfl⟩ := exists_cons_of_ne_nil hv
  refine ne_nil_of_length_pos (Nat.lt_of_lt_of_le ?_ (hmax node.nKeyedNetGroup))
  simp

/-! ### The result -/

variable {vNodes : List CNode}

/-- The peer that has the number is marked, if it is the only one. -/
lemma disconnect_spec (hids : (vNodes.map CNode.id).Nodup) {node : CNode} (hnode : node ∈ vNodes) :
    (disconnect node.id vNodes).1 = true ∧ Marks vNodes (disconnect node.id vNodes).2 node := by
  induction vNodes with
  | nil => cases hnode
  | cons pnode vNodes ih =>
    rw [map_cons, nodup_cons] at hids
    rw [disconnect]
    split_ifs with hid
    · -- the first peer with the number
      have heq : node = pnode := by
        obtain rfl | hmem := List.mem_cons.mp hnode
        · rfl
        · exact absurd (hid ▸ mem_map_of_mem hmem) hids.1
      subst heq
      exact ⟨rfl, [], vNodes, rfl, rfl⟩
    · obtain rfl | hmem := List.mem_cons.mp hnode
      · exact absurd rfl hid
      · obtain ⟨hfound, l, r, hbefore, hafter⟩ := ih hids.2 hmem
        exact ⟨hfound, pnode :: l, r, congrArg _ hbefore, congrArg _ hafter⟩

/-- With the candidates that should be collected, either none remains and nothing is done, or one
that remains is marked. -/
lemma evictFrom_candidates (hs : IsSort sort) (hids : (vNodes.map CNode.id).Nodup) :
    (unprotected sort (candidates vNodes) = [] ∧
      evictFrom sort (candidates vNodes) vNodes = (false, vNodes)) ∨
    ((evictFrom sort (candidates vNodes) vNodes).1 = true ∧ ∃ node, node.Eligible ∧
      Marks vNodes (evictFrom sort (candidates vNodes) vNodes).2 node ∧
      node.candidate ∈ unprotected sort (candidates vNodes)) := by
  have hun := unprotected_spec hs (candidates vNodes)
  cases hu : unprotected sort (candidates vNodes) with
  | nil => exact .inl ⟨rfl, by rw [evictFrom, hu]⟩
  | cons c v =>
    right
    rw [hu] at hun
    obtain ⟨evicted, rest, hmost⟩ := exists_cons_of_ne_nil
      (mostConnections_ne_nil (cons_ne_nil c v))
    have hev : evicted ∈ c :: v := by
      obtain ⟨k, hk, -⟩ := mostConnections_spec (cons_ne_nil c v)
      exact mem_of_mem_filter (hk ▸ hmost ▸ mem_cons_self)
    obtain ⟨node, hnode, rfl⟩ := List.mem_map.mp (hun.mem hev)
    rw [mem_filter] at hnode
    have hres : evictFrom sort (candidates vNodes) vNodes = disconnect node.id vNodes := by
      simp only [evictFrom, hu, hmost]
      rfl
    rw [hres]
    obtain ⟨hfound, hmarks⟩ := disconnect_spec hids hnode.1
    exact ⟨hfound, node, of_decide_eq_true hnode.2, hmarks, hev⟩

/-- A peer other than the marked one is as before. -/
lemma Marks.getElem? {before after : List CNode} {node other : CNode}
    (h : Marks before after node) {i : ℕ} (hi : before[i]? = some other) (hne : other ≠ node) :
    after[i]? = some other := by
  obtain ⟨l, r, rfl, rfl⟩ := h
  rw [getElem?_append] at hi ⊢
  split_ifs at hi ⊢ with hl
  · exact hi
  · cases hk : i - l.length with
    | zero =>
      rw [hk] at hi
      exact absurd (Option.some.inj hi).symm hne
    | succ k =>
      rw [hk] at hi
      exact hi

/-- **The part behind the comment.** With the candidates that the comment collects, room is made. -/
theorem evictFrom_makesRoom (hs : IsSort sort) (hids : (vNodes.map CNode.id).Nodup) :
    MakesRoom vNodes (evictFrom sort (candidates vNodes) vNodes) := by
  have hun := unprotected_spec hs (candidates vNodes)
  rw [MakesRoom]
  split_ifs with hcard
  · obtain ⟨hnil, -⟩ | ⟨hfound, node, helig, hmarks, hmem⟩ := evictFrom_candidates hs hids
    · exact absurd hnil (hun.ne_nil (by rwa [candidates, length_map]))
    · exact ⟨hfound, node, _, helig, hmarks, hun, hmem⟩
  · intro i other hi hother
    obtain ⟨-, hres⟩ | ⟨-, node, helig, hmarks, -⟩ := evictFrom_candidates hs hids
    · rwa [hres]
    · refine hmarks.getElem? hi ?_
      rintro rfl
      obtain h | h := hother
      · exact absurd (h.symm.trans helig.2.1) (by decide)
      · exact absurd (h.symm.trans helig.1) (by decide)

lemma collectCandidates_eq_nil (vNodes : List CNode) : collectCandidates vNodes = [] := by
  unfold collectCandidates
  induction vNodes with
  | nil => rfl
  | cons node vNodes ih => simp

/-- No peer is evicted. -/
lemma attemptToEvictConnection_eq (hs : IsSort sort) (vNodes : List CNode) :
    attemptToEvictConnection sort vNodes = (false, vNodes) := by
  have hnil : unprotected sort [] = [] :=
    List.eq_nil_iff_forall_not_mem.mpr fun x hx =>
      not_mem_nil ((unprotected_spec hs []).mem hx)
  rw [attemptToEvictConnection, collectCandidates_eq_nil, evictFrom, hnil]

/-- **When room is made.** The attempt does what it is for exactly when fewer than 21 peers may be
evicted: it fails in every case and marks no peer. -/
theorem attemptToEvictConnection_makesRoom_iff (hs : IsSort sort) (vNodes : List CNode) :
    MakesRoom vNodes (attemptToEvictConnection sort vNodes) ↔
      (vNodes.filter fun node => node.Eligible).length < 21 := by
  rw [attemptToEvictConnection_eq hs, MakesRoom]
  split_ifs with hcard
  · simp only [false_and, false_iff]
    omega
  · exact ⟨fun _ => by omega, fun _ i node hi _ => hi⟩

/-- Sorting by insertion, as an instance of `std::sort`. -/
def insertionSort : Sorter := fun lt l => l.insertionSort fun a b => lt b a = false

lemma isSort_insertionSort : IsSort insertionSort where
  perm lt l := perm_insertionSort _ _
  pairwise lt hlt l := by
    have htotal : Std.Total fun a b => lt b a = false := ⟨fun a b => by
      cases hba : lt b a with
      | false => exact .inl rfl
      | true =>
        right
        cases hab : lt a b with
        | false => rfl
        | true => exact absurd (hlt.trans a b a hab hba) (hlt.irrefl a)⟩
    have htrans : IsTrans _ fun a b => lt b a = false := ⟨fun a b c hab hbc => by
      cases hca : lt c a with
      | false => rfl
      | true =>
        -- `b` would be incomparable with both
        have hnab : ¬ lt a b = true := fun h => by simp [hlt.trans c a b hca h] at hbc
        have hnbc : ¬ lt b c = true := fun h => by simp [hlt.trans b c a h hca] at hab
        exact absurd hca (hlt.incomp_trans a b c ⟨hnab, by simp [hab]⟩ ⟨hnbc, by simp [hbc]⟩).2⟩
    exact pairwise_insertionSort _ _

/-- `n` inbound peers. -/
def inboundPeers (n : ℕ) : List CNode :=
  (List.range n).map fun (i : ℕ) =>
    { id := i, fWhitelisted := false, fInbound := true, fDisconnect := false, nTimeConnected := i,
      nMinPingUsecTime := 1000, nLastBlockTime := 0, nLastTXTime := 0, nServices := 9,
      fRelayTxes := true, pfilter := false, nKeyedNetGroup := UInt64.ofNat i }

theorem evictFrom_makesRoom_full : MakesRoom (inboundPeers 21)
    (evictFrom insertionSort (candidates (inboundPeers 21)) (inboundPeers 21)) :=
  evictFrom_makesRoom isSort_insertionSort (by decide)

theorem attemptToEvictConnection_makesRoom_iff_twenty :
    MakesRoom (inboundPeers 20) (attemptToEvictConnection insertionSort (inboundPeers 20)) :=
  (attemptToEvictConnection_makesRoom_iff isSort_insertionSort (inboundPeers 20)).mpr (by decide)

/-- With 21 inbound peers none is evicted. -/
theorem attemptToEvictConnection_of_full :
    ¬ MakesRoom (inboundPeers 21) (attemptToEvictConnection insertionSort (inboundPeers 21)) := by
  rw [attemptToEvictConnection_eq isSort_insertionSort, MakesRoom, if_pos (by decide)]
  exact fun h => absurd h.1 (by decide)

end Tos.Net.Eviction
