import Longcoin.Primitives
import Longcoin.Library.FiniteMap
import Longcoin.Library.Steps

/-! The bookkeeping of block downloads over all peers (`main.cpp`): `InitializeNode`, `MarkBlockAsInFlight`,
`MarkBlockAsReceived`, `UpdatePreferredDownload` and `FinalizeNode`. -/

namespace Longcoin.BlockDownload
open Primitives Library FiniteMap Option

abbrev BlockIndex := Uint256

abbrev NodeId := Int

structure QueuedBlock where
  hash : Uint256
  pindex : Option BlockIndex
  fValidatedHeaders : Bool
deriving DecidableEq, Repr

/-- A `list<QueuedBlock>::iterator`: the name of an element, which it keeps wherever the list changes. -/
abbrev Iterator := Nat

structure CNodeState where
  fSyncStarted : Bool := false
  nStallingSince : Int := 0
  vBlocksInFlight : List (Iterator × QueuedBlock) := []
  nDownloadingSince : Int := 0
  nBlocksInFlight : Int := 0
  nBlocksInFlightValidHeaders : Int := 0
  fPreferredDownload : Bool := false
deriving DecidableEq, Repr

/-- What `UpdatePreferredDownload` reads of a node. -/
structure CNode where
  fInbound : Bool
  fWhitelisted : Bool
  fOneShot : Bool
  fClient : Bool

/-- The global variables. `nextIterator` names the next element of a list. -/
structure State where
  mapNodeState : FiniteMap NodeId CNodeState
  mapBlocksInFlight : FiniteMap Uint256 (NodeId × Iterator)
  nPreferredDownload : Int
  nPeersWithValidatedDownloads : Int
  nSyncStarted : Int
  nextIterator : Iterator

def State.init : State := ⟨.empty, .empty, 0, 0, 0, 0⟩

def toInt (flag : Bool) : Int := if flag then 1 else 0

def CNodeState.deref (state : CNodeState) (it : Iterator) : Option QueuedBlock :=
  (state.vBlocksInFlight.find? fun element => element.1 == it).map Prod.snd

def initializeNode (s : State) (nodeid : NodeId) : State :=
  { s with mapNodeState := s.mapNodeState.insertNew nodeid {} }

/-- `UpdatePreferredDownload` with the state of the node. Nothing when there is none. -/
def updatePreferredDownload (s : State) (nodeid : NodeId) (node : CNode) : Option State := do
  let state ← s.mapNodeState.find nodeid
  let fPreferredDownload := (!node.fInbound || node.fWhitelisted) && !node.fOneShot && !node.fClient
  return { s with
    nPreferredDownload := s.nPreferredDownload - toInt state.fPreferredDownload + toInt fPreferredDownload
    mapNodeState := s.mapNodeState.put nodeid { state with fPreferredDownload } }

/-- `MarkBlockAsReceived` at a time: whether the block was requested. Nothing when a state or an element is not there. -/
def markBlockAsReceived (s : State) (hash : Uint256) (now : Int) : Option (State × Bool) :=
  match s.mapBlocksInFlight.find hash with
  | none => some (s, false)
  | some (nodeid, it) => do
    let state ← s.mapNodeState.find nodeid
    let queued ← state.deref it
    let nValidHeaders := state.nBlocksInFlightValidHeaders - toInt queued.fValidatedHeaders
    -- the last validated block on the queue was received
    let lastValidated := nValidHeaders == 0 && queued.fValidatedHeaders
    let first := state.vBlocksInFlight.head?.any fun element => element.1 == it
    return ({ s with
      mapNodeState := s.mapNodeState.put nodeid { state with
        nBlocksInFlightValidHeaders := nValidHeaders
        nDownloadingSince := if first then max state.nDownloadingSince now else state.nDownloadingSince
        vBlocksInFlight := state.vBlocksInFlight.filter fun element => element.1 != it
        nBlocksInFlight := state.nBlocksInFlight - 1
        nStallingSince := 0 }
      nPeersWithValidatedDownloads := s.nPeersWithValidatedDownloads - toInt lastValidated
      mapBlocksInFlight := s.mapBlocksInFlight.erase hash }, true)

/-- `MarkBlockAsInFlight`. Nothing when the peer has no state. -/
def markBlockAsInFlight (s : State) (nodeid : NodeId) (hash : Uint256) (pindex : Option BlockIndex) (now : Int) :
    Option State := do
  let _ ← s.mapNodeState.find nodeid
  -- make sure it is not listed somewhere already
  let (s, _) ← markBlockAsReceived s hash now
  let state ← s.mapNodeState.find nodeid
  let newentry : QueuedBlock := ⟨hash, pindex, pindex.isSome⟩
  let nBlocksInFlight := state.nBlocksInFlight + 1
  let nValidHeaders := state.nBlocksInFlightValidHeaders + toInt newentry.fValidatedHeaders
  return { s with
    mapNodeState := s.mapNodeState.put nodeid { state with
      vBlocksInFlight := state.vBlocksInFlight ++ [(s.nextIterator, newentry)]
      nBlocksInFlight
      nBlocksInFlightValidHeaders := nValidHeaders
      nDownloadingSince := if nBlocksInFlight == 1 then now else state.nDownloadingSince }
    nPeersWithValidatedDownloads := s.nPeersWithValidatedDownloads + toInt (nValidHeaders == 1 && pindex.isSome)
    mapBlocksInFlight := s.mapBlocksInFlight.put hash (nodeid, s.nextIterator)
    nextIterator := s.nextIterator + 1 }

/-- `FinalizeNode`. Nothing when the peer has no state or an assertion fails. -/
def finalizeNode (s : State) (nodeid : NodeId) : Option State := do
  let state ← s.mapNodeState.find nodeid
  let nPeers := s.nPeersWithValidatedDownloads - toInt (state.nBlocksInFlightValidHeaders != 0)
  let s' : State := { s with
    nSyncStarted := s.nSyncStarted - toInt state.fSyncStarted
    mapBlocksInFlight := state.vBlocksInFlight.foldl (fun map element => map.erase element.2.hash) s.mapBlocksInFlight
    nPreferredDownload := s.nPreferredDownload - toInt state.fPreferredDownload
    nPeersWithValidatedDownloads := nPeers
    mapNodeState := s.mapNodeState.erase nodeid }
  if 0 ≤ nPeers ∧ (s'.mapNodeState.keys = ∅ →
      s'.mapBlocksInFlight.keys = ∅ ∧ s'.nPreferredDownload = 0 ∧ s'.nPeersWithValidatedDownloads = 0) then some s'
  else none

inductive Call where
  | initializeNode (nodeid : NodeId)
  | updatePreferredDownload (nodeid : NodeId) (node : CNode)
  | markBlockAsInFlight (nodeid : NodeId) (hash : Uint256) (pindex : Option BlockIndex) (now : Int)
  | markBlockAsReceived (hash : Uint256) (now : Int)
  | finalizeNode (nodeid : NodeId)

def Call.peer : Call → Option NodeId
  | .initializeNode _ | .markBlockAsReceived _ _ => none
  | .updatePreferredDownload nodeid _ | .markBlockAsInFlight nodeid _ _ _ | .finalizeNode nodeid => some nodeid

def State.call (s : State) : Call → Option State
  | .initializeNode nodeid => some (Longcoin.BlockDownload.initializeNode s nodeid)
  | .updatePreferredDownload nodeid node => Longcoin.BlockDownload.updatePreferredDownload s nodeid node
  | .markBlockAsInFlight nodeid hash pindex now => Longcoin.BlockDownload.markBlockAsInFlight s nodeid hash pindex now
  | .markBlockAsReceived hash now => (Longcoin.BlockDownload.markBlockAsReceived s hash now).map Prod.fst
  | .finalizeNode nodeid => Longcoin.BlockDownload.finalizeNode s nodeid

/-- The counters of a peer are those of its list, whose elements have names of their own. -/
structure PeerExact (nextIterator : Iterator) (state : CNodeState) : Prop where
  names : (state.vBlocksInFlight.map Prod.fst).Nodup
  used : ∀ element ∈ state.vBlocksInFlight, element.1 < nextIterator
  count : state.nBlocksInFlight = state.vBlocksInFlight.length
  valid : state.nBlocksInFlightValidHeaders = state.vBlocksInFlight.countP fun element => element.2.fValidatedHeaders

/-- Every hash in the map points at an element of a peer's list with that hash, and every element is pointed at. -/
structure Exact (s : State) : Prop where
  peer : ∀ nodeid state, s.mapNodeState.find nodeid = some state → PeerExact s.nextIterator state
  points : ∀ hash nodeid it, s.mapBlocksInFlight.find hash = some (nodeid, it) ↔
    ∃ state queued, s.mapNodeState.find nodeid = some state ∧ (it, queued) ∈ state.vBlocksInFlight ∧ queued.hash = hash
  downloads : s.nPeersWithValidatedDownloads = s.mapNodeState.count fun state => decide (0 < state.nBlocksInFlightValidHeaders)
  preferred : s.nPreferredDownload = s.mapNodeState.count fun state => state.fPreferredDownload

theorem count_put {map : FiniteMap NodeId CNodeState} {nodeid : NodeId} {old : CNodeState} (found : map.find nodeid = some old)
    (state : CNodeState) (test : CNodeState → Bool) :
    ((map.put nodeid state).count test : Int) = map.count test - toInt (test old) + toInt (test state) := by
  rw [count_eq_sum, count_eq_sum, sum_put_found found]
  rfl

theorem split_at_name {elements : List (Iterator × QueuedBlock)} {it : Iterator} {queued : QueuedBlock}
    (names : (elements.map Prod.fst).Nodup) (member : (it, queued) ∈ elements) :
    ∃ front back, elements = front ++ (it, queued) :: back ∧ (elements.filter fun element => element.1 != it) = front ++ back ∧
      elements.find? (fun element => element.1 == it) = some (it, queued) := by
  obtain ⟨front, back, rfl⟩ := List.append_of_mem member
  rw [List.map_append, List.map_cons] at names
  have others : ∀ element ∈ front ++ back, element.1 ≠ it := by
    intro element inside same
    have absent := (List.nodup_cons.mp (List.perm_middle.nodup_iff.mp names)).1
    rw [← List.map_append] at absent
    exact absent (List.mem_map.mpr ⟨element, inside, same⟩)
  have kept : ∀ element ∈ front ++ back, (element.1 != it) = true := fun element inside => bne_iff_ne.mpr (others element inside)
  refine ⟨front, back, rfl, ?_, ?_⟩
  · rw [List.filter_append, List.filter_cons_of_neg (by simp),
      List.filter_eq_self.mpr (List.forall_mem_append.mp kept).1,
      List.filter_eq_self.mpr (List.forall_mem_append.mp kept).2]
  · have none : front.find? (fun element => element.1 == it) = none := by
      rw [List.find?_eq_none]
      intro element inside same
      exact others element (List.mem_append_left _ inside) (beq_iff_eq.mp same)
    rw [List.find?_append, none, none_or]
    exact List.find?_cons_of_pos (beq_self_eq_true it)

theorem toInt_decide_pos {count : Int} (flag : Bool) (within : toInt flag ≤ count) :
    toInt (decide (0 < count)) = toInt (decide (0 < count - toInt flag)) + toInt (count - toInt flag == 0 && flag) := by
  cases flag with
  | false => simp [toInt]
  | true =>
    rw [toInt, if_pos rfl] at within
    simp only [toInt, if_true, Bool.and_true, decide_eq_true_eq, beq_iff_eq]
    split <;> split <;> split <;> omega

theorem PeerExact.remove {next : Iterator} {state state' : CNodeState} {it : Iterator} {queued : QueuedBlock}
    (peer : PeerExact next state) (member : (it, queued) ∈ state.vBlocksInFlight)
    (list : state'.vBlocksInFlight = state.vBlocksInFlight.filter fun element => element.1 != it)
    (count : state'.nBlocksInFlight = state.nBlocksInFlight - 1)
    (valid : state'.nBlocksInFlightValidHeaders = state.nBlocksInFlightValidHeaders - toInt queued.fValidatedHeaders) :
    PeerExact next state' ∧ toInt queued.fValidatedHeaders ≤ state.nBlocksInFlightValidHeaders := by
  obtain ⟨front, back, whole, left, -⟩ := split_at_name peer.names member
  have total : state.nBlocksInFlightValidHeaders =
      ((front ++ back).countP fun element => element.2.fValidatedHeaders) + toInt queued.fValidatedHeaders := by
    rw [peer.valid, whole, List.countP_append, List.countP_append, List.countP_cons, toInt]
    push_cast
    split <;> omega
  have length : state.nBlocksInFlight = (front ++ back).length + 1 := by
    rw [peer.count, whole, List.length_append, List.length_append, List.length_cons]
    omega
  refine ⟨⟨?_, ?_, ?_, ?_⟩, ?_⟩
  · rw [list]
    exact peer.names.sublist (List.filter_sublist.map _)
  · rw [list]
    exact fun element inside => peer.used element (List.mem_of_mem_filter inside)
  · rw [list, left, count, length]
    omega
  · rw [list, left, valid, total]
    omega
  · omega

theorem PeerExact.later {next : Iterator} {state : CNodeState} (peer : PeerExact next state) : PeerExact (next + 1) state :=
  ⟨peer.names, fun element inside => Nat.lt_succ_of_lt (peer.used element inside), peer.count, peer.valid⟩

theorem PeerExact.append {next : Iterator} {state state' : CNodeState} {queued : QueuedBlock} (peer : PeerExact next state)
    (list : state'.vBlocksInFlight = state.vBlocksInFlight ++ [(next, queued)])
    (count : state'.nBlocksInFlight = state.nBlocksInFlight + 1)
    (valid : state'.nBlocksInFlightValidHeaders = state.nBlocksInFlightValidHeaders + toInt queued.fValidatedHeaders) :
    PeerExact (next + 1) state' := by
  refine ⟨?_, ?_, ?_, ?_⟩
  · rw [list, List.map_append, List.nodup_append]
    refine ⟨peer.names, List.nodup_singleton _, ?_⟩
    intro name member other same
    obtain ⟨element, inside, rfl⟩ := List.mem_map.mp member
    obtain rfl := List.mem_singleton.mp same
    exact (peer.used element inside).ne
  · rw [list]
    intro element inside
    rcases List.mem_append.mp inside with inside | inside
    · exact Nat.lt_succ_of_lt (peer.used element inside)
    · rw [List.mem_singleton.mp inside]
      exact Nat.lt_succ_self next
  · rw [list, List.length_append, count, peer.count]
    rfl
  · rw [list, List.countP_append, List.countP_singleton, valid, peer.valid, toInt]
    push_cast
    rfl

section

variable {s : State} (exact_ : Exact s)
include exact_

variable {nodeid : NodeId}

theorem Exact.remove {hash : Uint256} {it : Iterator} {queued : QueuedBlock} {state state' : CNodeState}
    (place : s.mapBlocksInFlight.find hash = some (nodeid, it)) (found : s.mapNodeState.find nodeid = some state)
    (member : (it, queued) ∈ state.vBlocksInFlight)
    (list : state'.vBlocksInFlight = state.vBlocksInFlight.filter fun element => element.1 != it)
    (count : state'.nBlocksInFlight = state.nBlocksInFlight - 1)
    (valid : state'.nBlocksInFlightValidHeaders = state.nBlocksInFlightValidHeaders - toInt queued.fValidatedHeaders)
    (preferred : state'.fPreferredDownload = state.fPreferredDownload) :
    Exact { s with
      mapNodeState := s.mapNodeState.put nodeid state'
      nPeersWithValidatedDownloads := s.nPeersWithValidatedDownloads -
        toInt (state'.nBlocksInFlightValidHeaders == 0 && queued.fValidatedHeaders)
      mapBlocksInFlight := s.mapBlocksInFlight.erase hash } := by
  obtain ⟨peer', within⟩ := (exact_.peer _ _ found).remove member list count valid
  refine ⟨?_, ?_, ?_, ?_⟩
  · intro other otherState here
    rw [find_put] at here
    split at here
    · exact some.inj here ▸ peer'
    · exact exact_.peer other otherState here
  · intro other otherId otherIt
    constructor
    · intro points
      rw [find_erase] at points
      split at points
      · cases points
      next different =>
      obtain ⟨otherState, otherQueued, otherFound, otherMember, hashed⟩ := (exact_.points _ _ _).mp points
      by_cases same : otherId = nodeid
      · subst same
        rw [found] at otherFound
        obtain rfl := some.inj otherFound
        refine ⟨state', otherQueued, find_put_self _ _ _, ?_, hashed⟩
        rw [list, List.mem_filter]
        refine ⟨otherMember, bne_iff_ne.mpr ?_⟩
        rintro rfl
        -- the map would give one place to two hashes
        have both := exact_.points hash otherId otherIt
        obtain ⟨stateAgain, queuedAgain, foundAgain, memberAgain, hashAgain⟩ := both.mp place
        rw [found] at foundAgain
        obtain rfl := some.inj foundAgain
        obtain ⟨-, -, -, -, first⟩ := split_at_name (exact_.peer _ _ found).names memberAgain
        obtain ⟨-, -, -, -, second⟩ := split_at_name (exact_.peer _ _ found).names otherMember
        rw [first] at second
        rw [(Prod.mk.inj (some.inj second)).2, hashed] at hashAgain
        exact different hashAgain
      · exact ⟨otherState, otherQueued, (find_put_ne same).trans otherFound, otherMember, hashed⟩
    · rintro ⟨otherState, otherQueued, otherFound, otherMember, hashed⟩
      rw [find_put] at otherFound
      rw [find_erase]
      split at otherFound
      · next same =>
        subst same
        obtain rfl := some.inj otherFound
        rw [list, List.mem_filter] at otherMember
        have points := (exact_.points other otherId otherIt).mpr ⟨state, otherQueued, found, otherMember.1, hashed⟩
        rw [if_neg, points]
        rintro rfl
        rw [place] at points
        exact bne_iff_ne.mp otherMember.2 (Prod.mk.inj (some.inj points)).2.symm
      · next different =>
        have points := (exact_.points other otherId otherIt).mpr ⟨otherState, otherQueued, otherFound, otherMember, hashed⟩
        rw [if_neg, points]
        rintro rfl
        rw [place] at points
        exact different (Prod.mk.inj (some.inj points)).1.symm
  · have moved := toInt_decide_pos queued.fValidatedHeaders within
    rw [← valid] at moved
    change s.nPeersWithValidatedDownloads - _ = ((s.mapNodeState.put nodeid state').count _ : Int)
    rw [count_put found, exact_.downloads, moved]
    omega
  · change s.nPreferredDownload = ((s.mapNodeState.put nodeid state').count _ : Int)
    rw [count_put found, exact_.preferred, preferred]
    omega

theorem Exact.append {queued : QueuedBlock} {state state' : CNodeState}
    (absent : s.mapBlocksInFlight.find queued.hash = none) (found : s.mapNodeState.find nodeid = some state)
    (list : state'.vBlocksInFlight = state.vBlocksInFlight ++ [(s.nextIterator, queued)])
    (count : state'.nBlocksInFlight = state.nBlocksInFlight + 1)
    (valid : state'.nBlocksInFlightValidHeaders = state.nBlocksInFlightValidHeaders + toInt queued.fValidatedHeaders)
    (preferred : state'.fPreferredDownload = state.fPreferredDownload) :
    Exact { s with
      mapNodeState := s.mapNodeState.put nodeid state'
      nPeersWithValidatedDownloads := s.nPeersWithValidatedDownloads +
        toInt (state'.nBlocksInFlightValidHeaders == 1 && queued.fValidatedHeaders)
      mapBlocksInFlight := s.mapBlocksInFlight.put queued.hash (nodeid, s.nextIterator)
      nextIterator := s.nextIterator + 1 } := by
  have peer := exact_.peer _ _ found
  refine ⟨?_, ?_, ?_, ?_⟩
  · intro other otherState here
    rw [find_put] at here
    split at here
    · exact some.inj here ▸ peer.append list count valid
    · exact (exact_.peer other otherState here).later
  · intro other otherId otherIt
    constructor
    · intro points
      rw [find_put] at points
      split at points
      · next same =>
        obtain ⟨rfl, rfl⟩ := Prod.mk.inj (some.inj points)
        refine ⟨state', queued, find_put_self _ _ _, ?_, same.symm⟩
        rw [list]
        exact List.mem_append_right _ (List.mem_singleton_self _)
      · obtain ⟨otherState, otherQueued, otherFound, otherMember, hashed⟩ := (exact_.points _ _ _).mp points
        by_cases same : otherId = nodeid
        · subst same
          rw [found] at otherFound
          obtain rfl := some.inj otherFound
          refine ⟨state', otherQueued, find_put_self _ _ _, ?_, hashed⟩
          rw [list]
          exact List.mem_append_left _ otherMember
        · exact ⟨otherState, otherQueued, (find_put_ne same).trans otherFound, otherMember, hashed⟩
    · rintro ⟨otherState, otherQueued, otherFound, otherMember, hashed⟩
      rw [find_put]
      -- an element of before has another hash than the new one
      have earlier : ∀ {earlierState : CNodeState}, s.mapNodeState.find otherId = some earlierState →
          (otherIt, otherQueued) ∈ earlierState.vBlocksInFlight →
          (if other = queued.hash then some (nodeid, s.nextIterator) else s.mapBlocksInFlight.find other) =
            some (otherId, otherIt) := by
        intro earlierState earlierFound inside
        have points := (exact_.points other otherId otherIt).mpr ⟨earlierState, otherQueued, earlierFound, inside, hashed⟩
        rw [if_neg, points]
        rintro rfl
        rw [absent] at points
        cases points
      rw [find_put] at otherFound
      split at otherFound
      · next same =>
        subst same
        obtain rfl := some.inj otherFound
        rw [list] at otherMember
        rcases List.mem_append.mp otherMember with inside | inside
        · exact earlier found inside
        · obtain ⟨rfl, rfl⟩ := Prod.mk.inj (List.mem_singleton.mp inside)
          rw [if_pos hashed.symm]
      · exact earlier otherFound otherMember
  · have within : toInt queued.fValidatedHeaders ≤ state'.nBlocksInFlightValidHeaders := by
      rw [valid, peer.valid]
      omega
    have moved := toInt_decide_pos queued.fValidatedHeaders within
    have before : state'.nBlocksInFlightValidHeaders - toInt queued.fValidatedHeaders = state.nBlocksInFlightValidHeaders := by omega
    have crossing : toInt (state'.nBlocksInFlightValidHeaders - toInt queued.fValidatedHeaders == 0 && queued.fValidatedHeaders) =
        toInt (state'.nBlocksInFlightValidHeaders == 1 && queued.fValidatedHeaders) := by
      cases queued.fValidatedHeaders with
      | false => rw [Bool.and_false, Bool.and_false]
      | true =>
        have same : (state'.nBlocksInFlightValidHeaders - 1 == 0) = (state'.nBlocksInFlightValidHeaders == 1) := by
          rw [Bool.eq_iff_iff, beq_iff_eq, beq_iff_eq]
          omega
        rw [Bool.and_true, Bool.and_true]
        exact congrArg toInt same
    rw [crossing, before] at moved
    change s.nPeersWithValidatedDownloads + _ = ((s.mapNodeState.put nodeid state').count _ : Int)
    rw [count_put found, exact_.downloads, moved]
    omega
  · change s.nPreferredDownload = ((s.mapNodeState.put nodeid state').count _ : Int)
    rw [count_put found, exact_.preferred, preferred]
    omega

theorem received_spec (hash : Uint256) (now : Int) :
    ∃ s' found, markBlockAsReceived s hash now = some (s', found) ∧ Exact s' ∧ s'.mapBlocksInFlight.find hash = none ∧
      s'.mapNodeState.keys = s.mapNodeState.keys := by
  cases place : s.mapBlocksInFlight.find hash with
  | none =>
    refine ⟨s, false, ?_, exact_, place, rfl⟩
    rw [markBlockAsReceived, place]
  | some pair =>
    obtain ⟨nodeid, it⟩ := pair
    obtain ⟨state, queued, found, member, hashed⟩ := (exact_.points hash nodeid it).mp place
    obtain ⟨-, -, -, -, first⟩ := split_at_name (exact_.peer _ _ found).names member
    have deref : state.deref it = some queued := by
      rw [CNodeState.deref, first]
      rfl
    have marks : ∃ s', markBlockAsReceived s hash now = some (s', true) ∧ ∃ state', Exact s' ∧
        s'.mapBlocksInFlight = s.mapBlocksInFlight.erase hash ∧ s'.mapNodeState = s.mapNodeState.put nodeid state' := by
      simp only [markBlockAsReceived, place, found, deref, bind, Option.bind, pure]
      exact ⟨_, rfl, _, exact_.remove place found member rfl rfl rfl rfl, rfl, rfl⟩
    obtain ⟨s', marked, state', exact', map, nodes⟩ := marks
    refine ⟨s', true, marked, exact', ?_, ?_⟩
    · rw [map, find_erase_self]
    · rw [nodes]
      exact Finset.insert_eq_of_mem (mem_of_find found)

theorem inFlight_spec (known : nodeid ∈ s.mapNodeState.keys) (hash : Uint256) (pindex : Option BlockIndex) (now : Int) :
    ∃ s', markBlockAsInFlight s nodeid hash pindex now = some s' ∧ Exact s' := by
  obtain ⟨middle, found, received, exactMiddle, gone, keys⟩ := received_spec exact_ hash now
  obtain ⟨before, foundBefore⟩ := find_of_mem known
  obtain ⟨state, foundState⟩ := find_of_mem (keys ▸ known)
  have absent : middle.mapBlocksInFlight.find (QueuedBlock.mk hash pindex pindex.isSome).hash = none := gone
  simp only [markBlockAsInFlight, foundBefore, received, foundState, bind, Option.bind, pure]
  exact ⟨_, rfl, exactMiddle.append absent foundState rfl rfl rfl rfl⟩

theorem preferred_spec (known : nodeid ∈ s.mapNodeState.keys) (node : CNode) :
    ∃ s', updatePreferredDownload s nodeid node = some s' ∧ Exact s' := by
  obtain ⟨state, found⟩ := find_of_mem known
  simp only [updatePreferredDownload, found, bind, bind, pure]
  refine ⟨_, rfl, ?_, ?_, ?_, ?_⟩
  · intro other otherState here
    rw [find_put] at here
    split at here
    · rw [← some.inj here]
      obtain ⟨names, used, count, valid⟩ := exact_.peer _ _ found
      exact ⟨names, used, count, valid⟩
    · exact exact_.peer other otherState here
  · intro hash other it
    rw [exact_.points]
    -- the lists stay as they are
    by_cases same : other = nodeid
    · subst same
      rw [found, find_put_self]
      constructor
      · rintro ⟨otherState, queued, here, member, hashed⟩
        obtain rfl := some.inj here
        exact ⟨_, queued, rfl, member, hashed⟩
      · rintro ⟨otherState, queued, here, member, hashed⟩
        obtain rfl := some.inj here
        exact ⟨_, queued, rfl, member, hashed⟩
    · rw [find_put_ne same]
  · rw [count_put found, exact_.downloads]
    exact (sub_add_cancel _ _).symm
  · rw [count_put found, exact_.preferred]

theorem initialize_spec (nodeid : NodeId) : Exact (initializeNode s nodeid) := by
  cases found : s.mapNodeState.find nodeid with
  | some state =>
    rw [initializeNode, insertNew, found]
    exact exact_
  | none =>
    rw [initializeNode, insertNew, found]
    refine ⟨?_, ?_, ?_, ?_⟩
    · intro other otherState here
      change (s.mapNodeState.put nodeid {}).find other = some otherState at here
      rw [find_put] at here
      split at here
      · rw [← some.inj here]
        exact ⟨List.nodup_nil, by simp, rfl, rfl⟩
      · exact exact_.peer other otherState here
    · intro hash other it
      change s.mapBlocksInFlight.find hash = some (other, it) ↔ ∃ state queued,
        (s.mapNodeState.put nodeid {}).find other = some state ∧ (it, queued) ∈ state.vBlocksInFlight ∧ queued.hash = hash
      rw [exact_.points]
      by_cases same : other = nodeid
      · subst same
        rw [found, find_put_self]
        constructor
        · rintro ⟨_, _, missing, -⟩
          cases missing
        · rintro ⟨otherState, queued, here, member, -⟩
          obtain rfl := some.inj here
          cases member
      · rw [find_put_ne same]
    · change s.nPeersWithValidatedDownloads = ((s.mapNodeState.put nodeid {}).count _ : Int)
      rw [exact_.downloads, count_eq_sum, count_eq_sum, sum_put found]
      exact (add_zero _).symm
    · change s.nPreferredDownload = ((s.mapNodeState.put nodeid {}).count _ : Int)
      rw [exact_.preferred, count_eq_sum, count_eq_sum, sum_put found]
      exact (add_zero _).symm

theorem Exact.downloads_nonneg : 0 ≤ s.nPeersWithValidatedDownloads := by
  rw [exact_.downloads]
  exact Int.natCast_nonneg _

theorem Exact.nobody (empty : s.mapNodeState.keys = ∅) :
    s.mapBlocksInFlight.keys = ∅ ∧ s.nPreferredDownload = 0 ∧ s.nPeersWithValidatedDownloads = 0 := by
  have none : ∀ test : CNodeState → Bool, s.mapNodeState.count test = 0 := fun test => by
    rw [count, empty]
    rfl
  refine ⟨?_, ?_, ?_⟩
  · rw [Finset.eq_empty_iff_forall_notMem]
    intro hash member
    obtain ⟨⟨nodeid, it⟩, place⟩ := find_of_mem member
    obtain ⟨state, -, found, -⟩ := (exact_.points hash nodeid it).mp place
    have known := mem_of_find found
    rw [empty] at known
    exact Finset.notMem_empty _ known
  · rw [exact_.preferred, none]
    rfl
  · rw [exact_.downloads, none]
    rfl

theorem Exact.leave {state : CNodeState} (found : s.mapNodeState.find nodeid = some state) (nSyncStarted : Int) :
    Exact { s with
      nSyncStarted
      mapBlocksInFlight := state.vBlocksInFlight.foldl (fun map element => map.erase element.2.hash) s.mapBlocksInFlight
      nPreferredDownload := s.nPreferredDownload - toInt state.fPreferredDownload
      nPeersWithValidatedDownloads := s.nPeersWithValidatedDownloads - toInt (state.nBlocksInFlightValidHeaders != 0)
      mapNodeState := s.mapNodeState.erase nodeid } := by
  have validated : (state.nBlocksInFlightValidHeaders != 0) = decide (0 < state.nBlocksInFlightValidHeaders) := by
    rw [Bool.eq_iff_iff, bne_iff_ne, decide_eq_true_iff, (exact_.peer _ _ found).valid]
    omega
  refine ⟨?_, ?_, ?_, ?_⟩
  · intro other otherState here
    rw [find_erase] at here
    split at here
    · cases here
    · exact exact_.peer other otherState here
  · intro hash other it
    rw [find_foldl_erase (fun element : Iterator × QueuedBlock => element.2.hash)]
    constructor
    · intro points
      split at points
      · cases points
      next absent =>
      obtain ⟨otherState, queued, otherFound, member, hashed⟩ := (exact_.points _ _ _).mp points
      refine ⟨otherState, queued, ?_, member, hashed⟩
      rw [find_erase_ne, otherFound]
      rintro rfl
      rw [found] at otherFound
      obtain rfl := some.inj otherFound
      exact absent (List.mem_map.mpr ⟨_, member, hashed⟩)
    · rintro ⟨otherState, queued, otherFound, member, hashed⟩
      rw [find_erase] at otherFound
      split at otherFound
      · cases otherFound
      next different =>
      have points := (exact_.points hash other it).mpr ⟨otherState, queued, otherFound, member, hashed⟩
      rw [if_neg, points]
      -- a hash on the leaving peer's list is in flight from that peer
      intro listed
      obtain ⟨⟨ownIt, own⟩, inside, ownHash⟩ := List.mem_map.mp listed
      have ownPoints := (exact_.points hash nodeid ownIt).mpr ⟨state, own, found, inside, ownHash⟩
      rw [points] at ownPoints
      exact different (Prod.mk.inj (some.inj ownPoints)).1
  · rw [count_eq_sum, sum_erase found, ← count_eq_sum, exact_.downloads, validated]
    rfl
  · rw [count_eq_sum, sum_erase found, ← count_eq_sum, exact_.preferred]
    rfl

theorem finalize_spec (known : nodeid ∈ s.mapNodeState.keys) : ∃ s', finalizeNode s nodeid = some s' ∧ Exact s' := by
  obtain ⟨state, found⟩ := find_of_mem known
  have left := exact_.leave found (s.nSyncStarted - toInt state.fSyncStarted)
  simp only [finalizeNode, found, bind, bind]
  exact ⟨_, if_pos ⟨left.downloads_nonneg, left.nobody⟩, left⟩

end

theorem init_exact : Exact State.init where
  peer _ _ found := by cases found
  points _ _ _ := by
    constructor
    · intro found
      cases found
    · rintro ⟨_, _, found, -⟩
      cases found
  downloads := rfl
  preferred := rfl

theorem call_spec {s : State} (exact_ : Exact s) (call : Call) (known : ∀ nodeid ∈ call.peer, nodeid ∈ s.mapNodeState.keys) :
    ∃ s', s.call call = some s' ∧ Exact s' := by
  cases call with
  | initializeNode nodeid => exact ⟨_, rfl, initialize_spec exact_ nodeid⟩
  | updatePreferredDownload nodeid node => exact preferred_spec exact_ (known nodeid rfl) node
  | markBlockAsInFlight nodeid hash pindex now => exact inFlight_spec exact_ (known nodeid rfl) hash pindex now
  | markBlockAsReceived hash now =>
    obtain ⟨s', found, received, exact', -⟩ := received_spec exact_ hash now
    refine ⟨s', ?_, exact'⟩
    rw [State.call, received, map_some]
  | finalizeNode nodeid => exact finalize_spec exact_ (known nodeid rfl)

theorem call_known {s s' : State} {call : Call} (goes : s.call call = some s') : ∀ nodeid ∈ call.peer, nodeid ∈ s.mapNodeState.keys := by
  intro nodeid peer
  by_contra unknown
  have absent := find_eq_none.mpr unknown
  cases call with
  | initializeNode _ => cases peer
  | markBlockAsReceived _ _ => cases peer
  | updatePreferredDownload _ _ =>
    obtain rfl := some.inj peer
    simp [State.call, updatePreferredDownload, absent] at goes
  | markBlockAsInFlight _ _ _ _ =>
    obtain rfl := some.inj peer
    simp [State.call, markBlockAsInFlight, absent] at goes
  | finalizeNode _ =>
    obtain rfl := some.inj peer
    simp [State.call, finalizeNode, absent] at goes

theorem run_exact {s last : State} {calls : List Call} (run : Steps (fun s call s' => State.call s call = some s') s calls last)
    (exact_ : Exact s) : Exact last := by
  refine run.invariant Exact (fun before call after exactBefore goes => ?_) exact_
  obtain ⟨s', same, exact'⟩ := call_spec exactBefore call (call_known goes)
  rw [goes] at same
  exact some.inj same ▸ exact'

theorem Exact.no_twice {s : State} (exact_ : Exact s) {a b : NodeId} {stateA stateB : CNodeState} {i j : Nat}
    {elementA elementB : Iterator × QueuedBlock} (foundA : s.mapNodeState.find a = some stateA)
    (foundB : s.mapNodeState.find b = some stateB) (atA : stateA.vBlocksInFlight[i]? = some elementA)
    (atB : stateB.vBlocksInFlight[j]? = some elementB) (same : elementA.2.hash = elementB.2.hash) : a = b ∧ i = j := by
  have pointA := (exact_.points elementB.2.hash a elementA.1).mpr ⟨stateA, elementA.2, foundA, List.mem_of_getElem? atA, same⟩
  have pointB := (exact_.points elementB.2.hash b elementB.1).mpr ⟨stateB, elementB.2, foundB, List.mem_of_getElem? atB, rfl⟩
  rw [pointA] at pointB
  obtain ⟨rfl, names⟩ := Prod.mk.inj (some.inj pointB)
  rw [foundA] at foundB
  obtain rfl := some.inj foundB
  refine ⟨rfl, ?_⟩
  -- the names of the list are different
  have nameA : (stateA.vBlocksInFlight.map Prod.fst)[i]? = some elementA.1 := by rw [List.getElem?_map, atA, map_some]
  have nameB : (stateA.vBlocksInFlight.map Prod.fst)[j]? = some elementA.1 := by rw [List.getElem?_map, atB, map_some, names]
  have inside := (List.getElem?_eq_some_iff.mp nameA).1
  exact (List.getElem?_inj inside (exact_.peer _ _ foundA).names).mp (nameA.trans nameB.symm)

/-- After any calls the map and the lists are each other's, the counters count, and every call for a known peer goes
through, `FinalizeNode` with its assertions among them. -/
theorem bookkeeping (calls : List Call) (s : State) (run : calls.foldlM State.call State.init = some s) :
    (∀ hash nodeid it, s.mapBlocksInFlight.find hash = some (nodeid, it) ↔
      ∃ state queued, s.mapNodeState.find nodeid = some state ∧ (it, queued) ∈ state.vBlocksInFlight ∧ queued.hash = hash) ∧
    (∀ a b stateA stateB (i j : Nat) elementA elementB, s.mapNodeState.find a = some stateA →
      s.mapNodeState.find b = some stateB → stateA.vBlocksInFlight[i]? = some elementA →
      stateB.vBlocksInFlight[j]? = some elementB → elementA.2.hash = elementB.2.hash → a = b ∧ i = j) ∧
    (∀ nodeid state, s.mapNodeState.find nodeid = some state → (state.vBlocksInFlight.map Prod.fst).Nodup ∧
      state.nBlocksInFlight = state.vBlocksInFlight.length ∧
      state.nBlocksInFlightValidHeaders = state.vBlocksInFlight.countP fun element => element.2.fValidatedHeaders) ∧
    s.nPeersWithValidatedDownloads = s.mapNodeState.count (fun state => decide (0 < state.nBlocksInFlightValidHeaders)) ∧
    s.nPreferredDownload = s.mapNodeState.count (fun state => state.fPreferredDownload) ∧
    ∀ call : Call, (∀ nodeid ∈ call.peer, nodeid ∈ s.mapNodeState.keys) → (s.call call).isSome = true := by
  have exact_ := run_exact (Steps.of_foldlM run) init_exact
  refine ⟨exact_.points, ?_, ?_, exact_.downloads, exact_.preferred, ?_⟩
  · intro a b stateA stateB i j elementA elementB foundA foundB atA atB same
    exact exact_.no_twice foundA foundB atA atB same
  · intro nodeid state found
    have peer := exact_.peer nodeid state found
    exact ⟨peer.names, peer.count, peer.valid⟩
  · intro call known
    obtain ⟨s', goes, -⟩ := call_spec exact_ call known
    rw [goes]
    rfl

def rerequest : List Call :=
  [.initializeNode 1, .initializeNode 2, .markBlockAsInFlight 1 7 (some 7) 100, .markBlockAsInFlight 2 7 (some 7) 200]

theorem bookkeeping_rerequest : ∃ s, rerequest.foldlM State.call State.init = some s ∧
    s.mapBlocksInFlight.find 7 = some (2, 1) ∧ s.nPeersWithValidatedDownloads = 1 ∧
    (s.call (.finalizeNode 2)).isSome = true := by
  refine ⟨_, rfl, rfl, rfl, ?_⟩
  exact (bookkeeping rerequest _ rfl).2.2.2.2.2 (.finalizeNode 2) fun nodeid peer => by
    obtain rfl := some.inj peer
    decide

end Longcoin.BlockDownload
