import Longcoin.BareScript
import Longcoin.BloomFilter

/-! `IsRelevantAndUpdate` (`bloom.cpp`), and runs of it and of `insert` on a filter that a peer loaded. -/

namespace Longcoin.Bloom
open Primitives Serialize Script Standard LongData Library.Outcome Grown List Option Bool Except

/-- A failure of the filter, or a read of `Solver` outside of the script. -/
inductive Stop where
  | filter (fault : Fault)
  | solver
deriving DecidableEq

def lift {α : Type} (run : Except Fault α) : Except Stop α := run.mapError .filter

/-- The filter while a transaction is looked through, `fFound`, and the outpoints that were inserted. -/
structure Examined where
  filter : CBloomFilter
  fFound : Bool
  inserted : List COutPoint
deriving DecidableEq

inductive Action where
  | insert (vData : List UInt8)
  | transaction (tx : CTransaction)

section Model

variable (hashFunction : BitVec 32 → List UInt8 → BitVec 32)

/-- The loop over the instructions of a script: whether the filter contains an element that is pushed. -/
def containsElement (s : CBloomFilter) : Nat → CScript → Except Fault Bool
  | 0, _ => .ok false
  | turns + 1, pc =>
      match getOp pc with
      | none => .ok false
      | some (_, data, next) =>
          if data ≠ [] then do
            let found ← s.contains hashFunction data
            if found then return true else containsElement s turns next
          else containsElement s turns next

def insertOutPoint (st : Examined) (outpoint : COutPoint) : Except Stop Examined := do
  let filter ← lift (st.filter.insert hashFunction (writeOutPoint outpoint))
  return ⟨filter, true, st.inserted ++ [outpoint]⟩

def examineOutput (hash : Uint256) (st : Examined) (output : CTxOut × Nat) : Except Stop Examined := do
  let scriptPubKey := output.1.scriptPubKey
  let found ← lift (containsElement hashFunction st.filter scriptPubKey.length scriptPubKey)
  if !found then return st
  else if st.filter.nFlags &&& BLOOM_UPDATE_MASK = BLOOM_UPDATE_ALL then insertOutPoint hashFunction st ⟨hash, output.2⟩
  else if st.filter.nFlags &&& BLOOM_UPDATE_MASK = BLOOM_UPDATE_P2PUBKEY_ONLY then
    match solver scriptPubKey with
    | none => .error .solver
    | some solved =>
        if solved.success && isKeyType solved.typeRet then insertOutPoint hashFunction st ⟨hash, output.2⟩
        else return { st with fFound := true }
  else return { st with fFound := true }

def examineOutputs (s : CBloomFilter) (tx : CTransaction) (outputs : List (CTxOut × Nat)) : Except Stop Examined := do
  let known ← lift (s.contains hashFunction (writeUint256 tx.hash))
  outputs.foldlM (examineOutput hashFunction tx.hash) ⟨s, known, []⟩

def examineInputs (s : CBloomFilter) : List CTxIn → Except Fault Bool
  | [] => .ok false
  | txin :: rest => do
      let spends ← s.contains hashFunction (writeOutPoint txin.prevout)
      if spends then return true
      else do
        let found ← containsElement hashFunction s txin.scriptSig.length txin.scriptSig
        if found then return true else examineInputs s rest

/-- The result is the last `fFound`. -/
def isRelevantAndUpdate (s : CBloomFilter) (tx : CTransaction) : Except Stop Examined :=
  if s.isFull then .ok ⟨s, true, []⟩
  else if s.isEmpty then .ok ⟨s, false, []⟩
  else do
    let st ← examineOutputs hashFunction s tx tx.vout.zipIdx
    if st.fFound then return st
    else do
      let found ← lift (examineInputs hashFunction st.filter tx.vin)
      return { st with fFound := found }

def Action.apply (s : CBloomFilter) : Action → Except Stop CBloomFilter
  | .insert vData => lift (s.insert hashFunction vData)
  | .transaction tx => do
      let st ← isRelevantAndUpdate hashFunction s tx
      return st.filter

def runActions (loaded : CBloomFilter) (actions : List Action) : Except Stop CBloomFilter :=
  actions.foldlM (Action.apply hashFunction) loaded

/-- A non-empty element that a script pushes before any opcode that cannot be decoded. -/
def Pushes (script : CScript) (data : List UInt8) : Prop :=
  data ≠ [] ∧ ∃ ops opcode rest, Reads script (ops ++ [(opcode, data)]) rest

def MatchesScript (s : CBloomFilter) (script : CScript) : Prop := ∃ data, Pushes script data ∧ Holds hashFunction s data

/-- The filter contains the transaction's id, an element of one of its scripts or an outpoint it spends. -/
def Mentions (s : CBloomFilter) (tx : CTransaction) : Prop :=
  Holds hashFunction s (writeUint256 tx.hash) ∨ (∃ txout ∈ tx.vout, MatchesScript hashFunction s txout.scriptPubKey) ∨
    ∃ txin ∈ tx.vin, Holds hashFunction s (writeOutPoint txin.prevout) ∨ MatchesScript hashFunction s txin.scriptSig

/-- Output `i` is matched when it is examined, after the outputs before it. -/
def Matched (s : CBloomFilter) (tx : CTransaction) (i : Nat) (txout : CTxOut) : Prop :=
  tx.vout[i]? = some txout ∧ ∃ st, examineOutputs hashFunction s tx (tx.vout.zipIdx.take i) = .ok st ∧
    MatchesScript hashFunction st.filter txout.scriptPubKey

/-- A transaction of the run, and the filter before and after it. -/
def At (loaded : CBloomFilter) (actions before : List Action) (tx : CTransaction) (s : CBloomFilter) (st : Examined) : Prop :=
  before ++ [.transaction tx] <+: actions ∧ runActions hashFunction loaded before = .ok s ∧ isRelevantAndUpdate hashFunction s tx = .ok st

/-- Nothing is missed, and only what the flag says is added. -/
structure Faithful (loaded : CBloomFilter) (actions : List Action) : Prop where
  finishes : ∃ last, runActions hashFunction loaded actions = .ok last
  keepsInserted : ∀ before vData later s, before ++ .insert vData :: later <+: actions →
    runActions hashFunction loaded (before ++ .insert vData :: later) = .ok s → Holds hashFunction s vData
  keepsOutpoints : ∀ before tx later s st s', At hashFunction loaded actions before tx s st → before ++ .transaction tx :: later <+: actions →
    runActions hashFunction loaded (before ++ .transaction tx :: later) = .ok s' →
      ∀ outpoint ∈ st.inserted, Holds hashFunction s' (writeOutPoint outpoint)
  relevant : ∀ before tx s st, At hashFunction loaded actions before tx s st → Mentions hashFunction s tx → st.fFound = true
  followed : ∀ before tx later spender s st s' st', At hashFunction loaded actions before tx s st →
    At hashFunction loaded actions (before ++ .transaction tx :: later) spender s' st' → ∀ i txout, Matched hashFunction s tx i txout →
      loaded.nFlags &&& BLOOM_UPDATE_MASK = BLOOM_UPDATE_ALL ∨
        loaded.nFlags &&& BLOOM_UPDATE_MASK = BLOOM_UPDATE_P2PUBKEY_ONLY ∧ IsBare txout.scriptPubKey →
      (⟨tx.hash, i⟩ : COutPoint) ∈ spender.vin.map CTxIn.prevout → st'.fFound = true
  only : loaded.nFlags &&& BLOOM_UPDATE_MASK = BLOOM_UPDATE_P2PUBKEY_ONLY → ∀ before tx s st, At hashFunction loaded actions before tx s st →
    ∀ outpoint ∈ st.inserted, ∃ i txout, outpoint = ⟨tx.hash, i⟩ ∧ tx.vout[i]? = some txout ∧ IsBare txout.scriptPubKey

/-- A data output for which `Solver` gives the type of a key, or reads outside of the script. -/
def Misjudged (script : CScript) : Prop := isReturnPush script = true ∧ ∀ solved, solver script = some solved → solved.typeRet = .pubKey

/-- Under `BLOOM_UPDATE_P2PUBKEY_ONLY` no output that is matched is such data. -/
def Clean (loaded : CBloomFilter) (actions : List Action) : Prop :=
  loaded.nFlags &&& BLOOM_UPDATE_MASK = BLOOM_UPDATE_P2PUBKEY_ONLY → ∀ before tx s, before ++ [.transaction tx] <+: actions →
    runActions hashFunction loaded before = .ok s → s.isFull = false →
      ∀ i txout, Matched hashFunction s tx i txout → ¬Misjudged txout.scriptPubKey

end Model

section Spec

variable {hashFunction : BitVec 32 → List UInt8 → BitVec 32} {s s' : CBloomFilter}

theorem lift_ok {α : Type} {run : Except Fault α} {result : α} : lift run = .ok result ↔ run = .ok result := by
  cases run with
  | error fault => simp [lift, Except.mapError]
  | ok value => simp [lift, Except.mapError]

theorem pushes_iff (pc : CScript) (data : List UInt8) : Pushes pc data ↔
    ∃ opcode element next, getOp pc = some (opcode, element, next) ∧ (data ≠ [] ∧ element = data ∨ Pushes next data) := by
  constructor
  · rintro ⟨nonempty, ops, opcode, rest, reads⟩
    cases ops with
    | nil =>
      obtain ⟨next, read, _⟩ := reads
      exact ⟨opcode, data, next, read, .inl ⟨nonempty, rfl⟩⟩
    | cons op ops =>
      obtain ⟨next, read, reads⟩ := reads
      exact ⟨op.1, op.2, next, read, .inr ⟨nonempty, ops, opcode, rest, reads⟩⟩
  · rintro ⟨opcode, element, next, read, ⟨nonempty, rfl⟩ | ⟨nonempty, ops, last, rest, reads⟩⟩
    · exact ⟨nonempty, [], opcode, next, next, read, rfl⟩
    · exact ⟨nonempty, (opcode, element) :: ops, last, rest, next, read, reads⟩

theorem containsElement_ok (usable : Usable s) (turns : Nat) : ∀ pc : CScript, pc.length ≤ turns →
    ∃ found, containsElement hashFunction s turns pc = .ok found ∧ (found = true ↔ MatchesScript hashFunction s pc) := by
  induction turns with
  | zero =>
    intro pc short
    have none : pc = [] := length_eq_zero_iff.mp (Nat.le_zero.mp short)
    subst none
    refine ⟨false, rfl, Iff.intro nofun ?_⟩
    rintro ⟨data, pushes, _⟩
    obtain ⟨_, _, _, read, _⟩ := (pushes_iff [] data).mp pushes
    cases read
  | succ turns ih =>
    intro pc short
    rw [containsElement]
    cases read : getOp pc with
    | none =>
      refine ⟨false, rfl, Iff.intro nofun ?_⟩
      rintro ⟨data, pushes, _⟩
      obtain ⟨_, _, _, read', _⟩ := (pushes_iff pc data).mp pushes
      exact (nomatch read.symm.trans read')
    | some op =>
      obtain ⟨opcode, element, next⟩ := op
      have shorter : next.length ≤ turns := Nat.le_of_lt_succ (Nat.lt_of_lt_of_le (length_getOp read) short)
      obtain ⟨later, result, meaning⟩ := ih next shorter
      have split : MatchesScript hashFunction s pc ↔ element ≠ [] ∧ Holds hashFunction s element ∨ MatchesScript hashFunction s next := by
        unfold MatchesScript
        simp only [pushes_iff pc, read, some.injEq, Prod.mk.injEq]
        constructor
        · rintro ⟨data, ⟨_, _, _, ⟨rfl, rfl, rfl⟩, ⟨nonempty, rfl⟩ | pushes⟩, held⟩
          · exact .inl ⟨nonempty, held⟩
          · exact .inr ⟨data, pushes, held⟩
        · rintro (⟨nonempty, held⟩ | ⟨data, pushes, held⟩)
          · exact ⟨element, ⟨opcode, element, next, ⟨rfl, rfl, rfl⟩, .inl ⟨nonempty, rfl⟩⟩, held⟩
          · exact ⟨data, ⟨opcode, element, next, ⟨rfl, rfl, rfl⟩, .inr pushes⟩, held⟩
      rw [split]
      by_cases nonempty : element ≠ []
      · obtain ⟨found, answer, _⟩ := @contains_ok hashFunction s usable element
        cases found with
        | true =>
          refine ⟨true, ?_, iff_of_true rfl (.inl ⟨nonempty, answer⟩)⟩
          simp only [if_pos nonempty, answer]
          rfl
        | false =>
          have absent : ¬Holds hashFunction s element := fun held => nomatch (ok.inj (held.symm.trans answer))
          refine ⟨later, ?_, ?_⟩
          · simp only [if_pos nonempty, answer]
            exact result
          · rw [meaning, or_iff_right fun both => absent both.2]
      · refine ⟨later, ?_, ?_⟩
        · simp only [if_neg nonempty]
          exact result
        · rw [meaning, or_iff_right fun both => nonempty both.1]

theorem Grown.matches (grown : Grown hashFunction s s') (usable : Usable s) {script : CScript} (before : MatchesScript hashFunction s script) :
    MatchesScript hashFunction s' script := by
  obtain ⟨data, pushes, held⟩ := before
  exact ⟨data, pushes, grown.holds data usable held⟩

/-- The flag of the filter asks for the outpoint of a matched output to be inserted. -/
def Chosen (nFlags : UInt8) (script : CScript) : Prop :=
  nFlags &&& BLOOM_UPDATE_MASK = BLOOM_UPDATE_ALL ∨ nFlags &&& BLOOM_UPDATE_MASK = BLOOM_UPDATE_P2PUBKEY_ONLY ∧
    ∃ solved, solver script = some solved ∧ solved.success = true ∧ isKeyType solved.typeRet = true

/-- A matched output of which `Solver` reads outside of the script. -/
def Stray (hashFunction : BitVec 32 → List UInt8 → BitVec 32) (st : Examined) (output : CTxOut × Nat) : Prop :=
  MatchesScript hashFunction st.filter output.1.scriptPubKey ∧
    st.filter.nFlags &&& BLOOM_UPDATE_MASK = BLOOM_UPDATE_P2PUBKEY_ONLY ∧ solver output.1.scriptPubKey = none

structure Turn (hashFunction : BitVec 32 → List UInt8 → BitVec 32) (hash : Uint256) (output : CTxOut × Nat) (st st' : Examined) : Prop where
  grown : Grown hashFunction st.filter st'.filter
  found : st'.fFound = true ↔ st.fFound = true ∨ MatchesScript hashFunction st.filter output.1.scriptPubKey
  inserted : (MatchesScript hashFunction st.filter output.1.scriptPubKey ∧ Chosen st.filter.nFlags output.1.scriptPubKey) ∧
      st'.inserted = st.inserted ++ [⟨hash, output.2⟩] ∧ Holds hashFunction st'.filter (writeOutPoint ⟨hash, output.2⟩) ∨
    ¬(MatchesScript hashFunction st.filter output.1.scriptPubKey ∧ Chosen st.filter.nFlags output.1.scriptPubKey) ∧
      st'.inserted = st.inserted
  idle : ¬MatchesScript hashFunction st.filter output.1.scriptPubKey → st' = st
  judged : ¬Stray hashFunction st output

variable {st : Examined} {output : CTxOut × Nat}

theorem Chosen.judged (chosen : Chosen st.filter.nFlags output.1.scriptPubKey) : ¬Stray hashFunction st output := by
  rintro ⟨_, only, none⟩
  rcases chosen with all | ⟨_, solved, found, _⟩
  · cases all.symm.trans only
  · exact (nomatch none.symm.trans found)

variable {hash : Uint256}

theorem insertOutPoint_turn (usable : Usable st.filter) (found : MatchesScript hashFunction st.filter output.1.scriptPubKey)
    (chosen : Chosen st.filter.nFlags output.1.scriptPubKey) :
    ∃ st', insertOutPoint hashFunction st ⟨hash, output.2⟩ = .ok st' ∧ Turn hashFunction hash output st st' := by
  obtain ⟨filter, result, grown, holds, _⟩ := @insert_ok hashFunction st.filter usable (writeOutPoint ⟨hash, output.2⟩)
  refine ⟨⟨filter, true, st.inserted ++ [⟨hash, output.2⟩]⟩, ?_, grown, iff_of_true rfl (.inr found), .inl ⟨⟨found, chosen⟩, rfl, holds⟩,
    fun absent => absurd found absent, chosen.judged⟩
  rw [insertOutPoint, result]
  rfl

theorem examineOutput_turn (usable : Usable st.filter) (hash : Uint256) (output : CTxOut × Nat) :
    Stray hashFunction st output ∧ examineOutput hashFunction hash st output = .error .solver ∨
      ∃ st', examineOutput hashFunction hash st output = .ok st' ∧ Turn hashFunction hash output st st' := by
  obtain ⟨found, result, meaning⟩ := @containsElement_ok hashFunction st.filter usable output.1.scriptPubKey.length output.1.scriptPubKey le_rfl
  rw [examineOutput, result]
  cases found with
  | false =>
    have absent : ¬MatchesScript hashFunction st.filter output.1.scriptPubKey := fun found => nomatch meaning.mpr found
    exact .inr ⟨st, rfl, refl _, by rw [or_iff_left absent], .inr ⟨fun both => absent both.1, rfl⟩, fun _ => rfl,
      fun stray => absent stray.1⟩
  | true =>
    have found := meaning.mp rfl
    have plain (notChosen : ¬Chosen st.filter.nFlags output.1.scriptPubKey) (judged : ¬Stray hashFunction st output) :
        Turn hashFunction hash output st { st with fFound := true } :=
      ⟨refl _, iff_of_true rfl (.inr found), .inr ⟨fun both => notChosen both.2, rfl⟩, fun absent => absurd found absent, judged⟩
    change Stray hashFunction st output ∧ ite _ _ _ = _ ∨ ∃ st', ite _ _ _ = _ ∧ _
    by_cases all : st.filter.nFlags &&& BLOOM_UPDATE_MASK = BLOOM_UPDATE_ALL
    · right
      rw [if_pos all]
      exact insertOutPoint_turn usable found (.inl all)
    · rw [if_neg all]
      by_cases only : st.filter.nFlags &&& BLOOM_UPDATE_MASK = BLOOM_UPDATE_P2PUBKEY_ONLY
      · rw [if_pos only]
        cases solved : solver output.1.scriptPubKey with
        | none => exact .inl ⟨⟨found, only, solved⟩, rfl⟩
        | some answer =>
          right
          by_cases key : (answer.success && isKeyType answer.typeRet) = true
          · simp only [if_pos key]
            exact insertOutPoint_turn usable found (.inr ⟨only, answer, solved, and_eq_true_iff.mp key⟩)
          · simp only [if_neg key]
            refine ⟨_, rfl, plain ?_ fun stray => nomatch solved.symm.trans stray.2.2⟩
            rintro (all' | ⟨_, answer', solved', good⟩)
            · exact all all'
            · rw [some.inj (solved.symm.trans solved')] at key
              exact key (and_eq_true_iff.mpr good)
      · right
        rw [if_neg only]
        exact ⟨_, rfl, plain (fun chosen => chosen.elim all fun both => only both.1) fun stray => only stray.2.1⟩

structure Loop (hashFunction : BitVec 32 → List UInt8 → BitVec 32) (hash : Uint256) (outputs : List (CTxOut × Nat)) (st st' : Examined) :
    Prop where
  grown : Grown hashFunction st.filter st'.filter
  found : st.fFound = true ∨ (∃ output ∈ outputs, MatchesScript hashFunction st.filter output.1.scriptPubKey) → st'.fFound = true
  held : (∀ outpoint ∈ st.inserted, Holds hashFunction st.filter (writeOutPoint outpoint)) →
    ∀ outpoint ∈ st'.inserted, Holds hashFunction st'.filter (writeOutPoint outpoint)
  kept : st.inserted ⊆ st'.inserted
  picked : ∀ front output back middle, outputs = front ++ output :: back → front.foldlM (examineOutput hashFunction hash) st = .ok middle →
    MatchesScript hashFunction middle.filter output.1.scriptPubKey → Chosen middle.filter.nFlags output.1.scriptPubKey →
      ⟨hash, output.2⟩ ∈ st'.inserted
  picks : ∀ outpoint ∈ st'.inserted, outpoint ∈ st.inserted ∨ ∃ front output back middle, outputs = front ++ output :: back ∧
    front.foldlM (examineOutput hashFunction hash) st = .ok middle ∧ MatchesScript hashFunction middle.filter output.1.scriptPubKey ∧
      Chosen middle.filter.nFlags output.1.scriptPubKey ∧ outpoint = ⟨hash, output.2⟩
  judged : ∀ front output back middle, outputs = front ++ output :: back →
    front.foldlM (examineOutput hashFunction hash) st = .ok middle → ¬Stray hashFunction middle output

theorem Turn.held {st' : Examined} (turn : Turn hashFunction hash output st st') (usable : Usable st.filter)
    (before : ∀ outpoint ∈ st.inserted, Holds hashFunction st.filter (writeOutPoint outpoint)) :
    ∀ outpoint ∈ st'.inserted, Holds hashFunction st'.filter (writeOutPoint outpoint) := by
  intro outpoint member
  rcases turn.inserted with ⟨_, grew, new⟩ | ⟨_, same⟩
  · rw [grew, mem_append, mem_singleton] at member
    rcases member with old | rfl
    · exact turn.grown.holds _ usable (before outpoint old)
    · exact new
  · exact turn.grown.holds _ usable (before outpoint (same ▸ member))

theorem Turn.kept {st' : Examined} (turn : Turn hashFunction hash output st st') : st.inserted ⊆ st'.inserted := by
  rcases turn.inserted with ⟨_, grew, _⟩ | ⟨_, same⟩
  · rw [grew]
    exact subset_append_left _ _
  · rw [same]
    exact Subset.refl _

theorem outputs_loop (hash : Uint256) (outputs : List (CTxOut × Nat)) : ∀ st st' : Examined, Usable st.filter →
    outputs.foldlM (examineOutput hashFunction hash) st = .ok st' → Loop hashFunction hash outputs st st' := by
  induction outputs with
  | nil =>
    intro st st' usable run
    rw [foldlM_nil, pure_ok] at run
    subst run
    exact ⟨refl _, fun found => found.resolve_right (by simp), id, Subset.refl _, by simp, fun _ => .inl, by simp⟩
  | cons output rest ih =>
    intro st st' usable run
    obtain ⟨middle, step, run⟩ := foldlM_cons_ok.mp run
    have turn : Turn hashFunction hash output st middle := by
      rcases @examineOutput_turn hashFunction st usable hash output with ⟨_, failed⟩ | ⟨other, result, turn⟩
      · exact (nomatch failed.symm.trans step)
      · exact ok.inj (result.symm.trans step) ▸ turn
    have usable' := turn.grown.usable usable
    have loop := ih middle st' usable' run
    constructor
    · exact turn.grown.trans loop.grown
    · rintro (before | ⟨other, member, found⟩)
      · exact loop.found (.inl (turn.found.mpr (.inl before)))
      · rcases mem_cons.mp member with rfl | later
        · exact loop.found (.inl (turn.found.mpr (.inr found)))
        · exact loop.found (.inr ⟨other, later, turn.grown.matches usable found⟩)
    · exact fun before => loop.held (turn.held usable before)
    · exact Subset.trans turn.kept loop.kept
    · intro front other back last shape front_run found chosen
      cases front with
      | nil =>
        rw [foldlM_nil, pure_ok] at front_run
        subst front_run
        obtain ⟨rfl, rfl⟩ := cons.inj shape
        rcases turn.inserted with ⟨_, grew, _⟩ | ⟨skipped, _⟩
        · apply loop.kept
          rw [grew]
          exact mem_append_right _ (mem_singleton_self _)
        · exact absurd ⟨found, chosen⟩ skipped
      | cons first front =>
        obtain ⟨rfl, others⟩ := cons.inj shape
        obtain ⟨after, step', front_run⟩ := foldlM_cons_ok.mp front_run
        obtain rfl := ok.inj (step.symm.trans step')
        exact loop.picked front other back last others front_run found chosen
    · intro outpoint member
      rcases loop.picks outpoint member with early | ⟨front, other, back, last, shape, front_run, found, chosen, same⟩
      · rcases turn.inserted with ⟨both, grew, _⟩ | ⟨_, unchanged⟩
        · rw [grew, mem_append, mem_singleton] at early
          rcases early with old | rfl
          · exact .inl old
          · exact .inr ⟨[], output, rest, st, rfl, rfl, both.1, both.2, rfl⟩
        · exact .inl (unchanged ▸ early)
      · exact .inr ⟨output :: front, other, back, last, congrArg _ shape, foldlM_cons_ok.mpr ⟨middle, step, front_run⟩, found, chosen, same⟩
    · intro front other back last shape front_run
      cases front with
      | nil =>
        rw [foldlM_nil, pure_ok] at front_run
        subst front_run
        obtain ⟨rfl, rfl⟩ := cons.inj shape
        exact turn.judged
      | cons first front =>
        obtain ⟨rfl, others⟩ := cons.inj shape
        obtain ⟨after, step', front_run⟩ := foldlM_cons_ok.mp front_run
        obtain rfl := ok.inj (step.symm.trans step')
        exact loop.judged front other back last others front_run

theorem outputs_error {outputs : List (CTxOut × Nat)} {stop : Stop} (usable : Usable st.filter)
    (run : outputs.foldlM (examineOutput hashFunction hash) st = .error stop) : stop = .solver ∧
      ∃ front output back middle, outputs = front ++ output :: back ∧ front.foldlM (examineOutput hashFunction hash) st = .ok middle ∧
        Stray hashFunction middle output := by
  obtain ⟨front, output, back, middle, shape, front_run, failed⟩ := foldlM_error run
  have loop := outputs_loop hash front st middle usable front_run
  rcases @examineOutput_turn hashFunction middle (loop.grown.usable usable) hash output with ⟨stray, failed'⟩ | ⟨_, result, _⟩
  · exact ⟨error.inj (failed.symm.trans failed'), front, output, back, middle, shape, front_run, stray⟩
  · exact (nomatch failed.symm.trans result)

theorem outputs_empty {outputs : List (CTxOut × Nat)} (usable : Usable st.filter)
    (nothing : ∀ script, ¬MatchesScript hashFunction st.filter script) :
    outputs.foldlM (examineOutput hashFunction hash) st = .ok st := by
  induction outputs with
  | nil => rfl
  | cons output rest ih =>
    have step : examineOutput hashFunction hash st output = .ok st := by
      rcases @examineOutput_turn hashFunction st usable hash output with ⟨stray, _⟩ | ⟨st', result, turn⟩
      · exact absurd stray.1 (nothing _)
      · rw [result, turn.idle (nothing _)]
    exact foldlM_cons_ok.mpr ⟨st, step, ih⟩

theorem examineInputs_ok (usable : Usable s) (vin : List CTxIn) : ∃ found, examineInputs hashFunction s vin = .ok found ∧
    (found = true ↔ ∃ txin ∈ vin, Holds hashFunction s (writeOutPoint txin.prevout) ∨ MatchesScript hashFunction s txin.scriptSig) := by
  induction vin with
  | nil => exact ⟨false, rfl, by simp⟩
  | cons txin rest ih =>
    obtain ⟨later, result, meaning⟩ := ih
    obtain ⟨spends, answer, _⟩ := @contains_ok hashFunction s usable (writeOutPoint txin.prevout)
    obtain ⟨found, scanned, means⟩ := @containsElement_ok hashFunction s usable txin.scriptSig.length txin.scriptSig le_rfl
    have spends_iff : spends = true ↔ Holds hashFunction s (writeOutPoint txin.prevout) := by
      rw [Holds, answer]
      exact ⟨congrArg ok, ok.inj⟩
    simp only [exists_mem_cons_iff, ← spends_iff, ← means, ← meaning]
    refine ⟨spends || found || later, ?_, by simp only [or_eq_true]⟩
    rw [examineInputs, answer]
    cases spends with
    | true => rfl
    | false =>
      change (do
        let found ← containsElement hashFunction s txin.scriptSig.length txin.scriptSig
        if found then return true else examineInputs hashFunction s rest) = _
      rw [scanned]
      cases found with
      | true => rfl
      | false => exact result

theorem zipIdx_split {α : Type} {items : List α} {front back : List (α × Nat)} {item : α × Nat} (shape : items.zipIdx = front ++ item :: back) :
    front = items.zipIdx.take item.2 ∧ items[item.2]? = some item.1 := by
  have here : items.zipIdx[front.length]? = some item := by
    rw [shape, getElem?_append_right (Nat.le_refl _), Nat.sub_self]
    rfl
  rw [getElem?_zipIdx] at here
  obtain ⟨value, found, rfl⟩ := map_eq_some_iff.mp here
  rw [Nat.zero_add]
  refine ⟨?_, found⟩
  rw [shape, take_left]

theorem zipIdx_here {α : Type} {items : List α} {i : Nat} {item : α} (here : items[i]? = some item) :
    items.zipIdx = items.zipIdx.take i ++ (item, i) :: items.zipIdx.drop (i + 1) := by
  have found : items.zipIdx[i]? = some (item, i) := by
    rw [List.getElem?_zipIdx, here, Nat.zero_add]
    rfl
  obtain ⟨inside, same⟩ := List.getElem?_eq_some_iff.mp found
  rw [← same, getElem_cons_drop, take_append_drop]

/-- What `IsRelevantAndUpdate` gives. -/
structure Relevance (hashFunction : BitVec 32 → List UInt8 → BitVec 32) (s : CBloomFilter) (tx : CTransaction) (st : Examined) : Prop where
  grown : Grown hashFunction s st.filter
  relevant : Mentions hashFunction s tx → st.fFound = true
  held : ∀ outpoint ∈ st.inserted, Holds hashFunction st.filter (writeOutPoint outpoint)
  picked : s.isFull = false → ∀ i txout, Matched hashFunction s tx i txout → Chosen s.nFlags txout.scriptPubKey →
    ⟨tx.hash, i⟩ ∈ st.inserted
  picks : ∀ outpoint ∈ st.inserted, s.isFull = false ∧ ∃ i txout, outpoint = ⟨tx.hash, i⟩ ∧ Matched hashFunction s tx i txout ∧
    Chosen s.nFlags txout.scriptPubKey
  judged : s.isFull = false → s.nFlags &&& BLOOM_UPDATE_MASK = BLOOM_UPDATE_P2PUBKEY_ONLY →
    ∀ i txout, Matched hashFunction s tx i txout → solver txout.scriptPubKey ≠ none

theorem examineOutputs_ok (usable : Usable s) (tx : CTransaction) : ∃ known, (known = true ↔ Holds hashFunction s (writeUint256 tx.hash)) ∧
    ∀ outputs, examineOutputs hashFunction s tx outputs = outputs.foldlM (examineOutput hashFunction tx.hash) ⟨s, known, []⟩ := by
  obtain ⟨known, result, _⟩ := @contains_ok hashFunction s usable (writeUint256 tx.hash)
  refine ⟨known, ?_, fun outputs => ?_⟩
  · rw [Holds, result]
    exact ⟨congrArg ok, ok.inj⟩
  · rw [examineOutputs, result]
    rfl

theorem relevance_full (full : s.isFull = true) (tx : CTransaction) : Relevance hashFunction s tx ⟨s, true, []⟩ := by
  constructor
  · exact refl s
  · exact fun _ => rfl
  · exact forall_mem_nil _
  · exact fun notFull => nomatch full.symm.trans notFull
  · exact forall_mem_nil _
  · exact fun notFull => nomatch full.symm.trans notFull

theorem not_holds_empty (usable : Usable s) (notFull : s.isFull = false) (empty : s.isEmpty = true) (vKey : List UInt8) :
    ¬Holds hashFunction s vKey := by
  rw [holds_iff usable, notFull, empty]
  simp

theorem relevance_empty (usable : Usable s) (notFull : s.isFull = false) (empty : s.isEmpty = true) (tx : CTransaction) :
    Relevance hashFunction s tx ⟨s, false, []⟩ := by
  have nothing : ∀ script, ¬MatchesScript hashFunction s script := fun script found =>
    not_holds_empty usable notFull empty _ found.choose_spec.2
  have unmatched : ∀ i txout, ¬Matched hashFunction s tx i txout := by
    rintro i txout ⟨_, st, run, found⟩
    obtain ⟨known, _, same⟩ := @examineOutputs_ok hashFunction s usable tx
    rw [same, outputs_empty usable nothing] at run
    obtain rfl := ok.inj run
    exact absurd found (nothing _)
  constructor
  · exact refl s
  · rintro (id | ⟨txout, _, found⟩ | ⟨txin, _, spent | found⟩)
    · exact absurd id (not_holds_empty usable notFull empty _)
    · exact absurd found (nothing _)
    · exact absurd spent (not_holds_empty usable notFull empty _)
    · exact absurd found (nothing _)
  · exact forall_mem_nil _
  · exact fun _ i txout found => absurd found (unmatched i txout)
  · exact forall_mem_nil _
  · exact fun _ _ i txout found => absurd found (unmatched i txout)

theorem relevance_outputs (usable : Usable s) (notFull : s.isFull = false) {tx : CTransaction} {fFound : Bool}
    (run : examineOutputs hashFunction s tx tx.vout.zipIdx = .ok st) (result : st.fFound = true → fFound = true)
    (inputs : (∃ txin ∈ tx.vin, Holds hashFunction st.filter (writeOutPoint txin.prevout) ∨
      MatchesScript hashFunction st.filter txin.scriptSig) → fFound = true) :
    Relevance hashFunction s tx ⟨st.filter, fFound, st.inserted⟩ := by
  obtain ⟨known, id, same⟩ := @examineOutputs_ok hashFunction s usable tx
  rw [same] at run
  have loop := outputs_loop tx.hash tx.vout.zipIdx ⟨s, known, []⟩ st usable run
  have flags (i : Nat) (middle : Examined) (front_run : (tx.vout.zipIdx.take i).foldlM (examineOutput hashFunction tx.hash) ⟨s, known, []⟩ = .ok middle) :
      middle.filter.nFlags = s.nFlags := (outputs_loop tx.hash _ ⟨s, known, []⟩ middle usable front_run).grown.same.1
  constructor
  · exact loop.grown
  · rintro (known' | ⟨txout, member, found⟩ | ⟨txin, member, mentions⟩)
    · exact result (loop.found (.inl (id.mpr known')))
    · obtain ⟨i, inside, here⟩ := getElem_of_mem member
      refine result (loop.found (.inr ⟨(txout, i), ?_, found⟩))
      rw [zipIdx_here (List.getElem?_eq_some_iff.mpr ⟨inside, here⟩)]
      exact mem_append_right _ mem_cons_self
    · refine inputs ⟨txin, member, mentions.imp ?_ ?_⟩
      · exact loop.grown.holds _ usable
      · exact loop.grown.matches usable
  · exact loop.held (forall_mem_nil _)
  · rintro _ i txout ⟨here, middle, front_run, found⟩ chosen
    rw [same] at front_run
    rw [← flags i middle front_run] at chosen
    exact loop.picked _ (txout, i) _ middle (zipIdx_here here) front_run found chosen
  · intro outpoint member
    rcases loop.picks outpoint member with none | ⟨front, output, back, middle, shape, front_run, found, chosen, rfl⟩
    · cases none
    · obtain ⟨rfl, here⟩ := zipIdx_split shape
      rw [flags output.2 middle front_run] at chosen
      exact ⟨notFull, output.2, output.1, rfl, ⟨here, middle, (same _).trans front_run, found⟩, chosen⟩
  · rintro _ only i txout ⟨here, middle, front_run, found⟩ none
    rw [same] at front_run
    rw [← flags i middle front_run] at only
    exact loop.judged _ (txout, i) _ middle (zipIdx_here here) front_run ⟨found, only, none⟩

/-- A matched output of which `Solver` reads outside of the script, while the flag asks for its type. -/
def StrayOutput (hashFunction : BitVec 32 → List UInt8 → BitVec 32) (s : CBloomFilter) (tx : CTransaction) : Prop :=
  s.isFull = false ∧ s.nFlags &&& BLOOM_UPDATE_MASK = BLOOM_UPDATE_P2PUBKEY_ONLY ∧
    ∃ i txout, Matched hashFunction s tx i txout ∧ solver txout.scriptPubKey = none

theorem isRelevantAndUpdate_spec (usable : Usable s) (tx : CTransaction) :
    StrayOutput hashFunction s tx ∧ isRelevantAndUpdate hashFunction s tx = .error .solver ∨
      ∃ st, isRelevantAndUpdate hashFunction s tx = .ok st ∧ Relevance hashFunction s tx st := by
  rcases eq_false_or_eq_true s.isFull with full | notFull
  · right
    refine ⟨_, ?_, relevance_full full tx⟩
    rw [isRelevantAndUpdate, full]
    rfl
  rcases eq_false_or_eq_true s.isEmpty with empty | notEmpty
  · right
    refine ⟨_, ?_, relevance_empty usable notFull empty tx⟩
    rw [isRelevantAndUpdate, notFull, empty]
    rfl
  rw [isRelevantAndUpdate, notFull, notEmpty]
  cases run : examineOutputs hashFunction s tx tx.vout.zipIdx with
  | error stop =>
    left
    obtain ⟨known, _, same⟩ := @examineOutputs_ok hashFunction s usable tx
    rw [same] at run
    obtain ⟨rfl, front, output, back, middle, shape, front_run, found, only, stray⟩ := outputs_error usable run
    have loop := outputs_loop tx.hash front ⟨s, known, []⟩ middle usable front_run
    obtain ⟨rfl, here⟩ := zipIdx_split shape
    refine ⟨⟨notFull, ?_, output.2, output.1, ⟨here, middle, (same _).trans front_run, found⟩, stray⟩, rfl⟩
    rw [← loop.grown.same.1]
    exact only
  | ok st =>
    right
    rcases eq_false_or_eq_true st.fFound with found | notFound
    · refine ⟨st, ?_, relevance_outputs usable notFull run (fun _ => found) fun _ => found⟩
      change (if st.fFound then _ else _) = _
      rw [found]
      rfl
    · obtain ⟨known, _, same⟩ := @examineOutputs_ok hashFunction s usable tx
      have usable' := (outputs_loop tx.hash _ ⟨s, known, []⟩ st usable ((same _).symm.trans run)).grown.usable usable
      obtain ⟨found, result, meaning⟩ := @examineInputs_ok hashFunction st.filter usable' tx.vin
      refine ⟨⟨st.filter, found, st.inserted⟩, ?_, relevance_outputs usable notFull run (fun found => nomatch notFound.symm.trans found) meaning.mpr⟩
      change (if st.fFound then _ else _) = _
      rw [notFound, result]
      rfl

theorem action_spec (usable : Usable s) (action : Action) :
    (∃ tx, action = .transaction tx ∧ StrayOutput hashFunction s tx ∧ action.apply hashFunction s = .error .solver) ∨
      ∃ s', action.apply hashFunction s = .ok s' ∧ Grown hashFunction s s' := by
  cases action with
  | insert vData =>
    obtain ⟨s', result, grown, _⟩ := @insert_ok hashFunction s usable vData
    exact .inr ⟨s', lift_ok.mpr result, grown⟩
  | transaction tx =>
    rcases @isRelevantAndUpdate_spec hashFunction s usable tx with ⟨stray, failed⟩ | ⟨st, result, relevance⟩
    · refine .inl ⟨tx, rfl, stray, ?_⟩
      rw [Action.apply, failed]
      rfl
    · refine .inr ⟨st.filter, ?_, relevance.grown⟩
      rw [Action.apply, result]
      rfl

theorem run_grown (usable : Usable s) {actions : List Action} (run : runActions hashFunction s actions = .ok s') : Grown hashFunction s s' := by
  induction actions generalizing s with
  | nil =>
    obtain rfl := ok.inj run
    exact refl s
  | cons action rest ih =>
    obtain ⟨middle, step, run⟩ := foldlM_cons_ok.mp run
    rcases @action_spec hashFunction s usable action with ⟨_, _, _, failed⟩ | ⟨other, result, grown⟩
    · exact (nomatch failed.symm.trans step)
    · obtain rfl := ok.inj (result.symm.trans step)
      exact grown.trans (ih (grown.usable usable) run)

theorem run_append {front back : List Action} : runActions hashFunction s (front ++ back) = .ok s' ↔
    ∃ middle, runActions hashFunction s front = .ok middle ∧ runActions hashFunction middle back = .ok s' := foldlM_append_ok

theorem run_insert {vData : List UInt8} {later : List Action} (usable : Usable s)
    (run : runActions hashFunction s (.insert vData :: later) = .ok s') : Holds hashFunction s' vData := by
  obtain ⟨middle, step, run⟩ := foldlM_cons_ok.mp run
  obtain ⟨other, result, grown, held, _⟩ := @insert_ok hashFunction s usable vData
  obtain rfl := ok.inj ((lift_ok.mpr result).symm.trans step)
  have usable' := grown.usable usable
  exact (run_grown usable' run).holds vData usable' held

theorem run_transaction {tx : CTransaction} {later : List Action} (result : isRelevantAndUpdate hashFunction s tx = .ok st)
    (run : runActions hashFunction s (.transaction tx :: later) = .ok s') : runActions hashFunction st.filter later = .ok s' := by
  obtain ⟨middle, step, run⟩ := foldlM_cons_ok.mp run
  rw [Action.apply, result] at step
  obtain rfl := ok.inj step
  exact run

theorem run_error (usable : Usable s) {actions : List Action} {stop : Stop} (run : runActions hashFunction s actions = .error stop) :
    stop = .solver ∧ ∃ before tx middle, before ++ [.transaction tx] <+: actions ∧ runActions hashFunction s before = .ok middle ∧
      StrayOutput hashFunction middle tx := by
  obtain ⟨before, action, later, middle, rfl, done, failed⟩ := foldlM_error run
  rcases @action_spec hashFunction middle ((run_grown usable done).usable usable) action with ⟨tx, rfl, stray, failed'⟩ | ⟨_, result, _⟩
  · refine ⟨error.inj (failed.symm.trans failed'), before, tx, middle, ?_, done, stray⟩
    exact ⟨later, (append_cons before _ later).symm⟩
  · exact (nomatch failed.symm.trans result)

end Spec

theorem solver_none {script : CScript} (stray : solver script = none) : isReturnPush script = true := by
  by_contra notData
  rw [solver, if_neg notData] at stray
  split at stray
  · next p2sh =>
    have length : script.length = 23 := by
      simp only [CScript.isPayToScriptHash, and_eq_true, beq_iff_eq] at p2sh
      exact p2sh.1.1.1
    rw [map_eq_none_iff, ← not_isSome_iff_eq_none, Library.Bytes.range_isSome, length] at stray
    omega
  · have answered := scanTemplates_isSome script mTemplates (by decide)
    rw [stray] at answered
    exact false_ne_true answered

theorem solver_data {script : CScript} {solved : Solved} (data : isReturnPush script = true) (found : solver script = some solved) :
    solved.success = true ∧ (isKeyType solved.typeRet = true ↔ solved.typeRet = .pubKey) := by
  rw [solver, if_pos data] at found
  obtain ⟨long, _, found⟩ := bind_eq_some_iff.mp found
  split at found
  · obtain ⟨key?, parsed, rfl⟩ := map_eq_some_iff.mp found
    cases key? with
    | none => exact ⟨rfl, by decide⟩
    | some key =>
      obtain ⟨_, notMultisig, _⟩ := getLongToPubKey_type parsed
      refine ⟨rfl, ?_⟩
      simp only [elim_some, isKeyType, or_eq_true, beq_iff_eq, or_iff_left notMultisig]
  · obtain rfl := some.inj found
    exact ⟨rfl, by decide⟩

theorem chosen_iff {nFlags : UInt8} (only : nFlags &&& BLOOM_UPDATE_MASK = BLOOM_UPDATE_P2PUBKEY_ONLY) {script : CScript}
    (judged : solver script ≠ none) : Chosen nFlags script ↔ IsBare script ∨ Misjudged script := by
  obtain ⟨solved, found⟩ := ne_none_iff_exists'.mp judged
  constructor
  · rintro (all | ⟨_, answer, found', success, key⟩)
    · cases all.symm.trans only
    · rcases solver_keyType found' success key with bare | data
      · exact .inl bare
      · refine .inr ⟨data, fun other same => ?_⟩
        obtain rfl := some.inj (found'.symm.trans same)
        exact (solver_data data found').2.mp key
  · rintro (bare | ⟨data, key⟩)
    · exact .inr ⟨only, bare.solver⟩
    · exact .inr ⟨only, solved, found, (solver_data data found).1, (solver_data data found).2.mpr (key solved found)⟩

section Main

variable {hashFunction : BitVec 32 → List UInt8 → BitVec 32} {loaded : CBloomFilter} {actions : List Action}

theorem updateEmptyFull_usable (s : CBloomFilter) : Usable s.updateEmptyFull := by
  intro none
  rw [CBloomFilter.updateEmptyFull, show s.vData = [] from none]
  rfl

theorem At.relevance {before : List Action} {tx : CTransaction} {s : CBloomFilter} {st : Examined} (usable : Usable loaded)
    (there : At hashFunction loaded actions before tx s st) :
    Usable s ∧ Grown hashFunction loaded s ∧ Relevance hashFunction s tx st := by
  obtain ⟨_, run, result⟩ := there
  have grown := run_grown usable run
  refine ⟨grown.usable usable, grown, ?_⟩
  rcases isRelevantAndUpdate_spec (grown.usable usable) tx with ⟨_, failed⟩ | ⟨other, result', relevance⟩
  · exact (nomatch failed.symm.trans result)
  · exact ok.inj (result'.symm.trans result) ▸ relevance

theorem clean_of_faithful (usable : Usable loaded) (faithful : Faithful hashFunction loaded actions) : Clean hashFunction loaded actions := by
  rintro only before tx s ⟨later, shape⟩ run notFull i txout found misjudged
  obtain ⟨last, whole⟩ := faithful.finishes
  rw [← shape, append_assoc] at whole
  obtain ⟨s', run', rest⟩ := run_append.mp whole
  obtain rfl := ok.inj (run.symm.trans run')
  obtain ⟨middle, step, _⟩ := foldlM_cons_ok.mp rest
  obtain ⟨st, result, _⟩ := bind_ok.mp step
  have there : At hashFunction loaded actions before tx s st := ⟨⟨later, shape⟩, run, result⟩
  obtain ⟨_, grown, relevance⟩ := there.relevance usable
  have flags := grown.same.1.symm ▸ only
  have judged := relevance.judged notFull flags i txout found
  have member := relevance.picked notFull i txout found ((chosen_iff flags judged).mpr (.inr misjudged))
  obtain ⟨j, other, same, here, bare⟩ := faithful.only only before tx s st there _ member
  obtain rfl := congrArg COutPoint.n same
  obtain rfl := some.inj (found.1.symm.trans here)
  exact false_ne_true (bare.not_isReturnPush.symm.trans misjudged.1)

theorem faithful_of_clean (usable : Usable loaded) (clean : Clean hashFunction loaded actions) : Faithful hashFunction loaded actions := by
  constructor
  · cases run : runActions hashFunction loaded actions with
    | ok last => exact ⟨last, rfl⟩
    | error stop =>
      obtain ⟨_, before, tx, s, prefixed, done, notFull, only, i, txout, found, none⟩ := run_error usable run
      have flags := (run_grown usable done).same.1 ▸ only
      refine absurd ⟨solver_none none, ?_⟩ (clean flags before tx s prefixed done notFull i txout found)
      exact fun solved some => nomatch none.symm.trans some
  · intro before vData later s _ run
    obtain ⟨middle, done, run⟩ := run_append.mp run
    exact run_insert ((run_grown usable done).usable usable) run
  · intro before tx later s st s' there _ run outpoint member
    obtain ⟨usable', _, relevance⟩ := there.relevance usable
    obtain ⟨middle, done, run⟩ := run_append.mp run
    obtain rfl := ok.inj (there.2.1.symm.trans done)
    have usable'' := relevance.grown.usable usable'
    exact (run_grown usable'' (run_transaction there.2.2 run)).holds _ usable'' (relevance.held outpoint member)
  · exact fun before tx s st there mentions => (there.relevance usable).2.2.relevant mentions
  · intro before tx later spender s st s' st' there after i txout found asked spends
    obtain ⟨usable', grown, relevance⟩ := there.relevance usable
    obtain ⟨_, _, relevance'⟩ := after.relevance usable
    obtain ⟨middle, done, run⟩ := run_append.mp after.2.1
    obtain rfl := ok.inj (there.2.1.symm.trans done)
    have run := run_transaction there.2.2 run
    have usable'' := relevance.grown.usable usable'
    have later := run_grown usable'' run
    apply relevance'.relevant
    obtain ⟨txin, member, same⟩ := mem_map.mp spends
    refine .inr (.inr ⟨txin, member, .inl ?_⟩)
    rw [same]
    apply later.holds _ usable''
    rcases eq_false_or_eq_true s.isFull with full | notFull
    · exact (holds_iff usable'' _).mpr (.inl (relevance.grown.full.trans full))
    · apply relevance.held
      apply relevance.picked notFull i txout found
      rw [← grown.same.1] at asked
      rcases asked with all | ⟨only, bare⟩
      · exact .inl all
      · exact .inr ⟨only, bare.solver⟩
  · intro only before tx s st there outpoint member
    obtain ⟨_, grown, relevance⟩ := there.relevance usable
    obtain ⟨notFull, i, txout, same, found, chosen⟩ := relevance.picks outpoint member
    have flags := grown.same.1.symm ▸ only
    have judged := relevance.judged notFull flags i txout found
    refine ⟨i, txout, same, found.1, ?_⟩
    exact ((chosen_iff flags judged).mp chosen).resolve_right (clean only before tx s there.1 there.2.1 notFull i txout found)

end Main

/-- No run of a loaded filter hashes or accesses it out of range; a run is faithful just when no matched output is data that
`Solver` takes for a key, or reads past, under `BLOOM_UPDATE_P2PUBKEY_ONLY`. -/
theorem filtering_faithful_iff (hashFunction : BitVec 32 → List UInt8 → BitVec 32) (filter : CBloomFilter) (actions : List Action) :
    (∀ stop, runActions hashFunction filter.updateEmptyFull actions = .error stop → stop = .solver) ∧
      (Faithful hashFunction filter.updateEmptyFull actions ↔ Clean hashFunction filter.updateEmptyFull actions) := by
  have usable := updateEmptyFull_usable filter
  constructor
  · exact fun stop run => (run_error usable run).1
  · exact ⟨clean_of_faithful usable, faithful_of_clean usable⟩

def keyMessage : CScript := [OP_RETURN, 40] ++ longBytes ++ [1, OP_TO, 0xfe] ++ List.replicate 33 2

def paysKeyMessage : CTransaction := ⟨1, 1, [], [⟨0, keyMessage⟩], 0⟩

def keyMessageFilter : CBloomFilter := ⟨[0, 0, 0, 0, 0, 0, 0, 1], false, false, 1, 0, BLOOM_UPDATE_P2PUBKEY_ONLY⟩

/-- The outpoint of the data output is inserted. -/
theorem keyMessage_inserted : isRelevantAndUpdate murmurHash3 keyMessageFilter.updateEmptyFull paysKeyMessage =
      .ok ⟨{ keyMessageFilter with vData := [0, 0, 0, 16, 0, 0, 0, 1] }, true, [⟨1, 0⟩]⟩ ∧
    ¬Faithful murmurHash3 keyMessageFilter.updateEmptyFull [.transaction paysKeyMessage] := by
  have result : isRelevantAndUpdate murmurHash3 keyMessageFilter.updateEmptyFull paysKeyMessage =
      .ok ⟨{ keyMessageFilter with vData := [0, 0, 0, 16, 0, 0, 0, 1] }, true, [⟨1, 0⟩]⟩ := by decide +kernel
  refine ⟨result, fun faithful => ?_⟩
  obtain ⟨i, txout, same, here, bare⟩ := faithful.only rfl [] paysKeyMessage _ _ ⟨prefix_refl _, rfl, result⟩ ⟨1, 0⟩ mem_cons_self
  obtain rfl := congrArg COutPoint.n same
  obtain rfl := some.inj here
  cases bare.not_isReturnPush

end Longcoin.Bloom
