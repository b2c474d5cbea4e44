import Longcoin.Primitives
import Longcoin.Library.Outcome

/-! `CValidationState`, `CheckTransaction` and `CheckBlock` (`main.cpp`). What they ask of
hashing, serialization and scripts is a parameter. -/

namespace Longcoin.Validation
open Primitives Library.Outcome List

/-- Why a check stopped: a rejection recorded in the `CValidationState`, a failed
`assert`, a `std::runtime_error`, or an `int64_t` sum that does not fit and so is undefined. -/
inductive Failure where
  | rejected (nDoS : Nat) (chRejectCode : Nat) (strRejectReason : String) (corruptionPossible : Bool)
  | assertion
  | runtimeError (what : String)
  | error (message : String)
  | overflow
deriving DecidableEq, Repr

def REJECT_INVALID : Nat := 0x10
def REJECT_NONSTANDARD : Nat := 0x40
def MAX_BLOCK_SIZE : Nat := 1000000
def MAX_BLOCK_SIGOPS : Nat := MAX_BLOCK_SIZE / 50

def dos (level : Nat) (strRejectReason : String) : Failure := .rejected level REJECT_INVALID strRejectReason false

/-- A rejection that may be the fault of a corrupted copy and not of the block. -/
def corrupt (level : Nat) (strRejectReason : String) : Failure := .rejected level REJECT_INVALID strRejectReason true

def invalid (chRejectCode : Nat) (strRejectReason : String) : Failure :=
  .rejected 0 chRejectCode strRejectReason false

structure CBlock where
  hash : Uint256
  nVersion : Int := 4
  hashPrevBlock : Uint256
  hashMerkleRoot : Uint256 := 0
  nTime : Nat := 0
  vtx : List CTransaction
deriving DecidableEq, Repr

/-- A block index entry; `ancestors` are the hashes of its ancestors, the parent first. -/
structure CBlockIndex where
  phashBlock : Option Uint256
  nTime : Nat := 0
  ancestors : List Uint256
deriving DecidableEq, Repr

def CBlockIndex.nHeight (pindex : CBlockIndex) : Nat := pindex.ancestors.length

def CBlockIndex.getBlockHash (pindex : CBlockIndex) : Uint256 := pindex.phashBlock.getD 0

/-- `pprev == NULL ? uint256() : pprev->GetBlockHash()`. -/
def CBlockIndex.hashPrevBlock (pindex : CBlockIndex) : Uint256 := pindex.ancestors.headD 0

/-- The hash of `pprev->GetAncestor(height)`, if there is one. -/
def CBlockIndex.prevAncestor (pindex : CBlockIndex) (height : Nat) : Option Uint256 :=
  pindex.ancestors.reverse[height]?

/-- What the validation code asks of code outside this model. -/
structure Env where
  hashGenesisBlock : Uint256 := 0
  nSubsidyHalvingInterval : Nat := 210000000
  BIP34Height : Nat := 1
  BIP34Hash : Uint256 := 0
  fAddressIndex : Bool := false
  fSpentIndex : Bool := false
  serializeSizeTx : CTransaction → Nat
  serializeSizeBlock : CBlock → Nat
  checkProofOfWork : CBlock → Bool
  getAdjustedTime : Nat
  blockMerkleRoot : CBlock → Uint256 × Bool
  getLegacySigOpCount : CTransaction → Nat
  getP2SHSigOpCount : CTransaction → List CTxOut → Nat
  isSuperMajority : Int → CBlockIndex → Bool
  csvActive : CBlockIndex → Bool
  sequenceLocks : CTransaction → Nat → List Nat → CBlockIndex → Bool
  fScriptChecks : CBlockIndex → Bool
  nScriptCheckThreads : Nat
  /-- `CScriptCheck`: `none` when the script of input `nIn` accepts, else the text of its script error. -/
  scriptCheck : (tx : CTransaction) → (nIn : Nat) → (prevout : CTxOut) → (flags : Nat) → Option String

/-- A sum of two `int64_t`. -/
def addInt64 (a b : CAmount) : Except Failure CAmount := do
  require (-9223372036854775808 ≤ a + b ∧ a + b ≤ 9223372036854775807) .overflow
  return a + b

theorem addInt64_ok {a b sum : CAmount} : addInt64 a b = .ok sum ↔
    (-9223372036854775808 ≤ a + b ∧ a + b ≤ 9223372036854775807) ∧ a + b = sum := by
  simp only [addInt64, require_bind_ok, pure_ok, decide_eq_true_eq]

/-- One turn of the loop over `tx.vout` in `CheckTransaction`. -/
def addOutput (nValueOut : CAmount) (txout : CTxOut) : Except Failure CAmount := do
  require (0 ≤ txout.nValue) (dos 100 "bad-txns-vout-negative")
  require (txout.nValue ≤ MAX_MONEY) (dos 100 "bad-txns-vout-toolarge")
  let nValueOut ← addInt64 nValueOut txout.nValue
  require (moneyRange nValueOut) (dos 100 "bad-txns-txouttotal-toolarge")
  return nValueOut

def addInput (vInOutPoints : List COutPoint) (txin : CTxIn) : Except Failure (List COutPoint) := do
  require (txin.prevout ∉ vInOutPoints) (dos 100 "bad-txns-inputs-duplicate")
  return txin.prevout :: vInOutPoints

def checkTransaction (env : Env) (tx : CTransaction) : Except Failure Unit := do
  require (!tx.vin.isEmpty) (dos 10 "bad-txns-vin-empty")
  require (!tx.vout.isEmpty) (dos 10 "bad-txns-vout-empty")
  require (env.serializeSizeTx tx ≤ MAX_BLOCK_SIZE) (dos 100 "bad-txns-oversize")
  let _ ← tx.vout.foldlM addOutput 0
  let _ ← tx.vin.foldlM addInput []
  if tx.isCoinBase then
    let scriptSize := (tx.vin.head?.map fun txin => txin.scriptSig.length).getD 0
    require (2 ≤ scriptSize ∧ scriptSize ≤ 100) (dos 100 "bad-cb-length")
  else
    require (tx.vin.all fun txin => !txin.prevout.isNull) (dos 10 "bad-txns-prevout-null")

def checkBlockHeader (env : Env) (block : CBlock) (fCheckPOW : Bool) : Except Failure Unit := do
  require (!fCheckPOW || env.checkProofOfWork block) (dos 50 "high-hash")
  require (block.nTime ≤ env.getAdjustedTime + 1 * 60 * 60) (invalid REJECT_INVALID "time-too-new")

def checkMerkleRoot (env : Env) (block : CBlock) (fCheckMerkleRoot : Bool) : Except Failure Unit := do
  let (hashMerkleRoot2, mutated) := env.blockMerkleRoot block
  require (!fCheckMerkleRoot || block.hashMerkleRoot == hashMerkleRoot2) (corrupt 100 "bad-txnmrklroot")
  require (!fCheckMerkleRoot || !mutated) (corrupt 100 "bad-txns-duplicate")

def checkBlock (env : Env) (block : CBlock) (fCheckPOW fCheckMerkleRoot : Bool) : Except Failure Unit := do
  checkBlockHeader env block fCheckPOW
  checkMerkleRoot env block fCheckMerkleRoot
  require (!block.vtx.isEmpty && block.vtx.length ≤ MAX_BLOCK_SIZE && env.serializeSizeBlock block ≤ MAX_BLOCK_SIZE)
    (dos 100 "bad-blk-length")
  require (block.vtx.head?.any CTransaction.isCoinBase) (dos 100 "bad-cb-missing")
  require (block.vtx.tail.all fun tx => !tx.isCoinBase) (dos 100 "bad-cb-multiple")
  block.vtx.forM (checkTransaction env)
  require ((block.vtx.map env.getLegacySigOpCount).sum ≤ MAX_BLOCK_SIGOPS) (dos 100 "bad-blk-sigops")

def addValue (nValueOut : CAmount) (txout : CTxOut) : Except Failure CAmount := do
  let nValueOut ← addInt64 nValueOut txout.nValue
  require (moneyRange txout.nValue && moneyRange nValueOut)
    (.runtimeError "CTransaction::GetValueOut(): value out of range")
  return nValueOut

/-- `CTransaction::GetValueOut` throws when an amount or the running total leaves the money range. -/
def getValueOut (tx : CTransaction) : Except Failure CAmount := tx.vout.foldlM addValue 0

/-- The conditions `CheckTransaction` enforces that later code relies on. -/
structure Checked (tx : CTransaction) : Prop where
  vin : tx.vin ≠ []
  amounts : ∀ txout ∈ tx.vout, 0 ≤ txout.nValue ∧ txout.nValue ≤ MAX_MONEY
  valueOut : getValueOut tx = .ok (tx.vout.map CTxOut.nValue).sum
  total : (tx.vout.map CTxOut.nValue).sum ≤ MAX_MONEY
  distinct : (tx.vin.map CTxIn.prevout).Nodup
  spends : tx.isCoinBase = false → ∀ txin ∈ tx.vin, txin.prevout.isNull = false

theorem addOutput_ok {nValueOut last : CAmount} {txout : CTxOut} (added : addOutput nValueOut txout = .ok last) :
    (0 ≤ txout.nValue ∧ txout.nValue ≤ MAX_MONEY) ∧ moneyRange last = true ∧ addInt64 nValueOut txout.nValue = .ok last := by
  simp only [addOutput, bind_ok, require_ok, pure_ok, decide_eq_true_eq] at added
  obtain ⟨⟨⟩, positive, ⟨⟩, small, sum, fits, ⟨⟩, range, rfl⟩ := added
  exact ⟨⟨positive, small⟩, range, fits⟩

theorem addOutputs_ok {outs : List CTxOut} {start last : CAmount} (started : moneyRange start = true)
    (run : outs.foldlM addOutput start = .ok last) :
    (∀ txout ∈ outs, 0 ≤ txout.nValue ∧ txout.nValue ≤ MAX_MONEY) ∧ moneyRange last = true ∧
      last = start + (outs.map CTxOut.nValue).sum ∧ outs.foldlM addValue start = .ok last := by
  induction outs generalizing start with
  | nil =>
    simp only [foldlM_nil, pure_ok] at run
    subst run
    simpa using started
  | cons txout outs ih =>
    obtain ⟨middle, added, rest⟩ := foldlM_cons_ok.mp run
    obtain ⟨small, range, sum⟩ := addOutput_ok added
    obtain ⟨others, final, total, again⟩ := ih range rest
    refine ⟨by simpa using ⟨small, others⟩, final, ?_, foldlM_cons_ok.mpr ⟨middle, ?_, again⟩⟩
    · rw [total, ← (addInt64_ok.mp sum).2, map_cons, sum_cons, add_assoc]
    · simp only [addValue, bind_ok, require_ok, pure_ok, Bool.and_eq_true]
      exact ⟨middle, sum, (), ⟨(moneyRange_iff _).mpr small, range⟩, rfl⟩

theorem addInputs_ok {ins : List CTxIn} {seen last : List COutPoint} (run : ins.foldlM addInput seen = .ok last) :
    (ins.map CTxIn.prevout).Nodup ∧ ∀ txin ∈ ins, txin.prevout ∉ seen := by
  induction ins generalizing seen with
  | nil => simp
  | cons txin ins ih =>
    obtain ⟨middle, added, rest⟩ := foldlM_cons_ok.mp run
    simp only [addInput, require_bind_ok, pure_ok, decide_eq_true_eq] at added
    obtain ⟨fresh, rfl⟩ := added
    obtain ⟨distinct, others⟩ := ih rest
    refine ⟨?_, ?_⟩
    · simp only [map_cons, nodup_cons, mem_map, not_exists, not_and]
      refine ⟨fun other member same => ?_, distinct⟩
      exact others other member (same ▸ mem_cons_self)
    · intro other member
      rcases mem_cons.mp member with rfl | member
      · exact fresh
      · exact fun seenBefore => others other member (mem_cons_of_mem _ seenBefore)

theorem checkTransaction_ok {env : Env} {tx : CTransaction} (accepted : checkTransaction env tx = .ok ()) : Checked tx := by
  simp only [checkTransaction, bind_ok, require_ok] at accepted
  obtain ⟨-, vin, -, -, -, -, total, outs, seen, ins, script⟩ := accepted
  obtain ⟨amounts, range, sum, again⟩ := addOutputs_ok (by decide) outs
  rw [zero_add] at sum
  subst sum
  obtain ⟨distinct, -⟩ := addInputs_ok ins
  refine ⟨?_, amounts, again, ((moneyRange_iff _).mp range).2, distinct, ?_⟩
  · rintro empty
    simp [empty] at vin
  · intro ordinary
    simpa [ordinary] using script

structure CheckedBlock (block : CBlock) : Prop where
  coinbase : ∃ first rest, block.vtx = first :: rest ∧ first.isCoinBase = true ∧
    ∀ tx ∈ rest, tx.isCoinBase = false
  transactions : ∀ tx ∈ block.vtx, Checked tx

theorem checkBlock_ok {env : Env} {block : CBlock} {fCheckPOW fCheckMerkleRoot : Bool}
    (accepted : checkBlock env block fCheckPOW fCheckMerkleRoot = .ok ()) : CheckedBlock block := by
  simp only [checkBlock, bind_ok, require_ok] at accepted
  obtain ⟨-, -, -, -, -, -, -, first, -, others, ⟨⟩, transactions, -⟩ := accepted
  refine ⟨?_, fun tx member => checkTransaction_ok (forM_ok transactions tx member)⟩
  cases shape : block.vtx with
  | nil => simp [shape] at first
  | cons tx rest =>
    simp only [shape, head?_cons, Option.any_some, tail_cons, all_eq_true, Bool.not_eq_true'] at first others
    exact ⟨tx, rest, rfl, first, others⟩

end Longcoin.Validation
