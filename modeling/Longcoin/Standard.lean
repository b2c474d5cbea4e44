import Longcoin.LongData

/-! `Solver` (`script/standard.cpp`): the type of an output script and the keys or hashes in it. -/

namespace Longcoin.Standard
open Primitives Script LongData Library.Bytes List Option

def OP_SMALLINTEGER : UInt8 := 0xfa
def OP_PUBKEYS : UInt8 := 0xfb
def OP_SCRIPTHASH : UInt8 := 0xfc
def OP_PUBKEYHASH : UInt8 := 0xfd
def OP_PUBKEY : UInt8 := 0xfe

def OP_DUP : UInt8 := 0x76
def OP_EQUALVERIFY : UInt8 := 0x88
def OP_HASH160 : UInt8 := 0xa9
def OP_CHECKSIG : UInt8 := 0xac
def OP_CHECKMULTISIG : UInt8 := 0xae

def mTemplates : List (TxnOutType × CScript) :=
  [(.pubKey, [OP_PUBKEY, OP_CHECKSIG]),
    (.pubKeyHash, [OP_DUP, OP_HASH160, OP_PUBKEYHASH, OP_EQUALVERIFY, OP_CHECKSIG]),
    (.multisig, [OP_SMALLINTEGER, OP_PUBKEYS, OP_SMALLINTEGER, OP_CHECKMULTISIG])]

def decodeOP_N (opcode : UInt8) : UInt8 := if opcode = OP_0 then 0 else opcode - (OP_1 - 1)

/-- The keys in the place of `OP_PUBKEYS`, and the instruction after them: a failed read leaves an
invalid opcode without data. -/
def takePubKeys : Nat → UInt8 × List UInt8 × CScript → List (List UInt8) →
    (UInt8 × List UInt8 × CScript) × List (List UInt8)
  | 0, op, vSolutions => (op, vSolutions)
  | turns + 1, op, vSolutions =>
      if 33 ≤ op.2.1.length ∧ op.2.1.length ≤ 65 then
        (getOp op.2.2).elim ((OP_INVALIDOPCODE, [], op.2.2), vSolutions ++ [op.2.1]) fun next =>
          takePubKeys turns next (vSolutions ++ [op.2.1])
      else (op, vSolutions)

/-- One instruction against the template's, which has no data of its own. -/
def matchOp (opcode1 : UInt8) (vch1 : List UInt8) (opcode2 : UInt8) (vch2 : List UInt8)
    (vSolutions : List (List UInt8)) : Option (List (List UInt8)) :=
  if opcode2 = OP_PUBKEY then
    if vch1.length < 33 ∨ 65 < vch1.length then none else some (vSolutions ++ [vch1])
  else if opcode2 = OP_PUBKEYHASH ∨ opcode2 = OP_SCRIPTHASH then
    if vch1.length ≠ 20 then none else some (vSolutions ++ [vch1])
  else if opcode2 = OP_SMALLINTEGER then
    if opcode1 = OP_0 ∨ OP_1 ≤ opcode1 ∧ opcode1 ≤ OP_16 then some (vSolutions ++ [[decodeOP_N opcode1]]) else none
  else if opcode1 ≠ opcode2 ∨ vch1 ≠ vch2 then none
  else some vSolutions

/-- The instructions of the script against those of a template: the solutions of a match. A turn takes
at least a byte of the template. -/
def matchTemplate : Nat → CScript → CScript → List (List UInt8) → Option (List (List UInt8))
  | 0, _, _, _ => none
  | turns + 1, pc1, pc2, vSolutions =>
      if pc1.isEmpty && pc2.isEmpty then some vSolutions
      else do
        let op1 ← getOp pc1
        let op2 ← getOp pc2
        if op2.1 = OP_PUBKEYS then
          let taken := takePubKeys (op1.2.2.length + 1) op1 vSolutions
          let op2 ← getOp op2.2.2
          let vSolutions ← matchOp taken.1.1 taken.1.2.1 op2.1 op2.2.1 taken.2
          matchTemplate turns taken.1.2.2 op2.2.2 vSolutions
        else
          let vSolutions ← matchOp op1.1 op1.2.1 op2.1 op2.2.1 vSolutions
          matchTemplate turns op1.2.2 op2.2.2 vSolutions

/-- What `Solver` returns: success, `typeRet` and `vSolutionsRet`. -/
structure Solved where
  success : Bool
  typeRet : TxnOutType
  vSolutionsRet : List (List UInt8)
deriving DecidableEq, Repr

/-- The additional checks of a multisignature script: its first and last solution are single bytes. -/
def multisigChecks (vSolutions : List (List UInt8)) : Option Bool := do
  let front ← vSolutions.head?
  let m ← front[0]?
  let back ← vSolutions.getLast?
  let n ← back[0]?
  return !(m < 1 || n < 1 || m > n || vSolutions.length - 2 != n.toNat)

def scanTemplates (scriptPubKey : CScript) : List (TxnOutType × CScript) → Option Solved
  | [] => some ⟨false, .nonStandard, []⟩
  | tplate :: rest =>
      (matchTemplate (tplate.2.length + 1) scriptPubKey tplate.2 []).elim (scanTemplates scriptPubKey rest)
        fun vSolutions =>
          if tplate.1 = .multisig then (multisigChecks vSolutions).map fun good => ⟨good, .multisig, vSolutions⟩
          else some ⟨true, tplate.1, vSolutions⟩

def solver (scriptPubKey : CScript) : Option Solved :=
  if isReturnPush scriptPubKey then
    (isLong scriptPubKey).bind fun long =>
      if long then
        (getLongToPubKey scriptPubKey).map fun key? =>
          key?.elim ⟨true, .nullData, []⟩ fun key => ⟨true, key.2, [key.1]⟩
      else some ⟨true, .nullData, []⟩
  else if CScript.isPayToScriptHash scriptPubKey then
    (range scriptPubKey 2 20).map fun hashBytes => ⟨true, .scriptHash, [hashBytes]⟩
  else scanTemplates scriptPubKey mTemplates

theorem matchTemplate_succ {turns : Nat} {pc1 pc2 : CScript} {vSolutions : List (List UInt8)}
    {opcode2 : UInt8} (ordinary : opcode2 ≠ OP_PUBKEYS) (single : ¬ opcode2 ≤ OP_PUSHDATA4) {solutions : List (List UInt8)}
    (matched : matchTemplate (turns + 1) pc1 (opcode2 :: pc2) vSolutions = some solutions) :
    ∃ op1 next, getOp pc1 = some op1 ∧ matchOp op1.1 op1.2.1 opcode2 [] vSolutions = some next ∧
      matchTemplate turns op1.2.2 pc2 next = some solutions := by
  have read : getOp (opcode2 :: pc2) = some (opcode2, [], pc2) := by rw [getOp, if_neg single]
  rw [matchTemplate, isEmpty_cons, Bool.and_false] at matched
  obtain ⟨op1, read1, matched⟩ := bind_eq_some_iff.mp matched
  rw [read, bind_eq_bind, bind_some, if_neg ordinary] at matched
  obtain ⟨next, accepted, matched⟩ := bind_eq_some_iff.mp matched
  exact ⟨op1, next, read1, accepted, matched⟩

theorem matchOp_small {opcode1 : UInt8} {vch1 vch2 : List UInt8} {vSolutions next : List (List UInt8)}
    (accepted : matchOp opcode1 vch1 OP_SMALLINTEGER vch2 vSolutions = some next) : ∃ n, next = vSolutions ++ [[n]] := by
  rw [matchOp, if_neg (by decide), if_neg (by decide), if_pos rfl] at accepted
  split at accepted
  · exact ⟨_, (some.inj accepted).symm⟩
  · cases accepted

theorem takePubKeys_prefix (turns : Nat) (op : UInt8 × List UInt8 × CScript) (vSolutions : List (List UInt8)) :
    vSolutions <+: (takePubKeys turns op vSolutions).2 := by
  induction turns generalizing op vSolutions with
  | zero => exact prefix_refl _
  | succ turns ih =>
    rw [takePubKeys]
    split
    · cases getOp op.2.2 with
      | none => exact prefix_append _ _
      | some next => exact (prefix_append _ _).trans (ih next _)
    · exact prefix_refl _

theorem multisig_solutions {turns : Nat} {pc : CScript} {solutions : List (List UInt8)}
    (matched : matchTemplate turns pc [OP_SMALLINTEGER, OP_PUBKEYS, OP_SMALLINTEGER, OP_CHECKMULTISIG] [] = some solutions) :
    ∃ m keys n, solutions = [m] :: (keys ++ [[n]]) := by
  cases turns with
  | zero => cases matched
  | succ turns =>
    obtain ⟨op1, first, -, accepted, matched⟩ := matchTemplate_succ (by decide) (by decide) matched
    obtain ⟨m, rfl⟩ := matchOp_small accepted
    cases turns with
    | zero => cases matched
    | succ turns =>
      rw [matchTemplate, isEmpty_cons, Bool.and_false] at matched
      obtain ⟨keyOp, -, matched⟩ := bind_eq_some_iff.mp matched
      have keys : getOp [OP_PUBKEYS, OP_SMALLINTEGER, OP_CHECKMULTISIG] =
          some (OP_PUBKEYS, [], [OP_SMALLINTEGER, OP_CHECKMULTISIG]) := by decide
      have small : getOp [OP_SMALLINTEGER, OP_CHECKMULTISIG] = some (OP_SMALLINTEGER, [], [OP_CHECKMULTISIG]) := by decide
      rw [keys, bind_eq_bind, bind_some, if_pos rfl, small, bind_eq_bind, bind_some] at matched
      obtain ⟨second, accepted, matched⟩ := bind_eq_some_iff.mp matched
      obtain ⟨n, rfl⟩ := matchOp_small accepted
      obtain ⟨taken, grown⟩ := takePubKeys_prefix (keyOp.2.2.length + 1) keyOp ([] ++ [[m]])
      rw [← grown] at matched
      cases turns with
      | zero => cases matched
      | succ turns =>
        obtain ⟨op3, third, -, accepted, matched⟩ := matchTemplate_succ (by decide) (by decide) matched
        have same : third = [] ++ [[m]] ++ taken ++ [[n]] := by
          rw [matchOp, if_neg (by decide), if_neg (by decide), if_neg (by decide)] at accepted
          split at accepted
          · cases accepted
          · exact (some.inj accepted).symm
        cases turns with
        | zero => cases matched
        | succ turns =>
          rw [matchTemplate] at matched
          split at matched
          · exact ⟨m, taken, n, by rw [← some.inj matched, same]; rfl⟩
          · obtain ⟨op, -, matched⟩ := bind_eq_some_iff.mp matched
            cases matched

theorem multisigChecks_isSome (m n : UInt8) (keys : List (List UInt8)) :
    (multisigChecks ([m] :: (keys ++ [[n]]))).isSome = true := by
  have last : ([m] :: (keys ++ [[n]])).getLast? = some [n] := by
    rw [← cons_append, getLast?_append]
    rfl
  rw [multisigChecks, last]
  rfl

theorem scanTemplates_isSome (scriptPubKey : CScript) : ∀ templates : List (TxnOutType × CScript),
    (∀ tplate ∈ templates, tplate.1 = .multisig → tplate.2 = [OP_SMALLINTEGER, OP_PUBKEYS, OP_SMALLINTEGER, OP_CHECKMULTISIG]) →
    (scanTemplates scriptPubKey templates).isSome = true
  | [], _ => rfl
  | tplate :: rest, multisig => by
      rw [scanTemplates]
      cases matched : matchTemplate (tplate.2.length + 1) scriptPubKey tplate.2 [] with
      | none => exact scanTemplates_isSome scriptPubKey rest (forall_mem_cons.mp multisig).2
      | some vSolutions =>
        rw [elim_some]
        split
        · next kind =>
          rw [multisig tplate mem_cons_self kind] at matched
          obtain ⟨m, keys, n, rfl⟩ := multisig_solutions matched
          rw [isSome_map]
          exact multisigChecks_isSome m n keys
        · rfl

theorem solver_isSome {scriptPubKey : CScript} (parsers : ParsersInRange scriptPubKey) :
    (solver scriptPubKey).isSome = true := by
  rw [solver]
  split
  · obtain ⟨long, isLong⟩ := isSome_iff_exists.mp parsers.long
    rw [isLong, bind_some]
    split
    · rw [isSome_map]
      exact parsers.toPubKey
    · rfl
  · split
    · next p2sh =>
      have length : scriptPubKey.length = 23 := by
        simp only [CScript.isPayToScriptHash, Bool.and_eq_true, beq_iff_eq] at p2sh
        exact p2sh.1.1.1
      rw [isSome_map, range_isSome, length]
      omega
    · exact scanTemplates_isSome scriptPubKey mTemplates (by decide)

/-- `Solver` and the parsers of LONG data read inside the script and the pushed bytes just when the
script is not a bare `OP_RETURN` and the pushed bytes are not cut off within the mark or its fields. -/
theorem long_reads_in_range (scriptPubKey : CScript) :
    ((solver scriptPubKey).isSome = true ∧ ParsersInRange scriptPubKey) ↔ WellFormed scriptPubKey := by
  rw [← parsersInRange_iff]
  exact ⟨fun inRange => inRange.2, fun parsers => ⟨solver_isSome parsers, parsers⟩⟩

/-- An output script that is a bare `OP_RETURN` makes `Solver` read the byte after it. -/
theorem bare_return_out_of_range : isReturnPush [OP_RETURN] = true ∧ solver [OP_RETURN] = none ∧
    ¬ ∀ scriptPubKey, (solver scriptPubKey).isSome = true ∧ ParsersInRange scriptPubKey := by
  have read : solver [OP_RETURN] = none := by decide
  refine ⟨by decide, read, fun every => ?_⟩
  have there := (every [OP_RETURN]).1
  rw [read] at there
  cases there

end Longcoin.Standard
