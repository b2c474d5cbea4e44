import Longcoin.StandardShape

/-! Bare pay-to-pubkey and multisignature scripts, and which scripts `Solver` takes for them. -/

namespace Longcoin.Standard
open Primitives Script LongData List Option Bool

/-- `<key> OP_CHECKSIG` -/
def IsPayToPubKey (script : CScript) : Prop :=
  ∃ key : UInt8 × List UInt8, 33 ≤ key.2.length ∧ key.2.length ≤ 65 ∧ Reads script [key, (OP_CHECKSIG, [])] []

/-- `m <key>... n OP_CHECKMULTISIG` with n keys, of which at least one has to sign and no more than there are. -/
def IsMultisig (script : CScript) : Prop :=
  ∃ (opM opN : UInt8 × List UInt8) (keys : List (UInt8 × List UInt8)), OP_1 ≤ opM.1 ∧ opM.1 ≤ opN.1 ∧ opN.1 ≤ OP_16 ∧
    (decodeOP_N opN.1).toNat = keys.length ∧ (∀ key ∈ keys, 33 ≤ key.2.length ∧ key.2.length ≤ 65) ∧
      Reads script (opM :: (keys ++ [opN, (OP_CHECKMULTISIG, [])])) []

def IsBare (script : CScript) : Prop := IsPayToPubKey script ∨ IsMultisig script

/-- The type of an output whose outpoint is inserted under `BLOOM_UPDATE_P2PUBKEY_ONLY`. -/
def isKeyType (type : TxnOutType) : Bool := type == .pubKey || type == .multisig

section Shape

variable {script : CScript}

theorem Reads.head {op : UInt8 × List UInt8} {ops : List (UInt8 × List UInt8)} {rest : CScript}
    (reads : Reads script (op :: ops) rest) : script.head? = some op.1 := by
  obtain ⟨next, read, _⟩ := reads
  exact head_getOp read

theorem IsBare.head (bare : IsBare script) : ∃ opcode, script.head? = some opcode ∧
    (opcode ≤ OP_PUSHDATA4 ∨ OP_1 ≤ opcode ∧ opcode ≤ OP_16) := by
  rcases bare with ⟨key, least, _, reads⟩ | ⟨opM, opN, keys, least, order, most, _, _, reads⟩
  · refine ⟨key.1, reads.head, .inl ?_⟩
    apply reads.isPush mem_cons_self
    exact fun none => absurd (none ▸ least) (by decide)
  · exact ⟨opM.1, reads.head, .inr ⟨least, UInt8.le_trans order most⟩⟩

theorem IsBare.not_isReturnPush (bare : IsBare script) : isReturnPush script = false := by
  obtain ⟨opcode, first, small⟩ := bare.head
  rw [isReturnPush, first]
  have other : opcode ≠ OP_RETURN := by
    rintro rfl
    exact absurd small (by decide)
  simp [other]

theorem IsBare.not_isPayToScriptHash (bare : IsBare script) : CScript.isPayToScriptHash script = false := by
  obtain ⟨opcode, first, small⟩ := bare.head
  have other : opcode ≠ 0xa9 := by
    rintro rfl
    exact absurd small (by decide)
  rw [head?_eq_getElem?] at first
  rw [CScript.isPayToScriptHash, first]
  simp [other]

theorem matchTemplate_step {turns : Nat} {pc1 pc2 next : CScript} (op : UInt8 × List UInt8) {opcode2 : UInt8}
    {vSolutions vSolutions' : List (List UInt8)} (read : getOp pc1 = some (op.1, op.2, next)) (ordinary : opcode2 ≠ OP_PUBKEYS)
    (single : ¬ opcode2 ≤ OP_PUSHDATA4) (accepted : matchOp op.1 op.2 opcode2 [] vSolutions = some vSolutions') :
    matchTemplate (turns + 1) pc1 (opcode2 :: pc2) vSolutions = matchTemplate turns next pc2 vSolutions' := by
  have read2 : getOp (opcode2 :: pc2) = some (opcode2, [], pc2) := by rw [getOp, if_neg single]
  rw [matchTemplate, List.isEmpty_cons, Bool.and_false, read, read2]
  simp only [Option.bind_eq_bind, Option.bind_some, if_neg ordinary, accepted]
  rfl

theorem takePubKeys_all {turns : Nat} {pc middle last : CScript} {op opN : UInt8 × List UInt8} {next : CScript}
    {vSolutions : List (List UInt8)} (keys : List (UInt8 × List UInt8)) (enough : keys.length < turns)
    (sizes : ∀ key ∈ keys, 33 ≤ key.2.length ∧ key.2.length ≤ 65) (reads : Reads pc keys middle)
    (read : getOp pc = some (op.1, op.2, next)) (readN : getOp middle = some (opN.1, opN.2, last)) (none : opN.2 = []) :
    takePubKeys turns (op.1, op.2, next) vSolutions = ((opN.1, opN.2, last), vSolutions ++ keys.map Prod.snd) := by
  induction keys generalizing turns pc op next vSolutions with
  | nil =>
    obtain ⟨less, rfl⟩ := Nat.exists_eq_add_one.mpr enough
    rw [Reads] at reads
    subst reads
    have same : (op.1, op.2, next) = (opN.1, opN.2, last) := some.inj (read.symm.trans readN)
    rw [same, takePubKeys, if_neg]
    · simp
    · simp [none]
  | cons key keys ih =>
    obtain ⟨less, rfl⟩ : ∃ less, turns = less + 1 := ⟨turns - 1, by rw [length_cons] at enough; omega⟩
    obtain ⟨after, readKey, reads⟩ := reads
    obtain ⟨sameOp, sameData, rfl⟩ : op.1 = key.1 ∧ op.2 = key.2 ∧ next = after := by simpa [read] using readKey
    have size := sizes key mem_cons_self
    obtain ⟨op', next', readNext⟩ : ∃ (op' : UInt8 × List UInt8) (next' : CScript), getOp next = some (op'.1, op'.2, next') := by
      cases keys with
      | nil =>
        rw [Reads] at reads
        exact ⟨opN, last, reads ▸ readN⟩
      | cons key' keys =>
        obtain ⟨next', readNext, _⟩ := reads
        exact ⟨key', next', readNext⟩
    rw [takePubKeys, sameData, if_pos size, readNext, elim_some]
    rw [ih (by rw [length_cons] at enough; omega) (forall_mem_cons.mp sizes).2 reads readNext]
    simp

theorem pubKey_matches {key : UInt8 × List UInt8} (least : 33 ≤ key.2.length) (most : key.2.length ≤ 65)
    (reads : Reads script [key, (OP_CHECKSIG, [])] []) : matchTemplate 3 script [OP_PUBKEY, OP_CHECKSIG] [] = some [key.2] := by
  obtain ⟨next, read, last, readSig, ended⟩ := reads
  have taken : matchOp key.1 key.2 OP_PUBKEY [] [] = some [key.2] := by
    rw [matchOp, if_pos rfl, if_neg (by omega)]
    rfl
  have same : matchOp OP_CHECKSIG [] OP_CHECKSIG [] [key.2] = some [key.2] := rfl
  rw [Reads] at ended
  rw [matchTemplate_step key read (by decide) (by decide) taken, matchTemplate_step (OP_CHECKSIG, []) readSig (by decide) (by decide) same, ended]
  rfl

theorem matchOp_number {opcode : UInt8} (least : OP_1 ≤ opcode) (most : opcode ≤ OP_16) (data : List UInt8) (vSolutions : List (List UInt8)) :
    matchOp opcode data OP_SMALLINTEGER [] vSolutions = some (vSolutions ++ [[decodeOP_N opcode]]) := by
  rw [matchOp, if_neg (by decide), if_neg (by decide), if_pos rfl, if_pos (.inr ⟨least, most⟩)]

theorem multisig_matches {opM opN : UInt8 × List UInt8} {keys : List (UInt8 × List UInt8)} (least : OP_1 ≤ opM.1) (order : opM.1 ≤ opN.1)
    (most : opN.1 ≤ OP_16) (sizes : ∀ key ∈ keys, 33 ≤ key.2.length ∧ key.2.length ≤ 65) (nonempty : keys ≠ [])
    (reads : Reads script (opM :: (keys ++ [opN, (OP_CHECKMULTISIG, [])])) []) :
    matchTemplate 5 script [OP_SMALLINTEGER, OP_PUBKEYS, OP_SMALLINTEGER, OP_CHECKMULTISIG] [] =
      some ([decodeOP_N opM.1] :: (keys.map Prod.snd ++ [[decodeOP_N opN.1]])) := by
  obtain ⟨next, readM, reads⟩ := reads
  obtain ⟨middle, readsKeys, last, readN, ended, readSig, finished⟩ := reads.split
  rw [Reads] at finished
  subst finished
  obtain ⟨key, others, rfl⟩ := List.exists_cons_of_ne_nil nonempty
  obtain ⟨after, readKey, readsOthers⟩ := readsKeys
  have notPush : ¬ opN.1 ≤ OP_PUSHDATA4 := fun push => absurd (UInt8.le_trans (UInt8.le_trans least order) push) (by decide)
  have none : opN.2 = [] := getOp_plain readN notPush
  have shorter : (key :: others).length < after.length + 1 := by
    have long := (readsOthers.append (show Reads middle [opN] last from ⟨last, readN, rfl⟩)).length_le
    rw [List.length_append, List.length_singleton] at long
    exact Nat.lt_succ_of_le long
  have taken := @takePubKeys_all (after.length + 1) next middle last key opN after [[decodeOP_N opM.1]] (key :: others) shorter sizes
    ⟨after, readKey, readsOthers⟩ readKey readN none
  have pubKeys : getOp [OP_PUBKEYS, OP_SMALLINTEGER, OP_CHECKMULTISIG] = some (OP_PUBKEYS, [], [OP_SMALLINTEGER, OP_CHECKMULTISIG]) := by decide
  have small : getOp [OP_SMALLINTEGER, OP_CHECKMULTISIG] = some (OP_SMALLINTEGER, [], [OP_CHECKMULTISIG]) := by decide
  rw [matchTemplate_step opM readM (by decide) (by decide) (matchOp_number least (UInt8.le_trans order most) opM.2 [])]
  rw [matchTemplate, List.isEmpty_cons, Bool.and_false, readKey, pubKeys]
  simp only [Option.bind_eq_bind, Option.bind_some, if_pos, small, List.nil_append, taken]
  have same (solutions : List (List UInt8)) : matchOp OP_CHECKMULTISIG [] OP_CHECKMULTISIG [] solutions = some solutions := rfl
  rw [if_neg Bool.false_ne_true, matchOp_number (UInt8.le_trans least order) most, Option.bind_some,
    matchTemplate_step (OP_CHECKMULTISIG, []) readSig (by decide) (by decide) (same _)]
  rfl

theorem decodeOP_N_toNat {opcode : UInt8} (least : OP_1 ≤ opcode) : (decodeOP_N opcode).toNat = opcode.toNat - 80 := by
  have notZero : opcode ≠ OP_0 := by
    rintro rfl
    cases least
  rw [decodeOP_N, if_neg notZero, UInt8.toNat_sub_of_le _ _ (UInt8.le_trans (by decide) least)]
  rfl

theorem multisigChecks_numbers {opM opN : UInt8} (leastM : opM = OP_0 ∨ OP_1 ≤ opM) (leastN : opN = OP_0 ∨ OP_1 ≤ opN) (keys : List (List UInt8)) :
    multisigChecks ([decodeOP_N opM] :: (keys ++ [[decodeOP_N opN]])) = some true ↔
      OP_1 ≤ opM ∧ opM ≤ opN ∧ (decodeOP_N opN).toNat = keys.length := by
  have zero : decodeOP_N OP_0 = 0 := by decide
  rw [multisigChecks_eq, some.injEq, not_eq_true', or_eq_false_iff, or_eq_false_iff, or_eq_false_iff,
    decide_eq_false_iff_not, decide_eq_false_iff_not, decide_eq_false_iff_not, bne_eq_false_iff_eq]
  constructor
  · rintro ⟨⟨⟨positiveM, positiveN⟩, order⟩, count⟩
    have least : OP_1 ≤ opM := by
      apply leastM.resolve_left
      rintro rfl
      exact positiveM (by decide)
    have least' : OP_1 ≤ opN := by
      apply leastN.resolve_left
      rintro rfl
      exact positiveN (by decide)
    refine ⟨least, ?_, count.symm⟩
    have ordered : (decodeOP_N opM).toNat ≤ (decodeOP_N opN).toNat := Nat.not_lt.mp order
    have least : 81 ≤ opM.toNat := least
    rw [decodeOP_N_toNat ‹_›, decodeOP_N_toNat least'] at ordered
    change opM.toNat ≤ opN.toNat
    omega
  · rintro ⟨least, order, count⟩
    have least' := UInt8.le_trans least order
    have valueM := decodeOP_N_toNat least
    have valueN := decodeOP_N_toNat least'
    have low : 81 ≤ opM.toNat := least
    have high : opM.toNat ≤ opN.toNat := order
    refine ⟨⟨⟨?_, ?_⟩, ?_⟩, count.symm⟩
    · change ¬(decodeOP_N opM).toNat < 1
      omega
    · change ¬(decodeOP_N opN).toNat < 1
      omega
    · change ¬(decodeOP_N opN).toNat < (decodeOP_N opM).toNat
      omega

theorem IsBare.solver_scans (bare : IsBare script) : solver script = scanTemplates script mTemplates := by
  rw [solver, if_neg (ne_true_of_eq_false bare.not_isReturnPush), if_neg (ne_true_of_eq_false bare.not_isPayToScriptHash)]

theorem IsBare.solver (bare : IsBare script) :
    ∃ solved, Standard.solver script = some solved ∧ solved.success = true ∧ isKeyType solved.typeRet = true := by
  rw [bare.solver_scans, mTemplates, scanTemplates]
  cases first : matchTemplate 3 script [OP_PUBKEY, OP_CHECKSIG] [] with
  | some vSolutions => exact ⟨_, rfl, rfl, rfl⟩
  | none =>
    rcases bare with ⟨key, least, most, reads⟩ | ⟨opM, opN, keys, least, order, most, count, sizes, reads⟩
    · rw [pubKey_matches least most reads] at first
      cases first
    · -- a multisignature script begins with a number, so that it is no pay-to-pubkey-hash script
      have second : matchTemplate 6 script [OP_DUP, OP_HASH160, OP_PUBKEYHASH, OP_EQUALVERIFY, OP_CHECKSIG] [] = none := by
        rw [eq_none_iff_forall_ne_some]
        intro solutions matched
        obtain ⟨opcode, hash, _, _, reads'⟩ := pubKeyHash_shape matched
        have begins : opM.1 = OP_DUP := some.inj (reads.head.symm.trans reads'.head)
        exact absurd (begins ▸ UInt8.le_trans order most) (by decide)
      have least' := UInt8.le_trans least order
      have nonempty : keys ≠ [] := by
        have low : 81 ≤ opN.1.toNat := least'
        rw [decodeOP_N_toNat least'] at count
        rw [← length_pos_iff]
        omega
      have third := multisig_matches least order most sizes nonempty reads
      have checks := (multisigChecks_numbers (.inr least) (.inr least') (keys.map Prod.snd)).mpr ⟨least, order, by rwa [length_map]⟩
      rw [elim_none, scanTemplates]
      simp only [length_cons, length_nil, second, elim_none, scanTemplates, third, elim_some, checks]
      exact ⟨_, rfl, rfl, rfl⟩

theorem solver_keyType {solved : Solved} (found : solver script = some solved) (success : solved.success = true)
    (key : isKeyType solved.typeRet = true) : IsBare script ∨ isReturnPush script = true := by
  rcases eq_false_or_eq_true (isReturnPush script) with data | notData
  · exact .inr data
  left
  rw [solver, if_neg (ne_true_of_eq_false notData)] at found
  split at found
  · obtain ⟨hashBytes, _, rfl⟩ := map_eq_some_iff.mp found
    cases key
  · rw [mTemplates, scanTemplates] at found
    cases first : matchTemplate 3 script [OP_PUBKEY, OP_CHECKSIG] [] with
    | some solutions =>
      obtain ⟨opcode, data, _, least, most, reads⟩ := pubKey_shape first
      exact .inl ⟨(opcode, data), least, most, reads⟩
    | none =>
      simp only [length_cons, length_nil, first, elim_none, scanTemplates] at found
      cases second : matchTemplate 6 script [OP_DUP, OP_HASH160, OP_PUBKEYHASH, OP_EQUALVERIFY, OP_CHECKSIG] [] with
      | some solutions =>
        rw [second, elim_some, if_neg (by decide)] at found
        rw [← some.inj found] at key
        cases key
      | none =>
        rw [second, elim_none] at found
        cases third : matchTemplate 5 script [OP_SMALLINTEGER, OP_PUBKEYS, OP_SMALLINTEGER, OP_CHECKMULTISIG] [] with
        | none =>
          rw [third, elim_none] at found
          rw [← some.inj found] at success
          cases success
        | some solutions =>
          obtain ⟨opM, opN, keys, smallM, smallN, sizes, rfl, reads⟩ := multisig_shape third
          rw [third, elim_some, if_pos trivial] at found
          obtain ⟨good, checks, rfl⟩ := map_eq_some_iff.mp found
          rw [show good = true from success] at checks
          obtain ⟨least, order, count⟩ := (multisigChecks_numbers (smallM.imp_right And.left) (smallN.imp_right And.left) _).mp checks
          rw [length_map] at count
          have most : opN.1 ≤ OP_16 := smallN.elim (fun zero => zero ▸ by decide) And.right
          exact .inr ⟨opM, opN, keys, least, order, most, count, sizes, reads⟩

end Shape

end Longcoin.Standard
