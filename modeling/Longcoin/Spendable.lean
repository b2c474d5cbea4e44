import Longcoin.InputScript

/-! Which of the outputs that `IsMine` calls spendable `ProduceSignature` can sign. -/

namespace Longcoin.Sign
open Primitives Script LongData Standard Interpreter Wallet ScriptNum Library.Bytes CScript List Option

variable {checker : Checker} {keystore : CKeyStore checker.hash160} {sign : Signer}

/-- What signing with the keys of a store gives: strict DER with a low S and the hash type `SIGHASH_ALL`, which verifies. -/
structure Signs (keystore : CKeyStore checker.hash160) (sign : Signer) : Prop where
  encoding : ∀ id pubKey scriptCode, keystore.pubKeys id = some pubKey → isValidSignatureEncoding (sign pubKey scriptCode) = true
  lowS : ∀ id pubKey scriptCode, keystore.pubKeys id = some pubKey → checker.checkLowS (sign pubKey scriptCode).dropLast = true
  hashType : ∀ id pubKey scriptCode, keystore.pubKeys id = some pubKey → (sign pubKey scriptCode).getLast? = some 1
  verifies : ∀ id pubKey scriptCode, keystore.pubKeys id = some pubKey →
    checker.checkSig (sign pubKey scriptCode) pubKey scriptCode = true

/-- The hash of a stored key is that of no other bytes, and is no signature of the key. -/
structure Distinct (keystore : CKeyStore checker.hash160) (sign : Signer) : Prop where
  preimage : ∀ id pubKey vch, keystore.pubKeys id = some pubKey → checker.hash160 vch = id → vch = pubKey
  signature : ∀ id pubKey scriptCode, keystore.pubKeys id = some pubKey → sign pubKey scriptCode ≠ id

def Stored (keystore : CKeyStore checker.hash160) (vch : List UInt8) : Prop :=
  keystore.pubKeys (checker.hash160 vch) = some vch ∧ pubKeyID checker vch = checker.hash160 vch

theorem length_encoding {sig : List UInt8} (encoding : isValidSignatureEncoding sig = true) : 9 ≤ sig.length ∧ sig.length ≤ 73 := by
  simp only [isValidSignatureEncoding, Bool.and_eq_true, decide_eq_true_eq] at encoding
  exact encoding.1.1.1.1.1.1

theorem length_pubKey {key : List UInt8} (valid : isCompressedOrUncompressedPubKey key = true) :
    33 ≤ key.length ∧ key.length ≤ 65 := by
  rw [isCompressedOrUncompressedPubKey, Bool.and_eq_true, decide_eq_true_eq] at valid
  refine ⟨valid.1, ?_⟩
  have size := valid.2
  split at size
  · exact Nat.le_of_eq (beq_iff_eq.mp size)
  · split at size
    · rw [beq_iff_eq.mp size]
      decide
    · cases size

theorem pubKey_ne_signature {key sig : List UInt8} (valid : isCompressedOrUncompressedPubKey key = true)
    (encoding : isValidSignatureEncoding sig = true) : key ≠ sig := by
  rintro rfl
  simp only [isValidSignatureEncoding, Bool.and_eq_true, beq_iff_eq] at encoding
  have first : key.getD 0 0 = 0x30 := encoding.1.1.1.1.1.2
  rw [isCompressedOrUncompressedPubKey, first] at valid
  simp at valid

theorem stored_of_haveKey (distinct : Distinct keystore sign) {vch : List UInt8}
    (owned : haveKey keystore (pubKeyID checker vch) = true) : Stored keystore vch := by
  obtain ⟨pubKey, found⟩ := isSome_iff_exists.mp owned
  have same : cPubKey vch = pubKey := distinct.preimage _ pubKey _ found rfl
  have size := (length_pubKey (keystore.pubKeys_encoding _ _ found)).1
  have whole : cPubKey vch = vch := by
    rw [cPubKey]
    split
    · rfl
    · next invalid =>
      rw [cPubKey, if_neg invalid] at same
      rw [← same] at size
      cases size
  have key : vch = pubKey := by rw [← whole, same]
  refine ⟨?_, by rw [pubKeyID, whole]⟩
  rw [pubKeyID, whole] at found
  rw [found, key]

theorem Stored.valid {vch : List UInt8} (stored : Stored keystore vch) : isCompressedOrUncompressedPubKey vch = true :=
  keystore.pubKeys_encoding _ _ stored.1

theorem Stored.createSig {vch : List UInt8} (stored : Stored keystore vch) (scriptCode : CScript) :
    createSig keystore sign (pubKeyID checker vch) scriptCode = some (sign vch scriptCode) := by
  rw [Sign.createSig, stored.2, stored.1]
  rfl

theorem pushable_sign (signs : Signs keystore sign) {id pubKey : List UInt8} (found : keystore.pubKeys id = some pubKey)
    (scriptCode : CScript) : Pushable (sign pubKey scriptCode) := by
  obtain ⟨least, most⟩ := length_encoding (signs.encoding _ _ scriptCode found)
  exact ⟨by omega, Nat.le_trans most (by decide)⟩

theorem pushable_pubKey {id pubKey : List UInt8} (found : keystore.pubKeys id = some pubKey) : Pushable pubKey := by
  obtain ⟨least, most⟩ := length_pubKey (keystore.pubKeys_encoding _ _ found)
  exact ⟨by omega, Nat.le_trans most (by decide)⟩

variable {script : CScript}

theorem signed_of_stored (signs : Signs keystore sign) {id pubKey : List UInt8} (found : keystore.pubKeys id = some pubKey)
    {ops : List (UInt8 × List UInt8)} (reads : Reads script ops []) (size : script.length ≤ MAX_SCRIPT_SIZE)
    (fresh : ∀ op ∈ ops, op.2 ≠ sign pubKey script) : Signed checker (sign pubKey script) pubKey script := by
  have encoding := signs.encoding _ _ script found
  have defined : isDefinedHashtypeSignature (sign pubKey script) = true := by
    rw [isDefinedHashtypeSignature, signs.hashType _ _ script found]
    decide
  have most : MAX_SCRIPT_SIZE = 87382 := rfl
  refine ⟨?_, keystore.pubKeys_encoding _ _ found, signs.verifies _ _ script found, findAndDelete_reads reads (by omega) fresh⟩
  rw [checkSignatureEncoding, encoding, signs.lowS _ _ script found, defined]
  simp only [Bool.or_true]
  split <;> rfl

variable {solved : Solved}

theorem solver_template (plain : isReturnPush script = false) (bare : isPayToScriptHash script = false)
    (found : solver script = some solved) (success : solved.success = true) :
    (solved.typeRet = .pubKey ∧ matchTemplate 3 script [OP_PUBKEY, OP_CHECKSIG] [] = some solved.vSolutionsRet) ∨
      (solved.typeRet = .pubKeyHash ∧
        matchTemplate 6 script [OP_DUP, OP_HASH160, OP_PUBKEYHASH, OP_EQUALVERIFY, OP_CHECKSIG] [] = some solved.vSolutionsRet) ∨
      (solved.typeRet = .multisig ∧ multisigChecks solved.vSolutionsRet = some true ∧
        matchTemplate 5 script [OP_SMALLINTEGER, OP_PUBKEYS, OP_SMALLINTEGER, OP_CHECKMULTISIG] [] = some solved.vSolutionsRet) := by
  rw [solver, plain, bare, if_neg Bool.false_ne_true, if_neg Bool.false_ne_true, mTemplates, scanTemplates] at found
  cases first : matchTemplate 3 script [OP_PUBKEY, OP_CHECKSIG] [] with
  | some vSolutions =>
    change Option.elim (matchTemplate 3 script [OP_PUBKEY, OP_CHECKSIG] []) _ _ = _ at found
    rw [first] at found
    left
    rw [← some.inj found]
    exact ⟨rfl, rfl⟩
  | none =>
    change Option.elim (matchTemplate 3 script [OP_PUBKEY, OP_CHECKSIG] []) _ _ = _ at found
    rw [first, elim_none, scanTemplates] at found
    right
    change Option.elim (matchTemplate 6 script [OP_DUP, OP_HASH160, OP_PUBKEYHASH, OP_EQUALVERIFY, OP_CHECKSIG] []) _ _ = _ at found
    cases second : matchTemplate 6 script [OP_DUP, OP_HASH160, OP_PUBKEYHASH, OP_EQUALVERIFY, OP_CHECKSIG] [] with
    | some vSolutions =>
      rw [second] at found
      left
      rw [← some.inj found]
      exact ⟨rfl, rfl⟩
    | none =>
      rw [second, elim_none, scanTemplates] at found
      right
      change Option.elim (matchTemplate 5 script [OP_SMALLINTEGER, OP_PUBKEYS, OP_SMALLINTEGER, OP_CHECKMULTISIG] []) _ _ = _ at found
      cases third : matchTemplate 5 script [OP_SMALLINTEGER, OP_PUBKEYS, OP_SMALLINTEGER, OP_CHECKMULTISIG] [] with
      | some vSolutions =>
        rw [third, elim_some, if_pos rfl] at found
        obtain ⟨good, checks, rfl⟩ := map_eq_some_iff.mp found
        rw [show good = true from success] at checks
        exact ⟨rfl, checks, rfl⟩
      | none =>
        rw [third] at found
        rw [← some.inj found] at success
        exact Bool.noConfusion success

theorem length_template (plain : isReturnPush script = false) (bare : isPayToScriptHash script = false)
    (found : solver script = some solved) (success : solved.success = true) :
    script.length ≠ 1 := by
  rcases solver_template plain bare found success with ⟨-, matched⟩ | ⟨-, matched⟩ | ⟨-, -, matched⟩
  · obtain ⟨opcode, key, -, -, -, reads⟩ := pubKey_shape matched
    have := reads.length_le
    simp only [length_cons] at this
    omega
  · obtain ⟨opcode, hash, -, -, reads⟩ := pubKeyHash_shape matched
    have := reads.length_le
    simp only [length_cons] at this
    omega
  · obtain ⟨opM, opN, keys, -, -, -, -, reads⟩ := multisig_shape matched
    have := reads.length_le
    simp only [length_cons, length_append] at this
    omega

theorem multisigChecks_counts {m n : UInt8} {keys : List (List UInt8)}
    (checks : multisigChecks ([m] :: (keys ++ [[n]])) = some true) : 1 ≤ m ∧ 1 ≤ n ∧ m ≤ n ∧ keys.length = n.toNat := by
  rw [multisigChecks_eq] at checks
  have value := some.inj checks
  simp only [Bool.not_eq_true', Bool.or_eq_false_iff, decide_eq_false_iff_not, bne_eq_false_iff_eq, UInt8.not_lt] at value
  exact ⟨value.1.1.1, value.1.1.2, value.1.2, value.2⟩

theorem decodeOP_N_small {opcode : UInt8} (small : opcode = OP_0 ∨ OP_1 ≤ opcode ∧ opcode ≤ OP_16) (positive : 1 ≤ decodeOP_N opcode) :
    (OP_1 ≤ opcode ∧ opcode ≤ OP_16) ∧ (decodeOP_N opcode).toNat ≤ 16 := by
  rcases small with rfl | range
  · cases positive
  · refine ⟨range, ?_⟩
    have notZero : opcode ≠ OP_0 := by
      rintro rfl
      cases range.1
    have least := UInt8.le_iff_toNat_le.mp range.1
    have most := UInt8.le_iff_toNat_le.mp range.2
    have bound : OP_1 - 1 ≤ opcode := UInt8.le_trans (by decide) range.1
    have one : (OP_1 - 1).toNat = 80 := rfl
    have last : OP_16.toNat = 96 := rfl
    rw [decodeOP_N, if_neg notZero, UInt8.toNat_sub_of_le _ _ bound]
    omega

/-- The instructions of `m <key>... n OP_CHECKMULTISIG`, with counts that `Solver` accepts. -/
structure MultisigOps (script : CScript) (opM opN : UInt8 × List UInt8) (keys : List (UInt8 × List UInt8)) : Prop where
  reads : Reads script (opM :: (keys ++ [opN, (OP_CHECKMULTISIG, [])])) []
  rangeM : OP_1 ≤ opM.1 ∧ opM.1 ≤ OP_16
  rangeN : OP_1 ≤ opN.1 ∧ opN.1 ≤ OP_16
  count : (decodeOP_N opN.1).toNat = keys.length
  fewer : (decodeOP_N opM.1).toNat ≤ keys.length
  most : keys.length ≤ 16
  sizes : ∀ key ∈ keys, 33 ≤ key.2.length ∧ key.2.length ≤ 65

theorem multisig_ops {solutions : List (List UInt8)} (checks : multisigChecks solutions = some true)
    (matched : matchTemplate 5 script [OP_SMALLINTEGER, OP_PUBKEYS, OP_SMALLINTEGER, OP_CHECKMULTISIG] [] = some solutions) :
    ∃ opM opN keys, solutions = [decodeOP_N opM.1] :: (keys.map Prod.snd ++ [[decodeOP_N opN.1]]) ∧
      MultisigOps script opM opN keys := by
  obtain ⟨opM, opN, keys, smallM, smallN, sizes, solutions, reads⟩ := multisig_shape matched
  rw [solutions] at checks
  obtain ⟨positiveM, positiveN, fewer, count⟩ := multisigChecks_counts checks
  obtain ⟨rangeM, -⟩ := decodeOP_N_small smallM positiveM
  obtain ⟨rangeN, most⟩ := decodeOP_N_small smallN positiveN
  rw [length_map] at count
  refine ⟨opM, opN, keys, solutions, reads, rangeM, rangeN, count.symm, ?_, by omega, sizes⟩
  rw [count]
  exact UInt8.le_iff_toNat_le.mp fewer

theorem signN_stored {keys : List (List UInt8)} {required : Nat} (scriptCode : CScript)
    (stored : ∀ key ∈ keys, Stored keystore key) (enough : required ≤ keys.length) :
    signN keystore sign scriptCode keys required = some ((keys.take required).map fun key => sign key scriptCode) := by
  induction keys generalizing required with
  | nil =>
    obtain rfl : required = 0 := Nat.le_zero.mp enough
    rfl
  | cons key rest ih =>
    cases required with
    | zero => rfl
    | succ required =>
      have later := ih (forall_mem_cons.mp stored).2 (Nat.le_of_succ_le_succ enough)
      rw [signN, (stored key mem_cons_self).createSig, elim_some, later]
      rfl

theorem watched_ne (script : CScript) : watched keystore script ≠ .spendable := by
  rw [watched]
  split <;> decide

/-- What the store holds for the solutions of a script that is spendable. -/
def Holds (keystore : CKeyStore checker.hash160) (turns : Nat) (solved : Solved) : Prop :=
  match solved.typeRet with
  | .nonStandard | .nullData => False
  | .pubKey => haveKey keystore (pubKeyID checker (firstSolution solved)) = true
  | .pubKeyHash => haveKey keystore (firstSolution solved) = true
  | .scriptHash => ∃ subscript, keystore.scripts (firstSolution solved) = some subscript ∧
      isMine keystore turns subscript = some .spendable
  | .multisig => ∀ pubKey ∈ multisigKeys solved, haveKey keystore (pubKeyID checker pubKey) = true

variable {turns : Nat}

theorem isMine_spendable (mine : isMine keystore turns script = some .spendable) :
    ∃ less solved, solver script = some solved ∧ solved.success = true ∧ Holds keystore less solved := by
  cases turns with
  | zero => cases mine
  | succ turns =>
    rw [isMine] at mine
    obtain ⟨solved, found, mine⟩ := bind_eq_some_iff.mp mine
    have unwatched : some (watched keystore script) ≠ some IsMineType.spendable := fun same =>
      watched_ne script (some.inj same)
    cases success : solved.success with
    | false =>
      rw [success, if_neg Bool.false_ne_true] at mine
      exact absurd mine unwatched
    | true =>
      rw [success, if_pos rfl] at mine
      refine ⟨turns, solved, found, success, ?_⟩
      have onlyKey {owned : Bool} {subscript : CScript} (mine : (if owned then some IsMineType.spendable
          else if watchesLong keystore script subscript then some .watchOnly else some (watched keystore script)) =
          some .spendable) : owned = true := by
        cases owned with
        | true => rfl
        | false =>
          rw [if_neg Bool.false_ne_true] at mine
          split at mine
          · cases mine
          · exact absurd mine unwatched
      rw [Holds]
      cases kind : solved.typeRet with
      | nonStandard | nullData =>
        rw [kind] at mine
        exact unwatched mine
      | pubKey | pubKeyHash =>
        rw [kind] at mine
        exact onlyKey mine
      | scriptHash =>
        rw [kind] at mine
        dsimp only at mine ⊢
        cases redeem : keystore.scripts (firstSolution solved) with
        | none =>
          rw [redeem] at mine
          dsimp only at mine
          split at mine
          · cases mine
          · exact absurd mine unwatched
        | some subscript =>
          rw [redeem] at mine
          obtain ⟨ret, inner, same⟩ := map_eq_some_iff.mp mine
          split at same
          · next spendable =>
            rw [spendable] at inner
            exact ⟨subscript, rfl, inner⟩
          · exact absurd same (watched_ne script)
      | multisig =>
        rw [kind] at mine
        dsimp only at mine ⊢
        split at mine
        · next all => exact all_eq_true.mp all
        · exact absurd mine unwatched

theorem signStep_template (signs : Signs keystore sign) (distinct : Distinct keystore sign)
    (size : script.length ≤ MAX_SCRIPT_SIZE) (plain : isReturnPush script = false) (bare : isPayToScriptHash script = false)
    (mine : isMine keystore turns script = some .spendable) :
    ∃ data, signStep keystore sign script = some (some (.pushes data)) ∧ (∀ item ∈ data, Pushable item) ∧ data.length ≤ 17 ∧
      Ends checker data.reverse script := by
  obtain ⟨less, solved, found, success, holds⟩ := isMine_spendable mine
  rw [signStep, found, map_some, if_pos success]
  rcases solver_template plain bare found success with ⟨kind, matched⟩ | ⟨kind, matched⟩ | ⟨kind, checks, matched⟩
  · obtain ⟨opcode, key, solutions, least, most, reads⟩ := pubKey_shape matched
    have first : firstSolution solved = key := by rw [firstSolution, solutions, headD_cons]
    rw [Holds, kind, first] at holds
    have stored := stored_of_haveKey distinct holds
    have fresh : ∀ op ∈ [(opcode, key), (OP_CHECKSIG, [])], op.2 ≠ sign key script := by
      have encoding := signs.encoding _ _ script stored.1
      intro op member
      rcases mem_cons.mp member with rfl | member
      · exact pubKey_ne_signature stored.valid encoding
      · rw [mem_singleton.mp member]
        exact (ne_nil_of_length_pos (Nat.lt_of_lt_of_le (by decide) (length_encoding encoding).1)).symm
    refine ⟨[sign key script], ?_, ?_, by simp, ?_⟩
    · rw [kind, first]
      dsimp only
      rw [stored.createSig]
      rfl
    · intro item member
      rw [mem_singleton.mp member]
      exact pushable_sign signs stored.1 script
    · exact ends_pubKey size reads least most (signed_of_stored signs stored.1 reads size fresh)
  · obtain ⟨opcode, hash, solutions, length, reads⟩ := pubKeyHash_shape matched
    have first : firstSolution solved = hash := by rw [firstSolution, solutions, headD_cons]
    rw [Holds, kind, first] at holds
    obtain ⟨pubKey, there⟩ := isSome_iff_exists.mp holds
    have fresh : ∀ op ∈ [(OP_DUP, []), (OP_HASH160, []), (opcode, hash), (OP_EQUALVERIFY, []), (OP_CHECKSIG, [])],
        op.2 ≠ sign pubKey script := by
      have encoding := signs.encoding _ _ script there
      have empty := (ne_nil_of_length_pos (Nat.lt_of_lt_of_le (by decide) (length_encoding encoding).1)).symm
      intro op member
      simp only [mem_cons, not_mem_nil, or_false] at member
      rcases member with rfl | rfl | rfl | rfl | rfl
      · exact empty
      · exact empty
      · exact (distinct.signature _ _ script there).symm
      · exact empty
      · exact empty
    refine ⟨[sign pubKey script, pubKey], ?_, ?_, by simp, ?_⟩
    · rw [kind, first]
      dsimp only
      rw [createSig, there]
      rfl
    · intro item member
      rcases mem_cons.mp member with rfl | member
      · exact pushable_sign signs there script
      · rw [mem_singleton.mp member]
        exact pushable_pubKey there
    · exact ends_pubKeyHash size reads length (keystore.pubKeys_hash _ _ there)
        (signed_of_stored signs there reads size fresh)
  · obtain ⟨opM, opN, keys, solutions, reads, rangeM, rangeN, count, fewer, most, sizes⟩ := multisig_ops checks matched
    have keysLength : (keys.map Prod.snd).length = keys.length := length_map _
    have required : (decodeOP_N opM.1).toNat ≤ (keys.map Prod.snd).length := by
      rw [keysLength]
      exact fewer
    have first : ((firstSolution solved).headD 0).toNat = (decodeOP_N opM.1).toNat := by
      rw [firstSolution, solutions]
      rfl
    have listed : multisigKeys solved = keys.map Prod.snd := by
      rw [multisigKeys, solutions, drop_succ_cons, drop_zero, dropLast_concat]
    rw [Holds, kind, listed] at holds
    have stored : ∀ key ∈ keys.map Prod.snd, Stored keystore key := fun key member => stored_of_haveKey distinct (holds key member)
    have fresh (key : List UInt8) (member : key ∈ keys.map Prod.snd) :
        ∀ op ∈ opM :: (keys ++ [opN, (OP_CHECKMULTISIG, [])]), op.2 ≠ sign key script := by
      have encoding := signs.encoding _ _ script (stored key member).1
      have empty := (ne_nil_of_length_pos (Nat.lt_of_lt_of_le (by decide) (length_encoding encoding).1)).symm
      have plainOp (op : UInt8 × List UInt8) (small : OP_1 ≤ op.1 ∧ op.1 ≤ OP_16)
          (inside : op ∈ opM :: (keys ++ [opN, (OP_CHECKMULTISIG, [])])) : op.2 ≠ sign key script := by
        intro same
        have isPush := reads.isPush inside (by rw [same]; exact empty.symm)
        exact absurd (UInt8.le_trans small.1 isPush) (by decide)
      intro op inside
      rcases mem_cons.mp inside with rfl | later
      · exact plainOp _ rangeM inside
      · rcases mem_append.mp later with isKey | later
        · exact pubKey_ne_signature (stored op.2 (mem_map_of_mem isKey)).valid encoding
        · rcases mem_cons.mp later with rfl | later
          · exact plainOp _ rangeN inside
          · rw [mem_singleton.mp later]
            exact empty
    have sigsLength : (((keys.map Prod.snd).take (decodeOP_N opM.1).toNat).map fun key => sign key script).length =
        (decodeOP_N opM.1).toNat := by
      rw [length_map, length_take, Nat.min_eq_left required]
    refine ⟨[] :: ((keys.map Prod.snd).take (decodeOP_N opM.1).toNat).map fun key => sign key script, ?_, ?_, ?_, ?_⟩
    · rw [kind]
      dsimp only
      rw [first, listed, signN_stored script stored required]
      rfl
    · intro item member
      rcases mem_cons.mp member with rfl | member
      · exact ⟨by decide, Nat.zero_le _⟩
      · obtain ⟨key, isKey, rfl⟩ := mem_map.mp member
        exact pushable_sign signs (stored key (mem_of_mem_take isKey)).1 script
    · rw [length_cons, sigsLength]
      omega
    · rw [reverse_cons]
      refine ends_multisig size reads rangeM rangeN sigsLength.symm count sizes (by omega)
        (by omega) (fun key member => (stored key member).valid) ?_
      intro i isSig isKey
      rw [getElem_map, getElem_take]
      have member := getElem_mem isKey
      exact signed_of_stored signs (stored _ member).1 reads size (fresh _ member)

/-- A script that is no data output and no script hash, and whose pushes are minimal. -/
def plainScript (script : CScript) : Bool :=
  !isReturnPush script && !CScript.isPayToScriptHash script && minimalPushes script

/-- The scripts among the spendable ones that can be signed: the plain ones, and the hashes of plain redeem scripts. -/
def signable (keystore : CKeyStore checker.hash160) (script : CScript) : Bool :=
  if CScript.isPayToScriptHash script then ((range script 2 20).bind keystore.scripts).any plainScript else plainScript script

theorem solver_return (data : isReturnPush script = true) (found : solver script = some solved) : solved.typeRet ≠ .multisig := by
  rw [solver, if_pos data] at found
  obtain ⟨long, -, found⟩ := bind_eq_some_iff.mp found
  split at found
  · obtain ⟨key?, there, same⟩ := map_eq_some_iff.mp found
    cases key? with
    | none =>
      rw [← same]
      decide
    | some key =>
      rw [← same]
      exact (getLongToPubKey_type there).2.1
  · rw [← some.inj found]
    decide

theorem signStep_return (signs : Signs keystore sign) (isData : isReturnPush script = true) {data : List (List UInt8)}
    (step : signStep keystore sign script = some (some (.pushes data))) :
    (∀ item ∈ data, Pushable item) ∧ data.length ≤ 2 := by
  rw [signStep] at step
  obtain ⟨solved, found, step⟩ := map_eq_some_iff.mp step
  have single := solver_return isData found
  split at step
  · split at step
    · cases step
    · cases step
    · obtain ⟨vchSig, created, same⟩ := map_eq_some_iff.mp step
      obtain ⟨pubKey, there, rfl⟩ := map_eq_some_iff.mp created
      obtain rfl : [sign pubKey script] = data := Step.pushes.inj same
      refine ⟨fun item member => ?_, by simp⟩
      rw [mem_singleton.mp member]
      exact pushable_sign signs there script
    · obtain ⟨vchSig, created, step⟩ := bind_eq_some_iff.mp step
      obtain ⟨pubKey, there, rfl⟩ := map_eq_some_iff.mp created
      obtain ⟨vch, thereToo, same⟩ := map_eq_some_iff.mp step
      obtain rfl : [sign pubKey script, vch] = data := Step.pushes.inj same
      refine ⟨fun item member => ?_, by simp⟩
      rcases mem_cons.mp member with rfl | member
      · exact pushable_sign signs there script
      · rw [mem_singleton.mp member]
        exact pushable_pubKey thereToo
    · obtain ⟨subscript, -, same⟩ := map_eq_some_iff.mp step
      cases same
    · next kind => exact absurd kind single
  · cases step

theorem solver_p2sh (plain : isReturnPush script = false) (p2sh : isPayToScriptHash script = true)
    (found : solver script = some solved) :
    ∃ hash, range script 2 20 = some hash ∧ solved = ⟨true, .scriptHash, [hash]⟩ := by
  rw [solver, plain, p2sh, if_neg Bool.false_ne_true, if_pos rfl] at found
  obtain ⟨hash, there, same⟩ := map_eq_some_iff.mp found
  exact ⟨hash, there, same.symm⟩

theorem p2sh_head (p2sh : isPayToScriptHash script = true) : script.head? = some OP_HASH160 := by
  simp only [isPayToScriptHash, Bool.and_eq_true, beq_iff_eq] at p2sh
  rw [head?_eq_getElem?]
  exact p2sh.1.1.2

theorem p2sh_plain (p2sh : isPayToScriptHash script = true) : isReturnPush script = false := by
  rw [isReturnPush, p2sh_head p2sh]
  rfl

theorem produceSignature_p2sh (signs : Signs keystore sign) (distinct : Distinct keystore sign)
    (p2sh : isPayToScriptHash script = true) (mine : isMine keystore turns script = some .spendable) :
    produceSignature keystore sign script = some (signable keystore script) := by
  obtain ⟨less, solved, found, -, holds⟩ := isMine_spendable mine
  obtain ⟨hash, there, rfl⟩ := solver_p2sh (p2sh_plain p2sh) p2sh found
  obtain ⟨redeem, stored, redeemMine⟩ := holds
  replace stored : keystore.scripts hash = some redeem := stored
  have hashed : range script 2 20 = some (checker.hash160 redeem) := by rw [keystore.scripts_hash _ _ stored, there]
  have step : signStep keystore sign script = some (some (.redeem redeem)) := by
    rw [signStep, found, map_some, if_pos rfl]
    change some (Option.map Step.redeem (keystore.scripts hash)) = _
    rw [stored]
    rfl
  have condition : signable keystore script = plainScript redeem := by
    rw [signable, if_pos p2sh, there, bind_some, stored, any_some]
  have pushRedeem (small : Pushable redeem) {data : List (List UInt8)} (pushable : ∀ item ∈ data, Pushable item)
      (few : data.length ≤ 17) : Solves checker (data ++ [redeem]) := by
    refine solves_of_pushable (fun item member => ?_) (by rw [length_append, length_singleton]; omega)
    rcases mem_append.mp member with inside | last
    · exact pushable item inside
    · rw [mem_singleton.mp last]
      exact small
  obtain ⟨lessRedeem, solvedRedeem, foundRedeem, success, holdsRedeem⟩ := isMine_spendable redeemMine
  rw [produceSignature, step, bind_some, condition, plainScript]
  dsimp only
  cases isData : isReturnPush redeem with
  | true =>
    cases made : signStep keystore sign redeem with
    | none =>
      rw [signStep, foundRedeem] at made
      cases made
    | some answer =>
      rcases answer with _ | (data | subscript)
      · rfl
      · obtain ⟨pushable, few⟩ := signStep_return signs isData made
        obtain ⟨pc, rfl, -⟩ := isReturnPush_cases isData
        have small : Pushable (OP_RETURN :: pc) := by
          refine ⟨fun single => ?_, keystore.scripts_size _ _ stored⟩
          obtain rfl : pc = [] := by
            rw [length_cons] at single
            exact length_eq_zero_iff.mp (by omega)
          rw [show solver [OP_RETURN] = none by decide] at foundRedeem
          cases foundRedeem
        rw [map_some]
        dsimp only
        rw [verifies_p2sh_return (pushRedeem small pushable (by omega)) (by omega) p2sh hashed]
        rfl
      · rfl
  | false =>
    cases nested : isPayToScriptHash redeem with
    | true =>
      obtain ⟨hash', -, rfl⟩ := solver_p2sh isData nested foundRedeem
      have again : signStep keystore sign redeem = some ((keystore.scripts hash').map Step.redeem) := by
        rw [signStep, foundRedeem, map_some, if_pos rfl]
        rfl
      rw [again, map_some]
      cases keystore.scripts hash' <;> rfl
    | false =>
      have most : MAX_SCRIPT_REDEEM_SIZE ≤ MAX_SCRIPT_SIZE := by decide
      have size := keystore.scripts_size _ _ stored
      obtain ⟨data, made, pushable, few, ends⟩ :=
        signStep_template signs distinct (Nat.le_trans size most) isData nested redeemMine
      have small : Pushable redeem := ⟨length_template isData nested foundRedeem success, size⟩
      rw [made, map_some]
      dsimp only
      rw [verifies_p2sh (pushRedeem small pushable few) (by omega) p2sh hashed ends]
      rfl

theorem produceSignature_template (signs : Signs keystore sign) (distinct : Distinct keystore sign)
    (size : script.length ≤ MAX_SCRIPT_SIZE) (plain : isReturnPush script = false) (bare : isPayToScriptHash script = false)
    (mine : isMine keystore turns script = some .spendable) :
    produceSignature keystore sign script = some (minimalPushes script) := by
  obtain ⟨data, made, pushable, few, ends⟩ := signStep_template signs distinct size plain bare mine
  rw [produceSignature, made, bind_some]
  dsimp only
  rw [verifies_bare (solves_of_pushable pushable (by omega)) bare ends]

theorem produceSignature_return (pc : CScript) : produceSignature keystore sign (OP_RETURN :: pc) ≠ some true := by
  intro signed
  rw [produceSignature] at signed
  obtain ⟨step, -, signed⟩ := bind_eq_some_iff.mp signed
  match step, signed with
  | none, signed => cases some.inj signed
  | some (.pushes data), signed =>
    have verified : verifies checker (pushAll data) (OP_RETURN :: pc) = true := some.inj signed
    rw [verifies_return] at verified
    cases verified
  | some (.redeem subscript), signed =>
    obtain ⟨solved, -, verified⟩ := map_eq_some_iff.mp signed
    split at verified
    · rw [verifies_return] at verified
      cases verified
    · cases verified

/-- What the wallet calls spendable is signed just when it is no data output, its pushes and those of its redeem
script are minimal, and its redeem script is neither a data output nor a script hash. -/
theorem produceSignature_iff (signs : Signs keystore sign) (distinct : Distinct keystore sign) {scriptPubKey : CScript}
    (size : scriptPubKey.length ≤ MAX_SCRIPT_SIZE) (mine : isMine keystore turns scriptPubKey = some .spendable) :
    produceSignature keystore sign scriptPubKey = some true ↔ signable keystore scriptPubKey = true := by
  cases p2sh : isPayToScriptHash scriptPubKey with
  | true => rw [produceSignature_p2sh signs distinct p2sh mine, some.injEq]
  | false =>
    rw [signable, p2sh, if_neg Bool.false_ne_true, plainScript, p2sh]
    cases isData : isReturnPush scriptPubKey with
    | true =>
      obtain ⟨pc, rfl, -⟩ := isReturnPush_cases isData
      exact ⟨fun signed => absurd signed (produceSignature_return pc), nofun⟩
    | false =>
      rw [produceSignature_template signs distinct size isData p2sh mine, some.injEq]
      rfl

theorem signed_spendable {scriptPubKey : CScript} (signed : produceSignature keystore sign scriptPubKey = some true) :
    isUnspendable scriptPubKey = false := by
  by_contra unspendable
  rw [Bool.not_eq_false, isUnspendable, beq_iff_eq] at unspendable
  cases scriptPubKey with
  | nil => cases unspendable
  | cons opcode pc =>
    obtain rfl : opcode = OP_RETURN := some.inj unspendable
    exact produceSignature_return pc signed

/-- What the wallet calls spendable can be spent just when it is signable. -/
theorem spendable_iff (signs : Signs keystore sign) (distinct : Distinct keystore sign) {turns : Nat}
    {scriptPubKey : CScript} (size : scriptPubKey.length ≤ MAX_SCRIPT_SIZE)
    (mine : isMine keystore turns scriptPubKey = some .spendable) :
    (produceSignature keystore sign scriptPubKey = some true ∧ isUnspendable scriptPubKey = false) ↔
      signable keystore scriptPubKey = true := by
  rw [← produceSignature_iff signs distinct size mine]
  exact and_iff_left_of_imp signed_spendable

def storedKey : List UInt8 := 2 :: List.replicate 32 7

def storedID : List UInt8 := List.replicate 20 1

/-- `<key> OP_CHECKSIG`, kept as a redeem script too. -/
def storedScript : CScript := getScriptForRawPubKey storedKey

def storedScriptID : List UInt8 := List.replicate 20 2

/-- The shortest signature in strict DER, with `SIGHASH_ALL`. -/
def storedSig : List UInt8 := [0x30, 0x06, 0x02, 0x01, 0x01, 0x02, 0x01, 0x01, 0x01]

def storedHash (vch : List UInt8) : List UInt8 :=
  if vch = storedKey then storedID else if vch = storedScript then storedScriptID else []

def storedChecker : Checker where
  ripemd160 := id
  sha1 := id
  sha256 := id
  hash160 := storedHash
  hash256 := id
  checkLowS _ := true
  checkSig vchSig vchPubKey _ := vchSig == storedSig && vchPubKey == storedKey
  checkLockTime _ := true
  checkSequence _ := true

def oneKey : CKeyStore storedChecker.hash160 where
  pubKeys id := if id = storedID then some storedKey else none
  scripts id := if id = storedScriptID then some storedScript else none
  watchOnly _ := false
  pubKeys_hash id pubKey found := by
    split at found
    · next same =>
      rw [← Option.some.inj found, same]
      rfl
    · exact absurd found.symm (Option.some_ne_none _)
  pubKeys_encoding id pubKey found := by
    split at found
    · rw [← Option.some.inj found]
      rfl
    · exact absurd found.symm (Option.some_ne_none _)
  scripts_hash id script found := by
    split at found
    · next same =>
      rw [← Option.some.inj found, same]
      decide
    · exact absurd found.symm (Option.some_ne_none _)
  scripts_size id script found := by
    split at found
    · rw [← Option.some.inj found]
      decide
    · exact absurd found.symm (Option.some_ne_none _)

def signOne : Signer := fun _ _ => storedSig

theorem oneKey_only {id pubKey : List UInt8} (found : oneKey.pubKeys id = some pubKey) : id = storedID ∧ pubKey = storedKey := by
  change (if id = storedID then some storedKey else none) = some pubKey at found
  split at found
  · next same => exact ⟨same, (some.inj found).symm⟩
  · cases found

theorem oneKey_signs : Signs oneKey signOne where
  encoding _ _ _ _ := show isValidSignatureEncoding storedSig = true by decide
  lowS _ _ _ _ := rfl
  hashType _ _ _ _ := show storedSig.getLast? = some 1 by decide
  verifies id pubKey scriptCode found := by
    rw [(oneKey_only found).2]
    rfl

theorem oneKey_distinct : Distinct oneKey signOne where
  preimage id pubKey vch found hashed := by
    obtain ⟨rfl, rfl⟩ := oneKey_only found
    change storedHash vch = storedID at hashed
    rw [storedHash] at hashed
    split at hashed
    · assumption
    · split at hashed
      · cases hashed
      · cases hashed
  signature id pubKey scriptCode found := by
    rw [(oneKey_only found).1]
    exact show storedSig ≠ storedID by decide

/-- A key's script and its script hash are signed. -/
theorem spendable_iff_oneKey : produceSignature oneKey signOne storedScript = some true ∧
      produceSignature oneKey signOne (getScriptForScriptID storedScriptID) = some true :=
  ⟨((spendable_iff oneKey_signs oneKey_distinct (by decide) (show isMine oneKey 2 storedScript = some .spendable by decide)).mpr
      (by decide)).1,
    ((spendable_iff oneKey_signs oneKey_distinct (by decide)
      (show isMine oneKey 2 (getScriptForScriptID storedScriptID) = some .spendable by decide)).mpr (by decide)).1⟩

/-- LONG data of one byte for the stored key, in a data output. -/
def dataForKey : CScript :=
  OP_RETURN :: pushData (longBytes ++ [1, OP_TO, 0xfd] ++ storedID ++ [1, 0x61])

/-- The wallet calls a data output for its own key spendable, which no signature spends and the unspent outputs drop. -/
theorem data_spendable : isMine oneKey 2 dataForKey = some .spendable ∧ produceSignature oneKey signOne dataForKey = some false ∧
    isUnspendable dataForKey = true ∧ ¬ ∀ (turns : Nat) (scriptPubKey : CScript), scriptPubKey.length ≤ MAX_SCRIPT_SIZE →
      isMine oneKey turns scriptPubKey = some .spendable →
      produceSignature oneKey signOne scriptPubKey = some true ∧ isUnspendable scriptPubKey = false := by
  have mine : isMine oneKey 2 dataForKey = some .spendable := by decide
  have dropped : isUnspendable dataForKey = true := by decide
  refine ⟨mine, by decide, dropped, fun every => ?_⟩
  have kept := (every 2 dataForKey (by decide) mine).2
  rw [dropped] at kept
  cases kept

end Longcoin.Sign
