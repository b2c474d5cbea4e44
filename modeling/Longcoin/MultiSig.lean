import Longcoin.SignatureCalls
import Longcoin.Library.Matching

/-! `OP_CHECKMULTISIG` decides whether the signatures match the keys in order. -/

namespace Longcoin.Interpreter
open Primitives Script Library.Outcome Library.Matching List

/-- The counts on the stack: `nKeysCount` on the top, `nSigsCount` below the keys. -/
structure Counts (flags : Nat) (stack : Stack) (nKeysCount nSigsCount : Nat) : Prop where
  keys : countAt flags stack 1 MAX_PUBKEYS_PER_MULTISIG .PUBKEY_COUNT = .ok nKeysCount
  sigs : countAt flags stack (2 + nKeysCount) nKeysCount .SIG_COUNT = .ok nSigsCount

def keysOf (stack : Stack) (nKeysCount : Nat) : List (List UInt8) := (stack.drop 1).take nKeysCount

def sigsOf (stack : Stack) (nKeysCount nSigsCount : Nat) : List (List UInt8) := (stack.drop (2 + nKeysCount)).take nSigsCount

/-- The script that is signed: no signature is part of it. -/
def multiSigCode (script : CScript) (sigs : List (List UInt8)) : CScript :=
  sigs.foldl (fun scriptCode vchSig => findAndDelete scriptCode (pushData vchSig)) script

/-- Every signature and key passes the checks of its encoding. -/
structure Encoded (checker : Checker) (flags : Nat) (keys sigs : List (List UInt8)) : Prop where
  sigs : ∀ vchSig ∈ sigs, checkSignatureEncoding checker vchSig flags = .ok ()
  keys : ∀ vchPubKey ∈ keys, checkPubKeyEncoding vchPubKey flags = .ok ()

variable {checker : Checker} {flags : Nat}

variable {stack : Stack}

theorem stacktop_of_prefix {rest : Stack} {vch : List UInt8} {i : Nat} (there : vch :: rest <+: stack.drop i) :
    stacktop stack (i + 1) = .ok vch ∧ rest <+: stack.drop (i + 1) := by
  obtain ⟨below, whole⟩ := there
  have found : stack[i]? = some vch := by
    rw [← Nat.add_zero i, ← getElem?_drop, ← whole]
    rfl
  constructor
  · unfold stacktop
    rw [if_neg (by omega), Nat.add_sub_cancel, found]
    rfl
  · rw [← drop_drop, ← whole]
    exact prefix_append _ _

theorem dropSignatures_eq (sigs : List (List UInt8)) : ∀ (i : Nat) (script : CScript), sigs <+: stack.drop i →
    (range' (i + 1) sigs.length).foldlM (dropSignature stack) script = .ok (multiSigCode script sigs) := by
  induction sigs with
  | nil => exact fun _ _ _ => rfl
  | cons vchSig sigs ih =>
    intro i script there
    obtain ⟨read, rest⟩ := stacktop_of_prefix there
    rw [length_cons, range'_succ, foldlM_cons, dropSignature, read]
    exact ih (i + 1) (findAndDelete script (pushData vchSig)) rest

theorem checkSigs_eq_greedy {scriptCode : CScript} (keys : List (List UInt8)) :
    ∀ (sigs : List (List UInt8)) (i j : Nat), Encoded checker flags keys sigs → sigs <+: stack.drop i →
      keys <+: stack.drop j → sigs.length ≤ keys.length →
      checkSigs checker flags scriptCode stack keys.length sigs.length (i + 1) (j + 1) =
        .ok (greedy (fun vchSig vchPubKey => checker.checkSig vchSig vchPubKey scriptCode) keys sigs) := by
  induction keys with
  | nil =>
    intro sigs i j _ _ _ fewer
    obtain rfl : sigs = [] := length_eq_zero_iff.mp (Nat.le_zero.mp fewer)
    rfl
  | cons vchPubKey keys ih =>
    intro sigs i j encoded sigsThere keysThere fewer
    cases sigs with
    | nil => rfl
    | cons vchSig sigs =>
      obtain ⟨readSig, sigsRest⟩ := stacktop_of_prefix sigsThere
      obtain ⟨readKey, keysRest⟩ := stacktop_of_prefix keysThere
      have sigEncoded := encoded.sigs vchSig mem_cons_self
      have keyEncoded := encoded.keys vchPubKey mem_cons_self
      have otherKeys : ∀ other ∈ keys, checkPubKeyEncoding other flags = .ok () :=
        (forall_mem_cons.mp encoded.keys).2
      simp only [length_cons] at fewer ⊢
      unfold checkSigs greedy
      simp only [readSig, readKey, sigEncoded, keyEncoded, ok_bind]
      cases checker.checkSig vchSig vchPubKey scriptCode with
      | true =>
        simp only [if_true]
        rw [if_neg (by omega)]
        have otherSigs : ∀ other ∈ sigs, checkSignatureEncoding checker other flags = .ok () :=
          (forall_mem_cons.mp encoded.sigs).2
        exact ih sigs (i + 1) (j + 1) ⟨otherSigs, otherKeys⟩ sigsRest keysRest (by omega)
      | false =>
        simp only [if_false, Bool.false_eq_true]
        split
        · next tooMany => rw [greedy_short (by simpa using tooMany)]
        · next enough => exact ih (vchSig :: sigs) i (j + 1) ⟨encoded.sigs, otherKeys⟩ sigsThere keysRest (by simpa using enough)

theorem length_checkSigsCalls (scriptCode : CScript) (stack : Stack) (nKeysCount : Nat) : ∀ nSigsCount isig ikey,
    (checkSigsCalls checker flags scriptCode stack nKeysCount nSigsCount isig ikey).length ≤ nKeysCount := by
  induction nKeysCount with
  | zero =>
    intro nSigsCount isig ikey
    cases nSigsCount <;> exact Nat.le_refl _
  | succ nKeysCount ih =>
    intro nSigsCount isig ikey
    cases nSigsCount with
    | zero => exact Nat.zero_le _
    | succ nSigsCount =>
      have next (left i : Nat) : (if left > nKeysCount then []
          else checkSigsCalls checker flags scriptCode stack nKeysCount left i (ikey + 1)).length ≤ nKeysCount := by
        by_cases tooMany : left > nKeysCount
        · rw [if_pos tooMany]
          exact Nat.zero_le _
        · rw [if_neg tooMany]
          exact ih left i (ikey + 1)
      unfold checkSigsCalls
      cases stacktop stack isig with
      | error stop => exact Nat.zero_le _
      | ok vchSig =>
        cases stacktop stack ikey with
        | error stop => exact Nat.zero_le _
        | ok vchPubKey =>
          simp only [callsAfter]
          cases checkSignatureEncoding checker vchSig flags with
          | error stop => exact Nat.zero_le _
          | ok _ =>
            cases checkPubKeyEncoding vchPubKey flags with
            | error stop => exact Nat.zero_le _
            | ok _ =>
              simp only [length_cons]
              apply Nat.succ_le_succ
              split
              · exact next nSigsCount (isig + 1)
              · exact next (nSigsCount + 1) isig

theorem callsAfter_length {α : Type} {first : Except Stop α} {next : α → List SigCall} {bound : Nat}
    (few : ∀ result, first = .ok result → (next result).length ≤ bound) : (callsAfter first next).length ≤ bound := by
  cases first with
  | error stop => exact Nat.zero_le _
  | ok result => exact few result rfl

theorem length_opCheckMultiSigCalls {script : CScript} {nOpCount bound : Nat}
    (few : ∀ nKeysCount, countAt flags stack 1 MAX_PUBKEYS_PER_MULTISIG .PUBKEY_COUNT = .ok nKeysCount → nKeysCount ≤ bound) :
    (opCheckMultiSigCalls checker flags script nOpCount stack).length ≤ bound := by
  apply callsAfter_length; intro nKeysCount counted
  apply callsAfter_length; intro _ _
  apply callsAfter_length; intro nSigsCount _
  apply callsAfter_length; intro _ _
  apply callsAfter_length; intro scriptCode _
  exact Nat.le_trans (length_checkSigsCalls scriptCode stack nKeysCount nSigsCount _ _) (few nKeysCount counted)

theorem counts_of_ok {script : CScript} {isVerify : Bool} {nOpCount : Nat} {result : Stack × Nat}
    (done : opCheckMultiSig checker flags script isVerify nOpCount stack = .ok result) :
    ∃ nKeysCount nSigsCount, Counts flags stack nKeysCount nSigsCount ∧ nSigsCount + nKeysCount + 3 ≤ stack.length := by
  unfold opCheckMultiSig check at done
  obtain ⟨nKeysCount, keys, done⟩ := bind_ok.mp done
  obtain ⟨-, done⟩ := require_bind_ok.mp done
  obtain ⟨nSigsCount, sigs, done⟩ := bind_ok.mp done
  obtain ⟨enough, -⟩ := require_bind_ok.mp done
  have room : 3 + nKeysCount + nSigsCount ≤ stack.length := of_decide_eq_true enough
  exact ⟨nKeysCount, nSigsCount, ⟨keys, sigs⟩, by omega⟩

variable {nKeysCount : Nat}

theorem length_keysOf (room : nKeysCount + 1 ≤ stack.length) :
    (keysOf stack nKeysCount).length = nKeysCount := by
  unfold keysOf
  rw [length_take, length_drop]
  omega

theorem length_sigsOf {nSigsCount : Nat} (room : nSigsCount + nKeysCount + 2 ≤ stack.length) :
    (sigsOf stack nKeysCount nSigsCount).length = nSigsCount := by
  unfold sigsOf
  rw [length_take, length_drop]
  omega

theorem opCheckMultiSig_eq {script : CScript} {nOpCount nSigsCount : Nat} (counts : Counts flags stack nKeysCount nSigsCount)
    (room : nSigsCount + nKeysCount + 3 ≤ stack.length)
    (encoded : Encoded checker flags (keysOf stack nKeysCount) (sigsOf stack nKeysCount nSigsCount)) (isVerify : Bool) :
    opCheckMultiSig checker flags script isVerify nOpCount stack = (do
      check (nOpCount + nKeysCount ≤ MAX_OPS_PER_SCRIPT) .OP_COUNT
      check (!has flags SCRIPT_VERIFY_NULLDUMMY || (entry stack (nSigsCount + nKeysCount + 3)).isEmpty) .SIG_NULLDUMMY
      let fSuccess := greedy (fun vchSig vchPubKey => checker.checkSig vchSig vchPubKey
        (multiSigCode script (sigsOf stack nKeysCount nSigsCount))) (keysOf stack nKeysCount) (sigsOf stack nKeysCount nSigsCount)
      if isVerify then do
        check fSuccess .CHECKMULTISIGVERIFY
        return (stack.drop (nSigsCount + nKeysCount + 3), nOpCount + nKeysCount)
      else return (vchBool fSuccess :: stack.drop (nSigsCount + nKeysCount + 3), nOpCount + nKeysCount)) := by
  have fewer : nSigsCount ≤ nKeysCount := (countAt_ok counts.sigs).2
  have keysLength := length_keysOf (show nKeysCount + 1 ≤ stack.length by omega)
  have sigsLength := length_sigsOf (show nSigsCount + nKeysCount + 2 ≤ stack.length by omega)
  have keysThere : keysOf stack nKeysCount <+: stack.drop 1 := take_prefix _ _
  have sigsThere : sigsOf stack nKeysCount nSigsCount <+: stack.drop (2 + nKeysCount) := take_prefix _ _
  have code := dropSignatures_eq _ _ script sigsThere
  have loop := @checkSigs_eq_greedy checker flags stack (multiSigCode script (sigsOf stack nKeysCount nSigsCount)) _ _ _ _
    encoded sigsThere keysThere (by omega)
  have place : 2 + nKeysCount + 1 = 3 + nKeysCount := by omega
  rw [sigsLength, place] at code
  rw [sigsLength, keysLength, place] at loop
  have arguments : check (3 + nKeysCount + nSigsCount ≤ stack.length) .INVALID_STACK_OPERATION = .ok () := by
    rw [check, require, decide_eq_true (by omega), if_pos rfl]
  have popped := popMany_eq (show 2 + nKeysCount + nSigsCount ≤ stack.length by omega)
  have left : 1 ≤ (stack.drop (2 + nKeysCount + nSigsCount)).length := by
    rw [length_drop]
    omega
  have dummyThere : check (1 ≤ (stack.drop (2 + nKeysCount + nSigsCount)).length) .INVALID_STACK_OPERATION = .ok () := by
    rw [check, require, decide_eq_true left, if_pos rfl]
  have dummy : entry (stack.drop (2 + nKeysCount + nSigsCount)) 1 = entry stack (nSigsCount + nKeysCount + 3) := by
    have index : 2 + nKeysCount + nSigsCount + (1 - 1) = nSigsCount + nKeysCount + 3 - 1 := by omega
    unfold entry
    rw [getD_eq_getElem?_getD, getD_eq_getElem?_getD, getElem?_drop, index]
  have rest : (stack.drop (2 + nKeysCount + nSigsCount)).drop 1 = stack.drop (nSigsCount + nKeysCount + 3) := by
    rw [drop_drop]
    congr 1
    omega
  unfold opCheckMultiSig
  rw [counts.keys, ok_bind]
  -- what follows the limit on the operations is the same on both sides
  apply congrArg (check (nOpCount + nKeysCount ≤ MAX_OPS_PER_SCRIPT) .OP_COUNT >>= ·)
  funext _
  rw [counts.sigs, ok_bind]
  dsimp only
  rw [arguments, ok_bind, code, ok_bind, loop, ok_bind, popped, ok_bind,
    dummyThere, ok_bind, stacktop_eq (by decide) left, ok_bind, dummy, popstack_eq left, ok_bind, rest]

/-- `OP_CHECKMULTISIG` reads nothing below the stack, and fails when an argument is missing. With the counts it finds it
calls the checker at most once for each key. Where the encodings pass and no limit is in the way it takes `m + n + 3`
entries, and pushes true just when the signatures have keys that accept them, in the order of the stack. -/
theorem checkMultiSig_decides_matching (checker : Checker) (flags : Nat) (script : CScript) (nOpCount : Nat) (stack : Stack) :
    Guarded (opCheckMultiSig checker flags script false nOpCount stack) ∧
    (∀ result, opCheckMultiSig checker flags script false nOpCount stack = .ok result →
      ∃ n m, Counts flags stack n m ∧ m + n + 3 ≤ stack.length) ∧ ∀ n m, Counts flags stack n m → m ≤ n ∧ n ≤ 20 ∧
      (opCheckMultiSigCalls checker flags script nOpCount stack).length ≤ n ∧
      (m + n + 3 ≤ stack.length → Encoded checker flags (keysOf stack n) (sigsOf stack n m) →
        ((∃ result, opCheckMultiSig checker flags script false nOpCount stack = .ok result) ↔
          nOpCount + n ≤ MAX_OPS_PER_SCRIPT ∧ (has flags SCRIPT_VERIFY_NULLDUMMY = true → entry stack (m + n + 3) = [])) ∧
        ∀ result, opCheckMultiSig checker flags script false nOpCount stack = .ok result →
          ∃ value, result = (vchBool value :: stack.drop (m + n + 3), nOpCount + n) ∧
            (value = true ↔ ∃ assign : Fin (sigsOf stack n m).length → Fin (keysOf stack n).length, StrictMono assign ∧
              ∀ i, checker.checkSig (sigsOf stack n m)[i] (keysOf stack n)[assign i]
                (multiSigCode script (sigsOf stack n m)) = true)) := by
  refine ⟨opCheckMultiSig_guarded checker flags script false nOpCount stack, fun result done => counts_of_ok done, ?_⟩
  intro n m counts
  refine ⟨(countAt_ok counts.sigs).2, (countAt_ok counts.keys).2, ?_, ?_⟩
  · apply length_opCheckMultiSigCalls
    intro nKeysCount counted
    rw [counts.keys, Except.ok.injEq] at counted
    rw [counted]
  · intro room encoded
    rw [opCheckMultiSig_eq counts room encoded]
    unfold check
    constructor
    · constructor
      · intro done
        obtain ⟨result, done⟩ := done
        obtain ⟨limit, done⟩ := require_bind_ok.mp done
        obtain ⟨dummy, -⟩ := require_bind_ok.mp done
        refine ⟨of_decide_eq_true limit, fun asked => ?_⟩
        simpa [asked] using dummy
      · intro conditions
        obtain ⟨limit, dummy⟩ := conditions
        have empty : (!has flags SCRIPT_VERIFY_NULLDUMMY || (entry stack (m + n + 3)).isEmpty) = true := by
          cases asked : has flags SCRIPT_VERIFY_NULLDUMMY with
          | false => rfl
          | true => simp [dummy asked]
        exact ⟨_, require_bind_ok.mpr ⟨decide_eq_true limit, require_bind_ok.mpr ⟨empty, rfl⟩⟩⟩
    · intro result done
      obtain ⟨-, done⟩ := require_bind_ok.mp done
      obtain ⟨-, done⟩ := require_bind_ok.mp done
      rw [if_neg Bool.false_ne_true, pure_ok] at done
      exact ⟨_, done.symm, by rw [greedy_iff, matches_iff_strictMono]⟩

/-- Two signatures for the first and the last of three keys, under the strictest flags. -/
def orderedStack : Stack := [[3], [3, 1], [2, 1], [1, 1], [2], [3], [1], []]

def firstByteChecker : Checker := sampleChecker.answering fun vchSig vchPubKey _ => vchSig.head? == vchPubKey.head?

theorem checkMultiSig_decides_matching_ordered :
    ∃ result, opCheckMultiSig firstByteChecker SCRIPT_VERIFY_NULLDUMMY [] false 0 orderedStack = .ok result := by
  have counts : Counts SCRIPT_VERIFY_NULLDUMMY orderedStack 3 2 := ⟨rfl, rfl⟩
  obtain ⟨-, -, decides⟩ := checkMultiSig_decides_matching firstByteChecker SCRIPT_VERIFY_NULLDUMMY [] 0 orderedStack
  have room : 2 + 3 + 3 ≤ orderedStack.length := by decide
  have encoded : Encoded firstByteChecker SCRIPT_VERIFY_NULLDUMMY (keysOf orderedStack 3) (sigsOf orderedStack 3 2) :=
    ⟨fun _ _ => by unfold checkSignatureEncoding; split <;> rfl, fun _ _ => rfl⟩
  exact ((decides 3 2 counts).2.2.2 room encoded).1.mpr ⟨by decide, fun _ => rfl⟩

end Longcoin.Interpreter
