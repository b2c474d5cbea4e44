import Longcoin.Library.ByteStore
import Longcoin.Spendable

/-! `CombineSignatures` (`script/sign.cpp`): two partial inputs of a multisignature script as one. -/

namespace Longcoin.Sign
open Primitives Script LongData Standard Interpreter Library.ByteStore List Option Function Bool

def baseSignatureChecker (checker : Checker) : Checker :=
  { checker with checkSig := fun _ _ _ => false, checkLockTime := fun _ => false, checkSequence := fun _ => false }

/-- The stack at the end of the loop of `EvalScript`, also where it fails. The script is one of pushes: those change nothing
before they fail, and the limit of the stack comes after the push. -/
def leftTurns (checker : Checker) (flags : Nat) : Nat → CScript → EvalState → Stack
  | 0, _, st => st.stack
  | turns + 1, pc, st =>
    if pc.isEmpty then st.stack
    else
      (getOp pc).elim st.stack fun op =>
        match evalStep checker flags op.1 op.2.1 op.2.2 st with
        | .ok st => leftTurns checker flags turns op.2.2 st
        | .error (.error .STACK_SIZE) =>
          match execOp checker flags op.1 op.2.1 op.2.2 st with
          | .ok st => st.stack
          | .error _ => st.stack
        | .error _ => st.stack

/-- What `EvalScript` of a script of pushes leaves on an empty stack; its result is not looked at. -/
def stackLeft (checker : Checker) (scriptSig : CScript) : Stack :=
  if scriptSig.length ≤ MAX_SCRIPT_SIZE then
    leftTurns (baseSignatureChecker checker) SCRIPT_VERIFY_STRICTENC scriptSig.length scriptSig (.start [] scriptSig)
  else []

/-- `set::insert`, in the order of the bytes. -/
def insertSig (sig : List UInt8) : List (List UInt8) → List (List UInt8)
  | [] => [sig]
  | first :: rest =>
    if before sig first then sig :: first :: rest
    else if sig = first then first :: rest
    else first :: insertSig sig rest

def addSig (allsigs : List (List UInt8)) (v : List UInt8) : List (List UInt8) := if v.isEmpty then allsigs else insertSig v allsigs

/-- `allsigs`: all that are not empty. -/
def allSigs (sigs1 sigs2 : List (List UInt8)) : List (List UInt8) := (sigs1 ++ sigs2).foldl addSig []

/-- The signature goes to the first key that has none yet and accepts it. -/
def matchSig (checker : Checker) (scriptPubKey : CScript) (pubKeys : List (List UInt8))
    (sigs : List UInt8 → Option (List UInt8)) (sig : List UInt8) : List UInt8 → Option (List UInt8) :=
  (pubKeys.find? fun pubkey => (sigs pubkey).isNone && checker.checkSig sig pubkey scriptPubKey).elim sigs fun pubkey =>
    Function.update sigs pubkey (some sig)

def sigsByKey (checker : Checker) (scriptPubKey : CScript) (pubKeys allsigs : List (List UInt8)) :
    List UInt8 → Option (List UInt8) :=
  allsigs.foldl (matchSig checker scriptPubKey pubKeys) fun _ => none

/-- The signatures of the first keys that have one, and `OP_0` for those that are missing. -/
def mergeSigs (pubKeys : List (List UInt8)) (sigs : List UInt8 → Option (List UInt8)) (nSigsRequired : Nat) : CScript :=
  let found := (pubKeys.filterMap sigs).take nSigsRequired
  OP_0 :: (pushAll found ++ List.replicate (nSigsRequired - found.length) OP_0)

/-- Nothing when the assertion fails or a read is out of range. -/
def combineMultisig (checker : Checker) (scriptPubKey : CScript) (vSolutions sigs1 sigs2 : List (List UInt8)) : Option CScript :=
  if vSolutions.length ≤ 1 then none
  else (vSolutions.head?.bind fun front => front[0]?).map fun nSigsRequired =>
    let pubKeys := (vSolutions.drop 1).dropLast
    mergeSigs pubKeys (sigsByKey checker scriptPubKey pubKeys (allSigs sigs1 sigs2)) nSigsRequired.toNat

def pushStack (stack : Stack) : CScript := pushAll stack.reverse

def combineStacks (checker : Checker) : Stack → Stack → CScript → TxnOutType → List (List UInt8) → Option CScript
  | sigs1, sigs2, scriptPubKey, txType, vSolutions =>
    match txType with
    | .nonStandard | .nullData => some (if sigs1.length ≥ sigs2.length then pushStack sigs1 else pushStack sigs2)
    | .pubKey | .pubKeyHash => some (if (sigs1.getLast?.getD []).isEmpty then pushStack sigs2 else pushStack sigs1)
    | .scriptHash =>
      match sigs1, sigs2 with
      | [], sigs2 => some (pushStack sigs2)
      | spk :: rest1, sigs2 =>
        if spk.isEmpty then some (pushStack sigs2)
        else if (sigs2.headD []).isEmpty then some (pushStack (spk :: rest1))
        else
          (solver spk).bind fun solved =>
            (combineStacks checker rest1 (sigs2.drop 1) spk solved.typeRet solved.vSolutionsRet).map (· ++ pushData spk)
    | .multisig => combineMultisig checker scriptPubKey vSolutions sigs1.reverse sigs2.reverse

def combineSignatures (checker : Checker) (scriptPubKey scriptSig1 scriptSig2 : CScript) : Option CScript :=
  (solver scriptPubKey).bind fun solved =>
    combineStacks checker (stackLeft checker scriptSig1) (stackLeft checker scriptSig2) scriptPubKey solved.typeRet
      solved.vSolutionsRet

def Sorted (sigs : List (List UInt8)) : Prop := sigs.Pairwise fun sig other => before sig other = true

variable {sig : List UInt8}

theorem mem_insertSig {other : List UInt8} {sigs : List (List UInt8)} :
    other ∈ insertSig sig sigs ↔ other = sig ∨ other ∈ sigs := by
  induction sigs with
  | nil => simp [insertSig]
  | cons first rest ih =>
    unfold insertSig
    split
    · exact mem_cons
    · split
      · next same =>
        rw [same, mem_cons]
        tauto
      · rw [mem_cons, mem_cons, ih]
        tauto

theorem sorted_insertSig {sigs : List (List UInt8)} (sorted : Sorted sigs) : Sorted (insertSig sig sigs) := by
  induction sigs with
  | nil => exact pairwise_singleton _ _
  | cons first rest ih =>
    obtain ⟨above, restSorted⟩ := pairwise_cons.mp sorted
    unfold insertSig
    split
    · next less =>
      apply pairwise_cons.mpr
      constructor
      · intro other member
        rcases mem_cons.mp member with rfl | later
        · exact less
        · exact before_trans less (above other later)
      · exact sorted
    · next notLess =>
      split
      · exact sorted
      · next different =>
        apply pairwise_cons.mpr
        constructor
        · intro other member
          rcases mem_insertSig.mp member with rfl | later
          · exact (before_total different).resolve_left notLess
          · exact above other later
        · exact ih restSorted

theorem sorted_eq {sigs sigs' : List (List UInt8)} (sorted : Sorted sigs) (sorted' : Sorted sigs')
    (same : ∀ sig, sig ∈ sigs ↔ sig ∈ sigs') : sigs = sigs' := by
  have distinct {list : List (List UInt8)} (sorted : Sorted list) : list.Nodup := by
    apply sorted.imp
    intro sig other less equal
    rw [equal, before_irrefl] at less
    cases less
  apply Perm.eq_of_pairwise _ sorted sorted'
  · exact (perm_ext_iff_of_nodup (distinct sorted) (distinct sorted')).mpr same
  · intro sig other _ _ less more
    rw [before_asymm less] at more
    cases more

theorem addSigs_spec (stack : List (List UInt8)) : ∀ allsigs, Sorted allsigs → Sorted (stack.foldl addSig allsigs) ∧
    ∀ sig, sig ∈ stack.foldl addSig allsigs ↔ sig ∈ allsigs ∨ sig ∈ stack ∧ sig ≠ [] := by
  induction stack with
  | nil =>
    intro allsigs sorted
    exact ⟨sorted, fun sig => by simp⟩
  | cons v stack ih =>
    intro allsigs sorted
    rw [foldl_cons]
    cases empty : v.isEmpty with
    | true =>
      have same : addSig allsigs v = allsigs := by rw [addSig, empty, if_pos rfl]
      rw [List.isEmpty_iff] at empty
      obtain ⟨later, members⟩ := ih allsigs sorted
      rw [same]
      refine ⟨later, fun sig => ?_⟩
      rw [members, mem_cons, empty]
      tauto
    | false =>
      have same : addSig allsigs v = insertSig v allsigs := by rw [addSig, empty, if_neg Bool.false_ne_true]
      rw [isEmpty_eq_false_iff] at empty
      obtain ⟨later, members⟩ := ih (insertSig v allsigs) (sorted_insertSig sorted)
      rw [same]
      refine ⟨later, fun sig => ?_⟩
      rw [members, mem_insertSig, mem_cons]
      constructor
      · rintro ((rfl | old) | new)
        · exact .inr ⟨.inl rfl, empty⟩
        · exact .inl old
        · exact .inr ⟨.inr new.1, new.2⟩
      · rintro (old | ⟨rfl | new, notEmpty⟩)
        · exact .inl (.inr old)
        · exact .inl (.inl rfl)
        · exact .inr ⟨new, notEmpty⟩

theorem sorted_allSigs (sigs1 sigs2 : List (List UInt8)) : Sorted (allSigs sigs1 sigs2) :=
  (addSigs_spec (sigs1 ++ sigs2) [] Pairwise.nil).1

variable {sigs1 sigs2 : List (List UInt8)}

theorem mem_allSigs : sig ∈ allSigs sigs1 sigs2 ↔ sig ∈ sigs1 ++ sigs2 ∧ sig ≠ [] := by
  have members := (addSigs_spec (sigs1 ++ sigs2) [] Pairwise.nil).2 sig
  rw [or_iff_right not_mem_nil] at members
  exact members

theorem allSigs_comm {sigs1' sigs2' : List (List UInt8)} (same : ∀ sig, sig ∈ sigs1 ++ sigs2 ↔ sig ∈ sigs1' ++ sigs2') :
    allSigs sigs1 sigs2 = allSigs sigs1' sigs2' := by
  apply sorted_eq (sorted_allSigs _ _) (sorted_allSigs _ _)
  intro sig
  rw [mem_allSigs, mem_allSigs, same]

variable {checker : Checker} {scriptPubKey : CScript} {pubKeys : List (List UInt8)}

/-- No signature of the list is valid for two of the keys. -/
def OneKey (checker : Checker) (scriptPubKey : CScript) (pubKeys sigs : List (List UInt8)) : Prop :=
  ∀ sig ∈ sigs, ∀ pubkey ∈ pubKeys, ∀ other ∈ pubKeys, checker.checkSig sig pubkey scriptPubKey = true →
    checker.checkSig sig other scriptPubKey = true → pubkey = other

/-- What the map holds after the signatures of a list: each under a key that accepts it, and every key that accepts one has one. -/
structure Assigned (checker : Checker) (scriptPubKey : CScript) (pubKeys past : List (List UInt8))
    (sigs : List UInt8 → Option (List UInt8)) : Prop where
  valid : ∀ pubkey sig, sigs pubkey = some sig → sig ∈ past ∧ checker.checkSig sig pubkey scriptPubKey = true
  found : ∀ pubkey ∈ pubKeys, ∀ sig ∈ past, checker.checkSig sig pubkey scriptPubKey = true → (sigs pubkey).isSome = true

theorem assigned_none : Assigned checker scriptPubKey pubKeys [] fun _ => none :=
  ⟨nofun, nofun⟩

theorem assigned_matchSig {past : List (List UInt8)} {sigs : List UInt8 → Option (List UInt8)}
    (assigned : Assigned checker scriptPubKey pubKeys past sigs) (oneKey : OneKey checker scriptPubKey pubKeys [sig]) :
    Assigned checker scriptPubKey pubKeys (past ++ [sig]) (matchSig checker scriptPubKey pubKeys sigs sig) := by
  have older {other : List UInt8} (member : other ∈ past) : other ∈ past ++ [sig] := mem_append_left _ member
  unfold matchSig
  cases search : pubKeys.find? fun pubkey => (sigs pubkey).isNone && checker.checkSig sig pubkey scriptPubKey with
  | none =>
    constructor
    · intro pubkey other there
      obtain ⟨member, valid⟩ := assigned.valid pubkey other there
      exact ⟨older member, valid⟩
    · intro pubkey isKey other member valid
      rcases mem_append.mp member with before | last
      · exact assigned.found pubkey isKey other before valid
      · have refused := find?_eq_none.mp search pubkey isKey
        rw [mem_singleton.mp last] at valid
        rw [valid, Bool.and_true, isNone_iff_eq_none] at refused
        exact isSome_iff_ne_none.mpr refused
  | some chosen =>
    have accepted := find?_some search
    rw [and_eq_true] at accepted
    have isKey := mem_of_find?_eq_some search
    rw [elim_some]
    constructor
    · intro pubkey other there
      by_cases same : pubkey = chosen
      · rw [same, update_self] at there
        rw [same, ← some.inj there]
        exact ⟨mem_append_right _ mem_cons_self, accepted.2⟩
      · rw [update_of_ne same] at there
        obtain ⟨member, valid⟩ := assigned.valid pubkey other there
        exact ⟨older member, valid⟩
    · intro pubkey isKey' other member valid
      by_cases same : pubkey = chosen
      · rw [same, update_self]
        rfl
      · rw [update_of_ne same]
        rcases mem_append.mp member with before | last
        · exact assigned.found pubkey isKey' other before valid
        · rw [mem_singleton.mp last] at valid
          exact absurd (oneKey sig mem_cons_self pubkey isKey' chosen isKey valid accepted.2) same

theorem assigned_sigsByKey (allsigs : List (List UInt8)) (oneKey : OneKey checker scriptPubKey pubKeys allsigs) :
    Assigned checker scriptPubKey pubKeys allsigs (sigsByKey checker scriptPubKey pubKeys allsigs) := by
  induction allsigs using reverseRecOn with
  | nil => exact assigned_none
  | append_singleton past sig ih =>
    have whole : sigsByKey checker scriptPubKey pubKeys (past ++ [sig]) =
        matchSig checker scriptPubKey pubKeys (sigsByKey checker scriptPubKey pubKeys past) sig := by
      simp only [sigsByKey, foldl_append, foldl_cons, foldl_nil]
    rw [whole]
    apply assigned_matchSig
    · exact ih (forall_mem_append.mp oneKey).1
    · intro other member
      exact oneKey other (mem_append_right _ member)

def covered (checker : Checker) (scriptPubKey : CScript) (sigs : List (List UInt8)) (pubkey : List UInt8) : Bool :=
  sigs.any fun sig => checker.checkSig sig pubkey scriptPubKey

def SignedBy (checker : Checker) (scriptPubKey : CScript) (sigs : List (List UInt8)) (sig pubkey : List UInt8) : Prop :=
  sig ∈ sigs ∧ checker.checkSig sig pubkey scriptPubKey = true

theorem filterMap_forall₂ {holds : List UInt8 → List UInt8 → Prop} {sigs : List UInt8 → Option (List UInt8)}
    (valid : ∀ pubkey sig, sigs pubkey = some sig → holds sig pubkey) (pubKeys : List (List UInt8)) :
    Forall₂ holds (pubKeys.filterMap sigs) (pubKeys.filter fun pubkey => (sigs pubkey).isSome) := by
  induction pubKeys with
  | nil => exact Forall₂.nil
  | cons pubkey rest ih =>
    rw [filterMap_cons, filter_cons]
    cases there : sigs pubkey with
    | none => exact ih
    | some sig => exact Forall₂.cons (valid pubkey sig there) ih

theorem firstSigs (required : Nat) (oneKey : OneKey checker scriptPubKey pubKeys (sigs1 ++ sigs2))
    (nonempty : ∀ pubkey, checker.checkSig [] pubkey scriptPubKey = false) :
    Forall₂ (SignedBy checker scriptPubKey (sigs1 ++ sigs2))
      ((pubKeys.filterMap (sigsByKey checker scriptPubKey pubKeys (allSigs sigs1 sigs2))).take required)
      ((pubKeys.filter (covered checker scriptPubKey (sigs1 ++ sigs2))).take required) := by
  have assigned := assigned_sigsByKey (allSigs sigs1 sigs2) fun sig member => oneKey sig (mem_allSigs.mp member).1
  have same : pubKeys.filter (covered checker scriptPubKey (sigs1 ++ sigs2)) =
      pubKeys.filter fun pubkey => (sigsByKey checker scriptPubKey pubKeys (allSigs sigs1 sigs2) pubkey).isSome := by
    apply filter_congr
    intro pubkey isKey
    apply Bool.eq_iff_iff.mpr
    rw [covered, List.any_eq_true]
    constructor
    · intro accepts
      obtain ⟨sig, member, valid⟩ := accepts
      have notEmpty : sig ≠ [] := by
        intro empty
        rw [empty, nonempty] at valid
        cases valid
      exact assigned.found pubkey isKey sig (mem_allSigs.mpr ⟨member, notEmpty⟩) valid
    · intro isSome
      obtain ⟨sig, there⟩ := isSome_iff_exists.mp isSome
      obtain ⟨member, valid⟩ := assigned.valid pubkey sig there
      exact ⟨sig, (mem_allSigs.mp member).1, valid⟩
  rw [same]
  apply forall₂_take
  apply filterMap_forall₂
  intro pubkey sig there
  obtain ⟨member, valid⟩ := assigned.valid pubkey sig there
  exact ⟨(mem_allSigs.mp member).1, valid⟩

end Longcoin.Sign
