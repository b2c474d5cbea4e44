import Longcoin.SoftFork
import Longcoin.StandardShape
import Longcoin.Library.Steps

/-! `EvalScript` tests its stacks before it reads them: whatever the script, no access is out of range and no
number leaves its `int64_t`. -/

namespace Longcoin.Interpreter
open Primitives Script Standard ScriptNum Library Library.Bytes Library.Outcome List Option

/-- What no script may bring about: an access outside of a stack, a failed `assert`, an overflow, or an
unknown error that is set by hand. -/
def Stop.Breach : Stop → Prop
  | .error serror => serror = .UNKNOWN_ERROR
  | .scriptNum => False
  | .outOfRange | .assertion | .overflow => True

abbrev Guarded {α : Type} (run : Except Stop α) : Prop := Avoids Stop.Breach run

section Combinators
variable {α β : Type}

theorem guarded_ok (result : α) : Guarded (.ok result) := avoids_ok result

theorem guarded_error {serror : ScriptError} (named : serror ≠ .UNKNOWN_ERROR) :
    Guarded (.error (.error serror) : Except Stop α) := avoids_error named

theorem guarded_check {condition : Bool} {serror : ScriptError} (named : serror ≠ .UNKNOWN_ERROR) :
    Guarded (check condition serror) := avoids_require fun _ => named

theorem guarded_check_bind {condition : Bool} {serror : ScriptError} {next : Unit → Except Stop β}
    (named : serror ≠ .UNKNOWN_ERROR) (passed : condition = true → Guarded (next ())) :
    Guarded (check condition serror >>= next) := by
  apply avoids_bind (guarded_check named)
  intro answer checked
  exact passed (require_ok.mp checked)

theorem guarded_holds {condition : Prop} [Decidable condition] {serror : ScriptError} {next : Unit → Except Stop β}
    (named : serror ≠ .UNKNOWN_ERROR) (passed : condition → Guarded (next ())) : Guarded (check (decide condition) serror >>= next) :=
  guarded_check_bind named fun holds => passed (of_decide_eq_true holds)

theorem guarded_bind {first : Except Stop α} {next : α → Except Stop β} (safe : Guarded first)
    (later : ∀ middle, first = .ok middle → Guarded (next middle)) : Guarded (first >>= next) := avoids_bind safe later

theorem guarded_if {condition : Prop} [Decidable condition] {first second : Except Stop α}
    (holds : condition → Guarded first) (fails : ¬ condition → Guarded second) :
    Guarded (if condition then first else second) := by
  split
  · next decided => exact holds decided
  · next decided => exact fails decided

@[simp] theorem ok_bind (value : α) (next : α → Except Stop β) : (Except.ok value >>= next) = next value := rfl

end Combinators

def entry (stack : Stack) (i : Nat) : List UInt8 := stack.getD (i - 1) []

variable {i : Nat}

theorem stacktop_eq {stack : Stack} (positive : 0 < i) (inside : i ≤ stack.length) :
    stacktop stack i = .ok (entry stack i) := by
  have there : stack[i - 1]? = some (stack.getD (i - 1) []) := by
    rw [getD_eq_getElem?_getD, getElem?_eq_getElem (by omega), getD_some]
  unfold stacktop
  rw [if_neg (by omega), there]
  rfl

theorem popMany_eq {count : Nat} {stack : Stack} (enough : count ≤ stack.length) :
    popMany count stack = .ok (stack.drop count) := by
  induction count generalizing stack with
  | zero => rfl
  | succ count ih =>
    cases stack with
    | nil => simp at enough
    | cons top rest => exact ih (Nat.le_of_succ_le_succ enough)

theorem popstack_eq {stack : Stack} (enough : 1 ≤ stack.length) : popstack stack = .ok (stack.drop 1) := by
  cases stack with
  | nil => simp at enough
  | cons top rest => rfl

theorem eraseTop_eq {stack : Stack} (positive : 0 < i) (inside : i ≤ stack.length) :
    eraseTop stack i = .ok (stack.eraseIdx (i - 1)) := by
  unfold eraseTop
  rw [if_neg (by omega)]

theorem insertTop_eq {stack : Stack} (vch : List UInt8) (inside : i ≤ stack.length) :
    insertTop stack i vch = .ok (stack.take i ++ vch :: stack.drop i) := by
  unfold insertTop
  rw [if_neg (by omega)]

theorem swapTop_eq {stack : Stack} {j : Nat} (first : 0 < i) (second : 0 < j) (firstInside : i ≤ stack.length)
    (secondInside : j ≤ stack.length) :
    swapTop stack i j = .ok ((stack.set (i - 1) (entry stack j)).set (j - 1) (entry stack i)) := by
  unfold swapTop
  rw [stacktop_eq first firstInside, stacktop_eq second secondInside]
  rfl

theorem pushTop_eq {stack : Stack} (positive : 0 < i) (inside : i ≤ stack.length) :
    pushTop stack i = .ok (entry stack i :: stack) := by
  unfold pushTop
  rw [stacktop_eq positive inside]
  rfl

theorem scriptNum_guarded (flags : Nat) (vch : List UInt8) (nMaxNumSize : Nat) :
    Guarded (scriptNum flags vch nMaxNumSize) := by
  unfold scriptNum
  cases ofBytes vch (has flags SCRIPT_VERIFY_MINIMALDATA) nMaxNumSize with
  | none => exact avoids_error id
  | some value => exact guarded_ok value

theorem opVerify_guarded (stack : Stack) : Guarded (opVerify stack) := by
  refine guarded_holds (by decide) fun one => ?_
  rw [stacktop_eq (by decide) one, ok_bind]
  apply guarded_check_bind (by decide)
  intro _
  rw [popstack_eq one]
  exact guarded_ok _

theorem op2Drop_guarded (stack : Stack) : Guarded (op2Drop stack) := by
  refine guarded_holds (by decide) fun enough => ?_
  rw [popMany_eq enough]
  exact guarded_ok _

theorem opCopy_guarded {need : Nat} (count : Nat) (stack : Stack) (positive : 0 < i) (covers : i ≤ need) :
    Guarded (opCopy need i count stack) := by
  refine guarded_holds (by decide) fun enough => ?_
  have inside : i ≤ stack.length := Nat.le_trans covers enough
  apply avoids_foldlM (fun _ copied => i ≤ copied.length)
  · intro done item rest state state' whole long pushed
    obtain rfl : item = i := eq_of_mem_replicate (by rw [whole]; simp)
    rw [pushTop_eq positive long, Except.ok.injEq] at pushed
    rw [← pushed, length_cons]
    exact Nat.le_succ_of_le long
  · intro done item rest state whole long
    obtain rfl : item = i := eq_of_mem_replicate (by rw [whole]; simp)
    rw [pushTop_eq positive long]
    exact guarded_ok _
  · exact inside

section

variable (stack : Stack)

theorem op2Rot_guarded : Guarded (op2Rot stack) := by
  refine guarded_holds (by decide) fun six => ?_
  have left : (stack.eraseIdx (6 - 1)).length = stack.length - 1 := by
    rw [length_eraseIdx, if_pos (by omega)]
  rw [stacktop_eq (by decide) six, ok_bind, stacktop_eq (by decide) (by omega), ok_bind, eraseTop_eq (by decide) six, ok_bind,
    eraseTop_eq (by decide) (by omega), ok_bind]
  exact guarded_ok _

theorem op2Swap_guarded : Guarded (op2Swap stack) := by
  refine guarded_holds (by decide) fun four => ?_
  rw [swapTop_eq (by decide) (by decide) four (by omega), ok_bind,
    swapTop_eq (by decide) (by decide) (by rw [length_set, length_set]; omega) (by rw [length_set, length_set]; omega)]
  exact guarded_ok _

theorem opIfDup_guarded : Guarded (opIfDup stack) := by
  refine guarded_holds (by decide) fun enough => ?_
  rw [stacktop_eq (by decide) enough]
  exact guarded_ok _

theorem opDrop_guarded : Guarded (opDrop stack) := by
  refine guarded_holds (by decide) fun enough => ?_
  rw [popstack_eq enough]
  exact guarded_ok _

theorem opNip_guarded : Guarded (opNip stack) := by
  refine guarded_holds (by decide) fun enough => ?_
  rw [eraseTop_eq (by decide) enough]
  exact guarded_ok _

theorem opRot_guarded : Guarded (opRot stack) := by
  refine guarded_holds (by decide) fun three => ?_
  rw [swapTop_eq (by decide) (by decide) three (by omega), ok_bind,
    swapTop_eq (by decide) (by decide) (by rw [length_set, length_set]; omega) (by rw [length_set, length_set]; omega)]
  exact guarded_ok _

theorem opSwap_guarded : Guarded (opSwap stack) := by
  refine guarded_holds (by decide) fun two => ?_
  rw [swapTop_eq (by decide) (by decide) two (by omega)]
  exact guarded_ok _

theorem opTuck_guarded : Guarded (opTuck stack) := by
  refine guarded_holds (by decide) fun two => ?_
  rw [stacktop_eq (by decide) (by omega), ok_bind, insertTop_eq _ two]
  exact guarded_ok _

theorem opSize_guarded : Guarded (opSize stack) := by
  refine guarded_holds (by decide) fun enough => ?_
  rw [stacktop_eq (by decide) enough]
  exact guarded_ok _

end

theorem opEqual_guarded (isVerify : Bool) (stack : Stack) : Guarded (opEqual isVerify stack) := by
  refine guarded_holds (by decide) fun two => ?_
  rw [stacktop_eq (by decide) two, ok_bind, stacktop_eq (by decide) (by omega), ok_bind, popMany_eq two, ok_bind]
  apply guarded_if
  · exact fun _ => guarded_check_bind (by decide) fun _ => guarded_ok _
  · exact fun _ => guarded_ok _

theorem opHash_guarded (hash : List UInt8 → List UInt8) (stack : Stack) : Guarded (opHash hash stack) := by
  refine guarded_holds (by decide) fun one => ?_
  rw [stacktop_eq (by decide) one, ok_bind, popstack_eq one]
  exact guarded_ok _

theorem stackOp_guarded (checker : Checker) (opcode : UInt8) (stack : Stack) : Guarded (stackOp checker opcode stack) := by
  unfold stackOp
  apply guarded_if (fun _ => opVerify_guarded stack); intro _
  apply guarded_if (fun _ => op2Drop_guarded stack); intro _
  apply guarded_if (fun _ => opCopy_guarded 2 stack (by decide) (by decide)); intro _
  apply guarded_if (fun _ => opCopy_guarded 3 stack (by decide) (by decide)); intro _
  apply guarded_if (fun _ => opCopy_guarded 2 stack (by decide) (by decide)); intro _
  apply guarded_if (fun _ => op2Rot_guarded stack); intro _
  apply guarded_if (fun _ => op2Swap_guarded stack); intro _
  apply guarded_if (fun _ => opIfDup_guarded stack); intro _
  apply guarded_if (fun _ => guarded_ok _); intro _
  apply guarded_if (fun _ => opDrop_guarded stack); intro _
  apply guarded_if (fun _ => opCopy_guarded 1 stack (by decide) (by decide)); intro _
  apply guarded_if (fun _ => opNip_guarded stack); intro _
  apply guarded_if (fun _ => opCopy_guarded 1 stack (by decide) (by decide)); intro _
  apply guarded_if (fun _ => opRot_guarded stack); intro _
  apply guarded_if (fun _ => opSwap_guarded stack); intro _
  apply guarded_if (fun _ => opTuck_guarded stack); intro _
  apply guarded_if (fun _ => opSize_guarded stack); intro _
  apply guarded_if (fun _ => opEqual_guarded false stack); intro _
  apply guarded_if (fun _ => opEqual_guarded true stack); intro _
  -- the hash functions
  iterate 5 (apply guarded_if (fun _ => opHash_guarded _ stack); intro _)
  exact guarded_error (by decide)

theorem setVch_bounds (vch : List UInt8) : -256 ^ vch.length ≤ setVch vch ∧ setVch vch ≤ 256 ^ vch.length := by
  have size : (little vch : Int) < 256 ^ vch.length := by exact_mod_cast little_lt vch
  have positive : (0 : Int) < 256 ^ vch.length := Int.pow_pos (by decide)
  unfold setVch
  split
  · exact ⟨by omega, by omega⟩
  · next nonempty =>
    have length : vch.length = vch.length - 1 + 1 := by
      have := length_pos_iff.mpr (by simpa using nonempty : vch ≠ [])
      omega
    have power : (256 : Int) ^ vch.length = 256 ^ (vch.length - 1) * 256 := by
      conv => lhs; rw [length]
      exact Int.pow_succ _ _
    split
    · exact ⟨by omega, by omega⟩
    · exact ⟨by omega, by omega⟩

def Operand (value : Int) : Prop := -2 ^ 32 ≤ value ∧ value ≤ 2 ^ 32

def Result (value : Int) : Prop := -2 ^ 33 ≤ value ∧ value ≤ 2 ^ 33

variable {flags : Nat} {value : Int}

theorem operand_of_scriptNum {vch : List UInt8} (read : scriptNum flags vch nDefaultMaxNumSize = .ok value) : Operand value := by
  unfold scriptNum ofBytes at read
  split at read
  · simp at read
  · next short =>
    split at read
    · simp at read
    · rw [elim_some, Except.ok.injEq] at read
      have length : vch.length ≤ 4 := Nat.not_lt.mp short
      have power : (256 : Int) ^ vch.length ≤ 256 ^ 4 := by exact_mod_cast Nat.pow_le_pow_right (by decide : 256 > 0) length
      have bounds := setVch_bounds vch
      rw [read] at bounds
      unfold Operand
      omega

theorem Operand.result (operand : Operand value) : Result value := by
  unfold Operand at operand
  unfold Result
  omega

theorem int64_eq (result : Result value) : int64 value = .ok value := by
  unfold Result at result
  have least : INT64_MIN ≤ value := by simp only [INT64_MIN]; omega
  have most : value ≤ INT64_MAX := by simp only [INT64_MAX]; omega
  simp [int64, require, least, most, pure, Except.pure]

theorem result_numOfBool (value : Bool) : Result (numOfBool value) := by
  unfold Result
  cases value <;> decide

theorem addAssign_one {bn : Int} (operand : Operand bn) : addAssign bn 1 = .ok (bn + 1) := by
  unfold Operand at operand
  have fits : bn ≤ INT64_MAX - 1 := by simp only [INT64_MAX]; omega
  have result : Result (bn + 1) := by unfold Result; omega
  simp [addAssign, require, fits, int64_eq result]

theorem subAssign_one {bn : Int} (operand : Operand bn) : subAssign bn 1 = .ok (bn - 1) := by
  unfold Operand at operand
  have fits : INT64_MIN + 1 ≤ bn := by simp only [INT64_MIN]; omega
  have result : Result (bn - 1) := by unfold Result; omega
  simp [subAssign, require, fits, int64_eq result]

theorem negate_eq {bn : Int} (operand : Operand bn) : negate bn = .ok (-bn) := by
  unfold Operand at operand
  have inside : (bn != INT64_MIN) = true := by
    rw [bne_iff_ne]
    simp only [INT64_MIN]
    omega
  have result : Result (-bn) := by unfold Result; omega
  simp [negate, require, inside, int64_eq result]

variable {opcode : UInt8}

/-- The numeric operators of one operand that are not disabled. -/
def unaryOps : List UInt8 := [OP_1ADD, OP_1SUB, OP_NEGATE, OP_ABS, OP_NOT, OP_0NOTEQUAL]

def binaryOps : List UInt8 :=
  [OP_ADD, OP_SUB, OP_BOOLAND, OP_BOOLOR, OP_NUMEQUAL, OP_NUMEQUALVERIFY, OP_NUMNOTEQUAL, OP_LESSTHAN, OP_GREATERTHAN,
    OP_LESSTHANOREQUAL, OP_GREATERTHANOREQUAL, OP_MIN, OP_MAX]

theorem unaryValue_result {bn : Int} (known : opcode ∈ unaryOps) (operand : Operand bn) :
    ∃ value, unaryValue opcode bn = .ok value ∧ Result value := by
  have bounds := operand
  unfold Operand at bounds
  simp only [unaryOps, mem_cons, not_mem_nil, or_false] at known
  rcases known with rfl | rfl | rfl | rfl | rfl | rfl
  · exact ⟨bn + 1, addAssign_one operand, by unfold Result; omega⟩
  · exact ⟨bn - 1, subAssign_one operand, by unfold Result; omega⟩
  · exact ⟨-bn, negate_eq operand, by unfold Result; omega⟩
  · change ∃ value, (if bn < 0 then negate bn else .ok bn) = .ok value ∧ Result value
    split
    · exact ⟨-bn, negate_eq operand, by unfold Result; omega⟩
    · exact ⟨bn, rfl, operand.result⟩
  · exact ⟨_, rfl, result_numOfBool _⟩
  · exact ⟨_, rfl, result_numOfBool _⟩

theorem binaryValue_result {bn1 bn2 : Int} (known : opcode ∈ binaryOps) (first : Operand bn1) (second : Operand bn2) :
    ∃ value, binaryValue opcode bn1 bn2 = .ok value ∧ Result value := by
  have sum : Result (bn1 + bn2) := by unfold Operand at *; unfold Result; omega
  have difference : Result (bn1 - bn2) := by unfold Operand at *; unfold Result; omega
  simp only [binaryOps, mem_cons, not_mem_nil, or_false] at known
  rcases known with rfl | rfl | rfl | rfl | rfl | rfl | rfl | rfl | rfl | rfl | rfl | rfl | rfl
  · exact ⟨bn1 + bn2, int64_eq sum, sum⟩
  · exact ⟨bn1 - bn2, int64_eq difference, difference⟩
  -- the comparisons
  iterate 9 exact ⟨_, rfl, result_numOfBool _⟩
  -- the least and the greatest
  · exact ⟨_, rfl, by split <;> first | exact first.result | exact second.result⟩
  · exact ⟨_, rfl, by split <;> first | exact first.result | exact second.result⟩

theorem getvch_eq (result : Result value) : getvch value = .ok (serialize value) := by
  have negated : Result (-value) := by unfold Result at *; omega
  unfold getvch
  rw [int64_eq negated]
  split <;> rfl

theorem unary_known (least : OP_1ADD ≤ opcode) (most : opcode ≤ OP_0NOTEQUAL) (enabled : isDisabled opcode = false) :
    opcode ∈ unaryOps := by
  unfold isDisabled at enabled
  simp only [unaryOps, elem_eq_contains, ← Bool.not_eq_true, contains_iff_mem, mem_cons, not_mem_nil, or_false,
    not_or, ← UInt8.toNat_inj, UInt8.le_iff_toNat_le] at *
  simp only [OP_1ADD, OP_1SUB, OP_NEGATE, OP_ABS, OP_NOT, OP_0NOTEQUAL, OP_2MUL, OP_2DIV, UInt8.reduceToNat] at *
  omega

theorem binary_known (least : OP_ADD ≤ opcode) (most : opcode ≤ OP_MAX) (enabled : isDisabled opcode = false) :
    opcode ∈ binaryOps := by
  unfold isDisabled at enabled
  simp only [binaryOps, elem_eq_contains, ← Bool.not_eq_true, contains_iff_mem, mem_cons, not_mem_nil, or_false,
    not_or, ← UInt8.toNat_inj, UInt8.le_iff_toNat_le] at *
  simp only [OP_ADD, OP_SUB, OP_BOOLAND, OP_BOOLOR, OP_NUMEQUAL, OP_NUMEQUALVERIFY, OP_NUMNOTEQUAL, OP_LESSTHAN,
    OP_GREATERTHAN, OP_LESSTHANOREQUAL, OP_GREATERTHANOREQUAL, OP_MIN, OP_MAX, OP_MUL, OP_DIV, OP_MOD, OP_LSHIFT, OP_RSHIFT,
    UInt8.reduceToNat] at *
  omega

theorem stackNum_guarded {nMaxNumSize : Nat} {stack : Stack} {α : Type} {next : Int → Except Stop α} (positive : 0 < i)
    (inside : i ≤ stack.length)
    (later : ∀ value, scriptNum flags (entry stack i) nMaxNumSize = .ok value → Guarded (next value)) :
    Guarded (stacktop stack i >>= fun vch => scriptNum flags vch nMaxNumSize >>= next) := by
  rw [stacktop_eq positive inside, ok_bind]
  exact guarded_bind (scriptNum_guarded flags _ nMaxNumSize) later

theorem opPick_guarded (flags : Nat) (isRoll : Bool) (stack : Stack) : Guarded (opPick flags isRoll stack) := by
  refine guarded_holds (by decide) fun two => ?_
  apply stackNum_guarded (by decide) (by omega)
  intro value _
  rw [popstack_eq (by omega), ok_bind]
  -- the depth comes from the stack, but was compared with its size
  refine guarded_holds (by decide) fun inside => ?_
  have depth : (getint value).toNat + 1 ≤ (stack.drop 1).length := by omega
  rw [stacktop_eq (by omega) depth, ok_bind, eraseTop_eq (by omega) depth]
  split <;> exact guarded_ok _

theorem opUnary_guarded (flags : Nat) (stack : Stack)
    (known : opcode ∈ unaryOps) : Guarded (opUnary flags opcode stack) := by
  refine guarded_holds (by decide) fun one => ?_
  apply stackNum_guarded (by decide) one
  intro bn read
  obtain ⟨value, evaluates, result⟩ := unaryValue_result known (operand_of_scriptNum read)
  rw [evaluates, ok_bind, popstack_eq one, ok_bind, getvch_eq result]
  exact guarded_ok _

theorem opBinary_guarded (flags : Nat) (stack : Stack)
    (known : opcode ∈ binaryOps) :
    Guarded (opBinary flags opcode stack) := by
  refine guarded_holds (by decide) fun two => ?_
  apply stackNum_guarded (by decide) two
  intro bn1 read1
  apply stackNum_guarded (by decide) (by omega)
  intro bn2 read2
  obtain ⟨value, evaluates, result⟩ := binaryValue_result known (operand_of_scriptNum read1) (operand_of_scriptNum read2)
  rw [evaluates, ok_bind, popMany_eq two, ok_bind, getvch_eq result, ok_bind]
  apply guarded_if
  · exact fun _ => guarded_check_bind (by decide) fun _ => guarded_ok _
  · exact fun _ => guarded_ok _

theorem opWithin_guarded (flags : Nat) (stack : Stack) : Guarded (opWithin flags stack) := by
  refine guarded_holds (by decide) fun three => ?_
  apply stackNum_guarded (by decide) three
  intro bn1 _
  apply stackNum_guarded (by decide) (by omega)
  intro bn2 _
  apply stackNum_guarded (by decide) (by omega)
  intro bn3 _
  rw [popMany_eq three]
  exact guarded_ok _

theorem checkSignatureEncoding_guarded (checker : Checker) (vchSig : List UInt8) (flags : Nat) :
    Guarded (checkSignatureEncoding checker vchSig flags) := by
  apply guarded_if (fun _ => guarded_ok _)
  intro _
  apply guarded_check_bind (by decide); intro _
  apply guarded_check_bind (by decide); intro _
  apply guarded_check_bind (by decide); intro _
  exact guarded_check (by decide)

theorem checkPubKeyEncoding_guarded (vchPubKey : List UInt8) (flags : Nat) : Guarded (checkPubKeyEncoding vchPubKey flags) :=
  guarded_check (by decide)

theorem opCheckSig_guarded (checker : Checker) (flags : Nat) (script : CScript) (isVerify : Bool) (stack : Stack) :
    Guarded (opCheckSig checker flags script isVerify stack) := by
  refine guarded_holds (by decide) fun two => ?_
  rw [stacktop_eq (by decide) two, ok_bind, stacktop_eq (by decide) (by omega), ok_bind]
  apply guarded_bind (checkSignatureEncoding_guarded checker _ flags)
  intro _ _
  apply guarded_bind (checkPubKeyEncoding_guarded _ flags)
  intro _ _
  rw [popMany_eq two, ok_bind]
  apply guarded_if
  · exact fun _ => guarded_check_bind (by decide) fun _ => guarded_ok _
  · exact fun _ => guarded_ok _

theorem checkSigs_guarded (checker : Checker) (flags : Nat) (scriptCode : CScript) (stack : Stack)
    (nKeysCount : Nat) : ∀ (nSigsCount isig ikey : Nat), 0 < isig → 0 < ikey → isig + nSigsCount ≤ stack.length + 1 →
      ikey + nKeysCount ≤ stack.length + 1 →
      Guarded (checkSigs checker flags scriptCode stack nKeysCount nSigsCount isig ikey) := by
  induction nKeysCount with
  | zero =>
    intro nSigsCount isig ikey _ _ _ _
    cases nSigsCount <;> exact guarded_ok _
  | succ nKeysCount ih =>
    intro nSigsCount isig ikey sigPositive keyPositive sigsInside keysInside
    cases nSigsCount with
    | zero => exact guarded_ok _
    | succ nSigsCount =>
      unfold checkSigs
      rw [stacktop_eq sigPositive (by omega), ok_bind, stacktop_eq keyPositive (by omega), ok_bind]
      apply guarded_bind (checkSignatureEncoding_guarded checker _ flags)
      intro _ _
      apply guarded_bind (checkPubKeyEncoding_guarded _ flags)
      intro _ _
      apply guarded_if (fun _ => guarded_ok _)
      intro _
      cases checker.checkSig (entry stack isig) (entry stack ikey) scriptCode with
      | true => exact ih nSigsCount (isig + 1) (ikey + 1) (by omega) (by omega) (by omega) (by omega)
      | false => exact ih (nSigsCount + 1) isig (ikey + 1) (by omega) (by omega) (by omega) (by omega)

theorem countAt_guarded (flags : Nat) (stack : Stack) (limit : Nat) {serror : ScriptError} (positive : 0 < i)
    (named : serror ≠ .UNKNOWN_ERROR) : Guarded (countAt flags stack i limit serror) := by
  refine guarded_holds (by decide) fun enough => ?_
  apply stackNum_guarded positive enough
  intro _ _
  apply guarded_check_bind named
  intro _
  exact guarded_ok _

theorem countAt_ok {limit count : Nat} {stack : Stack} {serror : ScriptError}
    (counted : countAt flags stack i limit serror = .ok count) : i ≤ stack.length ∧ count ≤ limit := by
  unfold countAt check at counted
  obtain ⟨enough, counted⟩ := require_bind_ok.mp counted
  obtain ⟨vch, -, counted⟩ := bind_ok.mp counted
  obtain ⟨value, -, counted⟩ := bind_ok.mp counted
  obtain ⟨bounds, counted⟩ := require_bind_ok.mp counted
  have within : 0 ≤ getint value ∧ getint value ≤ limit := of_decide_eq_true bounds
  rw [pure_ok] at counted
  exact ⟨of_decide_eq_true enough, by omega⟩

theorem dropSignatures_guarded (stack : Stack) (script : CScript) {isig nSigsCount : Nat} (positive : 0 < isig)
    (inside : isig + nSigsCount ≤ stack.length + 1) :
    Guarded ((range' isig nSigsCount).foldlM (dropSignature stack) script) := by
  apply avoids_foldlM (fun _ _ => True)
  · exact fun _ _ _ _ _ _ _ _ => trivial
  · intro done item rest scriptCode whole _
    have member : item ∈ range' isig nSigsCount := by rw [whole]; simp
    obtain ⟨least, below⟩ := mem_range'_1.mp member
    unfold dropSignature
    rw [stacktop_eq (by omega) (by omega)]
    exact guarded_ok _
  · trivial

theorem opCheckMultiSig_guarded (checker : Checker) (flags : Nat) (script : CScript) (isVerify : Bool) (nOpCount : Nat)
    (stack : Stack) : Guarded (opCheckMultiSig checker flags script isVerify nOpCount stack) := by
  apply guarded_bind (countAt_guarded flags stack _ (by decide) (by decide))
  intro nKeysCount _
  apply guarded_check_bind (by decide)
  intro _
  apply guarded_bind (countAt_guarded flags stack _ (by omega) (by decide))
  intro nSigsCount _
  refine guarded_holds (by decide) fun room => ?_
  apply guarded_bind (dropSignatures_guarded stack script (by omega) (by omega))
  intro scriptCode _
  apply guarded_bind (checkSigs_guarded checker flags scriptCode stack nKeysCount nSigsCount _ _ (by omega) (by omega) (by omega) (by omega))
  intro fSuccess _
  rw [popMany_eq (by omega), ok_bind]
  refine guarded_holds (by decide) fun one => ?_
  rw [stacktop_eq (by decide) one, ok_bind]
  apply guarded_check_bind (by decide)
  intro _
  rw [popstack_eq one, ok_bind]
  apply guarded_if
  · exact fun _ => guarded_check_bind (by decide) fun _ => guarded_ok _
  · exact fun _ => guarded_ok _

theorem onStack_guarded (st : EvalState) {result : Except Stop Stack} (guarded : Guarded result) : Guarded (st.onStack result) :=
  guarded_bind guarded fun _ _ => guarded_ok _

theorem opUpgradableNop_guarded (flags : Nat) : Guarded (opUpgradableNop flags) := guarded_check (by decide)

theorem lockTimeOperand_guarded (flags : Nat) (stack : Stack) : Guarded (lockTimeOperand flags stack) := by
  refine guarded_holds (by decide) fun enough => ?_
  apply stackNum_guarded (by decide) enough
  intro _ _
  exact guarded_check_bind (by decide) fun _ => guarded_ok _

theorem opCheckLockTimeVerify_guarded (checker : Checker) (flags : Nat) (stack : Stack) :
    Guarded (opCheckLockTimeVerify checker flags stack) := by
  apply guarded_if
  · exact fun _ => guarded_bind (lockTimeOperand_guarded flags stack) fun _ _ => guarded_check (by decide)
  · exact fun _ => opUpgradableNop_guarded flags

theorem opCheckSequenceVerify_guarded (checker : Checker) (flags : Nat) (stack : Stack) :
    Guarded (opCheckSequenceVerify checker flags stack) := by
  apply guarded_if
  · exact fun _ => guarded_bind (lockTimeOperand_guarded flags stack) fun _ _ => guarded_check (by decide)
  · exact fun _ => opUpgradableNop_guarded flags

theorem opIf_guarded (isNot : Bool) (st : EvalState) : Guarded (opIf isNot st) := by
  apply guarded_if
  · intro _
    refine guarded_holds (by decide) fun one => ?_
    rw [stacktop_eq (by decide) one, ok_bind, popstack_eq one]
    exact guarded_ok _
  · exact fun _ => guarded_ok _

theorem opToAltStack_guarded (st : EvalState) : Guarded (opToAltStack st) := by
  refine guarded_holds (by decide) fun one => ?_
  rw [stacktop_eq (by decide) one, ok_bind, popstack_eq one]
  exact guarded_ok _

theorem opFromAltStack_guarded (st : EvalState) : Guarded (opFromAltStack st) := by
  refine guarded_holds (by decide) fun one => ?_
  rw [stacktop_eq (by decide) one, ok_bind, popstack_eq one]
  exact guarded_ok _

theorem opElse_guarded (st : EvalState) : Guarded (opElse st) := guarded_check_bind (by decide) fun _ => guarded_ok _

theorem opEndIf_guarded (st : EvalState) : Guarded (opEndIf st) := guarded_check_bind (by decide) fun _ => guarded_ok _

theorem evalOp_guarded (checker : Checker) (flags : Nat) (pc : CScript) (st : EvalState)
    (enabled : isDisabled opcode = false) : Guarded (evalOp checker flags opcode pc st) := by
  unfold evalOp
  apply guarded_if (fun _ => guarded_ok _); intro _
  apply guarded_if (fun _ => guarded_ok _); intro _
  apply guarded_if (fun _ => guarded_bind (opCheckLockTimeVerify_guarded checker flags st.stack) fun _ _ => guarded_ok _); intro _
  apply guarded_if (fun _ => guarded_bind (opCheckSequenceVerify_guarded checker flags st.stack) fun _ _ => guarded_ok _); intro _
  apply guarded_if (fun _ => guarded_bind (opUpgradableNop_guarded flags) fun _ _ => guarded_ok _); intro _
  -- conditions
  apply guarded_if (fun _ => opIf_guarded _ st); intro _
  apply guarded_if (fun _ => opElse_guarded st); intro _
  apply guarded_if (fun _ => opEndIf_guarded st); intro _
  apply guarded_if (fun _ => guarded_error (by decide)); intro _
  apply guarded_if (fun _ => opToAltStack_guarded st); intro _
  apply guarded_if (fun _ => opFromAltStack_guarded st); intro _
  apply guarded_if (fun _ => guarded_ok _); intro _
  -- numbers
  apply guarded_if (fun _ => onStack_guarded st (opPick_guarded flags _ st.stack)); intro _
  apply guarded_if (fun range => onStack_guarded st (opUnary_guarded flags st.stack (unary_known range.1 range.2 enabled))); intro _
  apply guarded_if (fun range => onStack_guarded st (opBinary_guarded flags st.stack (binary_known range.1 range.2 enabled))); intro _
  apply guarded_if (fun _ => onStack_guarded st (opWithin_guarded flags st.stack)); intro _
  -- signatures
  apply guarded_if (fun _ => onStack_guarded st (opCheckSig_guarded checker flags _ _ st.stack)); intro _
  apply guarded_if (fun _ => guarded_bind (opCheckMultiSig_guarded checker flags _ _ _ st.stack) fun _ _ => guarded_ok _); intro _
  exact onStack_guarded st (stackOp_guarded checker opcode st.stack)

theorem execOp_guarded (checker : Checker) (flags : Nat) (vchPushValue : List UInt8) (pc : CScript) (st : EvalState)
    (enabled : isDisabled opcode = false) : Guarded (execOp checker flags opcode vchPushValue pc st) := by
  apply guarded_if
  · exact fun _ => guarded_check_bind (by decide) fun _ => guarded_ok _
  · exact fun _ => guarded_if (fun _ => evalOp_guarded checker flags pc st enabled) fun _ => guarded_ok _

theorem evalStep_guarded (checker : Checker) (flags : Nat) (opcode : UInt8) (vchPushValue : List UInt8) (pc : CScript)
    (st : EvalState) : Guarded (evalStep checker flags opcode vchPushValue pc st) := by
  apply guarded_check_bind (by decide)
  intro _
  apply guarded_check_bind (by decide)
  intro _
  apply guarded_check_bind (by decide)
  intro enabled
  apply guarded_bind (execOp_guarded checker flags vchPushValue pc _ (by simpa using enabled))
  intro st _
  exact guarded_check_bind (by decide) fun _ => guarded_ok _

theorem evalTurns_guarded (checker : Checker) (flags turns : Nat) (pc : CScript) (st : EvalState) :
    Guarded (evalTurns checker flags turns pc st) := by
  induction turns generalizing pc st with
  | zero => exact guarded_ok _
  | succ turns ih =>
    unfold evalTurns
    apply guarded_if (fun _ => guarded_ok _)
    intro _
    cases getOp pc with
    | none => exact guarded_error (by decide)
    | some op => exact guarded_bind (evalStep_guarded checker flags op.1 op.2.1 op.2.2 st) fun st _ => ih op.2.2 st

/-- A turn of the loop, from the entry of one instruction to the entry of the next. -/
def Turn (checker : Checker) (flags : Nat) (before : CScript × EvalState) (op : UInt8 × List UInt8)
    (after : CScript × EvalState) : Prop :=
  getOp before.1 = some (op.1, op.2, after.1) ∧ evalStep checker flags op.1 op.2 after.1 before.2 = .ok after.2

theorem turn_size {checker : Checker} {before after : CScript × EvalState} {op : UInt8 × List UInt8}
    (turn : Turn checker flags before op after) : after.2.stack.length + after.2.altstack.length ≤ 1000 := by
  obtain ⟨-, stepped⟩ := turn
  unfold evalStep check at stepped
  obtain ⟨-, stepped⟩ := require_bind_ok.mp stepped
  obtain ⟨-, stepped⟩ := require_bind_ok.mp stepped
  obtain ⟨-, stepped⟩ := require_bind_ok.mp stepped
  obtain ⟨st, -, stepped⟩ := bind_ok.mp stepped
  obtain ⟨size, stepped⟩ := require_bind_ok.mp stepped
  rw [pure_ok] at stepped
  rw [← stepped]
  exact of_decide_eq_true size

def EvalState.start (stack : Stack) (script : CScript) : EvalState := ⟨stack, [], [], 0, script⟩

theorem evalScript_unknown_iff (checker : Checker) (flags : Nat) (stack : Stack) (script : CScript) :
    evalScript checker flags stack script = .error (.error .UNKNOWN_ERROR) ↔
      script.length ≤ MAX_SCRIPT_SIZE ∧ evalTurns checker flags script.length script (.start stack script) = .error .scriptNum := by
  have guarded := evalTurns_guarded checker flags script.length script (.start stack script)
  unfold evalScript
  by_cases size : script.length ≤ MAX_SCRIPT_SIZE
  · rw [check, require, decide_eq_true size, if_pos rfl, ok_bind, and_iff_right size]
    change ((evalTurns checker flags script.length script (.start stack script)).mapError caught >>= _) = _ ↔ _
    cases ended : evalTurns checker flags script.length script (.start stack script) with
    | ok st =>
      change (check st.vfExec.isEmpty .UNBALANCED_CONDITIONAL >>= fun _ => Except.ok st.stack) = _ ↔ _
      cases st.vfExec.isEmpty <;> simp [check, require, bind, Except.bind]
    | error stop =>
      have harmless := guarded stop ended
      change Except.error (caught stop) = _ ↔ _
      cases stop with
      | error serror =>
        have named : serror ≠ .UNKNOWN_ERROR := harmless
        simp [caught, named]
      | scriptNum => simp [caught]
      | outOfRange => exact absurd trivial harmless
      | assertion => exact absurd trivial harmless
      | overflow => exact absurd trivial harmless
  · rw [check, require, decide_eq_false size]
    simp [size, bind, Except.bind]

/-- Whatever the script and the stack it starts on: no access is out of range, no number overflows and no `assert`
fails, so the branch that catches exceptions is reached by a `scriptnum_error` only; every turn takes at least a byte,
so the loop ends; and every turn is entered with at most 1000 entries on both stacks. -/
theorem stack_accesses_guarded (checker : Checker) (flags : Nat) (stack : Stack) (script : CScript) :
    (∀ turns, Guarded (evalTurns checker flags turns script (.start stack script))) ∧
    (evalScript checker flags stack script = .error (.error .UNKNOWN_ERROR) ↔ script.length ≤ MAX_SCRIPT_SIZE ∧
        evalTurns checker flags script.length script (.start stack script) = .error .scriptNum) ∧
    (∀ before op after, Turn checker flags before op after → after.1.length < before.1.length) ∧
    (∀ turns, script.length ≤ turns → evalTurns checker flags turns script (.start stack script) =
      evalTurns checker flags script.length script (.start stack script)) ∧
    (stack.length ≤ 1000 → ∀ ops pc st, Steps (Turn checker flags) (script, .start stack script) ops (pc, st) →
      st.stack.length + st.altstack.length ≤ 1000) := by
  refine ⟨fun turns => evalTurns_guarded checker flags turns script _, evalScript_unknown_iff checker flags stack script,
    fun before op after turn => length_getOp turn.1, fun turns enough => ?_, fun small ops pc st run => ?_⟩
  · exact evalTurns_enough checker flags _ (Nat.le_refl _) enough
  · exact run.invariant (fun state => state.2.stack.length + state.2.altstack.length ≤ 1000)
      (fun _ _ _ _ turn => turn_size turn) (by simpa [EvalState.start] using small)

/-- `OP_1ADD` of a number of five bytes. -/
def longNumber : CScript := [0x05, 1, 2, 3, 4, 5, OP_1ADD]

theorem stack_accesses_guarded_longNumber :
    evalScript sampleChecker SCRIPT_VERIFY_NONE [[1]] longNumber = .error (.error .UNKNOWN_ERROR) ∧
    ∀ ops pc st, Steps (Turn sampleChecker SCRIPT_VERIFY_NONE) (longNumber, .start [[1]] longNumber) ops (pc, st) →
      st.stack.length + st.altstack.length ≤ 1000 := by
  obtain ⟨-, unknown, -, -, size⟩ := stack_accesses_guarded sampleChecker SCRIPT_VERIFY_NONE [[1]] longNumber
  exact ⟨unknown.mpr ⟨by decide, by rfl⟩, size (by decide)⟩

end Longcoin.Interpreter
