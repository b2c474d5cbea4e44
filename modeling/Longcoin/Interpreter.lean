import Longcoin.Standard
import Longcoin.ScriptNum
import Longcoin.Library.Outcome

/-! `EvalScript` and `VerifyScript` (`script/interpreter.cpp`), for every set of verification flags. -/

namespace Longcoin.Interpreter
open Primitives Script Standard ScriptNum Library.Outcome List

def OP_1NEGATE : UInt8 := 0x4f
def OP_NOP : UInt8 := 0x61
def OP_IF : UInt8 := 0x63
def OP_NOTIF : UInt8 := 0x64
def OP_ELSE : UInt8 := 0x67
def OP_ENDIF : UInt8 := 0x68
def OP_VERIFY : UInt8 := 0x69
def OP_TOALTSTACK : UInt8 := 0x6b
def OP_FROMALTSTACK : UInt8 := 0x6c
def OP_2DROP : UInt8 := 0x6d
def OP_2DUP : UInt8 := 0x6e
def OP_3DUP : UInt8 := 0x6f
def OP_2OVER : UInt8 := 0x70
def OP_2ROT : UInt8 := 0x71
def OP_2SWAP : UInt8 := 0x72
def OP_IFDUP : UInt8 := 0x73
def OP_DEPTH : UInt8 := 0x74
def OP_DROP : UInt8 := 0x75
def OP_NIP : UInt8 := 0x77
def OP_OVER : UInt8 := 0x78
def OP_PICK : UInt8 := 0x79
def OP_ROLL : UInt8 := 0x7a
def OP_ROT : UInt8 := 0x7b
def OP_SWAP : UInt8 := 0x7c
def OP_TUCK : UInt8 := 0x7d
def OP_CAT : UInt8 := 0x7e
def OP_SUBSTR : UInt8 := 0x7f
def OP_LEFT : UInt8 := 0x80
def OP_RIGHT : UInt8 := 0x81
def OP_SIZE : UInt8 := 0x82
def OP_INVERT : UInt8 := 0x83
def OP_AND : UInt8 := 0x84
def OP_OR : UInt8 := 0x85
def OP_XOR : UInt8 := 0x86
def OP_EQUAL : UInt8 := 0x87
def OP_1ADD : UInt8 := 0x8b
def OP_1SUB : UInt8 := 0x8c
def OP_2MUL : UInt8 := 0x8d
def OP_2DIV : UInt8 := 0x8e
def OP_NEGATE : UInt8 := 0x8f
def OP_ABS : UInt8 := 0x90
def OP_NOT : UInt8 := 0x91
def OP_0NOTEQUAL : UInt8 := 0x92
def OP_ADD : UInt8 := 0x93
def OP_SUB : UInt8 := 0x94
def OP_MUL : UInt8 := 0x95
def OP_DIV : UInt8 := 0x96
def OP_MOD : UInt8 := 0x97
def OP_LSHIFT : UInt8 := 0x98
def OP_RSHIFT : UInt8 := 0x99
def OP_BOOLAND : UInt8 := 0x9a
def OP_BOOLOR : UInt8 := 0x9b
def OP_NUMEQUAL : UInt8 := 0x9c
def OP_NUMEQUALVERIFY : UInt8 := 0x9d
def OP_NUMNOTEQUAL : UInt8 := 0x9e
def OP_LESSTHAN : UInt8 := 0x9f
def OP_GREATERTHAN : UInt8 := 0xa0
def OP_LESSTHANOREQUAL : UInt8 := 0xa1
def OP_GREATERTHANOREQUAL : UInt8 := 0xa2
def OP_MIN : UInt8 := 0xa3
def OP_MAX : UInt8 := 0xa4
def OP_WITHIN : UInt8 := 0xa5
def OP_RIPEMD160 : UInt8 := 0xa6
def OP_SHA1 : UInt8 := 0xa7
def OP_SHA256 : UInt8 := 0xa8
def OP_HASH256 : UInt8 := 0xaa
def OP_CODESEPARATOR : UInt8 := 0xab
def OP_CHECKSIGVERIFY : UInt8 := 0xad
def OP_CHECKMULTISIGVERIFY : UInt8 := 0xaf
def OP_NOP1 : UInt8 := 0xb0
def OP_CHECKLOCKTIMEVERIFY : UInt8 := 0xb1
def OP_CHECKSEQUENCEVERIFY : UInt8 := 0xb2
def OP_NOP4 : UInt8 := 0xb3
def OP_NOP10 : UInt8 := 0xb9

def MAX_SCRIPT_REDEEM_SIZE : Nat := 520
def MAX_SCRIPT_PUSH_SIZE : Nat := MAX_SCRIPT_SIZE - (344 - 256) - 2
def MAX_OPS_PER_SCRIPT : Nat := 201
def MAX_PUBKEYS_PER_MULTISIG : Nat := 20

def SCRIPT_VERIFY_NONE : Nat := 0
def SCRIPT_VERIFY_P2SH : Nat := 1 <<< 0
def SCRIPT_VERIFY_STRICTENC : Nat := 1 <<< 1
def SCRIPT_VERIFY_DERSIG : Nat := 1 <<< 2
def SCRIPT_VERIFY_LOW_S : Nat := 1 <<< 3
def SCRIPT_VERIFY_NULLDUMMY : Nat := 1 <<< 4
def SCRIPT_VERIFY_SIGPUSHONLY : Nat := 1 <<< 5
def SCRIPT_VERIFY_MINIMALDATA : Nat := 1 <<< 6
def SCRIPT_VERIFY_DISCOURAGE_UPGRADABLE_NOPS : Nat := 1 <<< 7
def SCRIPT_VERIFY_CLEANSTACK : Nat := 1 <<< 8
def SCRIPT_VERIFY_CHECKLOCKTIMEVERIFY : Nat := 1 <<< 9
def SCRIPT_VERIFY_CHECKSEQUENCEVERIFY : Nat := 1 <<< 10

def MANDATORY_SCRIPT_VERIFY_FLAGS : Nat := SCRIPT_VERIFY_P2SH

def STANDARD_SCRIPT_VERIFY_FLAGS : Nat :=
  MANDATORY_SCRIPT_VERIFY_FLAGS ||| SCRIPT_VERIFY_DERSIG ||| SCRIPT_VERIFY_STRICTENC ||| SCRIPT_VERIFY_MINIMALDATA |||
    SCRIPT_VERIFY_NULLDUMMY ||| SCRIPT_VERIFY_DISCOURAGE_UPGRADABLE_NOPS ||| SCRIPT_VERIFY_CLEANSTACK |||
    SCRIPT_VERIFY_CHECKLOCKTIMEVERIFY ||| SCRIPT_VERIFY_CHECKSEQUENCEVERIFY ||| SCRIPT_VERIFY_LOW_S

/-- `(flags & flag) != 0`. -/
def has (flags flag : Nat) : Bool := flags &&& flag != 0

/-- `ScriptError`. -/
inductive ScriptError where
  | UNKNOWN_ERROR
  | EVAL_FALSE
  | OP_RETURN
  | SCRIPT_SIZE
  | PUSH_SIZE
  | OP_COUNT
  | STACK_SIZE
  | SIG_COUNT
  | PUBKEY_COUNT
  | VERIFY
  | EQUALVERIFY
  | CHECKMULTISIGVERIFY
  | CHECKSIGVERIFY
  | NUMEQUALVERIFY
  | BAD_OPCODE
  | DISABLED_OPCODE
  | INVALID_STACK_OPERATION
  | INVALID_ALTSTACK_OPERATION
  | UNBALANCED_CONDITIONAL
  | NEGATIVE_LOCKTIME
  | UNSATISFIED_LOCKTIME
  | SIG_HASHTYPE
  | SIG_DER
  | MINIMALDATA
  | SIG_PUSHONLY
  | SIG_HIGH_S
  | SIG_NULLDUMMY
  | PUBKEYTYPE
  | CLEANSTACK
  | DISCOURAGE_UPGRADABLE_NOPS
deriving DecidableEq, Repr

/-- `ScriptErrorString`; an unclean stack has no text of its own. -/
def scriptErrorString : ScriptError → String
  | .EVAL_FALSE => "Script evaluated without error but finished with a false/empty top stack element"
  | .VERIFY => "Script failed an OP_VERIFY operation"
  | .EQUALVERIFY => "Script failed an OP_EQUALVERIFY operation"
  | .CHECKMULTISIGVERIFY => "Script failed an OP_CHECKMULTISIGVERIFY operation"
  | .CHECKSIGVERIFY => "Script failed an OP_CHECKSIGVERIFY operation"
  | .NUMEQUALVERIFY => "Script failed an OP_NUMEQUALVERIFY operation"
  | .SCRIPT_SIZE => "Script is too big"
  | .PUSH_SIZE => "Push value size limit exceeded"
  | .OP_COUNT => "Operation limit exceeded"
  | .STACK_SIZE => "Stack size limit exceeded"
  | .SIG_COUNT => "Signature count negative or greater than pubkey count"
  | .PUBKEY_COUNT => "Pubkey count negative or limit exceeded"
  | .BAD_OPCODE => "Opcode missing or not understood"
  | .DISABLED_OPCODE => "Attempted to use a disabled opcode"
  | .INVALID_STACK_OPERATION => "Operation not valid with the current stack size"
  | .INVALID_ALTSTACK_OPERATION => "Operation not valid with the current altstack size"
  | .OP_RETURN => "OP_RETURN was encountered"
  | .UNBALANCED_CONDITIONAL => "Invalid OP_IF construction"
  | .NEGATIVE_LOCKTIME => "Negative locktime"
  | .UNSATISFIED_LOCKTIME => "Locktime requirement not satisfied"
  | .SIG_HASHTYPE => "Signature hash type missing or not understood"
  | .SIG_DER => "Non-canonical DER signature"
  | .MINIMALDATA => "Data push larger than necessary"
  | .SIG_PUSHONLY => "Only non-push operators allowed in signatures"
  | .SIG_HIGH_S => "Non-canonical signature: S value is unnecessarily high"
  | .SIG_NULLDUMMY => "Dummy CHECKMULTISIG argument must be zero"
  | .DISCOURAGE_UPGRADABLE_NOPS => "NOPx reserved for soft-fork upgrades"
  | .PUBKEYTYPE => "Public key is neither compressed or uncompressed"
  | .UNKNOWN_ERROR | .CLEANSTACK => "unknown error"

/-- How an evaluation stops: a `set_error`, a `scriptnum_error` that is thrown, an access outside of a
stack, a failed `assert`, or a number that does not fit an `int64_t`. -/
inductive Stop where
  | error (serror : ScriptError)
  | scriptNum
  | outOfRange
  | assertion
  | overflow
deriving DecidableEq, Repr

/-- `if (!condition) return set_error(serror, ...)`. -/
def check (condition : Bool) (serror : ScriptError) : Except Stop Unit := require condition (.error serror)

/-- What the interpreter is given: the hash functions, `CPubKey::CheckLowS` and the signature checker of
the transaction. -/
structure Checker where
  ripemd160 : List UInt8 → List UInt8
  sha1 : List UInt8 → List UInt8
  sha256 : List UInt8 → List UInt8
  hash160 : List UInt8 → List UInt8
  hash256 : List UInt8 → List UInt8
  checkLowS : List UInt8 → Bool
  checkSig : List UInt8 → List UInt8 → CScript → Bool
  checkLockTime : Int → Bool
  checkSequence : Int → Bool

def castToBool : List UInt8 → Bool
  | [] => false
  | [byte] => byte != 0 && byte != 0x80
  | byte :: rest => byte != 0 || castToBool rest

def isCompressedOrUncompressedPubKey (vchPubKey : List UInt8) : Bool :=
  decide (33 ≤ vchPubKey.length) &&
    (if vchPubKey.getD 0 0 = 0x04 then vchPubKey.length == 65
    else if vchPubKey.getD 0 0 = 0x02 ∨ vchPubKey.getD 0 0 = 0x03 then vchPubKey.length == 33
    else false)

/-- An integer of a signature: not empty, not negative, not padded. -/
def isInteger (sig : List UInt8) (start length : Nat) : Bool :=
  sig.getD (start - 2) 0 == 0x02 && length != 0 && sig.getD start 0 < 0x80 &&
    !(decide (1 < length) && sig.getD start 0 == 0 && sig.getD (start + 1) 0 < 0x80)

def isValidSignatureEncoding (sig : List UInt8) : Bool :=
  let lenR := (sig.getD 3 0).toNat
  let lenS := (sig.getD (5 + lenR) 0).toNat
  decide (9 ≤ sig.length ∧ sig.length ≤ 73) && sig.getD 0 0 == 0x30 && (sig.getD 1 0).toNat == sig.length - 3 &&
    decide (5 + lenR < sig.length) && lenR + lenS + 7 == sig.length && isInteger sig 4 lenR && isInteger sig (lenR + 6) lenS

/-- `SIGHASH_ALL`, `SIGHASH_NONE` or `SIGHASH_SINGLE`, perhaps with `SIGHASH_ANYONECANPAY`. -/
def isDefinedHashtypeSignature (vchSig : List UInt8) : Bool :=
  vchSig.getLast?.any fun last => decide (1 ≤ last &&& 0x7f ∧ last &&& 0x7f ≤ 3)

/-- The first test of the encoding that the flags ask for and the signature fails. -/
def checkSignatureEncoding (checker : Checker) (vchSig : List UInt8) (flags : Nat) : Except Stop Unit :=
  if vchSig.isEmpty then .ok ()
  else do
    check (!has flags (SCRIPT_VERIFY_DERSIG ||| SCRIPT_VERIFY_LOW_S ||| SCRIPT_VERIFY_STRICTENC) ||
      isValidSignatureEncoding vchSig) .SIG_DER
    check (!has flags SCRIPT_VERIFY_LOW_S || isValidSignatureEncoding vchSig) .SIG_DER
    check (!has flags SCRIPT_VERIFY_LOW_S || checker.checkLowS vchSig.dropLast) .SIG_HIGH_S
    check (!has flags SCRIPT_VERIFY_STRICTENC || isDefinedHashtypeSignature vchSig) .SIG_HASHTYPE

def checkPubKeyEncoding (vchPubKey : List UInt8) (flags : Nat) : Except Stop Unit :=
  check (!has flags SCRIPT_VERIFY_STRICTENC || isCompressedOrUncompressedPubKey vchPubKey) .PUBKEYTYPE

def checkMinimalPush (data : List UInt8) (opcode : UInt8) : Bool :=
  if data.length = 0 then opcode == OP_0
  else if data.length = 1 ∧ 1 ≤ data.getD 0 0 ∧ data.getD 0 0 ≤ 16 then opcode == OP_1 + (data.getD 0 0 - 1)
  else if data.length = 1 ∧ data.getD 0 0 = 0x81 then opcode == OP_1NEGATE
  else if data.length ≤ 75 then opcode.toNat == data.length
  else if data.length ≤ 255 then opcode == OP_PUSHDATA1
  else if data.length ≤ 65535 then opcode == OP_PUSHDATA2
  else true

/-- `CScriptNum(vch, fRequireMinimal)`. -/
def scriptNum (flags : Nat) (vch : List UInt8) (nMaxNumSize : Nat) : Except Stop Int :=
  (ofBytes vch (has flags SCRIPT_VERIFY_MINIMALDATA) nMaxNumSize).elim (.error .scriptNum) .ok

/-- Copies of `b` at the start of the script. -/
def dropCopies (b : CScript) : Nat → CScript → CScript
  | 0, pc => pc
  | turns + 1, pc => if b.isPrefixOf pc then dropCopies b turns (pc.drop b.length) else pc

def deleteTurns (b : CScript) : Nat → CScript → CScript
  | 0, pc => pc
  | turns + 1, pc =>
    let pc := dropCopies b pc.length pc
    (getOp pc).elim pc fun op => pc.take (pc.length - op.2.2.length) ++ deleteTurns b turns op.2.2

/-- `FindAndDelete`: where an instruction begins with the bytes of `b`, these go. -/
def findAndDelete (script b : CScript) : CScript := if b.isEmpty then script else deleteTurns b (script.length + 1) script

def vchBool (fSuccess : Bool) : List UInt8 := if fSuccess then [1] else []

abbrev Stack := List (List UInt8)

/-- `stacktop(-i)`. -/
def stacktop (stack : Stack) (i : Nat) : Except Stop (List UInt8) :=
  if i = 0 then .error .outOfRange else (stack[i - 1]?).elim (.error .outOfRange) .ok

def popstack : Stack → Except Stop Stack
  | [] => .error .outOfRange
  | _ :: rest => .ok rest

def popMany : Nat → Stack → Except Stop Stack
  | 0, stack => .ok stack
  | count + 1, stack => do popMany count (← popstack stack)

/-- `swap(stacktop(-i), stacktop(-j))`. -/
def swapTop (stack : Stack) (i j : Nat) : Except Stop Stack := do
  let vchI ← stacktop stack i
  let vchJ ← stacktop stack j
  return (stack.set (i - 1) vchJ).set (j - 1) vchI

/-- `stack.erase(stack.end() - i)`. -/
def eraseTop (stack : Stack) (i : Nat) : Except Stop Stack :=
  if i = 0 ∨ stack.length < i then .error .outOfRange else .ok (stack.eraseIdx (i - 1))

/-- `stack.insert(stack.end() - i, vch)`. -/
def insertTop (stack : Stack) (i : Nat) (vch : List UInt8) : Except Stop Stack :=
  if stack.length < i then .error .outOfRange else .ok (stack.take i ++ vch :: stack.drop i)

/-- The entry `i` from the top, once more on the top. -/
def pushTop (stack : Stack) (i : Nat) : Except Stop Stack := do
  let vch ← stacktop stack i
  return vch :: stack

def opVerify (stack : Stack) : Except Stop Stack := do
  check (1 ≤ stack.length) .INVALID_STACK_OPERATION
  let vch ← stacktop stack 1
  check (castToBool vch) .VERIFY
  popstack stack

def op2Drop (stack : Stack) : Except Stop Stack := do
  check (2 ≤ stack.length) .INVALID_STACK_OPERATION
  popMany 2 stack

/-- `OP_DUP`, `OP_OVER`, `OP_2DUP`, `OP_2OVER` and `OP_3DUP`: `count` entries from `i` on, once more. -/
def opCopy (need i count : Nat) (stack : Stack) : Except Stop Stack := do
  check (need ≤ stack.length) .INVALID_STACK_OPERATION
  (List.replicate count i).foldlM pushTop stack

def op2Rot (stack : Stack) : Except Stop Stack := do
  check (6 ≤ stack.length) .INVALID_STACK_OPERATION
  let vch1 ← stacktop stack 6
  let vch2 ← stacktop stack 5
  let stack ← eraseTop stack 6
  let stack ← eraseTop stack 5
  return vch2 :: vch1 :: stack

def op2Swap (stack : Stack) : Except Stop Stack := do
  check (4 ≤ stack.length) .INVALID_STACK_OPERATION
  let stack ← swapTop stack 4 2
  swapTop stack 3 1

def opIfDup (stack : Stack) : Except Stop Stack := do
  check (1 ≤ stack.length) .INVALID_STACK_OPERATION
  let vch ← stacktop stack 1
  return if castToBool vch then vch :: stack else stack

def opDrop (stack : Stack) : Except Stop Stack := do
  check (1 ≤ stack.length) .INVALID_STACK_OPERATION
  popstack stack

def opNip (stack : Stack) : Except Stop Stack := do
  check (2 ≤ stack.length) .INVALID_STACK_OPERATION
  eraseTop stack 2

def opRot (stack : Stack) : Except Stop Stack := do
  check (3 ≤ stack.length) .INVALID_STACK_OPERATION
  let stack ← swapTop stack 3 2
  swapTop stack 2 1

def opSwap (stack : Stack) : Except Stop Stack := do
  check (2 ≤ stack.length) .INVALID_STACK_OPERATION
  swapTop stack 2 1

def opTuck (stack : Stack) : Except Stop Stack := do
  check (2 ≤ stack.length) .INVALID_STACK_OPERATION
  let vch ← stacktop stack 1
  insertTop stack 2 vch

def opSize (stack : Stack) : Except Stop Stack := do
  check (1 ≤ stack.length) .INVALID_STACK_OPERATION
  let vch ← stacktop stack 1
  return serialize vch.length :: stack

def opEqual (isVerify : Bool) (stack : Stack) : Except Stop Stack := do
  check (2 ≤ stack.length) .INVALID_STACK_OPERATION
  let vch1 ← stacktop stack 2
  let vch2 ← stacktop stack 1
  let stack ← popMany 2 stack
  if isVerify then do
    check (vch1 == vch2) .EQUALVERIFY
    return stack
  else return vchBool (vch1 == vch2) :: stack

def opHash (hash : List UInt8 → List UInt8) (stack : Stack) : Except Stop Stack := do
  check (1 ≤ stack.length) .INVALID_STACK_OPERATION
  let vch ← stacktop stack 1
  let stack ← popstack stack
  return hash vch :: stack

/-- The instructions that the flags have no say in; any other opcode is not understood. -/
def stackOp (checker : Checker) (opcode : UInt8) (stack : Stack) : Except Stop Stack :=
  if opcode = OP_VERIFY then opVerify stack
  else if opcode = OP_2DROP then op2Drop stack
  else if opcode = OP_2DUP then opCopy 2 2 2 stack
  else if opcode = OP_3DUP then opCopy 3 3 3 stack
  else if opcode = OP_2OVER then opCopy 4 4 2 stack
  else if opcode = OP_2ROT then op2Rot stack
  else if opcode = OP_2SWAP then op2Swap stack
  else if opcode = OP_IFDUP then opIfDup stack
  else if opcode = OP_DEPTH then .ok (serialize stack.length :: stack)
  else if opcode = OP_DROP then opDrop stack
  else if opcode = OP_DUP then opCopy 1 1 1 stack
  else if opcode = OP_NIP then opNip stack
  else if opcode = OP_OVER then opCopy 2 2 1 stack
  else if opcode = OP_ROT then opRot stack
  else if opcode = OP_SWAP then opSwap stack
  else if opcode = OP_TUCK then opTuck stack
  else if opcode = OP_SIZE then opSize stack
  else if opcode = OP_EQUAL then opEqual false stack
  else if opcode = OP_EQUALVERIFY then opEqual true stack
  else if opcode = OP_RIPEMD160 then opHash checker.ripemd160 stack
  else if opcode = OP_SHA1 then opHash checker.sha1 stack
  else if opcode = OP_SHA256 then opHash checker.sha256 stack
  else if opcode = OP_HASH160 then opHash checker.hash160 stack
  else if opcode = OP_HASH256 then opHash checker.hash256 stack
  else .error (.error .BAD_OPCODE)

def opPick (flags : Nat) (isRoll : Bool) (stack : Stack) : Except Stop Stack := do
  check (2 ≤ stack.length) .INVALID_STACK_OPERATION
  let n := getint (← scriptNum flags (← stacktop stack 1) nDefaultMaxNumSize)
  let stack ← popstack stack
  check (0 ≤ n ∧ n < stack.length) .INVALID_STACK_OPERATION
  let vch ← stacktop stack (n.toNat + 1)
  let stack ← if isRoll then eraseTop stack (n.toNat + 1) else .ok stack
  return vch :: stack

/-- A result that is kept in an `int64_t`. -/
def int64 (value : Int) : Except Stop Int := do
  require (decide (INT64_MIN ≤ value ∧ value ≤ INT64_MAX)) .overflow
  return value

/-- `CScriptNum::operator+=`. -/
def addAssign (value rhs : Int) : Except Stop Int := do
  require (rhs == 0 || decide (0 < rhs ∧ value ≤ INT64_MAX - rhs) || decide (rhs < 0 ∧ INT64_MIN - rhs ≤ value)) .assertion
  int64 (value + rhs)

/-- `CScriptNum::operator-=`. -/
def subAssign (value rhs : Int) : Except Stop Int := do
  require (rhs == 0 || decide (0 < rhs ∧ INT64_MIN + rhs ≤ value) || decide (rhs < 0 ∧ value ≤ INT64_MAX + rhs)) .assertion
  int64 (value - rhs)

/-- `CScriptNum::operator-()`. -/
def negate (value : Int) : Except Stop Int := do
  require (value != INT64_MIN) .assertion
  int64 (-value)

/-- `getvch`, which negates a negative number. -/
def getvch (value : Int) : Except Stop (List UInt8) := do
  let _ ← if value < 0 then int64 (-value) else .ok value
  return serialize value

def numOfBool (value : Bool) : Int := if value then 1 else 0

/-- `OP_1ADD` to `OP_0NOTEQUAL`; `OP_2MUL` and `OP_2DIV` are disabled. -/
def unaryValue (opcode : UInt8) (bn : Int) : Except Stop Int :=
  if opcode = OP_1ADD then addAssign bn 1
  else if opcode = OP_1SUB then subAssign bn 1
  else if opcode = OP_NEGATE then negate bn
  else if opcode = OP_ABS then if bn < 0 then negate bn else .ok bn
  else if opcode = OP_NOT then .ok (numOfBool (bn == 0))
  else if opcode = OP_0NOTEQUAL then .ok (numOfBool (bn != 0))
  else .error .assertion

def opUnary (flags : Nat) (opcode : UInt8) (stack : Stack) : Except Stop Stack := do
  check (1 ≤ stack.length) .INVALID_STACK_OPERATION
  let bn ← scriptNum flags (← stacktop stack 1) nDefaultMaxNumSize
  let bn ← unaryValue opcode bn
  let stack ← popstack stack
  return (← getvch bn) :: stack

/-- `OP_ADD` to `OP_MAX`; those between `OP_SUB` and `OP_BOOLAND` are disabled. -/
def binaryValue (opcode : UInt8) (bn1 bn2 : Int) : Except Stop Int :=
  if opcode = OP_ADD then int64 (bn1 + bn2)
  else if opcode = OP_SUB then int64 (bn1 - bn2)
  else if opcode = OP_BOOLAND then .ok (numOfBool (bn1 != 0 && bn2 != 0))
  else if opcode = OP_BOOLOR then .ok (numOfBool (bn1 != 0 || bn2 != 0))
  else if opcode = OP_NUMEQUAL ∨ opcode = OP_NUMEQUALVERIFY then .ok (numOfBool (bn1 == bn2))
  else if opcode = OP_NUMNOTEQUAL then .ok (numOfBool (bn1 != bn2))
  else if opcode = OP_LESSTHAN then .ok (numOfBool (bn1 < bn2))
  else if opcode = OP_GREATERTHAN then .ok (numOfBool (bn1 > bn2))
  else if opcode = OP_LESSTHANOREQUAL then .ok (numOfBool (bn1 ≤ bn2))
  else if opcode = OP_GREATERTHANOREQUAL then .ok (numOfBool (bn1 ≥ bn2))
  else if opcode = OP_MIN then .ok (if bn1 < bn2 then bn1 else bn2)
  else if opcode = OP_MAX then .ok (if bn1 > bn2 then bn1 else bn2)
  else .error .assertion

def opBinary (flags : Nat) (opcode : UInt8) (stack : Stack) : Except Stop Stack := do
  check (2 ≤ stack.length) .INVALID_STACK_OPERATION
  let bn1 ← scriptNum flags (← stacktop stack 2) nDefaultMaxNumSize
  let bn2 ← scriptNum flags (← stacktop stack 1) nDefaultMaxNumSize
  let bn ← binaryValue opcode bn1 bn2
  let stack ← popMany 2 stack
  let vch ← getvch bn
  if opcode = OP_NUMEQUALVERIFY then do
    check (castToBool vch) .NUMEQUALVERIFY
    return stack
  else return vch :: stack

def opWithin (flags : Nat) (stack : Stack) : Except Stop Stack := do
  check (3 ≤ stack.length) .INVALID_STACK_OPERATION
  let bn1 ← scriptNum flags (← stacktop stack 3) nDefaultMaxNumSize
  let bn2 ← scriptNum flags (← stacktop stack 2) nDefaultMaxNumSize
  let bn3 ← scriptNum flags (← stacktop stack 1) nDefaultMaxNumSize
  let stack ← popMany 3 stack
  return vchBool (bn2 ≤ bn1 ∧ bn1 < bn3) :: stack

/-- `OP_CHECKSIG`: the script is that from the most recent `OP_CODESEPARATOR` on. -/
def opCheckSig (checker : Checker) (flags : Nat) (script : CScript) (isVerify : Bool) (stack : Stack) :
    Except Stop Stack := do
  check (2 ≤ stack.length) .INVALID_STACK_OPERATION
  let vchSig ← stacktop stack 2
  let vchPubKey ← stacktop stack 1
  let scriptCode := findAndDelete script (pushData vchSig)
  checkSignatureEncoding checker vchSig flags
  checkPubKeyEncoding vchPubKey flags
  let fSuccess := checker.checkSig vchSig vchPubKey scriptCode
  let stack ← popMany 2 stack
  if isVerify then do
    check fSuccess .CHECKSIGVERIFY
    return stack
  else return vchBool fSuccess :: stack

/-- The loop of `OP_CHECKMULTISIG`; there are never more signatures left than keys. -/
def checkSigs (checker : Checker) (flags : Nat) (scriptCode : CScript) (stack : Stack) :
    (nKeysCount nSigsCount isig ikey : Nat) → Except Stop Bool
  | _, 0, _, _ => .ok true
  | 0, _ + 1, _, _ => .ok false
  | nKeysCount + 1, nSigsCount + 1, isig, ikey => do
    let vchSig ← stacktop stack isig
    let vchPubKey ← stacktop stack ikey
    checkSignatureEncoding checker vchSig flags
    checkPubKeyEncoding vchPubKey flags
    let fOk := checker.checkSig vchSig vchPubKey scriptCode
    let left := if fOk then nSigsCount else nSigsCount + 1
    if left > nKeysCount then .ok false
    else checkSigs checker flags scriptCode stack nKeysCount left (if fOk then isig + 1 else isig) (ikey + 1)

def countAt (flags : Nat) (stack : Stack) (i limit : Nat) (serror : ScriptError) : Except Stop Nat := do
  check (i ≤ stack.length) .INVALID_STACK_OPERATION
  let count := getint (← scriptNum flags (← stacktop stack i) nDefaultMaxNumSize)
  check (0 ≤ count ∧ count ≤ limit) serror
  return count.toNat

def dropSignature (stack : Stack) (scriptCode : CScript) (i : Nat) : Except Stop CScript := do
  let vchSig ← stacktop stack i
  return findAndDelete scriptCode (pushData vchSig)

/-- `OP_CHECKMULTISIG`: the stack and the operation count, which the keys add to. -/
def opCheckMultiSig (checker : Checker) (flags : Nat) (script : CScript) (isVerify : Bool) (nOpCount : Nat)
    (stack : Stack) : Except Stop (Stack × Nat) := do
  let nKeysCount ← countAt flags stack 1 MAX_PUBKEYS_PER_MULTISIG .PUBKEY_COUNT
  let nOpCount := nOpCount + nKeysCount
  check (nOpCount ≤ MAX_OPS_PER_SCRIPT) .OP_COUNT
  let nSigsCount ← countAt flags stack (2 + nKeysCount) nKeysCount .SIG_COUNT
  let isig := 3 + nKeysCount
  check (3 + nKeysCount + nSigsCount ≤ stack.length) .INVALID_STACK_OPERATION
  let scriptCode ← (List.range' isig nSigsCount).foldlM (dropSignature stack) script
  let fSuccess ← checkSigs checker flags scriptCode stack nKeysCount nSigsCount isig 2
  let stack ← popMany (2 + nKeysCount + nSigsCount) stack
  -- one argument too many is taken, whose contents do not matter
  check (1 ≤ stack.length) .INVALID_STACK_OPERATION
  let dummy ← stacktop stack 1
  check (!has flags SCRIPT_VERIFY_NULLDUMMY || dummy.isEmpty) .SIG_NULLDUMMY
  let stack ← popstack stack
  if isVerify then do
    check fSuccess .CHECKMULTISIGVERIFY
    return (stack, nOpCount)
  else return (vchBool fSuccess :: stack, nOpCount)

/-- The local variables of `EvalScript`. `codehash` is the script from `pbegincodehash` on, `vfExec` begins
with the innermost condition. -/
structure EvalState where
  stack : Stack
  altstack : Stack
  vfExec : List Bool
  nOpCount : Nat
  codehash : CScript
deriving DecidableEq, Repr

def EvalState.fExec (st : EvalState) : Bool := st.vfExec.all id

def EvalState.onStack (st : EvalState) (result : Except Stop Stack) : Except Stop EvalState := do
  return { st with stack := ← result }

/-- `OP_NOP1` and `OP_NOP4` to `OP_NOP10`, and the lock-time checks where they are not enabled. -/
def opUpgradableNop (flags : Nat) : Except Stop Unit :=
  check (!has flags SCRIPT_VERIFY_DISCOURAGE_UPGRADABLE_NOPS) .DISCOURAGE_UPGRADABLE_NOPS

def SEQUENCE_LOCKTIME_DISABLE_FLAG : Nat := 1 <<< 31

def lockTimeOperand (flags : Nat) (stack : Stack) : Except Stop Int := do
  check (1 ≤ stack.length) .INVALID_STACK_OPERATION
  let operand ← scriptNum flags (← stacktop stack 1) 5
  check (0 ≤ operand) .NEGATIVE_LOCKTIME
  return operand

def opCheckLockTimeVerify (checker : Checker) (flags : Nat) (stack : Stack) : Except Stop Unit :=
  if has flags SCRIPT_VERIFY_CHECKLOCKTIMEVERIFY then do
    let nLockTime ← lockTimeOperand flags stack
    check (checker.checkLockTime nLockTime) .UNSATISFIED_LOCKTIME
  else opUpgradableNop flags

def opCheckSequenceVerify (checker : Checker) (flags : Nat) (stack : Stack) : Except Stop Unit :=
  if has flags SCRIPT_VERIFY_CHECKSEQUENCEVERIFY then do
    let nSequence ← lockTimeOperand flags stack
    check (has nSequence.toNat SEQUENCE_LOCKTIME_DISABLE_FLAG || checker.checkSequence nSequence) .UNSATISFIED_LOCKTIME
  else opUpgradableNop flags

def opIf (isNot : Bool) (st : EvalState) : Except Stop EvalState :=
  if st.fExec then do
    check (1 ≤ st.stack.length) .UNBALANCED_CONDITIONAL
    let fValue := castToBool (← stacktop st.stack 1) != isNot
    let stack ← popstack st.stack
    return { st with stack, vfExec := fValue :: st.vfExec }
  else return { st with vfExec := false :: st.vfExec }

def opElse (st : EvalState) : Except Stop EvalState := do
  check (!st.vfExec.isEmpty) .UNBALANCED_CONDITIONAL
  return { st with vfExec := (st.vfExec.take 1).map (!·) ++ st.vfExec.drop 1 }

def opEndIf (st : EvalState) : Except Stop EvalState := do
  check (!st.vfExec.isEmpty) .UNBALANCED_CONDITIONAL
  return { st with vfExec := st.vfExec.drop 1 }

def opToAltStack (st : EvalState) : Except Stop EvalState := do
  check (1 ≤ st.stack.length) .INVALID_STACK_OPERATION
  let vch ← stacktop st.stack 1
  let stack ← popstack st.stack
  return { st with stack, altstack := vch :: st.altstack }

def opFromAltStack (st : EvalState) : Except Stop EvalState := do
  check (1 ≤ st.altstack.length) .INVALID_ALTSTACK_OPERATION
  let vch ← stacktop st.altstack 1
  let altstack ← popstack st.altstack
  return { st with stack := vch :: st.stack, altstack }

/-- The `switch` over the opcode; `pc` is the script after the instruction. -/
def evalOp (checker : Checker) (flags : Nat) (opcode : UInt8) (pc : CScript) (st : EvalState) : Except Stop EvalState :=
  if opcode = OP_1NEGATE ∨ OP_1 ≤ opcode ∧ opcode ≤ OP_16 then
    .ok { st with stack := serialize ((opcode.toNat : Int) - (OP_1.toNat - 1)) :: st.stack }
  else if opcode = OP_NOP then .ok st
  else if opcode = OP_CHECKLOCKTIMEVERIFY then do
    opCheckLockTimeVerify checker flags st.stack
    return st
  else if opcode = OP_CHECKSEQUENCEVERIFY then do
    opCheckSequenceVerify checker flags st.stack
    return st
  else if opcode = OP_NOP1 ∨ OP_NOP4 ≤ opcode ∧ opcode ≤ OP_NOP10 then do
    opUpgradableNop flags
    return st
  else if opcode = OP_IF ∨ opcode = OP_NOTIF then opIf (opcode == OP_NOTIF) st
  else if opcode = OP_ELSE then opElse st
  else if opcode = OP_ENDIF then opEndIf st
  else if opcode = OP_RETURN then .error (.error .OP_RETURN)
  else if opcode = OP_TOALTSTACK then opToAltStack st
  else if opcode = OP_FROMALTSTACK then opFromAltStack st
  else if opcode = OP_CODESEPARATOR then .ok { st with codehash := pc }
  else if opcode = OP_PICK ∨ opcode = OP_ROLL then st.onStack (opPick flags (opcode == OP_ROLL) st.stack)
  else if OP_1ADD ≤ opcode ∧ opcode ≤ OP_0NOTEQUAL then st.onStack (opUnary flags opcode st.stack)
  else if OP_ADD ≤ opcode ∧ opcode ≤ OP_MAX then st.onStack (opBinary flags opcode st.stack)
  else if opcode = OP_WITHIN then st.onStack (opWithin flags st.stack)
  else if opcode = OP_CHECKSIG ∨ opcode = OP_CHECKSIGVERIFY then
    st.onStack (opCheckSig checker flags st.codehash (opcode == OP_CHECKSIGVERIFY) st.stack)
  else if opcode = OP_CHECKMULTISIG ∨ opcode = OP_CHECKMULTISIGVERIFY then do
    let (stack, nOpCount) ←
      opCheckMultiSig checker flags st.codehash (opcode == OP_CHECKMULTISIGVERIFY) st.nOpCount st.stack
    return { st with stack, nOpCount }
  else st.onStack (stackOp checker opcode st.stack)

def isDisabled (opcode : UInt8) : Bool :=
  [OP_CAT, OP_SUBSTR, OP_LEFT, OP_RIGHT, OP_INVERT, OP_AND, OP_OR, OP_XOR, OP_2MUL, OP_2DIV, OP_MUL, OP_DIV, OP_MOD,
    OP_LSHIFT, OP_RSHIFT].elem opcode

/-- The instruction is run, or skipped where a condition does not hold. -/
def execOp (checker : Checker) (flags : Nat) (opcode : UInt8) (vchPushValue : List UInt8) (pc : CScript)
    (st : EvalState) : Except Stop EvalState :=
  if st.fExec = true ∧ opcode ≤ OP_PUSHDATA4 then do
    check (!has flags SCRIPT_VERIFY_MINIMALDATA || checkMinimalPush vchPushValue opcode) .MINIMALDATA
    return { st with stack := vchPushValue :: st.stack }
  else if st.fExec = true ∨ OP_IF ≤ opcode ∧ opcode ≤ OP_ENDIF then evalOp checker flags opcode pc st
  else .ok st

/-- A turn of the loop of `EvalScript` after the instruction is read. -/
def evalStep (checker : Checker) (flags : Nat) (opcode : UInt8) (vchPushValue : List UInt8) (pc : CScript)
    (st : EvalState) : Except Stop EvalState := do
  check (vchPushValue.length ≤ MAX_SCRIPT_PUSH_SIZE) .PUSH_SIZE
  let nOpCount := if opcode > OP_16 then st.nOpCount + 1 else st.nOpCount
  check (nOpCount ≤ MAX_OPS_PER_SCRIPT) .OP_COUNT
  check (!isDisabled opcode) .DISABLED_OPCODE
  let st ← execOp checker flags opcode vchPushValue pc { st with nOpCount }
  check (st.stack.length + st.altstack.length ≤ 1000) .STACK_SIZE
  return st

/-- The loop of `EvalScript`: each turn takes at least a byte. -/
def evalTurns (checker : Checker) (flags : Nat) : Nat → CScript → EvalState → Except Stop EvalState
  | 0, _, st => .ok st
  | turns + 1, pc, st =>
    if pc.isEmpty then .ok st
    else
      (getOp pc).elim (.error (.error .BAD_OPCODE)) fun op => do
        evalTurns checker flags turns op.2.2 (← evalStep checker flags op.1 op.2.1 op.2.2 st)

/-- `catch (...)`. -/
def caught : Stop → Stop
  | .error serror => .error serror
  | _ => .error .UNKNOWN_ERROR

def evalScript (checker : Checker) (flags : Nat) (stack : Stack) (script : CScript) : Except Stop Stack := do
  check (script.length ≤ MAX_SCRIPT_SIZE) .SCRIPT_SIZE
  let st ← (evalTurns checker flags script.length script ⟨stack, [], [], 0, script⟩).mapError caught
  check st.vfExec.isEmpty .UNBALANCED_CONDITIONAL
  return st.stack

def checkTrue (stack : Stack) : Except Stop Unit := check (stack.head?.any castToBool) .EVAL_FALSE

/-- The script that a hash stands for is run on the stack that `scriptSig` left. -/
def verifyRedeemScript (checker : Checker) (flags : Nat) (scriptSig : CScript) (stackCopy : Stack) :
    Except Stop Stack := do
  check (isPushOnly scriptSig) .SIG_PUSHONLY
  require (!stackCopy.isEmpty) .assertion
  let pubKey2 ← stacktop stackCopy 1
  let stack ← popstack stackCopy
  let stack ← evalScript checker flags stack pubKey2
  checkTrue stack
  return stack

/-- The check is made after a redeem script, whose inputs would be left on the stack otherwise. -/
def checkCleanStack (flags : Nat) (stack : Stack) : Except Stop Unit :=
  if has flags SCRIPT_VERIFY_CLEANSTACK then do
    require (has flags SCRIPT_VERIFY_P2SH) .assertion
    check (stack.length == 1) .CLEANSTACK
  else .ok ()

def verifyScript (checker : Checker) (flags : Nat) (scriptSig scriptPubKey : CScript) : Except Stop Unit := do
  check (!has flags SCRIPT_VERIFY_SIGPUSHONLY || isPushOnly scriptSig) .SIG_PUSHONLY
  let stackCopy ← evalScript checker flags [] scriptSig
  let stack ← evalScript checker flags stackCopy scriptPubKey
  checkTrue stack
  let stack ←
    if has flags SCRIPT_VERIFY_P2SH && CScript.isPayToScriptHash scriptPubKey then
      verifyRedeemScript checker flags scriptSig stackCopy
    else .ok stack
  checkCleanStack flags stack

theorem evalTurns_enough (checker : Checker) (flags : Nat) {turns more : Nat} {pc : CScript} (st : EvalState)
    (enough : pc.length ≤ turns) (longer : turns ≤ more) :
    evalTurns checker flags more pc st = evalTurns checker flags turns pc st := by
  induction turns generalizing more pc st with
  | zero =>
    have nothing : pc = [] := length_eq_zero_iff.mp (Nat.le_zero.mp enough)
    subst nothing
    cases more <;> rfl
  | succ turns ih =>
    obtain ⟨more, rfl⟩ : ∃ less, more = less + 1 := ⟨more - 1, by omega⟩
    cases pc with
    | nil => rfl
    | cons opcode pc =>
      rw [evalTurns, evalTurns]
      cases read : getOp (opcode :: pc) with
      | none => rfl
      | some op =>
        have shorter : op.2.2.length ≤ pc.length := by
          by_cases isPush : opcode ≤ OP_PUSHDATA4
          · obtain ⟨nSize, -, -, rfl⟩ := getOp_cons_push isPush read
            simp only [length_drop]
            omega
          · rw [getOp, if_neg isPush] at read
            rw [← Option.some.inj read]
        have rest (st : EvalState) : evalTurns checker flags more op.2.2 st = evalTurns checker flags turns op.2.2 st :=
          ih st (by rw [length_cons] at enough; omega) (by omega)
        simp only [Option.elim_some, rest]

end Longcoin.Interpreter
