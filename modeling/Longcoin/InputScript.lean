import Longcoin.StandardRun
import Longcoin.Sign

/-! The input scripts that signing makes, and what `VerifyScript` does with them under the standard flags. -/

namespace Longcoin.Sign
open Primitives Script Standard Interpreter Wallet Library.Bytes CScript List Option Bool

variable {checker : Checker}

/-- Data that `operator<<` pushes as `CheckMinimalPush` asks: a single byte may have an opcode of its own. -/
structure Pushable (data : List UInt8) : Prop where
  several : data.length ≠ 1
  size : data.length ≤ MAX_SCRIPT_REDEEM_SIZE

theorem pushHeader_minimal {data : List UInt8} {opcode : UInt8} (pushable : Pushable data)
    (head : (pushHeader data.length).head? = some opcode) : checkMinimalPush data opcode = true := by
  have most : data.length ≤ 520 := pushable.size
  have several := pushable.several
  rw [pushHeader] at head
  rw [checkMinimalPush, if_neg (fun single : _ ∧ _ ∧ _ => several single.1), if_neg (fun single : _ ∧ _ => several single.1)]
  split at head
  · next short =>
    rw [← some.inj head]
    split
    · next empty =>
      rw [empty]
      rfl
    · rw [if_pos (by omega), UInt8.toNat_ofNat', beq_iff_eq]
      omega
  · next long =>
    rw [if_neg (by omega), if_neg (by omega)]
    split at head
    · next one =>
      rw [if_pos one, ← some.inj head]
      rfl
    · next more =>
      rw [if_neg more, if_pos (by omega)]
      rw [if_pos (by omega)] at head
      rw [← some.inj head]
      rfl

theorem length_pushData (data : List UInt8) : (pushData data).length ≤ data.length + 5 := by
  rw [pushData, length_append, pushHeader]
  split
  · rw [length_singleton]
    omega
  · split
    · rw [length_cons, length_singleton]
      omega
    · split <;>
      · rw [length_cons, length_littleBytes]
        omega

variable {data : List (List UInt8)}

theorem length_pushAll {most : Nat} (small : ∀ item ∈ data, item.length ≤ most) :
    (pushAll data).length ≤ data.length * (most + 5) := by
  induction data with
  | nil => exact Nat.zero_le _
  | cons first rest ih =>
    have later := ih (forall_mem_cons.mp small).2
    have header := length_pushData first
    have size := small first mem_cons_self
    rw [pushAll] at later ⊢
    rw [flatMap_cons, length_append, length_cons, Nat.succ_mul]
    omega

theorem pushAll_reads (size : (pushAll data).length < 2 ^ 32) :
    ∃ ops, Reads (pushAll data) ops [] ∧ ops.map Prod.snd = data ∧
      ∀ op ∈ ops, op.1 ≤ OP_PUSHDATA4 ∧ (pushHeader op.2.length).head? = some op.1 := by
  induction data with
  | nil => exact ⟨[], rfl, rfl, nofun⟩
  | cons first rest ih =>
    have whole : pushAll (first :: rest) = pushData first ++ pushAll rest := flatMap_cons
    rw [whole, length_append] at size
    have data : first.length ≤ (pushData first).length := by
      rw [pushData, length_append]
      omega
    obtain ⟨ops, reads, items, pushes⟩ := ih (by omega)
    obtain ⟨opcode, isPush, read⟩ := getOp_pushData first (pushAll rest) (by omega)
    have head : (pushHeader first.length).head? = some opcode := by
      obtain ⟨leading, tail, header, -⟩ := pushSize_pushHeader first.length (by omega) []
      have first := head_getOp read
      rw [pushData, header] at first
      rw [header]
      exact first
    refine ⟨(opcode, first) :: ops, ⟨pushAll rest, by rw [whole, read], reads⟩, ?_, ?_⟩
    · rw [map_cons, items]
    · intro op member
      rcases mem_cons.mp member with rfl | member
      · exact ⟨isPush, head⟩
      · exact pushes op member

theorem pushOnlyTurns_reads {turns : Nat} {pc : CScript} {ops : List (UInt8 × List UInt8)} (reads : Reads pc ops [])
    (pushes : ∀ op ∈ ops, op.1 ≤ OP_PUSHDATA4) (enough : pc.length ≤ turns) : pushOnlyTurns turns pc = true := by
  induction ops generalizing turns pc with
  | nil =>
    rw [Reads] at reads
    subst reads
    cases turns <;> rfl
  | cons op ops ih =>
    obtain ⟨next, read, reads⟩ := reads
    have shorter : next.length < pc.length := length_getOp read
    obtain ⟨turns, rfl⟩ : ∃ less, turns = less + 1 := ⟨turns - 1, by omega⟩
    have small : op.1 ≤ OP_16 := UInt8.le_trans (pushes op mem_cons_self) (by decide)
    have later := ih reads (forall_mem_cons.mp pushes).2 (by omega : next.length ≤ turns)
    rw [pushOnlyTurns, read, any_some, later, decide_eq_true small]
    exact or_true _

/-- An input script leaves its items on the stack, the last one on top. -/
structure Solves (checker : Checker) (data : List (List UInt8)) : Prop where
  stack : evalScript checker STANDARD_SCRIPT_VERIFY_FLAGS [] (pushAll data) = .ok data.reverse
  pushOnly : isPushOnly (pushAll data) = true

variable {flags : Nat}

theorem evalScript_pushAll (size : (pushAll data).length ≤ MAX_SCRIPT_SIZE) (few : data.length ≤ 1000)
    (small : ∀ item ∈ data, item.length ≤ MAX_SCRIPT_PUSH_SIZE)
    (asked : ∀ item ∈ data, ∀ opcode, (pushHeader item.length).head? = some opcode → passes flags (opcode, item) = true) :
    evalScript checker flags [] (pushAll data) = .ok data.reverse ∧ isPushOnly (pushAll data) = true := by
  have most : MAX_SCRIPT_SIZE = 87382 := rfl
  obtain ⟨ops, reads, items, pushes⟩ := @pushAll_reads data (by omega)
  have count : ops.length = data.length := by rw [← items, length_map]
  have item (op : UInt8 × List UInt8) (member : op ∈ ops) : op.2 ∈ data := by
    rw [← items]
    exact mem_map_of_mem member
  have sizes : ∀ op ∈ ops, op.1 ≤ OP_PUSHDATA4 ∧ op.2.length ≤ MAX_SCRIPT_PUSH_SIZE := fun op member =>
    ⟨(pushes op member).1, small op.2 (item op member)⟩
  have passed : ops.all (passes flags) = true :=
    all_eq_true.mpr fun op member => asked op.2 (item op member) op.1 (pushes op member).2
  have room : ([] : Stack).length + ops.length ≤ 1000 := by
    rw [length_nil]
    omega
  constructor
  · apply @evalScript_ok checker flags _ [] 0 data.reverse size
    rw [run_pushes reads sizes room (Nat.zero_le _), if_pos passed, items, append_nil]
    rfl
  · exact pushOnlyTurns_reads reads (fun op member => (pushes op member).1) (Nat.le_refl _)

theorem solves_of_pushable (pushable : ∀ item ∈ data, Pushable item) (few : data.length ≤ 100) :
    Solves checker data := by
  have length : (pushAll data).length ≤ data.length * 525 := length_pushAll fun item member => (pushable item member).size
  have most : MAX_SCRIPT_SIZE = 87382 := rfl
  have asked (item : List UInt8) (member : item ∈ data) (opcode : UInt8) (head : (pushHeader item.length).head? = some opcode) :
      passes STANDARD_SCRIPT_VERIFY_FLAGS (opcode, item) = true := by
    rw [passes_standard, minimalOp, pushHeader_minimal (pushable item member) head, Bool.or_true]
  have evaluated := @evalScript_pushAll checker data STANDARD_SCRIPT_VERIFY_FLAGS (by omega) (by omega)
    (fun item member => Nat.le_trans (pushable item member).size (by decide)) asked
  exact ⟨evaluated.1, evaluated.2⟩

variable {scriptSig script : CScript}

theorem verifyScript_bare {left : Stack} (pushOnly : isPushOnly scriptSig = true)
    (solved : evalScript checker flags [] scriptSig = .ok left) (bare : isPayToScriptHash script = false) :
    verifyScript checker flags scriptSig script = (evalScript checker flags left script).bind fun stack =>
        (checkTrue stack).bind fun _ => checkCleanStack flags stack := by
  rw [verifyScript, pushOnly, Bool.or_true, solved, bare, Bool.and_false]
  rfl

theorem verifies_bare (solves : Solves checker data) (bare : isPayToScriptHash script = false)
    (ends : Ends checker data.reverse script) :
    verifies checker (pushAll data) script = minimalPushes script := by
  rw [verifies, verifyScript_bare solves.pushOnly solves.stack bare, ends]
  cases minimalPushes script <;> rfl

theorem p2sh_reads {hash : List UInt8} (p2sh : isPayToScriptHash script = true) (hashed : range script 2 20 = some hash) :
    Reads script [(OP_HASH160, []), (0x14, hash), (OP_EQUAL, [])] [] ∧ hash.length = 20 := by
  have length := range_length hashed
  refine ⟨?_, length⟩
  simp only [isPayToScriptHash, and_eq_true, beq_iff_eq] at p2sh
  obtain ⟨⟨⟨whole, first⟩, second⟩, last⟩ := p2sh
  obtain ⟨-, part⟩ := range_some hashed
  rcases script with _ | ⟨s0, _ | ⟨s1, tail⟩⟩
  · cases whole
  · cases whole
  · obtain rfl : s0 = 0xa9 := some.inj first
    obtain rfl : s1 = 0x14 := some.inj second
    have tailLength : tail.length = 21 := by
      simp only [length_cons] at whole
      omega
    have pushed : hash = tail.take 20 := part
    have ended : tail.drop 20 = [0x87] := by
      have there : tail[20]? = some 0x87 := last
      rw [drop_eq_getElem_cons (by omega), drop_eq_nil_of_le (by omega)]
      rw [getElem?_eq_getElem (by omega)] at there
      rw [some.inj there]
    have readPush : getOp (0x14 :: tail) = some (0x14, hash, [0x87]) := by
      rw [getOp, if_pos (by decide), pushSize, if_pos (by decide), bind_some]
      have none : sizeBytes 0x14 = 0 := by decide
      rw [none, drop_zero, tailLength, if_neg (by decide), pushed, ← ended]
      rfl
    exact ⟨_, rfl, _, readPush, _, rfl, rfl⟩

theorem evalScript_p2sh {redeem : CScript} {rest : Stack} (p2sh : isPayToScriptHash script = true)
    (hashed : range script 2 20 = some (checker.hash160 redeem)) (few : rest.length ≤ 900) :
    evalScript checker flags (redeem :: rest) script = .ok ([1] :: rest) := by
  obtain ⟨⟨next1, readHash, next2, readPush, next3, readEqual, ended⟩, length⟩ := p2sh_reads p2sh hashed
  have size : script.length ≤ MAX_SCRIPT_SIZE := by
    simp only [isPayToScriptHash, and_eq_true, beq_iff_eq] at p2sh
    rw [p2sh.1.1.1]
    decide
  have minimal : passes flags (0x14, checker.hash160 redeem) = true := by
    have shortest : minimalOp (0x14, checker.hash160 redeem) = true := by
      rw [minimalOp, checkMinimalPush, length]
      rfl
    rw [passes, shortest, Bool.or_true]
  refine @evalScript_ok checker _ _ _ 2 _ size ?_
  have hashes : run checker flags script ⟨redeem :: rest, [], [], 0, script⟩ =
      run checker flags next1 ⟨checker.hash160 redeem :: rest, [], [], 1, script⟩ := by
    refine run_op readHash (by decide) (by decide) (by decide) (by rw [length_cons]; omega) ?_
    rw [evalOp_hash160, opHash_top]
    rfl
  have equal : run checker flags next2
      ⟨checker.hash160 redeem :: checker.hash160 redeem :: rest, [], [], 1, script⟩ = .ok ⟨[1] :: rest, [], [], 2, script⟩ := by
    rw [ended] at readEqual
    refine run_op readEqual (by decide) (by decide) (by decide) (by rw [length_cons]; omega) ?_
    rw [evalOp_equal, (opEqual_same (checker.hash160 redeem) rest).1]
    rfl
  rw [hashes, run_push readPush (show (0x14 : UInt8) ≤ OP_PUSHDATA4 by decide) (by rw [length]; decide) (by rw [length_cons]; omega) (by decide),
    if_pos minimal, equal]

theorem verifyScript_p2sh {redeem : CScript} {rest : Stack} (pushOnly : isPushOnly scriptSig = true)
    (solved : evalScript checker flags [] scriptSig = .ok (redeem :: rest)) (asked : has flags SCRIPT_VERIFY_P2SH = true)
    (few : rest.length ≤ 900) (p2sh : isPayToScriptHash script = true)
    (hashed : range script 2 20 = some (checker.hash160 redeem)) : verifyScript checker flags scriptSig script =
      (evalScript checker flags rest redeem).bind fun stack =>
        (checkTrue stack).bind fun _ => checkCleanStack flags stack := by
  have found := @evalScript_p2sh checker flags _ _ _ p2sh hashed few
  have redeems : verifyRedeemScript checker flags scriptSig (redeem :: rest) =
      (evalScript checker flags rest redeem).bind fun stack => (checkTrue stack).bind fun _ => .ok stack := by
    rw [verifyRedeemScript, pushOnly]
    rfl
  rw [verifyScript, pushOnly, Bool.or_true, solved, p2sh, asked]
  change ((evalScript checker flags (redeem :: rest) script).bind _) = _
  rw [found]
  change (verifyRedeemScript checker flags scriptSig (redeem :: rest)).bind _ = _
  rw [redeems]
  cases evalScript checker flags rest redeem with
  | error stop => rfl
  | ok stack => cases checked : checkTrue stack <;> simp [Except.bind, checked]

theorem Solves.redeem {redeem : CScript} (solves : Solves checker (data ++ [redeem])) :
    evalScript checker STANDARD_SCRIPT_VERIFY_FLAGS [] (pushAll (data ++ [redeem])) = .ok (redeem :: data.reverse) := by
  have left : (data ++ [redeem]).reverse = redeem :: data.reverse := by
    rw [reverse_append]
    rfl
  rw [solves.stack, left]

theorem verifies_p2sh {redeem : CScript} (solves : Solves checker (data ++ [redeem])) (few : data.length ≤ 100)
    (p2sh : isPayToScriptHash script = true) (hashed : range script 2 20 = some (checker.hash160 redeem))
    (ends : Ends checker data.reverse redeem) :
    verifies checker (pushAll (data ++ [redeem])) script = minimalPushes redeem := by
  rw [verifies, verifyScript_p2sh solves.pushOnly solves.redeem (by decide) (by rw [length_reverse]; omega) p2sh hashed, ends]
  cases minimalPushes redeem <;> rfl

theorem evalScript_return {stack : Stack} {pc : CScript} :
    ∃ stop, evalScript checker flags stack (OP_RETURN :: pc) = .error stop := by
  by_cases size : (OP_RETURN :: pc).length ≤ MAX_SCRIPT_SIZE
  · refine ⟨.error .OP_RETURN, evalScript_error size ?_⟩
    have read : getOp (OP_RETURN :: pc) = some (OP_RETURN, [], pc) := rfl
    rw [run_read read, @evalStep_exec checker flags OP_RETURN [] pc _ 1 rfl (by simp) (by decide) (by decide),
      execOp_plain (by decide) rfl]
    rfl
  · refine ⟨.error .SCRIPT_SIZE, ?_⟩
    rw [evalScript, decide_eq_false size]
    rfl

theorem verifies_return {pc : CScript} : verifies checker scriptSig (OP_RETURN :: pc) = false := by
  rw [verifies, verifyScript]
  cases passed : check (!has STANDARD_SCRIPT_VERIFY_FLAGS SCRIPT_VERIFY_SIGPUSHONLY || isPushOnly scriptSig) .SIG_PUSHONLY with
  | error stop => rfl
  | ok _ =>
    cases left : evalScript checker STANDARD_SCRIPT_VERIFY_FLAGS [] scriptSig with
    | error stop => rfl
    | ok stack =>
      obtain ⟨stop, fails⟩ := @evalScript_return checker STANDARD_SCRIPT_VERIFY_FLAGS stack pc
      simp [bind, Except.bind, fails, Except.toBool]

theorem verifies_p2sh_return {pc : CScript} (solves : Solves checker (data ++ [OP_RETURN :: pc])) (few : data.length ≤ 100)
    (p2sh : isPayToScriptHash script = true) (hashed : range script 2 20 = some (checker.hash160 (OP_RETURN :: pc))) :
    verifies checker (pushAll (data ++ [OP_RETURN :: pc])) script = false := by
  obtain ⟨stop, fails⟩ := @evalScript_return checker STANDARD_SCRIPT_VERIFY_FLAGS data.reverse pc
  rw [verifies, verifyScript_p2sh solves.pushOnly solves.redeem (by decide) (by rw [length_reverse]; omega) p2sh hashed, fails]
  rfl

end Longcoin.Sign
