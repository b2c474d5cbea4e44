import Longcoin.Library.Steps
import Longcoin.Sign
import Longcoin.SignatureHash

/-! The cache of signatures that have verified (`script/sigcache.cpp`), shared by calls of `CheckSig` that run at the
same time. -/

namespace Longcoin.SignatureCache
open Primitives Script Library Library.Bytes Serialize Sign List Option Finset Function

/-- The hashes, `CPubKey::Verify` and the nonce of the cache. -/
structure Env (Entry : Type) where
  nonce : Uint256
  sha256 : List UInt8 → Entry
  hash256 : List UInt8 → Uint256
  verify : List UInt8 → Uint256 → List UInt8 → Bool

/-- `CheckSig` of a `CachingTransactionSignatureChecker`. -/
structure Call where
  txTo : CTransaction
  nIn : Nat
  store : Bool
  vchSigIn : List UInt8
  vchPubKey : List UInt8
  scriptCode : CScript

/-- What reaches `VerifySignature`. Only public keys of the length that their first byte tells do. -/
structure Query where
  sighash : Uint256
  pubkey : List UInt8
  vchSig : List UInt8
  sized : ∃ chHeader rest, pubkey = chHeader :: rest ∧ getLen chHeader = pubkey.length

theorem cPubKey_sized {vch : List UInt8} (valid : cPubKey vch ≠ []) :
    ∃ chHeader rest, cPubKey vch = chHeader :: rest ∧ getLen chHeader = (cPubKey vch).length := by
  unfold cPubKey at valid ⊢
  split at valid
  · next header =>
    rw [if_pos header]
    cases vch with
    | nil => exact absurd rfl valid
    | cons chHeader rest =>
      simp only [head?_cons, any_some, Bool.and_eq_true, beq_iff_eq] at header
      exact ⟨chHeader, rest, rfl, header.2⟩
  · exact absurd rfl valid

variable {Entry : Type} (env : Env Entry)

def signatureHash (scriptCode : CScript) (txTo : CTransaction) (nIn : Nat) (nHashType : BitVec 32) : Uint256 :=
  (SignatureHash.signatureHash scriptCode txTo nIn nHashType).elim 1 env.hash256

def Call.query (call : Call) : Option Query :=
  if valid : cPubKey call.vchPubKey = [] then none
  else call.vchSigIn.getLast?.map fun nHashType =>
    { sighash := signatureHash env call.scriptCode call.txTo call.nIn (BitVec.ofNat 32 nHashType.toNat)
      pubkey := cPubKey call.vchPubKey, vchSig := call.vchSigIn.dropLast, sized := cPubKey_sized valid }

def Query.verifies (query : Query) : Bool := env.verify query.pubkey query.sighash query.vchSig

/-- `TransactionSignatureChecker::CheckSig`. -/
def Call.checkSig (call : Call) : Bool := (call.query env).elim false (Query.verifies env)

/-- The bytes that `ComputeEntry` hashes. -/
def Query.bytes (query : Query) : List UInt8 :=
  writeUint256 env.nonce ++ (writeUint256 query.sighash ++ (query.pubkey ++ query.vchSig))

def computeEntry (query : Query) : Entry := env.sha256 (query.bytes env)

/-- A thread, by the section of the cache it enters next. -/
inductive Thread where
  | idle
  | get (call : Call)
  | erase (call : Call) (query : Query)
  | set (call : Call) (query : Query)
  | returned (call : Call) (result : Bool)

structure System (Entry ι : Type) where
  setValid : Finset Entry := ∅
  threads : ι → Thread := fun _ => .idle

/-- `set` comes with the entries that are evicted; with a cache of no size nothing is inserted. -/
inductive Event (Entry ι : Type) where
  | call (thread : ι) (call : Call)
  | get (thread : ι)
  | erase (thread : ι)
  | set (thread : ι) (evicted : Finset Entry) (inserts : Bool)

/-- `VerifySignature` from the answer of `Get` to the next section or the end. -/
def afterGet (call : Call) (query : Query) (found : Bool) : Thread :=
  if found then if call.store then .returned call true else .erase call query
  else if query.verifies env then if call.store then .set call query else .returned call true
  else .returned call false

variable {ι : Type} [DecidableEq Entry] [DecidableEq ι]

def System.move (s : System Entry ι) (thread : ι) (next : Thread) : System Entry ι :=
  { s with threads := Function.update s.threads thread next }

def step (s : System Entry ι) : Event Entry ι → Option (System Entry ι)
  | .call thread call =>
      match s.threads thread with
      | .idle => some (s.move thread (.get call))
      | .returned _ _ => some (s.move thread (.get call))
      | _ => none
  | .get thread =>
      match s.threads thread with
      | .get call =>
          some (s.move thread ((call.query env).elim (.returned call false) fun query =>
            afterGet env call query (decide (computeEntry env query ∈ s.setValid))))
      | _ => none
  | .erase thread =>
      match s.threads thread with
      | .erase call query => some { s.move thread (.returned call true) with setValid := s.setValid.erase (computeEntry env query) }
      | _ => none
  | .set thread evicted inserts =>
      match s.threads thread with
      | .set call query =>
          some { s.move thread (.returned call true) with
            setValid := if inserts then insert (computeEntry env query) (s.setValid \ evicted) else s.setValid }
      | _ => none

/-- What is asked of the cache in a run. -/
def asked (events : List (Event Entry ι)) : List Query :=
  events.filterMap fun
    | .call _ call => call.query env
    | _ => none

/-- No two of the strings hashed for these queries collide. -/
def CollisionFree (queries : List Query) : Prop :=
  ∀ first ∈ queries, ∀ second ∈ queries, computeEntry env first = computeEntry env second → first.bytes env = second.bytes env

omit [DecidableEq Entry] in
/-- The first byte of the public key tells where it ends. -/
theorem bytes_injective {first second : Query} (same : first.bytes env = second.bytes env) : first = second := by
  obtain ⟨sighash, pubkey, vchSig, chHeader, rest, starts, sized⟩ := first
  obtain ⟨sighash', pubkey', vchSig', chHeader', rest', starts', sized'⟩ := second
  have after := (append_inj same rfl).2
  obtain ⟨hashes, keys⟩ := append_inj after (by simp [writeUint256])
  have sameHash : sighash = sighash' := by
    have numbers := congrArg little hashes
    rw [writeUint256, writeUint256, little_littleBytes 32 _ sighash.isLt, little_littleBytes 32 _ sighash'.isLt] at numbers
    exact BitVec.eq_of_toNat_eq numbers
  simp only at keys
  have header : chHeader = chHeader' := by
    rw [starts, starts'] at keys
    exact (cons.inj keys).1
  obtain ⟨sameKey, sameSig⟩ := append_inj keys (by rw [← sized, ← sized', header])
  subst sameHash sameKey sameSig
  rfl

/-- Where a thread stands, its call would come out as it should. -/
def ThreadSound (queries : List Query) : Thread → Prop
  | .idle => True
  | .get call => ∀ query, call.query env = some query → query ∈ queries
  | .erase call _ => call.checkSig env = true
  | .set call query => query ∈ queries ∧ query.verifies env = true ∧ call.checkSig env = true
  | .returned call result => result = call.checkSig env

structure Sound (queries : List Query) (s : System Entry ι) : Prop where
  entries : ∀ entry ∈ s.setValid, ∃ query ∈ queries, computeEntry env query = entry ∧ query.verifies env = true
  threads : ∀ thread, ThreadSound env queries (s.threads thread)

variable {env} {queries : List Query} {s : System Entry ι}

omit [DecidableEq Entry] in
theorem ThreadSound.move (sound : Sound env queries s) {thread : ι} {next : Thread} (well : ThreadSound env queries next)
    (other : ι) : ThreadSound env queries ((s.move thread next).threads other) := by
  change ThreadSound env queries (update s.threads thread next other)
  by_cases same : other = thread
  · rw [same, update_self]
    exact well
  · rw [update_of_ne same]
    exact sound.threads other

omit [DecidableEq Entry] [DecidableEq ι] in
/-- An entry that is found stems from the same query. -/
theorem hit_verifies (collisionFree : CollisionFree env queries) (sound : Sound env queries s) {query : Query}
    (member : query ∈ queries) (found : computeEntry env query ∈ s.setValid) : query.verifies env = true := by
  obtain ⟨other, known, same, verified⟩ := sound.entries _ found
  obtain rfl := bytes_injective env (collisionFree other known query member same)
  exact verified

omit [DecidableEq ι] in
theorem sound_afterGet (collisionFree : CollisionFree env queries) (sound : Sound env queries s) {call : Call}
    (known : ∀ query, call.query env = some query → query ∈ queries) :
    ThreadSound env queries ((call.query env).elim (.returned call false) fun query =>
      afterGet env call query (decide (computeEntry env query ∈ s.setValid))) := by
  cases asks : call.query env with
  | none =>
    change false = call.checkSig env
    rw [Call.checkSig, asks]
    rfl
  | some query =>
    have checks : call.checkSig env = query.verifies env := by rw [Call.checkSig, asks, elim_some]
    rw [elim_some, afterGet]
    split
    · next found =>
      have verified := hit_verifies collisionFree sound (known query asks) (of_decide_eq_true found)
      split
      · exact (checks.trans verified).symm
      · exact checks.trans verified
    · split
      · next verified =>
        split
        · exact ⟨known query asks, verified, checks.trans verified⟩
        · exact (checks.trans verified).symm
      · next fails => exact ((Bool.not_eq_true _).mp (checks ▸ fails)).symm

open ThreadSound

theorem sound_step (collisionFree : CollisionFree env queries) (sound : Sound env queries s) {event : Event Entry ι}
    {next : System Entry ι} (runs : step env s event = some next) (listed : ∀ query ∈ asked env [event], query ∈ queries) :
    Sound env queries next := by
  cases event with
  | call thread call =>
    have known (query : Query) (asks : call.query env = some query) : query ∈ queries := by
      apply listed
      simp [asked, asks]
    have moved : Sound env queries (s.move thread (.get call)) := ⟨sound.entries, move sound known⟩
    simp only [step] at runs
    split at runs
    · obtain rfl := some.inj runs
      exact moved
    · obtain rfl := some.inj runs
      exact moved
    · cases runs
  | get thread =>
    simp only [step] at runs
    split at runs
    · next call at_ =>
      obtain rfl := some.inj runs
      have known : ThreadSound env queries (.get call) := at_ ▸ sound.threads thread
      exact ⟨sound.entries, move sound (sound_afterGet collisionFree sound known)⟩
    · cases runs
  | erase thread =>
    simp only [step] at runs
    split at runs
    · next call query at_ =>
      obtain rfl := some.inj runs
      have hit : ThreadSound env queries (.erase call query) := at_ ▸ sound.threads thread
      refine ⟨fun entry member => sound.entries entry (mem_of_mem_erase member), ?_⟩
      exact move sound (show true = _ from Eq.symm hit)
    · cases runs
  | set thread evicted inserts =>
    simp only [step] at runs
    split at runs
    · next call query at_ =>
      obtain rfl := some.inj runs
      have missed : ThreadSound env queries (.set call query) := at_ ▸ sound.threads thread
      refine ⟨fun entry member => ?_, move sound (show true = _ from missed.2.2.symm)⟩
      change entry ∈ (if inserts = true then _ else _) at member
      split at member
      · rcases mem_insert.mp member with rfl | kept
        · exact ⟨query, missed.1, rfl, missed.2.1⟩
        · exact sound.entries entry (mem_sdiff.mp kept).1
      · exact sound.entries entry member
    · cases runs

theorem sound_run {events : List (Event Entry ι)} {last : System Entry ι} (collisionFree : CollisionFree env queries)
    (run : Steps (fun s event next => step env s event = some next) s events last)
    (listed : ∀ query ∈ asked env events, query ∈ queries) (sound : Sound env queries s) : Sound env queries last := by
  induction run with
  | done s => exact sound
  | more first rest ih =>
    rw [asked, ← singleton_append, filterMap_append] at listed
    refine ih (forall_mem_append.mp listed).2 ?_
    exact sound_step collisionFree sound first (forall_mem_append.mp listed).1

/-- However the calls interleave and whatever is evicted, each returns what it would return without the cache, and two
queries never share an entry. -/
theorem cache_transparent {events : List (Event Entry ι)} (collisionFree : CollisionFree env (asked env events))
    (run : Steps (fun s event next => step env s event = some next) {} events s) :
    (∀ thread call result, s.threads thread = .returned call result → result = call.checkSig env) ∧
    ∀ first ∈ asked env events, ∀ second ∈ asked env events, computeEntry env first = computeEntry env second → first = second := by
  have start : Sound env (asked env events) ({} : System Entry ι) := by
    refine ⟨fun entry member => absurd member (notMem_empty entry), fun _ => trivial⟩
  have sound := sound_run collisionFree run (fun _ member => member) start
  refine ⟨fun thread call result ends => ?_, fun first known second known' same => ?_⟩
  · have answer := sound.threads thread
    rw [ends] at answer
    exact answer
  · exact bytes_injective env (collisionFree first known second known' same)

def sampleEnv : Env (List UInt8) := ⟨0, id, fun _ => 0, fun _ _ _ => true⟩

def sampleCall : Call where
  txTo := { hash := 0, nVersion := 1, vin := [], vout := [], nLockTime := 0 }
  nIn := 0
  store := true
  vchSigIn := [1]
  vchPubKey := 2 :: List.replicate 32 0
  scriptCode := []

def sampleEvents : List (Event (List UInt8) Bool) :=
  [.call false sampleCall, .call true sampleCall, .get false, .set false ∅ true, .get true]

/-- The second thread of two finds what the first has stored. -/
theorem second_call_hits : ∃ s : System (List UInt8) Bool, s.setValid.card = 1 ∧ s.threads true = .returned sampleCall true ∧
    true = sampleCall.checkSig sampleEnv := by
  obtain ⟨s, run, one, ends⟩ : ∃ s, Steps (fun s event next => step sampleEnv s event = some next) {} sampleEvents s ∧
      s.setValid.card = 1 ∧ s.threads true = .returned sampleCall true :=
    ⟨_, .more rfl (.more rfl (.more rfl (.more rfl (.more rfl (.done _))))), rfl, rfl⟩
  have collisionFree : CollisionFree sampleEnv (asked sampleEnv sampleEvents) := fun _ _ _ _ same => same
  exact ⟨s, one, ends, (cache_transparent collisionFree run).1 true sampleCall true ends⟩

end Longcoin.SignatureCache
