import Mathlib.Algebra.Group.Nat.Defs
import Mathlib.Data.List.Basic

/-! `CDataStream` of `streams.h`: a vector whose first bytes are consumed, read and written as a queue of bytes. -/

namespace Longcoin.DataStream
open List Option

structure CDataStream where
  vch : List UInt8
  nReadPos : Nat
deriving DecidableEq

/-- What a call gives back; `failure` is thrown. -/
inductive Answer
  | done
  | failure
  | bytes (data : List UInt8)
  | returned (result : Bool)
deriving DecidableEq

inductive Call
  | write (pch : List UInt8)
  | read (nSize : Nat)
  | ignore (nSize : Nat)
  | erase
  /-- `erase(begin(), begin() + count)` -/
  | eraseRange (count : Nat)
  /-- `insert(begin(), first, last)` -/
  | insert (bytes : List UInt8)
  /-- `insert(begin(), n, x)` -/
  | insertFill (n : Nat) (x : UInt8)
  | resize (n : Nat) (c : UInt8)
  | rewind (n : Nat)
  | compact
  | xor (key : List UInt8)
  | getAndClear
deriving DecidableEq

namespace CDataStream

/-- `begin()` to `end()` -/
def content (s : CDataStream) : List UInt8 := s.vch.drop s.nReadPos

def size (s : CDataStream) : Nat := s.vch.length - s.nReadPos

def clear : CDataStream := { vch := [], nReadPos := 0 }

def resize (s : CDataStream) (n : Nat) (c : UInt8) : CDataStream :=
  { s with vch := s.vch.take (n + s.nReadPos) ++ replicate (n + s.nReadPos - s.vch.length) c }

/-- `vch.insert(begin(), ..)` -/
def insertFront (s : CDataStream) (bytes : List UInt8) : CDataStream :=
  { s with vch := s.vch.take s.nReadPos ++ (bytes ++ s.vch.drop s.nReadPos) }

def insert (s : CDataStream) (bytes : List UInt8) : CDataStream :=
  if bytes.length % 2 ^ 32 ≤ s.nReadPos then
    -- Room before the front: `memcpy` into the consumed bytes.
    let nReadPos := s.nReadPos - bytes.length % 2 ^ 32
    { vch := s.vch.take nReadPos ++ (bytes ++ s.vch.drop (nReadPos + bytes.length)), nReadPos }
  else s.insertFront bytes

def erase (s : CDataStream) : CDataStream :=
  let nReadPos := (s.nReadPos + 1) % 2 ^ 32
  if nReadPos ≥ s.vch.length then clear else { s with nReadPos }

def eraseRange (s : CDataStream) (count : Nat) : CDataStream :=
  if s.nReadPos + count = s.vch.length then clear else { s with nReadPos := (s.nReadPos + count) % 2 ^ 32 }

def compact (s : CDataStream) : CDataStream := { vch := s.vch.drop s.nReadPos, nReadPos := 0 }

def rewind (s : CDataStream) (n : Nat) : Answer × CDataStream :=
  if n > s.nReadPos then (.returned false, s) else (.returned true, { s with nReadPos := s.nReadPos - n })

def read (s : CDataStream) (nSize : Nat) : Answer × CDataStream :=
  let nReadPosNext := (s.nReadPos + nSize) % 2 ^ 32
  let pch := (s.vch.drop s.nReadPos).take nSize
  if nReadPosNext ≥ s.vch.length then
    if nReadPosNext > s.vch.length then (.failure, s) else (.bytes pch, clear)
  else (.bytes pch, { s with nReadPos := nReadPosNext })

def ignore (s : CDataStream) (nSize : Nat) : Answer × CDataStream :=
  let nReadPosNext := (s.nReadPos + nSize) % 2 ^ 32
  if nReadPosNext ≥ s.vch.length then
    if nReadPosNext > s.vch.length then (.failure, s) else (.done, clear)
  else (.done, { s with nReadPos := nReadPosNext })

def write (s : CDataStream) (pch : List UInt8) : CDataStream := { s with vch := s.vch ++ pch }

/-- The loop of `Xor`, `count` turns over the bytes from `vch[i]` on. -/
def xorLoop (key : List UInt8) : (j count : Nat) → List UInt8 → List UInt8
  | j, count + 1, byte :: rest => (byte ^^^ key.getD j 0) :: xorLoop key (if j + 1 = key.length then 0 else j + 1) count rest
  | _, _, vch => vch

def xor (s : CDataStream) (key : List UInt8) : CDataStream :=
  if key.length = 0 then s else { s with vch := xorLoop key 0 s.size s.vch }

def call (s : CDataStream) : Call → Answer × CDataStream
  | .write pch => (.done, s.write pch)
  | .read nSize => s.read nSize
  | .ignore nSize => s.ignore nSize
  | .erase => (.done, s.erase)
  | .eraseRange count => (.done, s.eraseRange count)
  | .insert bytes => (.done, s.insert bytes)
  | .insertFill n x => (.done, s.insertFront (replicate n x))
  | .resize n c => (.done, s.resize n c)
  | .rewind n => s.rewind n
  | .compact => (.done, s.compact)
  | .xor key => (.done, s.xor key)
  | .getAndClear => (.bytes s.content, clear)

end CDataStream

/-! The queue of bytes that the stream stands for, and the bytes taken from its front since something was
inserted there. -/

/-- The content under a repeated key. -/
def masked (key content : List UInt8) : List UInt8 := content.mapIdx fun i byte => byte ^^^ key.getD (i % key.length) 0

/-- What a call on a queue answers and leaves. Of `Rewind` it is left open when it succeeds, and what it brings
back of the bytes from before an insertion. -/
def Right (content consumed : List UInt8) (answer : Answer) (content' : List UInt8) : Call → Prop
  | .write pch => answer = .done ∧ content' = content ++ pch
  | .read nSize => if nSize ≤ content.length then answer = .bytes (content.take nSize) ∧ content' = content.drop nSize
      else answer = .failure ∧ content' = content
  | .ignore nSize => if nSize ≤ content.length then answer = .done ∧ content' = content.drop nSize
      else answer = .failure ∧ content' = content
  | .erase => answer = .done ∧ content' = content.drop 1
  | .eraseRange count => answer = .done ∧ content' = content.drop count
  | .insert bytes => answer = .done ∧ content' = bytes ++ content
  | .insertFill n x => answer = .done ∧ content' = replicate n x ++ content
  | .resize n c => answer = .done ∧ content' = content.take n ++ replicate (n - content.length) c
  | .rewind n => answer = .returned false ∧ content' = content ∨
      answer = .returned true ∧ (n ≤ consumed.length → content' = consumed.drop (consumed.length - n) ++ content)
  | .compact => answer = .done ∧ content' = content
  | .xor key => answer = .done ∧ content' = masked key content
  | .getAndClear => answer = .bytes content ∧ content' = []

def consumedAfter (content consumed : List UInt8) (answer : Answer) : Call → List UInt8
  | .read nSize | .ignore nSize => if answer = .failure then consumed else consumed ++ content.take nSize
  | .erase => consumed ++ content.take 1
  | .eraseRange count => consumed ++ content.take count
  | .insert bytes => if bytes = [] then consumed else []
  | .insertFill n _ => if n = 0 then consumed else []
  | .rewind n => if answer = .returned true then consumed.take (consumed.length - n) else consumed
  | .getAndClear => consumed ++ content
  | _ => consumed

/-- Every call of a run answers and leaves what it does on the queue. -/
def Faithful (s : CDataStream) (consumed : List UInt8) : List Call → Prop
  | [] => True
  | call :: rest => Right s.content consumed (s.call call).1 (s.call call).2.content call ∧
      Faithful (s.call call).2 (consumedAfter s.content consumed (s.call call).1 call) rest

/-- A property of every call of a run and the stream that it is made on. -/
def Throughout (property : CDataStream → Call → Prop) (s : CDataStream) : List Call → Prop
  | [] => True
  | call :: rest => property s call ∧ Throughout property (s.call call).2 rest

/-- Sizes below 2^31, and nothing erased beyond the end. -/
def InRange (s : CDataStream) (call : Call) : Prop :=
  s.vch.length < 2 ^ 31 ∧ match call with
    | .read nSize | .ignore nSize => nSize < 2 ^ 31
    | .erase => 0 < s.size
    | .eraseRange count => count ≤ s.size
    | .insert bytes => bytes.length < 2 ^ 31
    | _ => True

/-- `Xor` comes while the vector has no consumed bytes, or all the key bytes that it uses are zero. -/
def XorAtStart (s : CDataStream) : Call → Prop
  | .xor key => s.nReadPos = 0 ∨ ∀ i < s.size, key.getD (i % key.length) 0 = 0
  | _ => True

/-- The bytes before the front are the last ones consumed, as far back as both go. -/
def Agree (passed consumed : List UInt8) : Prop := passed <:+ consumed ∨ consumed <:+ passed

section Agreement
variable {passed consumed : List UInt8}

theorem Agree.append (agree : Agree passed consumed) (taken : List UInt8) : Agree (passed ++ taken) (consumed ++ taken) :=
  agree.imp suffix_append_self_iff.mpr suffix_append_self_iff.mpr

theorem split_back {n : Nat} (front back : List UInt8) (inside : n ≤ back.length) :
    (front ++ back).take ((front ++ back).length - n) = front ++ back.take (back.length - n) ∧
      (front ++ back).drop ((front ++ back).length - n) = back.drop (back.length - n) := by
  rw [length_append, Nat.add_sub_assoc inside, take_length_add_append, drop_length_add_append]
  exact ⟨rfl, rfl⟩

theorem Agree.rewind (agree : Agree passed consumed) {n : Nat} (inside : n ≤ passed.length) :
    Agree (passed.take (passed.length - n)) (consumed.take (consumed.length - n)) ∧
      (n ≤ consumed.length → passed.drop (passed.length - n) = consumed.drop (consumed.length - n)) := by
  rcases agree with ⟨front, rfl⟩ | ⟨front, rfl⟩
  · rw [(split_back front passed inside).1, (split_back front passed inside).2]
    exact ⟨.inl (suffix_append front _), fun _ => rfl⟩
  · by_cases enough : n ≤ consumed.length
    · rw [(split_back front consumed enough).1, (split_back front consumed enough).2]
      exact ⟨.inr (suffix_append front _), fun _ => rfl⟩
    · rw [Nat.sub_eq_zero_of_le (Nat.le_of_not_le enough), take_zero]
      exact ⟨.inr nil_suffix, fun known => absurd known enough⟩

end Agreement

/-- The stream with `passed` before its front and `left` from there on. -/
def holding (passed left : List UInt8) : CDataStream := { vch := passed ++ left, nReadPos := passed.length }

theorem content_holding (passed left : List UInt8) : (holding passed left).content = left := drop_left

theorem size_holding (passed left : List UInt8) : (holding passed left).size = left.length := by
  rw [CDataStream.size, holding, length_append, Nat.add_sub_cancel_left]

/-- The stream holds the queue's content, and before it what was consumed. -/
def Keeps (s : CDataStream) (content consumed : List UInt8) : Prop :=
  ∃ passed, s = holding passed content ∧ Agree passed consumed

theorem Keeps.content_eq {s : CDataStream} {content consumed : List UInt8} (keeps : Keeps s content consumed) :
    s.content = content := by
  obtain ⟨passed, rfl, -⟩ := keeps
  exact content_holding passed content

/-- A call does what it does on the queue, and the stream holds what that leaves. -/
def Goes (s : CDataStream) (content consumed : List UInt8) (call : Call) : Prop :=
  ∃ content', Right content consumed (s.call call).1 content' call ∧
    Keeps (s.call call).2 content' (consumedAfter content consumed (s.call call).1 call)

theorem xorLoop_entry (key : List UInt8) (used : key ≠ []) {j : Nat} (inside : j < key.length) (count : Nat) (vch : List UInt8)
    (i : Nat) : (CDataStream.xorLoop key j count vch)[i]? =
      vch[i]?.map (· ^^^ if i < count then key.getD ((j + i) % key.length) 0 else 0) := by
  induction vch generalizing j count i with
  | nil => cases count <;> simp [CDataStream.xorLoop]
  | cons byte rest ih =>
    cases count with
    | zero => simp [CDataStream.xorLoop]
    | succ count =>
      rw [CDataStream.xorLoop]
      cases i with
      | zero => simp [Nat.mod_eq_of_lt inside]
      | succ i =>
        have positive := length_pos_iff.mpr used
        have wraps : ((if j + 1 = key.length then 0 else j + 1) + i) % key.length = (j + (i + 1)) % key.length := by
          split
          · next ends => rw [← Nat.add_assoc, Nat.add_right_comm, ends, Nat.zero_add, Nat.add_mod_left]
          · rw [Nat.add_assoc, Nat.add_comm 1 i]
        rw [getElem?_cons_succ, getElem?_cons_succ, ih (by split <;> omega), wraps]
        simp only [Nat.add_lt_add_iff_right]

section Calls
variable {passed left consumed : List UInt8}

theorem keeps_clear (consumed : List UInt8) : Keeps .clear [] consumed := ⟨[], rfl, .inl nil_suffix⟩

/-- Bytes taken from the front: the offset moves, and at the end the vector is cleared. -/
theorem keeps_taken (agree : Agree passed consumed) {count : Nat} (inside : count ≤ left.length) :
    Keeps (if count = left.length then .clear else { vch := passed ++ left, nReadPos := passed.length + count })
      (left.drop count) (consumed ++ left.take count) := by
  split
  · next all =>
    rw [drop_eq_nil_of_le (Nat.le_of_eq all.symm)]
    exact keeps_clear _
  · refine ⟨passed ++ left.take count, ?_, agree.append _⟩
    rw [holding, append_assoc, take_append_drop, length_append, length_take, Nat.min_eq_left inside]

/-- The offset that `read` and `ignore` compare with the size, and what they leave. -/
theorem next_cases {nSize : Nat} (threw gave : Answer) (small : (passed ++ left).length < 2 ^ 31) (asked : nSize < 2 ^ 31) :
    (let nReadPosNext := (passed.length + nSize) % 2 ^ 32
      if nReadPosNext ≥ (passed ++ left).length then
        if nReadPosNext > (passed ++ left).length then (threw, holding passed left) else (gave, CDataStream.clear)
      else (gave, { vch := passed ++ left, nReadPos := nReadPosNext })) =
    if nSize ≤ left.length then
      (gave, if nSize = left.length then .clear else { vch := passed ++ left, nReadPos := passed.length + nSize })
    else (threw, holding passed left) := by
  have next : (passed.length + nSize) % 2 ^ 32 = passed.length + nSize := by
    rw [length_append] at small
    omega
  rw [next, length_append]
  rcases Nat.lt_trichotomy nSize left.length with less | rfl | more
  · simp only [if_neg (show ¬ passed.length + nSize ≥ passed.length + left.length by omega), if_pos (Nat.le_of_lt less),
      if_neg (Nat.ne_of_lt less)]
  · simp
  · simp only [if_pos (show passed.length + nSize ≥ passed.length + left.length by omega),
      if_pos (show passed.length + nSize > passed.length + left.length by omega), if_neg (show ¬ nSize ≤ left.length by omega)]

theorem read_goes (agree : Agree passed consumed) {nSize : Nat} (small : (passed ++ left).length < 2 ^ 31) (asked : nSize < 2 ^ 31) :
    Goes (holding passed left) left consumed (.read nSize) ∧ Goes (holding passed left) left consumed (.ignore nSize) := by
  have reads := next_cases .failure (.bytes ((holding passed left).content.take nSize)) small asked
  have ignores := next_cases .failure .done small asked
  change (holding passed left).read nSize = _ at reads
  change (holding passed left).ignore nSize = _ at ignores
  rw [content_holding] at reads
  unfold Goes
  simp only [CDataStream.call, Right, consumedAfter, reads, ignores]
  by_cases inside : nSize ≤ left.length
  · simp only [if_pos inside, reduceCtorEq, if_false]
    exact ⟨⟨_, ⟨trivial, rfl⟩, keeps_taken agree inside⟩, ⟨_, ⟨trivial, rfl⟩, keeps_taken agree inside⟩⟩
  · simp only [if_neg inside, if_true]
    exact ⟨⟨left, ⟨trivial, rfl⟩, passed, rfl, agree⟩, ⟨left, ⟨trivial, rfl⟩, passed, rfl, agree⟩⟩

theorem erase_goes (agree : Agree passed consumed) (small : (passed ++ left).length < 2 ^ 31) (some' : 0 < left.length) :
    Goes (holding passed left) left consumed .erase := by
  refine ⟨left.drop 1, ⟨rfl, rfl⟩, ?_⟩
  have state : (holding passed left).erase = if 1 = left.length then .clear else { vch := passed ++ left, nReadPos := passed.length + 1 } := by
    rw [length_append] at small
    simp only [CDataStream.erase, holding, length_append, Nat.mod_eq_of_lt (show passed.length + 1 < 2 ^ 32 by omega)]
    congr 1
    exact propext ⟨fun _ => by omega, fun _ => by omega⟩
  have taken := keeps_taken agree some'
  rwa [← state] at taken

theorem eraseRange_goes (agree : Agree passed consumed) (small : (passed ++ left).length < 2 ^ 31) {count : Nat}
    (inside : count ≤ left.length) : Goes (holding passed left) left consumed (.eraseRange count) := by
  refine ⟨left.drop count, ⟨rfl, rfl⟩, ?_⟩
  have state : (holding passed left).eraseRange count =
      if count = left.length then .clear else { vch := passed ++ left, nReadPos := passed.length + count } := by
    rw [length_append] at small
    simp only [CDataStream.eraseRange, holding, length_append, Nat.mod_eq_of_lt (show passed.length + count < 2 ^ 32 by omega),
      Nat.add_left_cancel_iff]
  have taken := keeps_taken agree inside
  rwa [← state] at taken

theorem keeps_insertFront (passed left bytes : List UInt8) (agree : Agree passed (if bytes = [] then consumed else [])) :
    Keeps ((holding passed left).insertFront bytes) (bytes ++ left) (if bytes = [] then consumed else []) := by
  refine ⟨passed, ?_, agree⟩
  rw [CDataStream.insertFront, holding, take_left, drop_left]
  rfl

theorem agree_inserted (agree : Agree passed consumed) (bytes : List UInt8) : Agree passed (if bytes = [] then consumed else []) := by
  split
  · exact agree
  · exact .inr nil_suffix

theorem insert_goes (agree : Agree passed consumed) (bytes : List UInt8) (asked : bytes.length < 2 ^ 31) :
    Goes (holding passed left) left consumed (.insert bytes) := by
  refine ⟨bytes ++ left, ⟨rfl, rfl⟩, ?_⟩
  change Keeps ((holding passed left).insert bytes) _ _
  rw [CDataStream.insert, Nat.mod_eq_of_lt (by omega)]
  split
  · next room =>
    obtain ⟨front, back, rfl, size⟩ : ∃ front back, passed = front ++ back ∧ back.length = bytes.length :=
      ⟨_, _, (take_append_drop (passed.length - bytes.length) passed).symm, by rw [length_drop]; change _ ≤ passed.length at room; omega⟩
    have position : (front ++ back).length - bytes.length = front.length := by rw [length_append, size, Nat.add_sub_cancel]
    refine ⟨front, ?_, ?_⟩
    · simp only [holding, position, append_assoc, take_left]
      rw [← size, ← length_append, ← append_assoc front back, drop_left]
    · by_cases none : bytes = []
      · rw [none, length_nil] at size
        rw [eq_nil_of_length_eq_zero size, append_nil] at agree
        exact agree_inserted agree bytes
      · change Agree front (if bytes = [] then consumed else [])
        rw [if_neg none]
        exact .inr nil_suffix
  · exact keeps_insertFront passed left bytes (agree_inserted agree bytes)

theorem insertFill_goes (agree : Agree passed consumed) (n : Nat) (x : UInt8) :
    Goes (holding passed left) left consumed (.insertFill n x) := by
  have kept := keeps_insertFront passed left (replicate n x) (agree_inserted agree (replicate n x))
  simp only [replicate_eq_nil_iff] at kept
  exact ⟨_, ⟨rfl, rfl⟩, kept⟩

theorem resize_goes (agree : Agree passed consumed) (n : Nat) (c : UInt8) : Goes (holding passed left) left consumed (.resize n c) := by
  refine ⟨_, ⟨rfl, rfl⟩, passed, ?_, agree⟩
  change (holding passed left).resize n c = _
  rw [CDataStream.resize, holding, Nat.add_comm, take_length_add_append, length_append, Nat.add_sub_add_left, append_assoc]
  rfl

theorem rewind_goes (agree : Agree passed consumed) (n : Nat) : Goes (holding passed left) left consumed (.rewind n) := by
  unfold Goes
  simp only [CDataStream.call, CDataStream.rewind, Right, consumedAfter]
  split
  · exact ⟨left, .inl ⟨rfl, rfl⟩, passed, rfl, agree⟩
  · next within =>
    obtain ⟨agree', same⟩ := agree.rewind (Nat.le_of_not_lt within)
    refine ⟨passed.drop (passed.length - n) ++ left, .inr ⟨rfl, fun known => by rw [same known]⟩,
      passed.take (passed.length - n), ?_, ?_⟩
    · simp only [holding, ← append_assoc, take_append_drop, length_take, Nat.min_eq_left (Nat.sub_le _ _)]
    · rw [if_pos rfl]
      exact agree'

/-- `Xor` goes over the vector from its first byte: it is right on the content when that is the front, or when nothing
changes. The key bytes are zero from the last one used backwards, as each is asked to equal a later one. -/
theorem xor_right_iff (passed left key : List UInt8) :
    ((holding passed left).xor key).content = masked key left ↔ XorAtStart (holding passed left) (.xor key) := by
  rw [XorAtStart, size_holding]
  by_cases unused : key = []
  · have plain : masked [] left = left := ext_getElem? fun i => by simp [masked]
    simp [unused, CDataStream.xor, content_holding, plain]
  have positive := length_pos_iff.mpr unused
  have entry (i : Nat) : ((holding passed left).xor key).content[i]? = left[i]?.map
      (· ^^^ if passed.length + i < left.length then key.getD ((passed.length + i) % key.length) 0 else 0) := by
    rw [CDataStream.xor, if_neg (Nat.ne_of_gt positive), CDataStream.content, size_holding, getElem?_drop]
    change (CDataStream.xorLoop key 0 left.length (passed ++ left))[passed.length + i]? = _
    rw [xorLoop_entry key unused positive, getElem?_append_right (Nat.le_add_right _ _), Nat.add_sub_cancel_left, Nat.zero_add]
  constructor
  · intro right
    by_cases start : passed.length = 0
    · exact .inl start
    have mask (i : Nat) (inside : i < left.length) : (if passed.length + i < left.length then
        key.getD ((passed.length + i) % key.length) 0 else 0) = key.getD (i % key.length) 0 := by
      have same := congrArg (·[i]?) right
      simp only [entry, masked, getElem?_mapIdx, getElem?_eq_getElem inside, map_some, some.injEq] at same
      exact (UInt8.xor_right_inj _).mp same
    have zero (distance : Nat) : ∀ i < left.length, left.length ≤ i + distance → key.getD (i % key.length) 0 = 0 := by
      induction distance with
      | zero => exact fun i inside beyond => absurd beyond (Nat.not_le_of_lt inside)
      | succ distance ih =>
        intro i inside near
        rw [← mask i inside]
        split
        · next later => exact ih _ later (by omega)
        · rfl
    exact .inr fun i inside => zero left.length i inside (Nat.le_add_left _ _)
  · intro harmless
    apply ext_getElem?
    intro i
    rw [entry, masked, getElem?_mapIdx]
    by_cases inside : i < left.length
    · rw [getElem?_eq_getElem inside, map_some, map_some]
      rcases harmless with start | zero
      · change passed.length = 0 at start
        rw [start, Nat.zero_add, if_pos inside]
      · rw [zero i inside]
        split
        · next later => rw [zero _ later]
        · rfl
    · rw [getElem?_eq_none (Nat.le_of_not_lt inside), map_none, map_none]

theorem xor_goes (agree : Agree passed consumed) (key : List UInt8) (harmless : XorAtStart (holding passed left) (.xor key)) :
    Goes (holding passed left) left consumed (.xor key) := by
  refine ⟨masked key left, ⟨rfl, rfl⟩, ?_⟩
  have right := (xor_right_iff passed left key).mpr harmless
  change Keeps ((holding passed left).xor key) _ consumed
  by_cases start : passed = []
  · subst start
    refine ⟨[], ?_, agree⟩
    rw [← right, holding, CDataStream.content]
    unfold CDataStream.xor
    split <;> rfl
  · -- The key bytes are zero, so no byte of the vector changes.
    have zero := harmless.resolve_left fun none => start (eq_nil_of_length_eq_zero none)
    rw [size_holding] at zero
    have same : (holding passed left).xor key = holding passed left := by
      unfold CDataStream.xor
      split
      · rfl
      · next used =>
        have unused : key ≠ [] := fun none => used (by rw [none]; rfl)
        rw [size_holding]
        congr 1
        apply ext_getElem?
        intro i
        rw [xorLoop_entry key unused (length_pos_iff.mpr unused)]
        by_cases inside : i < left.length
        · rw [if_pos inside, Nat.zero_add, zero i inside]
          simp [holding]
        · rw [if_neg inside]
          simp [holding]
    rw [same] at right ⊢
    rw [content_holding] at right
    exact ⟨passed, by rw [← right], agree⟩

/-- What one call does, for every call but a harmful `Xor`. -/
theorem Keeps.goes {s : CDataStream} {content : List UInt8} (keeps : Keeps s content consumed) (call : Call)
    (inRange : InRange s call) (harmless : XorAtStart s call) : Goes s content consumed call := by
  obtain ⟨passed, rfl, agree⟩ := keeps
  obtain ⟨small, asked⟩ := inRange
  cases call with
  | write pch => exact ⟨_, ⟨rfl, rfl⟩, passed, congrArg (CDataStream.mk · _) (append_assoc passed content pch), agree⟩
  | read nSize => exact (read_goes agree small asked).1
  | ignore nSize => exact (read_goes agree small asked).2
  | erase => exact erase_goes agree small (size_holding passed content ▸ asked)
  | eraseRange count => exact eraseRange_goes agree small (size_holding passed content ▸ asked)
  | insert bytes => exact insert_goes agree bytes asked
  | insertFill n x => exact insertFill_goes agree n x
  | resize n c => exact resize_goes agree n c
  | rewind n => exact rewind_goes agree n
  | compact => exact ⟨_, ⟨rfl, rfl⟩, [], congrArg (CDataStream.mk · 0) (content_holding passed content), .inl nil_suffix⟩
  | xor key => exact xor_goes agree key harmless
  | getAndClear => exact ⟨_, ⟨congrArg Answer.bytes (content_holding passed content), rfl⟩, keeps_clear _⟩

theorem run_faithful_iff {s : CDataStream} {content : List UInt8} (keeps : Keeps s content consumed) (calls : List Call)
    (inRange : Throughout InRange s calls) : Faithful s consumed calls ↔ Throughout XorAtStart s calls := by
  induction calls generalizing s content consumed with
  | nil => exact Iff.rfl
  | cons call rest ih =>
    by_cases harmless : XorAtStart s call
    · obtain ⟨content', right, kept⟩ := keeps.goes call inRange.1 harmless
      rw [← keeps.content_eq] at kept right
      rw [← kept.content_eq] at right
      exact and_congr (iff_of_true right harmless) (ih kept inRange.2)
    · refine iff_of_false (fun faithful => harmless ?_) fun all => harmless all.1
      obtain ⟨passed, rfl, -⟩ := keeps
      cases call with
      | xor key =>
        have right := faithful.1.2
        rw [content_holding] at right
        exact (xor_right_iff passed content key).mp right
      | _ => exact trivial

end Calls

/-- A stream is a queue of bytes on exactly the runs in which every `Xor` finds nothing consumed in the vector, or
changes nothing. -/
theorem stream_faithful_iff (bytes : List UInt8) (calls : List Call) (inRange : Throughout InRange ⟨bytes, 0⟩ calls) :
    Faithful ⟨bytes, 0⟩ [] calls ↔ Throughout XorAtStart ⟨bytes, 0⟩ calls :=
  run_faithful_iff ⟨[], rfl, .inl nil_suffix⟩ calls inRange

theorem stream_faithful_rewound : Faithful ⟨[1, 2, 3], 0⟩ [] [.xor [7], .read 2, .rewind 1, .insert [9]] := by
  refine (stream_faithful_iff _ _ ?_).mpr ?_
  · simp [Throughout, InRange, CDataStream.call, CDataStream.xor, CDataStream.size, CDataStream.xorLoop, CDataStream.read, CDataStream.rewind]
  · simp [Throughout, XorAtStart]

theorem xor_misses_front : Throughout InRange ⟨[1, 2], 0⟩ [.read 1, .xor [7]] ∧ ¬ Faithful ⟨[1, 2], 0⟩ [] [.read 1, .xor [7]] := by
  refine ⟨by simp [Throughout, InRange, CDataStream.call, CDataStream.read], fun faithful => ?_⟩
  exact absurd faithful.2.1.2 (by decide)

end Longcoin.DataStream
