import Longcoin.Script

/-! The parsers of LONG data (`script/standard.cpp`): a data output `OP_RETURN <push>` whose pushed
bytes begin with `0c 0f 0e 07`, a version byte, the fields TO and FROM, and the body. A parser gives
nothing when it reads outside the script or the pushed bytes; else it gives what it returns: nothing
for `false`. -/

namespace Longcoin.LongData
open Primitives Script Library.Bytes Option

/-- `txnouttype`. -/
inductive TxnOutType where
  | nonStandard
  | pubKey
  | pubKeyHash
  | scriptHash
  | multisig
  | nullData
deriving DecidableEq, Repr

def isReturnPush (scriptPubKey : CScript) : Bool :=
  scriptPubKey.head? == some OP_RETURN && isPushOnly (scriptPubKey.drop 1)

def getOffsetPushedReturnData (scriptPubKey : CScript) : Option (Option Nat) :=
  if isReturnPush scriptPubKey then
    scriptPubKey[1]?.map fun opcode => if opcode ≤ OP_PUSHDATA4 then some (1 + sizeBytes opcode) else none
  else some none

def getSizePushedReturnData (scriptPubKey : CScript) : Option (Option Nat) :=
  if isReturnPush scriptPubKey then
    scriptPubKey[1]?.bind fun opcode =>
      if opcode < OP_PUSHDATA1 then some (some opcode.toNat)
      else if opcode ≤ OP_PUSHDATA4 then (readLittle (sizeBytes opcode) scriptPubKey 2).map some
      else some none
  else some none

def getPushedReturnData (scriptPubKey : CScript) : Option (Option (List UInt8)) :=
  (getOffsetPushedReturnData scriptPubKey).bind fun offset? => offset?.elim (some none) fun offset =>
    (getSizePushedReturnData scriptPubKey).bind fun size? => size?.elim (some none) fun size =>
      (range scriptPubKey (1 + offset) size).map some

def longBytes : List UInt8 := [0x0c, 0x0f, 0x0e, 0x07]

def isLong (scriptPubKey : CScript) : Option Bool :=
  (getPushedReturnData scriptPubKey).bind fun data? => data?.elim (some false) (startsWith longBytes)

def getLongVersion (scriptPubKey : CScript) : Option (Option UInt8) :=
  (getPushedReturnData scriptPubKey).bind fun data? => data?.elim (some none) fun data =>
    (startsWith longBytes data).bind fun marked => if marked then data[4]?.map some else some none

def OP_TO : UInt8 := 0xf0
def OP_FROM : UInt8 := 0xf1
def OP_DATA_TYPE : UInt8 := 0xf2
def OP_ENCRYPTION : UInt8 := 0xf3

/-- What a kind byte announces: a compressed key, a key, a key hash or a script hash, and its size. -/
def keyKind (kind : UInt8) : Option (TxnOutType × Nat) :=
  if kind = 0xfe then some (.pubKey, 33)
  else if kind = 0xff then some (.pubKey, 65)
  else if kind = 0xfd then some (.pubKeyHash, 20)
  else if kind = 0xfc then some (.scriptHash, 20)
  else none

/-- The key or hash of the field at `offset`, when the field is there and its kind known. -/
def readKey (tag : UInt8) (data : List UInt8) (offset : Nat) : Option (Option (List UInt8 × TxnOutType)) :=
  data[offset]?.bind fun first =>
    if first = tag then
      data[offset + 1]?.bind fun kind => (keyKind kind).elim (some none) fun key =>
        (range data (offset + 2) key.2).map fun bytes => some (bytes, key.1)
    else some none

/-- The offset past the field. Of a field of unknown kind only the tag is skipped. -/
def skipKey (tag : UInt8) (data : List UInt8) (offset : Nat) : Option Nat :=
  data[offset]?.bind fun first =>
    if first = tag then data[offset + 1]?.map fun kind => offset + 1 + (keyKind kind).elim 0 fun key => 1 + key.2
    else some offset

/-- What the parsers begin with: `isLong`, then the pushed bytes. -/
def withLong {α : Type} (scriptPubKey : CScript) (parse : List UInt8 → Option (Option α)) : Option (Option α) :=
  (isLong scriptPubKey).bind fun long =>
    if long then (getPushedReturnData scriptPubKey).bind fun data? => data?.elim (some none) parse
    else some none

/-- Past the mark and the version byte. The mark is compared once more. -/
def afterVersion (data : List UInt8) : Option Nat := (startsWith longBytes data).map fun marked => if marked then 5 else 0

def getLongToPubKey (scriptPubKey : CScript) : Option (Option (List UInt8 × TxnOutType)) :=
  withLong scriptPubKey fun data => (afterVersion data).bind fun offset => readKey OP_TO data offset

def getLongFromPubKey (scriptPubKey : CScript) : Option (Option (List UInt8 × TxnOutType)) :=
  withLong scriptPubKey fun data =>
    (afterVersion data).bind fun offset => (skipKey OP_TO data offset).bind fun offset => readKey OP_FROM data offset

def getOffsetLongData (scriptPubKey : CScript) : Option (Option Nat) :=
  withLong scriptPubKey fun data =>
    (afterVersion data).bind fun offset => (skipKey OP_TO data offset).bind fun offset =>
      (skipKey OP_FROM data offset).map some

/-- The parsers of the body: after `getOffsetLongData`. -/
def withOffset {α : Type} (scriptPubKey : CScript) (parse : List UInt8 → Nat → Option (Option α)) : Option (Option α) :=
  withLong scriptPubKey fun data =>
    (getOffsetLongData scriptPubKey).bind fun offset? => offset?.elim (some none) fun offset => parse data offset

/-- The byte after `tag`, when `tag` is at `offset`. -/
def readEntry (tag : UInt8) (data : List UInt8) (offset : Nat) : Option (Option UInt8) :=
  data[offset]?.bind fun first => if first = tag then data[offset + 1]?.map some else some none

/-- The offset past an entry of two bytes, which may be absent. -/
def skipEntry (tag : UInt8) (data : List UInt8) (offset : Nat) : Option Nat :=
  data[offset]?.map fun first => if first = tag then offset + 2 else offset

def getTypeLongData (scriptPubKey : CScript) : Option (Option UInt8) :=
  withOffset scriptPubKey fun data offset => readEntry OP_DATA_TYPE data offset

/-- Two bytes after the fields, whether or not a data type is there. -/
def getEncryptionLongData (scriptPubKey : CScript) : Option (Option UInt8) :=
  withOffset scriptPubKey fun data offset => readEntry OP_ENCRYPTION data (offset + 2)

def bodyOffset (data : List UInt8) (offset : Nat) : Option Nat :=
  (skipEntry OP_DATA_TYPE data offset).bind fun offset => skipEntry OP_ENCRYPTION data offset

def getSizeLongData (scriptPubKey : CScript) : Option (Option Nat) :=
  withOffset scriptPubKey fun data offset =>
    (bodyOffset data offset).bind fun offset => data[offset]?.bind fun opcode =>
      if opcode < OP_PUSHDATA1 then some (some opcode.toNat)
      else if opcode ≤ OP_PUSHDATA4 then (readLittle (sizeBytes opcode) data (offset + 1)).map some
      else some none

/-- How many bytes the body begins after its opcode, recomputed from the size. -/
def bodyShift (size : Nat) : Nat :=
  if size ≤ 75 then 1 else if size ≤ 255 then 2 else if size ≤ 65535 then 3 else 5

def getBodyLongData (scriptPubKey : CScript) : Option (Option (List UInt8)) :=
  withOffset scriptPubKey fun data offset =>
    (getSizeLongData scriptPubKey).bind fun size? => size?.elim (some none) fun size =>
      (bodyOffset data offset).bind fun offset => (range data (offset + bodyShift size) size).map some

theorem keyKind_type {kind : UInt8} {key : TxnOutType × Nat} (known : keyKind kind = some key) :
    key.1 ≠ .multisig ∧ key.1 ≠ .nullData ∧ key.1 ≠ .nonStandard := by
  unfold keyKind at known
  split at known
  · cases known
    decide
  · split at known
    · cases known
      decide
    · split at known
      · cases known
        decide
      · split at known
        · cases known
          decide
        · cases known

variable {tag : UInt8} {offset : Nat}

theorem readKey_type {data : List UInt8} {key : List UInt8 × TxnOutType} (read : readKey tag data offset = some (some key)) :
    key.2 ≠ .multisig ∧ key.2 ≠ .nullData ∧ key.2 ≠ .nonStandard := by
  obtain ⟨first, -, read⟩ := bind_eq_some_iff.mp read
  split at read
  · obtain ⟨kind, -, read⟩ := bind_eq_some_iff.mp read
    cases known : keyKind kind with
    | none =>
      rw [known] at read
      cases read
    | some found =>
      rw [known, elim_some] at read
      obtain ⟨bytes, -, read⟩ := map_eq_some_iff.mp read
      cases read
      exact keyKind_type known
  · cases read

theorem getLongToPubKey_type {scriptPubKey : CScript} {key : List UInt8 × TxnOutType}
    (found : getLongToPubKey scriptPubKey = some (some key)) :
    isLong scriptPubKey = some true ∧ key.2 ≠ .multisig ∧ key.2 ≠ .nullData ∧ key.2 ≠ .nonStandard := by
  unfold getLongToPubKey withLong at found
  obtain ⟨long, marked, found⟩ := bind_eq_some_iff.mp found
  cases long with
  | false => cases found
  | true =>
    obtain ⟨data?, -, found⟩ := bind_eq_some_iff.mp found
    cases data? with
    | none => cases found
    | some data =>
      obtain ⟨offset, -, read⟩ := bind_eq_some_iff.mp found
      exact ⟨marked, readKey_type read⟩

def firstPush (scriptPubKey : CScript) : Option (List UInt8) :=
  if isReturnPush scriptPubKey then
    (getOp (scriptPubKey.drop 1)).bind fun op => if op.1 ≤ OP_PUSHDATA4 then some op.2.1 else none
  else none

theorem isReturnPush_cases {scriptPubKey : CScript} (pushes : isReturnPush scriptPubKey = true) :
    ∃ pc, scriptPubKey = OP_RETURN :: pc ∧ isPushOnly pc = true := by
  rw [isReturnPush, Bool.and_eq_true] at pushes
  cases scriptPubKey with
  | nil => cases pushes.1
  | cons opcode pc =>
    have first : opcode = OP_RETURN := by simpa using pushes.1
    exact ⟨pc, by rw [first], pushes.2⟩

theorem getPushedReturnData_eq {scriptPubKey : CScript} (more : scriptPubKey ≠ [OP_RETURN]) :
    getPushedReturnData scriptPubKey = some (firstPush scriptPubKey) := by
  by_cases pushes : isReturnPush scriptPubKey = true
  swap
  · rw [getPushedReturnData, getOffsetPushedReturnData, firstPush, if_neg pushes, if_neg pushes]
    rfl
  obtain ⟨pc, rfl, pushOnly⟩ := isReturnPush_cases pushes
  cases pc with
  | nil => exact absurd rfl more
  | cons opcode pc =>
    obtain ⟨op, read⟩ := isSome_iff_exists.mp (getOp_of_isPushOnly pushOnly (List.cons_ne_nil _ _))
    rw [getPushedReturnData, getOffsetPushedReturnData, getSizePushedReturnData, firstPush, if_pos pushes, if_pos pushes,
      if_pos pushes]
    change (Option.bind (some _) _) = some (Option.bind (getOp (opcode :: pc)) _)
    rw [read]
    by_cases isPush : opcode ≤ OP_PUSHDATA4
    swap
    · have opEq : (opcode, [], pc) = op := by
        rw [getOp, if_neg isPush] at read
        exact some.inj read
      rw [← opEq]
      simp [isPush]
    obtain ⟨nSize, sized, fits, rfl⟩ := getOp_cons_push isPush read
    have part : range (OP_RETURN :: opcode :: pc) (1 + (1 + sizeBytes opcode)) nSize =
        some ((pc.drop (sizeBytes opcode)).take nSize) := by
      rw [range_of_le (by simp only [List.length_cons]; omega), Nat.add_comm 1, Nat.add_comm 1, List.drop_succ_cons,
        List.drop_succ_cons]
    have size : (if opcode < OP_PUSHDATA1 then some (some opcode.toNat)
        else (readLittle (sizeBytes opcode) (OP_RETURN :: opcode :: pc) 2).map some) = some (some nSize) := by
      rw [pushSize] at sized
      split
      · next small =>
        rw [if_pos small] at sized
        rw [sized]
      · next large =>
        rw [if_neg large] at sized
        have same : readLittle (sizeBytes opcode) (OP_RETURN :: opcode :: pc) 2 = readLittle (sizeBytes opcode) pc 0 := by
          have there := readLittle_isSome.mp (isSome_of_eq_some sized)
          rw [readLittle, readLittle, range_of_le there, range_of_le (by simp only [List.length_cons]; omega)]
          rfl
        rw [same, sized, map_some]
    simp only [isPush, if_true, bind_some, elim_some, List.getElem?_cons_succ, List.getElem?_cons_zero,
      size, part, map_some]

theorem firstPush_ne {scriptPubKey : CScript} {data : List UInt8} (pushed : firstPush scriptPubKey = some data) :
    scriptPubKey ≠ [OP_RETURN] := by
  rintro rfl
  exact some_ne_none data pushed.symm

variable {scriptPubKey : CScript} {data : List UInt8}

theorem isLong_eq (pushed : firstPush scriptPubKey = some data) : isLong scriptPubKey = startsWith longBytes data := by
  rw [isLong, getPushedReturnData_eq (firstPush_ne pushed), pushed]
  rfl

theorem withLong_eq {α : Type} (parse : List UInt8 → Option (Option α)) (pushed : firstPush scriptPubKey = some data)
    (marked : longBytes <+: data) : withLong scriptPubKey parse = parse data := by
  rw [withLong, isLong_eq pushed, startsWith_true.mpr marked, getPushedReturnData_eq (firstPush_ne pushed), pushed]
  rfl

theorem afterVersion_eq (marked : longBytes <+: data) : afterVersion data = some 5 := by
  rw [afterVersion, startsWith_true.mpr marked]
  rfl

section

variable (pushed : firstPush scriptPubKey = some data) (marked : longBytes <+: data)
include pushed marked

theorem getLongToPubKey_eq : getLongToPubKey scriptPubKey = readKey OP_TO data 5 := by
  rw [getLongToPubKey, withLong_eq _ pushed marked, afterVersion_eq marked, bind_some]

theorem getLongFromPubKey_eq :
    getLongFromPubKey scriptPubKey = (skipKey OP_TO data 5).bind fun offset => readKey OP_FROM data offset := by
  rw [getLongFromPubKey, withLong_eq _ pushed marked, afterVersion_eq marked, bind_some]

theorem getOffsetLongData_eq : getOffsetLongData scriptPubKey =
      (skipKey OP_TO data 5).bind fun offset => (skipKey OP_FROM data offset).map some := by
  rw [getOffsetLongData, withLong_eq _ pushed marked, afterVersion_eq marked, bind_some]

end

theorem withOffset_eq {α : Type} (parse : List UInt8 → Nat → Option (Option α))
    (pushed : firstPush scriptPubKey = some data) (marked : longBytes <+: data) : withOffset scriptPubKey parse =
      (skipKey OP_TO data 5).bind fun offset => (skipKey OP_FROM data offset).bind fun offset => parse data offset := by
  rw [withOffset, withLong_eq _ pushed marked, getOffsetLongData_eq pushed marked]
  cases skipKey OP_TO data 5 with
  | none => rfl
  | some offset =>
    rw [bind_some, bind_some]
    cases skipKey OP_FROM data offset <;> rfl

/-- How long the field at `offset` says it is: its tag and, when the kind is known, the kind and the key. -/
def fieldLength (tag : UInt8) (data : List UInt8) (offset : Nat) : Nat :=
  if data[offset]? = some tag then 1 + (data[offset + 1]?.bind keyKind).elim 0 (fun key => 1 + key.2) else 0

theorem skipKey_some {past : Nat} (skipped : skipKey tag data offset = some past) :
    past = offset + fieldLength tag data offset ∧ offset < data.length := by
  rw [skipKey] at skipped
  obtain ⟨first, there, skipped⟩ := bind_eq_some_iff.mp skipped
  refine ⟨?_, (List.getElem?_eq_some_iff.mp there).1⟩
  rw [fieldLength, there]
  split at skipped
  · next same =>
    obtain ⟨kind, second, rfl⟩ := map_eq_some_iff.mp skipped
    rw [if_pos (by rw [same]), second, bind_some, Nat.add_assoc]
  · next other =>
    rw [if_neg (fun same => other (some.inj same))]
    exact (some.inj skipped).symm

theorem skipKey_of_lt (fits : offset + fieldLength tag data offset < data.length) :
    skipKey tag data offset = some (offset + fieldLength tag data offset) := by
  have there : data[offset]? = some data[offset] := List.getElem?_eq_getElem (by omega)
  rw [fieldLength, there] at fits ⊢
  rw [skipKey, there, bind_some]
  split
  · next same =>
    rw [if_pos (by rw [same])] at fits ⊢
    have second : data[offset + 1]? = some data[offset + 1] := List.getElem?_eq_getElem (by omega)
    rw [second, bind_some, map_some, Nat.add_assoc]
  · next other =>
    rw [if_neg (fun same => other (some.inj same)), Nat.add_zero]

theorem readKey_isSome (fits : offset + fieldLength tag data offset < data.length) :
    (readKey tag data offset).isSome = true := by
  have there : data[offset]? = some data[offset] := List.getElem?_eq_getElem (by omega)
  rw [fieldLength, there] at fits
  rw [readKey, there, bind_some]
  split
  · next same =>
    rw [if_pos (by rw [same])] at fits
    have second : data[offset + 1]? = some data[offset + 1] := List.getElem?_eq_getElem (by omega)
    rw [second, bind_some] at fits ⊢
    cases kind : keyKind data[offset + 1] with
    | none => rfl
    | some key =>
      rw [kind, elim_some] at fits
      rw [elim_some, isSome_map, range_isSome]
      omega
  · rfl

def fieldsEnd (data : List UInt8) : Nat :=
  5 + fieldLength OP_TO data 5 + fieldLength OP_FROM data (5 + fieldLength OP_TO data 5)

theorem withOffset_of_lt {α : Type} (parse : List UInt8 → Nat → Option (Option α))
    (pushed : firstPush scriptPubKey = some data) (marked : longBytes <+: data) (fits : fieldsEnd data < data.length) :
    withOffset scriptPubKey parse = parse data (fieldsEnd data) := by
  rw [fieldsEnd] at fits
  rw [withOffset_eq parse pushed marked, skipKey_of_lt (by omega), bind_some, skipKey_of_lt fits, bind_some]
  rfl

theorem withOffset_isSome {α : Type} {parse : List UInt8 → Nat → Option (Option α)}
    (pushed : firstPush scriptPubKey = some data) (marked : longBytes <+: data)
    (inRange : (withOffset scriptPubKey parse).isSome = true) : (parse data (fieldsEnd data)).isSome = true := by
  rw [withOffset_eq parse pushed marked] at inRange
  obtain ⟨parsed, read⟩ := isSome_iff_exists.mp inRange
  obtain ⟨toEnd, toSkipped, read⟩ := bind_eq_some_iff.mp read
  obtain ⟨fromEnd, fromSkipped, read⟩ := bind_eq_some_iff.mp read
  obtain ⟨rfl, -⟩ := skipKey_some toSkipped
  obtain ⟨rfl, -⟩ := skipKey_some fromSkipped
  exact isSome_of_eq_some read

def entryLength (tag : UInt8) (data : List UInt8) (offset : Nat) : Nat := if data[offset]? = some tag then 2 else 0

theorem skipEntry_eq (fits : offset < data.length) :
    skipEntry tag data offset = some (offset + entryLength tag data offset) := by
  have there : data[offset]? = some data[offset] := List.getElem?_eq_getElem fits
  rw [skipEntry, entryLength, there, map_some]
  by_cases same : data[offset] = tag
  · rw [if_pos same, if_pos (by rw [same])]
  · rw [if_neg same, if_neg (fun equal => same (some.inj equal)), Nat.add_zero]

theorem skipEntry_lt {past : Nat} (skipped : skipEntry tag data offset = some past) : offset < data.length := by
  obtain ⟨first, there, -⟩ := map_eq_some_iff.mp skipped
  exact (List.getElem?_eq_some_iff.mp there).1

def bodyStart (data : List UInt8) : Nat :=
  fieldsEnd data + entryLength OP_DATA_TYPE data (fieldsEnd data) +
    entryLength OP_ENCRYPTION data (fieldsEnd data + entryLength OP_DATA_TYPE data (fieldsEnd data))

theorem bodyOffset_of_lt (fits : bodyStart data < data.length) : bodyOffset data (fieldsEnd data) = some (bodyStart data) := by
  rw [bodyStart] at fits
  rw [bodyOffset, skipEntry_eq (by omega), bind_some, skipEntry_eq (by omega)]
  rfl

theorem bodyOffset_some (found : bodyOffset data (fieldsEnd data) = some offset) : offset = bodyStart data := by
  obtain ⟨typeEnd, typeSkipped, skipped⟩ := bind_eq_some_iff.mp found
  rw [skipEntry_eq (skipEntry_lt typeSkipped)] at typeSkipped
  obtain rfl := some.inj typeSkipped
  rw [skipEntry_eq (skipEntry_lt skipped)] at skipped
  exact (some.inj skipped).symm

theorem sizeAt_eq {opcode : UInt8} (there : data[offset]? = some opcode) :
    (if opcode < OP_PUSHDATA1 then some (some opcode.toNat)
      else if opcode ≤ OP_PUSHDATA4 then (readLittle (sizeBytes opcode) data (offset + 1)).map some
      else some none) =
    if opcode ≤ OP_PUSHDATA4 then (pushSize opcode (data.drop (offset + 1))).map some else some none := by
  have inside := (List.getElem?_eq_some_iff.mp there).1
  have same (width : Nat) : readLittle width data (offset + 1) = readLittle width (data.drop (offset + 1)) 0 := by
    rw [readLittle, readLittle, range, range, List.length_drop, List.drop_zero]
    split
    · next fits => rw [if_pos (by omega)]
    · next short => rw [if_neg (by omega)]
  rw [pushSize]
  by_cases small : opcode < OP_PUSHDATA1
  · have isPush : opcode ≤ OP_PUSHDATA4 := UInt8.le_of_lt (UInt8.lt_trans small (by decide))
    rw [if_pos small, if_pos small, if_pos isPush, map_some]
  · rw [if_neg small, if_neg small, same]

/-- The data type, the encryption and the body are where the parsers look for them. -/
structure FieldsFit (data : List UInt8) : Prop where
  entries : fieldsEnd data + 2 < data.length
  encryption : data[fieldsEnd data + 2]? = some OP_ENCRYPTION → fieldsEnd data + 3 < data.length
  start : bodyStart data < data.length
  body : ∀ opcode, data[bodyStart data]? = some opcode → opcode ≤ OP_PUSHDATA4 →
    ∃ size, pushSize opcode (data.drop (bodyStart data + 1)) = some size ∧
      bodyStart data + bodyShift size + size ≤ data.length

theorem readEntry_isSome : (readEntry tag data offset).isSome = true ↔
      offset < data.length ∧ (data[offset]? = some tag → offset + 1 < data.length) := by
  rw [readEntry]
  by_cases inside : offset < data.length
  swap
  · rw [List.getElem?_eq_none (by omega)]
    simp [inside]
  rw [List.getElem?_eq_getElem inside, bind_some]
  by_cases same : data[offset] = tag
  · simp [same, inside]
  · simp [same, inside]

theorem getSizeLongData_eq {opcode : UInt8} (pushed : firstPush scriptPubKey = some data) (marked : longBytes <+: data)
    (start : bodyStart data < data.length) (there : data[bodyStart data]? = some opcode) :
    getSizeLongData scriptPubKey =
      if opcode ≤ OP_PUSHDATA4 then (pushSize opcode (data.drop (bodyStart data + 1))).map some else some none := by
  have before : fieldsEnd data < data.length := by
    rw [bodyStart] at start
    omega
  rw [getSizeLongData, withOffset_of_lt _ pushed marked before, bodyOffset_of_lt start, bind_some, there,
    bind_some, sizeAt_eq there]

theorem getBodyLongData_eq {opcode : UInt8} {size : Nat} (pushed : firstPush scriptPubKey = some data)
    (marked : longBytes <+: data) (start : bodyStart data < data.length) (there : data[bodyStart data]? = some opcode)
    (isPush : opcode ≤ OP_PUSHDATA4) (sized : pushSize opcode (data.drop (bodyStart data + 1)) = some size) :
    getBodyLongData scriptPubKey = (range data (bodyStart data + bodyShift size) size).map some := by
  have before : fieldsEnd data < data.length := by
    rw [bodyStart] at start
    omega
  rw [getBodyLongData, withOffset_of_lt _ pushed marked before, getSizeLongData_eq pushed marked start there,
    if_pos isPush, sized, map_some, bind_some, elim_some, bodyOffset_of_lt start, bind_some]

/-- No parser reads outside the script or the pushed bytes. -/
structure ParsersInRange (scriptPubKey : CScript) : Prop where
  offsetPushed : (getOffsetPushedReturnData scriptPubKey).isSome = true
  sizePushed : (getSizePushedReturnData scriptPubKey).isSome = true
  pushed : (getPushedReturnData scriptPubKey).isSome = true
  long : (isLong scriptPubKey).isSome = true
  version : (getLongVersion scriptPubKey).isSome = true
  toPubKey : (getLongToPubKey scriptPubKey).isSome = true
  fromPubKey : (getLongFromPubKey scriptPubKey).isSome = true
  offset : (getOffsetLongData scriptPubKey).isSome = true
  type : (getTypeLongData scriptPubKey).isSome = true
  encryption : (getEncryptionLongData scriptPubKey).isSome = true
  size : (getSizeLongData scriptPubKey).isSome = true
  body : (getBodyLongData scriptPubKey).isSome = true

/-- The script is not a bare `OP_RETURN`; what it pushes first is not cut off within the mark, and
behind a mark the fields fit. -/
structure WellFormed (scriptPubKey : CScript) : Prop where
  pushes : scriptPubKey ≠ [OP_RETURN]
  mark : ∀ data, firstPush scriptPubKey = some data → ¬ (data <+: longBytes ∧ data ≠ longBytes)
  fields : ∀ data, firstPush scriptPubKey = some data → longBytes <+: data → FieldsFit data

theorem pushed_in_range (more : scriptPubKey ≠ [OP_RETURN]) :
    (getOffsetPushedReturnData scriptPubKey).isSome = true ∧ (getSizePushedReturnData scriptPubKey).isSome = true := by
  by_cases pushes : isReturnPush scriptPubKey = true
  swap
  · rw [getOffsetPushedReturnData, getSizePushedReturnData, if_neg pushes, if_neg pushes]
    exact ⟨rfl, rfl⟩
  have whole := getPushedReturnData_eq more
  obtain ⟨pc, rfl, -⟩ := isReturnPush_cases pushes
  cases pc with
  | nil => exact absurd rfl more
  | cons opcode pc =>
    have offset : getOffsetPushedReturnData (OP_RETURN :: opcode :: pc) =
        some (if opcode ≤ OP_PUSHDATA4 then some (1 + sizeBytes opcode) else none) := if_pos pushes
    refine ⟨by rw [offset]; rfl, ?_⟩
    by_cases isPush : opcode ≤ OP_PUSHDATA4
    · rw [getPushedReturnData, offset, if_pos isPush, bind_some, elim_some] at whole
      cases size : getSizePushedReturnData (OP_RETURN :: opcode :: pc) with
      | none =>
        rw [size] at whole
        cases whole
      | some size => rfl
    · have large : ¬ opcode < OP_PUSHDATA1 := fun small => isPush (UInt8.le_of_lt (UInt8.lt_trans small (by decide)))
      rw [getSizePushedReturnData, if_pos pushes]
      change isSome (if opcode < OP_PUSHDATA1 then _ else _) = true
      rw [if_neg large, if_neg isPush]
      rfl

theorem fieldsFit_of_inRange (inRange : ParsersInRange scriptPubKey) (pushed : firstPush scriptPubKey = some data)
    (marked : longBytes <+: data) : FieldsFit data := by
  have entry : (readEntry OP_ENCRYPTION data (fieldsEnd data + 2)).isSome = true :=
    withOffset_isSome pushed marked inRange.encryption
  obtain ⟨entries, encryption⟩ := readEntry_isSome.mp entry
  obtain ⟨found, read⟩ := isSome_iff_exists.mp (withOffset_isSome pushed marked inRange.size)
  obtain ⟨offset, skipped, read⟩ := bind_eq_some_iff.mp read
  obtain rfl := bodyOffset_some skipped
  obtain ⟨first, there, -⟩ := bind_eq_some_iff.mp read
  have start := (List.getElem?_eq_some_iff.mp there).1
  refine ⟨entries, fun same => encryption same, start, fun opcode same isPush => ?_⟩
  have size := inRange.size
  rw [getSizeLongData_eq pushed marked start same, if_pos isPush, isSome_map] at size
  obtain ⟨nSize, sized⟩ := isSome_iff_exists.mp size
  have body := inRange.body
  rw [getBodyLongData_eq pushed marked start same isPush sized, isSome_map, range_isSome] at body
  exact ⟨nSize, sized, body⟩

theorem wellFormed_of_inRange (inRange : ParsersInRange scriptPubKey) : WellFormed scriptPubKey := by
  refine ⟨?_, fun data pushed short => ?_, fun data pushed marked => fieldsFit_of_inRange inRange pushed marked⟩
  · rintro rfl
    cases inRange.pushed
  · have long := inRange.long
    rw [isLong_eq pushed, startsWith_none.mpr short] at long
    cases long

theorem inRange_unparsed (more : scriptPubKey ≠ [OP_RETURN]) (long : isLong scriptPubKey = some false)
    (version : getLongVersion scriptPubKey = some none) : ParsersInRange scriptPubKey := by
  have nothing {α : Type} (parse : List UInt8 → Option (Option α)) : (withLong scriptPubKey parse).isSome = true := by
    rw [withLong, long]
    rfl
  exact {
    offsetPushed := (pushed_in_range more).1
    sizePushed := (pushed_in_range more).2
    pushed := by rw [getPushedReturnData_eq more]; rfl
    long := by rw [long]; rfl
    version := by rw [version]; rfl
    toPubKey := nothing _
    fromPubKey := nothing _
    offset := nothing _
    type := nothing _
    encryption := nothing _
    size := nothing _
    body := nothing _ }

theorem inRange_of_fieldsFit (pushed : firstPush scriptPubKey = some data) (marked : longBytes <+: data)
    (fits : FieldsFit data) : ParsersInRange scriptPubKey := by
  have more := firstPush_ne pushed
  have entries := fits.entries
  have before : fieldsEnd data < data.length := by omega
  have toFits : 5 + fieldLength OP_TO data 5 < data.length := by
    rw [fieldsEnd] at before
    omega
  obtain ⟨opcode, there⟩ : ∃ opcode, data[bodyStart data]? = some opcode := ⟨_, List.getElem?_eq_getElem fits.start⟩
  refine {
    offsetPushed := (pushed_in_range more).1
    sizePushed := (pushed_in_range more).2
    pushed := by rw [getPushedReturnData_eq more]; rfl
    long := by rw [isLong_eq pushed, startsWith_true.mpr marked]; rfl
    version := ?_
    toPubKey := by rw [getLongToPubKey_eq pushed marked]; exact readKey_isSome toFits
    fromPubKey := ?_
    offset := ?_
    type := ?_
    encryption := ?_
    size := ?_
    body := ?_ }
  · rw [getLongVersion, getPushedReturnData_eq more, pushed, bind_some, elim_some,
      startsWith_true.mpr marked, bind_some, if_pos rfl, List.getElem?_eq_getElem (by omega)]
    rfl
  · rw [getLongFromPubKey_eq pushed marked, skipKey_of_lt toFits, bind_some]
    exact readKey_isSome before
  · rw [getOffsetLongData_eq pushed marked, skipKey_of_lt toFits, bind_some, skipKey_of_lt before]
    rfl
  · rw [getTypeLongData, withOffset_of_lt _ pushed marked before, readEntry_isSome]
    exact ⟨before, fun _ => by omega⟩
  · rw [getEncryptionLongData, withOffset_of_lt _ pushed marked before, readEntry_isSome]
    exact ⟨entries, fits.encryption⟩
  · rw [getSizeLongData_eq pushed marked fits.start there]
    split
    · next isPush =>
      obtain ⟨size, sized, -⟩ := fits.body _ there isPush
      rw [sized]
      rfl
    · rfl
  · by_cases isPush : opcode ≤ OP_PUSHDATA4
    · obtain ⟨size, sized, room⟩ := fits.body _ there isPush
      rw [getBodyLongData_eq pushed marked fits.start there isPush sized, isSome_map, range_isSome]
      exact room
    · rw [getBodyLongData, withOffset_of_lt _ pushed marked before, getSizeLongData_eq pushed marked fits.start there,
        if_neg isPush]
      rfl

theorem parsersInRange_iff : ParsersInRange scriptPubKey ↔ WellFormed scriptPubKey := by
  refine ⟨wellFormed_of_inRange, fun wellFormed => ?_⟩
  have more := wellFormed.pushes
  cases pushed : firstPush scriptPubKey with
  | none =>
    refine inRange_unparsed more ?_ ?_
    · rw [isLong, getPushedReturnData_eq more, pushed]
      rfl
    · rw [getLongVersion, getPushedReturnData_eq more, pushed]
      rfl
  | some data =>
    cases starts : startsWith longBytes data with
    | none => exact absurd (startsWith_none.mp starts) (wellFormed.mark data pushed)
    | some marked =>
      cases marked with
      | true =>
        have mark := startsWith_true.mp starts
        exact inRange_of_fieldsFit pushed mark (wellFormed.fields data pushed mark)
      | false =>
        refine inRange_unparsed more ?_ ?_
        · rw [isLong_eq pushed, starts]
        · rw [getLongVersion, getPushedReturnData_eq more, pushed, bind_some, elim_some, starts]
          rfl

end Longcoin.LongData
