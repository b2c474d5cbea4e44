import Longcoin.Library.Radix
import Longcoin.VectorCodec

/-! Base58 and Base58Check (`base58.cpp`). The buffers `b58` and `b256` are kept with their last byte first, as the loops go through
them. -/

namespace Longcoin.Base58
open Primitives Serialize Library.Radix List

/-- All alphanumeric characters except for "0", "I", "O", and "l". -/
def pszBase58 : List UInt8 :=
  ['1', '2', '3', '4', '5', '6', '7', '8', '9', 'A', 'B', 'C', 'D', 'E', 'F', 'G', 'H', 'J', 'K', 'L', 'M', 'N', 'P', 'Q', 'R', 'S', 'T', 'U',
    'V', 'W', 'X', 'Y', 'Z', 'a', 'b', 'c', 'd', 'e', 'f', 'g', 'h', 'i', 'j', 'k', 'm', 'n', 'o', 'p', 'q', 'r', 's', 't', 'u', 'v', 'w', 'x',
    'y', 'z'].map fun c => UInt8.ofNat c.toNat

/-- The character `1`. -/
def one : UInt8 := 0x31

def symbol (digit : Nat) : UInt8 := pszBase58.getD digit 0

def isspace (c : UInt8) : Bool := c == 0x20 || (9 ≤ c && c ≤ 13)

/-- `assert(carry == 0)`, or the exception of a container that is asked for a negative size. -/
inductive Failure where
  | assertion
  | lengthError
deriving DecidableEq

/-- An `int` that counts up. -/
def toInt (count : Nat) : Int := (count : Int).bmod (2 ^ 32)

def output (zero : UInt8) (zeroes : Int) (rest : List UInt8) : Except Failure (List UInt8) :=
  if zeroes < 0 then .error .lengthError else .ok (List.replicate zeroes.toNat zero ++ rest)

/-- The loop over the characters; nothing for one that is not of the alphabet. -/
def decodeLoop : List UInt8 → List Nat → Except Failure (Option (List Nat))
  | [], b256 => .ok (some b256)
  | c :: rest, b256 =>
      match pszBase58.idxOf? c with
      | none => .ok none
      | some digit => do
          let b256 ← push .assertion 58 256 b256 digit
          decodeLoop rest b256

/-- `DecodeBase58(psz, vch)`: the bytes, or nothing for `false`. -/
def decodeBase58 (psz : List UInt8) : Except Failure (Option (List UInt8)) := do
  let psz := psz.dropWhile isspace
  let zeroes := toInt (psz.takeWhile (· == one)).length
  let psz := psz.dropWhile (· == one)
  let b256 := List.replicate (psz.length * 733 / 1000 + 1) 0
  match ← decodeLoop (psz.takeWhile fun c => !isspace c) b256 with
  | none => return none
  | some b256 =>
      if ((psz.dropWhile fun c => !isspace c).dropWhile isspace) ≠ [] then return none
      else
        let vch ← output 0 zeroes ((strip b256).map UInt8.ofNat)
        return some vch

def encodeBase58 (vch : List UInt8) : Except Failure (List UInt8) := do
  let zeroes := toInt (vch.takeWhile (· == 0)).length
  let rest := vch.dropWhile (· == 0)
  let b58 := List.replicate (rest.length * 138 / 100 + 1) 0
  let b58 ← (rest.map UInt8.toNat).foldlM (push .assertion 256 58) b58
  output one zeroes ((strip b58).map symbol)

/-- `str.c_str()` -/
def cString (str : List UInt8) : List UInt8 := str.takeWhile (· != 0)

/-- `DecodeBase58(str, vchRet)`. -/
def decodeString (str : List UInt8) : Except Failure (Option (List UInt8)) := decodeBase58 (cString str)

section Check

variable (Hash : List UInt8 → Uint256)

def checksum (vch : List UInt8) : List UInt8 := (writeUint256 (Hash vch)).take 4

def encodeBase58Check (vchIn : List UInt8) : Except Failure (List UInt8) := encodeBase58 (vchIn ++ checksum Hash vchIn)

/-- `DecodeBase58Check(psz, vchRet)`. -/
def decodeBase58Check (psz : List UInt8) : Except Failure (Option (List UInt8)) := do
  match ← decodeBase58 psz with
  | none => return none
  | some vchRet =>
      if vchRet.length < 4 then return none
      -- the checksum is calculated again
      else if checksum Hash (vchRet.take (vchRet.length - 4)) ≠ vchRet.drop (vchRet.length - 4) then return none
      else return some (vchRet.take (vchRet.length - 4))

def decodeStringCheck (str : List UInt8) : Except Failure (Option (List UInt8)) := decodeBase58Check Hash (cString str)

end Check

example : encodeBase58 [0, 0, 0x28, 0x7f, 0xb4, 0xcd] = .ok (['1', '1', '2', '3', '3', 'Q', 'C', '4'].map fun c => UInt8.ofNat c.toNat) := by decide

def RoundTrip (v : List UInt8) : Prop := ∃ s, encodeBase58 v = .ok s ∧ decodeString s = .ok (some v)

def RoundTripCheck (Hash : List UInt8 → Uint256) (v : List UInt8) : Prop :=
  ∃ s, encodeBase58Check Hash v = .ok s ∧ decodeStringCheck Hash s = .ok (some v)

def leadingZeros (v : List UInt8) : Nat := (v.takeWhile (· == 0)).length

/-- The characters `1` after the leading white space. -/
def leadingOnes (s : List UInt8) : Nat := ((s.dropWhile isspace).takeWhile (· == one)).length

/-- A string without its leading and trailing white space. -/
def trim (s : List UInt8) : List UInt8 := ((s.dropWhile isspace).reverse.dropWhile isspace).reverse

theorem symbol_spec : ∀ digit < 58, pszBase58.idxOf? (symbol digit) = some digit ∧ isspace (symbol digit) = false ∧ symbol digit ≠ 0 ∧
    (symbol digit = one ↔ digit = 0) := by decide

theorem idxOf_symbol {c : UInt8} {digit : Nat} (found : pszBase58.idxOf? c = some digit) : digit < 58 ∧ symbol digit = c := by
  obtain ⟨inside, same, _⟩ := idxOf?_eq_some_iff.mp found
  refine ⟨inside, ?_⟩
  rw [symbol, getD_eq_getElem?_getD, getElem?_eq_getElem inside, ← same]
  rfl

theorem split_symbols (body : List UInt8) : (∃ digits : List Nat, (∀ digit ∈ digits, digit < 58) ∧ body = digits.map symbol) ∨
    ∃ (digits : List Nat) (c : UInt8) (back : List UInt8), (∀ digit ∈ digits, digit < 58) ∧ pszBase58.idxOf? c = none ∧
      body = digits.map symbol ++ c :: back := by
  induction body with
  | nil => exact .inl ⟨[], forall_mem_nil _, rfl⟩
  | cons c rest ih =>
    cases found : pszBase58.idxOf? c with
    | none => exact .inr ⟨[], c, rest, forall_mem_nil _, found, rfl⟩
    | some digit =>
      obtain ⟨small, rfl⟩ := idxOf_symbol found
      rcases ih with ⟨digits, all, rfl⟩ | ⟨digits, stray, back, all, none, rfl⟩
      · exact .inl ⟨digit :: digits, forall_mem_cons.mpr ⟨small, all⟩, rfl⟩
      · exact .inr ⟨digit :: digits, stray, back, forall_mem_cons.mpr ⟨small, all⟩, none, rfl⟩

theorem decodeLoop_symbols (digits : List Nat) (back : List UInt8) (small : ∀ digit ∈ digits, digit < 58) (b256 : List Nat) :
    decodeLoop (digits.map symbol ++ back) b256 = digits.foldlM (push .assertion 58 256) b256 >>= decodeLoop back := by
  induction digits generalizing b256 with
  | nil => rfl
  | cons digit rest ih =>
    have found := (symbol_spec digit (small digit mem_cons_self)).1
    rw [map_cons, cons_append, decodeLoop, found, foldlM_cons, bind_assoc]
    change (push Failure.assertion 58 256 b256 digit >>= fun b256 => decodeLoop (rest.map symbol ++ back) b256) = _
    congr 1
    funext b256'
    exact ih (forall_mem_cons.mp small).2 b256'

theorem span_append {α : Type} {p : α → Bool} {front back : List α} (all : ∀ x ∈ front, p x = true)
    (stops : ∀ x, back.head? = some x → p x = false) :
    (front ++ back).takeWhile p = front ∧ (front ++ back).dropWhile p = back := by
  rw [takeWhile_append_of_pos all, dropWhile_append_of_pos all]
  cases back with
  | nil => exact ⟨append_nil _, rfl⟩
  | cons x rest =>
    rw [takeWhile_cons, dropWhile_cons, stops x rfl]
    exact ⟨append_nil _, rfl⟩

theorem takeWhile_eq_replicate {α : Type} [DecidableEq α] (x : α) (items : List α) :
    items.takeWhile (· == x) = replicate (items.takeWhile (· == x)).length x := by
  apply eq_replicate_of_mem
  intro y member
  have held : (y == x) = true := mem_takeWhile_imp (p := (· == x)) member
  exact beq_iff_eq.mp held

theorem ok_bind {α β : Type} (value : α) (next : α → Except Failure β) : (Except.ok value >>= next) = next value := rfl

theorem decode_room (count : Nat) {most : Nat} (few : count ≤ most) : 58 ^ count ≤ 256 ^ (most * 733 / 1000 + 1) := by
  have powers : 58 ^ 71 ≤ 256 ^ 52 := by decide
  exact room_of_ratio powers (by omega) (by decide) (by decide)

theorem encode_room (count : Nat) : 256 ^ count ≤ 58 ^ (count * 138 / 100 + 1) := by
  have powers : 256 ^ 30 ≤ 58 ^ 41 := by decide
  exact room_of_ratio powers (by omega) (by decide) (by decide)

theorem map_toNat_ofNat {digits : List Nat} (small : ∀ digit ∈ digits, digit < 256) : (digits.map UInt8.ofNat).map UInt8.toNat = digits := by
  rw [map_map]
  calc digits.map (UInt8.toNat ∘ UInt8.ofNat) = digits.map id :=
        map_congr_left fun digit member => UInt8.toNat_ofNat_of_lt' (small digit member)
    _ = digits := map_id digits

theorem canonical_bytes (v : List UInt8) : Canonical 256 ((v.dropWhile (· == 0)).map UInt8.toNat) := by
  constructor
  · intro digit member
    obtain ⟨byte, _, rfl⟩ := mem_map.mp member
    exact byte.toNat_lt
  · intro zero
    rw [head?_map] at zero
    obtain ⟨byte, first, value⟩ := Option.map_eq_some_iff.mp zero
    have stop := head?_dropWhile_not (· == 0) v
    rw [first] at stop
    have nil : byte = 0 := UInt8.toNat.inj value
    rw [nil] at stop
    cases stop

theorem encodeBase58_eq (v : List UInt8) : ∃ digits, Canonical 58 digits ∧
    number 58 digits = number 256 ((v.dropWhile (· == 0)).map UInt8.toNat) ∧
      encodeBase58 v = output one (toInt (leadingZeros v)) (digits.map symbol) := by
  have room := encode_room (v.dropWhile (· == 0)).length
  rw [← @length_map _ _ _ UInt8.toNat] at room
  obtain ⟨buffer, run, canonical, value⟩ := @convert_canonical 256 58 _ Failure.assertion (by decide)
    ((v.dropWhile (· == 0)).map UInt8.toNat) _ (canonical_bytes v).small room
  refine ⟨strip buffer, canonical, value, ?_⟩
  rw [length_map] at run
  have whole : encodeBase58 v = ((v.dropWhile (· == 0)).map UInt8.toNat).foldlM (push .assertion 256 58)
      (replicate ((v.dropWhile (· == 0)).length * 138 / 100 + 1) 0) >>= fun b58 =>
        output one (toInt (leadingZeros v)) ((strip b58).map symbol) := rfl
  rw [whole, run]
  exact ok_bind _ _

theorem decodeLoop_digits {digits : List Nat} (small : ∀ digit ∈ digits, digit < 58) {most : Nat} (few : digits.length ≤ most) (back : List UInt8) :
    ∃ buffer, decodeLoop (digits.map symbol ++ back) (replicate (most * 733 / 1000 + 1) 0) = decodeLoop back buffer ∧
      Canonical 256 (strip buffer) ∧ number 256 (strip buffer) = number 58 digits := by
  obtain ⟨buffer, run, spec⟩ := @convert_canonical 58 256 _ Failure.assertion (by decide) digits _ small (decode_room digits.length few)
  refine ⟨buffer, ?_, spec⟩
  rw [decodeLoop_symbols digits back small, run]
  rfl

theorem symbols_plain {digits : List Nat} (small : ∀ digit ∈ digits, digit < 58) : ∀ c ∈ digits.map symbol, isspace c = false ∧ c ≠ 0 := by
  intro c member
  obtain ⟨digit, inside, rfl⟩ := mem_map.mp member
  have spec := symbol_spec digit (small digit inside)
  exact ⟨spec.2.1, spec.2.2.1⟩

theorem symbols_head {digits : List Nat} (canonical : Canonical 58 digits) : ∀ c, (digits.map symbol).head? = some c → (c == one) = false := by
  intro c first
  rw [head?_map] at first
  obtain ⟨digit, head, rfl⟩ := Option.map_eq_some_iff.mp first
  rw [beq_eq_false_iff_ne]
  intro zero
  have spec := symbol_spec digit (canonical.small digit (mem_of_head? head))
  rw [spec.2.2.2.mp zero] at head
  exact canonical.head head

theorem decodeBase58_eq {blanks spaces : List UInt8} {count : Nat} {digits : List Nat} (canonical : Canonical 58 digits)
    (before : ∀ c ∈ blanks, isspace c = true)
    (starts : ∀ c, (replicate count one ++ (digits.map symbol ++ spaces)).head? = some c → isspace c = false)
    (after : ∀ c ∈ spaces, isspace c = true) : ∃ bytes, Canonical 256 bytes ∧ number 256 bytes = number 58 digits ∧
        decodeBase58 (blanks ++ (replicate count one ++ (digits.map symbol ++ spaces))) =
          (output 0 (toInt count) (bytes.map UInt8.ofNat)).map some := by
  have plain := symbols_plain canonical.small
  have head := symbols_head canonical
  have ones : ∀ c ∈ replicate count one, (c == one) = true := fun c member => by
    rw [eq_of_mem_replicate member]
    rfl
  have spaceNotOne : ∀ c, isspace c = true → (c == one) = false := by
    intro c space
    rw [beq_eq_false_iff_ne]
    rintro rfl
    cases space
  have second := @span_append _ (· == one) (replicate count one) (digits.map symbol ++ spaces) ones fun c start => by
    rw [head?_append, Option.or_eq_some_iff] at start
    rcases start with digit | ⟨_, space⟩
    · exact head c digit
    · exact spaceNotOne c (after c (mem_of_head? space))
  have first := @span_append _ isspace blanks (replicate count one ++ (digits.map symbol ++ spaces)) before starts
  have third := @span_append _ (fun c => !isspace c) (digits.map symbol) spaces (fun c member => by rw [(plain c member).1]; rfl)
    fun c start => by rw [after c (mem_of_head? start)]; rfl
  have ended : spaces.dropWhile isspace = [] := dropWhile_eq_nil_iff.mpr after
  obtain ⟨buffer, loop, spec⟩ := @decodeLoop_digits digits canonical.small (digits.map symbol ++ spaces).length (by simp) []
  rw [append_nil] at loop
  refine ⟨strip buffer, spec.1, spec.2, ?_⟩
  simp only [decodeBase58, first.2, second.1, second.2, third.1, third.2, ended, loop, length_replicate]
  rw [show decodeLoop [] buffer = .ok (some buffer) from rfl, ok_bind]
  dsimp only
  rw [if_neg (not_not_intro rfl)]
  cases output 0 (toInt count) ((strip buffer).map UInt8.ofNat) with
  | error failure => rfl
  | ok vch => rfl

theorem toInt_small {count : Nat} (few : count < 2 ^ 31) : toInt count = count := Int.bmod_eq_of_le (by omega) (by omega)

theorem toInt_toNat (count : Nat) : (toInt count).toNat < 2 ^ 31 ∧ (toInt count).toNat ≤ count ∧
    ((toInt count).toNat = count ↔ count < 2 ^ 31) := by
  have upper := @Int.bmod_lt count (2 ^ 32) (by decide)
  have small : (toInt count).toNat < 2 ^ 31 := by
    unfold toInt
    omega
  have le : (toInt count).toNat ≤ count := by
    have least : toInt count ≤ (count : Int) := by
      rcases Nat.lt_or_ge count (2 ^ 31) with few | many
      · exact le_of_eq (toInt_small few)
      · unfold toInt
        omega
    omega
  refine ⟨small, le, fun same => same ▸ small, fun few => ?_⟩
  rw [toInt_small few]
  rfl

theorem output_ok {zero : UInt8} {zeroes : Int} {rest result : List UInt8} :
    output zero zeroes rest = .ok result ↔ ¬zeroes < 0 ∧ replicate zeroes.toNat zero ++ rest = result := by
  by_cases negative : zeroes < 0
  · rw [output, if_pos negative]
    exact Iff.intro nofun fun both => absurd negative both.1
  · rw [output, if_neg negative, Except.ok.injEq]
    exact Iff.intro (fun same => ⟨negative, same⟩) And.right

theorem zeros_append (v : List UInt8) : v = replicate (leadingZeros v) 0 ++ v.dropWhile (· == 0) := by
  conv_lhs => rw [← @takeWhile_append_dropWhile _ (· == 0) v, takeWhile_eq_replicate]
  rfl

theorem bytes_of_number {rest : List UInt8} {bytes : List Nat} (canonical : Canonical 256 bytes) (canonical' : Canonical 256 (rest.map UInt8.toNat))
    (same : number 256 bytes = number 256 (rest.map UInt8.toNat)) : bytes.map UInt8.ofNat = rest := by
  rw [canonical.unique canonical' (by decide) same, map_map]
  calc rest.map (UInt8.ofNat ∘ UInt8.toNat) = rest.map id := map_congr_left fun byte _ => UInt8.ofNat_toNat
    _ = rest := map_id rest

theorem decode_encode (v s : List UInt8) (encoded : encodeBase58 v = .ok s) : ¬toInt (leadingZeros v) < 0 ∧
    decodeString s = .ok (some (replicate (toInt (leadingZeros v)).toNat 0 ++ v.dropWhile (· == 0))) := by
  obtain ⟨digits, canonical, value, whole⟩ := encodeBase58_eq v
  obtain ⟨positive, rfl⟩ := output_ok.mp (whole.symm.trans encoded)
  obtain ⟨small, _⟩ := toInt_toNat (leadingZeros v)
  refine ⟨positive, ?_⟩
  have plain := symbols_plain canonical.small
  have characters : ∀ c ∈ replicate (toInt (leadingZeros v)).toNat one ++ (digits.map symbol ++ []), isspace c = false ∧ c ≠ 0 := by
    intro c member
    rw [append_nil, mem_append] at member
    rcases member with first | symbol
    · rw [eq_of_mem_replicate first]
      decide
    · exact plain c symbol
  obtain ⟨bytes, canonical', value', decoded⟩ := @decodeBase58_eq [] [] (toInt (leadingZeros v)).toNat digits canonical
    (forall_mem_nil _) (fun c start => (characters c (mem_of_head? start)).1) (forall_mem_nil _)
  have string : cString (replicate (toInt (leadingZeros v)).toNat one ++ digits.map symbol) =
      replicate (toInt (leadingZeros v)).toNat one ++ digits.map symbol := by
    apply takeWhile_eq_self_iff.mpr
    intro c member
    rw [← append_nil (digits.map symbol)] at member
    exact bne_iff_ne.mpr (characters c member).2
  rw [append_nil, nil_append] at decoded
  rw [decodeString, string, decoded, toInt_small small, bytes_of_number canonical' (canonical_bytes v) (value'.trans value), output,
    if_neg (Int.not_lt.mpr (Int.natCast_nonneg _)), Int.toNat_natCast]
  rfl

theorem roundTrip_iff (v : List UInt8) : RoundTrip v ↔ leadingZeros v < 2 ^ 31 := by
  constructor
  · rintro ⟨s, encoded, decoded⟩
    obtain ⟨positive, decoded'⟩ := decode_encode v s encoded
    apply (toInt_toNat _).2.2.mp
    have same := Option.some.inj (Except.ok.inj (decoded'.symm.trans decoded))
    have length := congrArg length same
    conv_rhs at length => rw [zeros_append v]
    simpa using length
  · intro few
    obtain ⟨digits, _, _, whole⟩ := encodeBase58_eq v
    rw [toInt_small few, output, if_neg (Int.not_lt.mpr (Int.natCast_nonneg _))] at whole
    refine ⟨_, whole, ?_⟩
    rw [(decode_encode v _ whole).2, toInt_small few, Int.toNat_natCast, ← zeros_append]

theorem decoded_shape {psz w : List UInt8} (accepted : decodeBase58 psz = .ok (some w)) : ∃ (blanks : List UInt8) (digits : List Nat) (spaces : List UInt8),
    Canonical 58 digits ∧ (∀ c ∈ blanks, isspace c = true) ∧ (∀ c ∈ spaces, isspace c = true) ∧
      psz = blanks ++ (replicate (leadingOnes psz) one ++ (digits.map symbol ++ spaces)) ∧
        psz.dropWhile isspace = replicate (leadingOnes psz) one ++ (digits.map symbol ++ spaces) := by
  have first := @takeWhile_append_dropWhile _ isspace psz
  have second := @takeWhile_append_dropWhile _ (· == one) (psz.dropWhile isspace)
  have third := @takeWhile_append_dropWhile _ (fun c => !isspace c) ((psz.dropWhile isspace).dropWhile (· == one))
  rw [takeWhile_eq_replicate] at second
  have blanks : ∀ c ∈ psz.takeWhile isspace, isspace c = true := fun c member => mem_takeWhile_imp member
  have few : (((psz.dropWhile isspace).dropWhile (· == one)).takeWhile fun c => !isspace c).length ≤
      ((psz.dropWhile isspace).dropWhile (· == one)).length := ( takeWhile_prefix _).length_le
  simp only [decodeBase58] at accepted
  rcases split_symbols (((psz.dropWhile isspace).dropWhile (· == one)).takeWhile fun c => !isspace c) with
    ⟨digits, small, body⟩ | ⟨digits, stray, back, small, none, body⟩
  · rw [body, length_map] at few
    obtain ⟨buffer, loop, _⟩ := decodeLoop_digits small few []
    rw [append_nil] at loop
    rw [body, loop, show decodeLoop [] buffer = .ok (some buffer) from rfl, ok_bind] at accepted
    dsimp only at accepted
    split_ifs at accepted with more
    · cases accepted
    · have spaces : ∀ c ∈ ((psz.dropWhile isspace).dropWhile (· == one)).dropWhile (fun c => !isspace c), isspace c = true :=
        dropWhile_eq_nil_iff.mp (not_not.mp more)
      have canonical : Canonical 58 digits := by
        refine ⟨small, fun zero => ?_⟩
        have head := head?_dropWhile_not (· == one) (psz.dropWhile isspace)
        rw [← third, body, head?_append, head?_map, zero, Option.map_some, Option.some_or] at head
        cases head
      rw [body] at third
      refine ⟨_, digits, _, canonical, blanks, spaces, ?_, ?_⟩
      · rw [third, leadingOnes, second, first]
      · rw [third, leadingOnes, second]
  · rw [body] at few
    have shorter : digits.length ≤ ((psz.dropWhile isspace).dropWhile (· == one)).length := by
      refine Nat.le_trans ?_ few
      rw [length_append, length_map]
      exact Nat.le_add_right _ _
    obtain ⟨buffer, loop, _⟩ := decodeLoop_digits small shorter (stray :: back)
    rw [body, loop, decodeLoop, none] at accepted
    cases accepted

theorem trim_eq {s front spaces : List UInt8} (shape : s.dropWhile isspace = front ++ spaces) (plain : ∀ c ∈ front, isspace c = false)
    (after : ∀ c ∈ spaces, isspace c = true) : trim s = front := by
  have back := @span_append _ isspace spaces.reverse front.reverse (fun c member => after c (mem_reverse.mp member))
    fun c first => plain c (mem_reverse.mp (mem_of_head? first))
  rw [trim, shape, reverse_append, back.2, reverse_reverse]

theorem encode_decode {s w : List UInt8} (accepted : decodeBase58 s = .ok (some w)) : encodeBase58 w = .ok (trim s) ↔ leadingOnes s < 2 ^ 31 := by
  obtain ⟨blanks, digits, spaces, canonical, before, after, shape, dropped⟩ := decoded_shape accepted
  have plain := symbols_plain canonical.small
  have front : ∀ c ∈ replicate (leadingOnes s) one ++ digits.map symbol, isspace c = false := by
    intro c member
    rcases mem_append.mp member with first | symbol
    · rw [eq_of_mem_replicate first]
      decide
    · exact (plain c symbol).1
  have starts : ∀ c, (replicate (leadingOnes s) one ++ (digits.map symbol ++ spaces)).head? = some c → isspace c = false := by
    intro c start
    have stop := head?_dropWhile_not isspace s
    rw [dropped, start] at stop
    exact stop
  obtain ⟨bytes, canonical', value, decoded⟩ := decodeBase58_eq canonical before starts after
  rw [← shape, accepted] at decoded
  have result : output 0 (toInt (leadingOnes s)) (bytes.map UInt8.ofNat) = .ok w := by
    cases shaped : output 0 (toInt (leadingOnes s)) (bytes.map UInt8.ofNat) with
    | error failure =>
      rw [shaped] at decoded
      cases decoded
    | ok vch =>
      rw [shaped] at decoded
      exact congrArg Except.ok (Option.some.inj (Except.ok.inj decoded)).symm
  obtain ⟨positive, rfl⟩ := output_ok.mp result
  obtain ⟨small, _, right⟩ := toInt_toNat (leadingOnes s)
  -- the bytes do not begin with a zero, so that the zeros are counted again
  have nonzero : ∀ byte, (bytes.map UInt8.ofNat).head? = some byte → (byte == 0) = false := by
    intro byte first
    rw [head?_map] at first
    obtain ⟨digit, head, rfl⟩ := Option.map_eq_some_iff.mp first
    rw [beq_eq_false_iff_ne]
    intro zero
    have same : digit = 0 := by
      rw [← UInt8.toNat_ofNat_of_lt' (canonical'.small digit (mem_of_head? head)), zero]
      rfl
    exact canonical'.head (same ▸ head)
  have zeros := @span_append _ (· == 0) (replicate (toInt (leadingOnes s)).toNat (0 : UInt8)) (bytes.map UInt8.ofNat)
    (fun c member => by rw [eq_of_mem_replicate member]; rfl) nonzero
  obtain ⟨digits', canonical'', value', encoded⟩ := encodeBase58_eq (replicate (toInt (leadingOnes s)).toNat 0 ++ bytes.map UInt8.ofNat)
  rw [zeros.2, map_toNat_ofNat canonical'.small] at value'
  obtain rfl := canonical''.unique canonical (by decide) (value'.trans value)
  rw [leadingZeros, zeros.1, length_replicate, toInt_small small, output, if_neg (Int.not_lt.mpr (Int.natCast_nonneg _)),
    Int.toNat_natCast] at encoded
  rw [encoded, trim_eq (dropped.trans (append_assoc _ _ _).symm) front after, Except.ok.injEq, ← right]
  constructor
  · intro same
    have length := congrArg length same
    simpa using length
  · intro same
    rw [same]

theorem checksum_length (Hash : List UInt8 → Uint256) (v : List UInt8) : (checksum Hash v).length = 4 := by
  rw [checksum, length_take, writeUint256, Library.Bytes.length_littleBytes]
  rfl

theorem roundTripCheck_iff (Hash : List UInt8 → Uint256) (v : List UInt8) :
    RoundTripCheck Hash v ↔ leadingZeros (v ++ checksum Hash v) < 2 ^ 31 := by
  have four := checksum_length Hash v
  constructor
  · rintro ⟨s, encoded, decoded⟩
    obtain ⟨_, decoded'⟩ := decode_encode _ s encoded
    apply (toInt_toNat _).2.2.mp
    rw [decodeStringCheck, decodeBase58Check, show decodeBase58 (cString s) = _ from decoded', ok_bind] at decoded
    dsimp only at decoded
    split_ifs at decoded with short wrong
    · cases decoded
    · cases decoded
    · have same := congrArg length (Option.some.inj (Except.ok.inj decoded))
      have whole := congrArg length (zeros_append (v ++ checksum Hash v))
      simp only [length_append, length_take, length_replicate, four] at same whole short
      omega
  · intro few
    obtain ⟨s, encoded, decoded⟩ := (roundTrip_iff (v ++ checksum Hash v)).mpr few
    refine ⟨s, encoded, ?_⟩
    have size : (v ++ checksum Hash v).length - 4 = v.length := by
      rw [length_append, four, Nat.add_sub_cancel]
    have long : ¬(v ++ checksum Hash v).length < 4 := by
      rw [length_append, four]
      omega
    rw [decodeStringCheck, decodeBase58Check, show decodeBase58 (cString s) = _ from decoded, ok_bind]
    dsimp only
    rw [if_neg long, size, take_left, drop_left, if_neg (not_not_intro rfl)]
    rfl

theorem encode_noAssertion (v : List UInt8) : encodeBase58 v ≠ .error .assertion := by
  obtain ⟨digits, _, _, whole⟩ := encodeBase58_eq v
  rw [whole, output]
  split_ifs
  · exact nofun
  · exact nofun

theorem decode_noAssertion (psz : List UInt8) : decodeBase58 psz ≠ .error .assertion := by
  have few : (((psz.dropWhile isspace).dropWhile (· == one)).takeWhile fun c => !isspace c).length ≤
      ((psz.dropWhile isspace).dropWhile (· == one)).length := ( takeWhile_prefix _).length_le
  simp only [decodeBase58]
  rcases split_symbols (((psz.dropWhile isspace).dropWhile (· == one)).takeWhile fun c => !isspace c) with
    ⟨digits, small, body⟩ | ⟨digits, stray, back, small, none, body⟩
  · rw [body, length_map] at few
    obtain ⟨buffer, loop, _⟩ := decodeLoop_digits small few []
    rw [append_nil] at loop
    rw [body, loop, show decodeLoop [] buffer = .ok (some buffer) from rfl, ok_bind]
    dsimp only
    split_ifs
    · exact nofun
    · rw [output]
      split_ifs
      · exact nofun
      · exact nofun
  · rw [body] at few
    have shorter : digits.length ≤ ((psz.dropWhile isspace).dropWhile (· == one)).length := by
      refine Nat.le_trans ?_ few
      rw [length_append, length_map]
      exact Nat.le_add_right _ _
    obtain ⟨buffer, loop, _⟩ := decodeLoop_digits small shorter (stray :: back)
    rw [body, loop, decodeLoop, none]
    exact nofun

/-- Encoding and decoding are inverse just where fewer than 2^31 leading zeros or ones are counted; the assertion never fails. -/
theorem inverse_iff (Hash : List UInt8 → Uint256) (v s : List UInt8) :
    (RoundTrip v ↔ leadingZeros v < 2 ^ 31) ∧ (RoundTripCheck Hash v ↔ leadingZeros (v ++ checksum Hash v) < 2 ^ 31) ∧
      (0 ∉ s → ∀ w, decodeString s = .ok (some w) → (encodeBase58 w = .ok (trim s) ↔ leadingOnes s < 2 ^ 31)) ∧
        encodeBase58 v ≠ .error .assertion ∧ decodeString s ≠ .error .assertion := by
  refine ⟨roundTrip_iff v, roundTripCheck_iff Hash v, fun noZero w accepted => ?_, encode_noAssertion v, decode_noAssertion _⟩
  have whole : cString s = s := takeWhile_eq_self_iff.mpr fun c member => bne_iff_ne.mpr fun zero => noZero (zero ▸ member)
  rw [decodeString, whole] at accepted
  exact encode_decode accepted

/-- ` 112 ` stands for two zeros and a one. -/
theorem inverse_blank : encodeBase58 [0, 0, 1] = .ok (trim [0x20, 0x31, 0x31, 0x32, 0x20]) :=
  ((inverse_iff (fun _ => 0) [] [0x20, 0x31, 0x31, 0x32, 0x20]).2.2.1 (by decide) [0, 0, 1] (by decide)).mpr (by decide)

/-- 2^31 zeros are too many for the counter. -/
theorem manyZeros_fail : encodeBase58 (replicate (2 ^ 31) 0) = .error .lengthError ∧ ¬RoundTrip (replicate (2 ^ 31) 0) := by
  have count (n : Nat) : leadingZeros (replicate n 0) = n := by
    rw [leadingZeros, takeWhile_eq_self_iff.mpr fun byte member => by rw [eq_of_mem_replicate member]; rfl, length_replicate]
  constructor
  · obtain ⟨digits, _, _, whole⟩ := encodeBase58_eq (replicate (2 ^ 31) 0)
    rw [whole, count, output, if_pos (by decide)]
  · rw [roundTrip_iff, count]
    exact Nat.lt_irrefl _

end Longcoin.Base58
