import Longcoin.Primitives
import Mathlib.Data.List.TakeWhile
import Mathlib.Data.Nat.Digits.Lemmas

/-! `FormatMoney` and `ParseMoney` (`utilmoneystr.cpp`), over the bytes of strings. -/

namespace Longcoin.MoneyString
open Primitives List Option Bool

abbrev Str := List UInt8

def COIN : Int := 1
def CENT : Int := 1

/-- `isspace` and `isdigit` in the C locale. -/
def isspace (c : UInt8) : Bool := c == 0x20 || decide (0x09 ≤ c ∧ c ≤ 0x0d)

def isdigit (c : UInt8) : Bool := decide (0x30 ≤ c ∧ c ≤ 0x39)

def point : UInt8 := 0x2e

/-- `%d` of a number that is not negative, which `%01d` prints alike. -/
def decimal (n : Nat) : Str :=
  if n = 0 then [0x30] else ((Nat.digits 10 n).map fun digit => UInt8.ofNat (0x30 + digit)).reverse

/-- The loop that counts the zeros to trim, from an index on down. It ends at the point, which is never the first byte. -/
def trimTurns (str : Str) : Nat → Nat
  | 0 => 0
  | i + 1 => if str[i + 1]? == some 0x30 && decide (1 ≤ i) && str[i - 1]?.any isdigit then trimTurns str i + 1 else 0

def formatMoney (n : Int) : Str :=
  let n_abs := if n > 0 then n else -n
  let quotient := n_abs / COIN
  let remainder := n_abs % COIN
  let str := decimal quotient.toNat ++ point :: decimal remainder.toNat
  let nTrim := trimTurns str (str.length - 1)
  let str := str.take (str.length - nTrim)
  if n < 0 then 0x2d :: str else str

/-- The digits after the point, as long as `nMult` is positive: `nUnits` and the rest. -/
def parseFraction : Int → Int → Str → Int × Str
  | _, nUnits, [] => (nUnits, [])
  | nMult, nUnits, c :: p =>
    if isdigit c && decide (nMult > 0) then parseFraction (nMult / 10) (nUnits + nMult * (c.toNat - 0x30)) p
    else (nUnits, c :: p)

/-- The digits before the point: `strWhole`, `nUnits` and the rest. -/
def parseWhole : Str → Str → Option (Str × Int × Str)
  | strWhole, [] => some (strWhole, 0, [])
  | strWhole, c :: p =>
    if c = point then
      let fraction := parseFraction (CENT * 10) 0 p
      some (strWhole, fraction.1, fraction.2)
    else if isspace c then some (strWhole, 0, c :: p)
    else if !isdigit c then none
    else parseWhole (strWhole ++ [c]) p

/-- The number of a row of digits, which `atoi64` reads. -/
def number (digits : Str) : Nat := digits.foldl (fun value c => 10 * value + (c.toNat - 0x30)) 0

def atoi64 (str : Str) : Int := number str

def c_str (str : Str) : Str := str.takeWhile fun c => c != 0

def parseMoney (str : Str) : Option Int := do
  let (strWhole, nUnits, p) ← parseWhole [] ((c_str str).dropWhile isspace)
  if !p.all isspace then none
  -- guard against 63 bit overflow
  else if strWhole.length > 10 then none
  else if nUnits < 0 ∨ nUnits > COIN then none
  else some (atoi64 strWhole * COIN + nUnits)

theorem isdigit_bounds {c : UInt8} : isdigit c = true ↔ 48 ≤ c.toNat ∧ c.toNat ≤ 57 := by
  rw [isdigit, decide_eq_true_eq, UInt8.le_iff_toNat_le, UInt8.le_iff_toNat_le]
  rfl

theorem digit_ne {c : UInt8} (digit : isdigit c = true) : c ≠ point ∧ isspace c = false ∧ c ≠ 0 := by
  obtain ⟨least, most⟩ := isdigit_bounds.mp digit
  refine ⟨?_, ?_, ?_⟩
  · rintro rfl
    exact absurd least (by decide)
  · have notBlank : c ≠ 0x20 := by
      rintro rfl
      exact absurd least (by decide)
    have notTab : ¬ (0x09 ≤ c ∧ c ≤ 0x0d) := by
      rintro ⟨-, below⟩
      have := UInt8.le_iff_toNat_le.mp below
      have thirteen : (0x0d : UInt8).toNat = 13 := rfl
      omega
    rw [isspace, decide_eq_false notTab, Bool.or_false, beq_eq_false_iff_ne]
    exact notBlank
  · rintro rfl
    exact absurd least (by decide)

theorem digit_ofNat {digit : Nat} (small : digit < 10) :
    isdigit (UInt8.ofNat (48 + digit)) = true ∧ (UInt8.ofNat (48 + digit)).toNat - 48 = digit := by
  have value : (UInt8.ofNat (48 + digit)).toNat = 48 + digit := by
    rw [UInt8.toNat_ofNat']
    omega
  rw [isdigit_bounds, value]
  omega

theorem number_append_one (digits : Str) (c : UInt8) : number (digits ++ [c]) = 10 * number digits + (c.toNat - 48) := by
  rw [number, foldl_append]
  rfl

theorem number_reverse {digits : List Nat} (small : ∀ digit ∈ digits, digit < 10) :
    number (digits.map fun digit => UInt8.ofNat (48 + digit)).reverse = Nat.ofDigits 10 digits := by
  induction digits with
  | nil => rfl
  | cons digit digits ih =>
    rw [map_cons, reverse_cons, number_append_one, ih (forall_mem_cons.mp small).2,
      (digit_ofNat (small digit mem_cons_self)).2, Nat.ofDigits_cons]
    omega

theorem number_decimal (n : Nat) : number (decimal n) = n := by
  rw [decimal]
  split
  · next zero =>
    rw [zero]
    rfl
  · rw [number_reverse fun digit member => Nat.digits_lt_base (by decide) member, Nat.ofDigits_digits]

theorem decimal_digits (n : Nat) : ∀ c ∈ decimal n, isdigit c = true := by
  intro c member
  rw [decimal] at member
  split at member
  · rw [mem_singleton.mp member]
    decide
  · obtain ⟨digit, isDigit, rfl⟩ := mem_map.mp (mem_reverse.mp member)
    exact (digit_ofNat (Nat.digits_lt_base (by decide) isDigit)).1

theorem length_decimal (n : Nat) : 1 ≤ (decimal n).length ∧ ((decimal n).length ≤ 10 ↔ n < 10 ^ 10) := by
  rw [decimal]
  split
  · next zero =>
    subst zero
    decide
  · next positive =>
    rw [length_reverse, length_map]
    refine ⟨length_pos_iff.mpr (Nat.digits_ne_nil_iff_ne_zero.mpr positive), Nat.digits_length_le_iff (by decide) n⟩

theorem formatMoney_eq {n : Int} (positive : 0 ≤ n) : formatMoney n = decimal n.toNat ++ [point] := by
  have same : (if n > 0 then n else -n) = n := by
    split <;> omega
  have quotient : n / COIN = n := Int.ediv_one n
  have remainder : decimal (n % COIN).toNat = [0x30] := by
    rw [COIN, Int.emod_one]
    rfl
  obtain ⟨less, length⟩ : ∃ less, (decimal n.toNat).length = less + 1 := ⟨_, (Nat.succ_pred_eq_of_pos (length_decimal _).1).symm⟩
  have whole : (decimal n.toNat ++ [point, 0x30]).length = less + 3 := by
    rw [length_append, length]
    rfl
  have last : (decimal n.toNat ++ [point, 0x30])[less + 1 + 1]? = some 0x30 := by
    rw [getElem?_append_right (by omega), length, show less + 1 + 1 - (less + 1) = 1 by omega]
    rfl
  have before : (decimal n.toNat ++ [point, 0x30])[less + 1]? = some point := by
    rw [getElem?_append_right (by omega), length, Nat.sub_self]
    rfl
  have digit : (decimal n.toNat ++ [point, 0x30])[less]?.any isdigit = true := by
    have inside : less < (decimal n.toNat).length := by omega
    rw [getElem?_append_left inside, getElem?_eq_getElem inside]
    exact decimal_digits _ _ (getElem_mem inside)
  have trimmed : trimTurns (decimal n.toNat ++ [point, 0x30]) (less + 1 + 1) = 1 := by
    rw [trimTurns, last, Nat.add_sub_cancel, digit, trimTurns, before]
    rfl
  have shorter : less + 3 - 1 = (decimal n.toNat ++ [point]).length := by
    rw [length_append, length]
    rfl
  have erased : (decimal n.toNat ++ [point, 0x30]).take (less + 3 - 1) = decimal n.toNat ++ [point] := by
    have split' : decimal n.toNat ++ [point, 0x30] = (decimal n.toNat ++ [point]) ++ [0x30] := by
      rw [append_assoc]
      rfl
    rw [shorter, split', take_left]
  rw [formatMoney, same, quotient, remainder, whole, show less + 3 - 1 = less + 1 + 1 by omega, trimmed, if_neg (by omega)]
  exact erased

/-- Blanks, digits, perhaps a point and digits, blanks. -/
structure Denotes (text whole fraction : Str) : Prop where
  digits : whole.all isdigit = true ∧ fraction.all isdigit = true
  parts : ∃ before after : Str, before.all isspace = true ∧ after.all isspace = true ∧
    (text = before ++ (whole ++ point :: (fraction ++ after)) ∨ fraction = [] ∧ text = before ++ (whole ++ after))

def denoted (whole fraction : Str) : ℚ := number whole + number fraction / 10 ^ fraction.length

theorem parseWhole_digits {whole : Str} (digits : whole.all isdigit = true) (strWhole rest : Str) :
    parseWhole strWhole (whole ++ rest) = parseWhole (strWhole ++ whole) rest := by
  induction whole generalizing strWhole with
  | nil => rw [nil_append, append_nil]
  | cons c whole ih =>
    rw [all_cons, and_eq_true] at digits
    obtain ⟨notPoint, notSpace, -⟩ := digit_ne digits.1
    rw [List.cons_append, parseWhole, if_neg notPoint, notSpace, digits.1, if_neg Bool.false_ne_true, if_neg (by decide),
      ih digits.2, append_assoc]
    rfl

theorem space_ne {c : UInt8} (space : isspace c = true) : c ≠ point ∧ isdigit c = false := by
  refine ⟨?_, ?_⟩
  · rintro rfl
    cases space
  · cases digit : isdigit c with
    | false => rfl
    | true =>
      rw [(digit_ne digit).2.1] at space
      cases space

theorem parseWhole_spaces {after : Str} (spaces : after.all isspace = true) (strWhole : Str) :
    parseWhole strWhole after = some (strWhole, 0, after) := by
  cases after with
  | nil => rfl
  | cons c after =>
    rw [all_cons, and_eq_true] at spaces
    rw [parseWhole, if_neg (space_ne spaces.1).1, spaces.1, if_pos rfl]

theorem parseFraction_spaces {after : Str} (spaces : after.all isspace = true) (nMult nUnits : Int) :
    parseFraction nMult nUnits after = (nUnits, after) := by
  cases after with
  | nil => rfl
  | cons c after =>
    rw [all_cons, and_eq_true] at spaces
    rw [parseFraction, (space_ne spaces.1).2, Bool.false_and, if_neg Bool.false_ne_true]

theorem dropWhile_spaces {before : Str} (spaces : before.all isspace = true) (rest : Str) :
    (before ++ rest).dropWhile isspace = rest.dropWhile isspace :=
  dropWhile_append_of_pos fun _ member => all_eq_true.mp spaces _ member

theorem dropWhile_digits {whole rest : Str} (digits : whole.all isdigit = true)
    (stops : rest.dropWhile isspace = rest ∨ whole ≠ []) : (whole ++ rest).dropWhile isspace = whole ++ rest := by
  cases whole with
  | nil => exact stops.resolve_right fun nonempty => nonempty rfl
  | cons c whole =>
    rw [all_cons, and_eq_true] at digits
    rw [cons_append, dropWhile_cons_of_neg]
    rw [(digit_ne digits.1).2.1]
    exact false_ne_true

/-- The units of a fraction: its first two digits count ten and one, and more are not read. -/
def units : Str → Int
  | [] => 0
  | [c] => 10 * (c.toNat - 0x30)
  | c :: d :: _ => 10 * (c.toNat - 0x30) + (d.toNat - 0x30)

theorem parseFraction_digits {fraction : Str} (digits : fraction.all isdigit = true) {after : Str}
    (spaces : after.all isspace = true) :
    parseFraction (CENT * 10) 0 (fraction ++ after) = (units fraction, fraction.drop 2 ++ after) := by
  have ten : CENT * 10 = 10 := by decide
  have turn (nMult nUnits : Int) (c : UInt8) (p : Str) (digit : isdigit c = true) (positive : nMult > 0) :
      parseFraction nMult nUnits (c :: p) = parseFraction (nMult / 10) (nUnits + nMult * (c.toNat - 0x30)) p := by
    rw [parseFraction, digit, decide_eq_true positive, Bool.and_self, if_pos rfl]
  have stop (nUnits : Int) (p : Str) : parseFraction 0 nUnits p = (nUnits, p) := by
    cases p with
    | nil => rfl
    | cons c p =>
      rw [parseFraction, decide_eq_false (by decide), Bool.and_false]
      rfl
  rw [ten]
  match fraction, digits with
  | [], _ => exact parseFraction_spaces spaces 10 0
  | [c], digits =>
    rw [all_cons, and_eq_true] at digits
    rw [singleton_append, turn _ _ _ _ digits.1 (by decide), parseFraction_spaces spaces, Int.zero_add]
    rfl
  | c :: d :: rest, digits =>
    rw [all_cons, all_cons, and_eq_true, and_eq_true] at digits
    have one : (10 : Int) / 10 = 1 ∧ (1 : Int) / 10 = 0 := by decide
    rw [cons_append, cons_append, turn _ _ _ _ digits.1 (by decide), one.1, turn _ _ _ _ digits.2.1 (by decide),
      one.2, stop, Int.zero_add, Int.one_mul]
    rfl

theorem parseMoney_parts {str strWhole p : Str} {nUnits : Int}
    (parsed : parseWhole [] ((c_str str).dropWhile isspace) = some (strWhole, nUnits, p)) :
    parseMoney str =
      if p.all isspace = true ∧ strWhole.length ≤ 10 ∧ 0 ≤ nUnits ∧ nUnits ≤ 1 then some (number strWhole + nUnits) else none := by
  rw [parseMoney, parsed]
  change (if !p.all isspace then none else if strWhole.length > 10 then none else if nUnits < 0 ∨ nUnits > COIN then none
    else some (atoi64 strWhole * COIN + nUnits)) = _
  have one : COIN = 1 := rfl
  rw [one, atoi64, Int.mul_one]
  cases p.all isspace with
  | false => rfl
  | true =>
    rw [Bool.not_true, if_neg Bool.false_ne_true]
    by_cases long : strWhole.length > 10
    · rw [if_pos long, if_neg fun all => absurd all.2.1 (by omega)]
    · by_cases outside : nUnits < 0 ∨ nUnits > 1
      · rw [if_neg long, if_pos outside, if_neg fun all => absurd all.2.2 (by omega)]
      · rw [if_neg long, if_neg outside, if_pos ⟨rfl, by omega, by omega, by omega⟩]

/-- A string that denotes a number is accepted when its digits before the point are at most ten, and those after it at
most two and not more than one unit. -/
theorem parseMoney_denotes {str whole fraction : Str} (denotes : Denotes (c_str str) whole fraction) :
    parseMoney str = if whole.length ≤ 10 ∧ fraction.length ≤ 2 ∧ 0 ≤ units fraction ∧ units fraction ≤ 1 then
      some (number whole + units fraction) else none := by
  obtain ⟨digits, before, after, spacesBefore, spacesAfter, text⟩ := denotes
  rcases text with text | ⟨rfl, text⟩
  · have rest : (point :: (fraction ++ after)).dropWhile isspace = point :: (fraction ++ after) := rfl
    have parsed : parseWhole [] ((c_str str).dropWhile isspace) = some (whole, units fraction, fraction.drop 2 ++ after) := by
      rw [text, dropWhile_spaces spacesBefore, dropWhile_digits digits.1 (.inl rest), parseWhole_digits digits.1,
        nil_append, parseWhole, if_pos rfl, parseFraction_digits digits.2 spacesAfter]
    have blank : (fraction.drop 2 ++ after).all isspace = true ↔ fraction.length ≤ 2 := by
      rw [List.all_append, spacesAfter, Bool.and_true]
      constructor
      · intro spaces
        by_contra more
        have inside : 0 < (fraction.drop 2).length := by
          rw [length_drop]
          omega
        have member := getElem_mem inside
        have digit := all_eq_true.mp digits.2 _ (mem_of_mem_drop member)
        rw [(space_ne (all_eq_true.mp spaces _ member)).2] at digit
        exact false_ne_true digit
      · intro short
        rw [drop_eq_nil_of_le short]
        rfl
    rw [parseMoney_parts parsed]
    refine if_congr ?_ rfl rfl
    rw [blank]
    exact ⟨fun ⟨short, ten, units⟩ => ⟨ten, short, units⟩, fun ⟨ten, short, units⟩ => ⟨short, ten, units⟩⟩
  · have parsed : ∃ p, parseWhole [] ((c_str str).dropWhile isspace) = some (whole, 0, p) ∧ p.all isspace = true := by
      rw [text, dropWhile_spaces spacesBefore]
      cases whole with
      | nil =>
        have none : after.dropWhile isspace = [] := dropWhile_eq_nil_iff.mpr (all_eq_true.mp spacesAfter)
        rw [nil_append, none]
        exact ⟨[], rfl, rfl⟩
      | cons c whole =>
        rw [dropWhile_digits digits.1 (.inr (cons_ne_nil _ _)), parseWhole_digits digits.1, nil_append,
          parseWhole_spaces spacesAfter]
        exact ⟨after, rfl, spacesAfter⟩
    obtain ⟨p, parsed, spaces⟩ := parsed
    rw [parseMoney_parts parsed]
    refine if_congr ?_ rfl rfl
    simp [spaces, units]

theorem parse_format {n : Int} (positive : 0 ≤ n) : parseMoney (formatMoney n) = if n < 10 ^ 10 then some n else none := by
  have noNull : c_str (formatMoney n) = decimal n.toNat ++ [point] := by
    rw [formatMoney_eq positive, c_str, takeWhile_eq_self_iff]
    intro c member
    rw [bne_iff_ne]
    rcases mem_append.mp member with digit | last
    · exact (digit_ne (decimal_digits _ c digit)).2.2
    · rw [mem_singleton.mp last]
      decide
  have denotes : Denotes (c_str (formatMoney n)) (decimal n.toNat) [] := by
    refine ⟨⟨all_eq_true.mpr (decimal_digits _), rfl⟩, [], [], rfl, rfl, .inl ?_⟩
    rw [noNull]
    rfl
  have value : (number (decimal n.toNat) : Int) + units [] = n := by
    rw [number_decimal, units]
    omega
  rw [parseMoney_denotes denotes, value]
  refine if_congr ?_ rfl rfl
  have ten : n.toNat < 10 ^ 10 ↔ n < 10 ^ 10 := by omega
  rw [(length_decimal _).2, ten]
  exact ⟨fun all => all.1, fun small => ⟨small, by decide, by decide, by decide⟩⟩

/-- Of the amounts of money just those below ten thousand million units survive formatting and parsing. -/
theorem parse_format_iff {n : Int} (range : 0 ≤ n ∧ n ≤ MAX_MONEY) : parseMoney (formatMoney n) = some n ↔ n < 10 ^ 10 := by
  rw [parse_format range.1]
  constructor
  · intro parsed
    by_contra large
    rw [if_neg large] at parsed
    cases parsed
  · intro small
    rw [if_pos small]

theorem parse_format_hundred : parseMoney (formatMoney 100) = some 100 := (parse_format_iff (by decide)).mpr (by decide)

/-- Ten thousand million units are formatted with eleven digits, which the parser refuses. -/
theorem parse_format_fails : parseMoney (formatMoney (10 ^ 10)) = none ∧
    ¬ ∀ n : Int, 0 ≤ n ∧ n ≤ MAX_MONEY → parseMoney (formatMoney n) = some n := by
  have fails : parseMoney (formatMoney (10 ^ 10)) = none := parse_format (by decide)
  refine ⟨fails, fun every => ?_⟩
  rw [every _ (by decide)] at fails
  cases fails

theorem parseWhole_some {strWhole whole p rest : Str} {nUnits : Int} (parsed : parseWhole strWhole p = some (whole, nUnits, rest)) :
    ∃ digits : Str, digits.all isdigit = true ∧
      (p = digits ++ rest ∨ ∃ q, p = digits ++ point :: q ∧ rest = (parseFraction (CENT * 10) 0 q).2) := by
  induction p generalizing strWhole with
  | nil =>
    rw [parseWhole] at parsed
    obtain ⟨-, -, rfl⟩ := Prod.mk.inj (some.inj parsed) |>.imp id Prod.mk.inj
    exact ⟨[], rfl, .inl rfl⟩
  | cons c p ih =>
    rw [parseWhole] at parsed
    split at parsed
    · next isPoint =>
      have same := (Prod.mk.inj (Prod.mk.inj (some.inj parsed)).2).2
      exact ⟨[], rfl, .inr ⟨p, by rw [isPoint]; rfl, same.symm⟩⟩
    · split at parsed
      · have same := (Prod.mk.inj (Prod.mk.inj (some.inj parsed)).2).2
        exact ⟨[], rfl, .inl same⟩
      · split at parsed
        · cases parsed
        · next digit =>
          rw [not_eq_true', not_eq_false] at digit
          obtain ⟨digits, all, parts⟩ := ih parsed
          refine ⟨c :: digits, by rw [all_cons, digit, all]; rfl, ?_⟩
          rcases parts with rfl | ⟨q, rfl, rest⟩
          · exact .inl rfl
          · exact .inr ⟨q, rfl, rest⟩

theorem parseFraction_suffix (nMult nUnits : Int) (p : Str) :
    ∃ front : Str, front.all isdigit = true ∧ p = front ++ (parseFraction nMult nUnits p).2 := by
  induction p generalizing nMult nUnits with
  | nil => exact ⟨[], rfl, rfl⟩
  | cons c p ih =>
    rw [parseFraction]
    split
    · next more =>
      rw [and_eq_true] at more
      obtain ⟨front, digits, whole⟩ := ih (nMult / 10) (nUnits + nMult * (c.toNat - 0x30))
      refine ⟨c :: front, by rw [all_cons, more.1, digits]; rfl, ?_⟩
      rw [cons_append, ← whole]
    · exact ⟨[], rfl, rfl⟩

theorem denotes_of_accepted {str : Str} {value : Int} (accepted : parseMoney str = some value) :
    ∃ whole fraction, Denotes (c_str str) whole fraction := by
  cases parsed : parseWhole [] ((c_str str).dropWhile isspace) with
  | none =>
    rw [parseMoney, parsed] at accepted
    cases accepted
  | some parts =>
    obtain ⟨strWhole, nUnits, rest⟩ := parts
    have spaces : rest.all isspace = true := by
      rw [parseMoney_parts parsed] at accepted
      split at accepted
      · next all => exact all.1
      · cases accepted
    have before : ((c_str str).takeWhile isspace).all isspace = true := all_takeWhile
    have whole := (takeWhile_append_dropWhile (p := isspace) (l := c_str str)).symm
    obtain ⟨digits, all, text | ⟨q, text, rfl⟩⟩ := parseWhole_some parsed
    · rw [text] at whole
      exact ⟨digits, [], ⟨all, rfl⟩, _, rest, before, spaces, .inr ⟨rfl, whole⟩⟩
    · obtain ⟨front, frontDigits, split'⟩ := parseFraction_suffix (CENT * 10) 0 q
      rw [text] at whole
      refine ⟨digits, front, ⟨all, frontDigits⟩, _, _, before, spaces, .inl ?_⟩
      rw [← split']
      exact whole

theorem number_lt {digits : Str} (all : digits.all isdigit = true) : number digits < 10 ^ digits.length := by
  induction digits using reverseRecOn with
  | nil => decide
  | append_singleton digits c ih =>
    rw [all_append, and_eq_true] at all
    have last : isdigit c = true := all_eq_true.mp all.2 c mem_cons_self
    obtain ⟨least, most⟩ := isdigit_bounds.mp last
    have front := ih all.1
    rw [number_append_one, length_append, length_singleton, Nat.pow_succ]
    omega

theorem accepted_cases {str whole fraction : Str} {value : Int} (denotes : Denotes (c_str str) whole fraction)
    (accepted : parseMoney str = some value) :
    whole.length ≤ 10 ∧ value = number whole + units fraction ∧ (number fraction = 0 ∧ units fraction = 0 ∨ fraction = [0x30, 0x31]) := by
  rw [parseMoney_denotes denotes] at accepted
  split at accepted
  swap
  · cases accepted
  next all =>
  obtain ⟨ten, short, least, most⟩ := all
  refine ⟨ten, (some.inj accepted).symm, ?_⟩
  have digit (c : UInt8) (inside : c ∈ fraction) := isdigit_bounds.mp (all_eq_true.mp denotes.digits.2 c inside)
  match fraction, short with
  | [], _ => exact .inl ⟨rfl, rfl⟩
  | [c], _ =>
    obtain ⟨low, high⟩ := digit c mem_cons_self
    rw [units] at most
    left
    rw [number, units, foldl_cons, foldl_nil]
    omega
  | [c, d], _ =>
    obtain ⟨lowC, highC⟩ := digit c mem_cons_self
    obtain ⟨lowD, highD⟩ := digit d (mem_cons_of_mem _ mem_cons_self)
    rw [units] at most least
    have zero : c = 0x30 := by
      apply UInt8.toNat_inj.mp
      change c.toNat = 48
      omega
    by_cases one : d.toNat = 49
    · right
      have same : d = 0x31 := UInt8.toNat_inj.mp one
      rw [zero, same]
    · left
      rw [number, units, foldl_cons, foldl_cons, foldl_nil, zero]
      change 10 * (10 * 0 + (48 - 48)) + (d.toNat - 48) = 0 ∧ 10 * ((48 : Int) - 48) + (d.toNat - 48) = 0
      rw [zero] at most
      change 10 * ((48 : Int) - 48) + (d.toNat - 48) ≤ 1 at most
      omega

/-- A string that is accepted denotes the whole amount that is returned, which is an `int64_t`, and one that denotes
no whole amount is refused. -/
structure WholeAmount (str : Str) : Prop where
  accepted : ∀ value, parseMoney str = some value →
    (-2 ^ 63 ≤ value ∧ value < 2 ^ 63) ∧ ∃ whole fraction, Denotes (c_str str) whole fraction ∧ denoted whole fraction = value
  rejected : ∀ whole fraction, Denotes (c_str str) whole fraction → (∀ value : Int, denoted whole fraction ≠ value) →
    parseMoney str = none

theorem hundredth_ne (whole : Str) (value : Int) : denoted whole [0x30, 0x31] ≠ value := by
  have one : number [0x30, 0x31] = 1 := rfl
  rw [denoted, one]
  intro same
  have scaled : (number whole : ℚ) * 100 + 1 = value * 100 := by
    rw [← same]
    norm_num
    ring
  have integers : (number whole : Int) * 100 + 1 = value * 100 := by exact_mod_cast scaled
  omega

/-- Just the strings that denote up to ten digits and the fraction `.01` are taken for what they do not denote. -/
theorem wholeAmount_iff (str : Str) :
    WholeAmount str ↔ ¬ ∃ whole, whole.length ≤ 10 ∧ Denotes (c_str str) whole [0x30, 0x31] := by
  constructor
  · rintro amount ⟨whole, ten, denotes⟩
    have refused := amount.rejected whole _ denotes (hundredth_ne whole)
    have taken : parseMoney str = some (number whole + units [0x30, 0x31]) := by
      rw [parseMoney_denotes denotes]
      exact if_pos ⟨ten, by decide, by decide, by decide⟩
    rw [taken] at refused
    cases refused
  · intro plain
    have plainCase {whole fraction : Str} {value : Int} (denotes : Denotes (c_str str) whole fraction)
        (accepted : parseMoney str = some value) : whole.length ≤ 10 ∧ value = number whole ∧ number fraction = 0 := by
      obtain ⟨ten, same, kind⟩ := accepted_cases denotes accepted
      rcases kind with ⟨none, noUnits⟩ | rfl
      · exact ⟨ten, by rw [same, noUnits, Int.add_zero], none⟩
      · exact absurd ⟨whole, ten, denotes⟩ plain
    constructor
    · intro value accepted
      obtain ⟨whole, fraction, denotes⟩ := denotes_of_accepted accepted
      obtain ⟨ten, same, none⟩ := plainCase denotes accepted
      have below : number whole < 10 ^ 10 :=
        Nat.lt_of_lt_of_le (number_lt denotes.digits.1) (Nat.pow_le_pow_right (by decide) ten)
      refine ⟨by omega, whole, fraction, denotes, ?_⟩
      rw [denoted, none, same]
      simp
    · intro whole fraction denotes notWhole
      cases accepted : parseMoney str with
      | none => rfl
      | some value =>
        obtain ⟨-, same, none⟩ := plainCase denotes accepted
        refine absurd ?_ (notWhole value)
        rw [denoted, none, same]
        simp

/-- `5.01` is accepted for six units. -/
theorem hundredth_accepted : parseMoney [0x35, 0x2e, 0x30, 0x31] = some 6 ∧ ¬ ∀ str : Str, WholeAmount str := by
  have accepted : parseMoney [0x35, 0x2e, 0x30, 0x31] = some 6 := by decide
  refine ⟨accepted, fun every => ?_⟩
  have refused := (every [0x35, 0x2e, 0x30, 0x31]).rejected [0x35] [0x30, 0x31] ⟨by decide, [], [], rfl, rfl, .inl rfl⟩ (hundredth_ne _)
  rw [accepted] at refused
  cases refused

end Longcoin.MoneyString
