import VisualBasic.Grammar.Expression
import VisualBasic.Proofs.Parse.Acceptance
import VisualBasic.Proofs.Text.Cut

/-!
# Writing literals

Integers are written in their radix: decimal ones with a sign and the suffix of their width,
hexadecimal and octal ones as the digits of their bits, with a suffix for the wider width. Strings
stand in quotes with the quotes inside them doubled. What is written reads back.
-/

set_option autoImplicit false

namespace VisualBasic

/-! ## The ends of values -/

/-- The characters that may follow a value. -/
def isEdge (c : Char) : Bool := c = ' ' || c = '\n' || c = ',' || c = ')'

def Edge (text : List Char) : Prop := ∃ c rest, text = c :: rest ∧ isEdge c = true

variable {text token rest : List Char}

theorem isWordChar_eq_false_of_isEdge {c : Char} (h : isEdge c = true) : isWordChar c = false := by
  simp only [isEdge, Bool.or_eq_true, decide_eq_true_eq] at h
  rcases h with ((rfl | rfl) | rfl) | rfl <;> rfl

theorem Edge.noWord (h : Edge text) : NoWord text := by
  obtain ⟨c, rest, rfl, hc⟩ := h
  exact isWordChar_eq_false_of_isEdge hc

/-! ## Digits -/

theorem digitValue_digitChar {d : Nat} (h : d < 16) : digitValue d.digitChar = d := by
  have hall : ∀ d < 16, digitValue (Nat.digitChar d) = d := by decide
  exact hall d h

theorem digitsValue_concat (radix : Nat) (digits : List Char) (c : Char) :
    digitsValue radix (digits ++ [c]) = digitsValue radix digits * radix + digitValue c := by
  simp [digitsValue, List.foldl_append]

theorem digitsValue_toDigits {radix : Nat} (hlow : 1 < radix) (hhigh : radix ≤ 16) (n : Nat) :
    digitsValue radix (Nat.toDigits radix n) = n := by
  induction n using Nat.strongRecOn with
  | _ n ih =>
    by_cases hn : n < radix
    · rw [Nat.toDigits_of_lt_base hn]
      simpa [digitsValue] using digitValue_digitChar (by omega)
    · have hle : radix ≤ n := by omega
      have hdigit : n % radix < radix := Nat.mod_lt n (by omega)
      rw [Nat.toDigits_of_base_le hlow hle, digitsValue_concat,
        ih _ (Nat.div_lt_self (by omega) hlow), digitValue_digitChar (by omega)]
      exact Nat.div_add_mod' n radix

/-- The digits of a radix are digits of the radix. -/
theorem Radix.isDigit_digitChar (radix : Radix) {d : Nat} (h : d < radix.base) :
    radix.isDigit d.digitChar = true := by
  have hall : ∀ d < radix.base, radix.isDigit (Nat.digitChar d) = true := by
    cases radix <;> decide
  exact hall d h

theorem Radix.one_lt_base (radix : Radix) : 1 < radix.base := by
  cases radix <;> decide

theorem Radix.base_le (radix : Radix) : radix.base ≤ 16 := by
  cases radix <;> decide

/-- The digits of a number in a radix. -/
def Radix.digits (radix : Radix) (n : Nat) : List Char := Nat.toDigits radix.base n

namespace Radix

variable (radix : Radix) (n : Nat)

theorem value_digits : digitsValue radix.base (radix.digits n) = n :=
  digitsValue_toDigits radix.one_lt_base radix.base_le n

theorem digits_ne_nil : radix.digits n ≠ [] := Nat.toDigits_ne_nil

theorem isDigit_of_mem_digits : ∀ c ∈ radix.digits n, radix.isDigit c = true := by
  induction n using Nat.strongRecOn with
  | _ n ih =>
    have hbase := radix.one_lt_base
    intro c hc
    rw [digits] at hc
    by_cases hn : n < radix.base
    · rw [Nat.toDigits_of_lt_base hn, List.mem_singleton] at hc
      rw [hc]
      exact radix.isDigit_digitChar hn
    · rw [Nat.toDigits_of_base_le hbase (by omega), List.mem_append, List.mem_singleton] at hc
      rcases hc with hc | rfl
      · exact ih _ (Nat.div_lt_self (by omega) hbase) c hc
      · exact radix.isDigit_digitChar (Nat.mod_lt n (by omega))

theorem takeWhile_digits (h : rest.head?.any radix.isDigit = false) :
    (radix.digits n ++ rest).takeWhile radix.isDigit = radix.digits n := by
  rw [List.takeWhile_append_of_pos (radix.isDigit_of_mem_digits n)]
  cases rest with
  | nil => simp
  | cons c rest =>
    have hc : radix.isDigit c = false := h
    simp [hc]

theorem isDigit_eq_false_of_isEdge {c : Char} (h : isEdge c = true) : radix.isDigit c = false := by
  simp only [isEdge, Bool.or_eq_true, decide_eq_true_eq] at h
  rcases h with ((rfl | rfl) | rfl) | rfl <;> cases radix <;> rfl

end Radix

/-! ## Numbers -/

/-- A decimal integer. -/
def decimalText (value : Int) : List Char :=
  (if value < 0 then ['-'] else []) ++ Radix.digits .decimal value.natAbs

/-- A text that does not go on with a number that ends before it. -/
structure EndsNumber (text : List Char) : Prop where
  digit : text.head?.any Char.isDigit = false
  fraction : splitFraction text = ([], text)
  exponent : splitExponent text = ([], text)

theorem endsNumber_cons {c : Char} (rest : List Char) (hd : c.isDigit = false) (hf : c ≠ '.')
    (he : c ≠ 'e') (hE : c ≠ 'E') : EndsNumber (c :: rest) := by
  refine ⟨hd, ?_, ?_⟩
  · unfold splitFraction
    split
    · rename_i h
      exact absurd (List.cons.inj h).1 hf
    · rfl
  · simp [splitExponent, he, hE]

theorem Edge.endsNumber (h : Edge text) : EndsNumber text := by
  obtain ⟨c, rest, rfl, hc⟩ := h
  simp only [isEdge, Bool.or_eq_true, decide_eq_true_eq] at hc
  rcases hc with ((rfl | rfl) | rfl) | rfl <;>
    exact endsNumber_cons rest (by decide) (by decide) (by decide) (by decide)

/-- The numeral that a decimal integer is read as. -/
def numeralOf (value : Int) : Numeral :=
  ⟨if value < 0 then ['-'] else [], Radix.digits .decimal value.natAbs, [], []⟩

theorem spelling_numeralOf (value : Int) : (numeralOf value).spelling = decimalText value := by
  simp [numeralOf, Numeral.spelling, decimalText]

theorem isReal_numeralOf (value : Int) : (numeralOf value).isReal = false := by
  simp [numeralOf, Numeral.isReal]

theorem wholeValue_numeralOf (value : Int) : (numeralOf value).wholeValue = value := by
  have hdigits := Radix.value_digits .decimal value.natAbs
  rw [Radix.base] at hdigits
  simp only [Numeral.wholeValue, numeralOf, Numeral.isNegative, hdigits]
  split
  · have h : -(value.natAbs : Int) = value := by omega
    simpa using h
  · have h : (value.natAbs : Int) = value := by omega
    simpa using h

theorem digits_eq_cons (n : Nat) :
    ∃ c tail, Radix.digits .decimal n = c :: tail ∧ c.isDigit = true := by
  cases h : Radix.digits .decimal n with
  | nil => exact absurd h (Radix.digits_ne_nil .decimal n)
  | cons c tail =>
    exact ⟨c, tail, rfl, Radix.isDigit_of_mem_digits .decimal n c (by rw [h]; exact .head _)⟩

theorem splitSign_eq_self {c : Char} (rest : List Char) (hm : c ≠ '-') (hp : c ≠ '+') :
    splitSign (c :: rest) = ([], c :: rest) := by
  unfold splitSign
  split <;> simp_all

theorem splitSign_decimalText (value : Int) (rest : List Char) :
    splitSign (decimalText value ++ rest) =
      ((numeralOf value).sign, Radix.digits .decimal value.natAbs ++ rest) := by
  by_cases hv : value < 0
  · simp [decimalText, numeralOf, hv, splitSign]
  · obtain ⟨c, tail, hd, hc⟩ := digits_eq_cons value.natAbs
    have hne (sign : Char) (hs : sign.isDigit = false) : c ≠ sign := by
      rintro rfl
      simp [hs] at hc
    simp [decimalText, numeralOf, hv, hd,
      splitSign_eq_self (tail ++ rest) (hne '-' (by decide)) (hne '+' (by decide))]

theorem read_decimalText (value : Int) (hr : EndsNumber rest) :
    Numeral.read (decimalText value ++ rest) = some (numeralOf value, rest) := by
  have hwhole := Radix.takeWhile_digits .decimal value.natAbs hr.digit
  have hne := Radix.digits_ne_nil .decimal value.natAbs
  rw [Radix.isDigit] at hwhole
  simp [Numeral.read, splitSign_decimalText, hwhole, hr.fraction, hr.exponent, hne]
  rfl

theorem readNumber_decimalText (value : Int) (hr : EndsNumber rest) :
    readNumber (decimalText value ++ rest) =
      ((numeralOf value).literal? rest).map fun found =>
        (found.1, (decimalText value).length + found.2) := by
  obtain ⟨c, tail, hd, hc⟩ := digits_eq_cons value.natAbs
  have hne : c ≠ '&' := by
    rintro rfl
    contradiction
  have hsign := splitSign_decimalText value rest
  rw [hd, List.cons_append] at hsign
  unfold readNumber
  rw [hsign]
  split
  · rename_i h
    exact absurd (List.cons.inj (Prod.mk.inj h).2).1 hne
  · rw [read_decimalText value hr, Option.bind_some]
    simp only [spelling_numeralOf]

theorem takes_number {written : List Char} {value : Literal} (hl : Leads text (written ++ rest))
    (hr : NoWord rest) (h : readNumber (written ++ rest) = some (value, written.length)) :
    Parse.Takes Cursor.number text rest fun found => found = value := by
  intro c hc
  have htoken := Cursor.rest_skipBlanks hl hc
  have hrest : (c.skipBlanks.skip written.length).rest = rest := by
    rw [Cursor.rest_skip, htoken, List.drop_left]
  have hword : (c.skipBlanks.skip written.length).isAtWordChar = false := by
    rw [Cursor.isAtWordChar, hrest]
    exact hr
  refine ⟨value, c.skipBlanks.skip written.length, ?_, hrest, rfl⟩
  rw [Cursor.number, htoken, h]
  simp [hword]

/-- The characters that a number starts with, the point of a fraction aside. -/
def isNumberStart (c : Char) : Bool := c.isDigit || c = '-' || c = '+' || c = '&'

theorem readNumber_eq_none {c : Char} (hc : isNumberStart c = false)
    (hdot : c = '.' → rest.head?.any Char.isDigit = false) : readNumber (c :: rest) = none := by
  simp only [isNumberStart, Bool.or_eq_false_iff, decide_eq_false_iff_not] at hc
  obtain ⟨⟨⟨hdigit, hminus⟩, hplus⟩, hamp⟩ := hc
  have hfraction : splitFraction (c :: rest) = ([], c :: rest) := by
    unfold splitFraction
    split
    · rename_i tail h
      obtain ⟨rfl, rfl⟩ := List.cons.inj h
      have hhead := hdot rfl
      cases rest with
      | nil => rfl
      | cons d rest =>
        have hd : d.isDigit = false := hhead
        simp [hd]
    · rfl
  unfold readNumber
  rw [splitSign_eq_self rest hminus hplus]
  split
  · rename_i h
    exact absurd (List.cons.inj (Prod.mk.inj h).2).1 hamp
  · simp [Numeral.read, splitSign_eq_self rest hminus hplus, hdigit, hfraction]

theorem misses_number {c : Char} (hl : Leads text (c :: rest)) (hc : isNumberStart c = false)
    (hdot : c = '.' → rest.head?.any Char.isDigit = false) : Parse.Misses Cursor.number text := by
  intro d hd
  rw [Cursor.number, Cursor.rest_skipBlanks hl hd, readNumber_eq_none hc hdot, Option.bind_none]

/-- The letter that announces a radix after an ampersand. -/
def Radix.mark : Radix → Char
  | .octal => 'O'
  | _ => 'H'

/-- An integer that is announced by an ampersand, by its bits. -/
def radixText (radix : Radix) (bits : Nat) : List Char := '&' :: radix.mark :: radix.digits bits

/-- The digits after the mark of a radix are read up to the first character that is none. -/
theorem readNumber_of_radix {sign digits : List Char} {mark : Char} {radix : Radix}
    (hsign : splitSign text = (sign, '&' :: mark :: (digits ++ rest)))
    (hmark : radixOfMark mark = some radix)
    (hne : digits ≠ []) (hdigits : (digits ++ rest).takeWhile radix.isDigit = digits) :
    readNumber text =
      (radix.literal? (sign = ['-']) (digitsValue radix.base digits) rest).map fun found =>
        (found.1, sign.length + 2 + digits.length + found.2) := by
  rw [readNumber, hsign]
  simp only [radixNumber, hmark, hdigits, Option.bind_some, List.drop_left,
    List.isEmpty_eq_false_iff.mpr hne, Bool.false_eq_true, if_false, Option.map_map]
  congr 1
  funext found
  simp only [Function.comp_apply, Prod.mk.injEq, true_and]
  omega

theorem readNumber_radixText {radix : Radix} (hradix : radix ≠ .decimal) (bits : Nat)
    (hr : rest.head?.any radix.isDigit = false) :
    readNumber (radixText radix bits ++ rest) =
      (radix.literal? false bits rest).map fun found =>
        (found.1, (radixText radix bits).length + found.2) := by
  have hmark : radixOfMark radix.mark = some radix := by
    cases radix <;> simp_all [Radix.mark, radixOfMark]
  have hsign : splitSign (radixText radix bits ++ rest) =
      ([], '&' :: radix.mark :: (radix.digits bits ++ rest)) := rfl
  rw [readNumber_of_radix hsign hmark (radix.digits_ne_nil bits) (radix.takeWhile_digits bits hr),
    radix.value_digits]
  have hlength : (radixText radix bits).length = 2 + (radix.digits bits).length := by
    simp [radixText]
    omega
  simp [hlength]

/-! ## Strings -/

/-- The characters of a string with its quotes doubled. -/
def doubleQuotes (value : List Char) : List Char :=
  value.flatMap fun c => if c = '"' then ['"', '"'] else [c]

theorem doubleQuotes_quote (value : List Char) :
    doubleQuotes ('"' :: value) = '"' :: '"' :: doubleQuotes value := rfl

theorem doubleQuotes_cons {c : Char} (hquote : c ≠ '"') (value : List Char) :
    doubleQuotes (c :: value) = c :: doubleQuotes value := by
  simp [doubleQuotes, hquote]

theorem quotedBody_doubleQuotes {value : List Char} (hvalue : value.all (! isBreak ·) = true)
    (hr : rest.head? ≠ some '"') :
    quotedBody (doubleQuotes value ++ '"' :: rest) =
      some (value, (doubleQuotes value).length + 1) := by
  induction value with
  | nil => exact quotedBody_quote hr
  | cons c value ih =>
    simp only [List.all_cons, Bool.and_eq_true, Bool.not_eq_true'] at hvalue
    have hbody := ih hvalue.2
    by_cases hc : c = '"'
    · subst hc
      rw [doubleQuotes_quote, List.cons_append, List.cons_append, quotedBody, hbody]
      rfl
    · rw [doubleQuotes_cons hc, List.cons_append, quotedBody_cons hc (by simp [hvalue.1]), hbody]
      rfl

/-- A quoted string. -/
def quotedText (value : List Char) : List Char := '"' :: (doubleQuotes value ++ ['"'])

theorem quotedText_append (value rest : List Char) :
    quotedText value ++ rest = '"' :: (doubleQuotes value ++ '"' :: rest) := by
  simp [quotedText]

theorem takes_quoted {value : String} (hl : Leads text (quotedText value.toList ++ rest))
    (hvalue : value.toList.all (! isBreak ·) = true) (hr : rest.head? ≠ some '"') :
    Parse.Takes Cursor.quoted text rest fun found => found = value := by
  intro c hc
  have htoken := Cursor.rest_skipBlanks hl hc
  rw [quotedText_append] at htoken
  refine ⟨value, c.skipBlanks.skip ((doubleQuotes value.toList).length + 1 + 1), ?_, ?_, rfl⟩
  · unfold Cursor.quoted
    simp only [htoken, quotedBody_doubleQuotes hvalue hr, Option.map_some, String.ofList_toList]
  · rw [Cursor.rest_skip, htoken, List.drop_succ_cons, ← List.drop_drop, List.drop_left]
    rfl

theorem misses_quoted (hl : Leads text token) (h : token.head? ≠ some '"') :
    Parse.Misses Cursor.quoted text := by
  intro c hc
  unfold Cursor.quoted
  simp only [Cursor.rest_skipBlanks hl hc]
  split
  · exact absurd rfl h
  · rfl

/-! ## Literals -/

namespace Literal

/-- A literal and the text after it. Real numbers are not written. -/
def write : Literal → List Char → List Char
  | .single _, rest => rest
  | .double _, rest => rest
  | .integer .decimal value, rest => decimalText value.toInt ++ '%' :: rest
  | .integer radix value, rest => radixText radix value.toUInt16.toNat ++ rest
  | .long .decimal value, rest => decimalText value.toInt ++ '&' :: rest
  | .long radix value, rest => radixText radix value.toUInt32.toNat ++ '&' :: rest
  | .string value, rest => quotedText value.toList ++ rest
  | .boolean true, rest => Keyword.True.write rest
  | .boolean false, rest => Keyword.False.write rest
  | .nothing, rest => Keyword.Nothing.write rest

/-- Strings can be written that have no line breaks. -/
def isPrintable : Literal → Bool
  | .single _ => false
  | .double _ => false
  | .string value => value.toList.all (! isBreak ·)
  | _ => true

theorem readNumber_integer (value : Int16) (rest : List Char) :
    readNumber (decimalText value.toInt ++ '%' :: rest) =
      some (.integer .decimal value, (decimalText value.toInt).length + 1) := by
  have hends : EndsNumber ('%' :: rest) :=
    endsNumber_cons rest (by decide) (by decide) (by decide) (by decide)
  have hlow := value.le_toInt
  have hhigh := value.toInt_lt
  rw [readNumber_decimalText _ hends]
  simp [Numeral.literal?, isReal_numeralOf, Numeral.toInteger?, wholeValue_numeralOf]
  omega

theorem readNumber_long (value : Int32) (rest : List Char) :
    readNumber (decimalText value.toInt ++ '&' :: rest) =
      some (.long .decimal value, (decimalText value.toInt).length + 1) := by
  have hends : EndsNumber ('&' :: rest) :=
    endsNumber_cons rest (by decide) (by decide) (by decide) (by decide)
  have hlow := value.le_toInt
  have hhigh := value.toInt_lt
  rw [readNumber_decimalText _ hends]
  simp [Numeral.literal?, isReal_numeralOf, Numeral.toLong?, wholeValue_numeralOf]
  omega

theorem readNumber_integerBits {radix : Radix} (hradix : radix ≠ .decimal) (value : Int16)
    (hr : Edge rest) :
    readNumber (radixText radix value.toUInt16.toNat ++ rest) =
      some (.integer radix value, (radixText radix value.toUInt16.toNat).length) := by
  obtain ⟨c, rest, rfl, hc⟩ := hr
  have hdigit : (c :: rest).head?.any radix.isDigit = false := radix.isDigit_eq_false_of_isEdge hc
  have hbound : value.toUInt16.toNat < 65536 := value.toUInt16.toNat_lt
  have hvalue : Int16.ofInt value.toUInt16.toNat = value :=
    Int16.toBitVec.inj (by simp [← UInt16.toNat_toBitVec])
  rw [readNumber_radixText hradix _ hdigit]
  have hne : c ≠ '&' ∧ c ≠ '%' := by
    constructor <;> rintro rfl <;> contradiction
  unfold Radix.literal?
  rw [if_neg (by omega)]
  split
  · rename_i h
    exact absurd (Option.some.inj h) hne.1
  · rename_i h
    exact absurd (Option.some.inj h) hne.2
  · rw [if_neg (by omega)]
    simp [Radix.integerLiteral, hvalue]

theorem readNumber_longBits {radix : Radix} (hradix : radix ≠ .decimal) (value : Int32)
    (rest : List Char) :
    readNumber (radixText radix value.toUInt32.toNat ++ '&' :: rest) =
      some (.long radix value, (radixText radix value.toUInt32.toNat).length + 1) := by
  have hdigit : ('&' :: rest).head?.any radix.isDigit = false := by cases radix <;> rfl
  have hbound : value.toUInt32.toNat < 4294967296 := value.toUInt32.toNat_lt
  have hvalue : Int32.ofInt value.toUInt32.toNat = value :=
    Int32.toBitVec.inj (by simp [← UInt32.toNat_toBitVec])
  rw [readNumber_radixText hradix _ hdigit]
  unfold Radix.literal?
  rw [if_neg (by omega)]
  simp [Radix.longLiteral, hvalue]

/-- The characters that a literal starts with. -/
def isStart (c : Char) : Bool :=
  c.isAlpha || c.isDigit || c = '-' || c = '&' || c = '"'

/-- The literals that are words. -/
def isWord : Literal → Bool
  | .boolean _ => true
  | .nothing => true
  | _ => false

theorem isAlpha_eq_false_of_isDigit {c : Char} (h : c.isDigit = true) : c.isAlpha = false := by
  delta Char.isDigit at h
  delta Char.isAlpha Char.isUpper Char.isLower
  grind

theorem decimalText_eq_cons (value : Int) (rest : List Char) :
    ∃ c tail, decimalText value ++ rest = c :: tail ∧ isStart c = true ∧ c.isAlpha = false := by
  obtain ⟨c, tail, hd, hc⟩ := digits_eq_cons value.natAbs
  by_cases hv : value < 0
  · exact ⟨'-', _, by simp [decimalText, hv]; rfl, rfl, rfl⟩
  · exact ⟨c, tail ++ rest, by simp [decimalText, hv, hd], by simp [isStart, hc],
      isAlpha_eq_false_of_isDigit hc⟩

theorem write_eq_cons {value : Literal} (h : value.isPrintable = true) (rest : List Char) :
    ∃ c tail, value.write rest = c :: tail ∧ isStart c = true ∧
      (value.isWord = false → c.isAlpha = false) := by
  have hkeyword (k : Keyword) : ∃ c tail, k.write rest = c :: tail ∧ isStart c = true := by
    obtain ⟨c, tail, hk, hc⟩ := k.isAlpha_head rest
    exact ⟨c, tail, hk, by simp [isStart, hc]⟩
  match value with
  | .integer .decimal n =>
    obtain ⟨c, tail, hw, hs, ha⟩ := decimalText_eq_cons n.toInt ('%' :: rest)
    exact ⟨c, tail, hw, hs, fun _ => ha⟩
  | .long .decimal n =>
    obtain ⟨c, tail, hw, hs, ha⟩ := decimalText_eq_cons n.toInt ('&' :: rest)
    exact ⟨c, tail, hw, hs, fun _ => ha⟩
  | .integer .hexadecimal _ | .integer .octal _ => exact ⟨'&', _, rfl, rfl, fun _ => rfl⟩
  | .long .hexadecimal _ | .long .octal _ => exact ⟨'&', _, rfl, rfl, fun _ => rfl⟩
  | .string _ => exact ⟨'"', _, rfl, rfl, fun _ => rfl⟩
  | .boolean true =>
    obtain ⟨c, tail, hw, hs⟩ := hkeyword .True
    exact ⟨c, tail, hw, hs, fun h => by contradiction⟩
  | .boolean false =>
    obtain ⟨c, tail, hw, hs⟩ := hkeyword .False
    exact ⟨c, tail, hw, hs, fun h => by contradiction⟩
  | .nothing =>
    obtain ⟨c, tail, hw, hs⟩ := hkeyword .Nothing
    exact ⟨c, tail, hw, hs, fun h => by contradiction⟩

theorem isBlank_eq_false_of_isStart {c : Char} (h : isStart c = true) : isBlank c = false := by
  cases hb : isBlank c with
  | false => rfl
  | true =>
    simp only [isBlank, Bool.or_eq_true, decide_eq_true_eq] at hb
    rcases hb with rfl | rfl <;> contradiction

theorem solid_write {value : Literal} (h : value.isPrintable = true) (rest : List Char) :
    Solid (value.write rest) := by
  obtain ⟨c, tail, hw, hc, _⟩ := write_eq_cons h rest
  rw [hw]
  refine solid_cons tail (isBlank_eq_false_of_isStart hc) ?_
  rintro rfl
  contradiction

theorem spells_write {value : Literal} (h : value.isPrintable = true) {k : Keyword}
    (hk : k ∉ [.True, .False, .Nothing]) (hr : NoWord rest) :
    spells k (value.write rest) = false := by
  simp only [List.mem_cons, List.not_mem_nil, or_false, not_or] at hk
  cases hword : value.isWord with
  | false =>
    obtain ⟨c, tail, hw, _, ha⟩ := write_eq_cons h rest
    rw [hw]
    exact spells_cons_eq_false k tail (ha hword)
  | true =>
    match value with
    | .boolean true => rw [write, Keyword.spells_write _ _ hr, decide_eq_false hk.1]
    | .boolean false => rw [write, Keyword.spells_write _ _ hr, decide_eq_false hk.2.1]
    | .nothing => rw [write, Keyword.spells_write _ _ hr, decide_eq_false hk.2.2]

theorem takes_of_number {value : Literal}
    (h : Parse.Takes Cursor.number text rest fun found => found = value) :
    Parse.Takes Grammar.literal text rest fun found => found = value := by
  intro c hc
  obtain ⟨found, d, hn, hd⟩ := h c hc
  exact ⟨found, d, by simp [Grammar.literal, hn], hd⟩

/-- A number whose last character is its suffix. -/
theorem takes_suffixed {value : Literal} {written : List Char} {suffix : Char}
    (hl : Leads text (written ++ suffix :: rest)) (hr : NoWord rest)
    (h : readNumber (written ++ suffix :: rest) = some (value, written.length + 1)) :
    Parse.Takes Cursor.number text rest fun found => found = value := by
  have hjoin : written ++ suffix :: rest = (written ++ [suffix]) ++ rest := by simp
  rw [hjoin] at hl h
  exact takes_number hl hr (by simpa using h)

/-- A literal that is a word is no number and no string. -/
theorem misses_of_keyword {k : Keyword} (hl : Leads text (k.write rest)) :
    Parse.Misses Cursor.number text ∧ Parse.Misses Cursor.quoted text := by
  obtain ⟨c, tail, hk, hc⟩ := k.isAlpha_head rest
  rw [hk] at hl
  have hne (other : Char) (ho : other.isAlpha = false) : c ≠ other := by
    rintro rfl
    simp [ho] at hc
  have hdigit : c.isDigit = false := by
    cases hd : c.isDigit with
    | false => rfl
    | true => simp [isAlpha_eq_false_of_isDigit hd] at hc
  refine ⟨misses_number hl ?_ fun h => absurd h (hne '.' rfl), misses_quoted hl ?_⟩
  · simp [isNumberStart, hdigit, hne '-' rfl, hne '+' rfl, hne '&' rfl]
  · simpa using hne '"' rfl

theorem takes_write {value : Literal} (h : value.isPrintable = true)
    (hl : Leads text (value.write rest)) (hr : Edge rest) :
    Parse.Takes Grammar.literal text rest fun found => found = value := by
  match value with
  | .integer .decimal n =>
    exact takes_of_number (takes_suffixed hl hr.noWord (readNumber_integer n rest))
  | .long .decimal n =>
    exact takes_of_number (takes_suffixed hl hr.noWord (readNumber_long n rest))
  | .integer .hexadecimal n | .integer .octal n =>
    exact takes_of_number (takes_number hl hr.noWord (readNumber_integerBits (by decide) n hr))
  | .long .hexadecimal n | .long .octal n =>
    exact takes_of_number (takes_suffixed hl hr.noWord (readNumber_longBits (by decide) n rest))
  | .string value =>
    have hnumber : Parse.Misses Cursor.number text :=
      misses_number (c := '"') hl rfl fun h => absurd h (by decide)
    have hquote : rest.head? ≠ some '"' := by
      obtain ⟨c, tail, rfl, hc⟩ := hr
      rintro h
      obtain rfl := Option.some.inj h
      contradiction
    intro c hc
    obtain ⟨found, d, hq, hd, rfl⟩ := takes_quoted hl h hquote c hc
    exact ⟨.string found, d, by simp [Grammar.literal, hnumber c hc, hq], hd, rfl⟩
  | .boolean true =>
    obtain ⟨hnumber, hquoted⟩ := misses_of_keyword hl
    intro c hc
    obtain ⟨d, hk, hd⟩ := Parse.passes_keyword hl hr.noWord c hc
    exact ⟨_, d, by simp [Grammar.literal, hnumber c hc, hquoted c hc, hk], hd, rfl⟩
  | .boolean false =>
    obtain ⟨hnumber, hquoted⟩ := misses_of_keyword hl
    intro c hc
    obtain ⟨d, hk, hd⟩ := Parse.passes_keyword hl hr.noWord c hc
    have htrue := Parse.stays_keyword hl (Keyword.spells_write .True .False hr.noWord) c hc
    exact ⟨_, d, by simp [Grammar.literal, hnumber c hc, hquoted c hc, htrue, hk], hd, rfl⟩
  | .nothing =>
    obtain ⟨hnumber, hquoted⟩ := misses_of_keyword hl
    intro c hc
    obtain ⟨d, hk, hd⟩ := Parse.passes_keyword hl hr.noWord c hc
    have htrue := Parse.stays_keyword hl (Keyword.spells_write .True .Nothing hr.noWord) c hc
    have hfalse := Parse.stays_keyword hl (Keyword.spells_write .False .Nothing hr.noWord) c hc
    exact ⟨_, d, by simp [Grammar.literal, hnumber c hc, hquoted c hc, htrue, hfalse, hk], hd, rfl⟩

end Literal

/-! ## Plain numbers -/

/-- What a decimal integer without a suffix is read as. -/
def plainNumber (value : Int32) : Literal :=
  if -32768 ≤ value.toInt ∧ value.toInt < 32768 then .integer .decimal (Int16.ofInt value.toInt)
  else .long .decimal value

theorem takes_plainNumber {value : Int32} (hl : Leads text (decimalText value.toInt ++ rest))
    (hr : Edge rest) :
    Parse.Takes Cursor.number text rest fun found => found = plainNumber value := by
  refine takes_number hl hr.noWord ?_
  have hlow := value.le_toInt
  have hhigh := value.toInt_lt
  have hliteral : (numeralOf value.toInt).literal? rest = some (plainNumber value, 0) := by
    obtain ⟨c, tail, rfl, hc⟩ := hr
    have hne (suffix : Char) (hs : isEdge suffix = false) : c ≠ suffix := by
      rintro rfl
      simp [hs] at hc
    unfold Numeral.literal?
    split
    · rename_i h
      exact absurd (Option.some.inj h) (hne '!' rfl)
    · rename_i h
      exact absurd (Option.some.inj h) (hne '#' rfl)
    · have hsuffix : (numeralOf value.toInt).toInteger?.or (numeralOf value.toInt).toLong? =
          some (plainNumber value) := by
        simp only [Numeral.toInteger?, Numeral.toLong?, wholeValue_numeralOf, plainNumber]
        split
        · rfl
        · rw [if_pos ⟨hlow, hhigh⟩, Int32.ofInt_toInt, Option.none_or]
      simp [isReal_numeralOf, hne '%' rfl, hne '&' rfl, hsuffix]
  rw [readNumber_decimalText _ hr.endsNumber, hliteral]
  rfl

theorem wholeNumber?_plainNumber (value : Int32) :
    (plainNumber value).wholeNumber? = some value := by
  unfold plainNumber
  split
  · rename_i h
    refine congrArg some (Int32.toInt.inj ?_)
    rw [Int16.toInt_toInt32, Int16.toInt_ofInt_of_le (by omega) (by omega)]
  · rfl

end VisualBasic
