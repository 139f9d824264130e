import VisualBasic.Proofs.Cursor.Token

/-!
# The longest number that a text starts with

A decimal number is spelled by a numeral and perhaps a suffix. Reading takes the longest sign, the
longest run of digits, the longest fraction and the longest exponent one after the other; no other
way to divide the text reaches further, and none reaches as far.
-/

set_option autoImplicit false

namespace VisualBasic

/-! ## Forms -/

def IsDigits (text : List Char) : Prop := ∀ c ∈ text, c.isDigit = true

/-- A sign or none. -/
def IsSignText (text : List Char) : Prop := text = [] ∨ text = ['+'] ∨ text = ['-']

/-- A point and one digit or more, or nothing. -/
def IsFraction (text : List Char) : Prop :=
  text = [] ∨ ∃ digits, digits ≠ [] ∧ IsDigits digits ∧ text = '.' :: digits

/-- A letter E, a sign or none, and one digit or more; or nothing. -/
def IsExponent (text : List Char) : Prop :=
  text = [] ∨ ∃ mark sign digits, (mark = 'e' ∨ mark = 'E') ∧ IsSignText sign ∧ digits ≠ [] ∧
    IsDigits digits ∧ text = mark :: (sign ++ digits)

namespace Numeral

/-- The parts have their forms, and there is a digit before the exponent. -/
structure IsFormed (n : Numeral) : Prop where
  sign : IsSignText n.sign
  whole : IsDigits n.whole
  fraction : IsFraction n.fraction
  exponent : IsExponent n.exponent
  digit : n.whole ≠ [] ∨ n.fraction ≠ []

/-- The suffixes that fit a numeral: those of the integer types only without fraction and
exponent. -/
def isSuffix (n : Numeral) (c : Char) : Bool :=
  c = '!' || c = '#' || (! n.isReal && (c = '%' || c = '&'))

/-- A text is a numeral, followed by a suffix that fits it or by none. -/
structure Spells (n : Numeral) (suffix : Option Char) (text : List Char) : Prop where
  formed : n.IsFormed
  fits : ∀ c ∈ suffix, n.isSuffix c = true
  text : text = n.spelling ++ suffix.toList

/-- The longest of the decimal numbers that a source starts with. -/
structure SpellsLongest (n : Numeral) (suffix : Option Char) (text source : List Char) : Prop where
  spells : n.Spells suffix text
  starts : text <+: source
  longest : ∀ (other : Numeral) (mark : Option Char) (written : List Char),
    other.Spells mark written → written <+: source → written.length ≤ text.length

end Numeral

/-! ## One part after the other -/

variable {part rest : List Char}

theorem isDigits_takeWhile (text : List Char) : IsDigits (text.takeWhile Char.isDigit) :=
  fun _ hc => of_mem_takeWhile hc

/-- Digits are the longest run of digits, or more of them follow at once. -/
theorem digits_cases (more : List Char) (hpart : IsDigits part)
    (hrest : rest.head?.any Char.isDigit = false) :
    part = (part ++ (rest ++ more)).takeWhile Char.isDigit ∨
      rest = [] ∧ part.length < ((part ++ (rest ++ more)).takeWhile Char.isDigit).length := by
  rw [List.takeWhile_append_of_pos hpart]
  cases rest with
  | cons c rest =>
    have hc : c.isDigit = false := by simpa using hrest
    simp [hc]
  | nil =>
    cases hmore : more.takeWhile Char.isDigit with
    | nil => simp [hmore]
    | cons d digits => simp [hmore]

theorem isSignText_splitSign (text : List Char) : IsSignText (splitSign text).1 := by
  unfold splitSign IsSignText
  split <;> simp

theorem splitSign_append_of_ne {c : Char} (hpart : IsSignText part) (hm : c ≠ '-') (hp : c ≠ '+') :
    splitSign (part ++ c :: rest) = (part, c :: rest) := by
  rcases hpart with rfl | rfl | rfl
  · simp [splitSign, hm, hp]
  · rfl
  · rfl

theorem splitSign_of_digits {digits : List Char} (hpart : IsSignText part) (hne : digits ≠ [])
    (hdigits : IsDigits digits) (rest : List Char) :
    splitSign (part ++ (digits ++ rest)) = (part, digits ++ rest) := by
  obtain ⟨d, others, rfl⟩ := List.exists_cons_of_ne_nil hne
  have hd := hdigits d List.mem_cons_self
  refine splitSign_append_of_ne hpart ?_ ?_
  · rintro rfl
    contradiction
  · rintro rfl
    contradiction

theorem isFraction_splitFraction (text : List Char) : IsFraction (splitFraction text).1 := by
  unfold splitFraction
  split
  · dsimp only
    split
    · exact .inl rfl
    · rename_i hdigits
      exact .inr ⟨_, by simpa using hdigits, isDigits_takeWhile _, rfl⟩
  · exact .inl rfl

theorem splitFraction_point (rest : List Char) :
    (splitFraction ('.' :: rest)).1 =
      if rest.takeWhile Char.isDigit = [] then [] else '.' :: rest.takeWhile Char.isDigit := by
  simp only [splitFraction, List.isEmpty_iff]
  split <;> rfl

theorem splitFraction_of_ne {text : List Char} (h : text.head? ≠ some '.') :
    splitFraction text = ([], text) := by
  unfold splitFraction
  split
  · simp at h
  · rfl

/-- A fraction is the longest one, or the text goes on with it at once. -/
theorem fraction_cases (more : List Char) (hpart : IsFraction part)
    (hdigit : rest.head?.any Char.isDigit = false)
    (hpoint : rest.head? ≠ some '.') :
    part = (splitFraction (part ++ (rest ++ more))).1 ∨
      rest = [] ∧ part.length < (splitFraction (part ++ (rest ++ more))).1.length := by
  rcases hpart with rfl | ⟨digits, hne, hdigits, rfl⟩
  · cases rest with
    | cons c rest =>
      exact .inl (by rw [List.nil_append, splitFraction_of_ne (by simpa using hpoint)])
    | nil =>
      cases hsplit : (splitFraction more).1 with
      | nil => exact .inl (by simp [hsplit])
      | cons c fraction => exact .inr (by simp [hsplit])
  · have hrun : (digits ++ (rest ++ more)).takeWhile Char.isDigit ≠ [] := by
      rw [List.takeWhile_append_of_pos hdigits]
      simp [hne]
    rw [List.cons_append, splitFraction_point, if_neg hrun]
    rcases digits_cases more hdigits hdigit with heq | ⟨hnil, hlt⟩
    · exact .inl (congrArg _ heq)
    · exact .inr ⟨hnil, Nat.succ_lt_succ hlt⟩

theorem isExponent_splitExponent (text : List Char) : IsExponent (splitExponent text).1 := by
  unfold splitExponent
  split
  · exact .inl rfl
  · split
    · rename_i hmark
      dsimp only
      split
      · exact .inl rfl
      · rename_i hdigits
        exact .inr ⟨_, _, _, by simpa using hmark, isSignText_splitSign _, by simpa using hdigits,
          isDigits_takeWhile _, rfl⟩
    · exact .inl rfl

theorem splitExponent_of_mark {mark : Char} (h : mark = 'e' ∨ mark = 'E') (rest : List Char) :
    (splitExponent (mark :: rest)).1 =
      if (splitSign rest).2.takeWhile Char.isDigit = [] then []
      else mark :: ((splitSign rest).1 ++ (splitSign rest).2.takeWhile Char.isDigit) := by
  have hmark : (mark = 'e' || mark = 'E') = true := by simpa using h
  simp only [splitExponent, hmark, if_true, List.isEmpty_iff]
  split <;> rfl

theorem splitExponent_of_ne {mark : Char} (he : mark ≠ 'e') (hE : mark ≠ 'E') (rest : List Char) :
    splitExponent (mark :: rest) = ([], mark :: rest) := by
  simp [splitExponent, he, hE]

/-- An exponent is the longest one, or the text goes on with it at once. -/
theorem exponent_cases (more : List Char) (hpart : IsExponent part)
    (hdigit : rest.head?.any Char.isDigit = false)
    (hmark : ∀ c ∈ rest.head?, c ≠ 'e' ∧ c ≠ 'E') :
    part = (splitExponent (part ++ (rest ++ more))).1 ∨
      rest = [] ∧ part.length < (splitExponent (part ++ (rest ++ more))).1.length := by
  rcases hpart with rfl | ⟨mark, sign, digits, hletter, hsign, hne, hdigits, rfl⟩
  · cases rest with
    | cons c rest =>
      obtain ⟨he, hE⟩ := hmark c rfl
      exact .inl (by rw [List.nil_append, List.cons_append, splitExponent_of_ne he hE])
    | nil =>
      cases hsplit : (splitExponent more).1 with
      | nil => exact .inl (by simp [hsplit])
      | cons c exponent => exact .inr (by simp [hsplit])
  · have hrun : (digits ++ (rest ++ more)).takeWhile Char.isDigit ≠ [] := by
      rw [List.takeWhile_append_of_pos hdigits]
      simp [hne]
    rw [List.cons_append, List.append_assoc, splitExponent_of_mark hletter,
      splitSign_of_digits hsign hne hdigits, if_neg hrun]
    rcases digits_cases more hdigits hdigit with heq | ⟨hnil, hlt⟩
    · exact .inl (by rw [← heq])
    · refine .inr ⟨hnil, ?_⟩
      simp only [List.length_cons, List.length_append] at hlt ⊢
      omega

/-! ## The whole number -/

namespace Numeral

variable {n : Numeral} {suffix : Option Char} {text source : List Char}

theorem read_eq (text : List Char) :
    read text =
      let unsigned := (splitSign text).2
      let whole := unsigned.takeWhile Char.isDigit
      let fraction := splitFraction (unsigned.drop whole.length)
      let exponent := splitExponent fraction.2
      if whole = [] ∧ fraction.1 = [] then none
      else some (⟨(splitSign text).1, whole, fraction.1, exponent.1⟩, exponent.2) := by
  simp only [read, Bool.and_eq_true, List.isEmpty_iff]

theorem isFormed_of_read {rest : List Char} (h : read text = some (n, rest)) : n.IsFormed := by
  rw [read_eq] at h
  dsimp only at h
  split at h
  · contradiction
  · rename_i hne
    cases h
    exact ⟨isSignText_splitSign _, isDigits_takeWhile _, isFraction_splitFraction _,
      isExponent_splitExponent _, Decidable.not_and_iff_or_not.mp hne⟩

theorem isSuffix_apart {c : Char} (h : n.isSuffix c = true) :
    c.isDigit = false ∧ c ≠ '.' ∧ c ≠ 'e' ∧ c ≠ 'E' := by
  simp only [isSuffix, Bool.or_eq_true, Bool.and_eq_true, decide_eq_true_eq] at h
  rcases h with (rfl | rfl) | ⟨_, rfl | rfl⟩ <;> decide

theorem head?_suffix (hsuffix : ∀ c ∈ suffix, n.isSuffix c = true) :
    suffix.toList.head?.any Char.isDigit = false ∧ ∀ c ∈ suffix.toList.head?, c ≠
    'e' ∧ c ≠ 'E' := by
  cases suffix with
  | none => exact ⟨rfl, by simp⟩
  | some c =>
    obtain ⟨hdigit, _, hmark⟩ := isSuffix_apart (hsuffix c rfl)
    exact ⟨by simpa using hdigit, by simpa using hmark⟩

/-- What follows the fraction starts with no digit and no point. -/
theorem head?_exponent_suffix (hexponent : IsExponent n.exponent)
    (hsuffix : ∀ c ∈ suffix, n.isSuffix c = true) :
    (n.exponent ++ suffix.toList).head?.any Char.isDigit = false ∧
      (n.exponent ++ suffix.toList).head? ≠ some '.' := by
  rcases hexponent with hnil | ⟨mark, sign, digits, hmark, _, _, _, hexponent⟩
  · rw [hnil]
    cases suffix with
    | none => exact ⟨rfl, by simp⟩
    | some c =>
      obtain ⟨hdigit, hpoint, _⟩ := isSuffix_apart (hsuffix c rfl)
      exact ⟨by simpa using hdigit, by simpa using hpoint⟩
  · rw [hexponent]
    rcases hmark with rfl | rfl <;> exact ⟨rfl, by simp⟩

theorem head?_fraction_exponent_suffix (hfraction : IsFraction n.fraction)
    (hexponent : IsExponent n.exponent) (hsuffix : ∀ c ∈ suffix, n.isSuffix c = true) :
    (n.fraction ++ (n.exponent ++ suffix.toList)).head?.any Char.isDigit = false := by
  rcases hfraction with hnil | ⟨digits, _, _, hfraction⟩
  · rw [hnil]
    exact (head?_exponent_suffix hexponent hsuffix).1
  · rw [hfraction]
    rfl

/-- The first digit or the point comes right after the sign. -/
theorem splitSign_of_isFormed (h : n.IsFormed) (rest : List Char) :
    splitSign (n.sign ++ (n.whole ++ (n.fraction ++ rest))) =
      (n.sign, n.whole ++ (n.fraction ++ rest)) := by
  obtain ⟨c, others, hrest, hc⟩ : ∃ c others,
      n.whole ++ (n.fraction ++ rest) = c :: others ∧ (c.isDigit = true ∨ c = '.') := by
    cases hwhole : n.whole with
    | cons c others => exact ⟨c, _, rfl, .inl (h.whole c (by simp [hwhole]))⟩
    | nil =>
      obtain ⟨digits, _, _, hfraction⟩ :=
        h.fraction.resolve_left (h.digit.resolve_left (by simp [hwhole]))
      exact ⟨'.', digits ++ rest, by simp [hfraction], .inr rfl⟩
  rw [hrest]
  refine splitSign_append_of_ne h.sign ?_ ?_
  all_goals
    rintro rfl
    rcases hc with hc | hc <;> contradiction

/-- With all its digits before the fraction a numeral is read up to there. -/
theorem read_of_whole (h : n.IsFormed) {rest : List Char}
    (hwhole : n.whole = (n.whole ++ (n.fraction ++ rest)).takeWhile Char.isDigit)
    (hdigit : n.whole ≠ [] ∨ (splitFraction (n.fraction ++ rest)).1 ≠ []) :
    read (n.sign ++ (n.whole ++ (n.fraction ++ rest))) =
      let fraction := splitFraction (n.fraction ++ rest)
      some (⟨n.sign, n.whole, fraction.1, (splitExponent fraction.2).1⟩,
        (splitExponent fraction.2).2) := by
  rw [read_eq, splitSign_of_isFormed h]
  dsimp only
  rw [← hwhole, List.drop_left, if_neg (Decidable.not_and_iff_or_not.mpr hdigit)]

theorem read_of_fraction (h : n.IsFormed) {rest : List Char}
    (hwhole : n.whole = (n.whole ++ (n.fraction ++ rest)).takeWhile Char.isDigit)
    (hfraction : n.fraction = (splitFraction (n.fraction ++ rest)).1) :
    read (n.sign ++ (n.whole ++ (n.fraction ++ rest))) =
      some (⟨n.sign, n.whole, n.fraction, (splitExponent rest).1⟩, (splitExponent rest).2) := by
  have happend := splitFraction_append (n.fraction ++ rest)
  rw [← hfraction, List.append_cancel_left_eq] at happend
  rw [read_of_whole h hwhole (hfraction ▸ h.digit)]
  dsimp only
  rw [← hfraction, happend]

/-- A number that a source starts with is the one that is read, or has no suffix and is shorter. -/
theorem Spells.read_append (h : n.Spells suffix text) (more : List Char) :
    ∃ found tail, read (text ++ more) = some (found, tail) ∧
      (n = found ∧ tail = suffix.toList ++ more ∨
        suffix = none ∧ n.spelling.length < found.spelling.length) := by
  obtain ⟨hformed, hsuffix, rfl⟩ := h
  obtain ⟨hafterFraction, hpoint⟩ := head?_exponent_suffix hformed.exponent hsuffix
  have hsource : n.spelling ++ suffix.toList ++ more =
      n.sign ++ (n.whole ++ (n.fraction ++ (n.exponent ++ suffix.toList ++ more))) := by
    simp only [spelling, List.append_assoc]
  rw [hsource]
  have hwhole := digits_cases more hformed.whole
    (head?_fraction_exponent_suffix hformed.fraction hformed.exponent hsuffix)
  rw [List.append_assoc n.fraction] at hwhole
  rcases hwhole with hwhole | ⟨hnil, hlt⟩
  · rcases fraction_cases more hformed.fraction hafterFraction hpoint with hfraction | ⟨hnil, hlt⟩
    · rw [read_of_fraction hformed hwhole hfraction, List.append_assoc]
      obtain ⟨hafterExponent, hmark⟩ := head?_suffix hsuffix
      have happend := splitExponent_append (n.exponent ++ (suffix.toList ++ more))
      rcases exponent_cases more hformed.exponent hafterExponent hmark with hexponent | ⟨hnil, hlt⟩
      · rw [← hexponent, List.append_cancel_left_eq] at happend
        exact ⟨_, _, rfl, .inl ⟨by rw [← hexponent], happend⟩⟩
      · refine ⟨_, _, rfl, .inr ⟨Option.toList_eq_nil_iff.mp hnil, ?_⟩⟩
        simp only [spelling, List.length_append]
        omega
    · obtain ⟨hexponent, hnone⟩ := List.append_eq_nil_iff.mp hnil
      rw [read_of_whole hformed hwhole (.inr (List.ne_nil_of_length_pos (by omega)))]
      refine ⟨_, _, rfl, .inr ⟨Option.toList_eq_nil_iff.mp hnone, ?_⟩⟩
      simp only [spelling, List.length_append, hexponent, List.length_nil] at hlt ⊢
      omega
  · obtain ⟨hfraction, hrest⟩ := List.append_eq_nil_iff.mp hnil
    obtain ⟨hexponent, hnone⟩ := List.append_eq_nil_iff.mp hrest
    rw [read_eq, splitSign_of_isFormed hformed]
    dsimp only
    rw [if_neg fun hempty => List.ne_nil_of_length_pos (by omega) hempty.1]
    refine ⟨_, _, rfl, .inr ⟨Option.toList_eq_nil_iff.mp hnone, ?_⟩⟩
    simp only [spelling, List.length_append, hfraction, hexponent, List.length_nil] at hlt ⊢
    omega

/-- The suffix after a numeral that is read belongs to the number. -/
theorem spells_of_read {tail : List Char} (h : read source = some (n, tail)) :
    n.Spells (tail.head?.filter n.isSuffix) (n.spelling ++ (tail.head?.filter n.isSuffix).toList) ∧
      n.spelling ++ (tail.head?.filter n.isSuffix).toList <+: source := by
  refine ⟨⟨isFormed_of_read h, fun c hc => (Option.mem_filter_iff.mp hc).2, rfl⟩, ?_⟩
  rw [(read_eq_some h).1, List.prefix_append_right_inj]
  cases tail with
  | nil => exact List.nil_prefix
  | cons c tail => cases hc : n.isSuffix c <;> simp [Option.filter, hc]

/-- The longest number that a source starts with is the numeral that is read and the suffix after
it. -/
theorem spellsLongest_iff :
    n.SpellsLongest suffix text source ↔
      ∃ tail, read source = some (n, tail) ∧ suffix = tail.head?.filter n.isSuffix ∧
        text = n.spelling ++ suffix.toList := by
  constructor
  · rintro ⟨hspells, ⟨more, rfl⟩, hlongest⟩
    obtain ⟨found, tail, hfound, hcases⟩ := hspells.read_append more
    obtain ⟨hother, hstarts⟩ := spells_of_read hfound
    have hlength := hlongest _ _ _ hother hstarts
    simp only [hspells.text, List.length_append] at hlength
    rcases hcases with ⟨rfl, rfl⟩ | ⟨rfl, hlt⟩
    · refine ⟨_, hfound, ?_, hspells.text⟩
      cases suffix with
      | some c => simp [Option.filter, hspells.fits c rfl]
      | none =>
        refine (Option.toList_eq_nil_iff.mp (List.eq_nil_of_length_eq_zero ?_)).symm
        rw [Option.toList_none, List.nil_append] at hlength ⊢
        rw [List.length_nil] at hlength
        omega
    · simp only [Option.toList_none, List.length_nil] at hlength
      omega
  · rintro ⟨tail, htail, rfl, rfl⟩
    obtain ⟨hspells, hstarts⟩ := spells_of_read htail
    refine ⟨hspells, hstarts, fun other mark written hother hprefix => ?_⟩
    obtain ⟨more, rfl⟩ := hprefix
    obtain ⟨found, _, hfound, hcases⟩ := hother.read_append more
    cases htail.symm.trans hfound
    simp only [hother.text, List.length_append]
    rcases hcases with ⟨rfl, rfl⟩ | ⟨rfl, hlt⟩
    · cases mark with
      | some c => simp [Option.filter, hother.fits c rfl]
      | none => simp
    · simp only [Option.toList_none, List.length_nil]
      omega

end Numeral

end VisualBasic
