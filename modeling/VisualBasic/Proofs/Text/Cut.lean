import VisualBasic.Proofs.Text.Lead
import VisualBasic.Proofs.Text.Stop

/-!
# Texts cut off after a construct

A text that ends with ink is cut off where a statement may end. Blanks, words and numbers that start
in such a text are the same as in the text that goes on.
-/

set_option autoImplicit false

namespace VisualBasic

/-- What a terminator starts with: a line break, a colon, an apostrophe or the word `Rem`. The end
of the source is a terminator too. -/
def StartsTerminator (text : List Char) : Prop :=
  text.head?.all (fun c => isBreak c || c = ':' || c = '\x27') = true ∨ spells .Rem text = true

theorem isDigit_eq_false_of_isAlpha {c : Char} (h : c.isAlpha = true) : c.isDigit = false := by
  rw [Bool.eq_false_iff]
  revert h
  delta Char.isAlpha Char.isUpper Char.isLower Char.isDigit
  simp only [ne_eq, Bool.or_eq_true, Bool.and_eq_true, decide_eq_true_eq, UInt32.le_iff_toNat_le,
    ge_iff_le]
  simp
  omega

/-- A text after which a construct of a longer text ends. -/
structure CutOff (afterBlank : Bool) (text more : List Char) : Prop where
  ink : text.getLast?.any isInk = true
  /-- The text does not end inside a line continuation. -/
  still {before : List Char} (h : text = before ++ ['_'])
    (hb : (before.getLast?.map isBlank).getD afterBlank = true) : continuationWidth more = none
  /-- No word and no number goes on after the text. -/
  apart (h : more.head?.any isWordChar = true) : text.getLast?.any isDelimiter = true
  stop : StartsTerminator (more.drop (blankWidth false more))

variable {text more : List Char}

/-! ## Texts that end with ink -/

theorem ne_nil_of_ink (h : text.getLast?.any isInk = true) : text ≠ [] := by
  rintro rfl
  contradiction

theorem getLast?_drop_of_lt {n : Nat} (hn : n < text.length) :
    (text.drop n).getLast? = text.getLast? := by
  rw [List.getLast?_drop, if_neg (by omega)]

theorem takeWhile_append_of_ink {p : Char → Bool} (hp : ∀ c, p c = true → isInk c = false)
    (h : text.getLast?.any isInk = true) (more : List Char) :
    (text ++ more).takeWhile p = text.takeWhile p ∧ (text.takeWhile p).length < text.length := by
  induction text with
  | nil => contradiction
  | cons c text ih =>
    cases hc : p c with
    | false => simp [hc]
    | true =>
      have hrest : text.getLast?.any isInk = true := by
        cases htext : text.getLast? with
        | none => simp [List.getLast?_cons, htext, hp c hc] at h
        | some d => simpa [List.getLast?_cons, htext] using h
      obtain ⟨htake, hlt⟩ := ih hrest
      simp [hc, htake, hlt]

theorem isInk_eq_false_of_isBlank {c : Char} (h : isBlank c = true) : isInk c = false := by
  simp [isInk, h]

theorem breakWidth_append_of_ink (h : text.getLast?.any isInk = true) (more : List Char) :
    breakWidth (text ++ more) = breakWidth text ∧ breakWidth text < text.length := by
  cases text with
  | nil => contradiction
  | cons c text =>
    cases text with
    | nil =>
      have hc : isInk c = true := by simpa using h
      have hbreak := isBreak_eq_false_of_isInk hc
      rw [isBreak, Bool.or_eq_false_iff, decide_eq_false_iff_not, decide_eq_false_iff_not] at hbreak
      simp [breakWidth, hbreak]
    | cons d text =>
      by_cases hr : c = '\r'
      · subst hr
        by_cases hn : d = '\n'
        · subst hn
          cases text with
          | nil => contradiction
          | cons e text => simp [breakWidth]
        · simp [breakWidth, hn]
      · by_cases hn : c = '\n'
        · subst hn
          simp [breakWidth]
        · simp [breakWidth, hr, hn]

theorem continuationWidth_append_of_ink (h : text.getLast?.any isInk = true) (more : List Char) :
    continuationWidth (text ++ more) = continuationWidth text ∧
      ∀ n, continuationWidth text = some n → n < text.length := by
  obtain ⟨htake, hlt⟩ := takeWhile_append_of_ink (fun _ => isInk_eq_false_of_isBlank) h more
  have hdrop : (text.drop (text.takeWhile isBlank).length).getLast?.any isInk = true := by
    rwa [getLast?_drop_of_lt hlt]
  obtain ⟨hwidth, hle⟩ := breakWidth_append_of_ink hdrop more
  refine ⟨by simp only [continuationWidth, htake, drop_takeWhile_append, hwidth], fun n hn => ?_⟩
  obtain ⟨_, rfl⟩ := continuationWidth_eq_some_iff.mp hn
  rw [List.length_drop] at hle
  omega

/-! ## Blanks -/

variable {afterBlank : Bool}

/-- Whether a blank comes last, before a text or in it. -/
def endsBlank (afterBlank : Bool) (text : List Char) : Bool :=
  (text.getLast?.map isBlank).getD afterBlank

@[simp] theorem endsBlank_nil (afterBlank : Bool) : endsBlank afterBlank [] = afterBlank := rfl

theorem endsBlank_false (text : List Char) : endsBlank false text = text.getLast?.any isBlank := by
  cases htext : text.getLast? <;> simp [endsBlank, htext]

theorem endsBlank_cons (afterBlank : Bool) (c : Char) (text : List Char) :
    endsBlank afterBlank (c :: text) = endsBlank (isBlank c) text := by
  cases htext : text.getLast? <;> simp [endsBlank, List.getLast?_cons, htext]

theorem endsBlank_append (afterBlank : Bool) (text more : List Char) :
    endsBlank afterBlank (text ++ more) = endsBlank (endsBlank afterBlank text) more := by
  cases hmore : more.getLast? <;> simp [endsBlank, List.getLast?_append, hmore]

/-- No blanks and no line continuation go on from a text into the one after it. -/
structure Parted (afterBlank : Bool) (text more : List Char) : Prop where
  ink : text.getLast?.all isInk = true
  still {before : List Char} (h : text = before ++ ['_'])
  (hblank : endsBlank afterBlank before = true) :
    continuationWidth more = none

theorem Parted.drop {before : List Char} (h : Parted afterBlank (before ++ text) more)
    {flag : Bool} (hflag : flag = true → endsBlank afterBlank before = true) :
    Parted flag text more where
  ink := by
    have hink := h.ink
    cases htext : text.getLast? with
    | none => rfl
    | some d => simpa [List.getLast?_append, htext] using hink
  still {head} htext hblank := by
    refine h.still ((congrArg (before ++ ·) htext).trans (List.append_assoc _ _ _).symm) ?_
    rw [endsBlank_append]
    cases hhead : head.getLast? with
    | none => simpa [endsBlank, hhead] using hflag (by simpa [endsBlank, hhead] using hblank)
    | some d => simpa [endsBlank, hhead] using hblank

theorem Parted.tail {c : Char} (h : Parted afterBlank (c :: text) more) :
    Parted (isBlank c) text more := by
  have hcons : Parted afterBlank ([c] ++ text) more := h
  exact hcons.drop fun hc => hc

theorem Parted.fresh (h : Parted afterBlank text more) : Parted false text more := by
  have hnil : Parted afterBlank ([] ++ text) more := h
  exact hnil.drop fun hfalse => by contradiction

theorem Parted.ink_of_ne_nil (h : Parted afterBlank text more) (hne : text ≠ []) :
    text.getLast?.any isInk = true := by
  obtain ⟨c, hc⟩ := Option.isSome_iff_exists.mp (List.getLast?_isSome.mpr hne)
  simpa [hc] using h.ink

theorem Parted.endsBlank_eq (h : Parted afterBlank text more) : endsBlank false text = false := by
  have hink := h.ink
  rw [endsBlank_false]
  cases htext : text.getLast? with
  | none => rfl
  | some c =>
    rw [htext, Option.all_some] at hink
    rw [Option.any_some, isBlank_eq_false_of_isInk hink]

theorem Parted.continuationWidth_eq (h : Parted true ('_' :: text) more) :
    continuationWidth (text ++ more) = continuationWidth text := by
  by_cases hne : text = []
  · subst hne
    exact h.still (List.nil_append _).symm rfl
  · exact (continuationWidth_append_of_ink (h.tail.ink_of_ne_nil hne) more).1

/-- The blanks at the start of a text that ends with ink end before its end. -/
theorem Parted.blankWidth_append (h : Parted afterBlank text more) (hne : text ≠ []) :
    blankWidth afterBlank (text ++ more) = blankWidth afterBlank text ∧
      blankWidth afterBlank text < text.length := by
  fun_induction blankWidth afterBlank text with
  | case1 => exact absurd rfl hne
  | case2 afterBlank c rest hc ih =>
    have hmore : rest ≠ [] := by
      rintro rfl
      simpa [isInk_eq_false_of_isBlank hc] using h.ink
    have htail := h.tail
    rw [hc] at htail
    obtain ⟨hwidth, hlt⟩ := ih htail hmore
    rw [List.cons_append, blankWidth, if_pos hc, hwidth, List.length_cons]
    exact ⟨rfl, by omega⟩
  | case3 afterBlank c rest hc hu n hn ih =>
    simp only [Bool.and_eq_true, decide_eq_true_eq] at hu
    obtain ⟨rfl, rfl⟩ := hu
    have hmore : rest ≠ [] := by
      rintro rfl
      contradiction
    obtain ⟨happend, hlt⟩ := continuationWidth_append_of_ink (h.tail.ink_of_ne_nil hmore) more
    have hlt := hlt n hn
    have hwhole : Parted true (('_' :: rest.take n) ++ rest.drop n) more := by
      rwa [List.cons_append, List.take_append_drop]
    have hdrop : Parted false (rest.drop n) more := hwhole.drop fun h => by contradiction
    obtain ⟨hwidth, hle⟩ := ih hdrop (by simpa using hlt)
    rw [List.length_drop] at hle
    rw [List.cons_append, blankWidth, if_neg (by decide), if_pos (by decide), happend, hn]
    dsimp only
    rw [List.drop_append_of_le_length (Nat.le_of_lt hlt), hwidth, List.length_cons]
    exact ⟨rfl, by omega⟩
  | case4 afterBlank c rest hc hu hn =>
    simp only [Bool.and_eq_true, decide_eq_true_eq] at hu
    obtain ⟨rfl, rfl⟩ := hu
    rw [List.cons_append, blankWidth, if_neg (by decide), if_pos (by decide),
      h.continuationWidth_eq.trans hn]
    simp
  | case5 afterBlank c rest hc hu =>
    rw [List.cons_append, blankWidth, if_neg (by simpa using hc), if_neg hu]
    simp

/-! ## Numbers -/

theorem Numeral.suffix_le {n : Numeral} {rest : List Char} {found : Literal × Nat}
    (h : n.literal? rest = some found) : found.2 ≤ rest.length := by
  have hpos {c : Char} (hc : rest.head? = some c) : 1 ≤ rest.length := by
    cases rest with
    | nil => contradiction
    | cons c rest => simp
  unfold Numeral.literal? at h
  split at h
  · cases h
    exact hpos ‹_›
  · cases h
    exact hpos ‹_›
  · split at h
    · cases h
      exact Nat.zero_le _
    · split at h
      · obtain ⟨_, _, rfl⟩ := Option.map_eq_some_iff.mp h
        exact hpos ‹_›
      · split at h
        · obtain ⟨_, _, rfl⟩ := Option.map_eq_some_iff.mp h
          exact hpos ‹_›
        · cases h
          exact Nat.zero_le _

theorem Radix.suffix_le {radix : Radix} {isNegative : Bool} {bits : Nat} {rest : List Char}
    {found : Literal × Nat} (h : radix.literal? isNegative bits rest = some found) :
    found.2 ≤ rest.length := by
  have hpos {c : Char} (hc : rest.head? = some c) : 1 ≤ rest.length := by
    cases rest with
    | nil => contradiction
    | cons c rest => simp
  unfold Radix.literal? at h
  split at h
  · contradiction
  · split at h
    · cases h
      exact hpos ‹_›
    · split at h
      · contradiction
      · cases h
        exact hpos ‹_›
    · split at h
      · cases h
        exact Nat.zero_le _
      · cases h
        exact Nat.zero_le _

theorem length_le_of_radixNumber {isNegative : Bool} {text : List Char} {found : Literal × Nat}
    (h : radixNumber isNegative text = some found) : found.2 ≤ text.length := by
  cases text with
  | nil => contradiction
  | cons mark body =>
    obtain ⟨radix, _, h⟩ := Option.bind_eq_some_iff.mp h
    dsimp only at h
    split at h
    · contradiction
    · obtain ⟨⟨literal, suffix⟩, hs, rfl⟩ := Option.map_eq_some_iff.mp h
      have hsuffix := Radix.suffix_le hs
      have hdigits := (List.takeWhile_prefix (l := body) radix.isDigit).length_le
      simp only [List.length_drop, List.length_cons] at hsuffix ⊢
      omega

theorem length_le_of_readNumber {text : List Char} {found : Literal × Nat}
    (h : readNumber text = some found) : found.2 ≤ text.length := by
  have hsign := splitSign_append text
  unfold readNumber at h
  split at h
  · rename_i sign body hs
    obtain ⟨⟨literal, n⟩, hn, rfl⟩ := Option.map_eq_some_iff.mp h
    have hle := length_le_of_radixNumber hn
    rw [hs] at hsign
    rw [← hsign]
    simp only [List.length_append, List.length_cons] at hle ⊢
    omega
  · obtain ⟨⟨numeral, rest⟩, hr, h⟩ := Option.bind_eq_some_iff.mp h
    obtain ⟨⟨literal, suffix⟩, hs, rfl⟩ := Option.map_eq_some_iff.mp h
    obtain ⟨rfl, _⟩ := Numeral.read_eq_some hr
    have hsuffix := Numeral.suffix_le hs
    simp only [List.length_append] at hsuffix ⊢
    omega

namespace CutOff

variable {afterBlank : Bool} (h : CutOff afterBlank text more)
include h

theorem ne_nil : text ≠ [] := ne_nil_of_ink h.ink

/-- What is left of the text after its first characters is cut off there too. -/
theorem drop {n : Nat} (hn : n < text.length) :
    CutOff (((text.take n).getLast?.map isBlank).getD afterBlank) (text.drop n) more where
  ink := by rw [getLast?_drop_of_lt hn, h.ink]
  still := by
    intro before hbefore hb
    refine @still _ _ _ h (text.take n ++ before) ?_ ?_
    · rw [List.append_assoc, ← hbefore, List.take_append_drop]
    · rw [List.getLast?_append]
      cases hlast : before.getLast? <;> simpa [hlast] using hb
  apart hword := by rw [getLast?_drop_of_lt hn, h.apart hword]
  stop := h.stop

theorem parted : Parted afterBlank text more where
  ink := by
    obtain ⟨c, hc, hink⟩ := (Option.any_eq_true _ _).mp h.ink
    rw [hc, Option.all_some, hink]
  still htext hblank := h.still htext hblank

/-- The blanks at the start of the text end before its end. -/
theorem blankWidth_append :
    blankWidth afterBlank (text ++ more) = blankWidth afterBlank text ∧
      blankWidth afterBlank text < text.length :=
  h.parted.blankWidth_append h.ne_nil

/-- After the text comes a blank, a line break, a colon, an apostrophe or the word `Rem`. -/
theorem head_more {c : Char} (hc : more.head? = some c) :
    isBlank c = true ∨ isBreak c = true ∨ c = ':' ∨ c = '\x27' ∨ c.isAlpha = true := by
  cases more with
  | nil => contradiction
  | cons d rest =>
    obtain rfl : d = c := by simpa using hc
    cases hblank : isBlank d with
    | true => exact .inl rfl
    | false =>
      have hstop := h.stop
      rw [blankWidth_cons_eq_zero hblank fun h => by contradiction, List.drop_zero] at hstop
      rcases hstop with hstop | hrem
      · simp only [List.head?_cons, Option.all_some, Bool.or_eq_true, decide_eq_true_eq] at hstop
        rcases hstop with (hstop | hstop) | hstop
        · exact .inr (.inl hstop)
        · exact .inr (.inr (.inl hstop))
        · exact .inr (.inr (.inr (.inl hstop)))
      · refine .inr (.inr (.inr (.inr ?_)))
        cases halpha : d.isAlpha with
        | true => rfl
        | false =>
          rw [spells_cons_eq_false _ _ halpha] at hrem
          contradiction

/-- Either no word and no number goes on after the text, or none goes on with its last character. -/
theorem breaksOff :
    BreaksOff more ∨
      ∃ before c, text = before ++ [c] ∧ BreaksOff (c :: more) ∧ BreaksOff [c] := by
  cases hword : more.head?.any isWordChar with
  | false =>
    refine .inl ⟨?_, fun {rest} hmore => ?_⟩
    · cases hhead : more.head? with
      | none => rfl
      | some c =>
        rw [hhead] at hword
        rcases h.head_more hhead with hc | hc | rfl | rfl | hc
        · simp only [isBlank, Bool.or_eq_true, decide_eq_true_eq] at hc
          rcases hc with rfl | rfl <;> decide
        · simp only [isBreak, Bool.or_eq_true, decide_eq_true_eq] at hc
          rcases hc with rfl | rfl <;> decide
        · decide
        · decide
        · simp [isWordChar, Char.isAlphanum, hc] at hword
    · subst hmore
      rcases h.head_more rfl with hc | hc | hc | hc | hc <;> contradiction
  | true =>
    obtain ⟨c, hlast, hdelimiter⟩ := (Option.any_eq_true _ _).mp (h.apart hword)
    obtain ⟨before, rfl⟩ := List.getLast?_eq_some_iff.mp hlast
    have hjoin : isJoining c = false := by
      simp only [isDelimiter, Bool.and_eq_true, Bool.not_eq_true'] at hdelimiter
      exact hdelimiter.2
    have hdigit : more.head?.any Char.isDigit = false := by
      cases hhead : more.head? with
      | none => rfl
      | some d =>
        rcases h.head_more hhead with hd | hd | rfl | rfl | hd
        · simp only [isBlank, Bool.or_eq_true, decide_eq_true_eq] at hd
          rcases hd with rfl | rfl <;> decide
        · simp only [isBreak, Bool.or_eq_true, decide_eq_true_eq] at hd
          rcases hd with rfl | rfl <;> decide
        · decide
        · decide
        · simpa using isDigit_eq_false_of_isAlpha hd
    refine .inr ⟨before, c, rfl, ⟨by simpa using hjoin, fun hc => ?_⟩,
      by simpa using hjoin, fun hc => ?_⟩
    · rw [← (List.cons.inj hc).2, hdigit]
    · rw [← (List.cons.inj hc).2]
      rfl

theorem firstWord_append : firstWord (text ++ more) = firstWord text := by
  rcases h.breaksOff with hmore | ⟨before, c, rfl, hmore, hlast⟩
  · exact hmore.firstWord_append text
  · rw [List.append_assoc, List.singleton_append, firstWord, firstWord, hmore.firstWord_append,
      hlast.firstWord_append]

theorem spells_append (k : Keyword) : spells k (text ++ more) = spells k text := by
  rw [spells, spells, h.firstWord_append]

theorem readNumber_append : readNumber (text ++ more) = readNumber text := by
  rcases h.breaksOff with hmore | ⟨before, c, rfl, hmore, hlast⟩
  · exact hmore.readNumber_append text
  · rw [List.append_assoc, List.singleton_append, hmore.readNumber_append, hlast.readNumber_append]

/-- A number of the text has a word character after it in the longer text only if it has one in the
text. -/
theorem any_head?_drop_of_readNumber {found : Literal × Nat} (hn : readNumber text = some found) :
    ((text ++ more).drop found.2).head?.any isWordChar =
    (text.drop found.2).head?.any isWordChar := by
  have hle := length_le_of_readNumber hn
  rw [List.drop_append_of_le_length hle]
  rcases Nat.lt_or_eq_of_le hle with hlt | heq
  · have hne : text.drop found.2 ≠ [] := by simpa using hlt
    obtain ⟨c, rest, hrest⟩ := List.exists_cons_of_ne_nil hne
    rw [hrest]
    rfl
  · rw [heq, List.drop_length]
    rcases h.breaksOff with hmore | ⟨before, c, rfl, hmore, hlast⟩
    · exact hmore.word
    · rw [hlast.readNumber_append] at hn
      have := length_le_of_readNumber hn
      simp at heq
      omega

/-- A word of the longer text that is not in the text starts with a letter. -/
theorem not_head_more {c : Char} (hc : isInk c = true) (ha : c.isAlpha = false) (hcolon : c ≠ ':')
    (hquote : c ≠ '\x27') : more.head? ≠ some c := by
  intro hhead
  rcases h.head_more hhead with h | h | h | h | h
  · simp [isInk_eq_false_of_isBlank h] at hc
  · simp [isInk, h] at hc
  · exact hcolon h
  · exact hquote h
  · simp [h] at ha

end CutOff

theorem isPrefixOf_append_of_head {token : List Char} (ht : ∀ c ∈ token, more.head? ≠ some c)
    (text : List Char) : token.isPrefixOf (text ++ more) = token.isPrefixOf text := by
  induction token generalizing text with
  | nil => rfl
  | cons a token ih =>
    cases text with
    | nil =>
      have ha := ht a List.mem_cons_self
      cases more with
      | nil => rfl
      | cons c more =>
        have hne : ¬ a = c := by simpa [eq_comm] using ha
        simp [List.isPrefixOf, hne]
    | cons c text =>
      rw [List.cons_append, List.isPrefixOf, List.isPrefixOf,
        ih (fun b hb => ht b (List.mem_cons_of_mem a hb))]

/-! ## Strings -/

theorem quotedBody_pos {found : List Char × Nat} (h : quotedBody text = some found) :
    0 < found.2 := by
  unfold quotedBody at h
  split at h
  · contradiction
  · obtain ⟨_, _, rfl⟩ := Option.map_eq_some_iff.mp h
    exact Nat.succ_pos _
  · cases h
    exact Nat.one_pos
  · split at h
    · contradiction
    · obtain ⟨_, _, rfl⟩ := Option.map_eq_some_iff.mp h
      exact Nat.succ_pos _

theorem quotedBody_cons {c : Char} (hquote : c ≠ '"') (hbreak : ¬ isBreak c = true)
    (rest : List Char) :
    quotedBody (c :: rest) = (quotedBody rest).map fun found => (c :: found.1, found.2 + 1) := by
  simp [quotedBody, hquote, hbreak]

theorem quotedBody_break {c : Char} (hbreak : isBreak c = true) (rest : List Char) :
    quotedBody (c :: rest) = none := by
  have hquote : c ≠ '"' := by
    rintro rfl
    contradiction
  simp [quotedBody, hquote, hbreak]

/-- A closing quote closes a string, unless another quote follows at once. -/
theorem quotedBody_quote {rest : List Char} (h : rest.head? ≠ some '"') :
    quotedBody ('"' :: rest) = some ([], 1) := by
  cases rest with
  | nil => rfl
  | cons c rest =>
    have hc : c ≠ '"' := by simpa using h
    simp [quotedBody, hc]

/-- A string that a text holds is held by a longer text, unless a quote follows at once. -/
theorem quotedBody_append_of_some {found : List Char × Nat} (hmore : more.head? ≠ some '"')
    (h : quotedBody text = some found) : quotedBody (text ++ more) = some found := by
  fun_induction quotedBody text generalizing found with
  | case1 => contradiction
  | case2 rest ih =>
    obtain ⟨inner, hinner, rfl⟩ := Option.map_eq_some_iff.mp h
    rw [List.cons_append, List.cons_append, quotedBody, ih hinner]
    rfl
  | case3 rest hquote =>
    cases h
    refine quotedBody_quote ?_
    cases rest with
    | nil => exact hmore
    | cons c rest =>
      intro hc
      obtain rfl : c = '"' := by simpa using hc
      exact hquote rest rfl
  | case4 => contradiction
  | case5 c rest hq hq' hbreak ih =>
    obtain ⟨inner, hinner, rfl⟩ := Option.map_eq_some_iff.mp h
    rw [List.cons_append, quotedBody_cons hq' hbreak, ih hinner]
    rfl

/-- A string that a longer text holds is held by the text, if it ends there. -/
theorem quotedBody_of_append {found : List Char × Nat} (h : quotedBody (text ++ more) = some found)
    (hle : found.2 ≤ text.length) : quotedBody text = some found := by
  fun_induction quotedBody text generalizing found with
  | case1 =>
    have := quotedBody_pos h
    simp at hle
    omega
  | case2 rest ih =>
    rw [List.cons_append, List.cons_append, quotedBody] at h
    obtain ⟨inner, hinner, rfl⟩ := Option.map_eq_some_iff.mp h
    rw [ih hinner (by simpa using hle)]
    rfl
  | case3 rest hquote =>
    by_cases hhead : (rest ++ more).head? = some '"'
    · obtain ⟨after, hafter⟩ := List.head?_eq_some_iff.mp hhead
      cases rest with
      | nil =>
        rw [List.nil_append] at hafter
        rw [hafter, List.singleton_append, quotedBody] at h
        obtain ⟨inner, _, rfl⟩ := Option.map_eq_some_iff.mp h
        simp at hle
      | cons c rest =>
        obtain rfl : c = '"' := by simpa using hhead
        exact absurd rfl (hquote rest)
    · rw [List.cons_append, quotedBody_quote hhead] at h
      exact h
  | case4 c rest hq hq' hbreak =>
    have hquote : c ≠ '"' := hq'
    simp [quotedBody, hquote, hbreak] at h
  | case5 c rest hq hq' hbreak ih =>
    rw [List.cons_append, quotedBody_cons hq' hbreak] at h
    obtain ⟨inner, hinner, rfl⟩ := Option.map_eq_some_iff.mp h
    rw [ih hinner (by simpa using hle)]
    rfl

end VisualBasic
