import Mathlib.Data.Bool.AllAny
import VisualBasic.Proofs.Cursor.Blank
import VisualBasic.Proofs.Text.Run

/-!
# Tokens

`Token c d` says that from `c`, once the blanks are passed over, a text that starts and ends with
ink leads to `d`, where no word, number or line continuation goes on. Every reader of one token
moves like this, and so does every sequence that starts and ends with a token.
-/

set_option autoImplicit false

namespace VisualBasic

/-! ## The texts of numbers and strings -/

theorem splitSign_append (text : List Char) : (splitSign text).1 ++ (splitSign text).2 = text := by
  unfold splitSign
  split <;> rfl

theorem isJoining_of_mem_sign {text : List Char} {c : Char} (h : c ∈ (splitSign text).1) :
    isJoining c = true := by
  unfold splitSign at h
  split at h <;> simp at h
  all_goals subst h; decide

theorem isJoining_of_isDigit {c : Char} (h : c.isDigit = true) : isJoining c = true := by
  simp [isJoining, isWordChar, Char.isAlphanum, h]

theorem splitFraction_append (text : List Char) :
    (splitFraction text).1 ++ (splitFraction text).2 = text := by
  unfold splitFraction
  split
  · dsimp only
    split
    · rfl
    · simp
  · rfl

theorem isInk_of_mem_fraction {text : List Char} {c : Char} (h : c ∈ (splitFraction text).1) :
    isInk c = true := by
  unfold splitFraction at h
  split at h
  · dsimp only at h
    split at h
    · simp at h
    · rcases List.mem_cons.mp h with rfl | h
      · decide
      · exact isInk_of_isDigit (of_mem_takeWhile h)
  · simp at h

/-- A fraction ends with a digit. -/
theorem isJoining_of_getLast?_fraction {text : List Char} {c : Char}
    (h : (splitFraction text).1.getLast? = some c) : isJoining c = true := by
  unfold splitFraction at h
  split at h
  · dsimp only at h
    split at h
    · contradiction
    · rename_i hne
      rw [List.getLast?_cons_of_ne_nil (by simpa using hne)] at h
      exact isJoining_of_isDigit (of_mem_takeWhile (List.mem_of_getLast? h))
  · contradiction

theorem splitExponent_append (text : List Char) :
    (splitExponent text).1 ++ (splitExponent text).2 = text := by
  unfold splitExponent
  split
  · rfl
  · split
    · dsimp only
      split
      · rfl
      · simpa using splitSign_append _
    · rfl

theorem isJoining_of_mem_exponent {text : List Char} {c : Char} (h : c ∈ (splitExponent text).1) :
    isJoining c = true := by
  unfold splitExponent at h
  split at h
  · simp at h
  · rename_i mark rest
    split at h
    · rename_i hm
      dsimp only at h
      split at h
      · simp at h
      · rcases List.mem_cons.mp h with rfl | h
        · simp only [Bool.or_eq_true, decide_eq_true_eq] at hm
          rcases hm with rfl | rfl <;> decide
        · rcases List.mem_append.mp h with h | h
          · exact isJoining_of_mem_sign h
          · exact isJoining_of_isDigit (of_mem_takeWhile h)
    · simp at h

theorem getLast?_append_eq_some {first second : List Char} {c : Char}
    (h : (first ++ second).getLast? = some c) :
    second.getLast? = some c ∨ second = [] ∧ first.getLast? = some c := by
  cases second with
  | nil => exact .inr ⟨rfl, by simpa using h⟩
  | cons d second => exact .inl (by simpa [List.getLast?_append, List.getLast?_cons] using h)

/-- A numeral is read off the start of the text, character for character. -/
theorem Numeral.read_eq_some {text rest : List Char} {n : Numeral}
    (h : Numeral.read text = some (n, rest)) :
    text = n.spelling ++ rest ∧ n.spelling ≠ [] ∧ (∀ c ∈ n.spelling, isInk c = true) ∧
      ∀ c, n.spelling.getLast? = some c → isJoining c = true := by
  unfold Numeral.read at h
  dsimp only at h
  split at h
  · contradiction
  · rename_i hne
    cases h
    refine ⟨?_, ?_, fun c hc => ?_, fun c hc => ?_⟩
    · simp only [Numeral.spelling, List.append_assoc, splitExponent_append, splitFraction_append]
      rw [drop_length_takeWhile, List.takeWhile_append_dropWhile, splitSign_append]
    · intro he
      simp only [Numeral.spelling, List.append_eq_nil_iff] at he
      obtain ⟨⟨⟨_, hw⟩, hf⟩, _⟩ := he
      rw [hw] at hf
      simp only [hw, hf, List.isEmpty_nil, Bool.and_self, not_true_eq_false] at hne
    · simp only [Numeral.spelling, List.mem_append] at hc
      rcases hc with ((hc | hc) | hc) | hc
      · exact isInk_of_isJoining (isJoining_of_mem_sign hc)
      · exact isInk_of_isDigit (of_mem_takeWhile hc)
      · exact isInk_of_mem_fraction hc
      · exact isInk_of_isJoining (isJoining_of_mem_exponent hc)
    · rw [Numeral.spelling] at hc
      rcases getLast?_append_eq_some hc with hc | ⟨_, hc⟩
      · exact isJoining_of_mem_exponent (List.mem_of_getLast? hc)
      · rcases getLast?_append_eq_some hc with hc | ⟨_, hc⟩
        · exact isJoining_of_getLast?_fraction hc
        · rcases getLast?_append_eq_some hc with hc | ⟨_, hc⟩
          · exact isJoining_of_isDigit (of_mem_takeWhile (List.mem_of_getLast? hc))
          · exact isJoining_of_mem_sign (List.mem_of_getLast? hc)

/-- A suffix is one character at most. -/
theorem Numeral.isJoining_of_mem_suffix {n : Numeral} {rest : List Char} {found : Literal × Nat}
    (h : n.literal? rest = some found) : ∀ c ∈ rest.take found.2, isJoining c = true := by
  have mark {c : Char} (hr : rest.head? = some c) (hc : isJoining c = true) :
      ∀ d ∈ rest.take 1, isJoining d = true := by
    obtain ⟨tail, rfl⟩ := List.head?_eq_some_iff.mp hr
    simpa using hc
  unfold Numeral.literal? at h
  split at h
  · rename_i hr
    cases h
    exact mark hr (by decide)
  · rename_i hr
    cases h
    exact mark hr (by decide)
  · split at h
    · cases h
      simp
    · split at h
      · rename_i hr
        obtain ⟨value, _, rfl⟩ := Option.map_eq_some_iff.mp h
        exact mark hr (by decide)
      · split at h
        · rename_i hr
          obtain ⟨value, _, rfl⟩ := Option.map_eq_some_iff.mp h
          exact mark hr (by decide)
        · cases h
          simp

theorem Radix.isJoining_of_mem_suffix {radix : Radix} {isNegative : Bool} {bits : Nat}
    {rest : List Char} {found : Literal × Nat}
    (h : radix.literal? isNegative bits rest = some found) :
    ∀ c ∈ rest.take found.2, isJoining c = true := by
  have mark {c : Char} (hr : rest.head? = some c) (hc : isJoining c = true) :
      ∀ d ∈ rest.take 1, isJoining d = true := by
    obtain ⟨tail, rfl⟩ := List.head?_eq_some_iff.mp hr
    simpa using hc
  unfold Radix.literal? at h
  split at h
  · contradiction
  · split at h
    · rename_i hr
      cases h
      exact mark hr (by decide)
    · rename_i hr
      split at h
      · contradiction
      · cases h
        exact mark hr (by decide)
    · split at h <;> cases h <;> simp

theorem Radix.isAlphanum_of_isDigit {radix : Radix} {c : Char} (h : radix.isDigit c = true) :
    c.isAlphanum = true := by
  delta Char.isAlphanum Char.isAlpha Char.isUpper Char.isLower Char.isDigit
  simp only [Bool.or_eq_true, Bool.and_eq_true, decide_eq_true_eq,
    UInt32.le_iff_toNat_le, ge_iff_le]
  cases radix <;>
    simp only [Radix.isDigit, isHexDigit, isOctalDigit, Char.isDigit, Bool.or_eq_true,
      Bool.and_eq_true, decide_eq_true_eq, Char.le_def, UInt32.le_iff_toNat_le, ge_iff_le] at h <;>
    simp at h ⊢ <;> omega

theorem isJoining_of_radixOfMark {c : Char} {radix : Radix} (h : radixOfMark c = some radix) :
    isJoining c = true := by
  unfold radixOfMark at h
  split at h
  · rename_i hm
    simp only [Bool.or_eq_true, decide_eq_true_eq] at hm
    rcases hm with rfl | rfl <;> decide
  · split at h
    · rename_i hm
      simp only [Bool.or_eq_true, decide_eq_true_eq] at hm
      rcases hm with (rfl | rfl) | rfl <;> decide
    · contradiction

theorem isJoining_of_mem_radixNumber {isNegative : Bool} {text : List Char} {found : Literal × Nat}
    (h : radixNumber isNegative text = some found) :
    ∀ c ∈ text.take found.2, isJoining c = true := by
  unfold radixNumber at h
  split at h
  · contradiction
  · rename_i mark body
    obtain ⟨radix, hm, h⟩ := Option.bind_eq_some_iff.mp h
    dsimp only at h
    split at h
    · contradiction
    · obtain ⟨⟨literal, suffix⟩, hs, rfl⟩ := Option.map_eq_some_iff.mp h
      intro c hc
      rw [Nat.add_assoc, Nat.add_comm, List.take_succ_cons, List.take_add, take_length_takeWhile,
        List.mem_cons, List.mem_append] at hc
      rcases hc with rfl | hc | hc
      · exact isJoining_of_radixOfMark hm
      · have halphanum := Radix.isAlphanum_of_isDigit (of_mem_takeWhile hc)
        simp [isJoining, isWordChar, halphanum]
      · exact Radix.isJoining_of_mem_suffix hs c hc

/-- A number is all ink, and ends with what may go on. -/
theorem inked_of_readNumber {text : List Char} {found : Literal × Nat}
    (h : readNumber text = some found) :
    text.take found.2 ≠ [] ∧ (∀ c ∈ text.take found.2, isInk c = true) ∧
      ∀ c, (text.take found.2).getLast? = some c → isJoining c = true := by
  have hsign := splitSign_append text
  unfold readNumber at h
  split at h
  · rename_i sign body hs
    obtain ⟨⟨literal, n⟩, hn, rfl⟩ := Option.map_eq_some_iff.mp h
    rw [hs] at hsign
    dsimp only at hsign ⊢
    subst hsign
    have htake : (sign ++ '&' :: body).take (sign.length + 1 + n) = sign ++ '&' :: body.take n := by
      rw [List.take_append, List.take_of_length_le (by omega),
        show sign.length + 1 + n - sign.length = n + 1 by omega, List.take_succ_cons]
    have hjoining : ∀ c ∈ sign ++ '&' :: body.take n, isJoining c = true := by
      intro c hc
      rcases List.mem_append.mp hc with hc | hc
      · have hmem : c ∈ (splitSign (sign ++ '&' :: body)).1 := by rw [hs]; exact hc
        exact isJoining_of_mem_sign hmem
      · rcases List.mem_cons.mp hc with rfl | hc
        · decide
        · exact isJoining_of_mem_radixNumber hn c hc
    rw [htake]
    exact ⟨by simp, fun c hc => isInk_of_isJoining (hjoining c hc),
      fun c hc => hjoining c (List.mem_of_getLast? hc)⟩
  · obtain ⟨⟨numeral, rest⟩, hr, h⟩ := Option.bind_eq_some_iff.mp h
    obtain ⟨⟨literal, suffix⟩, hs, rfl⟩ := Option.map_eq_some_iff.mp h
    obtain ⟨rfl, hne, hink, hjoining⟩ := Numeral.read_eq_some hr
    dsimp only
    rw [List.take_length_add_append]
    refine ⟨by simp [hne], fun c hc => ?_, fun c hc => ?_⟩
    · rcases List.mem_append.mp hc with hc | hc
      · exact hink c hc
      · exact isInk_of_isJoining (Numeral.isJoining_of_mem_suffix hs c hc)
    · rcases getLast?_append_eq_some hc with hc | ⟨_, hc⟩
      · exact Numeral.isJoining_of_mem_suffix hs c (List.mem_of_getLast? hc)
      · exact hjoining c hc

theorem isInked_of_readNumber {text : List Char} {found : Literal × Nat}
    (h : readNumber text = some found) : IsInked (text.take found.2) :=
  isInked_of_all (inked_of_readNumber h).1 (inked_of_readNumber h).2.1

/-- The text of a string ends with its closing quote. -/
theorem getLast?_take_quotedBody {text : List Char} {found : List Char × Nat}
    (h : quotedBody text = some found) :
    ∃ s, text.take found.2 = s ++ ['"'] := by
  fun_induction quotedBody text generalizing found with
  | case1 => contradiction
  | case2 rest ih =>
    obtain ⟨⟨value, n⟩, hn, rfl⟩ := Option.map_eq_some_iff.mp h
    obtain ⟨s, hs⟩ := ih hn
    exact ⟨'"' :: '"' :: s, by simp [hs]⟩
  | case3 rest hrest =>
    cases h
    exact ⟨[], rfl⟩
  | case4 => contradiction
  | case5 c rest _ _ _ ih =>
    obtain ⟨⟨value, n⟩, hn, rfl⟩ := Option.map_eq_some_iff.mp h
    obtain ⟨s, hs⟩ := ih hn
    exact ⟨c :: s, by simp [hs]⟩

/-! ## Motion over tokens -/

namespace Cursor

/-- The last character before `d` is ink and no part of a line continuation, neither a word nor a
number goes on after it, and it opens nothing. -/
def Settled (c d : Cursor) : Prop :=
  ∃ last char, Reaches c last ∧ last.rest = char :: d.rest ∧ d = last.next ∧
  last.skipBlanks = last ∧
    isInk char = true ∧ (d.isAtWordChar = true → isDelimiter char = true) ∧ isOpener char = false

theorem Settled.after_reaches {c d e : Cursor} (h : Reaches c d) (hd : Settled d e) :
    Settled c e := by
  obtain ⟨last, char, hlast, hend⟩ := hd
  exact ⟨last, char, h.trans hlast, hend⟩

theorem skip_length_take (c : Cursor) (n : Nat) : c.skip (c.rest.take n).length = c.skip n := by
  rw [List.length_take]
  by_cases hn : n ≤ c.rest.length
  · rw [Nat.min_eq_left hn]
  · obtain ⟨m, rfl⟩ := Nat.exists_eq_add_of_le (Nat.le_of_lt (Nat.lt_of_not_le hn))
    rw [Nat.min_eq_right (Nat.le_add_right _ m), skip_add]
    exact (skip_of_rest_eq_nil (by simp) m).symm

/-- A text is passed over up to its last character, at which no blanks and continuations start. -/
theorem settled_of_take {c : Cursor} {n : Nat} {text : List Char} {char : Char}
    (htext : c.rest.take n = text ++ [char])
    (hstill : (c.skip text.length).skipBlanks = c.skip text.length) (hink : isInk char = true)
    (hend : (c.skip n).isAtWordChar = true → isDelimiter char = true)
    (hshut : isOpener char = false) : Settled c (c.skip n) := by
  have hrest : c.rest = text ++ char :: (c.skip n).rest := by
    rw [rest_skip, ← List.singleton_append, ← List.append_assoc, ← htext, List.take_append_drop]
  have hplace : (c.skip text.length).rest = char :: (c.skip n).rest := by
    rw [rest_skip, hrest, List.drop_left]
  refine ⟨c.skip text.length, char, reaches_skip _ c, hplace, ?_, hstill, hink, hend, hshut⟩
  rw [← skip_length_take, htext, List.length_append, skip_add]
  rfl

/-- From one place to another over blanks and then a text that starts and ends with ink. -/
def Begun (c d : Cursor) : Prop :=
  ∃ n, d = c.skipBlanks.skip n ∧ IsInked (c.skipBlanks.rest.take n)

/-- The same over a text after which a construct may end. -/
def Token (c d : Cursor) : Prop :=
  ∃ n, d = c.skipBlanks.skip n ∧ IsInked (c.skipBlanks.rest.take n) ∧ Settled c.skipBlanks d

theorem Token.begun {c d : Cursor} (h : Token c d) : Begun c d := by
  obtain ⟨n, hd, hn, _⟩ := h
  exact ⟨n, hd, hn⟩

/-- A text that is all ink. Before its last character there is ink, or the blanks passed over. -/
theorem token_of_all {c : Cursor} {n : Nat} (hne : c.skipBlanks.rest.take n ≠ [])
    (hink : ∀ char ∈ c.skipBlanks.rest.take n, isInk char = true)
    (hend : (c.skipBlanks.skip n).isAtWordChar = true →
      ∀ char ∈ c.skipBlanks.rest.take n, isDelimiter char = true)
    (hshut : ∀ char, (c.skipBlanks.rest.take n).getLast? = some char → isOpener char = false) :
    Token c (c.skipBlanks.skip n) := by
  refine ⟨n, rfl, isInked_of_all hne hink, ?_⟩
  have hsplit := (List.dropLast_concat_getLast hne).symm
  generalize (c.skipBlanks.rest.take n).dropLast = text at hsplit
  generalize (c.skipBlanks.rest.take n).getLast hne = char at hsplit
  have hchar : isInk char = true := hink char (by simp [hsplit])
  refine settled_of_take hsplit ?_ hchar (fun hword => hend hword char (by simp [hsplit]))
    (hshut char (by rw [hsplit, List.getLast?_concat]))
  cases hlast : text.getLast? with
  | none =>
    rw [List.getLast?_eq_none_iff.mp hlast]
    exact skipBlanks_skipBlanks c
  | some before =>
    have hbefore : isInk before = true :=
      hink before (by rw [hsplit]; exact List.mem_append_left _ (List.mem_of_getLast? hlast))
    have hrest : c.skipBlanks.rest = text ++ char :: c.skipBlanks.rest.drop n := by
      rw [← List.singleton_append, ← List.append_assoc, ← hsplit, List.take_append_drop]
    have htake : c.skipBlanks.rest.take text.length = text :=
      (congrArg (List.take text.length) hrest).trans List.take_left
    have hplace : (c.skipBlanks.skip text.length).rest = char :: c.skipBlanks.rest.drop n :=
      (rest_skip _ _).trans ((congrArg (List.drop text.length) hrest).trans List.drop_left)
    rw [skipBlanks, hplace, blankWidth_cons_eq_zero (isBlank_eq_false_of_isInk hchar), skip_zero]
    intro hblank
    rw [afterBlank_skip, htake, hlast] at hblank
    simp [isBlank_eq_false_of_isInk hbefore] at hblank

theorem Begun.reaches {c d : Cursor} (h : Begun c d) : Reaches c d := by
  obtain ⟨n, rfl, _⟩ := h
  exact (reaches_skipBlanks c).trans (reaches_skip n _)

theorem Token.reaches {c d : Cursor} (h : Token c d) : Reaches c d := h.begun.reaches

theorem Begun.length_lt {c d : Cursor} (h : Begun c d) : d.rest.length < c.rest.length := by
  obtain ⟨n, rfl, hn⟩ := h
  have hne := hn.ne_nil
  have hlen := (reaches_skipBlanks c).length_le
  have hpos := List.length_pos_iff.mpr hne
  simp only [List.length_take, rest_skip, List.length_drop] at hpos ⊢
  omega

theorem Token.length_lt {c d : Cursor} (h : Token c d) : d.rest.length < c.rest.length :=
  h.begun.length_lt

@[simp] theorem token_skipBlanks_iff {c d : Cursor} : Token c.skipBlanks d ↔ Token c d := by
  simp [Token]

/-- Whatever lies between two such texts, they make up one that starts and ends with ink. -/
theorem Begun.join {c d e f : Cursor} (h : Begun c d) (hde : Reaches d e) (h' : Begun e f) :
    Begun c f := by
  obtain ⟨n, rfl, hn⟩ := h
  obtain ⟨m, rfl⟩ := hde
  obtain ⟨k, rfl, hk⟩ := h'
  obtain ⟨l, hl⟩ := reaches_skipBlanks ((c.skipBlanks.skip n).skip m)
  rw [hl] at hk ⊢
  refine ⟨n + (m + (l + k)), by simp only [skip_add], ?_⟩
  rw [List.take_add, List.take_add, List.take_add, List.drop_drop, ← List.append_assoc
    ((c.skipBlanks.rest.drop n).take m)]
  refine hn.append _ ?_
  simpa only [rest_skip, List.drop_drop, Nat.add_assoc] using hk

theorem Begun.joinToken {c d e f : Cursor} (h : Begun c d) (hde : Reaches d e) (h' : Token e f) :
    Token c f := by
  obtain ⟨n, hf, hinked⟩ := h.join hde h'.begun
  have hstart : Reaches c.skipBlanks d := by
    obtain ⟨m, rfl, _⟩ := h
    exact reaches_skip m _
  obtain ⟨_, _, _, hsettled⟩ := h'
  exact ⟨n, hf, hinked, hsettled.after_reaches ((hstart.trans hde).trans (reaches_skipBlanks e))⟩

theorem Begun.trans {c d e : Cursor} (h : Begun c d) (h' : Begun d e) : Begun c e :=
  h.join (Reaches.refl d) h'

theorem Begun.token {c d e : Cursor} (h : Begun c d) (h' : Token d e) : Token c e :=
  h.joinToken (Reaches.refl d) h'

theorem Token.join {c d e f : Cursor} (h : Token c d) (hde : Reaches d e) (h' : Token e f) :
    Token c f := h.begun.joinToken hde h'

theorem Token.trans {c d e : Cursor} (h : Token c d) (h' : Token d e) : Token c e :=
  h.begun.token h'

theorem adjacent_eq_some_iff {char : Char} {c d : Cursor} :
    c.adjacent char = some d ↔ c.rest.head? = some char ∧ d = c.skip 1 := by
  unfold adjacent
  split
  · rename_i h
    simp [h, eq_comm]
  · rename_i h
    simp [h]

theorem isInk_of_isDelimiter {char : Char} (h : isDelimiter char = true) : isInk char = true := by
  simp only [isDelimiter, Bool.and_eq_true] at h
  exact h.1

theorem begun_of_symbol {char : Char} (hi : isDelimiter char = true) {c d : Cursor}
    (h : c.symbol char = some d) : Begun c d := by
  obtain ⟨hc, rfl⟩ := adjacent_eq_some_iff.mp h
  obtain ⟨rest, hr⟩ := List.head?_eq_some_iff.mp hc
  exact ⟨1, rfl, isInked_of_all (by simp [hr]) (by simpa [hr] using isInk_of_isDelimiter hi)⟩

theorem token_of_symbol {char : Char} (hi : isDelimiter char = true) (hshut : isOpener char = false)
    {c d : Cursor} (h : c.symbol char = some d) : Token c d := by
  obtain ⟨hc, rfl⟩ := adjacent_eq_some_iff.mp h
  obtain ⟨rest, hr⟩ := List.head?_eq_some_iff.mp hc
  refine token_of_all (by simp [hr]) ?_ (fun _ => by simpa [hr] using hi)
    (by simpa [hr] using hshut)
  simpa [hr] using isInk_of_isDelimiter hi

theorem symbol_of_adjacent {char : Char} (hi : isDelimiter char = true) {c d : Cursor}
    (h : c.adjacent char = some d) : c.symbol char = some d := by
  obtain ⟨hc, _⟩ := adjacent_eq_some_iff.mp h
  obtain ⟨rest, hr⟩ := List.head?_eq_some_iff.mp hc
  have hs : c.skipBlanks = c := by
    refine skipBlanks_eq_self hr (isBlank_eq_false_of_isInk (isInk_of_isDelimiter hi)) ?_
    rintro rfl
    contradiction
  rw [symbol, hs, h]

theorem begun_of_adjacent {char : Char} (hi : isDelimiter char = true) {c d : Cursor}
    (h : c.adjacent char = some d) : Begun c d := begun_of_symbol hi (symbol_of_adjacent hi h)

theorem token_of_adjacent {char : Char} (hi : isDelimiter char = true)
    (hshut : isOpener char = false)
    {c d : Cursor} (h : c.adjacent char = some d) : Token c d :=
  token_of_symbol hi hshut (symbol_of_adjacent hi h)

theorem token_of_exactly {text : List Char} (hne : text ≠ [])
    (ht : ∀ char ∈ text, isDelimiter char = true ∧ isOpener char = false) {c d : Cursor}
    (h : c.exactly text = some d) : Token c d := by
  unfold exactly at h
  dsimp only at h
  split at h
  · rename_i hp
    cases h
    obtain ⟨rest, hr⟩ := List.isPrefixOf_iff_prefix.mp hp
    have htake : c.skipBlanks.rest.take text.length = text := by rw [← hr, List.take_left]
    refine token_of_all (by rwa [htake]) ?_ ?_ ?_ <;> rw [htake]
    · exact fun char hc => isInk_of_isDelimiter (ht char hc).1
    · exact fun _ char hc => (ht char hc).1
    · exact fun char hc => (ht char (List.mem_of_getLast? hc)).2
  · contradiction

theorem token_of_keyword {k : Keyword} {c d : Cursor} (h : c.keyword k = some d) : Token c d := by
  unfold keyword at h
  dsimp only at h
  split at h
  · rename_i hk
    cases h
    simp only [Bool.and_eq_true, Bool.not_eq_true'] at hk
    obtain ⟨hne, hword⟩ := isWordChar_of_startsWithLetters hk.1
    refine token_of_all hne (fun char hc => isInk_of_isWordChar (hword char hc))
      (fun hnext => by simp [hk.2] at hnext) fun char hc => isOpener_eq_false_of_isJoining ?_
    simp [isJoining, hword char (List.mem_of_getLast? hc)]
  · contradiction

theorem token_of_word {c d : Cursor} {text : String} (h : c.word = some (text, d)) : Token c d := by
  unfold word at h
  dsimp only at h
  split at h
  · rename_i hw
    cases h
    have htake := take_length_takeWhile isWordChar c.skipBlanks.rest
    refine token_of_all ?_ ?_ (fun hword => ?_) fun char hc => isOpener_eq_false_of_isJoining ?_
    · rw [htake]
      obtain ⟨char, hc, hs⟩ := (Option.any_eq_true _ _).mp hw
      obtain ⟨rest, hr⟩ := List.head?_eq_some_iff.mp hc
      simp [hr, isWordChar_of_isWordStart hs]
    · rw [htake]
      exact fun char hc => isInk_of_isWordChar (of_mem_takeWhile hc)
    · rw [isAtWordChar, rest_skip, drop_length_takeWhile, any_head?_dropWhile] at hword
      contradiction
    · rw [htake] at hc
      simp [isJoining, of_mem_takeWhile (List.mem_of_getLast? hc)]
  · contradiction

theorem token_of_identifier {c d : Cursor} {text : String} (h : c.identifier = some (text, d)) :
    Token c d :=
  token_of_word (identifier_eq_some_iff.mp h).1

theorem token_of_number {c d : Cursor} {value : Literal} (h : c.number = some (value, d)) :
    Token c d := by
  obtain ⟨⟨found, n⟩, hn, hd⟩ := Option.bind_eq_some_iff.mp h
  dsimp only at hd
  split at hd
  · contradiction
  · cases hd
    obtain ⟨hne, hink, hjoining⟩ := inked_of_readNumber hn
    exact token_of_all hne hink (fun hword => absurd hword ‹_›) fun char hc =>
      isOpener_eq_false_of_isJoining (hjoining char hc)

theorem token_of_quoted {c d : Cursor} {value : String} (h : c.quoted = some (value, d)) :
    Token c d := by
  unfold quoted at h
  dsimp only at h
  split at h
  · rename_i body hr
    obtain ⟨⟨found, n⟩, hn, hd⟩ := Option.map_eq_some_iff.mp h
    cases hd
    obtain ⟨s, hs⟩ := getLast?_take_quotedBody hn
    have htake : c.skipBlanks.rest.take (n + 1) = ('"' :: s) ++ ['"'] := by
      rw [hr, List.take_succ_cons, hs, List.cons_append]
    refine ⟨n + 1, rfl, ?_, ?_⟩
    · rw [htake]
      exact ⟨by simp; decide, by rw [List.getLast?_concat]; decide⟩
    · refine settled_of_take htake ?_ (by decide) (fun _ => by decide) (by decide)
      have hquote : (c.skipBlanks.skip ('"' :: s).length).rest =
          '"' :: c.skipBlanks.rest.drop (n + 1) := by
        rw [rest_skip]
        refine (congrArg (List.drop _) (List.take_append_drop (n + 1) _).symm).trans ?_
        rw [htake, List.append_assoc, List.drop_left, List.singleton_append]
      exact skipBlanks_eq_self hquote (by decide) fun hu => by contradiction
  · contradiction

theorem token_of_relation {c d : Cursor} {value : Relation} (h : c.relation = some (value, d)) :
    Token c d := by
  obtain ⟨entry, hm, h⟩ := List.exists_of_findSome?_eq_some h
  obtain ⟨found, hfound, h⟩ := Option.bind_eq_some_iff.mp h
  obtain ⟨after, ha, hd⟩ := Option.map_eq_some_iff.mp h
  cases hd
  have all : ∀ entry ∈ Operator.symbols, entry.2.relation?.isSome = true →
      entry.1.toList ≠ [] ∧
        (entry.1.toList.all fun char => isDelimiter char && ! isOpener char) = true :=
    List.all_iff_forall_prop.mp (by decide)
  obtain ⟨hne, hdelimiter⟩ := all entry hm (by rw [hfound]; rfl)
  exact token_of_exactly hne (by simpa using hdelimiter) ha

end Cursor

end VisualBasic
