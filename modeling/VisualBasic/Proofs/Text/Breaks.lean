import Mathlib.Data.List.TakeWhile
import VisualBasic.Proofs.Text.Joining

/-!
# Line breaks and lines

CR LF, a lone CR and LF each end a line. `lines` cuts a text into its lines, `unifyBreaks` writes
every break as LF. A text is cut undivided where the cut does not part the two characters of a CR
LF; there both go over from the parts to the whole, and the place of the cut is told from the text
before it.
-/

set_option autoImplicit false

namespace VisualBasic

/-- The lines of a text, without their breaks; the last one may be empty. -/
def lines : List Char → List (List Char)
  | [] => [[]]
  | c :: rest =>
    if endsLine c rest then [] :: lines rest
    else if c = '\r' then lines rest
    else (lines rest).modifyHead (c :: ·)

def unifyBreaks : List Char → List Char
  | [] => []
  | c :: rest =>
    if endsLine c rest then '\n' :: unifyBreaks rest
    else if c = '\r' then unifyBreaks rest
    else c :: unifyBreaks rest

/-- No CR stands just before a cut and LF just after it. -/
def Undivided (before after : List Char) : Prop :=
  before.getLast? = some '\r' → after.head? ≠ some '\n'

/-- What a text holds after its last break. -/
def lastLine (text : List Char) : List Char := (text.reverse.takeWhile (! isBreak ·)).reverse

def Unbroken (text : List Char) : Prop := ∀ c ∈ text, isBreak c = false

/-! ## Texts without breaks -/

theorem unbroken_of_all {text : List Char} (h : text.all (! isBreak ·) = true) : Unbroken text := by
  intro c hc
  simpa using List.all_eq_true.mp h c hc

theorem Unbroken.append {text other : List Char} (h : Unbroken text) (h' : Unbroken other) :
    Unbroken (text ++ other) := by
  intro c hc
  rcases List.mem_append.mp hc with hc | hc
  · exact h c hc
  · exact h' c hc

theorem unbroken_replicate {c : Char} (hc : isBreak c = false) (n : Nat) :
    Unbroken (List.replicate n c) := by
  intro d hd
  rw [List.eq_of_mem_replicate hd]
  exact hc

theorem unbroken_toString (n : Nat) : Unbroken (toString n).toList := by
  intro c hc
  rw [Nat.toString_eq_repr, Nat.toList_repr] at hc
  have hdigit := Nat.isDigit_of_mem_toDigits (by decide) (by decide) hc
  cases hbreak : isBreak c with
  | false => rfl
  | true =>
    simp only [isBreak, Bool.or_eq_true, decide_eq_true_eq] at hbreak
    rcases hbreak with rfl | rfl <;> contradiction

variable {before after text : List Char} {c : Char}

/-! ## Undivided cuts -/

theorem undivided_nil (after : List Char) : Undivided [] after := fun h => by contradiction

theorem Undivided.tail (h : Undivided (c :: before) after) : Undivided before after := by
  intro hlast
  refine h ?_
  cases before with
  | nil => contradiction
  | cons d before => rwa [List.getLast?_cons_cons]

theorem Undivided.endsLine_append (h : Undivided (c :: before) after) :
    endsLine c (before ++ after) = endsLine c before := by
  cases before with
  | cons d before => rfl
  | nil =>
    by_cases hc : c = '\r'
    · subst hc
      simp [endsLine, h rfl]
    · simp [endsLine, hc]

/-- A cut after a part without breaks is undivided if the cut before the part is. -/
theorem Undivided.append (h : Undivided before (text ++ after)) (ht : Unbroken text) :
    Undivided (before ++ text) after := by
  intro hlast
  cases htext : text.getLast? with
  | none =>
    obtain rfl := List.getLast?_eq_none_iff.mp htext
    exact h (by simpa using hlast)
  | some c =>
    have hc : c = '\r' := by simpa [List.getLast?_append, htext] using hlast
    have hbreak := ht c (List.mem_of_getLast? htext)
    rw [hc] at hbreak
    contradiction

/-- Only the last character before a cut matters. -/
theorem undivided_append_iff (hne : text ≠ []) :
    Undivided (before ++ text) after ↔ Undivided text after := by
  obtain ⟨c, hc⟩ := Option.isSome_iff_exists.mp (List.getLast?_isSome.mpr hne)
  simp [Undivided, List.getLast?_append, hc]

/-! ## Unified breaks -/

theorem endsLine_of_isBreak (hb : isBreak c = true) (h : endsLine c text = false) :
    c = '\r' ∧ text.head? = some '\n' := by
  simp only [isBreak, endsLine, Bool.or_eq_true, decide_eq_true_eq, Bool.or_eq_false_iff,
    decide_eq_false_iff_not, Bool.and_eq_false_iff] at hb h
  rcases hb with rfl | rfl
  · exact absurd rfl h.1
  · simpa using h.2

theorem isBreak_of_endsLine (h : endsLine c text = true) : isBreak c = true := by
  simp only [isBreak, endsLine, Bool.or_eq_true, decide_eq_true_eq, Bool.and_eq_true] at h ⊢
  rcases h with h | h
  · exact .inl h
  · exact .inr h.1

theorem endsLine_eq_false (hc : isBreak c = false) (rest : List Char) :
    endsLine c rest = false := by
  cases h : endsLine c rest with
  | false => rfl
  | true => rw [isBreak_of_endsLine h] at hc; contradiction

theorem ne_return_of_isBreak (hc : isBreak c = false) : c ≠ '\r' := by
  rintro rfl
  contradiction

theorem unifyBreaks_cons (hc : isBreak c = false) (rest : List Char) :
    unifyBreaks (c :: rest) = c :: unifyBreaks rest := by
  rw [unifyBreaks, endsLine_eq_false hc, if_neg (by simp), if_neg (ne_return_of_isBreak hc)]

/-- A break becomes LF. -/
theorem exists_unifyBreaks (hc : isBreak c = true) (rest : List Char) :
    ∃ rest', unifyBreaks (c :: rest) = '\n' :: rest' := by
  cases h : endsLine c rest with
  | true => exact ⟨unifyBreaks rest, by rw [unifyBreaks, h, if_pos rfl]⟩
  | false =>
    obtain ⟨rfl, hhead⟩ := endsLine_of_isBreak hc h
    obtain ⟨rest', rfl⟩ := List.head?_eq_some_iff.mp hhead
    exact ⟨unifyBreaks rest', rfl⟩

theorem unifyBreaks_append (h : Undivided before after) :
    unifyBreaks (before ++ after) = unifyBreaks before ++ unifyBreaks after := by
  induction before with
  | nil => rfl
  | cons c before ih =>
    rw [List.cons_append, unifyBreaks, unifyBreaks, h.endsLine_append, ih h.tail]
    split
    · rfl
    · split <;> rfl

theorem Unbroken.unifyBreaks_append (ht : Unbroken text) (rest : List Char) :
    unifyBreaks (text ++ rest) = text ++ unifyBreaks rest := by
  induction text with
  | nil => rfl
  | cons c text ih =>
    have hc := ht c List.mem_cons_self
    rw [List.cons_append, unifyBreaks_cons hc, ih fun d hd => ht d (List.mem_cons_of_mem c hd),
      List.cons_append]

theorem Unbroken.unifyBreaks_eq (ht : Unbroken text) : unifyBreaks text = text := by
  simpa [unifyBreaks] using ht.unifyBreaks_append []

@[simp] theorem unifyBreaks_eq_nil_iff : unifyBreaks text = [] ↔ text = [] := by
  cases text with
  | nil => simp [unifyBreaks]
  | cons c rest =>
    cases hc : isBreak c with
    | false => simp [unifyBreaks_cons hc]
    | true =>
      obtain ⟨rest', hrest⟩ := exists_unifyBreaks hc rest
      simp [hrest]

theorem ne_return_of_mem_unifyBreaks (h : c ∈ unifyBreaks text) : c ≠ '\r' := by
  induction text with
  | nil => contradiction
  | cons d rest ih =>
    rw [unifyBreaks] at h
    split at h
    · rcases List.mem_cons.mp h with rfl | h
      · decide
      · exact ih h
    · split at h
      · exact ih h
      · rcases List.mem_cons.mp h with rfl | h
        · assumption
        · exact ih h

theorem undivided_unifyBreaks (before after : List Char) : Undivided (unifyBreaks before) after :=
  fun h => absurd rfl (ne_return_of_mem_unifyBreaks (List.mem_of_getLast? h))

/-- Breaks apart, the characters of a text stay. -/
theorem getLast?_unifyBreaks_any {p : Char → Bool} (hp : ∀ c, isBreak c = true → p c = false)
    (text : List Char) : (unifyBreaks text).getLast?.any p = text.getLast?.any p := by
  induction text with
  | nil => rfl
  | cons c rest ih =>
    cases hrest : rest with
    | nil =>
      cases hc : isBreak c with
      | false => rw [unifyBreaks_cons hc]; rfl
      | true =>
        simp only [isBreak, Bool.or_eq_true, decide_eq_true_eq] at hc
        have hlf : p '\n' = false := hp _ rfl
        rcases hc with rfl | rfl
        · rfl
        · have hcr : p '\r' = false := hp _ rfl
          simp [unifyBreaks, endsLine, hlf, hcr]
    | cons d rest' =>
      rw [hrest] at ih
      have hne : unifyBreaks (d :: rest') ≠ [] := by simp
      have hcons (x : Char) : (x :: unifyBreaks (d :: rest')).getLast? =
          (unifyBreaks (d :: rest')).getLast? := by
        cases htext : unifyBreaks (d :: rest') with
        | nil => exact absurd htext hne
        | cons y rest'' => rw [List.getLast?_cons_cons]
      rw [List.getLast?_cons_cons, ← ih, unifyBreaks]
      split
      · rw [hcons]
      · split
        · rfl
        · rw [hcons]

/-! ## Runs of characters -/

theorem takeWhile_unifyBreaks {p : Char → Bool} (hp : ∀ c, isBreak c = true → p c = false)
    (text : List Char) : (unifyBreaks text).takeWhile p = text.takeWhile p := by
  induction text with
  | nil => rfl
  | cons c rest ih =>
    cases hc : isBreak c with
    | false => rw [unifyBreaks_cons hc, List.takeWhile_cons, List.takeWhile_cons, ih]
    | true =>
      obtain ⟨rest', hrest⟩ := exists_unifyBreaks hc rest
      have hlf : p '\n' = false := hp _ rfl
      simp [hrest, hlf, hp c hc]

theorem dropWhile_unifyBreaks {p : Char → Bool} (hp : ∀ c, isBreak c = true → p c = false)
    (text : List Char) : (unifyBreaks text).dropWhile p = unifyBreaks (text.dropWhile p) := by
  induction text with
  | nil => rfl
  | cons c rest ih =>
    cases hc : isBreak c with
    | false =>
      rw [unifyBreaks_cons hc, List.dropWhile_cons, List.dropWhile_cons, ih]
      split
      · rfl
      · rw [unifyBreaks_cons hc]
    | true =>
      obtain ⟨rest', hrest⟩ := exists_unifyBreaks hc rest
      have hlf : p '\n' = false := hp _ rfl
      simp [hrest, hlf, hp c hc]

/-! ## The number of lines -/

theorem lineBreaks_eq_zero_iff : lineBreaks text = 0 ↔ Unbroken text := by
  induction text with
  | nil => simp [lineBreaks, Unbroken]
  | cons c rest ih =>
    rw [lineBreaks_cons]
    cases h : endsLine c rest with
    | true => simpa [Unbroken] using fun hc => absurd (isBreak_of_endsLine h) (by simp [hc])
    | false =>
      simp only [Bool.false_eq_true, if_false, Nat.add_zero, ih]
      constructor
      · intro hrest d hd
        rcases List.mem_cons.mp hd with rfl | hd
        · cases hb : isBreak d with
          | false => rfl
          | true =>
            obtain ⟨rfl, hhead⟩ := endsLine_of_isBreak hb h
            obtain ⟨rest', rfl⟩ := List.head?_eq_some_iff.mp hhead
            exact absurd (hrest '\n' List.mem_cons_self) (by decide)
        · exact hrest d hd
      · exact fun hcons d hd => hcons d (List.mem_cons_of_mem c hd)

theorem lineBreaks_append (h : Undivided before after) :
    lineBreaks (before ++ after) = lineBreaks before + lineBreaks after := by
  induction before with
  | nil => simp [lineBreaks]
  | cons c before ih =>
    rw [List.cons_append, lineBreaks_cons, lineBreaks_cons, h.endsLine_append, ih h.tail]
    omega

theorem lineBreaks_unifyBreaks (text : List Char) :
    lineBreaks (unifyBreaks text) = lineBreaks text := by
  induction text with
  | nil => rfl
  | cons c rest ih =>
    rw [unifyBreaks, lineBreaks_cons c]
    cases h : endsLine c rest with
    | true =>
      rw [if_pos rfl, if_pos rfl, lineBreaks_cons, ih]
      simp [endsLine]
    | false =>
      simp only [Bool.false_eq_true, if_false, Nat.add_zero]
      by_cases hc : c = '\r'
      · rw [if_pos hc, ih]
      · have hends : endsLine c (unifyBreaks rest) = false := by
          simp only [endsLine, Bool.or_eq_false_iff, decide_eq_false_iff_not] at h ⊢
          exact ⟨h.1, by simp [hc]⟩
        rw [if_neg hc, lineBreaks_cons, ih, hends]
        rfl

/-! ## The line of a place -/

theorem lastLine_of_unbroken (h : Unbroken text) : lastLine text = text := by
  have hall : ∀ c ∈ text.reverse, (! isBreak c) = true := fun c hc => by
    rw [h c (List.mem_reverse.mp hc)]
    rfl
  rw [lastLine, List.takeWhile_eq_self_iff.mpr hall, List.reverse_reverse]

/-- Whatever comes before a break is on earlier lines. -/
theorem lastLine_append_of_not_unbroken (before : List Char) (h : ¬ Unbroken text) :
    lastLine (before ++ text) = lastLine text := by
  have hall : ¬ ∀ c ∈ text.reverse, (! isBreak c) = true := by
    intro hall
    exact h fun c hc => by simpa using hall c (List.mem_reverse.mpr hc)
  rw [lastLine, lastLine, List.reverse_append, List.takeWhile_append, if_neg]
  intro hlen
  refine hall fun c hc => ?_
  have htake : text.reverse.takeWhile (! isBreak ·) = text.reverse :=
    (List.takeWhile_prefix _).eq_of_length hlen
  exact of_mem_takeWhile (htake ▸ hc)

theorem lastLine_cons_of_isBreak (hc : isBreak c = true) (rest : List Char) :
    lastLine (c :: rest) = lastLine rest := by
  by_cases hrest : Unbroken rest
  · have hall : ∀ d ∈ rest.reverse, (! isBreak d) = true := fun d hd => by
      rw [hrest d (List.mem_reverse.mp hd)]
      rfl
    rw [lastLine_of_unbroken hrest, lastLine, List.reverse_cons,
      List.takeWhile_append_of_pos hall, List.takeWhile_cons_of_neg (by simp [hc]),
      List.append_nil, List.reverse_reverse]
  · exact lastLine_append_of_not_unbroken [c] hrest

theorem lastLine_unifyBreaks (text : List Char) : lastLine (unifyBreaks text) = lastLine text := by
  induction text with
  | nil => rfl
  | cons c rest ih =>
    cases hc : isBreak c with
    | true =>
      rw [lastLine_cons_of_isBreak hc, ← ih, unifyBreaks]
      cases h : endsLine c rest with
      | true => rw [if_pos rfl, lastLine_cons_of_isBreak rfl]
      | false => rw [if_neg (by simp), if_pos (endsLine_of_isBreak hc h).1]
    | false =>
      rw [unifyBreaks_cons hc]
      by_cases hrest : Unbroken rest
      · rw [hrest.unifyBreaks_eq]
      · have hrest' : ¬ Unbroken (unifyBreaks rest) := by
          rwa [← lineBreaks_eq_zero_iff, lineBreaks_unifyBreaks, lineBreaks_eq_zero_iff]
        exact (lastLine_append_of_not_unbroken [c] hrest').trans
          (ih.trans (lastLine_append_of_not_unbroken [c] hrest).symm)

theorem head?_lines (text : List Char) :
    (lines text)[0]? = some (text.takeWhile (! isBreak ·)) := by
  induction text with
  | nil => rfl
  | cons c rest ih =>
    rw [lines]
    cases hc : isBreak c with
    | false =>
      rw [endsLine_eq_false hc, if_neg (by simp), if_neg (ne_return_of_isBreak hc),
        List.getElem?_modifyHead_zero, ih]
      simp [hc]
    | true =>
      cases h : endsLine c rest with
      | true => simp [hc]
      | false =>
        obtain ⟨rfl, hhead⟩ := endsLine_of_isBreak hc h
        obtain ⟨rest', rfl⟩ := List.head?_eq_some_iff.mp hhead
        simpa [hc, isBreak] using ih

/-- The line on which an undivided cut lies, among the lines of the text. -/
theorem getElem?_lines (h : Undivided before after) :
    (lines (before ++ after))[lineBreaks before]? = some (lineAround before after) := by
  induction before with
  | nil => simpa [lineAround, lineBreaks] using head?_lines after
  | cons c before ih =>
    have hrest := ih h.tail
    have hunfold (before : List Char) : lineAround before after =
        lastLine before ++ after.takeWhile (! isBreak ·) := rfl
    rw [List.cons_append, lines, h.endsLine_append, lineBreaks_cons]
    rw [hunfold] at hrest ⊢
    cases hc : isBreak c with
    | true =>
      rw [lastLine_cons_of_isBreak hc, ← hrest]
      cases hends : endsLine c before with
      | true => rfl
      | false => rw [if_neg (by simp), if_pos (endsLine_of_isBreak hc hends).1, if_neg (by simp),
          Nat.add_zero]
    | false =>
      rw [endsLine_eq_false hc, if_neg (by simp), if_neg (ne_return_of_isBreak hc),
        if_neg (by simp), Nat.add_zero]
      by_cases hbefore : Unbroken before
      · have hcons : Unbroken (c :: before) := fun d hd =>
          (List.mem_cons.mp hd).elim (fun hd => hd ▸ hc) (hbefore d)
        rw [lineBreaks_eq_zero_iff.mpr hbefore] at hrest ⊢
        rw [List.getElem?_modifyHead_zero, hrest, lastLine_of_unbroken hbefore,
          lastLine_of_unbroken hcons]
        rfl
      · obtain ⟨n, hn⟩ := Nat.exists_eq_succ_of_ne_zero (mt lineBreaks_eq_zero_iff.mp hbefore)
        rw [hn] at hrest ⊢
        rw [List.getElem?_modifyHead_succ, hrest]
        exact congrArg (fun line => some (line ++ _))
          (lastLine_append_of_not_unbroken [c] hbefore).symm

theorem advance_undivided (h : Undivided before after) (place : Position) :
    Position.advance place (byteLength before) (before ++ after) =
      ⟨place.line + lineBreaks before,
        if lineBreaks before = 0 then place.column + before.length
        else (lastLine before).length + 1⟩ := by
  induction before generalizing place with
  | nil => cases after <;> simp [Position.advance, lineBreaks, Char.utf8Size_pos]
  | cons c before ih =>
    have hlt : ¬ byteLength (c :: before) < c.utf8Size := by simp
    rw [List.cons_append, Position.advance, if_neg hlt, h.endsLine_append, lineBreaks_cons,
      byteLength_cons, Nat.add_sub_cancel_left]
    cases hends : endsLine c before with
    | true =>
      rw [if_pos rfl, ih h.tail, if_pos rfl, if_neg (Nat.succ_ne_zero _),
        lastLine_cons_of_isBreak (isBreak_of_endsLine hends)]
      simp only [Position.mk.injEq]
      refine ⟨by omega, ?_⟩
      split
      · rename_i hzero
        rw [lastLine_of_unbroken (lineBreaks_eq_zero_iff.mp hzero), Nat.add_comm]
      · rfl
    | false =>
      simp only [Bool.false_eq_true, if_false, Nat.add_zero]
      rw [ih h.tail]
      simp only [Position.mk.injEq, true_and]
      by_cases hzero : lineBreaks before = 0
      · rw [if_pos hzero, if_pos hzero, List.length_cons]
        omega
      · rw [if_neg hzero, if_neg hzero,
          ← lastLine_append_of_not_unbroken [c] (mt lineBreaks_eq_zero_iff.mpr hzero)]
        rfl

/-- The place of an undivided cut: the breaks and the length of the last line before it. -/
theorem ofOffset_undivided (h : Undivided before after) :
    Position.ofOffset (before ++ after) (byteLength before) =
      ⟨lineBreaks before + 1, (lastLine before).length + 1⟩ := by
  rw [Position.ofOffset, advance_undivided h]
  simp only [Position.mk.injEq]
  refine ⟨Nat.add_comm _ _, ?_⟩
  split
  · rename_i hzero
    rw [lastLine_of_unbroken (lineBreaks_eq_zero_iff.mp hzero), Nat.add_comm]
  · rfl

end VisualBasic
