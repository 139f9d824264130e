import VisualBasic.Cursor.Quoted
import VisualBasic.Proofs.Cursor.Blank

/-!
# Places between two texts

A place of a source cuts it in two, and all there is to the place is told from the two parts. From a
place blanks are passed over one by one, and continuations one after the other; the first character
tells whether a break or a string comes next.
-/

set_option autoImplicit false

namespace VisualBasic

namespace Cursor

/-- The place after one text and before another. -/
def between (before after : List Char) : Cursor :=
  ⟨byteLength before, before.getLast?.any isBlank, after⟩

variable (before text after : List Char)

@[simp] theorem rest_between : (between before after).rest = after := rfl

@[simp] theorem offset_between : (between before after).offset = byteLength before := rfl

@[simp] theorem afterBlank_between :
    (between before after).afterBlank = before.getLast?.any isBlank := rfl

theorem start_eq_between (source : List Char) : start source = between [] source := rfl

theorem skip_between :
    (between before (text ++ after)).skip text.length = between (before ++ text) after := by
  induction text generalizing before with
  | nil => simp
  | cons c text ih =>
    have hnext : (between before (c :: (text ++ after))).next =
        between (before ++ [c]) (text ++ after) := by
      simp [between, next]
    rw [List.cons_append, List.length_cons, skip_succ, hnext, ih, List.append_assoc,
      List.singleton_append]

theorem ofOffset_append (before after : List Char) :
    ofOffset (before ++ after) (byteLength before) = between before after := by
  have h := skip_between [] before after
  rwa [ofOffset, splitBytes_byteLength, start_eq_between]

/-! ## Blanks one by one -/

variable {c : Cursor} {char : Char} {rest : List Char}

theorem skipBlanks_of_blank (hr : c.rest = char :: rest) (hb : isBlank char = true) :
    c.skipBlanks = (c.skip 1).skipBlanks := by
  have hafter : (c.skip 1).afterBlank = true := by
    rw [afterBlank_skip, hr]
    simpa using hb
  rw [skipBlanks, skipBlanks, hafter, rest_skip, hr, blankWidth_blank hb, Nat.add_comm, skip_add]
  rfl

theorem skipBlanks_skip_blanks (c : Cursor) :
    (c.skip (c.rest.takeWhile isBlank).length).skipBlanks = c.skipBlanks := by
  induction hrest : c.rest generalizing c with
  | nil => rfl
  | cons char rest ih =>
    cases hchar : isBlank char with
    | false => simp [hchar]
    | true =>
      have hnext : (c.skip 1).rest = rest := by rw [rest_skip, hrest]; rfl
      rw [skipBlanks_of_blank hrest hchar, ← ih (c.skip 1) hnext, List.takeWhile_cons_of_pos hchar,
        List.length_cons, Nat.add_comm, skip_add]

theorem skipBlanks_of_continuation {n : Nat} (hr : c.rest = '_' :: rest)
    (ha : c.afterBlank = true) (hn : continuationWidth rest = some n) :
    c.skipBlanks = (c.skip (n + 1)).skipBlanks := by
  have hskip : c.skip (n + 1) = (c.skip 1).skip n := by rw [Nat.add_comm, skip_add]
  have hrest : (c.skip 1).rest = rest := by rw [rest_skip, hr]; rfl
  have hafter : (c.skip (n + 1)).afterBlank = false := by
    rw [hskip]
    exact afterBlank_skip_continuationWidth (by rwa [hrest])
  have hend : (c.skip (n + 1)).rest = rest.drop n := by rw [hskip, rest_skip, hrest]
  rw [skipBlanks, skipBlanks, hafter, hend, hr, ha, blankWidth_continuation hn,
    Nat.add_right_comm, skip_add]

theorem skipBlanks_of_nil (hr : c.rest = []) : c.skipBlanks = c := skip_of_rest_eq_nil hr _

/-- The characters that are passed over next: a blank, or a line continuation. -/
def passWidth (c : Cursor) : Option Nat :=
  match c.rest with
  | [] => none
  | char :: rest =>
    if isBlank char then some 1
    else if c.afterBlank && char = '_' then (continuationWidth rest).map (· + 1)
    else none

theorem passWidth_of_nil (hr : c.rest = []) : c.passWidth = none := by
  rw [passWidth, hr]

theorem passWidth_of_blank (hr : c.rest = char :: rest) (hb : isBlank char = true) :
    c.passWidth = some 1 := by
  rw [passWidth, hr]
  exact if_pos hb

theorem passWidth_of_underscore (hr : c.rest = '_' :: rest) (ha : c.afterBlank = true) :
    c.passWidth = (continuationWidth rest).map (· + 1) := by
  rw [passWidth, hr, ha]
  rfl

theorem passWidth_of_still (hr : c.rest = char :: rest) (hb : isBlank char = false)
    (h : ¬ (c.afterBlank = true ∧ char = '_')) : c.passWidth = none := by
  have hmark : (c.afterBlank && char = '_') = false := by simpa using h
  rw [passWidth, hr]
  simp only [hb, hmark]
  rfl

theorem skipBlanks_of_passWidth_eq_none (h : c.passWidth = none) : c.skipBlanks = c := by
  cases hr : c.rest with
  | nil => exact skipBlanks_of_nil hr
  | cons char rest =>
    simp only [passWidth, hr] at h
    split at h
    · contradiction
    · rename_i hb
      have hb : isBlank char = false := by simpa using hb
      rw [skipBlanks, hr, blankWidth_cons_eq_zero hb, skip_zero]
      rintro ha rfl
      simpa [ha] using h

theorem skipBlanks_of_passWidth_eq_some {n : Nat} (h : c.passWidth = some n) :
    c.skipBlanks = (c.skip n).skipBlanks ∧ (c.skip n).rest.length < c.rest.length := by
  cases hr : c.rest with
  | nil => simp [passWidth, hr] at h
  | cons char rest =>
    simp only [passWidth, hr] at h
    split at h
    · rename_i hb
      cases h
      exact ⟨skipBlanks_of_blank hr hb, by simp [hr]⟩
    · split at h
      · rename_i hmark
        simp only [Bool.and_eq_true, decide_eq_true_eq] at hmark
        obtain ⟨ha, rfl⟩ := hmark
        obtain ⟨m, hm, rfl⟩ := Option.map_eq_some_iff.mp h
        refine ⟨skipBlanks_of_continuation hr ha hm, ?_⟩
        rw [rest_skip, hr, List.length_drop, List.length_cons]
        omega
      · contradiction

/-- Two places that stay related over whatever is passed over next are related where their blanks
end. -/
theorem rel_skipBlanks {R : Cursor → Cursor → Prop}
    (h : ∀ c d, R c d → R c.skipBlanks d.skipBlanks ∨
      Option.Rel (fun m n => R (c.skip m) (d.skip n)) c.passWidth d.passWidth)
    {c d : Cursor} (hcd : R c d) : R c.skipBlanks d.skipBlanks := by
  induction hn : c.rest.length using Nat.strongRecOn generalizing c d with
  | ind n ih =>
    rcases h c d hcd with hend | hpass
    · exact hend
    · cases hc : c.passWidth with
      | none =>
        rw [hc] at hpass
        cases hd : d.passWidth with
        | none => rwa [skipBlanks_of_passWidth_eq_none hc, skipBlanks_of_passWidth_eq_none hd]
        | some m =>
          rw [hd] at hpass
          contradiction
      | some m =>
        rw [hc] at hpass
        cases hd : d.passWidth with
        | none =>
          rw [hd] at hpass
          contradiction
        | some m' =>
          rw [hd] at hpass
          obtain ⟨hleft, hlt⟩ := skipBlanks_of_passWidth_eq_some hc
          rw [hleft, (skipBlanks_of_passWidth_eq_some hd).1]
          cases hpass with
          | some hmove => exact ih _ (hn ▸ hlt) hmove rfl

/-! ## Breaks and strings -/

theorem lineBreak_eq_none (h : breakWidth c.rest = 0) : c.lineBreak = none := by
  simp [lineBreak, h]

theorem lineBreak_eq_some {n : Nat} (h : breakWidth c.rest = n) (hn : n ≠ 0) :
    c.lineBreak = some (c.skip n) := by
  obtain ⟨m, rfl⟩ := Nat.exists_eq_succ_of_ne_zero hn
  simp [lineBreak, h]

theorem quoted_of_quote (hc : c.skipBlanks = c) (hr : c.rest = '"' :: rest) :
    c.quoted = (quotedBody rest).map
      fun found => (String.ofList found.1, c.skip (found.2 + 1)) := by
  simp only [quoted, hc]
  rw [hr]
  rfl

theorem quoted_eq_none (hc : c.skipBlanks = c) (hr : c.rest.head? ≠ some '"') :
    c.quoted = none := by
  simp only [quoted, hc]
  split
  · rename_i body hbody
    simp [hbody] at hr
  · rfl

end Cursor

end VisualBasic
