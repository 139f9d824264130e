import Mathlib
import VisualBasic.Proofs.Lookahead.Word
import VisualBasic.Proofs.Routine.Token
import VisualBasic.Proofs.Word.Distance
import VisualBasic.Session

/-!
# Suggestions as nearest candidates

The candidate suggested for a word is the first of those at the least distance from it, where that
distance is within the word's tolerance; otherwise nothing is suggested. The keyword suggested for a
misspelled word, and the one suggested where the parser misses a keyword, are such candidates, among
all keywords and for the missed one alone.
-/

set_option autoImplicit false

namespace VisualBasic

variable {α : Type}

/-! ## The first of the nearest -/

/-- The first of the candidates at the least distance. -/
def IsFirstNearest (distance : α → Nat) (candidates : List α) (best : α) : Prop :=
  ∃ before after, candidates = before ++ best :: after ∧
    (∀ candidate ∈ candidates, distance best ≤ distance candidate) ∧
    ∀ candidate ∈ before, distance best < distance candidate

section Nearest

variable {distance : α → Nat} {candidates : List α} {candidate best : α}

theorem IsFirstNearest.mem (h : IsFirstNearest distance candidates best) : best ∈ candidates := by
  obtain ⟨before, after, rfl, -, -⟩ := h
  simp

theorem IsFirstNearest.le (h : IsFirstNearest distance candidates best) :
    ∀ candidate ∈ candidates, distance best ≤ distance candidate := by
  obtain ⟨_, _, _, hleast, _⟩ := h
  exact hleast

/-- Of two candidates at the least distance the one in front is taken. -/
theorem isFirstNearest_cons {rest : List α} :
    IsFirstNearest distance (candidate :: rest) best ↔
      (best = candidate ∧ ∀ other ∈ rest, distance candidate ≤ distance other) ∨
        (distance best < distance candidate ∧ IsFirstNearest distance rest best) := by
  constructor
  · rintro ⟨before, after, hsplit, hleast, hfirst⟩
    cases before with
    | nil =>
      cases hsplit
      exact .inl ⟨rfl, fun other hother => hleast other (List.mem_cons_of_mem _ hother)⟩
    | cons head before =>
      obtain ⟨rfl, rfl⟩ := List.cons.inj hsplit
      exact .inr ⟨hfirst _ List.mem_cons_self, before, after, rfl,
        fun other hother => hleast other (List.mem_cons_of_mem _ hother),
        fun other hother => hfirst other (List.mem_cons_of_mem _ hother)⟩
  · rintro (⟨rfl, hleast⟩ | ⟨hlt, before, after, rfl, hleast, hfirst⟩)
    · exact ⟨[], rest, rfl, List.forall_mem_cons.mpr ⟨Nat.le_refl _, hleast⟩, by simp⟩
    · exact ⟨candidate :: before, after, rfl, List.forall_mem_cons.mpr ⟨Nat.le_of_lt hlt, hleast⟩,
        List.forall_mem_cons.mpr ⟨hlt, hfirst⟩⟩

end Nearest

/-! ## What is suggested -/

section Closest

variable {spelling : α → String} {target : String} {candidates : List α} {best : α}

/-- Nothing is suggested exactly when no candidate is near enough. -/
theorem closestBy_eq_none_iff :
    closestBy spelling target candidates = none ↔
      ∀ candidate ∈ candidates, tolerance target < foldedDistance target (spelling candidate) := by
  induction candidates with
  | nil => simp [closestBy]
  | cons candidate rest ih =>
    rw [List.forall_mem_cons, ← ih, closestBy]
    cases closestBy spelling target rest with
    | none => simp
    | some next =>
      simp only [reduceCtorEq, and_false, iff_false]
      split <;> simp

/-- What is suggested is the first of the nearest, and near enough. -/
theorem closestBy_eq_some_iff :
    closestBy spelling target candidates = some best ↔
      IsFirstNearest (fun candidate => foldedDistance target (spelling candidate)) candidates best ∧
        foldedDistance target (spelling best) ≤ tolerance target := by
  induction candidates generalizing best with
  | nil => simp [closestBy, IsFirstNearest]
  | cons candidate rest ih =>
    rw [isFirstNearest_cons, closestBy]
    cases hrest : closestBy spelling target rest with
    | none =>
      -- All of the rest is too far, so only the candidate in front may be suggested.
      have hfar := closestBy_eq_none_iff.mp hrest
      constructor
      · intro h
        obtain ⟨hnear, rfl⟩ := Option.ite_none_right_eq_some.mp h |>.imp_right Option.some.inj
        exact ⟨.inl ⟨rfl,
          fun other hother => Nat.le_of_lt (Nat.lt_of_le_of_lt hnear (hfar other hother))⟩, hnear⟩
      · rintro ⟨⟨rfl, -⟩ | ⟨-, hbest⟩, hnear⟩
        · exact if_pos hnear
        · exact absurd hnear (Nat.not_le.mpr (hfar best hbest.mem))
    | some next =>
      obtain ⟨hnext, hnear⟩ := ih.mp hrest
      dsimp only
      by_cases hle : foldedDistance target (spelling candidate) ≤
        foldedDistance target (spelling next)
      · rw [if_pos hle]
        constructor
        · rintro ⟨⟩
          exact ⟨.inl ⟨rfl, fun other hother => Nat.le_trans hle (hnext.le other hother)⟩,
            Nat.le_trans hle hnear⟩
        · rintro ⟨⟨rfl, -⟩ | ⟨hlt, hbest⟩, -⟩
          · rfl
          · exact absurd (Nat.lt_of_lt_of_le hlt hle) (Nat.not_lt.mpr (hnext.le best hbest.mem))
      · rw [if_neg hle, ← hrest]
        constructor
        · intro h
          cases hrest.symm.trans h
          exact ⟨.inr ⟨Nat.lt_of_not_le hle, hnext⟩, hnear⟩
        · rintro ⟨⟨rfl, hleast⟩ | ⟨-, hbest⟩, hnear⟩
          · exact absurd (hleast next hnext.mem) hle
          · exact ih.mpr ⟨hbest, hnear⟩

/-- Candidates may be told by their spellings alone. -/
theorem closestBy_map (candidates : List α) :
    closestBy id target (candidates.map spelling) =
    (closestBy spelling target candidates).map spelling := by
  induction candidates with
  | nil => rfl
  | cons candidate rest ih =>
    rw [List.map_cons, closestBy, ih, closestBy]
    cases closestBy spelling target rest with
    | none =>
      dsimp only
      rw [apply_ite (Option.map spelling)]
      rfl
    | some next =>
      dsimp only
      rw [apply_ite (Option.map spelling)]
      rfl

end Closest

/-! ## Keywords -/

section Keywords

variable {word : String} {k : Keyword}

theorem foldedDistance_eq_zero_iff {s t : String} :
    foldedDistance s t = 0 ↔ s.toLower = t.toLower := by
  rw [foldedDistance, editDistance_eq, textDistance_eq_zero_iff, String.toList_inj]

/-- A word spells a keyword when its letters are those of the keyword, in any case. -/
theorem Keyword.lookup_eq_some_iff_toLower :
    Keyword.lookup word = some k ↔ word.toLower = k.spelling.toLower := by
  rw [Keyword.lookup_eq_some_iff, sameLetters_iff, Keyword.letters, ← String.toList_inj]
  simp only [String.toLower, String.toList_map]
  exact eq_comm

theorem Keyword.lookup_isSome_iff :
    (Keyword.lookup word).isSome ↔ ∃ k ∈ Keyword.all, word.toLower = k.spelling.toLower := by
  simp only [Option.isSome_iff_exists, Keyword.lookup_eq_some_iff_toLower,
    Keyword.mem_all, true_and]

/-- A word that does not spell a keyword is a near miss of it exactly when it is near enough. -/
theorem isNearMiss_iff (h : word.toLower ≠ k.spelling.toLower) :
    isNearMiss word k = true ↔ foldedDistance word k.spelling ≤ tolerance word := by
  have hpos : 0 < foldedDistance word k.spelling :=
    Nat.pos_of_ne_zero (mt foldedDistance_eq_zero_iff.mp h)
  simp [isNearMiss, hpos]

theorem suggestKeyword_eq (word : String) :
    (suggestKeyword word).map Keyword.spelling =
      if word = "" ∨ ∃ k ∈ Keyword.all, word.toLower = k.spelling.toLower then none
      else closest word (Keyword.all.map Keyword.spelling) := by
  rw [closest, closestBy_map, suggestKeyword, apply_ite (Option.map Keyword.spelling)]
  refine if_congr ?_ rfl rfl
  rw [Bool.or_eq_true, String.isEmpty_iff, Keyword.lookup_isSome_iff]

end Keywords

namespace Routine

variable {k : Keyword} {s : Session} {diagnostic : Diagnostic}

theorem expectKeyword_of_met {after : Cursor} (h : s.cursor.keyword k = some after) :
    (expectKeyword k).run s = ⟨.matched (), { s with cursor := after }, []⟩ := by
  have hmet := reads_met (Scanner.run_keyword k) s
  simp [expectKeyword, orElse, attempt, hmet, h]

theorem expectKeyword_of_missing (h : s.cursor.keyword k = none) :
    ∃ diagnostic, ((expectKeyword k).run s).step = .failed diagnostic ∧
      diagnostic.suggestion =
        if s.cursor.peekWord.any (isNearMiss · k) then some k.spelling else none := by
  have hmet := reads_met (Scanner.run_keyword k) s
  simp only [expectKeyword, orElse, run_bind, attempt, hmet, h, Option.map_none,
    Parsed.taken_none, Parsed.matched_andThen, Parsed.after_nil, run_error, run_scan,
    Scanner.run_peekWord, run_if, run_raise]
  split <;> exact ⟨_, rfl, rfl⟩

theorem keyword_eq_none_of_expectKeyword
    (h : ((expectKeyword k).run s).step = .failed diagnostic) : s.cursor.keyword k = none := by
  cases hk : s.cursor.keyword k with
  | none => rfl
  | some after =>
    rw [expectKeyword_of_met hk] at h
    contradiction

/-- The word in the place of a keyword does not spell it. -/
theorem toLower_ne_of_missing {c : Cursor} {word : String} (h : c.keyword k = none)
    (hword : c.peekWord = some word) :
    word.toLower ≠ k.spelling.toLower := by
  intro hspells
  rw [Cursor.keyword_eq_none_iff, Cursor.peekKeyword, hword] at h
  exact h (Keyword.lookup_eq_some_iff_toLower.mpr hspells)

/-- Where a keyword is missed, it is suggested for the word in its place, if any. -/
theorem suggestion_of_expectKeyword (h : ((expectKeyword k).run s).step = .failed diagnostic) :
    diagnostic.suggestion = s.cursor.peekWord.bind fun word => closest word [k.spelling] := by
  have hmissing := keyword_eq_none_of_expectKeyword h
  obtain ⟨other, hfailed, hsuggestion⟩ := expectKeyword_of_missing hmissing
  rw [hfailed] at h
  cases h
  rw [hsuggestion]
  cases hword : s.cursor.peekWord with
  | none => rfl
  | some word =>
    have hnear := isNearMiss_iff (toLower_ne_of_missing hmissing hword)
    rw [Option.any_some, Option.bind_some, closest, closestBy]
    by_cases h : foldedDistance word k.spelling ≤ tolerance word
    · rw [if_pos (hnear.mpr h)]
      exact (if_pos h).symm
    · rw [if_neg (mt hnear.mp h)]
      exact (if_neg h).symm

end Routine

/-- The candidate suggested for a word is the first of those with the fewest edits, letter case
aside, if they are few enough; in which case the word is written makes no difference. The keyword
suggested for a word is the one suggested among the spellings of all, but there is none for the
empty word and for a keyword. Where the parser misses a keyword, that keyword is suggested exactly
when it is suggested for the word in its place. -/
theorem suggestions_are_nearest :
    (∀ (target : String) (candidates : List String),
      (∀ best, closest target candidates = some best ↔
        IsFirstNearest (fun candidate => editDistance target.toLower candidate.toLower)
          candidates best ∧
          editDistance target.toLower best.toLower ≤ if target.length < 5 then 1 else 3) ∧
      (closest target candidates = none ↔ ∀ candidate ∈ candidates,
        (if target.length < 5 then 1 else 3) < editDistance target.toLower candidate.toLower) ∧
      ∀ other : String, other.toLower = target.toLower →
        closest other candidates = closest target candidates) ∧
    (∀ word : String, (suggestKeyword word).map Keyword.spelling =
      if word = "" ∨ ∃ k ∈ Keyword.all, word.toLower = k.spelling.toLower then none
      else closest word (Keyword.all.map Keyword.spelling)) ∧
    ∀ (k : Keyword) (s : Session),
      ((∃ diagnostic, ((Routine.expectKeyword k).run s).step = .failed diagnostic) ↔
        ((Scanner.keyword k).run s.cursor).value = false) ∧
      ∀ diagnostic, ((Routine.expectKeyword k).run s).step = .failed diagnostic →
        diagnostic.suggestion =
          (Scanner.peekWord.run s.cursor).value.bind fun word => closest word [k.spelling] := by
  refine ⟨fun target candidates => ⟨fun best => closestBy_eq_some_iff, closestBy_eq_none_iff,
    fun other h => closestBy_eq_of_toLower_eq h candidates⟩, suggestKeyword_eq,
    fun k s => ⟨?_, ?_⟩⟩
  · rw [Scanner.run_keyword, Scanned.passed, Option.isSome_eq_false_iff, Option.isNone_iff_eq_none]
    constructor
    · rintro ⟨diagnostic, h⟩
      exact Routine.keyword_eq_none_of_expectKeyword h
    · intro h
      obtain ⟨diagnostic, hfailed, _⟩ := Routine.expectKeyword_of_missing h
      exact ⟨diagnostic, hfailed⟩
  · intro diagnostic h
    rw [Scanner.run_peekWord]
    exact Routine.suggestion_of_expectKeyword h

/-- Two candidates at the least distance, and a keyword with a letter too many. -/
theorem suggestions_are_nearest_of_misspelled :
    closest "THME" ["Then", "Theme", "Time"] = some "Theme" ∧
      IsFirstNearest (fun candidate : String => editDistance "THME".toLower candidate.toLower)
        ["Then", "Theme", "Time"] "Theme" ∧
      closest "thme" ["Then", "Theme", "Time"] = closest "THME" ["Then", "Theme", "Time"] ∧
      (Scanner.peekWord.run (Cursor.start "Libb \"x\"".toList)).value = some "Libb" ∧
      ∃ diagnostic, ((Routine.expectKeyword .Lib).run
          (Session.start "Libb \"x\"" Settings.standard)).step = .failed diagnostic ∧
        diagnostic.suggestion = some "Lib" := by
  obtain ⟨hclosest, -, hparser⟩ := suggestions_are_nearest
  obtain ⟨hsome, -, hcase⟩ := hclosest "THME" ["Then", "Theme", "Time"]
  have hbest : closest "THME" ["Then", "Theme", "Time"] = some "Theme" := by cbv
  have hnearest := (hsome "Theme").mp hbest
  have hsame := hcase "thme" (by cbv)
  have hword : (Scanner.peekWord.run (Cursor.start "Libb \"x\"".toList)).value = some "Libb" := by
    decide +kernel
  have hmissing : ((Scanner.keyword .Lib).run (Cursor.start "Libb \"x\"".toList)).value =
      false := by decide +kernel
  have hlib : closest "Libb" [Keyword.Lib.spelling] = some "Lib" := by cbv
  obtain ⟨hfails, hsuggestion⟩ := hparser .Lib (Session.start "Libb \"x\"" Settings.standard)
  obtain ⟨diagnostic, hfailed⟩ := hfails.mpr hmissing
  refine ⟨hbest, hnearest.1, hsame, hword, diagnostic, hfailed, ?_⟩
  rw [hsuggestion diagnostic hfailed]
  change ((Scanner.peekWord.run (Cursor.start "Libb \"x\"".toList)).value.bind fun word =>
    closest word ["Lib"]) = some "Lib"
  rw [hword]
  exact hlib

/-- Two letters in the wrong order are two edits, too many for a short word. -/
example :
    closest "Thne" ["Then"] = none ∧ closest "Functoin" ["Function"] = some "Function" := by cbv

end VisualBasic
