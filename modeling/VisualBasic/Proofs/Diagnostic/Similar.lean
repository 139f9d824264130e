import VisualBasic.Proofs.Correspondence.Folding
import VisualBasic.Proofs.Diagnostic.Pinpoint

/-!
# Similar sources

Sources that differ in the case of letters and in the kind of blanks alone are parsed to similar
trees, or fail at the same place for the same reason.
-/

set_option autoImplicit false

namespace VisualBasic

open Cursor (between)

/-! ## Places in the folded source -/

variable {before after : List Char}

theorem Undivided.fold (h : Undivided before after) :
    Undivided (VisualBasic.fold before) (VisualBasic.fold after) := by
  have hcr : ('\r' : Char).isAlpha = false ∧ isBlank '\r' = false := by decide
  have hlf : ('\n' : Char).isAlpha = false ∧ isBlank '\n' = false := by decide
  intro hlast
  rw [VisualBasic.fold, ← List.head?_reverse, ← List.map_reverse] at hlast
  have hreverse := (head?_fold_eq_iff hcr before.reverse).mp hlast
  rw [List.head?_reverse] at hreverse
  exact mt (head?_fold_eq_iff hlf after).mp (h hreverse)

theorem lastLine_fold (text : List Char) : lastLine (fold text) = fold (lastLine text) := by
  have hbreak (c : Char) : (! isBreak (foldChar c)) = ! isBreak c := by simp
  have hline := takeWhile_fold (p := (! isBreak ·)) hbreak text.reverse
  rw [lastLine, lastLine, fold, ← List.map_reverse, ← fold, hline, fold, fold, ← List.map_reverse]

theorem lineBreaks_fold (text : List Char) : lineBreaks (fold text) = lineBreaks text := by
  have hlf : ('\n' : Char).isAlpha = false ∧ isBlank '\n' = false := by decide
  have hcr : ('\r' : Char).isAlpha = false ∧ isBlank '\r' = false := by decide
  induction text with
  | nil => rfl
  | cons c rest ih =>
    have hends : endsLine (foldChar c) (fold rest) = endsLine c rest := by
      simp only [endsLine, foldChar_eq_iff hlf, foldChar_eq_iff hcr, ne_eq, head?_fold_eq_iff hlf]
    rw [fold_cons, lineBreaks_cons, lineBreaks_cons, hends, ih]

theorem Cursor.folded_between (before after : List Char) :
    (between before after).folded = between (fold before) (fold after) := by
  have hplace := Cursor.skip_between [] before after
  have hfolded := Cursor.skip_between [] (fold before) (fold after)
  rw [List.nil_append] at hplace hfolded
  rw [← hplace, ← hfolded, ← Cursor.skip_folded, length_fold, ← fold_append]
  rfl

/-! ## The same diagnostics -/

/-- A diagnostic but for the texts that it takes from the source. -/
def Diagnostic.withoutQuotes (diagnostic : Diagnostic) : Diagnostic :=
  { diagnostic with snippet := "", sourceLine := none, help := none }

theorem Failure.reported_fold {source : String} {failure other : Failure} {d : Cursor}
    (hplace : Unified source.toList failure.place d)
    (h : Correspondence.folding.Alike failure other) (settings : Settings) :
    (failure.reported source settings).withoutQuotes =
      (other.reported (String.ofList (fold source.toList)) settings).withoutQuotes := by
  have hfolded : other.place = failure.place.folded := h.place.1
  have hnote : failure.note = other.note := by
    rw [Failure.note, Failure.note, hfolded, Cursor.isAtOperator_folded]
  generalize hp : failure.place = place at hplace
  obtain @⟨before, after, hs, hu⟩ := hplace
  have hother : other.place = between (fold before) (fold after) := by
    rw [hfolded, hp, Cursor.folded_between]
  have hsource : (String.ofList (fold source.toList)).toList = fold before ++ fold after := by
    rw [String.toList_ofList, hs, fold_append]
  rw [Failure.reported_between hs hu hp, Failure.reported_between hsource hu.fold hother, hnote,
    h.construct, h.expected, h.suggestion, lineBreaks_fold, lastLine_fold, length_fold,
    byteLength_fold]
  rfl

/-- Folding a source changes no more of what its parse comes to than the letters of the texts. -/
theorem parseModule_fold (source : String) (settings : Settings) :
    (∃ tree other, parseModule source settings = .ok tree ∧
      parseModule (String.ofList (fold source.toList)) settings = .ok other ∧
        tree.relabel .folding = other) ∨
    ∃ diagnostic other, parseModule source settings = .error diagnostic ∧
      parseModule (String.ofList (fold source.toList)) settings = .error other ∧
        diagnostic.withoutQuotes = other.withoutQuotes := by
  have hstart : (Cursor.start source.toList).folded =
      Cursor.start (String.ofList (fold source.toList)).toList := by
    rw [String.toList_ofList]
    rfl
  have hfollows := Grammar.keeps_module (K := Correspondence.folding) trivial [] []
    (Cursor.start source.toList) (Cursor.start source.toList).folded (fun _ => rfl)
      ⟨rfl, fun h => h⟩
  have hunified := Grammar.module_unifyBreaks source.toList
  rw [hstart] at hfollows
  cases hm : Grammar.module [] (Cursor.start source.toList) with
  | unmatched => exact absurd hm (Grammar.module_ne_unmatched _ _)
  | matched tree d =>
    rw [hm] at hfollows
    obtain ⟨other, d', hother, hvalue, _⟩ := hfollows.of_matched Pairing.not_strays_sure
    refine .inl ⟨tree, other, parseModule_of_matched hm, parseModule_of_matched hother, ?_⟩
    exact hvalue.trans other.relabel_same
  | failed failure =>
    rw [hm] at hfollows hunified
    obtain ⟨other, hother, halike⟩ := hfollows.of_failed trivial
    obtain ⟨_, _, hplace⟩ := hunified.of_failed trivial
    exact .inr ⟨_, _, parseModule_of_failed hm, parseModule_of_failed hother,
      Failure.reported_fold hplace.place.1 halike settings⟩

/-- The parser tells neither the case of letters nor a space from a tab. Of two similar sources
either both are parsed, to trees that differ in the letters of their texts alone, or both fail with
diagnostics that differ in the texts taken from the source alone. -/
theorem parseModule_of_similar {source other : String} (h : Similar source.toList other.toList)
    (settings : Settings) :
    (∃ tree tree', parseModule source settings = .ok tree ∧ parseModule other settings = .ok tree' ∧
      tree.relabel .folding = tree'.relabel .folding) ∨
    ∃ diagnostic diagnostic', parseModule source settings = .error diagnostic ∧
      parseModule other settings = .error diagnostic' ∧
        diagnostic.withoutQuotes = diagnostic'.withoutQuotes := by
  have hsource := parseModule_fold source settings
  have hother := parseModule_fold other settings
  rw [Similar] at h
  rw [← h] at hother
  rcases hsource with ⟨tree, folded, hs, hf, htree⟩ | ⟨diagnostic, folded, hs, hf, heq⟩
  · rcases hother with ⟨tree', folded', ho, hf', htree'⟩ | ⟨_, folded', _, hf', _⟩
    · cases hf.symm.trans hf'
      exact .inl ⟨tree, tree', hs, ho, htree.trans htree'.symm⟩
    · cases hf.symm.trans hf'
  · rcases hother with ⟨_, folded', _, hf', _⟩ | ⟨diagnostic', folded', ho, hf', heq'⟩
    · cases hf.symm.trans hf'
    · cases hf.symm.trans hf'
      exact .inr ⟨diagnostic, diagnostic', hs, ho, heq.trans heq'.symm⟩

/-- A constant with its number in either case. -/
theorem parseModule_of_similar_constant :
    ∃ tree tree', parseModule "Const Mask = &HfF\n" Settings.standard = .ok tree ∧
      parseModule "CONST\tmask = &hFf\n" Settings.standard = .ok tree' ∧
      Similar "Const Mask = &HfF\n".toList "CONST\tmask = &hFf\n".toList ∧
      tree.relabel .folding = tree'.relabel .folding := by
  have hsimilar : Similar "Const Mask = &HfF\n".toList "CONST\tmask = &hFf\n".toList := by
    unfold Similar
    decide
  have hparsed : (parseModule "Const Mask = &HfF\n" Settings.standard).toOption.isSome = true := by
    decide +kernel
  rcases parseModule_of_similar hsimilar Settings.standard with
    ⟨tree, tree', hs, ho, htree⟩ | ⟨diagnostic, _, hs, _, _⟩
  · exact ⟨tree, tree', hs, ho, hsimilar, htree⟩
  · rw [hs] at hparsed
    contradiction

end VisualBasic
