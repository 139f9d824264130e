import VisualBasic.Proofs.Correspondence.Extension
import VisualBasic.Proofs.Correspondence.Shift
import VisualBasic.Proofs.Text.Joining
import VisualBasic.Session

/-!
# Parsing joined texts

Where the first of two joined texts is a module that ends with a line, and not in a line
continuation, its items are parsed first. Then the second text is parsed as on its own, with all
places moved.
-/

set_option autoImplicit false

namespace VisualBasic

namespace Cursor

/-- Where the first text has been used up, the second one stands as at a start. -/
theorem extend_of_rest_eq_nil {source more : List Char} {c : Cursor} (hs : EndsWithLine source)
    (h : Reaches (start source) c) (hc : c.rest = []) :
    c.extend more = (start more).shift (byteLength source) := by
  obtain ⟨n, rfl⟩ := h
  have hlast : source.getLast? = some '\n' := hs
  have hoffset := offset_add_rest_skip n (start source)
  have hn : source.length ≤ n := by simpa [start] using hc
  have hblank : (skip n (start source)).afterBlank = false := by
    rw [afterBlank_skip]
    simp [start, List.take_of_length_le hn, hlast, isBlank]
  rw [hc] at hoffset
  simp only [start, byteLength_nil, Nat.add_zero, Nat.zero_add] at hoffset hblank hc
  simp only [extend, shift, start, hblank, hc, hoffset, List.nil_append, Nat.zero_add]

theorem peekOperator_shift (k : Nat) (c : Cursor) : (c.shift k).peekOperator = c.peekOperator := by
  simp only [peekOperator, skipBlanks_shift, rest_shift, peekWord_shift]

theorem isAtOperator_shift (k : Nat) (c : Cursor) : (c.shift k).isAtOperator = c.isAtOperator := by
  simp only [isAtOperator, peekOperator_shift, number_shift, Option.isNone_map]

end Cursor

namespace Grammar

open Cursor (Reaches Inside start extend)
open Parse Pairing

section Ending

variable {source : List Char} (hs : EndsWithLine source) (hc : ¬ EndsInContinuation source)
  (more : List Char)

include hs hc

/-- The items of the first text come first. The induction is on the text left; the items can stop at
no place before the end, since more than blanks remains there. -/
theorem many_item_extend {inside : List Construct} {c e : Cursor} {items : List Item}
    (hr : Reaches (start source) c) (hm : many item inside c = .matched items e)
    (hend : e.skipBlanks.rest = []) :
    many item inside (c.extend more) =
      ((fun others => items ++ others) <$> many item) inside
        ((start more).shift (byteLength source)) := by
  induction hn : c.rest.length using Nat.strongRecOn generalizing c items with
  | _ n ih =>
    have hid (d : Cursor) : ((fun others => [] ++ others) <$> many item) inside d =
        many item inside d := by simp
    by_cases hrest : c.rest = []
    · have hitems : items = [] := by
        rw [many] at hm
        split at hm
        · cases hm
          rfl
        · contradiction
        · rename_i after hitem
          have := (yields_item _ _ _ _ hitem).1.2
          simp [hrest] at this
      rw [hitems, hid, Cursor.extend_of_rest_eq_nil hs hr hrest]
    · have hfollows := keeps_item (K := Correspondence.extended hs hc more) inside inside c
        (c.extend more) (fun _ => rfl) (alive_of_inside ⟨hr, hrest⟩)
      rw [many] at hm ⊢
      cases hitem : item inside c with
      | unmatched =>
        rw [hitem] at hm
        cases hm
        have hinside := Inside.skipBlanks hs hc ⟨hr, hrest⟩
        exact absurd hend hinside.2
      | failed failure =>
        rw [hitem] at hm
        contradiction
      | matched value after =>
        obtain ⟨hreach, hlt⟩ := (yields_item _ _ _ _ hitem).1
        rw [hitem] at hm hfollows
        simp only [if_pos hlt] at hm
        obtain ⟨other, place, hother, hvalue, hplace, _⟩ := hfollows.of_matched
          fun hs => hs.elim (fun h => absurd h.1 (by decide)) And.right
        obtain rfl : value = other := by
          simpa [On, Correspondence.extended, Pairing.extended] using hvalue
        obtain rfl : place = after.extend more := hplace.2
        have hlt' : (after.extend more).rest.length < (c.extend more).rest.length := by
          simpa using hlt
        cases hrests : many item inside after with
        | unmatched => exact absurd hrests (many_ne_unmatched item inside after)
        | failed failure =>
          rw [hrests] at hm
          contradiction
        | matched rest last =>
          rw [hrests] at hm
          cases hm
          have hlater := ih after.rest.length (by omega) (hr.trans hreach) hrests rfl
          rw [hother]
          simp only [if_pos hlt', hlater, ← bind_pure_comp, bind_apply]
          cases hothers : many item inside ((start more).shift (byteLength source)) with
          | unmatched => exact absurd hothers (many_ne_unmatched item inside _)
          | failed failure => rfl
          | matched others e => rfl

/-- The module of the first text, and then the second one. -/
theorem module_append {inside : List Construct} {tree : Module} {e : Cursor}
    (hm : module inside (start source) = .matched tree e) :
    module inside (start (source ++ more)) =
      ((fun other => ⟨tree.items ++ other.items⟩) <$> module) inside
        ((start more).shift (byteLength source)) := by
  obtain ⟨items, d, hitems, hm⟩ := matched_bind hm
  obtain ⟨_, d', hfinish, hm⟩ := matched_bind hm
  cases hm
  have hend : d.skipBlanks.rest = [] := by
    unfold advise requireEndOfSource at hfinish
    by_cases hd : isFinished d = true
    · simpa [isFinished, Cursor.isAtEnd] using hd
    · rw [if_neg hd] at hfinish
      contradiction
  have hmany := many_item_extend hs hc more (Reaches.refl _) hitems hend
  have hstart : start (source ++ more) = (start source).extend more := rfl
  simp only [← bind_pure_comp, bind_apply] at hmany
  simp only [module, hstart, hmany, ← bind_pure_comp, bind_apply]
  cases many item inside ((start more).shift (byteLength source)) with
  | unmatched => rfl
  | failed failure => rfl
  | matched others last =>
    simp only [pure_apply]
    cases advise suggestWord (requireEndOfSource _) inside last <;> rfl

end Ending

theorem requireEndOfSource_ne_unmatched (expected : Expected) (inside : List Construct)
    (c : Cursor) : requireEndOfSource expected inside c ≠ .unmatched := by
  unfold requireEndOfSource
  split
  · simp
  · simp [fail, failAt]

theorem module_ne_unmatched (inside : List Construct) (c : Cursor) :
    module inside c ≠ .unmatched := by
  simp only [module, bind_apply]
  cases hitems : many item inside c with
  | unmatched => exact absurd hitems (many_ne_unmatched item inside c)
  | failed failure => simp
  | matched items d =>
    simp only [advise]
    cases hfinish : requireEndOfSource (.part "module-level declaration or procedure") inside d with
    | unmatched => exact absurd hfinish (requireEndOfSource_ne_unmatched _ inside d)
    | failed failure => simp
    | matched _ _ => simp [pure_apply]

end Grammar

/-- The diagnostic of a later place, after a text that ends with a line. -/
def Diagnostic.moved (before : List Char) (diagnostic : Diagnostic) : Diagnostic :=
  { diagnostic with
    offset := diagnostic.offset + byteLength before
    location :=
      { diagnostic.location with line := diagnostic.location.line + lineBreaks before } }

namespace Diagnostic

theorem locate_append {first second : String} (hs : EndsWithLine first.toList)
    (diagnostic : Diagnostic) (width : Nat) :
    { diagnostic with offset := byteLength first.toList + diagnostic.offset }.locate
        (first ++ second) width =
      (diagnostic.locate second width).moved first.toList := by
  simp only [locate, moved, String.toList_append, splitBytes_append_byteLength,
    hs.lineAround_append, byteLength_append, Position.ofOffset, hs.advance_append,
    Position.advance_line]
  rw [Nat.add_comm (byteLength first.toList)]

/-- A failure is reported in joined texts as in the second text alone, on a later line. -/
theorem ofFailure_append {first second : String} {width : Nat} {failure other : Failure}
    (hs : EndsWithLine first.toList)
    (h : (Pairing.shifted (byteLength first.toList)).Alike failure other) :
    ofFailure (first ++ second) width other =
      (ofFailure second width failure).moved first.toList := by
  obtain ⟨hconstruct, hexpected, hsuggestion, hhelp, ⟨hplace, _⟩, _⟩ := h
  have hplace : other.place = failure.place.shift (byteLength first.toList) := hplace
  have hoffset : other.place.offset = byteLength first.toList + failure.place.offset := by
    rw [hplace, Cursor.offset_shift, Nat.add_comm]
  have hnote : other.note = failure.note := by
    rw [Failure.note, Failure.note, hplace, Cursor.isAtOperator_shift]
  have hhelp : other.help = failure.help := by
    have hshift : Help.relabel (.shift (byteLength first.toList)) = id := by
      funext help
      cases help <;> simp [Help.relabel, Relabel.text, Relabel.shift]
    have hsame : Help.relabel .same = id := by
      funext help
      cases help <;> simp [Help.relabel, Relabel.text, Relabel.same]
    simpa [Pairing.shifted, hshift, hsame] using hhelp.symm
  have hlocate := @locate_append first second hs
    (unlocated .syntaxError failure.construct.text failure.expected.text failure.place.offset) width
  simp only [unlocated] at hlocate
  simp only [ofFailure, unlocated, hoffset, hnote, hhelp, ← hconstruct, ← hexpected,
    ← hsuggestion, hlocate]
  rfl

/-- A located diagnostic is reported as it is, in its file. -/
theorem stamp_append {first second : String} {settings : Settings} {failure other : Failure}
    (hs : EndsWithLine first.toList)
    (h : (Pairing.shifted (byteLength first.toList)).Alike failure other) :
    (Report.empty (first ++ second) settings.file settings.snippetWidth).stamp
        (ofFailure (first ++ second) settings.snippetWidth other) =
      ((Report.empty second settings.file settings.snippetWidth).stamp
        (ofFailure second settings.snippetWidth failure)).moved first.toList := by
  obtain ⟨width, file⟩ := settings
  rw [ofFailure_append hs h]
  cases file <;> rfl

end Diagnostic

/-- Parsing is compositional at the ends of lines. After a module, the items of a second text are
parsed as on their own with all spans moved, and its failure is reported on a later line. -/
theorem parseModule_append {first second : String} {settings : Settings} {tree : Module}
    (hparse : parseModule first settings = .ok tree) (hline : EndsWithLine first.toList)
    (hcontinued : ¬ EndsInContinuation first.toList) :
    parseModule (first ++ second) settings =
      match parseModule second settings with
      | .ok other =>
        .ok ⟨tree.items ++ (other.relabel (.shift (byteLength first.toList))).items⟩
      | .error diagnostic => .error (diagnostic.moved first.toList) := by
  have hfirst : ∃ e, Grammar.module [] (Cursor.start first.toList) = .matched tree e := by
    rw [parseModule_eq] at hparse
    split at hparse
    · rename_i tree' e hm
      cases hparse
      exact ⟨e, hm⟩
    · rename_i hm
      exact absurd hm (Grammar.module_ne_unmatched _ _)
    · contradiction
  obtain ⟨e, hfirst⟩ := hfirst
  have happend := Grammar.module_append hline hcontinued second.toList hfirst
  have hfollows := Grammar.module_shift (byteLength first.toList) [] (Cursor.start second.toList)
  simp only [← bind_pure_comp, Parse.bind_apply] at happend
  simp only [parseModule_eq, String.toList_append, happend]
  cases hsecond : Grammar.module [] (Cursor.start second.toList) with
  | unmatched => exact absurd hsecond (Grammar.module_ne_unmatched _ _)
  | matched other d =>
    rw [hsecond] at hfollows
    obtain ⟨moved, d', hmoved, hvalue, _⟩ := hfollows.of_matched Pairing.not_strays_sure
    have hvalue : other.relabel (.shift (byteLength first.toList)) = moved.relabel .same := hvalue
    obtain rfl : other.relabel (.shift (byteLength first.toList)) = moved := by
      rw [hvalue, Module.relabel_same]
    rw [hmoved]
    rfl
  | failed failure =>
    rw [hsecond] at hfollows
    obtain ⟨later, hlater, halike⟩ := hfollows.of_failed trivial
    rw [hlater]
    exact congrArg Except.error (Diagnostic.stamp_append hline halike)

/-- A declaration without a name after an option, which ends in CR LF. -/
theorem parseModule_append_missing_name :
    ∃ tree diagnostic, parseModule "Option Explicit\r\n" Settings.standard = .ok tree ∧
      parseModule "Dim\n" Settings.standard = .error diagnostic ∧
      EndsWithLine "Option Explicit\r\n".toList ∧
      ¬ EndsInContinuation "Option Explicit\r\n".toList ∧
      parseModule ("Option Explicit\r\n" ++ "Dim\n") Settings.standard =
        .error (diagnostic.moved "Option Explicit\r\n".toList) := by
  have hfirst : (parseModule "Option Explicit\r\n" Settings.standard).toOption.isSome = true := by
    decide +kernel
  have hsecond : (parseModule "Dim\n" Settings.standard).toOption.isSome = false := by
    decide +kernel
  have hcontinued : ¬ EndsInContinuation "Option Explicit\r\n".toList := by
    rintro ⟨before, blank, blanks, ending, htext, _⟩
    have hmem : '_' ∈ "Option Explicit\r\n".toList := by simp [htext]
    exact absurd hmem (by decide)
  obtain ⟨tree, htree⟩ := Option.isSome_iff_exists.mp hfirst
  have hparse := Grammar.eq_ok_of_toOption htree
  cases hd : parseModule "Dim\n" Settings.standard with
  | ok other =>
    rw [hd] at hsecond
    contradiction
  | error diagnostic =>
    refine ⟨tree, diagnostic, hparse, rfl, rfl, hcontinued, ?_⟩
    have happend := @parseModule_append _ "Dim\n" _ _ hparse rfl hcontinued
    rw [hd] at happend
    exact happend

end VisualBasic
