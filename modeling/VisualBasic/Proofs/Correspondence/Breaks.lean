import VisualBasic.Proofs.Correspondence.Module
import VisualBasic.Proofs.Cursor.Place
import VisualBasic.Proofs.Text.Breaks
import VisualBasic.Proofs.Text.Gap

/-!
# Parsing whatever ends the lines

The places of a source that divide no line break are aligned with those of the source in which every
break is LF. No parser stops inside a CR LF, so parsing either source comes to the same.
-/

set_option autoImplicit false

namespace VisualBasic

open Cursor (between)

/-- A place that divides no break, and the same place once the breaks are unified. -/
inductive Unified (source : List Char) : Cursor → Cursor → Prop
  | intro {before after : List Char} (source_eq : source = before ++ after)
    (undivided : Undivided before after) :
    Unified source (between before after) (between (unifyBreaks before) (unifyBreaks after))

variable {source before text after rest : List Char} {c d : Cursor} {char : Char}

/-! ## Line breaks -/

/-- The break that a text starts with. -/
theorem exists_break (hc : isBreak char = true) (rest : List Char) :
    ∃ ending after, char :: rest = ending ++ after ∧ breakWidth (char :: rest) = ending.length ∧
      ending ≠ [] ∧ unifyBreaks ending = ['\n'] ∧ Undivided ending after := by
  simp only [isBreak, Bool.or_eq_true, decide_eq_true_eq] at hc
  rcases hc with rfl | rfl
  · exact ⟨['\n'], rest, rfl, rfl, by simp, rfl, fun h => by simp at h⟩
  · by_cases hrest : rest.head? = some '\n'
    · obtain ⟨after, rfl⟩ := List.head?_eq_some_iff.mp hrest
      exact ⟨['\r', '\n'], after, rfl, rfl, by simp, rfl, fun h => by simp at h⟩
    · refine ⟨['\r'], rest, rfl, ?_, by simp, rfl, fun _ => hrest⟩
      cases rest with
      | nil => rfl
      | cons next rest =>
        have hnext : next ≠ '\n' := by simpa using hrest
        simp [breakWidth, hnext]

/-- A continuation ends in a break, before and after the breaks are unified. -/
theorem continuationWidth_unifyBreaks (rest : List Char) :
    (continuationWidth rest = none ∧ continuationWidth (unifyBreaks rest) = none) ∨
      ∃ text after, rest = text ++ after ∧ continuationWidth rest = some text.length ∧
        continuationWidth (unifyBreaks rest) = some (unifyBreaks text).length ∧
        text ≠ [] ∧ Undivided text after := by
  have hblank : ∀ c, isBreak c = true → isBlank c = false := fun c =>
    Cursor.isBlank_eq_false_of_isBreak
  have hsplit := (List.takeWhile_append_dropWhile (p := isBlank) (l := rest)).symm
  simp only [continuationWidth, drop_length_takeWhile, dropWhile_unifyBreaks hblank]
  rw [takeWhile_unifyBreaks hblank]
  have hblanks : Unbroken (rest.takeWhile isBlank) := fun c hc =>
    isBreak_eq_false_of_isBlank (of_mem_takeWhile hc)
  have hend := any_head?_dropWhile isBlank rest
  generalize rest.takeWhile isBlank = blanks at hsplit hblanks ⊢
  generalize rest.dropWhile isBlank = tail at hsplit hend ⊢
  cases tail with
  | nil => exact .inl ⟨rfl, rfl⟩
  | cons char tail =>
    cases hchar : isBreak char with
    | false =>
      rw [unifyBreaks_cons hchar, breakWidth_eq_zero hchar, breakWidth_eq_zero hchar]
      exact .inl ⟨rfl, rfl⟩
    | true =>
      obtain ⟨ending, after, htail, hwidth, hne, hunify, hcut⟩ := exists_break hchar tail
      obtain ⟨n, hn⟩ := Nat.exists_eq_succ_of_ne_zero (mt List.length_eq_zero_iff.mp hne)
      refine .inr ⟨blanks ++ ending, after, ?_, ?_, ?_, by simp [hne],
        (undivided_append_iff hne).mpr hcut⟩
      · rw [hsplit, htail, List.append_assoc]
      · rw [hwidth, hn, List.length_append, hn]
        rfl
      · rw [htail, unifyBreaks_append hcut, hblanks.unifyBreaks_append, hunify, List.length_append]
        rfl

theorem AtLineEnd.unifyBreaks (h : AtLineEnd rest) : AtLineEnd (VisualBasic.unifyBreaks rest) := by
  cases rest with
  | nil => rfl
  | cons c rest =>
    have hc : isBreak c = true := by simpa [AtLineEnd] using h
    obtain ⟨rest', hrest⟩ := exists_unifyBreaks hc rest
    rw [hrest]
    rfl

/-! ## Unified places -/

namespace Unified

theorem move (hs : source = before ++ (text ++ after)) (hu : Undivided before (text ++ after))
    (hne : text ≠ []) (ht : Undivided text after) :
    Unified source ((between before (text ++ after)).skip text.length)
      ((between (unifyBreaks before) (unifyBreaks (text ++ after))).skip
        (unifyBreaks text).length) := by
  have hbefore : Undivided before text := by
    intro hlast
    have hhead := hu hlast
    cases text with
    | nil => exact absurd rfl hne
    | cons => exact hhead
  rw [unifyBreaks_append ht, Cursor.skip_between, Cursor.skip_between, ← unifyBreaks_append hbefore]
  exact .intro (by rw [hs, List.append_assoc]) ((undivided_append_iff hne).mpr ht)

/-- Along a line the places stay level. -/
theorem moveUnbroken (hs : source = before ++ (text ++ after))
    (hu : Undivided before (text ++ after)) (ht : Unbroken text) :
    Unified source ((between before (text ++ after)).skip text.length)
      ((between (unifyBreaks before) (unifyBreaks (text ++ after))).skip text.length) := by
  by_cases hne : text = []
  · subst hne
    exact .intro hs hu
  · have hcut : Undivided text after := (undivided_append_iff hne).mp (hu.append ht)
    have hmove := move hs hu hne hcut
    rwa [ht.unifyBreaks_eq] at hmove

theorem skip (h : Unified source c d) {n : Nat} (hn : n ≤ (c.rest.takeWhile (! isBreak ·)).length) :
    Unified source (c.skip n) (d.skip n) := by
  obtain @⟨before, after, hs, hu⟩ := h
  have hpart : Unbroken (after.take n) := by
    have htake : after.take n = (after.takeWhile (! isBreak ·)).take n :=
      (congrArg (List.take n) List.takeWhile_append_dropWhile.symm).trans
        (List.take_append_of_le_length hn)
    intro c hc
    rw [htake] at hc
    simpa using of_mem_takeWhile (List.mem_of_mem_take hc)
  have hlength : (after.take n).length = n := by
    have hle : n ≤ after.length := Nat.le_trans hn (List.takeWhile_prefix (! isBreak ·)).length_le
    rw [List.length_take, Nat.min_eq_left hle]
  have hcut : after = after.take n ++ after.drop n := (List.take_append_drop n after).symm
  have hmove := moveUnbroken (hcut ▸ hs) (hcut ▸ hu) hpart
  rwa [← hcut, hlength] at hmove

theorem abreast (h : Unified source c d) :
    Abreast (Unified source) c d (c.rest.takeWhile (! isBreak ·)) (c.rest.dropWhile (! isBreak ·))
      (unifyBreaks (c.rest.dropWhile (! isBreak ·))) := by
  have hline : Unbroken (c.rest.takeWhile (! isBreak ·)) := fun c hc => by
    simpa using of_mem_takeWhile hc
  have hmore := atLineEnd_dropWhile c.rest
  refine ⟨List.takeWhile_append_dropWhile.symm, ?_, hmore.apart, hmore.unifyBreaks.apart, by simp,
    fun hn _ => h.skip hn⟩
  rw [← hline.unifyBreaks_append, List.takeWhile_append_dropWhile]
  obtain @⟨before, after, hs, hu⟩ := h
  rfl

theorem lineBreak (h : Unified source c d) :
    Option.Rel (Unified source) c.lineBreak d.lineBreak := by
  obtain @⟨before, after, hs, hu⟩ := h
  cases after with
  | nil =>
    rw [Cursor.lineBreak_eq_none rfl, Cursor.lineBreak_eq_none rfl]
    exact .none
  | cons char rest =>
    cases hchar : isBreak char with
    | false =>
      rw [Cursor.lineBreak_eq_none (breakWidth_eq_zero hchar rest), unifyBreaks_cons hchar,
        Cursor.lineBreak_eq_none (breakWidth_eq_zero hchar _)]
      exact .none
    | true =>
      obtain ⟨ending, after, hrest, hwidth, hne, hunify, hcut⟩ := exists_break hchar rest
      have hmove := move (hrest ▸ hs) (hrest ▸ hu) hne hcut
      have hright : breakWidth (unifyBreaks (char :: rest)) = 1 := by
        rw [hrest, unifyBreaks_append hcut, hunify]
        rfl
      rw [Cursor.lineBreak_eq_some hwidth (mt List.length_eq_zero_iff.mp hne),
        Cursor.lineBreak_eq_some hright Nat.one_ne_zero]
      rw [hunify, ← hrest] at hmove
      exact .some hmove

/-- A blank or a continuation is passed over on either side, or neither has one. -/
theorem passWidth (h : Unified source c d) :
    Option.Rel (fun m n => Unified source (c.skip m) (d.skip n)) c.passWidth d.passWidth := by
  have hblank : ∀ c, isBreak c = true → isBlank c = false := fun c =>
    Cursor.isBlank_eq_false_of_isBreak
  obtain @⟨before, after, hs, hu⟩ := h
  cases after with
  | nil =>
    rw [Cursor.passWidth_of_nil rfl, Cursor.passWidth_of_nil rfl]
    exact .none
  | cons char rest =>
    have hafter : (between (unifyBreaks before) (unifyBreaks (char :: rest))).afterBlank =
        (between before (char :: rest)).afterBlank := getLast?_unifyBreaks_any hblank before
    cases hbreak : isBreak char with
    | true =>
      obtain ⟨rest', hrest⟩ := exists_unifyBreaks hbreak rest
      rw [Cursor.passWidth_of_still (c := between before (char :: rest)) rfl (hblank char hbreak)
          (by rintro ⟨-, rfl⟩; exact absurd hbreak (by decide)),
        Cursor.passWidth_of_still (c := between _ (unifyBreaks (char :: rest))) hrest rfl
          (fun h => absurd h.2 (by decide))]
      exact .none
    | false =>
      have hunify : unifyBreaks (char :: rest) = char :: unifyBreaks rest :=
        unifyBreaks_cons hbreak rest
      cases hchar : isBlank char with
      | true =>
        have hunbroken : Unbroken [char] := fun c hc => by rwa [List.mem_singleton.mp hc]
        rw [Cursor.passWidth_of_blank (c := between before (char :: rest)) rfl hchar,
          Cursor.passWidth_of_blank (c := between _ (unifyBreaks (char :: rest))) hunify hchar]
        exact .some (moveUnbroken hs hu hunbroken)
      | false =>
        by_cases hunder : (between before (char :: rest)).afterBlank = true ∧ char = '_'
        · obtain ⟨hb, rfl⟩ := hunder
          rw [Cursor.passWidth_of_underscore (c := between before ('_' :: rest)) rfl hb,
            Cursor.passWidth_of_underscore (c := between _ (unifyBreaks ('_' :: rest))) hunify
              (hafter.trans hb)]
          rcases continuationWidth_unifyBreaks rest with
            ⟨hleft, hright⟩ | ⟨text, after, hrest, hleft, hright, hne, hcut⟩
          · rw [hleft, hright]
            exact .none
          · have hcons : '_' :: rest = ('_' :: text) ++ after := by rw [hrest, List.cons_append]
            have hcut' : Undivided ('_' :: text) after :=
              (@undivided_append_iff ['_'] after text hne).mpr hcut
            have hmove := @move source before ('_' :: text) after (hcons ▸ hs) (hcons ▸ hu)
              (by simp) hcut'
            rw [← hcons, unifyBreaks_cons rfl, List.length_cons, List.length_cons] at hmove
            rw [hleft, hright]
            exact .some hmove
        · rw [Cursor.passWidth_of_still (c := between before (char :: rest)) rfl hchar hunder,
            Cursor.passWidth_of_still (c := between _ (unifyBreaks (char :: rest))) hunify hchar
              (hafter ▸ hunder)]
          exact .none

theorem skipBlanks (h : Unified source c d) : Unified source c.skipBlanks d.skipBlanks :=
  Cursor.rel_skipBlanks (fun _ _ h => .inr h.passWidth) h

theorem blankLine (h : Unified source c d) :
    Option.Rel (Unified source) c.blankLine d.blankLine := by
  have hblank : ∀ c, isBreak c = true → isBlank c = false := fun c =>
    Cursor.isBlank_eq_false_of_isBreak
  have hskip := h.skip (length_takeWhile_le (p := isBlank)
    (fun c hc => by simp [isBreak_eq_false_of_isBlank hc]) c.rest)
  obtain @⟨before, after, hs, hu⟩ := h
  unfold Cursor.blankLine
  rw [Cursor.rest_between, Cursor.rest_between, takeWhile_unifyBreaks hblank]
  exact lineBreak hskip

theorem quoted (h : Unified source c d) (hc : c.skipBlanks = c) (hd : d.skipBlanks = d) :
    Option.Rel (Valued (Level (Unified source) c d)) c.quoted d.quoted :=
  h.abreast.quoted hc hd (atLineEnd_dropWhile c.rest) (atLineEnd_dropWhile c.rest).unifyBreaks

theorem comment (h : Unified source c d) (hc : c.skipBlanks = c) (hd : d.skipBlanks = d) :
    Option.Rel (Valued (Unified source)) c.comment d.comment :=
  h.abreast.comment hc hd (atLineEnd_dropWhile c.rest) (atLineEnd_dropWhile c.rest).unifyBreaks
    fun c hc => by
    simpa using of_mem_takeWhile hc

/-- Of two places the later one has less text before it and after it, unified or not. -/
theorem shorter_iff {c' d' : Cursor} (h : Unified source c d) (h' : Unified source c' d') :
    c'.rest.length < c.rest.length ↔ d'.rest.length < d.rest.length := by
  have shorter {before after before' after' : List Char} (hs : before ++ after = before' ++ after')
      (hu' : Undivided before' after') (hlt : after'.length < after.length) :
      (unifyBreaks after').length < (unifyBreaks after).length := by
    rcases List.append_eq_append_iff.mp hs with ⟨text, rfl, rfl⟩ | ⟨text, rfl, rfl⟩
    · have hne : text ≠ [] := by
        rintro rfl
        simp at hlt
      have hpos := List.length_pos_iff.mpr (mt unifyBreaks_eq_nil_iff.mp hne)
      rw [unifyBreaks_append ((undivided_append_iff hne).mp hu'), List.length_append]
      omega
    · rw [List.length_append] at hlt
      omega
  obtain @⟨before, after, hs, hu⟩ := h
  obtain @⟨before', after', hs', hu'⟩ := h'
  have hsource := hs.symm.trans hs'
  simp only [Cursor.rest_between]
  constructor
  · exact shorter hsource hu'
  · intro hlt
    rcases Nat.lt_trichotomy after'.length after.length with hless | hequal | hmore
    · exact hless
    · rw [(List.append_inj' hsource hequal.symm).2] at hlt
      omega
    · have := shorter hsource.symm hu hmore
      omega

end Unified

/-- The places of a source, and those of the source with its breaks unified. -/
def Alignment.breaks (source : List Char) : Alignment where
  meets := Unified source
  begins _ := True
  shorter_iff := Unified.shorter_iff
  abreast h := ⟨_, _, _, h.abreast⟩
  skipBlanks := Unified.skipBlanks
  lineBreak := Unified.lineBreak
  blankLine := Unified.blankLine
  quoted := Unified.quoted
  comment h hc hd _ := h.comment hc hd

/-- A source and the same source with its breaks unified, up to spans. -/
def Correspondence.breaks (source : List Char) : Correspondence :=
  .aligned (.breaks source) fun _ => trivial

namespace Grammar

/-- A whole source and the same source with its breaks unified. -/
theorem module_unifyBreaks (source : List Char) :
    (Correspondence.breaks source).Follows .sure ((Correspondence.breaks source).On Module.relabel)
      (module [] (Cursor.start source)) (module [] (Cursor.start (unifyBreaks source))) := by
  have hstart : Unified source (Cursor.start source) (Cursor.start (unifyBreaks source)) :=
    .intro rfl (undivided_nil source)
  exact keeps_module (K := .breaks source) trivial [] [] _ _ (fun _ => rfl)
    (Alignment.alive_iff.mpr hstart)

end Grammar

end VisualBasic
