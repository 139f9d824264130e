import VisualBasic.Grammar.Expression
import VisualBasic.Proofs.Span.Layout

/-!
# Regions of expressions

A reader of an expression, and of each part of one, moves over a token and lays out the regions of
what it reads. `expression` is laid out because `expressionWith` is, given a reader that is.
-/

set_option autoImplicit false

namespace VisualBasic

namespace Grammar

open Cursor (Begun Token Slack Reaches Composes)

/-- A reader moves over a token, with the regions of its value in order on the way. -/
def Lays {α : Type} (reader : Reader α) (view : α → List Region) : Prop :=
  ∀ c value after, reader c = some (value, after) →
    Token c after ∧ InOrder c after (view value)

theorem Lays.length_le {α : Type} {reader : Reader α} {view : α → List Region}
    (h : Lays reader view) (c : Cursor) (value : α) (d : Cursor) (hm : reader c = some (value, d)) :
    d.rest.length ≤ c.rest.length :=
  (h c value d hm).1.reaches.length_le

theorem token_of_literal {c d : Cursor} {value : Literal} (h : literal c = some (value, d)) :
    Token c d := by
  simp only [literal, Option.or_eq_some_iff, Option.map_eq_some_iff] at h
  rcases h with (((h | ⟨_, found, h, hd⟩) | ⟨_, found, h, hd⟩) | ⟨_, found, h, hd⟩) |
    ⟨_, found, h, hd⟩
  · exact Cursor.token_of_number h
  · cases hd
    exact Cursor.token_of_quoted h
  all_goals
    cases hd
    exact Cursor.token_of_keyword h

theorem eq_ok_of_toOption {ε α : Type} {result : Except ε α} {value : α}
    (h : result.toOption = some value) : result = .ok value := by
  cases result with
  | error => contradiction
  | ok found =>
    cases h
    rfl

variable {expression : Reader Expression} (he : Lays expression Expression.regions)
include he

theorem moreArguments_lays {c d : Cursor} {values : List Expression}
    (h : moreArguments expression c = .ok (values, d)) :
    Token c d ∧ InOrder c d (expressionRegions values) := by
  fun_induction moreArguments expression c generalizing values d with
  | case1 => contradiction
  | case2 c argument after hm closed hc =>
    cases h
    obtain ⟨ht, hi⟩ := he _ _ _ hm
    have hc := Cursor.token_of_symbol (by decide) (by decide) hc
    exact ⟨ht.trans hc, by simpa [expressionRegions] using hi.before_reaches hc.reaches⟩
  | case3 => contradiction
  | case4 c argument after hm _ next hn hlt ih =>
    obtain ⟨⟨rest, closed⟩, hr, hd⟩ : ∃ found, moreArguments expression next = .ok found ∧
        (argument :: found.1, found.2) = (values, d) := by
      cases hr : moreArguments expression next with
      | error stopped => simp [hr, Except.map] at h
      | ok found => exact ⟨found, rfl, by simpa [hr, Except.map] using h⟩
    cases hd
    obtain ⟨ht, hi⟩ := he _ _ _ hm
    obtain ⟨ht', hi'⟩ := ih hr
    have hc := Cursor.begun_of_symbol (by decide) hn
    exact ⟨ht.trans (hc.token ht'), hi.append (hi'.after_reaches hc.reaches)⟩
  | case5 => contradiction

theorem arguments_lays {c d : Cursor} {values : List Expression}
    (h : arguments expression c = .ok (values, d)) :
    Token c d ∧ InOrder c d (expressionRegions values) := by
  unfold arguments at h
  split at h
  · rename_i hc
    cases h
    have hc := Cursor.token_of_symbol (by decide) (by decide) hc
    exact ⟨hc, .nil hc.reaches⟩
  · exact moreArguments_lays he h

theorem call_lays : Lays (call expression) Call.regions := by
  intro c value after h
  simp only [call, Option.bind_eq_bind, Option.bind_eq_some_iff] at h
  obtain ⟨⟨name, d⟩, hn, e, ho, ⟨arguments, f⟩, ha, h⟩ := h
  cases h
  have hn := Cursor.token_of_identifier hn
  have ho := Cursor.begun_of_symbol (by decide) ho
  obtain ⟨ht, hi⟩ := arguments_lays he (eq_ok_of_toOption ha)
  have ht := Cursor.token_skipBlanks_iff.mp (hn.trans (ho.token ht))
  exact ⟨ht, .token ht (hi.after_reaches (hn.reaches.trans ho.reaches))⟩

/-- A segment ends with its dot, so it is no token. -/
theorem segment_lays {c after : Cursor} {value : Segment}
    (h : segment expression c = some (value, after)) :
    Begun c after ∧ InOrder c after value.regions := by
  simp only [segment, Option.bind_eq_bind, Option.bind_eq_some_iff] at h
  obtain ⟨⟨found, d⟩, hs, e, hd, h⟩ := h
  cases h
  have hd := Cursor.begun_of_adjacent (by decide) hd
  simp only [Option.or_eq_some_iff, Option.map_eq_some_iff] at hs
  rcases hs with ⟨⟨call, d⟩, hc, h⟩ | ⟨_, ⟨name, d⟩, hn, h⟩
  · cases h
    obtain ⟨ht, hi⟩ := call_lays he _ _ _ hc
    exact ⟨ht.begun.trans hd, hi.before_reaches hd.reaches⟩
  · cases h
    have ht := (Cursor.token_of_identifier hn).begun.trans hd
    exact ⟨ht, .nil ht.reaches⟩

/-- Segments move over some text unless there are none. -/
theorem segments_lays (c : Cursor) :
    ((segments expression c).1 = [] ∧ (segments expression c).2 = c ∨
      Begun c (segments expression c).2) ∧
      InOrder c (segments expression c).2 (segmentRegions (segments expression c).1) := by
  fun_induction segments expression c with
  | case1 c h => exact ⟨.inl ⟨rfl, rfl⟩, .nil (Reaches.refl c)⟩
  | case2 c head d h _ tail e hd ih =>
    rw [hd] at ih
    obtain ⟨ht, hi⟩ := segment_lays he h
    refine ⟨.inr ?_, hi.append ih.2⟩
    rcases ih.1 with ⟨_, hsame⟩ | ht'
    · rw [hsame]
      exact ht
    · exact ht.trans ht'
  | case3 c head d h =>
    obtain ⟨ht, hi⟩ := segment_lays he h
    exact ⟨.inr ht, by simpa [segmentRegions] using hi⟩

/-- A qualifier starts at the next token, so one that is empty lies where the blanks end. -/
theorem qualifier_lays {c : Cursor} (hc : c.skipBlanks = c) :
    ((qualifier expression c).2 = c ∨ Begun c (qualifier expression c).2) ∧
      InOrder c (qualifier expression c).2 (qualifier expression c).1.regions := by
  obtain ⟨hs, hi⟩ := segments_lays he ((c.adjacent '.').getD c)
  unfold qualifier
  rw [hc]
  dsimp only
  split
  · exact ⟨.inl rfl, .cons (Reaches.refl c) (fun h => absurd h (by decide)) (.nil (Reaches.refl c))
      (.nil (Reaches.refl c))⟩
  · rename_i hne
    have ht : Begun c (segments expression ((c.adjacent '.').getD c)).2 := by
      cases hdot : c.adjacent '.' with
      | none =>
        rw [hdot] at hs hne
        rcases hs with ⟨hnil, _⟩ | ht
        · exact absurd hnil (by simpa using hne)
        · exact ht
      | some d =>
        have hd := Cursor.begun_of_adjacent (by decide) hdot
        rw [hdot] at hs
        rcases hs with ⟨_, hsame⟩ | ht
        · rw [hsame]
          exact hd
        · exact hd.trans ht
    have hstart : Reaches c ((c.adjacent '.').getD c) := by
      cases hdot : c.adjacent '.' with
      | none => exact Reaches.refl c
      | some d => exact Cursor.reaches_of_adjacent hdot
    exact ⟨.inr ht, .cons (Reaches.refl c) (fun _ => ⟨hc, ht⟩) (hi.after_reaches hstart)
      (.nil (Reaches.refl _))⟩

theorem reference_lays : Lays (reference expression) Reference.regions := by
  intro c value after h
  simp only [reference, Option.bind_eq_bind, Option.bind_eq_some_iff] at h
  obtain ⟨⟨name, d⟩, hn, h⟩ := h
  cases h
  obtain ⟨hs, hi⟩ := qualifier_lays he (Cursor.skipBlanks_skipBlanks c)
  have hn := Cursor.token_of_identifier hn
  have ht : Token c.skipBlanks d := by
    rcases hs with hsame | hs
    · rwa [hsame] at hn
    · exact hs.token hn
  have ht := Cursor.token_skipBlanks_iff.mp ht
  exact ⟨ht, .token ht (hi.before_reaches hn.reaches)⟩

theorem expressionWith_lays : Lays (expressionWith expression) Expression.regions := by
  intro c value after h
  simp only [expressionWith, Option.or_eq_some_iff, Option.map_eq_some_iff] at h
  rcases h with (⟨⟨literal, d⟩, hl, h⟩ | ⟨_, ⟨call, d⟩, hc, h⟩) | ⟨_, ⟨target, d⟩, hr, h⟩
  · cases h
    have ht := Cursor.token_skipBlanks_iff.mp (token_of_literal hl)
    exact ⟨ht, .token ht (.nil (Cursor.token_skipBlanks_iff.mpr ht).reaches)⟩
  · cases h
    obtain ⟨ht, hi⟩ := call_lays he _ _ _ hc
    exact ⟨Cursor.token_skipBlanks_iff.mp ht, hi.after_reaches (Cursor.reaches_skipBlanks c)⟩
  · cases h
    obtain ⟨ht, hi⟩ := reference_lays he _ _ _ hr
    exact ⟨Cursor.token_skipBlanks_iff.mp ht, hi.after_reaches (Cursor.reaches_skipBlanks c)⟩

omit he

theorem expression_lays : Lays Grammar.expression Expression.regions := by
  intro c
  fun_induction Grammar.expression c with
  | case1 c ih =>
    intro value after h
    refine expressionWith_lays (fun d value after hd => ?_) c value after h
    split at hd
    · exact ih d ‹_› value after hd
    · contradiction

end Grammar

end VisualBasic
