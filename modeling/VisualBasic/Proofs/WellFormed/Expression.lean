import VisualBasic.Proofs.Parse.Ensures
import VisualBasic.Proofs.Span.Expression
import VisualBasic.Proofs.WellFormed.Token

/-!
# Well-formed expressions

What a reader of expressions finds is well formed when what the reader inside it finds is. A
reference is only read where no call could be, at the same place, so its first segment is no call.
-/

set_option autoImplicit false

namespace VisualBasic

namespace Grammar

open Parse

/-- Whatever a reader finds satisfies `Q`. -/
def Finds {α : Type} (reader : Reader α) (Q : α → Prop) : Prop :=
  ∀ c value after, reader c = some (value, after) → Q value

theorem Finds.gives {α : Type} {reader : Reader α} {Q : α → Prop} (h : Finds reader Q) :
    Gives (read reader) Q := gives_read fun hread => h _ _ _ hread

theorem gives_identifier : Gives identifier IsIdentifier :=
  gives_read Cursor.isIdentifier_of_identifier

theorem gives_requireName (part : String) : Gives (requireName part) IsIdentifier :=
  gives_identifier.require.advise

theorem literal_wellFormed : Finds literal Literal.WellFormed := by
  intro c value after h
  simp only [literal, Option.or_eq_some_iff, Option.map_eq_some_iff] at h
  rcases h with (((h | ⟨_, found, h, hvalue⟩) | ⟨_, found, h, hvalue⟩) | ⟨_, found, h, hvalue⟩) |
    ⟨_, found, h, hvalue⟩
  · cases value with
    | string text =>
      have hnumber := Cursor.isNumber_of_number h
      contradiction
    | _ => trivial
  · cases hvalue
    exact Cursor.isUnbroken_of_quoted h
  all_goals
    cases hvalue
    trivial

variable {r : Reader Expression} (hr : Finds r Expression.WellFormed)
include hr

theorem moreArguments_wellFormed {c d : Cursor} {values : List Expression}
    (h : moreArguments r c = .ok (values, d)) : ∀ value ∈ values, value.WellFormed := by
  fun_induction moreArguments r c generalizing values d with
  | case1 => contradiction
  | case2 c argument after hm =>
    cases h
    intro value hvalue
    rcases List.mem_singleton.mp hvalue with rfl
    exact hr _ _ _ hm
  | case3 => contradiction
  | case4 c argument after hm _ next _ _ ih =>
    cases hrest : moreArguments r next with
    | error stopped => simp [hrest, Except.map] at h
    | ok found =>
      simp only [hrest, Except.map, Except.ok.injEq] at h
      cases h
      intro value hvalue
      rcases List.mem_cons.mp hvalue with rfl | hvalue
      · exact hr _ _ _ hm
      · exact ih hrest value hvalue
  | case5 => contradiction

theorem arguments_wellFormed {c d : Cursor} {values : List Expression}
    (h : arguments r c = .ok (values, d)) : ∀ value ∈ values, value.WellFormed := by
  unfold arguments at h
  split at h
  · cases h
    simp
  · exact moreArguments_wellFormed hr h

theorem call_wellFormed : Finds (call r) Call.WellFormed := by
  intro c value after h
  simp only [call, Option.bind_eq_bind, Option.bind_eq_some_iff] at h
  obtain ⟨⟨name, d⟩, hname, e, _, ⟨arguments, f⟩, harguments, h⟩ := h
  cases h
  constructor
  · exact Cursor.isIdentifier_of_identifier hname
  · exact arguments_wellFormed hr (eq_ok_of_toOption harguments)

theorem segment_wellFormed : Finds (segment r) Segment.WellFormed := by
  intro c value after h
  simp only [segment, Option.bind_eq_bind, Option.bind_eq_some_iff] at h
  obtain ⟨⟨found, d⟩, hfound, e, _, h⟩ := h
  cases h
  simp only [Option.or_eq_some_iff, Option.map_eq_some_iff] at hfound
  rcases hfound with ⟨⟨call, d⟩, hcall, h⟩ | ⟨_, ⟨name, d⟩, hname, h⟩
  · cases h
    exact .call (call_wellFormed hr _ _ _ hcall)
  · cases h
    exact .name (Cursor.isIdentifier_of_identifier hname)

theorem segments_wellFormed (c : Cursor) :
    ∀ segment ∈ (segments r c).1, segment.WellFormed := by
  fun_induction segments r c with
  | case1 => simp
  | case2 c head d hhead _ tail e htail ih =>
    rw [htail] at ih
    intro segment hsegment
    rcases List.mem_cons.mp hsegment with rfl | hsegment
    · exact segment_wellFormed hr _ _ _ hhead
    · exact ih segment hsegment
  | case3 c head d hhead =>
    intro segment hsegment
    rcases List.mem_singleton.mp hsegment with rfl
    exact segment_wellFormed hr _ _ _ hhead

theorem qualifier_wellFormed (c : Cursor) :
    ∀ segment ∈ (qualifier r c).1.segments, segment.WellFormed := by
  unfold qualifier
  dsimp only
  split
  · simp [Qualifier.none]
  · exact segments_wellFormed hr _

theorem reference_wellFormed : Finds (reference r) Reference.WellFormed := by
  intro c value after h
  simp only [reference, Option.bind_eq_bind, Option.bind_eq_some_iff] at h
  obtain ⟨⟨name, d⟩, hname, h⟩ := h
  cases h
  constructor
  · exact qualifier_wellFormed hr _
  · exact Cursor.isIdentifier_of_identifier hname

omit hr

/-- Where no call can be read, neither can a segment that is one. -/
theorem segments_uncalled {c : Cursor} (h : call r c = none) (call : Call) :
    (segments r c).1.head? ≠ some (.call call) := by
  intro hhead
  have hsegment {found : Segment} {d : Cursor} (hfound : segment r c = some (found, d)) :
      found ≠ .call call := by
    simp only [segment, h, Option.map_none, Option.none_or, Option.bind_eq_bind,
      Option.bind_eq_some_iff, Option.map_eq_some_iff] at hfound
    obtain ⟨⟨other, e⟩, ⟨⟨name, f⟩, _, hother⟩, _, _, hfound⟩ := hfound
    cases hother
    cases hfound
    simp
  rw [segments] at hhead
  split at hhead
  · contradiction
  · rename_i head d hfound
    split at hhead
    all_goals
      cases hhead
      exact hsegment hfound rfl

theorem reference_uncalled {c after : Cursor} {target : Reference}
    (h : call r c.skipBlanks = none) (ht : reference r c.skipBlanks = some (target, after)) :
    target.qualifier.firstCall = none := by
  simp only [reference, Option.bind_eq_bind, Option.bind_eq_some_iff] at ht
  obtain ⟨⟨name, d⟩, _, ht⟩ := ht
  cases ht
  simp only [qualifier, Cursor.skipBlanks_skipBlanks]
  cases hdot : c.skipBlanks.adjacent '.' with
  | some d => simp [Qualifier.firstCall]
  | none =>
    have huncalled := segments_uncalled h
    simp only [Option.getD_none, Option.isNone_none, Bool.true_and]
    split
    · rfl
    · cases hfound : (segments r c.skipBlanks).1 with
      | nil => rfl
      | cons head tail =>
        cases head with
        | name text => rfl
        | call call => exact absurd (by rw [hfound]; rfl) (huncalled call)

include hr

theorem expressionWith_wellFormed : Finds (expressionWith r) Expression.WellFormed := by
  intro c value after h
  simp only [expressionWith, Option.or_eq_some_iff, Option.or_eq_none_iff, Option.map_eq_some_iff,
    Option.map_eq_none_iff] at h
  rcases h with (⟨⟨literal, d⟩, hliteral, h⟩ | ⟨_, ⟨call, d⟩, hcall, h⟩) |
    ⟨⟨_, huncalled⟩, ⟨target, d⟩, htarget, h⟩
  · cases h
    exact .literal (literal_wellFormed _ _ _ hliteral)
  · cases h
    exact .call (call_wellFormed hr _ _ _ hcall)
  · cases h
    exact .reference (reference_wellFormed hr _ _ _ htarget) (reference_uncalled huncalled htarget)

omit hr

theorem expression_wellFormed : Finds expression Expression.WellFormed := by
  intro c
  fun_induction expression c with
  | case1 c ih =>
    intro value after h
    refine expressionWith_wellFormed (fun d value after hd => ?_) c value after h
    split at hd
    · exact ih d ‹_› value after hd
    · contradiction

end Grammar

end VisualBasic
