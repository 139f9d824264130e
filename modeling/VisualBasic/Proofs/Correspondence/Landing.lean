import VisualBasic.Proofs.Correspondence.Module

/-!
# Where constructs land

A sentence ends where its terminator starts, and whatever the terminator is, what the sentence is
made of is the same on both sides of a correspondence. So a construct of the left text is one of the
right as soon as any terminator comes there, unless the left one ends past the right text.
-/

set_option autoImplicit false

namespace VisualBasic

open Cursor (Reaches)
open Parse

/-- Where a construct ends on the left, it ends on the right if a terminator comes there. -/
def Correspondence.Lands (K : Correspondence) {α γ : Type} (p : Parse α) (g : Relabel → α → γ)
    (span : α → Span) : Prop :=
  ∀ inside inside' c d value after, (K.isStrict → inside = inside') → K.Alive c d →
    p inside c = .matched value after → ∃ stop, span value = c.skipBlanks.spanTo stop ∧
      (K.past stop ∨ ∃ part last, K.meets stop last ∧ K.On g value part ∧
        ∀ closed, last.terminator = some closed → p inside' d = .matched part closed)

namespace Pairing

variable {K : Correspondence} {α β γ : Type} {p q : Parse α} {g : Relabel → α → γ} {span : α → Span}

theorem spanned_eq {p : Parse (Span → α)} {inside : List Construct} {c d : Cursor}
    {build : Span → α} (h : p inside c.skipBlanks = .matched build d) :
    spanned p inside c = .matched (build (c.skipBlanks.spanTo d)) d := by
  simp only [spanned, mark, here, bind_apply, h]
  rfl

theorem requireTerminator_eq {inside : List Construct} {c d : Cursor} (h : c.terminator = some d) :
    requireTerminator inside c = .matched () d := by
  simp only [requireTerminator, require, orElse, Parse.pass, h]

theorem sentence_eq {construct : Construct} {p : Parse (Span → α)} {inside : List Construct}
    {c stop after : Cursor} {build : Span → α}
    (h : p (construct :: inside) c.skipBlanks = .matched build stop)
    (hend : stop.terminator = some after) :
    sentence construct p inside c = .matched (build (c.skipBlanks.spanTo stop)) after := by
  simp only [sentence, within, bind_apply, spanned_eq h, requireTerminator_eq hend]
  rfl

theorem lands_sentence (h : KeepsSentence K p g span) : K.Lands p g span := by
  intro inside inside' c d value after hin hcd hm
  obtain ⟨construct, inner, inner', rfl, heq, hbuilds, htracks⟩ := h
  obtain ⟨build, stop, hbuild, rfl, hend⟩ := matched_sentence hm
  have hstart := K.skipBlanks hcd
  have hinside : K.isStrict → construct :: inside = construct :: inside' := fun hs => by rw [hin hs]
  have hspan := hbuilds _ _ _ _ hbuild (c.skipBlanks.spanTo stop)
  have hfollows := htracks _ _ _ _ hinside hstart
  rw [hbuild] at hfollows
  generalize hother : inner' (construct :: inside') d.skipBlanks = outcome at hfollows
  refine ⟨stop, hspan, ?_⟩
  cases hfollows with
  | matched hvalue hjoins =>
    refine .inr ⟨_, _, hjoins.1, hvalue _ _ (K.span_eq hstart.1 hjoins.1), fun closed hclosed => ?_⟩
    rw [heq]
    exact sentence_eq hother hclosed
  | stranded hstrays =>
    rcases hstrays with ⟨hloose, _⟩ | ⟨_, hpast⟩
    · contradiction
    · exact .inl hpast

end Pairing

namespace Correspondence

variable {K : Correspondence} {α β γ δ : Type} {p q : Parse α} {g : Relabel → α → γ}
    {span : α → Span}

theorem Lands.map {f : α → β} {g' : Relabel → β → δ} {span' : β → Span} (h : K.Lands p g span)
    (hspan : ∀ value, span' (f value) = span value)
    (hf : ∀ v w, g K.left v = g K.right w → g' K.left (f v) = g' K.right (f w)) :
    K.Lands (f <$> p) g' span' := by
  intro inside inside' c d value after hin hcd hm
  obtain ⟨first, middle, hfirst, hm⟩ := matched_bind hm
  cases hm
  obtain ⟨stop, hplace, hend⟩ := h inside inside' c d first _ hin hcd hfirst
  refine ⟨stop, (hspan first).trans hplace, hend.imp id ?_⟩
  rintro ⟨part, last, hmeets, hvalue, hmatched⟩
  refine ⟨f part, last, hmeets, hf _ _ hvalue, fun closed hclosed => ?_⟩
  change (p >>= fun value => pure (f value)) inside' d = _
  rw [bind_apply, hmatched closed hclosed]
  rfl

theorem Lands.orElse (hp : K.Lands p g span) (htracks : K.Keeps .ends p g) (hq : K.Lands q g span) :
    K.Lands (p.orElse q) g span := by
  intro inside inside' c d value after hin hcd hm
  unfold Parse.orElse at hm ⊢
  split at hm
  · rename_i hunmatched
    obtain ⟨stop, hplace, hend⟩ := hq inside inside' c d value after hin hcd hm
    have hother : p inside' d = .unmatched :=
      (hunmatched ▸ htracks inside inside' c d hin hcd).of_unmatched
    refine ⟨stop, hplace, hend.imp id ?_⟩
    rintro ⟨part, last, hmeets, hvalue, hmatched⟩
    refine ⟨part, last, hmeets, hvalue, fun closed hclosed => ?_⟩
    rw [hother]
    exact hmatched closed hclosed
  · obtain ⟨stop, hplace, hend⟩ := hp inside inside' c d value after hin hcd hm
    refine ⟨stop, hplace, hend.imp id ?_⟩
    rintro ⟨part, last, hmeets, hvalue, hmatched⟩
    refine ⟨part, last, hmeets, hvalue, fun closed hclosed => ?_⟩
    rw [hmatched closed hclosed]

end Correspondence

namespace Grammar

open Pairing

variable {K : Correspondence}

theorem wholeArguments_eq_some_iff {c stop after : Cursor} {values : List Expression} :
    wholeArguments c = some ((values, stop), after) ↔ ∃ d, c.symbol '(' = some d ∧
      arguments expression d = .ok (values, stop) ∧ stop.terminator = some after := by
  simp only [wholeArguments, Option.bind_eq_bind, Option.bind_eq_some_iff]
  constructor
  · rintro ⟨d, hd, ⟨found, e⟩, hfound, f, hf, h⟩
    cases h
    exact ⟨d, hd, eq_ok_of_toOption hfound, hf⟩
  · rintro ⟨d, hd, hlist, hend⟩
    exact ⟨d, hd, (values, stop), by rw [hlist]; rfl, after, hend, rfl⟩

theorem lands_wholeArguments {c d stop after : Cursor} {values : List Expression}
    (hcd : K.Alive c d)
    (hm : wholeArguments c = some ((values, stop), after)) :
    ∃ others last, K.meets stop last ∧
      K.On (fun r values => values.map (Expression.relabel r)) values others ∧
        ∀ closed, last.terminator = some closed → wholeArguments d =
        some ((others, last), closed) := by
  obtain ⟨e, hopen, hlist, hend⟩ := wholeArguments_eq_some_iff.mp hm
  have hsymbol : Option.Rel (Clear K.toLexicon) (c.symbol '(') (d.symbol '(') :=
    rel_symbol_clear (by decide) (by decide) hcd
  rw [hopen] at hsymbol
  generalize hopen' : d.symbol '(' = y at hsymbol
  cases hsymbol with
  | @some _ f hef =>
    have hlisted := arguments_listed expression_lays expression_lays expression_agrees hef
    rw [hlist] at hlisted
    generalize hlist' : arguments expression f = y at hlisted
    cases hlisted with
    | @ok _ others _ last hvalues halive =>
      exact ⟨others, last, halive.1, hvalues, fun closed hclosed =>
        wholeArguments_eq_some_iff.mpr ⟨f, hopen', hlist', hclosed⟩⟩

theorem wholeArguments_eq_none {c d : Cursor} (hcd : K.Alive c d) (h : wholeArguments c = none) :
    wholeArguments d = none := by
  rcases wholeArguments_reads hcd with ⟨e, he, _⟩ | hreads
  · rw [h] at he
    contradiction
  · rw [h] at hreads
    generalize wholeArguments d = y at hreads ⊢
    cases hreads
    rfl

theorem lands_looseArguments {inside inside' : List Construct} {c d stop after : Cursor}
    {values : List Expression} (hin : K.isStrict → inside = inside') (hcd : K.Alive c d)
    (hm : looseArguments inside c = .matched (values, stop) after) :
    K.past stop ∨ ∃ others last, K.meets stop last ∧
      K.On (fun r values => values.map (Expression.relabel r)) values others ∧
        ∀ closed, last.terminator = some closed →
          looseArguments inside' d = .matched (others, last) closed := by
  obtain ⟨found, e, hfound, hm⟩ := matched_bind hm
  obtain ⟨place, f, hplace, hm⟩ := matched_bind hm
  cases hplace
  obtain ⟨_, f, hend, hm⟩ := matched_bind hm
  cases hm
  have hfollows := keeps_expressionList.opt inside inside' c d hin hcd
  rw [hfound] at hfollows
  generalize hother : opt expressionList inside' d = outcome at hfollows
  cases hfollows with
  | @matched _ found' _ last hvalue hjoins =>
    refine .inr ⟨found'.getD [], last, hjoins.1, map_getD_nil hvalue, fun closed hclosed => ?_⟩
    simp only [looseArguments, here, bind_apply, hother, requireTerminator_eq hclosed]
    rfl
  | stranded hstrays =>
    rcases hstrays with ⟨hloose, _⟩ | ⟨_, hpast⟩
    · contradiction
    · exact .inl hpast

/-- The arguments of a call in parentheses, or without. -/
theorem lands_callArguments {inside inside' : List Construct} {c d stop after : Cursor}
    {values : List Expression} (hin : K.isStrict → inside = inside') (hcd : K.Alive c d)
    (hm : orElse (read wholeArguments) looseArguments inside c = .matched (values, stop) after) :
    K.past stop ∨ ∃ others last, K.meets stop last ∧
      K.On (fun r values => values.map (Expression.relabel r)) values others ∧
        ∀ closed, last.terminator = some closed →
          orElse (read wholeArguments) looseArguments inside' d =
          .matched (others, last) closed := by
  unfold orElse at hm ⊢
  cases hwhole : wholeArguments c with
  | some found =>
    obtain ⟨found, rest⟩ := found
    have hread : read wholeArguments inside c = .matched found rest := by
      rw [Parse.read, hwhole]
    rw [hread] at hm
    cases hm
    obtain ⟨others, last, hmeets, hvalues, hother⟩ := lands_wholeArguments hcd hwhole
    refine .inr ⟨others, last, hmeets, hvalues, fun closed hclosed => ?_⟩
    rw [Parse.read, hother closed hclosed]
  | none =>
    have hread : read wholeArguments inside c = .unmatched := by rw [Parse.read, hwhole]
    have hother : read wholeArguments inside' d = .unmatched := by
      rw [Parse.read, wholeArguments_eq_none hcd hwhole]
    rw [hread] at hm
    rw [hother]
    exact lands_looseArguments hin hcd hm

theorem lands_implicitCall : K.Lands implicitCall Statement.relabel Statement.span := by
  intro inside inside' c d value after hin hcd hm
  have hstart := K.skipBlanks hcd
  have hinside : K.isStrict → .call :: inside = .call :: inside' := fun hs => by rw [hin hs]
  obtain ⟨start, e, hplace, hm⟩ := matched_bind hm
  cases hplace
  obtain ⟨name, e, hname, hm⟩ := matched_bind hm
  obtain ⟨⟨values, stop⟩, f, harguments, hm⟩ := matched_bind hm
  cases hm
  refine ⟨stop, rfl, ?_⟩
  have hread := matched_read hname
  rcases procedureName_pairs _ _ hstart with ⟨hlapse, _⟩ | hreads
  · rw [hread] at hlapse
    obtain ⟨_, heq, hpast⟩ := hlapse
    cases heq
    exact .inl (K.past_of_reaches hpast (callArguments_regions harguments).1.reaches)
  · rw [hread] at hreads
    generalize hread' : procedureName d.skipBlanks = y at hreads
    cases hreads with
    | @some _ other hother =>
      obtain ⟨name', e'⟩ := other
      obtain ⟨hname', hjoins⟩ := hother
      have halive : K.Alive e e' := hjoins.alive rfl
      refine (lands_callArguments hinside halive harguments).imp id ?_
      rintro ⟨others, last, hmeets, hvalues, hmatched⟩
      refine ⟨.call name' others false (d.skipBlanks.spanTo last), last, hmeets, ?_,
        fun closed hclosed => ?_⟩
      · have hspan := K.span_eq hstart.1 hmeets
        simp_all only [On, Statement.relabel]
      · have hname' : read procedureName (.call :: inside') d.skipBlanks = .matched name' e' := by
          rw [Parse.read, hread']
        simp only [implicitCall, within, mark, bind_apply, hname', hmatched closed hclosed]
        rfl

end Grammar

end VisualBasic
