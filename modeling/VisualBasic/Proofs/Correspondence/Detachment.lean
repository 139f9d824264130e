import VisualBasic.Proofs.Correspondence.Excerpt
import VisualBasic.Proofs.Correspondence.Landing
import VisualBasic.Proofs.Correspondence.Staying
import VisualBasic.Proofs.Gap.Frame
import VisualBasic.Proofs.Text.Condense

/-!
# Constructs by themselves

A construct that ends where its terminator starts is an excerpt of the source, and the end of the
excerpt is as good a terminator. So the text under its span is matched by itself, to the end, and
what comes of it is the construct with its spans moved.
-/

set_option autoImplicit false

namespace VisualBasic

open Cursor (start Reaches Token Balanced)
open Parse

/-- A text under the span of a value is matched by itself, to the end, and comes to that value. -/
structure Detached {α : Type} (p : Parse α) (g : Relabel → α → α) (span : α → Span) (value : α)
    (origin : Cursor) (text : List Char) : Prop where
  rest : ∃ more, origin.rest = text ++ more
  span_eq : span value = origin.spanTo (origin.skip text.length)
  matched (inside : List Construct) : ∃ part last, p inside (start text) = .matched part last ∧
    last.rest = [] ∧ g (.shift origin.offset) part = value

/-- A parser of constructs that end where a terminator starts: one tight region each, met after
blanks and followed by every correspondence to where it ends. -/
structure Detachable {α : Type} (p : Parse α) (g : Relabel → α → α) (view : α → List Region)
    (span : α → Span) : Prop where
  skips (inside : List Construct) (c : Cursor) : p inside c.skipBlanks = p inside c
  concludes : Concludes p view
  keeps (K : Correspondence) : K.Keeps .ends p g
  lands (K : Correspondence) : K.Lands p g span

/-! ## Excerpts of a source -/

theorem Cursor.Begun.head_ink {c d : Cursor} (h : Cursor.Begun c d) :
    c.skipBlanks.rest.head?.any isInk = true := by
  obtain ⟨n, _, hhead, _⟩ := h
  rw [List.head?_take] at hhead
  split at hhead
  · contradiction
  · exact hhead

theorem excerpt_of_token {c stop after : Cursor} (h : Token c stop)
    (hend : stop.terminator = some after)
    (hbalanced : Balanced c.skipBlanks stop) :
    ∃ text, Excerpt c.skipBlanks text stop.rest ∧ stop = c.skipBlanks.skip text.length := by
  obtain ⟨_, _, _, hsettled⟩ := h
  obtain ⟨text, hrest, hstop, hparted⟩ := Cursor.over_of_settled hsettled
  refine ⟨text, ?_, hstop⟩
  have hfresh := hsettled.afterBlank_eq
  obtain ⟨last, char, ⟨n, rfl⟩, hlast, hnext, _, hink, hapart, hshut⟩ := hsettled
  have htext : text = c.skipBlanks.rest.take n ++ [char] := by
    refine List.append_cancel_right (?_ : text ++ stop.rest = _ ++ stop.rest)
    rw [← hrest, List.append_assoc, List.singleton_append, ← hlast, Cursor.rest_skip,
      List.take_append_drop]
  have hgetLast : text.getLast? = some char := by rw [htext, List.getLast?_concat]
  refine ⟨hrest, Cursor.skipBlanks_skipBlanks c,
    ⟨by simpa [hgetLast] using hink, hparted.still, ?_, ?_⟩, ?_, ?_⟩
  · intro hword
    simpa [hgetLast] using hapart hword
  · have hstarts := Cursor.terminator_isSome_iff.mp (Option.isSome_iff_exists.mpr ⟨after, hend⟩)
    rwa [Cursor.skipBlanks, Cursor.rest_skip, hfresh] at hstarts
  · simpa [hgetLast] using hshut
  · rwa [← hstop]

namespace Excerpt

variable {origin : Cursor} {text more : List Char} {c d : Cursor} (h : Excerpt origin text more)

include h

theorem meets_start : (Correspondence.excerpted h).Alive origin (start text) :=
  ⟨⟨.inl ⟨0, h.length_pos, rfl, rfl⟩, ⟨0, rfl, .inl rfl⟩⟩, fun hl => hl⟩

/-- Only the end of the excerpt is paired with a place at that offset. -/
theorem ended_of_offset (hcd : (Correspondence.excerpted h).meets c d)
    (hc : c.offset = (origin.skip text.length).offset) : Ended origin text c d := by
  obtain ⟨hplace, hbalanced⟩ := hcd
  rcases hplace with ⟨n, hn, rfl, rfl⟩ | hended
  · have heq := Reaches.eq_of_offset_eq (Cursor.reaches_skip n origin)
      (Cursor.reaches_skip text.length origin) hc
    have hlen := congrArg (fun c => c.rest.length) heq
    simp only [h.rest_origin (Nat.le_of_lt hn), h.more_of_cut, List.length_append,
      List.length_drop] at hlen
    omega
  · exact hended

omit h in
theorem not_beyond_of_offset (hc : c.offset = (origin.skip text.length).offset) :
    ¬ Beyond origin text c := by
  rintro ⟨hreach, hlt⟩
  rw [Reaches.eq_of_offset_eq hreach (Reaches.refl _) hc] at hlt
  omega

/-- What is not met in the source is not met in the excerpt. -/
theorem unmatched {α γ : Type} {s : Strength} {p : Parse α} {g : Relabel → α → γ}
    {inside : List Construct} (hkeeps : (Correspondence.excerpted h).Keeps s p g)
    (hm : p inside origin = .unmatched) (inside' : List Construct) :
    p inside' (start text) = .unmatched :=
  (hm ▸ hkeeps inside inside' _ _ (fun hs => hs.elim) h.meets_start).of_unmatched

end Excerpt

namespace Detachable

variable {α β : Type} {p q : Parse α} {g : Relabel → α → α} {view : α → List Region}
    {span : α → Span}
  {inside : List Construct} {c after : Cursor} {value : α}

/-- A match is an excerpt of the source. -/
theorem exists_excerpt (h : Detachable p g view span)
    (hregion : ∀ value, ∃ isTight parts, view value = [.mk (span value) isTight parts])
    (hm : p inside c = .matched value after) :
    ∃ text more, Excerpt c.skipBlanks text more ∧
      span value = c.skipBlanks.spanTo (c.skipBlanks.skip text.length) ∧
      EndBy (c.skipBlanks.skip text.length).offset (view value) ∧ text.head?.any isInk = true := by
  rw [← h.skips] at hm
  obtain ⟨stop, parts, hview, htoken, hparts, hend⟩ := h.concludes _ _ _ _ hm
  rw [Cursor.skipBlanks_skipBlanks] at hview hparts
  have htoken := Cursor.token_skipBlanks_iff.mp htoken
  obtain ⟨isTight, others, hother⟩ := hregion value
  have hspan : span value = c.skipBlanks.spanTo stop := by
    rw [hview] at hother
    simp only [List.cons.injEq, Region.mk.injEq] at hother
    exact hother.1.1.symm
  have hbalanced : Balanced c.skipBlanks stop := by
    obtain ⟨place, hplace, hpast | ⟨_, _, ⟨_, hbalanced⟩, _⟩⟩ :=
      h.lands (.staying (Balanced c.skipBlanks)) inside inside c.skipBlanks c.skipBlanks value after
        (fun _ => rfl) ⟨⟨rfl, 0, rfl, .inl rfl⟩, fun hl => hl⟩ hm
    · exact hpast.elim
    · rw [hspan, Cursor.skipBlanks_skipBlanks] at hplace
      have hoffset : stop.offset = place.offset := congrArg Span.stop hplace
      have hstop : Reaches c.skipBlanks stop := (Cursor.token_skipBlanks_iff.mpr htoken).reaches
      rwa [Reaches.eq_of_offset_eq hstop hbalanced.reaches hoffset]
  obtain ⟨text, hexcerpt, hcut⟩ := excerpt_of_token htoken hend hbalanced
  refine ⟨text, stop.rest, hexcerpt, by rw [hspan, ← hcut], ?_, ?_⟩
  · rw [← hcut, hview]
    exact (InOrder.token htoken hparts).endBy (Nat.le_refl _)
  · have hhead := htoken.begun.head_ink
    rwa [hexcerpt.rest, ← text.drop_zero, Excerpt.head?_append hexcerpt.length_pos] at hhead

/-- The text of a match comes to the same by itself. -/
theorem detached (h : Detachable p g view span)
    (hregion : ∀ value, ∃ isTight parts, view value = [.mk (span value) isTight parts])
    (hupTo : ∀ {bound value}, EndBy bound (view value) → g (.upTo bound) value = value)
    (hm : p inside c = .matched value after) :
    ∃ text more, Excerpt c.skipBlanks text more ∧ text.head?.any isInk = true ∧
      Detached p g span value c.skipBlanks text := by
  obtain ⟨text, more, hexcerpt, hspan, hends, hink⟩ := h.exists_excerpt hregion hm
  refine ⟨text, more, hexcerpt, hink, ⟨more, hexcerpt.rest⟩, hspan, fun inside' => ?_⟩
  rw [← h.skips] at hm
  obtain ⟨stop, hstop, hend⟩ := h.lands (.excerpted hexcerpt) inside inside' _ _ value after
    (fun hs => hs.elim) hexcerpt.meets_start hm
  rw [hspan, Cursor.skipBlanks_skipBlanks] at hstop
  have hoffset : stop.offset = (c.skipBlanks.skip text.length).offset :=
    (congrArg Span.stop hstop).symm
  rcases hend with hpast | ⟨part, last, hmeets, hvalue, hmatched⟩
  · exact absurd hpast (Excerpt.not_beyond_of_offset hoffset)
  · obtain ⟨_, hlast⟩ := hexcerpt.ended_of_offset hmeets hoffset
    have hnil : last.rest = [] := by rw [hlast, Excerpt.rest_end]
    obtain ⟨closed, hclosed⟩ := Option.isSome_iff_exists.mp
      (Cursor.terminator_isSome_iff.mpr (hexcerpt.terminators_of_ended ⟨.inl rfl, hlast⟩).2)
    obtain rfl := Cursor.eq_of_reaches_of_rest_eq_nil hnil (Cursor.reaches_of_terminator hclosed)
    have hsame : g (.upTo (c.skipBlanks.skip text.length).offset) value =
        g (.shift c.skipBlanks.offset) part := hvalue
    exact ⟨part, _, hmatched _ hclosed, hnil, hsame.symm.trans (hupTo hends)⟩

/-! ## Detachable parsers -/

theorem sentence (hconcludes : Concludes p view)
    (hkeeps : ∀ K : Correspondence, Pairing.KeepsSentence K p g span) :
    Detachable p g view span where
  skips inside c := by
    obtain ⟨construct, inner, _, rfl, _⟩ := hkeeps (.staying (Reaches c))
    simp only [Parse.sentence, within, spanned, mark, bind_apply, Cursor.skipBlanks_skipBlanks]
  concludes := hconcludes
  keeps K := (hkeeps K).tracks
  lands K := Pairing.lands_sentence (hkeeps K)

theorem map {f : α → β} {g' : Relabel → β → β} {view' : β → List Region} {span' : β → Span}
    (h : Detachable p g view span) (hg : ∀ r value, g' r (f value) = f (g r value))
    (hview : ∀ value, view' (f value) = view value)
    (hspan : ∀ value, span' (f value) = span value) :
    Detachable (f <$> p) g' view' span' := by
  have hsame (K : Correspondence) (v w : α) (hvalue : g K.left v = g K.right w) :
      g' K.left (f v) = g' K.right (f w) := by rw [hg, hg, hvalue]
  refine ⟨fun inside c => ?_, h.concludes.map hview, fun K => (h.keeps K).map (hsame K),
    fun K => (h.lands K).map hspan (hsame K)⟩
  simp only [← bind_pure_comp, bind_apply, h.skips]

theorem orElse (hp : Detachable p g view span) (hq : Detachable q g view span) :
    Detachable (p.orElse q) g view span where
  skips inside c := by rw [Parse.orElse, Parse.orElse, hp.skips, hq.skips]
  concludes := hp.concludes.orElse hq.concludes
  keeps K := (hp.keeps K).orElse (hq.keeps K)
  lands K := (hp.lands K).orElse (hp.keeps K) (hq.lands K)

theorem firstOf {alternatives : List (Parse α)} (h : ∀ p ∈ alternatives, Detachable p g view span) :
    Detachable (firstOf alternatives) g view span := by
  induction alternatives with
  | nil =>
    refine ⟨fun _ _ => rfl, concludes_unmatched, fun K => Pairing.tracks_unmatched _, ?_⟩
    intro K inside inside' c d value after _ _ hm
    contradiction
  | cons p rest ih =>
    exact (h p List.mem_cons_self).orElse (ih fun q hq => h q (List.mem_cons_of_mem p hq))

end Detachable

namespace Grammar

/-! ## Statements -/

theorem detachable_assignment :
    Detachable assignment Statement.relabel Statement.regions Statement.span :=
  .sentence concludes_assignment fun _ => keeps_assignment

theorem detachable_implicitCall :
    Detachable implicitCall Statement.relabel Statement.regions Statement.span where
  skips inside c := by
    simp only [implicitCall, within, mark, bind_apply, Cursor.skipBlanks_skipBlanks]
  concludes := concludes_implicitCall
  keeps _ := keeps_implicitCall
  lands _ := lands_implicitCall

/-- A statement with a keyword. -/
theorem detachable_codeStatement {word : Option Keyword}
    (h : word.any Keyword.isStatementWord = true) :
    Detachable (codeStatement block word) Statement.relabel Statement.regions Statement.span := by
  have hyields := yields_block
  have hkeeps {K : Correspondence} : K.Keeps .loose block relabelBlock := keeps_block
  have hcommits := commits_block
  refine .sentence (concludes_codeStatement hyields h) fun K => ?_
  unfold codeStatement
  split
  · exact keeps_assignment
  · exact keeps_assignment
  · exact keeps_localVariables
  · exact keeps_localVariables
  · exact keeps_redim
  · exact keeps_exit
  · exact keeps_jump
  · exact keeps_jump
  · exact keeps_onError
  · exact keeps_resume
  · exact keeps_explicitCall
  · exact keeps_raiseEvent
  · exact whileLoop_tracks hkeeps hcommits
  · exact doLoop_tracks hkeeps hcommits
  · exact forLoop_tracks hkeeps hcommits
  · exact conditional_tracks hyields hyields hkeeps hcommits
  · exact withBlock_tracks hkeeps hcommits
  · exact select_tracks hyields hyields hkeeps hcommits
  · rename_i hplain
    cases word with
    | none => contradiction
    | some k => cases k <;> simp_all [Keyword.isStatementWord]

/-! ## Items -/

theorem detachable_declaration :
    Detachable declaration Declaration.relabel Declaration.regions Declaration.span := by
  refine .firstOf fun p hp => ?_
  simp only [List.mem_cons, List.not_mem_nil, or_false] at hp
  rcases hp with rfl | rfl | rfl | rfl | rfl | rfl
  · exact (Detachable.sentence concludes_constantGroup fun _ => keeps_constantGroup).map
      (fun _ _ => rfl) (fun _ => rfl) fun _ => rfl
  · exact (Detachable.sentence concludes_enumeration fun _ => keeps_enumeration).map
      (fun _ _ => rfl) (fun _ => rfl) fun _ => rfl
  · exact (Detachable.sentence concludes_record fun _ => keeps_record).map
      (fun _ _ => rfl) (fun _ => rfl) fun _ => rfl
  · exact .sentence concludes_externalProcedure fun _ => keeps_externalProcedure
  · exact (Detachable.sentence (concludes_plainHead _ _ _)
      fun _ => keeps_plainHead _ (by decide) _).map
      (fun _ _ => rfl) (fun _ => rfl) fun _ => rfl
  · exact (Detachable.sentence concludes_variableGroup fun _ => keeps_variableGroup).map
      (fun _ _ => rfl) (fun _ => rfl) fun _ => rfl

/-- The alternatives for an item that hold code. -/
def codeItem : Parse Item :=
  firstOf
    [.attributeLine <$> attributeLine, .optionLine <$> optionLine, .declaration <$> declaration,
      (fun d => .procedure (.sub d)) <$> subDefinition,
      (fun d => .procedure (.function d)) <$> functionDefinition,
      (fun d => .procedure (.property d)) <$> propertyDefinition]

theorem item_eq_orElse : item = (Item.comment <$> read comment).orElse
    ((Item.emptyLine <$> read emptyLine).orElse codeItem) := rfl

theorem detachable_codeItem : Detachable codeItem Item.relabel Item.regions Item.span := by
  refine .firstOf fun p hp => ?_
  simp only [List.mem_cons, List.not_mem_nil, or_false] at hp
  rcases hp with rfl | rfl | rfl | rfl | rfl | rfl
  · exact (Detachable.sentence concludes_attributeLine fun _ => keeps_attributeLine).map
      (fun _ _ => rfl) (fun _ => rfl) fun _ => rfl
  · exact (Detachable.sentence concludes_optionLine fun _ => keeps_optionLine).map
      (fun _ _ => rfl) (fun _ => rfl) fun _ => rfl
  · exact detachable_declaration.map (fun _ _ => rfl) (fun _ => rfl) fun _ => rfl
  · exact (Detachable.sentence (concludes_definition (concludes_plainHead _ _ _).yields) fun _ =>
      keeps_definition (keeps_plainHead _ (by decide) _).tracks (by decide)).map
        (fun _ _ => rfl) (fun _ => rfl) fun _ => rfl
  · exact (Detachable.sentence (concludes_definition concludes_functionHead.yields) fun _ =>
      keeps_definition keeps_functionHead (by decide)).map (fun _ _ => rfl) (fun _ => rfl)
        fun _ => rfl
  · exact (Detachable.sentence (concludes_definition concludes_propertyHead.yields) fun _ =>
      keeps_definition keeps_propertyHead (by decide)).map (fun _ _ => rfl) (fun _ => rfl)
        fun _ => rfl

end Grammar

end VisualBasic
