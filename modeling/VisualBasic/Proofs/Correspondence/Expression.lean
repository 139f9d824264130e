import VisualBasic.Proofs.Cursor.Number
import VisualBasic.Proofs.Parse.Tracking

/-!
# Corresponding expressions

A correspondence of tokens is one of expressions: where a literal, a call, a qualifier or a
reference is read on the left, the same one is read on the right, up to the relabellings.
-/

set_option autoImplicit false

namespace VisualBasic

theorem Literal.relabel_of_isNumber {literal : Literal} (h : literal.isNumber = true)
    (r : Relabel) : literal.relabel r = literal := by
  cases literal <;> first | rfl | contradiction

namespace Grammar

open Pairing

variable {K : Lexicon}

/-- Two readers that read alike from paired places, unless the left one lapses. -/
def Pairs {α : Type} (K : Lexicon) (reader other : Reader α) (V : α → α → Prop) : Prop :=
  ∀ c d, K.Alive c d → K.Lapses (reader c) (other d) ∨ K.Reads .sure V (reader c) (other d)

theorem Pairs.tracks {α : Type} {reader other : Reader α} {V : α → α → Prop}
    (h : Pairs K reader other V) : K.Tracks .closed (Parse.read reader) (Parse.read other) V :=
  tracks_read (by decide) fun c d hcd => (h c d hcd).imp And.left (Reads.weaken · _)

/-- Paired places at which no name lapses. -/
def Clear (K : Lexicon) (c d : Cursor) : Prop :=
  K.Alive c d ∧ K.Reads .sure (K.On Relabel.text) c.identifier d.identifier

theorem clear_of_alive {c d : Cursor} (hpast : ∀ c, ¬ K.past c) (h : K.Alive c d) : Clear K c d :=
  ⟨h, (K.identifier h).resolve_left fun hl => hl.1.elim fun _ h => hpast _ h.2⟩

/-- Two readers that read alike from where no name lapses. -/
def Agrees {α : Type} (K : Lexicon) (reader other : Reader α) (V : α → α → Prop) : Prop :=
  ∀ c d, Clear K c d → K.Reads .sure V (reader c) (other d)

/-- No name lapses after a symbol that opens something. -/
theorem rel_adjacent_clear {c d : Cursor} {char : Char} (hc : char ∈ symbolChars)
    (ho : isOpener char = true) (hcd : K.Alive c d) :
    Option.Rel (Clear K) (c.adjacent char) (d.adjacent char) := by
  have hr := K.adjacent hcd hc
  cases he : c.adjacent char with
  | none =>
    rw [he] at hr
    generalize d.adjacent char = y at hr ⊢
    cases hr
    exact .none
  | some e =>
    rw [he] at hr
    generalize d.adjacent char = y at hr ⊢
    cases hr with
    | some hee => exact .some ⟨hee, (K.identifier hee).resolve_left fun h => K.opener hcd ho he h.1⟩

theorem rel_symbol_clear {c d : Cursor} {char : Char} (hc : char ∈ symbolChars)
    (ho : isOpener char = true) (hcd : K.Alive c d) :
    Option.Rel (Clear K) (c.symbol char) (d.symbol char) :=
  rel_adjacent_clear hc ho (K.skipBlanks hcd)

theorem Clear.skipBlanks {c d : Cursor} (h : Clear K c d) : Clear K c.skipBlanks d.skipBlanks :=
  ⟨K.skipBlanks h.1, by simpa only [Cursor.identifier_skipBlanks] using h.2⟩

theorem literal_reads {c d : Cursor} (hcd : K.Alive c d) :
    K.Reads .sure (K.On Literal.relabel) (literal c) (literal d) := by
  have hconstant {k : Keyword} (hk : k ≠ .Rem) (value : Literal)
      (hv : K.On Literal.relabel value value) :
      K.Reads .sure (K.On Literal.relabel) ((c.keyword k).map (value, ·))
        ((d.keyword k).map (value, ·)) :=
    rel_map (K.keyword hcd hk) fun _ _ h => ⟨hv, h.joins _⟩
  have hnumber : K.Reads .sure (K.On Literal.relabel) c.number d.number := by
    have hr := K.number hcd
    cases hc : c.number with
    | none =>
      rw [hc] at hr
      cases hd : d.number with
      | none => exact .none
      | some => rw [hd] at hr; cases hr
    | some found =>
      rw [hc] at hr
      cases hd : d.number with
      | none => rw [hd] at hr; cases hr
      | some other =>
        rw [hd] at hr
        cases hr with
        | some hr =>
          have hv : found.1 = other.1 := hr.1
          refine .some ⟨?_, hr.2⟩
          have hn := Cursor.isNumber_of_number hd
          rw [On, hv, Literal.relabel_of_isNumber hn, Literal.relabel_of_isNumber hn]
  have hquoted : K.Reads .sure (K.On Literal.relabel)
      (c.quoted.map fun found => (Literal.string found.1, found.2))
      (d.quoted.map fun found => (Literal.string found.1, found.2)) :=
    rel_map (K.quoted hcd) fun _ _ h => ⟨congrArg Literal.string h.1, h.2⟩
  exact rel_or (rel_or (rel_or (rel_or hnumber hquoted) (hconstant (by decide) _ rfl))
    (hconstant (by decide) _ rfl)) (hconstant (by decide) _ rfl)

/-- Arguments in parentheses, or the places up to which they are well formed. -/
inductive Listed (K : Lexicon) : Except Cursor (List Expression × Cursor) →
    Except Cursor (List Expression × Cursor) → Prop
  | ok {values others : List Expression} {c d : Cursor}
    (value : K.On (fun r values => values.map (Expression.relabel r)) values others)
    (alive : K.Alive c d) : Listed K (.ok (values, c)) (.ok (others, d))
  | error {c d : Cursor} (alive : K.Alive c d) : Listed K (.error c) (.error d)

section Knot

variable {r r' : Reader Expression} (hr : Lays r Expression.regions)
  (hr' : Lays r' Expression.regions) (he : Agrees K r r' (K.On Expression.relabel))
include hr hr' he

theorem moreArguments_listed {c d : Cursor} (hcd : Clear K c d) :
    Listed K (moreArguments r c) (moreArguments r' d) := by
  have main (n : Nat) (c d : Cursor) (hn : c.rest.length < n) (hcd : Clear K c d) :
      Listed K (moreArguments r c) (moreArguments r' d) := by
    induction n generalizing c d with
    | zero => omega
    | succ n ih =>
      rw [moreArguments, moreArguments]
      have hfirst := he c d hcd
      generalize hread : r c = x at hfirst ⊢
      generalize hread' : r' d = y at hfirst ⊢
      cases hfirst with
      | none => exact .error hcd.1
      | @some found other hfirst =>
        obtain ⟨argument, e⟩ := found
        obtain ⟨argument', e'⟩ := other
        have hee : K.Alive e e' := hfirst.2.alive rfl
        have hargument : argument.relabel K.left = argument'.relabel K.right := hfirst.1
        dsimp only
        have hclose : Option.Rel K.Alive (e.symbol ')') (e'.symbol ')') :=
          K.rel_symbol (by decide) hee
        generalize e.symbol ')' = x at hclose ⊢
        generalize e'.symbol ')' = y at hclose ⊢
        cases hclose with
        | some hclose => exact .ok (congrArg (fun a => [a]) hargument) hclose
        | none =>
          have hcomma : Option.Rel (Clear K) (e.symbol ',') (e'.symbol ',') :=
            rel_symbol_clear (by decide) (by decide) hee
          generalize hnext : e.symbol ',' = x at hcomma ⊢
          generalize hnext' : e'.symbol ',' = y at hcomma ⊢
          cases hcomma with
          | none => exact .error hee
          | @some next next' hpair =>
            dsimp only
            have hlt := Nat.lt_of_lt_of_le (Cursor.length_lt_of_symbol hnext)
              (hr.length_le c argument e hread)
            have hlt' := Nat.lt_of_lt_of_le (Cursor.length_lt_of_symbol hnext')
              (hr'.length_le d argument' e' hread')
            rw [if_pos hlt, if_pos hlt']
            have hrest := ih next next' (by omega) hpair
            generalize moreArguments r next = x at hrest ⊢
            generalize moreArguments r' next' = y at hrest ⊢
            cases hrest with
            | error alive => exact .error alive
            | @ok values others _ _ hvalues alive =>
              refine .ok ?_ alive
              have hvalues : values.map (Expression.relabel K.left) =
                others.map (Expression.relabel K.right) := hvalues
              rw [On, List.map_cons, List.map_cons, hargument, hvalues]
  exact main (c.rest.length + 1) c d (by omega) hcd

theorem arguments_listed {c d : Cursor} (hcd : Clear K c d) :
    Listed K (arguments r c) (arguments r' d) := by
  unfold arguments
  have hclose : Option.Rel K.Alive (c.symbol ')') (d.symbol ')') := K.rel_symbol (by decide) hcd.1
  generalize c.symbol ')' = x at hclose ⊢
  generalize d.symbol ')' = y at hclose ⊢
  cases hclose with
  | some hclose => exact .ok rfl hclose
  | none => exact moreArguments_listed hr hr' he hcd

omit hr hr' he in
theorem Listed.reads {x y : Except Cursor (List Expression × Cursor)} (h : Listed K x y) :
    K.Reads .sure (K.On fun r values => values.map (Expression.relabel r)) x.toOption
      y.toOption := by
  cases h with
  | ok value alive => exact .some ⟨value, alive.joins _⟩
  | error => exact .none

theorem call_agrees : Agrees K (call r) (call r') (K.On Call.relabel) := by
  intro c d hcd
  have hstart := hcd.skipBlanks
  refine rel_bind hstart.2 ?_
  rintro ⟨name, e⟩ ⟨name', e'⟩ ⟨hname, he'⟩
  refine rel_bind (rel_symbol_clear (by decide) (by decide) (he'.alive rfl)) fun f f' hf => ?_
  refine rel_bind (arguments_listed hr hr' he hf).reads ?_
  rintro ⟨values, g⟩ ⟨values', g'⟩ ⟨hvalues, hg⟩
  refine .some ⟨?_, hg⟩
  have hname : K.left.text name = K.right.text name' := hname
  have hvalues : values.map (Expression.relabel K.left) =
    values'.map (Expression.relabel K.right) := hvalues
  simp only [On, Call.relabel, relabelExpressions_eq_map, hname, hvalues,
    K.span_eq hstart.1.1 hg.1]

/-- A segment ends with a dot, after which no name lapses. -/
theorem segment_agrees {c d : Cursor} (hcd : Clear K c d) :
    Option.Rel (fun found other => K.On Segment.relabel found.1 other.1 ∧ Clear K found.2 other.2)
      (segment r c) (segment r' d) := by
  have hcall : K.Reads .sure (K.On Segment.relabel)
      ((call r c).map fun found => (Segment.call found.1, found.2))
      ((call r' d).map fun found => (Segment.call found.1, found.2)) :=
    rel_map (call_agrees hr hr' he c d hcd) fun _ _ h => ⟨congrArg Segment.call h.1, h.2⟩
  have hname : K.Reads .sure (K.On Segment.relabel)
      (c.identifier.map fun found => (Segment.name found.1, found.2))
      (d.identifier.map fun found => (Segment.name found.1, found.2)) :=
    rel_map hcd.2 fun _ _ h => ⟨congrArg Segment.name h.1, h.2⟩
  refine rel_bind (rel_or hcall hname) ?_
  rintro ⟨found, e⟩ ⟨found', e'⟩ ⟨hfound, hee⟩
  exact rel_bind (rel_adjacent_clear (by decide) (by decide) (hee.alive rfl))
    fun f f' hf => .some ⟨hfound, hf⟩

theorem segments_follow {c d : Cursor} (hcd : Clear K c d) :
    relabelSegments K.left (segments r c).1 = relabelSegments K.right (segments r' d).1 ∧
      Clear K (segments r c).2 (segments r' d).2 := by
  have main (n : Nat) (c d : Cursor) (hn : c.rest.length < n) (hcd : Clear K c d) :
      relabelSegments K.left (segments r c).1 = relabelSegments K.right (segments r' d).1 ∧
        Clear K (segments r c).2 (segments r' d).2 := by
    induction n generalizing c d with
    | zero => omega
    | succ n ih =>
      rw [segments, segments]
      have hfirst := segment_agrees hr hr' he hcd
      generalize hread : segment r c = x at hfirst ⊢
      generalize hread' : segment r' d = y at hfirst ⊢
      cases hfirst with
      | none => exact ⟨rfl, hcd⟩
      | @some found other hfirst =>
        obtain ⟨head, e⟩ := found
        obtain ⟨head', e'⟩ := other
        have hhead : head.relabel K.left = head'.relabel K.right := hfirst.1
        dsimp only
        have hlt := (segment_lays hr hread).1.length_lt
        have hlt' := (segment_lays hr' hread').1.length_lt
        rw [if_pos hlt, if_pos hlt']
        obtain ⟨htail, hclear⟩ := ih e e' (by omega) hfirst.2
        refine ⟨?_, hclear⟩
        rw [relabelSegments, relabelSegments, hhead, htail]
  exact main (c.rest.length + 1) c d (by omega) hcd

theorem qualifier_follows {c d : Cursor} (hcd : Clear K c d) :
    (qualifier r c).1.relabel K.left = (qualifier r' d).1.relabel K.right ∧
      Clear K (qualifier r c).2 (qualifier r' d).2 := by
  have hstart := hcd.skipBlanks
  have hdot : Option.Rel (Clear K) (c.skipBlanks.adjacent '.') (d.skipBlanks.adjacent '.') :=
    rel_adjacent_clear (by decide) (by decide) hstart.1
  have hafter := rel_getD hdot hstart
  have hisSome := rel_isSome hdot
  obtain ⟨hfound, hend⟩ := segments_follow hr hr' he hafter
  have hempty : (segments r ((c.skipBlanks.adjacent '.').getD c.skipBlanks)).1.isEmpty =
      (segments r' ((d.skipBlanks.adjacent '.').getD d.skipBlanks)).1.isEmpty := by
    have := congrArg List.isEmpty hfound
    simpa [relabelSegments_eq_map] using this
  simp only [qualifier, ← Option.not_isSome, hisSome, hempty]
  split
  · have hspan := K.span_eq hstart.1.1 hstart.1.1
    simp only [Cursor.spanTo] at hspan
    exact ⟨by simp only [Qualifier.none, Qualifier.relabel, relabelSegments, hspan], hcd⟩
  · exact ⟨by simp only [Qualifier.relabel, hfound, K.span_eq hstart.1.1 hend.1.1], hend⟩

theorem reference_agrees : Agrees K (reference r) (reference r') (K.On Reference.relabel) := by
  intro c d hcd
  have hstart := hcd.skipBlanks
  obtain ⟨hqualifier, hend⟩ := qualifier_follows hr hr' he hstart
  simp only [reference]
  generalize qualifier r c.skipBlanks = x at hqualifier hend ⊢
  generalize qualifier r' d.skipBlanks = y at hqualifier hend ⊢
  refine rel_bind hend.2 ?_
  rintro ⟨name, e⟩ ⟨name', e'⟩ ⟨hname, hee⟩
  refine .some ⟨?_, hee⟩
  have hname : K.left.text name = K.right.text name' := hname
  simp only [On, Reference.relabel, hqualifier, hname, K.span_eq hstart.1.1 hee.1]

omit hr hr' he in
/-- A literal as an expression. -/
theorem literalExpression_reads {c d : Cursor} (hcd : K.Alive c d) :
    K.Reads .sure (K.On Expression.relabel)
      ((literal c).map fun found => (Expression.literal found.1 (c.spanTo found.2), found.2))
      ((literal d).map fun found => (Expression.literal found.1 (d.spanTo found.2), found.2)) := by
  refine rel_map (literal_reads hcd) ?_
  rintro ⟨value, e⟩ ⟨value', e'⟩ ⟨hvalue, hee⟩
  have hvalue : value.relabel K.left = value'.relabel K.right := hvalue
  exact ⟨by simp only [On, Expression.relabel, hvalue, K.span_eq hcd.1 hee.1], hee⟩

theorem expressionWith_agrees :
    Agrees K (expressionWith r) (expressionWith r') (K.On Expression.relabel) := by
  intro c d hcd
  have hstart := hcd.skipBlanks
  have hcall : K.Reads .sure (K.On Expression.relabel)
      ((call r c.skipBlanks).map fun found => (Expression.call found.1, found.2))
      ((call r' d.skipBlanks).map fun found => (Expression.call found.1, found.2)) :=
    rel_map (call_agrees hr hr' he _ _ hstart) fun _ _ h => ⟨congrArg Expression.call h.1, h.2⟩
  have hreference : K.Reads .sure (K.On Expression.relabel)
      ((reference r c.skipBlanks).map fun found => (Expression.reference found.1, found.2))
      ((reference r' d.skipBlanks).map fun found => (Expression.reference found.1, found.2)) :=
    rel_map (reference_agrees hr hr' he _ _ hstart) fun _ _ h =>
      ⟨congrArg Expression.reference h.1, h.2⟩
  exact rel_or (rel_or (literalExpression_reads hstart.1) hcall) hreference

end Knot

/-- A reader where the next token comes after a given one. -/
def laterReader {α : Type} (reader : Reader α) (c : Cursor) : Reader α := fun d =>
  if d.skipBlanks.rest.length < c.skipBlanks.rest.length then reader d else none

theorem laterReader_lays {α : Type} {reader : Reader α} {view : α → List Region}
    (h : Lays reader view) (c : Cursor) : Lays (laterReader reader c) view := by
  intro d value after hd
  unfold laterReader at hd
  split at hd
  · exact h d value after hd
  · contradiction

theorem expression_eq_later (c : Cursor) :
    expression c = expressionWith (laterReader expression c) c :=
  (congrFun expression_eq c).trans <| Eq.symm <| expressionWith_congr fun d hd =>
    if_pos (Nat.lt_of_le_of_lt (Cursor.reaches_skipBlanks d).length_le hd)

theorem expression_agrees : Agrees K expression expression (K.On Expression.relabel) := by
  intro c d hcd
  induction hn : c.skipBlanks.rest.length using Nat.strongRecOn generalizing c d with
  | _ n ih =>
    rw [expression_eq_later c, expression_eq_later d]
    refine expressionWith_agrees (laterReader_lays expression_lays c)
      (laterReader_lays expression_lays d) (fun e e' hee => ?_) c d hcd
    unfold laterReader
    by_cases hlt : e.skipBlanks.rest.length < c.skipBlanks.rest.length
    · rw [if_pos hlt, if_pos ((K.skipBlanks_shorter_iff hcd.1 hee.1).mp hlt)]
      exact ih _ (by omega) e e' hee rfl
    · rw [if_neg hlt, if_neg fun hd => hlt ((K.skipBlanks_shorter_iff hcd.1 hee.1).mpr hd)]
      exact .none

/-! ## Where a name lapses -/

/-- A reader of what starts with a name, where no dot comes first. -/
def StartsWithName {α : Type} (reader : Reader α) : Prop :=
  ∀ c value after, c.skipBlanks.adjacent '.' = none → reader c = some (value, after) →
    ∃ name e, c.identifier = some (name, e) ∧ Cursor.Reaches e after

/-- Where a name lapses, so does all that starts with it. -/
theorem StartsWithName.lapses {α : Type} {reader other : Reader α} {V : α → α → Prop} {c d : Cursor}
    (h : StartsWithName reader) (h' : StartsWithName other) (hcd : K.Alive c d)
    (hl : K.Lapses c.identifier d.identifier) :
    K.Lapses (reader c) (other d) ∨ K.Reads .sure V (reader c) (other d) := by
  obtain ⟨⟨e, he, hpast⟩, hnone⟩ := hl
  obtain ⟨⟨name, _⟩, hname, rfl⟩ := Option.map_eq_some_iff.mp he
  have hdot : c.skipBlanks.adjacent '.' = none :=
    Cursor.adjacent_eq_none_of_word (Cursor.identifier_eq_some_iff.mp hname).1 rfl
  have hdot' : d.skipBlanks.adjacent '.' = none := by
    have hr : Option.Rel K.Alive (c.skipBlanks.adjacent '.') (d.skipBlanks.adjacent '.') :=
      K.adjacent (K.skipBlanks hcd) (by decide)
    rw [hdot] at hr
    cases hd : d.skipBlanks.adjacent '.' with
    | none => rfl
    | some f => rw [hd] at hr; cases hr
  have hother : other d = none := by
    cases hd : other d with
    | none => rfl
    | some found =>
      obtain ⟨_, _, hsome, _⟩ := h' d found.1 found.2 hdot' hd
      rw [hnone] at hsome
      contradiction
  cases hc : reader c with
  | none =>
    rw [hother]
    exact .inr .none
  | some found =>
    obtain ⟨_, _, hsome, hreach⟩ := h c found.1 found.2 hdot hc
    rw [hname] at hsome
    cases hsome
    exact .inl ⟨⟨found.2, rfl, K.past_of_reaches hpast hreach⟩, hother⟩

/-- A reader that agrees where no name lapses, and starts with a name where one does. -/
theorem Agrees.pairs {α : Type} {reader other : Reader α} {V : α → α → Prop}
    (h : Agrees K reader other V) (hn : StartsWithName reader) (hn' : StartsWithName other) :
    Pairs K reader other V := fun c d hcd => (K.identifier hcd).elim (hn.lapses hn' hcd)
  fun hreads => .inr (h c d ⟨hcd, hreads⟩)

section Readers

variable {r : Reader Expression} (hr : Lays r Expression.regions)
include hr

theorem call_startsWithName : StartsWithName (call r) := by
  intro c value after _ h
  simp only [call, Option.bind_eq_bind, Option.bind_eq_some_iff, Cursor.identifier_skipBlanks] at h
  obtain ⟨⟨name, e⟩, hname, f, hopen, ⟨values, g⟩, ha, h⟩ := h
  cases h
  exact ⟨name, e, hname, (Cursor.reaches_of_symbol hopen).trans
    (arguments_lays hr (eq_ok_of_toOption ha)).1.reaches⟩

theorem segment_startsWithName : StartsWithName (segment r) := by
  intro c value after hdot h
  simp only [segment, Option.bind_eq_bind, Option.bind_eq_some_iff] at h
  obtain ⟨⟨found, d⟩, hs, e, hd, h⟩ := h
  cases h
  simp only [Option.or_eq_some_iff, Option.map_eq_some_iff] at hs
  rcases hs with ⟨⟨function, d⟩, hc, h⟩ | ⟨_, ⟨name, d⟩, hn, h⟩
  · cases h
    obtain ⟨name, f, hname, hreach⟩ := call_startsWithName hr c _ _ hdot hc
    exact ⟨name, f, hname, hreach.trans (Cursor.reaches_of_adjacent hd)⟩
  · cases h
    exact ⟨name, d, hn, Cursor.reaches_of_adjacent hd⟩

theorem reference_startsWithName : StartsWithName (reference r) := by
  intro c value after hdot h
  simp only [reference, Option.bind_eq_bind, Option.bind_eq_some_iff] at h
  obtain ⟨⟨name, d⟩, hn, h⟩ := h
  cases h
  simp only [qualifier, Cursor.skipBlanks_skipBlanks, hdot, Option.getD_none, Option.isNone_none,
    Bool.true_and] at hn
  split at hn
  · exact ⟨name, d, by simpa only [Cursor.identifier_skipBlanks] using hn, Cursor.Reaches.refl d⟩
  · rename_i hne
    cases hsegment : segment r c.skipBlanks with
    | none =>
      rw [segments, hsegment] at hne
      exact absurd rfl hne
    | some found =>
      obtain ⟨first, e, hfirst, hreach⟩ := segment_startsWithName hr c.skipBlanks _ _
        (by rwa [Cursor.skipBlanks_skipBlanks]) hsegment
      refine ⟨first, e, by simpa only [Cursor.identifier_skipBlanks] using hfirst, ?_⟩
      have hrest : Cursor.Reaches found.2 (segments r c.skipBlanks).2 := by
        rw [segments, hsegment]
        dsimp only
        split
        · exact (segments_lays hr found.2).2.reaches
        · exact Cursor.Reaches.refl _
      exact (hreach.trans hrest).trans (Cursor.reaches_of_identifier hn)

end Readers

theorem reference_pairs :
    Pairs K (reference expression) (reference expression) (K.On Reference.relabel) :=
  (reference_agrees expression_lays expression_lays expression_agrees).pairs
    (reference_startsWithName expression_lays) (reference_startsWithName expression_lays)

/-- A call or a reference as an expression. -/
def namedExpression (c : Cursor) : Option (Expression × Cursor) :=
  ((call expression c.skipBlanks).map fun found => (Expression.call found.1, found.2)).or
    ((reference expression c.skipBlanks).map fun found => (Expression.reference found.1, found.2))

theorem namedExpression_startsWithName : StartsWithName namedExpression := by
  intro c value after hdot h
  have hdot : c.skipBlanks.skipBlanks.adjacent '.' = none := by rwa [Cursor.skipBlanks_skipBlanks]
  simp only [namedExpression, Option.or_eq_some_iff, Option.map_eq_some_iff] at h
  rw [← Cursor.identifier_skipBlanks]
  rcases h with ⟨found, hc, h⟩ | ⟨_, found, hc, h⟩
  · cases h
    exact call_startsWithName expression_lays _ _ _ hdot hc
  · cases h
    exact reference_startsWithName expression_lays _ _ _ hdot hc

theorem expression_eq_or (c : Cursor) :
    expression c = ((literal c.skipBlanks).map fun found =>
      (Expression.literal found.1 (c.skipBlanks.spanTo found.2), found.2)).or
        (namedExpression c) := by
  rw [expression_eq, expressionWith, Option.or_assoc]
  rfl

/-- Where a name lapses, an expression that is no literal does. -/
theorem expression_pairs : Pairs K expression expression (K.On Expression.relabel) := by
  intro c d hcd
  rcases K.identifier hcd with hl | hreads
  · have hliteral := literalExpression_reads (K.skipBlanks hcd)
    have hnamed : K.Lapses (namedExpression c) (namedExpression d) ∨
        K.Reads .sure (K.On Expression.relabel) (namedExpression c) (namedExpression d) :=
      namedExpression_startsWithName.lapses namedExpression_startsWithName hcd hl
    rw [expression_eq_or, expression_eq_or]
    generalize (literal c.skipBlanks).map _ = x at hliteral ⊢
    generalize (literal d.skipBlanks).map _ = y at hliteral ⊢
    cases hliteral with
    | some h => exact .inr (.some h)
    | none => exact hnamed
  · exact .inr (expression_agrees c d ⟨hcd, hreads⟩)

end Grammar

end VisualBasic
