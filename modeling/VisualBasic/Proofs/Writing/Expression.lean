import VisualBasic.Proofs.Cursor.Place
import VisualBasic.Proofs.Parse.Unrolling
import VisualBasic.Proofs.Tree.Relabel
import VisualBasic.Proofs.Writing.Literal

/-!
# Writing expressions

An expression is written with its arguments in parentheses right after the name of the function and
with no blanks at dots. Blanks at the inner sides of parentheses and before commas are a matter of
style: a wide text has them, a narrow one has not. What is written reads back up to spans.
-/

set_option autoImplicit false

namespace VisualBasic

/-- The blank that a wide text has and a narrow one has not. -/
def pad (wide : Bool) (rest : List Char) : List Char := if wide then ' ' :: rest else rest

variable {wide : Bool} {text token rest : List Char}

theorem Solid.pad (h : Solid rest) (wide : Bool) : Leads (pad wide rest) rest := by
  cases wide with
  | true => exact h.space
  | false => exact h.here

/-! ## What expressions are written as -/

mutual

def Expression.write (wide : Bool) : Expression → List Char → List Char
  | .literal value _, rest => value.write rest
  | .reference target, rest => target.write wide rest
  | .call call, rest => call.write wide rest

def Call.write (wide : Bool) : Call → List Char → List Char
  | ⟨name, arguments, _⟩, rest => name.toList ++ '(' :: writeArguments wide arguments rest

/-- Arguments and the closing parenthesis. -/
def writeArguments (wide : Bool) : List Expression → List Char → List Char
  | [], rest => pad wide (')' :: rest)
  | e :: more, rest => pad wide (e.write wide (writeMore wide more (pad wide (')' :: rest))))

/-- Each after a comma. -/
def writeMore (wide : Bool) : List Expression → List Char → List Char
  | [], rest => rest
  | e :: more, rest => pad wide (',' :: ' ' :: e.write wide (writeMore wide more rest))

def Segment.write (wide : Bool) : Segment → List Char → List Char
  | .name text, rest => text.toList ++ rest
  | .call call, rest => call.write wide rest

/-- Each before a dot. -/
def writeSegments (wide : Bool) : List Segment → List Char → List Char
  | [], rest => rest
  | s :: more, rest => s.write wide ('.' :: writeSegments wide more rest)

def Qualifier.write (wide : Bool) : Qualifier → List Char → List Char
  | ⟨leadingDot, segments, _⟩, rest =>
    if leadingDot then '.' :: writeSegments wide segments rest else writeSegments wide segments rest

def Reference.write (wide : Bool) : Reference → List Char → List Char
  | ⟨qualifier, name, _⟩, rest => qualifier.write wide (name.toList ++ rest)

end

/-! ## What can be written -/

def isName (name : String) : Bool := isNameText name.toList

theorem isName_iff {name : String} : isName name = true ↔ IsNameText name.toList := isNameText_iff

/-- A call at the start of a reference would be read as an expression of its own. -/
def Qualifier.startsWithCall : Qualifier → Bool
  | ⟨false, .call _ :: _, _⟩ => true
  | _ => false

mutual

def Expression.isPrintable : Expression → Bool
  | .literal value _ => value.isPrintable
  | .reference target => target.isPrintable && ! target.qualifier.startsWithCall
  | .call call => call.isPrintable

def Call.isPrintable : Call → Bool
  | ⟨name, arguments, _⟩ => isName name && arePrintable arguments

def arePrintable : List Expression → Bool
  | [] => true
  | e :: more => e.isPrintable && arePrintable more

def Segment.isPrintable : Segment → Bool
  | .name text => isName text
  | .call call => call.isPrintable

def areSegmentsPrintable : List Segment → Bool
  | [] => true
  | s :: more => s.isPrintable && areSegmentsPrintable more

def Reference.isPrintable : Reference → Bool
  | ⟨⟨_, segments, _⟩, name, _⟩ => areSegmentsPrintable segments && isName name

end

/-! ## Where expressions end -/

/-- A text that neither goes on with the expression before it nor makes a call of it. -/
structure Delimits (text : List Char) : Prop where
  edge : Edge text
  unopened : Parse.Stays (Cursor.symbol '(') text

theorem delimits_of_leads (he : Edge text) (hl : Leads text token) (h : token.head? ≠ some '(') :
    Delimits text := ⟨he, Parse.stays_symbol hl h⟩

theorem solid_open (rest : List Char) : Solid ('(' :: rest) := solid_cons rest rfl (by decide)

theorem solid_comma (rest : List Char) : Solid (',' :: rest) := solid_cons rest rfl (by decide)

theorem solid_close (rest : List Char) : Solid (')' :: rest) := solid_cons rest rfl (by decide)

theorem delimits_newline (rest : List Char) : Delimits ('\n' :: rest) :=
  delimits_of_leads ⟨_, _, rfl, rfl⟩ (Parse.solid_newline rest).here (by simp)

theorem delimits_space (h : Solid rest) (hne : rest.head? ≠ some '(') : Delimits (' ' :: rest) :=
  delimits_of_leads ⟨_, _, rfl, rfl⟩ h.space hne

theorem delimits_pad {c : Char} (wide : Bool) (rest : List Char) (hc : isEdge c = true)
    (hb : isBlank c = false) : Delimits (pad wide (c :: rest)) := by
  have hne (other : Char) (ho : isEdge other = false) : c ≠ other := by
    rintro rfl
    simp [ho] at hc
  have hs : Solid (c :: rest) := solid_cons rest hb (hne '_' rfl)
  refine delimits_of_leads ?_ (hs.pad wide) (by simpa using hne '(' rfl)
  cases wide with
  | true => exact ⟨_, _, rfl, rfl⟩
  | false => exact ⟨_, _, rfl, hc⟩

theorem delimits_comma (wide : Bool) (rest : List Char) : Delimits (pad wide (',' :: rest)) :=
  delimits_pad wide rest rfl rfl

theorem delimits_close (wide : Bool) (rest : List Char) : Delimits (pad wide (')' :: rest)) :=
  delimits_pad wide rest rfl rfl

theorem Delimits.unpointed (h : Delimits text) : text.head? ≠ some '.' := by
  obtain ⟨c, tail, rfl, hc⟩ := h.edge
  rintro hd
  obtain rfl := Option.some.inj hd
  contradiction

/-- A text that neither goes on with the name before it nor makes a call or a qualifier of it. -/
structure EndsName (text : List Char) : Prop where
  noWord : NoWord text
  unpointed : text.head? ≠ some '.'
  unopened : Parse.Stays (Cursor.symbol '(') text

theorem Delimits.endsName (h : Delimits text) : EndsName text :=
  ⟨h.edge.noWord, h.unpointed, h.unopened⟩

theorem noWord_open (rest : List Char) : NoWord ('(' :: rest) := rfl

/-! ## How expressions start -/

/-- The characters that an expression starts with. -/
def isExpressionStart (c : Char) : Bool := isWordStart c || Literal.isStart c || c = '.'

theorem writeSegments_eq_append {segments : List Segment} {name : String}
    (hs : areSegmentsPrintable segments = true) (hn : isName name = true) (hr : NoWord rest) :
    ∃ first tail, writeSegments wide segments (name.toList ++ rest) = first ++ tail ∧
      IsNameText first ∧ NoWord tail := by
  match segments with
  | [] => exact ⟨_, _, rfl, isName_iff.mp hn, hr⟩
  | .name text :: more =>
    simp only [areSegmentsPrintable, Segment.isPrintable, Bool.and_eq_true] at hs
    exact ⟨_, _, rfl, isName_iff.mp hs.1, rfl⟩
  | .call ⟨callee, arguments, span⟩ :: more =>
    simp only [areSegmentsPrintable, Segment.isPrintable, Call.isPrintable, Bool.and_eq_true] at hs
    exact ⟨_, _, rfl, isName_iff.mp hs.1.1, rfl⟩

/-- How a reference starts: with a dot, or with a name that is no keyword. -/
structure Refers (text : List Char) : Prop where
  solid : Solid text
  spells : ∀ k, spells k text = false
  start : ∃ c tail, text = c :: tail ∧ (isWordStart c || c = '.') = true
  number : readNumber text = none

theorem not_isDigit_of_isWordStart {c : Char} (h : isWordStart c = true) : c.isDigit = false := by
  cases hd : c.isDigit with
  | false => rfl
  | true =>
    simp only [isWordStart, Literal.isAlpha_eq_false_of_isDigit hd, Bool.false_or,
      Bool.or_eq_true, decide_eq_true_eq] at h
    rcases h with rfl | rfl <;> contradiction

theorem ne_of_isWordStart {c : Char} (h : isWordStart c = true) {other : Char}
    (ho : isWordStart other = false) : c ≠ other := by
  rintro rfl
  simp [ho] at h

theorem isNumberStart_eq_false_of_isWordStart {c : Char} (h : isWordStart c = true) :
    isNumberStart c = false := by
  have hne (other : Char) (ho : isWordStart other = false) := ne_of_isWordStart h ho
  simp [isNumberStart, not_isDigit_of_isWordStart h, hne '-' rfl, hne '+' rfl, hne '&' rfl]

theorem refers_name {name : List Char} (h : IsNameText name) (hr : NoWord rest) :
    Refers (name ++ rest) := by
  obtain ⟨c, tail, hname, hc⟩ := h.eq_cons
  refine ⟨h.solid_append rest, fun k => h.spells_append k hr, ?_, ?_⟩
  · exact ⟨c, tail ++ rest, by rw [hname]; rfl, by simp [hc]⟩
  · rw [hname]
    exact readNumber_eq_none (isNumberStart_eq_false_of_isWordStart hc) fun hd =>
      absurd hd (ne_of_isWordStart hc rfl)

theorem refers_dot {name : List Char} (h : IsNameText name) (rest : List Char) :
    Refers ('.' :: (name ++ rest)) := by
  obtain ⟨c, tail, hname, hc⟩ := h.eq_cons
  refine ⟨solid_cons _ rfl (by decide), fun k => spells_cons_eq_false k _ rfl,
    ⟨_, _, rfl, rfl⟩, readNumber_eq_none rfl fun _ => ?_⟩
  rw [hname]
  exact not_isDigit_of_isWordStart hc

theorem Reference.refers_write {target : Reference} (h : target.isPrintable = true) (wide : Bool)
    (hr : NoWord rest) : Refers (target.write wide rest) := by
  obtain ⟨⟨leadingDot, segments, around⟩, name, span⟩ := target
  simp only [isPrintable, Bool.and_eq_true] at h
  obtain ⟨first, tail, hw, hfirst, htail⟩ := @writeSegments_eq_append wide _ _ _ h.1 h.2 hr
  cases leadingDot with
  | true =>
    have hwrite : Reference.write wide ⟨⟨true, segments, around⟩, name, span⟩ rest =
        '.' :: (first ++ tail) := congrArg _ hw
    rw [hwrite]
    exact refers_dot hfirst tail
  | false =>
    have hwrite : Reference.write wide ⟨⟨false, segments, around⟩, name, span⟩ rest =
        first ++ tail := hw
    rw [hwrite]
    exact refers_name hfirst htail

theorem Call.refers_write {call : Call} (h : call.isPrintable = true) (wide : Bool)
    (rest : List Char) :
    Refers (call.write wide rest) := by
  obtain ⟨name, arguments, _⟩ := call
  simp only [isPrintable, Bool.and_eq_true] at h
  exact refers_name (isName_iff.mp h.1) rfl

namespace Expression

variable {e : Expression} (h : e.isPrintable = true)
include h

theorem solid_write (wide : Bool) (hr : NoWord rest) : Solid (e.write wide rest) := by
  cases e with
  | literal value _ => exact Literal.solid_write h rest
  | reference target =>
    simp only [isPrintable, Bool.and_eq_true] at h
    exact (target.refers_write h.1 wide hr).solid
  | call call => exact (call.refers_write h wide rest).solid

theorem spells_write {k : Keyword} (hk : k ∉ [.True, .False, .Nothing]) (wide : Bool)
    (hr : NoWord rest) : spells k (e.write wide rest) = false := by
  cases e with
  | literal value _ => exact Literal.spells_write h hk hr
  | reference target =>
    simp only [isPrintable, Bool.and_eq_true] at h
    exact (target.refers_write h.1 wide hr).spells k
  | call call => exact (call.refers_write h wide rest).spells k

theorem write_eq_cons (wide : Bool) (hr : NoWord rest) :
    ∃ c tail, e.write wide rest = c :: tail ∧ isExpressionStart c = true := by
  have hrefers {text : List Char} (ht : Refers text) :
      ∃ c tail, text = c :: tail ∧ isExpressionStart c = true := by
    obtain ⟨c, tail, hw, hc⟩ := ht.start
    rw [Bool.or_eq_true] at hc
    exact ⟨c, tail, hw, by rcases hc with hc | hc <;> simp [isExpressionStart, hc]⟩
  cases e with
  | literal value _ =>
    obtain ⟨c, tail, hw, hc, _⟩ := Literal.write_eq_cons h rest
    exact ⟨c, tail, hw, by simp [isExpressionStart, hc]⟩
  | reference target =>
    simp only [isPrintable, Bool.and_eq_true] at h
    exact hrefers (target.refers_write h.1 wide hr)
  | call call => exact hrefers (call.refers_write h wide rest)

/-- No expression starts with another character. -/
theorem head?_write_ne {char : Char} (hc : isExpressionStart char = false) (wide : Bool)
    (hr : NoWord rest) : (e.write wide rest).head? ≠ some char := by
  obtain ⟨c, tail, hw, hs⟩ := write_eq_cons h wide hr
  rw [hw]
  rintro he
  obtain rfl := Option.some.inj he
  simp [hc] at hs

end Expression

/-! ## What readers of expressions take -/

/-- The same value up to spans. -/
def UpToSpans {α γ : Type} (g : Relabel → α → γ) (value found : α) : Prop :=
  g .erase found = g .erase value

/-- A constructor that a relabelling goes under. -/
theorem UpToSpans.under {α β : Type} {g : Relabel → α → α} {g' : Relabel → β → β}
    {value found : α} (h : UpToSpans g value found) (make : α → β)
    (hm : ∀ one, g' .erase (make one) = make (g .erase one)) :
    UpToSpans g' (make value) (make found) := by
  rw [UpToSpans, hm, hm, h]

namespace Grammar

open Parse

theorem misses_literal_of_refers (ht : Refers text) : Misses literal text := by
  intro c hc
  have hl := ht.solid.here
  have hnumber : c.number = none := by
    rw [Cursor.number, Cursor.rest_skipBlanks hl hc, ht.number, Option.bind_none]
  have hquoted : c.quoted = none := by
    refine misses_quoted hl ?_ c hc
    obtain ⟨first, tail, rfl, hs⟩ := ht.start
    rintro h
    obtain rfl := Option.some.inj h
    contradiction
  simp [literal, hnumber, hquoted, stays_keyword hl (ht.spells _) c hc]

theorem takes_call {call : Call} {inner : List Char} (h : isName call.name = true)
    (hl : Leads text (call.name.toList ++ '(' :: inner))
    (harguments : ∀ c, c.rest = inner → ∃ found after, arguments expression c = .ok (found, after) ∧
      after.rest = rest ∧ relabelExpressions .erase found =
      relabelExpressions .erase call.arguments) :
    Takes (Grammar.call expression) text rest (UpToSpans Call.relabel call) := by
  intro c hc
  obtain ⟨_, d, hname, hd, rfl⟩ := takes_identifier (isName_iff.mp h) hl rfl c hc
  obtain ⟨e, hopen, he⟩ :=
    passes_symbol (solid_cons inner (c := '(') rfl (by decide)).here d hd
  obtain ⟨found, after, hfound, hafter, hsame⟩ := harguments e he
  refine ⟨⟨call.name, found, c.skipBlanks.spanTo after⟩, after, ?_, hafter, ?_⟩
  · simp [Grammar.call, hname, hopen, hfound, Except.toOption]
  · obtain ⟨name, arguments, span⟩ := call
    simp only [UpToSpans, Call.relabel, hsame]
    rfl

theorem misses_call {name : String} (h : isName name = true)
    (hl : Leads text (name.toList ++ rest)) (hr : NoWord rest)
    (hs : Stays (Cursor.symbol '(') rest) : Misses (call expression) text := by
  intro c hc
  obtain ⟨_, d, hname, hd, rfl⟩ := takes_identifier (isName_iff.mp h) hl hr c hc
  simp [call, hname, hs d hd]

/-- The last name of a reference is no segment. -/
theorem segment_eq_none {name : String} (h : isName name = true) (hr : NoWord rest)
    (hdot : rest.head? ≠ some '.')
    (hcall : ∀ c found after, c.rest = name.toList ++ rest →
      Grammar.call expression c = some (found, after) → after.rest.head? ≠ some '.')
    {c : Cursor} (hc : c.rest = name.toList ++ rest) : segment expression c = none := by
  have hl := ((isName_iff.mp h).solid_append rest).here
  obtain ⟨_, d, hname, hd, rfl⟩ := takes_identifier (isName_iff.mp h) hl hr c hc
  have hadjacent : d.adjacent '.' = none := stays_adjacent hdot d hd
  cases hfound : Grammar.call expression c with
  | none => simp [segment, hfound, hname, hadjacent]
  | some found =>
    have hafter : found.2.adjacent '.' = none :=
      stays_adjacent (hcall c found.1 found.2 hc hfound) _ rfl
    simp [segment, hfound, hafter]

theorem segments_nil {c : Cursor} (h : segment expression c = none) :
    segments expression c = ([], c) := by
  rw [segments, h]

/-- A segment before the others. -/
theorem segments_cons {c d e : Cursor} {head : Segment} {tail : List Segment}
    (h : segment expression c = some (head, d)) (hlt : d.rest.length < c.rest.length)
    (ht : segments expression d = (tail, e)) :
    segments expression c = (head :: tail, e) := by
  rw [segments, h]
  simp only [if_pos hlt, ht]

/-- A segment that is a name. -/
theorem segment_name {name : String} (h : isName name = true) (rest : List Char) {c : Cursor}
    (hc : c.rest = name.toList ++ '.' :: rest) :
    ∃ d, segment expression c = some (.name name, d) ∧ d.rest = rest := by
  have hl := ((isName_iff.mp h).solid_append ('.' :: rest)).here
  obtain ⟨_, d, hname, hd, rfl⟩ := takes_identifier (isName_iff.mp h) hl rfl c hc
  have hopen : Stays (Cursor.symbol '(') ('.' :: rest) :=
    stays_symbol (solid_cons rest rfl (by decide)).here (by simp)
  have hcall := misses_call h hl rfl hopen c hc
  obtain ⟨e, hdot, he⟩ := passes_adjacent '.' d hd
  exact ⟨e, by simp [segment, hcall, hname, hdot], he⟩

theorem segment_call {call : Call} {c : Cursor}
    (hcall : Takes (Grammar.call expression) text ('.' :: rest) (UpToSpans Call.relabel call))
    (hc : c.rest = text) :
    ∃ found d, segment expression c = some (.call found, d) ∧ d.rest = rest ∧
      UpToSpans Call.relabel call found := by
  obtain ⟨found, d, hfound, hd, hsame⟩ := hcall c hc
  obtain ⟨e, hdot, he⟩ := passes_adjacent '.' d hd
  exact ⟨found, e, by simp [segment, hfound, hdot], he, hsame⟩

/-- A qualifier, and the place of the name after it. -/
theorem qualifier_write {leadingDot : Bool} {segments : List Segment} {around : Span}
    {after : List Char}
    (hdot : leadingDot = false → (writeSegments wide segments after).head? ≠ some '.')
    (hsolid : Solid (Qualifier.write wide ⟨leadingDot, segments, around⟩ after))
    (hsegments : ∀ c, c.rest = writeSegments wide segments after → ∃ found d,
      Grammar.segments expression c = (found, d) ∧ d.rest = after ∧
        relabelSegments .erase found = relabelSegments .erase segments)
    {c : Cursor} (hc : c.rest = Qualifier.write wide ⟨leadingDot, segments, around⟩ after) :
    ∃ found d, qualifier expression c = (found, d) ∧ d.rest = after ∧
      UpToSpans Qualifier.relabel ⟨leadingDot, segments, around⟩ found := by
  have hstart := Cursor.rest_skipBlanks hsolid.here hc
  have hbody : ∃ d, (c.skipBlanks.adjacent '.').getD c.skipBlanks = d ∧
      (c.skipBlanks.adjacent '.').isSome = leadingDot ∧
      d.rest = writeSegments wide segments after := by
    cases leadingDot with
    | true =>
      obtain ⟨d, hd, hrest⟩ := passes_adjacent '.' c.skipBlanks hstart
      exact ⟨d, by rw [hd]; rfl, by rw [hd]; rfl, hrest⟩
    | false =>
      have hnone : c.skipBlanks.adjacent '.' = none := stays_adjacent (hdot rfl) _ hstart
      exact ⟨c.skipBlanks, by rw [hnone]; rfl, by rw [hnone]; rfl, hstart⟩
  obtain ⟨d, hd, hisSome, hdrest⟩ := hbody
  obtain ⟨found, e, hfound, he, hsame⟩ := hsegments d hdrest
  have hempty : found.isEmpty = segments.isEmpty := by
    cases found <;> cases segments <;> simp_all [relabelSegments]
  have hisNone : (c.skipBlanks.adjacent '.').isNone = ! leadingDot := by
    rw [← hisSome, Option.not_isSome]
  unfold qualifier
  simp only [hd, hfound, hisNone, hisSome, hempty]
  split
  · rename_i hnothing
    simp only [Bool.and_eq_true, Bool.not_eq_true', List.isEmpty_iff] at hnothing
    obtain ⟨rfl, rfl⟩ := hnothing
    exact ⟨_, c, rfl, hc, rfl⟩
  · refine ⟨_, e, rfl, he, ?_⟩
    simp only [UpToSpans, Qualifier.relabel, hsame]
    rfl

theorem takes_reference {target : Reference} (h : target.isPrintable = true)
    (hl : Leads text (target.write wide rest)) (hr : NoWord rest)
    (hsegments : ∀ c,
      c.rest = writeSegments wide target.qualifier.segments (target.name.toList ++ rest) →
      ∃ found d, segments expression c = (found, d) ∧ d.rest = target.name.toList ++ rest ∧
        relabelSegments .erase found = relabelSegments .erase target.qualifier.segments) :
    Takes (reference expression) text rest (UpToSpans Reference.relabel target) := by
  intro c hc
  have hrefers := target.refers_write h wide hr
  have hstart := Cursor.rest_skipBlanks hl hc
  obtain ⟨⟨leadingDot, parts, around⟩, name, span⟩ := target
  simp only [Reference.isPrintable, Bool.and_eq_true] at h
  have hdot : (writeSegments wide parts (name.toList ++ rest)).head? ≠ some '.' := by
    obtain ⟨first, tail, hw, hfirst, _⟩ := @writeSegments_eq_append wide _ _ _ h.1 h.2 hr
    obtain ⟨char, others, rfl, hchar⟩ := hfirst.eq_cons
    rw [hw]
    simpa using ne_of_isWordStart hchar rfl
  obtain ⟨qualifier', d, hqualifier, hd, hsame⟩ :=
    qualifier_write (fun _ => hdot) hrefers.solid hsegments hstart
  have hleads := ((isName_iff.mp h.2).solid_append rest).here
  obtain ⟨name', e, hname, he, hname'⟩ := takes_identifier (isName_iff.mp h.2) hleads hr d hd
  refine ⟨⟨qualifier', name', c.skipBlanks.spanTo e⟩, e, ?_, he, ?_⟩
  · simp [reference, hqualifier, hname]
  · simp only [UpToSpans] at hsame
    simp only [UpToSpans, Reference.relabel, hsame, hname']
    rfl

/-! ## Expressions read back -/

/-- The text after an argument: more arguments, each after a comma, and the closing parenthesis. -/
theorem delimits_writeMore (wide : Bool) (more : List Expression) (rest : List Char) :
    Delimits (writeMore wide more (pad wide (')' :: rest))) := by
  cases more with
  | nil => exact delimits_close wide rest
  | cons e more => exact delimits_comma wide _

/-- A last argument. -/
theorem moreArguments_last {c d : Cursor} {found : Expression} (h : expression c = some (found, d))
    (hd : d.rest = pad wide (')' :: rest)) :
    ∃ after, moreArguments expression c = .ok ([found], after) ∧ after.rest = rest := by
  obtain ⟨after, hclose, hafter⟩ := passes_symbol ((solid_close rest).pad wide) d hd
  refine ⟨after, ?_, hafter⟩
  rw [moreArguments, h]
  simp only [hclose]

/-- An argument before others. -/
theorem moreArguments_cons {c d : Cursor} {found : Expression} (h : expression c = some (found, d))
    (hd : d.rest = pad wide (',' :: text)) :
    ∃ e, e.rest = text ∧ ∀ {others after}, moreArguments expression e = .ok (others, after) →
      moreArguments expression c = .ok (found :: others, after) := by
  have hleads := (solid_comma text).pad wide
  obtain ⟨e, hcomma, he⟩ := passes_symbol hleads d hd
  have hclose : d.symbol ')' = none := stays_symbol hleads (by simp) d hd
  have hlt : e.rest.length < c.rest.length :=
    Nat.lt_trans (Cursor.length_lt_of_symbol hcomma) (expression_lays _ _ _ h).1.length_lt
  refine ⟨e, he, fun hothers => ?_⟩
  rw [moreArguments, h]
  simp only [hclose, hcomma, if_pos hlt, hothers]
  rfl

theorem takes_expression_of_literal {value : Literal} {span : Span}
    (h : Takes literal token rest fun found => found = value) (hl : Leads text token) :
    Takes expression text rest (UpToSpans Expression.relabel (.literal value span)) := by
  intro c hc
  obtain ⟨found, d, hfound, hd, rfl⟩ := h _ (Cursor.rest_skipBlanks hl hc)
  refine ⟨.literal found (c.skipBlanks.spanTo d), d, ?_, hd, rfl⟩
  rw [expression_eq, expressionWith]
  simp only [hfound, Option.map_some, Option.some_or]

theorem takes_expression_of_call {call : Call}
    (h : Takes (Grammar.call expression) token rest (UpToSpans Call.relabel call))
    (hr : Refers token) (hl : Leads text token) :
    Takes expression text rest (UpToSpans Expression.relabel (.call call)) := by
  intro c hc
  have hstart := Cursor.rest_skipBlanks hl hc
  have hliteral := misses_literal_of_refers hr _ hstart
  obtain ⟨found, d, hfound, hd, hsame⟩ := h _ hstart
  refine ⟨.call found, d, ?_, hd, congrArg Expression.call hsame⟩
  rw [expression_eq, expressionWith]
  simp only [hliteral, hfound, Option.map_none, Option.none_or, Option.map_some, Option.some_or]

theorem takes_expression_of_reference {target : Reference}
    (h : Takes (reference expression) token rest (UpToSpans Reference.relabel target))
    (hr : Refers token) (hcall : Misses (call expression) token) (hl : Leads text token) :
    Takes expression text rest (UpToSpans Expression.relabel (.reference target)) := by
  intro c hc
  have hstart := Cursor.rest_skipBlanks hl hc
  have hliteral := misses_literal_of_refers hr _ hstart
  obtain ⟨found, d, hfound, hd, hsame⟩ := h _ hstart
  refine ⟨.reference found, d, ?_, hd, congrArg Expression.reference hsame⟩
  rw [expression_eq, expressionWith]
  simp only [hliteral, hcall _ hstart, hfound, Option.map_none, Option.none_or, Option.map_some]

/-- A reference that is not preceded by a call is no call. -/
theorem misses_call_of_reference {target : Reference} (h : target.isPrintable = true)
    (hstart : target.qualifier.startsWithCall = false) (wide : Bool) (hs : Delimits rest) :
    Misses (call expression) (target.write wide rest) := by
  obtain ⟨⟨leadingDot, parts, around⟩, name, span⟩ := target
  simp only [Reference.isPrintable, Bool.and_eq_true] at h
  have hname (name : String) (hname : isName name = true) {tail : List Char} (hr : NoWord tail)
      (hopen : Stays (Cursor.symbol '(') tail) : Misses (call expression) (name.toList ++ tail) :=
    misses_call hname ((isName_iff.mp hname).solid_append tail).here hr hopen
  cases leadingDot with
  | true =>
    have hdot (tail : List Char) : Misses (call expression) ('.' :: tail) := by
      intro c hc
      have hl := (solid_cons (c := '.') tail rfl (by decide)).here
      simp [call, misses_identifier hl rfl c hc]
    exact hdot _
  | false =>
    rcases parts with _ | ⟨first | _, more⟩
    · exact hname name h.2 hs.edge.noWord hs.unopened
    · simp only [areSegmentsPrintable, Segment.isPrintable, Bool.and_eq_true] at h
      exact hname first h.1.1 rfl (stays_symbol (solid_cons _ rfl (by decide)).here (by simp))
    · contradiction

/-- No call follows the name that a text ends in, and no dot follows a call there. -/
theorem segment_eq_none_of_endsName {name : String} (h : isName name = true) (hr : EndsName rest)
    {c : Cursor} (hc : c.rest = name.toList ++ rest) : segment expression c = none := by
  refine segment_eq_none h hr.noWord hr.unpointed ?_ hc
  intro d found after hd hfound
  have hleads := ((isName_iff.mp h).solid_append rest).here
  rw [misses_call h hleads hr.noWord hr.unopened d hd] at hfound
  contradiction

mutual

/-- An expression read back where it ends. -/
theorem takes_expression_write : ∀ (e : Expression) {text rest : List Char}, e.isPrintable = true →
    Leads text (e.write wide rest) → Delimits rest →
    Takes expression text rest (UpToSpans Expression.relabel e)
  | .literal value _, _, _, h, hl, hs =>
    takes_expression_of_literal (value.takes_write h (Literal.solid_write h _).here hs.edge) hl
  | .call call, _, rest, h, hl, _ => by
    have hrefers := call.refers_write h wide rest
    exact takes_expression_of_call (takes_call_write call h hrefers.solid.here) hrefers hl
  | .reference ⟨⟨leadingDot, parts, around⟩, name, span⟩, _, rest, h, hl, hs => by
    simp only [Expression.isPrintable, Bool.and_eq_true, Bool.not_eq_true'] at h
    have hrefers := Reference.refers_write h.1 wide hs.edge.noWord
    have hcall := misses_call_of_reference h.1 h.2 wide hs
    obtain ⟨hparts, hname⟩ := Bool.and_eq_true_iff.mp h.1
    refine takes_expression_of_reference ?_ hrefers hcall hl
    refine takes_reference h.1 hrefers.solid.here hs.edge.noWord ?_
    exact fun c hc => segments_write parts hparts hname hs.edge.noWord
      (fun _ hd => segment_eq_none_of_endsName hname hs.endsName hd) hc

theorem takes_call_write : ∀ (call : Call) {text rest : List Char}, call.isPrintable = true →
    Leads text (call.write wide rest) →
    Takes (Grammar.call expression) text rest (UpToSpans Call.relabel call)
  | ⟨_, values, _⟩, _, _, h, hl => by
    obtain ⟨hname, hvalues⟩ := Bool.and_eq_true_iff.mp h
    exact takes_call hname hl fun c hc => arguments_write values hvalues hc

theorem arguments_write : ∀ (values : List Expression) {rest : List Char},
    arePrintable values = true → ∀ {c : Cursor}, c.rest = writeArguments wide values rest →
    ∃ found after, arguments expression c = .ok (found, after) ∧ after.rest = rest ∧
      relabelExpressions .erase found = relabelExpressions .erase values
  | [], rest, _, c, hc => by
    obtain ⟨d, hclose, hd⟩ := passes_symbol ((solid_close rest).pad wide) c hc
    exact ⟨[], d, by rw [arguments, hclose], hd, rfl⟩
  | e :: more, rest, h, c, hc => by
    obtain ⟨he, hmore⟩ := Bool.and_eq_true_iff.mp h
    have hstops := delimits_writeMore wide more rest
    have hleads := (e.solid_write he wide hstops.edge.noWord).pad wide
    have hclose : c.symbol ')' = none :=
      stays_symbol hleads (e.head?_write_ne he rfl wide hstops.edge.noWord) c hc
    obtain ⟨found, d, hfound, hd, hsame⟩ := takes_expression_write e he hleads hstops c hc
    obtain ⟨others, after, hothers, hafter, hsame'⟩ := moreArguments_write more hmore hfound hd
    refine ⟨found :: others, after, by rw [arguments, hclose]; exact hothers, hafter, ?_⟩
    rw [relabelExpressions, relabelExpressions, hsame, hsame']

/-- The arguments after one that is read. -/
theorem moreArguments_write : ∀ (more : List Expression) {rest : List Char},
    arePrintable more = true → ∀ {c d : Cursor} {found : Expression},
    expression c = some (found, d) → d.rest = writeMore wide more (pad wide (')' :: rest)) →
    ∃ others after, moreArguments expression c = .ok (found :: others, after) ∧
      after.rest = rest ∧ relabelExpressions .erase others = relabelExpressions .erase more
  | [], rest, _, _, _, _, hfound, hd => by
    obtain ⟨after, hmore, hafter⟩ := moreArguments_last hfound hd
    exact ⟨[], after, hmore, hafter, rfl⟩
  | e :: more, rest, h, _, _, _, hfound, hd => by
    obtain ⟨he, hmore⟩ := Bool.and_eq_true_iff.mp h
    have hstops := delimits_writeMore wide more rest
    have hleads := (e.solid_write he wide hstops.edge.noWord).space
    obtain ⟨c', hc', hcons⟩ := moreArguments_cons hfound hd
    obtain ⟨next, d', hnext, hd', hsame⟩ := takes_expression_write e he hleads hstops c' hc'
    obtain ⟨others, after, hothers, hafter, hsame'⟩ := moreArguments_write more hmore hnext hd'
    refine ⟨next :: others, after, hcons hothers, hafter, ?_⟩
    rw [relabelExpressions, relabelExpressions, hsame, hsame']

/-- Segments before a name that is none. -/
theorem segments_write : ∀ (parts : List Segment) {name : String} {rest : List Char},
    areSegmentsPrintable parts = true → isName name = true → NoWord rest →
    (∀ c, c.rest = name.toList ++ rest → segment expression c = none) →
    ∀ {c : Cursor}, c.rest = writeSegments wide parts (name.toList ++ rest) →
    ∃ found d, segments expression c = (found, d) ∧ d.rest = name.toList ++ rest ∧
      relabelSegments .erase found = relabelSegments .erase parts
  | [], _, _, _, _, _, hlast, c, hc => ⟨[], c, segments_nil (hlast c hc), hc, rfl⟩
  | .name first :: more, _, _, h, hname, hr, hlast, c, hc => by
    obtain ⟨hfirst, hmore⟩ := Bool.and_eq_true_iff.mp h
    obtain ⟨d, hsegment, hd⟩ := segment_name hfirst _ hc
    obtain ⟨found, e, hfound, he, hsame⟩ := segments_write more hmore hname hr hlast hd
    refine ⟨.name first :: found, e, segments_cons hsegment ?_ hfound, he, ?_⟩
    · exact (segment_lays expression_lays hsegment).1.length_lt
    · rw [relabelSegments, relabelSegments, hsame]
  | .call call :: more, name, rest, h, hname, hr, hlast, c, hc => by
    obtain ⟨hcall, hmore⟩ := Bool.and_eq_true_iff.mp h
    have hrefers :=
      Call.refers_write hcall wide ('.' :: writeSegments wide more (name.toList ++ rest))
    obtain ⟨first, d, hsegment, hd, hsame⟩ :=
      segment_call (takes_call_write call hcall hrefers.solid.here) hc
    obtain ⟨found, e, hfound, he, hsame'⟩ := segments_write more hmore hname hr hlast hd
    refine ⟨.call first :: found, e, segments_cons hsegment ?_ hfound, he, ?_⟩
    · exact (segment_lays expression_lays hsegment).1.length_lt
    · rw [relabelSegments, relabelSegments, hsame', Segment.relabel, Segment.relabel, hsame]

end

/-- A reference read back where it ends. -/
theorem takes_reference_write {target : Reference} (h : target.isPrintable = true)
    (hl : Leads text (target.write wide rest)) (hr : EndsName rest) :
    Takes (reference expression) text rest (UpToSpans Reference.relabel target) := by
  obtain ⟨⟨leadingDot, parts, around⟩, name, span⟩ := target
  obtain ⟨hparts, hname⟩ := Bool.and_eq_true_iff.mp h
  refine takes_reference h hl hr.noWord ?_
  exact fun c hc => segments_write parts hparts hname hr.noWord
    (fun _ hd => segment_eq_none_of_endsName hname hr hd) hc

/-- An array before its dimensions in parentheses, which are no call that a dot follows. -/
theorem takes_reference_before_arguments {target : Reference} {values : List Expression}
    (h : target.isPrintable = true) (hvalues : arePrintable values = true)
    (hl : Leads text (target.write wide ('(' :: writeArguments wide values rest)))
    (hr : rest.head? ≠ some '.') :
    Takes (reference expression) text ('(' :: writeArguments wide values rest)
      (UpToSpans Reference.relabel target) := by
  obtain ⟨⟨leadingDot, parts, around⟩, name, span⟩ := target
  obtain ⟨hparts, hname⟩ := Bool.and_eq_true_iff.mp h
  have hopen := noWord_open (writeArguments wide values rest)
  refine takes_reference h hl hopen ?_
  refine fun c hc => segments_write parts hparts hname hopen (fun d hd => ?_) hc
  refine segment_eq_none hname hopen (by simp) ?_ hd
  intro e found after he hfound
  have hcall : Call.isPrintable ⟨name, values, span⟩ = true :=
    Bool.and_eq_true_iff.mpr ⟨hname, hvalues⟩
  have hleads := (Call.refers_write hcall wide rest).solid.here
  obtain ⟨_, _, htakes, hrest, _⟩ := takes_call_write ⟨name, values, span⟩ hcall hleads e he
  rw [htakes] at hfound
  cases hfound
  rw [hrest]
  exact hr

/-- No reference starts where neither a dot nor a name does. -/
theorem reference_eq_none_of_start {c : Cursor} (hdot : c.skipBlanks.adjacent '.' = none)
    (hname : c.identifier = none) : reference expression c = none := by
  have hcall : call expression c.skipBlanks = none := by
    simp [call, hname]
  have hsegment : segment expression c.skipBlanks = none := by
    simp [segment, hcall, hname]
  simp [reference, qualifier, hdot, segments_nil hsegment, hname]

theorem misses_reference (hl : Leads text token) (hdot : token.head? ≠ some '.')
    (hname : Misses Cursor.identifier token) : Misses (reference expression) text := by
  intro c hc
  have hstart := Cursor.rest_skipBlanks hl hc
  refine reference_eq_none_of_start (stays_adjacent hdot _ hstart) ?_
  rw [← Cursor.identifier_skipBlanks]
  exact hname _ hstart

/-- The characters that a text starts with if an expression is read from it. -/
def startsExpression (c : Char) : Bool := isWordStart c || isNumberStart c || c = '"' || c = '.'

/-- No expression starts with another character. -/
theorem expression_eq_none {c : Cursor}
    (h : c.skipBlanks.rest.head?.any startsExpression = false) : expression c = none := by
  have hblanks := c.skipBlanks_skipBlanks
  have hany {p : Char → Bool} (hp : ∀ char, p char = true → startsExpression char = true) :
      c.skipBlanks.rest.head?.any p = false := by
    cases hhead : c.skipBlanks.rest.head? with
    | none => rfl
    | some char =>
      cases hchar : p char with
      | false => exact hchar
      | true => simp [hhead, hp char hchar] at h
  have hne {char : Char} (hchar : startsExpression char = true) :
      c.skipBlanks.rest.head? ≠ some char := by
    intro hhead
    simp [hhead, hchar] at h
  have hstart : c.skipBlanks.rest.head?.any isWordStart = false :=
    hany fun char hchar => by simp [startsExpression, hchar]
  have hname : c.identifier = none := by
    simp [Cursor.identifier, Cursor.word, hstart]
  have hkeyword (k : Keyword) : c.skipBlanks.keyword k = none := by
    have halpha : c.skipBlanks.rest.head?.any Char.isAlpha = false :=
      hany fun char hchar => by simp [startsExpression, isWordStart, hchar]
    rw [Cursor.keyword_eq, hblanks, spells_eq_false k halpha]
    rfl
  have hquoted : c.skipBlanks.quoted = none := Cursor.quoted_eq_none hblanks (hne rfl)
  have hnumber : c.skipBlanks.number = none := by
    rw [Cursor.number, hblanks]
    cases hrest : c.skipBlanks.rest with
    | nil => rfl
    | cons char rest =>
      have hchar : isNumberStart char = false := by
        simpa [hrest] using hany (p := isNumberStart) fun char hchar => by
          simp [startsExpression, hchar]
      have hpoint : char ≠ '.' := by
        rintro rfl
        exact hne rfl (congrArg List.head? hrest)
      rw [readNumber_eq_none hchar fun h => absurd h hpoint, Option.bind_none]
  have hliteral : literal c.skipBlanks = none := by
    simp [literal, hnumber, hquoted, hkeyword]
  have hcall : call expression c.skipBlanks = none := by
    simp [call, hname]
  have hreference : reference expression c.skipBlanks = none := by
    refine reference_eq_none_of_start ?_ (by rwa [Cursor.identifier_skipBlanks])
    rw [hblanks, Cursor.adjacent, if_neg (hne rfl)]
  rw [expression_eq, expressionWith]
  simp only [hliteral, hcall, hreference, Option.map_none, Option.none_or]

/-- Nothing on the rest of a line is no expression. -/
theorem misses_expression_newline (rest : List Char) : Misses expression ('\n' :: rest) := by
  intro c hc
  refine expression_eq_none ?_
  rw [Cursor.rest_skipBlanks (solid_newline rest).here hc]
  rfl

end Grammar

end VisualBasic
