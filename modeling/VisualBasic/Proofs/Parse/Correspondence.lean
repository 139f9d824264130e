import VisualBasic.Grammar.Module
import VisualBasic.Proofs.Cursor.Blank
import VisualBasic.Proofs.Parse.Commitment
import VisualBasic.Proofs.Tree.Relabel

/-!
# Corresponding parses

A correspondence pairs the places of two texts so that a token met at a place of the left one is met
at the paired place of the right one. Then a whole parse of the left text is followed by one of the
right. Either text may be the shorter one. Where the left text has been used up, its place is lost,
and what the right text holds further on is not known; a place of the left text past the end of the
right one has no counterpart. A parser followed surely comes to neither; one followed to its close
may end past the right text; one followed to its end may besides be lost after its last line; and of
one followed loosely nothing is known once it is lost.
-/

set_option autoImplicit false

namespace VisualBasic

/-- A dot that a word follows at once. -/
def Cursor.member (c : Cursor) : Option (String × Cursor) :=
  (c.adjacent '.').bind fun d => if d.rest.head?.any isWordStart then d.word else none

/-- The names that may stand in the help of a failure. -/
def Help.relabel (r : Relabel) : Help → Help
  | .reservedWord word => .reservedWord (r.text word)
  | help => help

structure Pairing where
  left : Relabel
  right : Relabel
  meets : Cursor → Cursor → Prop
  /-- Where the left text has been used up and the right one goes on. -/
  lost : Cursor → Prop
  /-- Where the left text has gone on past the end of the right one. -/
  past : Cursor → Prop
  /-- Whether the right text fails where the left one does. -/
  isStrict : Prop

/-- How closely the right text is followed. -/
inductive Strength where
  | sure
  | closed
  | ends
  | loose
  deriving DecidableEq

/-- Whether a match that ends within both texts ends at a place that is not lost. -/
def Strength.isFirm (s : Strength) : Bool := s = .sure || s = .closed

namespace Pairing

variable (P : Pairing)

/-- Two values that are alike after relabelling. -/
def On {α γ : Type} (f : Relabel → α → γ) (v w : α) : Prop := f P.left v = f P.right w

def Alive (c d : Cursor) : Prop := P.meets c d ∧ ¬ P.lost c

def Joins (s : Strength) (c d : Cursor) : Prop := P.meets c d ∧ (s.isFirm = true → ¬ P.lost c)

/-- Where a match may end without one of the right text. -/
def Strays (s : Strength) (c : Cursor) : Prop := s = .loose ∧ P.lost c ∨ s ≠ .sure ∧ P.past c

/-- A token that the left text has past the end of the right one. -/
def Passes (found : Option Cursor) : Prop := ∃ c, found = some c ∧ P.past c

/-- Such a token with a value, where the right text has none. -/
def Lapses {α : Type} (x y : Option (α × Cursor)) : Prop := P.Passes (x.map Prod.snd) ∧ y = none

/-- Two tokens with values, or none on either side. -/
def Reads {α : Type} (s : Strength) (V : α → α → Prop) (x y : Option (α × Cursor)) : Prop :=
  Option.Rel (fun found other => V found.1 other.1 ∧ P.Joins s found.2 other.2) x y

/-- Values built over paired spans. -/
def Spanwise {α : Type} (V : α → α → Prop) (build other : Span → α) : Prop :=
  ∀ span place, P.left.span span = P.right.span place → V (build span) (other place)

structure Alike (failure other : Failure) : Prop where
  construct : failure.construct = other.construct
  expected : failure.expected = other.expected
  suggestion : failure.suggestion = other.suggestion
  help : failure.help.map (Help.relabel P.left) = other.help.map (Help.relabel P.right)
  place : P.Alive failure.place other.place
  stopped : P.Alive failure.stopped other.stopped
  /-- A failure is reported where a token should have started. -/
  token : failure.place.skipBlanks = failure.place ∧ other.place.skipBlanks = other.place

/-- What the right text comes to, given what the left one does. -/
inductive Follows {α : Type} (s : Strength) (V : α → α → Prop) : Outcome α → Outcome α → Prop
  | matched {v w : α} {c d : Cursor} (value : V v w) (joins : P.Joins s c d) :
    Follows s V (.matched v c) (.matched w d)
  | stranded {v : α} {c : Cursor} {outcome : Outcome α} (strays : P.Strays s c) :
    Follows s V (.matched v c) outcome
  | unmatched : Follows s V .unmatched .unmatched
  | failed {failure : Failure} {outcome : Outcome α}
    (alike : P.isStrict → ∃ other, outcome = .failed other ∧ P.Alike failure other) :
    Follows s V (.failed failure) outcome

/-- The second parser follows the first from paired places that are not lost. Where failures need
not be alike, it does not matter which constructs are open. -/
def Tracks {α : Type} (s : Strength) (p q : Parse α) (V : α → α → Prop) : Prop :=
  ∀ inside inside' c d, (P.isStrict → inside = inside') → P.Alive c d →
    P.Follows s V (p inside c) (q inside' d)

end Pairing

/-- The symbols of the grammar. -/
def symbolChars : List Char := ['.', ',', '=', '(', ')']

/-- A pairing that the tokens of expressions keep. A name may go past the right text, but not right
after a symbol that opens something. -/
structure Lexicon extends Pairing where
  past_of_reaches {c d : Cursor} (h : past c) (hr : Cursor.Reaches c d) : past d
  span_eq {c d c' d' : Cursor} (h : meets c d) (h' : meets c' d') :
    left.span (c.spanTo c') = right.span (d.spanTo d')
  /-- Tokens come in the same order on both sides. -/
  shorter_iff {c d c' d' : Cursor} (h : toPairing.Alive c d) (h' : toPairing.Alive c' d')
    (hc : c.skipBlanks = c) (hc' : c'.skipBlanks = c') :
    c'.rest.length < c.rest.length ↔ d'.rest.length < d.rest.length
  dot : left.letter '.' = right.letter '.'
  skipBlanks {c d : Cursor} (h : toPairing.Alive c d) :
    toPairing.Alive c.skipBlanks d.skipBlanks
  adjacent {c d : Cursor} (h : toPairing.Alive c d) {char : Char} (hc : char ∈ symbolChars) :
    Option.Rel toPairing.Alive (c.adjacent char) (d.adjacent char)
  keyword {c d : Cursor} (h : toPairing.Alive c d) {k : Keyword} (hk : k ≠ .Rem) :
    Option.Rel toPairing.Alive (c.keyword k) (d.keyword k)
  identifier {c d : Cursor} (h : toPairing.Alive c d) : toPairing.Lapses c.identifier d.identifier ∨
    toPairing.Reads .sure (toPairing.On Relabel.text) c.identifier d.identifier
  opener {c d e : Cursor} (h : toPairing.Alive c d) {char : Char} (hc : isOpener char = true)
    (he : c.adjacent char = some e) : ¬ toPairing.Passes (e.identifier.map Prod.snd)
  member {c d : Cursor} (h : toPairing.Alive c d) :
    toPairing.Reads .sure (toPairing.On Relabel.text) c.member d.member
  number {c d : Cursor} (h : toPairing.Alive c d) :
    toPairing.Reads .sure (toPairing.On Relabel.plain) c.number d.number
  quoted {c d : Cursor} (h : toPairing.Alive c d) :
    toPairing.Reads .sure (toPairing.On Relabel.text) c.quoted d.quoted

namespace Lexicon

variable (K : Lexicon) {c d c' d' : Cursor}

theorem skipBlanks_shorter_iff (h : K.Alive c d) (h' : K.Alive c' d') :
    c'.skipBlanks.rest.length < c.skipBlanks.rest.length ↔
      d'.skipBlanks.rest.length < d.skipBlanks.rest.length :=
  K.shorter_iff (K.skipBlanks h) (K.skipBlanks h') (Cursor.skipBlanks_skipBlanks c)
    (Cursor.skipBlanks_skipBlanks c')

theorem rel_symbol {char : Char} (hc : char ∈ symbolChars) (h : K.Alive c d) :
    Option.Rel K.Alive (c.symbol char) (d.symbol char) := K.adjacent (K.skipBlanks h) hc

end Lexicon

/-- A pairing that all tokens keep. What ends a line or a statement may go past the right text. -/
structure Correspondence extends Lexicon where
  not_strict {c : Cursor} (h : lost c ∨ past c) : ¬ isStrict
  rest_of_lost {c : Cursor} (h : lost c) : c.rest = []
  colon {c d : Cursor} (h : toPairing.Alive c d) : toPairing.Passes (c.adjacent ':') ∨
    Option.Rel toPairing.Alive (c.adjacent ':') (d.adjacent ':')
  peekKeyword {c d : Cursor} (h : toPairing.Alive c d) :
    c.peekKeyword.filter (· ≠ .Rem) = d.peekKeyword.filter (· ≠ .Rem)
  relation {c d : Cursor} (h : toPairing.Alive c d) :
    toPairing.Reads .sure (toPairing.On Relabel.plain) c.relation d.relation
  terminator {c d : Cursor} (h : toPairing.Alive c d) : toPairing.Passes c.terminator ∨
    Option.Rel toPairing.meets c.terminator d.terminator
  /-- The rest of a line is passed over where it holds no code. -/
  lineEnd {c d : Cursor} (h : toPairing.Alive c d) : toPairing.Passes c.lineEnd ∨
    toPairing.meets (c.lineEnd.getD c) (d.lineEnd.getD d)
  blankLine {c d : Cursor} (h : toPairing.Alive c d) : toPairing.Passes c.blankLine ∨
    Option.Rel toPairing.meets c.blankLine d.blankLine
  comment {c d : Cursor} (h : toPairing.Alive c d) :
    toPairing.Passes ((Grammar.comment c).map Prod.snd) ∨
      toPairing.Reads .ends (toPairing.On Comment.relabel) (Grammar.comment c) (Grammar.comment d)
  /-- The texts of literals that start at paired tokens. -/
  literalText {c d c' d' : Cursor} {v w : Literal}
    (h : toPairing.Alive c.skipBlanks d.skipBlanks)
    (hc : Grammar.literal c.skipBlanks = some (v, c'))
    (hd : Grammar.literal d.skipBlanks = some (w, d')) :
    left.text (c.skipBlanks.textTo c') = right.text (d.skipBlanks.textTo d')
  nearMiss {c d : Cursor} (hs : isStrict) (h : toPairing.Alive c d) (k : Keyword) :
    (c.peekWord.any fun word => isNearMiss word k) = d.peekWord.any fun word => isNearMiss word k
  reserved {c d : Cursor} (hs : isStrict) (h : toPairing.Alive c d) :
    (c.peekWord.filter isReservedWord).map left.text =
      (d.peekWord.filter isReservedWord).map right.text
  suggested {c d : Cursor} (hs : isStrict) (h : toPairing.Alive c d) :
    c.peekWord.bind suggestKeyword = d.peekWord.bind suggestKeyword
  isFinished {c d : Cursor} (hs : isStrict) (h : toPairing.Alive c d) :
    Grammar.isFinished c = Grammar.isFinished d

/-- A parser that comes to the same values on both sides, up to the relabellings. -/
abbrev Correspondence.Keeps (K : Correspondence) {α γ : Type} (s : Strength) (p : Parse α)
    (g : Relabel → α → γ) : Prop := K.Tracks s p p (K.On g)

/-! ## Following composite parsers -/

namespace Pairing

open Parse

variable {P : Pairing} {α β γ : Type} {s t : Strength} {p p' q q' : Parse α} {V : α → α → Prop}
  {U : β → β → Prop} {f f' : α → Parse β} {c d : Cursor}

theorem Alive.joins (h : P.Alive c d) (s : Strength) : P.Joins s c d := ⟨h.1, fun _ => h.2⟩

theorem Joins.alive (h : P.Joins s c d) (hs : s.isFirm = true) : P.Alive c d := ⟨h.1, h.2 hs⟩

theorem not_strays_sure : ¬ P.Strays .sure c := by
  rintro (h | h)
  · exact absurd h.1 (by decide)
  · exact h.1 rfl

theorem Follows.of_matched {v : α} {c : Cursor} {outcome : Outcome α}
    (h : P.Follows s V (.matched v c) outcome) (hs : ¬ P.Strays s c) :
    ∃ w d, outcome = .matched w d ∧ V v w ∧ P.Joins s c d := by
  cases h with
  | matched value joins => exact ⟨_, _, rfl, value, joins⟩
  | stranded strays => exact absurd strays hs

theorem Follows.of_failed {failure : Failure} {outcome : Outcome α}
    (h : P.Follows s V (.failed failure) outcome) (hs : P.isStrict) :
    ∃ other, outcome = .failed other ∧ P.Alike failure other := by
  cases h with
  | failed alike => exact alike hs

theorem Follows.of_unmatched {outcome : Outcome α} (h : P.Follows s V .unmatched outcome) :
    outcome = .unmatched := by
  cases h
  rfl

theorem Follows.weaken {W : α → α → Prop} {o o' : Outcome α} (h : P.Follows s V o o')
    (hV : ∀ v w, V v w → W v w) (hfirm : t.isFirm = true → s.isFirm = true)
    (hstray : ∀ c, P.Strays s c → P.Strays t c) : P.Follows t W o o' := by
  cases h with
  | matched value joins => exact .matched (hV _ _ value) ⟨joins.1, fun ht => joins.2 (hfirm ht)⟩
  | stranded strays => exact .stranded (hstray _ strays)
  | unmatched => exact .unmatched
  | failed alike => exact .failed alike

/-- What follows a match: from paired places, or from where it strays. -/
theorem Follows.andThen {inside inside' : List Construct}
    (h : P.Follows t V (p inside c) (p' inside' d))
    (hjoins : ∀ v w e e', V v w → P.Joins t e e' → P.Follows s U (f v inside e) (f' w inside' e'))
    (hstrays : ∀ v e outcome, P.Strays t e → P.Follows s U (f v inside e) outcome) :
    P.Follows s U ((p >>= f) inside c) ((p' >>= f') inside' d) := by
  simp only [bind_apply]
  generalize p inside c = o at h ⊢
  generalize p' inside' d = o' at h ⊢
  cases h with
  | matched value joins => exact hjoins _ _ _ _ value joins
  | stranded strays => exact hstrays _ _ _ strays
  | unmatched => exact .unmatched
  | failed alike =>
    refine .failed fun hs => ?_
    obtain ⟨other, ho, ha⟩ := alike hs
    exact ⟨other, by rw [ho], ha⟩

theorem Tracks.weaken {W : α → α → Prop} (h : P.Tracks .sure p p' V) (hV : ∀ v w, V v w → W v w)
    (s : Strength) : P.Tracks s p p' W := fun inside inside' c d hin hcd =>
  (h inside inside' c d hin hcd).weaken hV (fun _ => rfl) fun _ hs => absurd hs not_strays_sure

theorem tracks_pure {v w : α} (h : V v w) (s : Strength) :
    P.Tracks s (pure v) (pure w) V := fun _ _ _ _ _ hcd => .matched h (hcd.joins s)

theorem Tracks.map {f f' : α → β} (h : P.Tracks s p p' V) (hf : ∀ v w, V v w → U (f v) (f' w)) :
    P.Tracks s (f <$> p) (f' <$> p') U := by
  intro inside inside' c d hin hcd
  simp only [← bind_pure_comp]
  exact (h inside inside' c d hin hcd).andThen
    (fun v w _ _ value joins => .matched (hf v w value) joins) fun _ _ _ strays => .stranded strays

/-- A parser that never gets lost, and what follows it. -/
theorem Tracks.andThen (h : P.Tracks .sure p p' V)
    (hf : ∀ v w, V v w → P.Tracks s (f v) (f' w) U) : P.Tracks s (p >>= f) (p' >>= f') U :=
  fun inside inside' c d hin hcd => (h inside inside' c d hin hcd).andThen
    (fun v w e e' value joins => hf v w value inside inside' e e' hin (joins.alive rfl))
    fun _ _ _ strays => absurd strays not_strays_sure

/-- At the end of a sequence nothing but a value may follow a parser that gets lost. -/
theorem Tracks.last {f f' : α → β} (h : P.Tracks s p p' V)
    (hf : ∀ v w, V v w → U (f v) (f' w)) :
    P.Tracks s (p >>= fun v => pure (f v)) (p' >>= fun w => pure (f' w)) U := by
  rw [bind_pure_comp, bind_pure_comp]
  exact h.map hf

theorem Follows.orElse {inside inside' : List Construct}
    (hp : P.Follows s V (p inside c) (p' inside' d))
    (hq : P.Follows s V (q inside c) (q' inside' d)) :
    P.Follows s V (p.orElse q inside c) (p'.orElse q' inside' d) := by
  unfold Parse.orElse
  generalize p inside c = o at hp ⊢
  generalize p' inside' d = o' at hp ⊢
  cases hp with
  | matched value joins => exact .matched value joins
  | stranded strays => exact .stranded strays
  | unmatched => exact hq
  | failed alike =>
    refine .failed fun hs => ?_
    obtain ⟨other, ho, ha⟩ := alike hs
    exact ⟨other, by rw [ho], ha⟩

theorem Tracks.orElse (hp : P.Tracks s p p' V) (hq : P.Tracks s q q' V) :
    P.Tracks s (p.orElse q) (p'.orElse q') V :=
  fun inside inside' c d hin hcd =>
    (hp inside inside' c d hin hcd).orElse (hq inside inside' c d hin hcd)

theorem tracks_unmatched (s : Strength) :
    P.Tracks s (Parse.unmatched : Parse α) Parse.unmatched V := fun _ _ _ _ _ _ => .unmatched

theorem Tracks.advise {a : Failure → Failure} (h : P.Tracks s p p' V)
    (ha : ∀ failure other, P.isStrict → P.Alike failure other → P.Alike (a failure) (a other)) :
    P.Tracks s (Parse.advise a p) (Parse.advise a p') V := by
  intro inside inside' c d hin hcd
  unfold Parse.advise
  have hfollows := h inside inside' c d hin hcd
  generalize p inside c = o at hfollows ⊢
  generalize p' inside' d = o' at hfollows ⊢
  cases hfollows with
  | matched value joins => exact .matched value joins
  | stranded strays => exact .stranded strays
  | unmatched => exact .unmatched
  | failed alike =>
    refine .failed fun hs => ?_
    obtain ⟨other, ho, halike⟩ := alike hs
    exact ⟨a other, by rw [ho], ha _ _ hs halike⟩

theorem Tracks.within (h : P.Tracks s p p' V) (construct : Construct) :
    P.Tracks s (Parse.within construct p) (Parse.within construct p') V :=
  fun inside inside' c d hin hcd => h (construct :: inside) (construct :: inside') c d
    (fun hs => congrArg (construct :: ·) (hin hs)) hcd

theorem Reads.follows {r r' : Reader α} (h : P.Reads s V (r c) (r' d))
    (inside inside' : List Construct) :
    P.Follows s V (Parse.read r inside c) (Parse.read r' inside' d) := by
  unfold Parse.read
  generalize r c = x at h ⊢
  generalize r' d = y at h ⊢
  cases h with
  | none => exact .unmatched
  | some h => exact .matched h.1 h.2

theorem Reads.weaken {x y : Option (α × Cursor)} (h : P.Reads .sure V x y) (s : Strength) :
    P.Reads s V x y := by
  cases h with
  | none => exact .none
  | some h => exact .some ⟨h.1, (h.2.alive rfl).joins s⟩

/-- Readers of tokens that never go past the right text. -/
theorem tracks_token {r r' : Reader α} (h : ∀ c d, P.Alive c d → P.Reads s V (r c) (r' d)) :
    P.Tracks s (Parse.read r) (Parse.read r') V :=
  fun inside inside' c d _ hcd => (h c d hcd).follows inside inside'

theorem tracks_read {r r' : Reader α} (hs : s ≠ .sure)
    (h : ∀ c d, P.Alive c d → P.Passes ((r c).map Prod.snd) ∨ P.Reads s V (r c) (r' d)) :
    P.Tracks s (Parse.read r) (Parse.read r') V := by
  intro inside inside' c d _ hcd
  rcases h c d hcd with ⟨e, he, hpast⟩ | hreads
  · obtain ⟨found, hfound, rfl⟩ := Option.map_eq_some_iff.mp he
    unfold Parse.read
    rw [hfound]
    exact .stranded (.inr ⟨hs, hpast⟩)
  · exact hreads.follows inside inside'

end Pairing

end VisualBasic
