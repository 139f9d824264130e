import VisualBasic.Parse.Lawful
import VisualBasic.Parse.Token
import VisualBasic.Proofs.Span.Region

/-!
# Parsers that lay out regions

`Moves p R` says how a match of `p` moves; `Yields p R view` says besides that the regions of its
value lie in order between its ends. `Proceeds` follows a sequence of parsers from where it began,
with the regions gathered on the way. Motions are put together by `Composes`: after a token more
tokens, or nothing, still make a token, and whatever follows a token opens it until the next one
closes it.
-/

set_option autoImplicit false

namespace VisualBasic

namespace Cursor

/-- Over a token or not at all. -/
def Slack (c d : Cursor) : Prop := d = c ∨ Token c d

theorem Begun.slack {c d e : Cursor} (h : Begun c d) (h' : Slack d e) : Begun c e := by
  rcases h' with rfl | h'
  · exact h
  · exact (h.token h').begun

/-- Over a token and then anything. -/
def Opened (c d : Cursor) : Prop := ∃ e, Token c e ∧ Reaches e d

theorem Slack.reaches {c d : Cursor} (h : Slack c d) : Reaches c d := by
  rcases h with rfl | h
  · exact Reaches.refl _
  · exact h.reaches

theorem Opened.reaches {c d : Cursor} (h : Opened c d) : Reaches c d := by
  obtain ⟨e, h, h'⟩ := h
  exact h.reaches.trans h'

theorem Opened.length_lt {c d : Cursor} (h : Opened c d) : d.rest.length < c.rest.length := by
  obtain ⟨e, h, h'⟩ := h
  exact Nat.lt_of_le_of_lt h'.length_le h.length_lt

theorem Token.opened {c d : Cursor} (h : Token c d) : Opened c d := ⟨d, h, Reaches.refl d⟩

/-- Over some text. -/
def Ahead (c d : Cursor) : Prop := Reaches c d ∧ d.rest.length < c.rest.length

theorem Opened.ahead {c d : Cursor} (h : Opened c d) : Ahead c d := ⟨h.reaches, h.length_lt⟩

theorem Begun.ahead {c d : Cursor} (h : Begun c d) : Ahead c d := ⟨h.reaches, h.length_lt⟩

theorem Token.ahead {c d : Cursor} (h : Token c d) : Ahead c d := h.begun.ahead

/-- A motion that never goes back. -/
class Forward (R : Cursor → Cursor → Prop) : Prop where
  reaches {c d : Cursor} (h : R c d) : Reaches c d

instance : Forward Begun := ⟨Begun.reaches⟩

instance : Forward Token := ⟨Token.reaches⟩

instance : Forward Ahead := ⟨And.left⟩

instance : Forward Slack := ⟨Slack.reaches⟩

instance : Forward Opened := ⟨Opened.reaches⟩

instance : Forward Reaches := ⟨id⟩

/-- A motion after a motion makes a third. -/
class Composes (M R : Cursor → Cursor → Prop) (N : outParam (Cursor → Cursor → Prop)) : Prop where
  comp {c d e : Cursor} (h : M c d) (h' : R d e) : N c e

instance : Composes Slack Token Token := ⟨by
  rintro c d e (rfl | h) h'
  · exact h'
  · exact h.trans h'⟩

instance : Composes Slack Slack Slack := ⟨by
  rintro c d e (rfl | h) (rfl | h')
  · exact .inl rfl
  · exact .inr h'
  · exact .inr h
  · exact .inr (h.trans h')⟩

instance : Composes Token Token Token := ⟨Token.trans⟩

instance : Composes Begun Token Token := ⟨Begun.token⟩

instance : Composes Begun Slack Begun := ⟨Begun.slack⟩

instance : Composes Slack Begun Begun := ⟨by
  rintro c d e (rfl | h) h'
  · exact h'
  · exact h.begun.trans h'⟩

instance : Composes Token Begun Opened := ⟨fun h h' => ⟨_, h, h'.reaches⟩⟩

instance : Composes Token Slack Token := ⟨by
  rintro c d e h (rfl | h')
  · exact h
  · exact h.trans h'⟩

instance : Composes Token Reaches Opened := ⟨fun h h' => ⟨_, h, h'⟩⟩

instance : Composes Token Opened Opened := ⟨fun h h' => ⟨_, h, h'.reaches⟩⟩

instance : Composes Slack Opened Opened := ⟨by
  rintro c d e h ⟨f, h', h''⟩
  exact ⟨f, Composes.comp h h', h''⟩⟩

instance : Composes Opened Token Token := ⟨by
  rintro c d e ⟨f, h, h'⟩ h''
  exact h.join h' h''⟩

instance : Composes Opened Slack Opened := ⟨by
  rintro c d e ⟨f, h, h'⟩ h''
  exact ⟨f, h, h'.trans h''.reaches⟩⟩

instance : Composes Opened Reaches Opened := ⟨by
  rintro c d e ⟨f, h, h'⟩ h''
  exact ⟨f, h, h'.trans h''⟩⟩

instance : Composes Reaches Reaches Reaches := ⟨Reaches.trans⟩

instance : Composes Opened Opened Opened := ⟨by
  rintro c d e ⟨f, h, h'⟩ h''
  exact ⟨f, h, h'.trans h''.reaches⟩⟩

end Cursor

namespace Parse

open Cursor (Begun Token Slack Opened Reaches Forward Composes)

variable {α β : Type} {M R N K : Cursor → Cursor → Prop} {view : α → List Region}

theorem matched_bind {p : Parse α} {f : α → Parse β} {inside : List Construct} {c d : Cursor}
    {value : β} (h : (p >>= f) inside c = .matched value d) :
    ∃ first middle, p inside c = .matched first middle ∧ f first inside middle =
    .matched value d := by
  rw [bind_apply] at h
  split at h
  · exact ⟨_, _, ‹_›, h⟩
  · contradiction
  · contradiction

theorem matched_pass {token : Cursor → Option Cursor} {inside : List Construct} {c d : Cursor}
    {value : Unit} (h : pass token inside c = .matched value d) : token c = some d := by
  unfold pass at h
  split at h
  · cases h
    assumption
  · contradiction

theorem matched_read {reader : Reader α} {inside : List Construct} {c d : Cursor} {value : α}
    (h : read reader inside c = .matched value d) : reader c = some (value, d) := by
  unfold read at h
  split at h
  · cases h
    assumption
  · contradiction

theorem matched_orElse {p q : Parse α} {inside : List Construct} {c d : Cursor} {value : α}
    (h : p.orElse q inside c = .matched value d) :
    p inside c = .matched value d ∨ p inside c = .unmatched ∧ q inside c = .matched value d := by
  unfold Parse.orElse at h
  split at h
  · exact .inr ⟨‹_›, h⟩
  · exact .inl h

theorem matched_require {p : Parse α} {expected : Expected} {inside : List Construct} {c d : Cursor}
    {value : α}
    (h : require expected p inside c = .matched value d) : p inside c = .matched value d := by
  unfold require Parse.orElse at h
  split at h
  · contradiction
  · exact h

theorem matched_opt_some {p : Parse α} {inside : List Construct} {c d : Cursor} {value : α}
    (h : opt p inside c = .matched (some value) d) : p inside c = .matched value d := by
  unfold opt orElse at h
  split at h
  · cases h
  · obtain ⟨first, middle, hp, h⟩ := matched_bind h
    cases h
    exact hp

/-- A match moves as `R` says. -/
def Moves (p : Parse α) (R : Cursor → Cursor → Prop) : Prop :=
  ∀ inside c value after, p inside c = .matched value after → R c after

/-- A match moves as `R` says, with the regions of its value in order between its ends. -/
def Yields (p : Parse α) (R : Cursor → Cursor → Prop) (view : α → List Region) : Prop :=
  ∀ inside c value after, p inside c = .matched value after →
    R c after ∧ InOrder c after (view value)

/-- From a place that `M` reaches from the start, with regions laid out between, a match gets as far
as `N` says, with regions laid out that `P` says its value has. -/
def Proceeds (M : Cursor → Cursor → Prop) (regions : List Region) (p : Parse α)
    (N : Cursor → Cursor → Prop) (P : α → List Region → Prop) : Prop :=
  ∀ start inside c value after, M start c → InOrder start c regions →
    p inside c = .matched value after → N start after ∧ ∃ more, P value more ∧
    InOrder start after more

theorem Yields.moves {p : Parse α} (h : Yields p R view) : Moves p R :=
  fun inside c value after hm => (h inside c value after hm).1

theorem Yields.advances {p : Parse α} (h : Yields p R view) : Advances p :=
  fun inside c value after hm => (h inside c value after hm).2.reaches

theorem Moves.advances [Forward R] {p : Parse α} (h : Moves p R) : Advances p :=
  fun inside c value after hm => Forward.reaches (h inside c value after hm)

theorem Yields.weaken {p : Parse α} (hR : ∀ {c d}, R c d → N c d) (h : Yields p R view) :
    Yields p N view := fun inside c value after hm =>
  ⟨hR (h inside c value after hm).1, (h inside c value after hm).2⟩

theorem Moves.yields [Forward R] {p : Parse α} (h : Moves p R) : Yields p R fun _ => [] :=
  fun inside c value after hm =>
    ⟨h inside c value after hm, .nil (Forward.reaches (h inside c value after hm))⟩

theorem Moves.weaken {p : Parse α} (hR : ∀ {c d}, R c d → N c d) (h : Moves p R) : Moves p N :=
  fun inside c value after hm => hR (h inside c value after hm)

/-! ## Sequences -/

theorem Proceeds.pure {regions : List Region} {P : α → List Region → Prop} {value : α}
    (h : P value regions) : Proceeds M regions (pure value) M P := by
  intro start inside c value' after hM hr hm
  cases hm
  exact ⟨hM, regions, h, hr⟩

/-- A parser that yields regions, and what follows it. -/
theorem Yields.andThen [Composes M R N] {regions : List Region} {p : Parse α} {f : α → Parse β}
    {P : β → List Region → Prop} (h : Yields p R view)
    (hf : ∀ value, Proceeds N (regions ++ view value) (f value) K P) :
    Proceeds M regions (p >>= f) K P := by
  intro start inside c value after hM hr hm
  obtain ⟨first, middle, hp, hm⟩ := matched_bind hm
  obtain ⟨hR, hi⟩ := h inside c first middle hp
  exact hf first start inside middle value after (Composes.comp hM hR) (hr.append hi) hm

/-- A parser without regions, and what follows it. -/
theorem Moves.andThen [Forward R] [Composes M R N] {regions : List Region} {p : Parse α}
    {f : α → Parse β} {P : β → List Region → Prop} (h : Moves p R)
    (hf : ∀ value, Proceeds N regions (f value) K P) : Proceeds M regions (p >>= f) K P :=
  h.yields.andThen fun value => by simpa using hf value

theorem Proceeds.yields {p : Parse α}
    (h : Proceeds Slack [] p N fun value regions => view value = regions) : Yields p N view := by
  intro inside c value after hm
  obtain ⟨hN, regions, hv, hi⟩ := h c inside c value after (.inl rfl) (.nil (Reaches.refl c)) hm
  exact ⟨hN, hv ▸ hi⟩

theorem Proceeds.moves {p : Parse α} {P : α → List Region → Prop} (h : Proceeds Slack [] p N P) :
    Moves p N := fun inside c value after hm =>
  (h c inside c value after (.inl rfl) (.nil (Reaches.refl c)) hm).1

/-- A parser at the end of a sequence. -/
theorem Yields.last [Composes M R N] {regions : List Region} {p : Parse α}
    {P : α → List Region → Prop} (h : Yields p R view)
    (hP : ∀ value, P value (regions ++ view value)) : Proceeds M regions p N P := by
  intro start inside c value after hM hr hm
  obtain ⟨hR, hi⟩ := h inside c value after hm
  exact ⟨Composes.comp hM hR, _, hP value, hr.append hi⟩

theorem Yields.map {p : Parse α} {f : α → β} {view' : β → List Region} (h : Yields p R view)
    (hf : ∀ value, view' (f value) = view value) : Yields (f <$> p) R view' := by
  intro inside c value after hm
  obtain ⟨first, middle, hp, hm⟩ := matched_bind hm
  cases hm
  rw [hf]
  exact h inside c first after hp

/-! ## Choices and repetitions -/

theorem Yields.orElse {p q : Parse α} (hp : Yields p R view) (hq : Yields q R view) :
    Yields (p.orElse q) R view := by
  intro inside c value after hm
  unfold Parse.orElse at hm
  split at hm
  · exact hq inside c value after hm
  · exact hp inside c value after hm

theorem Proceeds.orElse {regions : List Region} {p q : Parse α} {P : α → List Region → Prop}
    (hp : Proceeds M regions p N P) (hq : Proceeds M regions q N P) :
    Proceeds M regions (p.orElse q) N P := by
  intro start inside c value after hM hr hm
  unfold Parse.orElse at hm
  split at hm
  · exact hq start inside c value after hM hr hm
  · exact hp start inside c value after hM hr hm

theorem yields_unmatched : Yields (unmatched : Parse α) R view := by
  intro inside c value after hm
  contradiction

theorem yields_firstOf {alternatives : List (Parse α)}
    (h : ∀ p ∈ alternatives, Yields p R view) : Yields (firstOf alternatives) R view := by
  induction alternatives with
  | nil => exact yields_unmatched
  | cons p rest ih =>
    exact (h p List.mem_cons_self).orElse (ih fun q hq => h q (List.mem_cons_of_mem p hq))

/-- What may be missing moves or stays. -/
theorem Yields.opt {p : Parse α} (h : Yields p R view) :
    Yields (opt p) (fun c d => d = c ∨ R c d) fun found => found.toList.flatMap view := by
  intro inside c value after hm
  unfold Parse.opt Parse.orElse at hm
  split at hm
  · cases hm
    exact ⟨.inl rfl, .nil (Reaches.refl c)⟩
  · obtain ⟨first, middle, hp, hm⟩ := matched_bind hm
    cases hm
    obtain ⟨hR, hi⟩ := h inside c first after hp
    exact ⟨.inr hR, by simpa using hi⟩

theorem Moves.opt [Forward R] {p : Parse α} (h : Moves p R) :
    Moves (opt p) fun c d => d = c ∨ R c d := h.yields.opt.moves

theorem Moves.optToken {p : Parse α} (h : Moves p Token) : Moves (Parse.opt p) Slack := h.opt

theorem Yields.optToken {p : Parse α} (h : Yields p Token view) :
    Yields (Parse.opt p) Slack fun found => found.toList.flatMap view := h.opt

theorem Yields.optReaches [Forward R] {p : Parse α} (h : Yields p R view) :
    Yields (Parse.opt p) Reaches fun found => found.toList.flatMap view :=
  h.opt.weaken (by
    rintro c d (rfl | hR)
    · exact Reaches.refl _
    · exact Forward.reaches hR)

theorem Moves.flag {p : Parse α} (h : Moves p Token) : Moves (Parse.flag p) Slack := by
  intro inside c value after hm
  unfold Parse.flag Parse.orElse at hm
  split at hm
  · cases hm
    exact .inl rfl
  · obtain ⟨first, middle, hp, hm⟩ := matched_bind hm
    cases hm
    exact .inr (h inside c first after hp)

/-- A repetition of a motion that holds of standing still and goes on after itself. -/
theorem Yields.manyOf {p : Parse α} (hN : ∀ c, N c c)
    (hNR : ∀ {c d e}, N c d → R d e → N c e) (h : Yields p R view) :
    Yields (many p) N fun values => values.flatMap view := by
  have main (inside : List Construct) (c start : Cursor) (values : List α) (after : Cursor)
      (hs : N start c) (hm : many p inside c = .matched values after) :
      N start after ∧ InOrder c after (values.flatMap view) := by
    fun_induction many p inside c generalizing start values after with
    | case1 c hu =>
      cases hm
      exact ⟨hs, .nil (Reaches.refl c)⟩
    | case2 => contradiction
    | case3 c first middle hp _ rest last hrest ih =>
      cases hm
      obtain ⟨hR, hi⟩ := h _ _ _ _ hp
      obtain ⟨hl, hi'⟩ := ih _ _ _ (hNR hs hR) hrest
      exact ⟨hl, hi.append hi'⟩
    | case4 c first middle hp =>
      cases hm
      obtain ⟨hR, hi⟩ := h _ _ _ _ hp
      exact ⟨hNR hs hR, by simpa using hi⟩
    | case5 => contradiction
    | case6 c first middle hp =>
      cases hm
      obtain ⟨hR, hi⟩ := h _ _ _ _ hp
      exact ⟨hNR hs hR, by simpa using hi⟩
  intro inside c values after hm
  exact main inside c c values after (hN c) hm

theorem Yields.many {p : Parse α} (h : Yields p Token view) :
    Yields (Parse.many p) Slack fun values => values.flatMap view :=
  h.manyOf (fun _ => .inl rfl) fun h h' => .inr (Composes.comp h h')

theorem Yields.manyReaches {p : Parse α} [Forward R] (h : Yields p R view) :
    Yields (Parse.many p) Reaches fun values => values.flatMap view :=
  h.manyOf Reaches.refl fun h h' => h.trans (Forward.reaches h')

/-! ## Readers, marks and tokens -/

theorem yields_read {reader : Reader α}
    (h : ∀ c value after, reader c = some (value, after) →
      R c after ∧ InOrder c after (view value)) : Yields (read reader) R view := by
  intro inside c value after hm
  unfold read at hm
  split at hm
  · cases hm
    exact h _ _ _ ‹_›
  · contradiction

theorem moves_read {reader : Reader α}
    (h : ∀ {c value after}, reader c = some (value, after) → R c after) :
    Moves (read reader) R := by
  intro inside c value after hm
  unfold read at hm
  split at hm
  · cases hm
    exact h ‹_›
  · contradiction

theorem moves_pass {token : Cursor → Option Cursor}
    (h : ∀ {c after}, token c = some after → R c after) : Moves (pass token) R := by
  intro inside c value after hm
  unfold pass at hm
  split at hm
  · cases hm
    exact h ‹_›
  · contradiction

theorem moves_failAt {place : Cursor} {expected : Expected} :
    Moves (failAt place expected : Parse α) R := by
  intro inside c value after hm
  contradiction

theorem yields_fail {expected : Expected} : Yields (fail expected : Parse α) R view := by
  intro inside c value after hm
  contradiction

theorem Yields.require {p : Parse α} {expected : Expected} (h : Yields p R view) :
    Yields (require expected p) R view := h.orElse yields_fail

theorem Moves.require [Forward R] {p : Parse α} {expected : Expected} (h : Moves p R) :
    Moves (Parse.require expected p) R := h.yields.require.moves

theorem Moves.advise {f : Failure → Failure} {p : Parse α} (h : Moves p R) :
    Moves (advise f p) R := by
  intro inside c value after hm
  unfold Parse.advise at hm
  split at hm
  · contradiction
  · exact h inside c value after hm

theorem Yields.within {construct : Construct} {p : Parse α} (h : Yields p R view) :
    Yields (within construct p) R view := fun inside => h (construct :: inside)

theorem moves_nextToken : Moves nextToken Slack := by
  intro inside c value after hm
  cases hm
  exact .inl rfl

theorem moves_mark : Moves mark Reaches := advances_mark

theorem moves_here : Moves here Slack := by
  intro inside c value after hm
  cases hm
  exact .inl rfl

theorem moves_unlessKeyword (k : Keyword) : Moves (unlessKeyword k) Slack := by
  intro inside c value after hm
  unfold unlessKeyword at hm
  split at hm
  · contradiction
  · cases hm
    exact .inl rfl

theorem moves_keyword (k : Keyword) : Moves (keyword k) Token := moves_pass Cursor.token_of_keyword

theorem begins_symbol {char : Char} (hi : isDelimiter char = true) :
    Moves (symbol char) Begun := moves_pass (Cursor.begun_of_symbol hi)

theorem moves_symbol {char : Char} (hi : isDelimiter char = true) (hshut : isOpener char = false) :
    Moves (symbol char) Token := moves_pass (Cursor.token_of_symbol hi hshut)

theorem begins_adjacent {char : Char} (hi : isDelimiter char = true) :
    Moves (adjacent char) Begun := moves_pass (Cursor.begun_of_adjacent hi)

theorem moves_adjacent {char : Char} (hi : isDelimiter char = true)
    (hshut : isOpener char = false) :
    Moves (adjacent char) Token := moves_pass (Cursor.token_of_adjacent hi hshut)

theorem moves_identifier : Moves identifier Token := moves_read Cursor.token_of_identifier

theorem moves_number : Moves (read Cursor.number) Token := moves_read Cursor.token_of_number

theorem moves_quoted : Moves (read Cursor.quoted) Token := moves_read Cursor.token_of_quoted

theorem moves_relation : Moves (read Cursor.relation) Token := moves_read Cursor.token_of_relation

theorem moves_lineEnd : Moves (pass Cursor.lineEnd) Reaches := moves_pass Cursor.reaches_of_lineEnd

theorem moves_requireKeyword (k : Keyword) : Moves (requireKeyword k) Token :=
  (moves_keyword k).require.advise

theorem begins_requireSymbol {char : Char} (hi : isDelimiter char = true) :
    Moves (requireSymbol char) Begun := (begins_symbol hi).require

theorem moves_requireSymbol {char : Char} (hi : isDelimiter char = true)
    (hshut : isOpener char = false) : Moves (requireSymbol char) Token :=
  (moves_symbol hi hshut).require

theorem moves_requireTerminator : Moves requireTerminator Reaches :=
  (moves_pass Cursor.reaches_of_terminator).require

theorem moves_requireName (part : String) : Moves (requireName part) Token :=
  moves_identifier.require.advise

theorem moves_requireQuoted (part : String) : Moves (requireQuoted part) Token :=
  moves_quoted.require

theorem moves_requireEnd (k : Keyword) : Moves (requireEnd k) Token :=
  Proceeds.moves (P := fun _ _ => True) <|
    (moves_keyword .End).require.andThen fun _ =>
      (moves_requireKeyword k).yields.last fun _ => trivial

/-- One part after another whose value is dropped. -/
theorem Moves.seqRight [Forward R] [Forward N] [Composes R K N] {p : Parse α} {q : Parse β}
    {view : β → List Region} (hp : Moves p R) (hq : Yields q K view) : Yields (p *> q) N view := by
  intro inside c value after hm
  obtain ⟨first, middle, hp', hm⟩ := matched_bind (f := fun _ => q) hm
  obtain ⟨hK, hi⟩ := hq inside middle value after hm
  have hR := hp inside c first middle hp'
  exact ⟨Composes.comp hR hK, hi.after_reaches (Forward.reaches hR)⟩

theorem yields_pure (value : α) : Yields (pure value : Parse α) Slack fun _ => [] := by
  intro inside c value' after hm
  cases hm
  exact ⟨.inl rfl, .nil (Reaches.refl c)⟩

theorem moves_oneOf (table : List (Keyword × α)) : Moves (oneOf table) Token := by
  refine (yields_firstOf fun p hp => ?_ : Yields (oneOf table) Token fun _ => []).moves
  obtain ⟨entry, _, rfl⟩ := List.mem_map.mp hp
  exact (moves_keyword entry.1).seqRight (yields_pure entry.2)

/-- A number with a meaning. -/
theorem moves_requireNumber (expected : Expected) (meaning : Literal → Option α) :
    Moves (requireNumber expected meaning) Token := by
  intro inside c value after hm
  obtain ⟨place, d, hplace, hm⟩ := matched_bind hm
  cases hplace
  obtain ⟨number, d, hn, hm⟩ := matched_bind hm
  cases number with
  | none => contradiction
  | some number =>
    have ht := moves_number inside c number d (matched_opt_some hn)
    rw [Option.bind_some] at hm
    cases hv : meaning number with
    | none =>
      rw [hv] at hm
      contradiction
    | some found =>
      rw [hv] at hm
      cases hm
      exact ht

theorem Yields.separated {first next : Parse α} (hf : Yields first Token view)
    (hn : Yields next Token view) :
    Yields (separated first next) Token fun values => values.flatMap view :=
  Proceeds.yields <| hf.andThen fun head =>
    ((begins_symbol (by decide)).seqRight hn).many.andThen fun tail => .pure (by simp)

theorem Yields.after {k : Keyword} {p : Parse α} (h : Yields p Token view) :
    Yields (after k p) Slack fun found => found.toList.flatMap view :=
  ((moves_keyword k).seqRight h).optToken

theorem Moves.after {k : Keyword} {p : Parse α} (h : Moves p Token) :
    Moves (Parse.after k p) Slack := h.yields.after.moves

/-- A tight span runs from the next token to the end of the last one. -/
theorem Proceeds.tight {p : Parse (Span → α)}
    (h : Proceeds Slack [] p Token fun build regions =>
      ∀ span, view (build span) = [.mk span true regions]) :
      Yields (Parse.spanned p) Token view := by
  intro inside c value after hm
  obtain ⟨start, d, hstart, hm⟩ := matched_bind hm
  cases hstart
  obtain ⟨build, d, hp, hm⟩ := matched_bind hm
  obtain ⟨stop, e, hstop, hm⟩ := matched_bind hm
  cases hstop
  cases hm
  obtain ⟨ht, regions, hv, hi⟩ :=
    h c.skipBlanks inside c.skipBlanks build _ (.inl rfl) (.nil (Reaches.refl _)) hp
  rw [hv]
  have ht := Cursor.token_skipBlanks_iff.mp ht
  exact ⟨ht, InOrder.token ht hi⟩

/-- A span that is not tight may end anywhere. -/
theorem Proceeds.loose {p : Parse (Span → α)}
    (h : Proceeds Slack [] p Opened fun build regions =>
      ∀ span, view (build span) = [.mk span false regions]) :
    Yields (Parse.spanned p) Opened view := by
  intro inside c value after hm
  obtain ⟨start, d, hstart, hm⟩ := matched_bind hm
  cases hstart
  obtain ⟨build, d, hp, hm⟩ := matched_bind hm
  obtain ⟨stop, e, hstop, hm⟩ := matched_bind hm
  cases hstop
  cases hm
  obtain ⟨⟨e, ht, hr⟩, regions, hv, hi⟩ :=
    h c.skipBlanks inside c.skipBlanks build _ (.inl rfl) (.nil (Reaches.refl _)) hp
  rw [hv]
  exact ⟨⟨e, Cursor.token_skipBlanks_iff.mp ht, hr⟩,
    .cons (Cursor.reaches_skipBlanks c) (fun ht => absurd ht (by decide)) hi
      (.nil (Reaches.refl _))⟩

theorem matched_spanned {p : Parse (Span → α)} {inside : List Construct} {c d : Cursor} {value : α}
    (h : spanned p inside c = .matched value d) :
    ∃ build, p inside c.skipBlanks = .matched build d ∧ value = build (c.skipBlanks.spanTo d) := by
  obtain ⟨start, e, hstart, h⟩ := matched_bind h
  cases hstart
  obtain ⟨build, e, hbuild, h⟩ := matched_bind h
  obtain ⟨stop, f, hstop, h⟩ := matched_bind h
  cases hstop
  cases h
  exact ⟨build, hbuild, rfl⟩

theorem terminator_of_requireTerminator {inside : List Construct} {c d : Cursor} {value : Unit}
    (h : requireTerminator inside c = .matched value d) : c.terminator = some d :=
  matched_pass (matched_require h)

/-- A sentence is what it is made of, under its span, and a terminator. -/
theorem matched_sentence {construct : Construct} {p : Parse (Span → α)} {inside : List Construct}
    {c after : Cursor} {value : α} (h : sentence construct p inside c = .matched value after) :
    ∃ build stop, p (construct :: inside) c.skipBlanks = .matched build stop ∧
      value = build (c.skipBlanks.spanTo stop) ∧ stop.terminator = some after := by
  obtain ⟨first, stop, hfirst, h⟩ := matched_bind h
  obtain ⟨_, e, hend, h⟩ := matched_bind h
  cases h
  obtain ⟨build, hbuild, hvalue⟩ := matched_spanned hfirst
  exact ⟨build, stop, hbuild, hvalue, terminator_of_requireTerminator hend⟩

/-- A match is one tight region up to a place where a construct may end, and a terminator. -/
def Concludes (p : Parse α) (view : α → List Region) : Prop :=
  ∀ inside c value after, p inside c = .matched value after → ∃ stop parts,
    view value = [.mk (c.skipBlanks.spanTo stop) true parts] ∧ Token c stop ∧
      InOrder c.skipBlanks stop parts ∧ stop.terminator = some after

theorem Concludes.yields {p : Parse α} (h : Concludes p view) : Yields p Opened view := by
  intro inside c value after hm
  obtain ⟨stop, parts, hview, htoken, hparts, hend⟩ := h inside c value after hm
  have hreach := Cursor.reaches_of_terminator hend
  rw [hview]
  exact ⟨⟨stop, htoken, hreach⟩, (InOrder.token htoken hparts).before_reaches hreach⟩

theorem Concludes.map {p : Parse α} {f : α → β} {view' : β → List Region} (h : Concludes p view)
    (hf : ∀ value, view' (f value) = view value) : Concludes (f <$> p) view' := by
  intro inside c value after hm
  obtain ⟨first, middle, hp, hm⟩ := matched_bind hm
  cases hm
  rw [hf]
  exact h inside c first after hp

theorem Concludes.orElse {p q : Parse α} (hp : Concludes p view) (hq : Concludes q view) :
    Concludes (p.orElse q) view := by
  intro inside c value after hm
  rcases matched_orElse hm with hm | ⟨_, hm⟩
  · exact hp inside c value after hm
  · exact hq inside c value after hm

theorem concludes_unmatched : Concludes (unmatched : Parse α) view := by
  intro inside c value after hm
  contradiction

theorem concludes_firstOf {alternatives : List (Parse α)}
    (h : ∀ p ∈ alternatives, Concludes p view) : Concludes (firstOf alternatives) view := by
  induction alternatives with
  | nil => exact concludes_unmatched
  | cons p rest ih =>
    exact (h p List.mem_cons_self).orElse (ih fun q hq => h q (List.mem_cons_of_mem p hq))

theorem Proceeds.sentence {construct : Construct} {p : Parse (Span → α)}
    (h : Proceeds Slack [] p Token fun build regions =>
      ∀ span, view (build span) = [.mk span true regions]) :
    Concludes (Parse.sentence construct p) view := by
  intro inside c value after hm
  obtain ⟨build, stop, hbuild, rfl, hend⟩ := matched_sentence hm
  obtain ⟨htoken, parts, hview, hparts⟩ :=
    h c.skipBlanks _ c.skipBlanks build stop (.inl rfl) (.nil (Reaches.refl _)) hbuild
  exact ⟨stop, parts, hview _, Cursor.token_skipBlanks_iff.mp htoken, hparts, hend⟩

/-- A parser that uses itself yields what each step does. -/
theorem Yields.fix {step : Parse α → Parse α} (h : ∀ p, Yields p R view → Yields (step p) R view) :
    Yields (Parse.fix step) R view := by
  intro inside c
  fun_induction Parse.fix step inside c with
  | case1 inside c ih =>
    refine h _ ?_ inside c
    intro inner d value after hd
    dsimp only at hd
    split at hd
    · exact ih inner d ‹_› value after hd
    · contradiction

end Parse

end VisualBasic
