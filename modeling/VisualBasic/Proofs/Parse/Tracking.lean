import VisualBasic.Proofs.Cursor.Blank
import VisualBasic.Proofs.Parse.Correspondence
import VisualBasic.Proofs.Parse.Runs
import VisualBasic.Proofs.Parse.Unrolling

/-!
# Following tokens, repetitions and sentences

What a correspondence says of tokens, carried over to the parsers for tokens and to whatever is
built from them. After a parser that may leave one of the texts comes one that is committed: from
where nothing is known it leads to where nothing is known, or fails.
-/

set_option autoImplicit false

namespace VisualBasic

namespace Pairing

open Parse

variable {K : Correspondence} {α β γ : Type} {s t : Strength} {p p' q q' : Parse α}
  {V : α → α → Prop} {U : β → β → Prop} {f f' : α → Parse β} {g : Relabel → α → γ} {c d : Cursor}

theorem keeps_pure {v : α} (h : g K.left v = g K.right v) (s : Strength) :
    K.Keeps s (pure v) g := by
  have hv : K.On g v v := h
  exact tracks_pure hv s

/-! ## Sequences that may leave one of the texts -/

theorem lost_of_reaches (h : K.lost c) (hr : Cursor.Reaches c d) : K.lost d := by
  rwa [Cursor.eq_of_reaches_of_rest_eq_nil (K.rest_of_lost h) hr]

theorem Strays.move (h : K.Strays s c) (hr : Cursor.Reaches c d) : K.Strays s d :=
  h.imp (fun h => ⟨h.1, lost_of_reaches h.2 hr⟩) fun h => ⟨h.1, K.past_of_reaches h.2 hr⟩

/-- From where a committed parser strays it leads to where it strays, or fails. -/
theorem Strays.follows (h : K.Strays s c) (hp : Commits p) (inside : List Construct)
    (outcome : Outcome α) : K.Follows s V (p inside c) outcome := by
  cases hm : p inside c with
  | matched v e => exact .stranded (h.move (hp.advances inside c v e hm))
  | unmatched => exact absurd hm (hp.ne_unmatched inside c)
  | failed failure => exact .failed fun hs => absurd hs (K.not_strict (h.imp And.right And.right))

/-- From where a match may stray, nothing but straying is left to a repetition. -/
theorem Strays.loosen (h : K.Strays s c) : K.Strays .loose c :=
  h.imp (fun h => ⟨rfl, h.2⟩) fun h => ⟨by decide, h.2⟩

/-- A committed parser may follow one that gets lost. -/
theorem Tracks.thenStays (h : K.Tracks s p p' V)
    (hf : ∀ v w, V v w → K.Tracks .loose (f v) (f' w) U) (hcommits : ∀ v, Commits (f v)) :
    K.Tracks .loose (p >>= f) (p' >>= f') U := by
  intro inside inside' c d hin hcd
  refine (h inside inside' c d hin hcd).andThen (fun v w e e' value joins => ?_)
    fun v e outcome hs => hs.loosen.follows (hcommits v) inside outcome
  by_cases hl : K.lost e
  · exact Strays.follows (.inl ⟨rfl, hl⟩) (hcommits v) inside _
  · exact hf v w value inside inside' e e' hin ⟨joins.1, hl⟩

/-- A parser that closes a construct fails where the left text has been used up. -/
theorem Tracks.thenFails (h : K.Tracks s p p' V)
    (hf : ∀ v w, V v w → K.Tracks t (f v) (f' w) U) (hdemands : ∀ v, Demands (f v))
    (ht : t ≠ .sure) : K.Tracks t (p >>= f) (p' >>= f') U := by
  have hlost (v : α) (inside : List Construct) {e : Cursor} (hl : K.lost e) (outcome : Outcome β) :
      K.Follows t U (f v inside e) outcome := by
    obtain ⟨failure, hm⟩ := (hdemands v).fails inside e (K.rest_of_lost hl)
    rw [hm]
    exact .failed fun hs => absurd hs (K.not_strict (.inl hl))
  intro inside inside' c d hin hcd
  refine (h inside inside' c d hin hcd).andThen (fun v w e e' value joins => ?_)
    fun v e outcome hs => ?_
  · by_cases hl : K.lost e
    · exact hlost v inside hl _
    · exact hf v w value inside inside' e e' hin ⟨joins.1, hl⟩
  · rcases hs with ⟨_, hl⟩ | ⟨_, hpast⟩
    · exact hlost v inside hl outcome
    · exact Strays.follows (.inr ⟨ht, hpast⟩) (hdemands v).toCommits inside outcome

/-- A committed parser may follow one that goes past the right text. -/
theorem Tracks.thenCommits (h : K.Tracks .closed p p' V)
    (hf : ∀ v w, V v w → K.Tracks s (f v) (f' w) U) (hcommits : ∀ v, Commits (f v))
    (hs : s ≠ .sure) : K.Tracks s (p >>= f) (p' >>= f') U := by
  intro inside inside' c d hin hcd
  refine (h inside inside' c d hin hcd).andThen
    (fun v w e e' value joins => hf v w value inside inside' e e' hin (joins.alive rfl))
    fun v e outcome hstray => ?_
  rcases hstray with ⟨hloose, _⟩ | ⟨_, hpast⟩
  · contradiction
  · exact Strays.follows (.inr ⟨hs, hpast⟩) (hcommits v) inside outcome

/-- After a parser that is not lost where it ends a committed one comes to the same strength. -/
theorem Tracks.thenFirm (h : K.Tracks s p p' V) (hs : s.isFirm = true)
    (hf : ∀ v w, V v w → K.Tracks s (f v) (f' w) U) (hcommits : ∀ v, Commits (f v)) :
    K.Tracks s (p >>= f) (p' >>= f') U := fun inside inside' c d hin hcd =>
  (h inside inside' c d hin hcd).andThen
    (fun v w e e' value joins => hf v w value inside inside' e e' hin (joins.alive hs))
    fun v _ outcome hstrays => hstrays.follows (hcommits v) inside outcome

/-! ## Choices and repetitions -/

theorem Tracks.opt (h : K.Tracks s p p' (K.On g)) :
    K.Tracks s (Parse.opt p) (Parse.opt p') (K.On fun r found => found.map (g r)) := by
  have hnone : K.On (fun r (found : Option α) => found.map (g r)) none none := rfl
  exact Tracks.orElse (h.last fun _ _ hv => congrArg some hv) (tracks_pure hnone s)

/-- A part that may be missing, with a value that has no spans and no texts. -/
theorem Tracks.optPlain (h : K.Tracks .sure p p' (K.On Relabel.plain)) :
    K.Tracks .sure (Parse.opt p) (Parse.opt p') (K.On Relabel.plain) :=
  h.opt.weaken (fun _ _ hv => by simpa [On] using hv) _

/-- After a value without spans and texts the same parser comes on both sides. -/
theorem Tracks.thenSame (h : K.Tracks .sure p p' (K.On Relabel.plain))
    (hf : ∀ v, K.Tracks s (f v) (f' v) U) : K.Tracks s (p >>= f) (p' >>= f') U := by
  refine h.andThen fun v w hv => ?_
  obtain rfl : v = w := hv
  exact hf v

theorem Tracks.flag (h : K.Tracks .sure p p' V) :
    K.Tracks .sure (Parse.flag p) (Parse.flag p') (K.On Relabel.plain) := by
  have hplain (isMet : Bool) : K.On Relabel.plain isMet isMet := rfl
  exact Tracks.orElse (h.last fun _ _ _ => hplain true) (tracks_pure (hplain false) _)

/-- A repetition that does not get lost, or of which nothing is asked once it is. The induction is
on the text left on the left side. -/
theorem Tracks.manyOf (h : K.Tracks s p p' (K.On g)) (hp : Moves p Cursor.Ahead)
    (hp' : Moves p' Cursor.Ahead) (hst : s.isFirm = true ∧ t = s ∨ t = .loose) :
    K.Tracks t (Parse.many p) (Parse.many p') (K.On fun r values => values.map (g r)) := by
  have hcommits (v : α) : Commits (Parse.many p >>= fun rest => pure (v :: rest)) :=
    (commits_many hp.advances).andThen fun rest => commits_pure (v :: rest)
  intro inside inside' c d hin hcd
  induction hn : c.rest.length using Nat.strongRecOn generalizing c d with
  | _ n ih =>
    have hfollows := h inside inside' c d hin hcd
    generalize hv : p inside c = o at hfollows
    generalize hw : p' inside' d = o' at hfollows
    cases hfollows with
    | @matched v w e e' value joins =>
      rw [many_eq_of_matched hp hv]
      by_cases hl : K.lost e
      · have ht : t = .loose := hst.resolve_left fun hs => joins.2 hs.1 hl
        exact Strays.follows (.inl ⟨ht, hl⟩) (hcommits v) inside _
      · rw [many_eq_of_matched hp' hw]
        have hlt := (hp inside c v e hv).2
        refine (ih e.rest.length (by omega) e e' ⟨joins.1, hl⟩ rfl).andThen
          (fun values others _ _ hvalues joins => .matched ?_ joins)
          fun values e outcome hs => .stranded hs
        have hhead : g K.left v = g K.right w := value
        have htail : values.map (g K.left) = others.map (g K.right) := hvalues
        rw [On, List.map_cons, List.map_cons, hhead, htail]
    | @stranded v e _ hs =>
      rw [many_eq_of_matched hp hv]
      rcases hst with ⟨_, rfl⟩ | rfl
      · exact hs.follows (hcommits v) inside _
      · exact hs.loosen.follows (hcommits v) inside _
    | unmatched =>
      rw [Parse.many, Parse.many, hv, hw]
      exact .matched rfl (hcd.joins t)
    | failed alike =>
      rw [Parse.many, hv]
      refine .failed fun hs => ?_
      obtain ⟨other, ho, ha⟩ := alike hs
      exact ⟨other, by rw [Parse.many, hw, ho], ha⟩

theorem Tracks.many (h : K.Tracks s p p' (K.On g)) (hs : s.isFirm = true)
    (hp : Moves p Cursor.Ahead) (hp' : Moves p' Cursor.Ahead) :
    K.Tracks s (Parse.many p) (Parse.many p') (K.On fun r values => values.map (g r)) :=
  h.manyOf hp hp' (.inl ⟨hs, rfl⟩)

theorem Tracks.manyLoose (h : K.Tracks s p p' (K.On g)) (hp : Moves p Cursor.Ahead)
    (hp' : Moves p' Cursor.Ahead) :
    K.Tracks .loose (Parse.many p) (Parse.many p') (K.On fun r values => values.map (g r)) :=
  h.manyOf hp hp' (.inr rfl)

/-- A parser where the next token comes after a given one. -/
def later (p : Parse α) (c : Cursor) : Parse α := fun inside d =>
  if d.skipBlanks.rest.length < c.skipBlanks.rest.length then p inside d else .unmatched

theorem later_agree (p : Parse α) (c : Cursor) : Agree c.skipBlanks.rest.length (later p c) p :=
  fun _ d hd => if_pos (Nat.lt_of_le_of_lt (Cursor.reaches_skipBlanks d).length_le hd)

theorem yields_later {R : Cursor → Cursor → Prop} {view : α → List Region} (h : Yields p R view)
    (c : Cursor) : Yields (later p c) R view := by
  intro inside d value after hm
  unfold later at hm
  split at hm
  · exact h inside d value after hm
  · contradiction

/-- A parser that uses itself after a token is followed when each step is, given one that is
followed and that lays out regions as the whole does. -/
theorem Tracks.knot (step : Parse α → Parse α) {R : Cursor → Cursor → Prop}
    {view : α → List Region} (hyields : Yields p R view)
    (hstep : ∀ {q : Parse α} {inside c}, Agree c.skipBlanks.rest.length q p →
      p inside c = step q inside c)
    (h : ∀ q q', Yields q R view → Yields q' R view → K.Tracks s q q' V →
      K.Tracks s (step q) (step q') V) : K.Tracks s p p V := by
  intro inside inside' c d hin hcd
  induction hn : c.skipBlanks.rest.length using Nat.strongRecOn generalizing inside inside' c d with
  | _ n ih =>
    rw [hstep (later_agree p c), hstep (later_agree p d)]
    refine h _ _ (yields_later hyields c) (yields_later hyields d) ?_ inside inside' c d hin hcd
    intro inner inner' e e' hin' hee
    unfold later
    by_cases hlt : e.skipBlanks.rest.length < c.skipBlanks.rest.length
    · rw [if_pos hlt, if_pos ((K.skipBlanks_shorter_iff hcd hee).mp hlt)]
      exact ih _ (by omega) inner inner' e e' hin' hee rfl
    · rw [if_neg hlt, if_neg fun hd => hlt ((K.skipBlanks_shorter_iff hcd hee).mpr hd)]
      exact .unmatched

/-! ## Marks and failures -/

theorem tracks_mark : K.Tracks .sure Parse.mark Parse.mark fun c d => K.Alive c d ∧
    c.skipBlanks = c ∧ d.skipBlanks = d :=
  fun _ _ _ _ _ hcd => .matched ⟨K.skipBlanks hcd, Cursor.skipBlanks_skipBlanks _,
    Cursor.skipBlanks_skipBlanks _⟩ ((K.skipBlanks hcd).joins _)

theorem tracks_nextToken : K.Tracks .sure nextToken nextToken fun c d => K.Alive c d ∧
    c.skipBlanks = c ∧ d.skipBlanks = d :=
  fun _ _ _ _ _ hcd => .matched ⟨K.skipBlanks hcd, Cursor.skipBlanks_skipBlanks _,
    Cursor.skipBlanks_skipBlanks _⟩ (hcd.joins _)

theorem tracks_here : K.Tracks .sure here here K.Alive :=
  fun _ _ _ _ _ hcd => .matched hcd (hcd.joins _)

theorem tracks_failAt {place other : Cursor}
    (h : K.Alive place other ∧ place.skipBlanks = place ∧ other.skipBlanks = other)
    (expected : Expected) (s : Strength) :
    K.Tracks s (failAt place expected) (failAt other expected) V :=
  fun _ _ _ _ hin hcd => .failed fun hs =>
    ⟨_, rfl, congrArg (List.headD · .module) (hin hs), rfl, rfl, rfl, h.1, hcd, h.2⟩

theorem tracks_fail (expected : Expected) (s : Strength) :
    K.Tracks s (fail expected) (fail expected) V :=
  fun inside inside' c d hin hcd => tracks_failAt ⟨K.skipBlanks hcd,
    Cursor.skipBlanks_skipBlanks c, Cursor.skipBlanks_skipBlanks d⟩ expected s inside
      inside' c d hin hcd

theorem Tracks.require (h : K.Tracks s p p' V) (expected : Expected) :
    K.Tracks s (Parse.require expected p) (Parse.require expected p') V :=
  h.orElse (tracks_fail expected s)

theorem follows_pass {token token' : Cursor → Option Cursor}
    (h : Option.Rel (K.Joins s) (token c) (token' d)) (inside inside' : List Construct) :
    K.Follows s (K.On Relabel.plain) (Parse.pass token inside c) (Parse.pass token' inside' d) := by
  unfold Parse.pass
  generalize token c = x at h ⊢
  generalize token' d = y at h ⊢
  cases h with
  | some h => exact .matched rfl h
  | none => exact .unmatched

theorem tracks_pass {token token' : Cursor → Option Cursor}
    (h : ∀ c d, K.Alive c d → Option.Rel (K.Joins s) (token c) (token' d)) :
    K.Tracks s (Parse.pass token) (Parse.pass token') (K.On Relabel.plain) :=
  fun inside inside' c d _ hcd => follows_pass (h c d hcd) inside inside'

/-- Built over the span from the next token to where the parser ends. -/
theorem Tracks.spanned {p p' : Parse (Span → α)} (h : K.Tracks s p p' (K.Spanwise V)) :
    K.Tracks s (Parse.spanned p) (Parse.spanned p') V := by
  intro inside inside' c d hin hcd
  have hstart := K.skipBlanks hcd
  have hbody : K.Follows s V
      ((p >>= fun build => here >>= fun stop => pure (build (c.skipBlanks.spanTo stop))) inside
        c.skipBlanks)
      ((p' >>= fun build => here >>= fun stop => pure (build (d.skipBlanks.spanTo stop))) inside'
        d.skipBlanks) :=
    (h inside inside' _ _ hin hstart).andThen
      (fun build other e e' value joins =>
        .matched (value _ _ (K.span_eq hstart.1 joins.1)) joins)
      fun build e outcome hs => .stranded hs
  exact hbody

/-! ## Tokens -/

theorem rel_mono {R R' : α → β → Prop} (h : ∀ a b, R a b → R' a b) {x : Option α} {y : Option β}
    (hr : Option.Rel R x y) : Option.Rel R' x y := by
  cases hr with
  | some hr => exact .some (h _ _ hr)
  | none => exact .none

theorem rel_map {δ ε : Type} {R : α → β → Prop} {R' : δ → ε → Prop} {f : α → δ} {f' : β → ε}
    {x : Option α} {y : Option β} (hr : Option.Rel R x y) (h : ∀ a b, R a b → R' (f a) (f' b)) :
    Option.Rel R' (x.map f) (y.map f') := by
  cases hr with
  | some hr => exact .some (h _ _ hr)
  | none => exact .none

theorem rel_bind {δ ε : Type} {R : α → β → Prop} {R' : δ → ε → Prop} {f : α → Option δ}
    {f' : β → Option ε} {x : Option α} {y : Option β} (hr : Option.Rel R x y)
    (h : ∀ a b, R a b → Option.Rel R' (f a) (f' b)) : Option.Rel R' (x.bind f) (y.bind f') := by
  cases hr with
  | some hr => exact h _ _ hr
  | none => exact .none

theorem rel_or {R : α → β → Prop} {x x' : Option α} {y y' : Option β} (hr : Option.Rel R x y)
    (hr' : Option.Rel R x' y') : Option.Rel R (x.or x') (y.or y') := by
  cases hr with
  | some hr => exact .some hr
  | none => exact hr'

theorem rel_isSome {R : α → β → Prop} {x : Option α} {y : Option β} (hr : Option.Rel R x y) :
    x.isSome = y.isSome := by
  cases hr <;> rfl

theorem rel_getD {R : α → β → Prop} {x : Option α} {y : Option β} {a : α} {b : β}
    (hr : Option.Rel R x y) (h : R a b) : R (x.getD a) (y.getD b) := by
  cases hr with
  | some hr => exact hr
  | none => exact h

/-- Two parts in a row, of which the second has the value. -/
theorem Tracks.seqRight {r r' : Parse β} (hp : K.Tracks .sure p p' V) (hr : K.Tracks s r r' U) :
    K.Tracks s (p *> r) (p' *> r') U := hp.andThen fun _ _ _ => hr

theorem keeps_keyword {k : Keyword} (hk : k ≠ .Rem) :
    K.Keeps .sure (keyword k) Relabel.plain :=
  tracks_pass fun _ _ hcd => rel_mono (fun _ _ h => h.joins _) (K.keyword hcd hk)

theorem keeps_symbol {char : Char} (hc : char ∈ symbolChars) :
    K.Keeps .sure (symbol char) Relabel.plain :=
  tracks_pass fun _ _ hcd => rel_mono (fun _ _ h => h.joins _) (K.rel_symbol hc hcd)

theorem keeps_adjacent {char : Char} (hc : char ∈ symbolChars) :
    K.Keeps .sure (adjacent char) Relabel.plain :=
  tracks_pass fun _ _ hcd => rel_mono (fun _ _ h => h.joins _) (K.adjacent hcd hc)

theorem keeps_identifier : K.Keeps .closed identifier Relabel.text :=
  tracks_read (by decide) fun _ _ hcd => (K.identifier hcd).imp And.left (Reads.weaken · _)

theorem keeps_number :
    K.Keeps .sure (read Cursor.number) Relabel.plain :=
  tracks_token fun _ _ => K.number

theorem keeps_quoted :
    K.Keeps .sure (read Cursor.quoted) Relabel.text :=
  tracks_token fun _ _ => K.quoted

theorem keeps_relation :
    K.Keeps .sure (read Cursor.relation) Relabel.plain :=
  tracks_token fun _ _ => K.relation

/-- The rest of a line, if it holds no code. -/
theorem tracks_optLineEnd :
    K.Tracks .ends (opt (Parse.pass Cursor.lineEnd)) (opt (Parse.pass Cursor.lineEnd))
      fun _ _ => True := by
  have hopt (inside : List Construct) (c : Cursor) :
      ∃ found, opt (Parse.pass Cursor.lineEnd) inside c = .matched found (c.lineEnd.getD c) := by
    cases h : c.lineEnd with
    | none =>
      have hp : Parse.pass Cursor.lineEnd inside c = .unmatched := by rw [Parse.pass, h]
      exact ⟨none, by simp [opt, orElse, Parse.bind, Parse.pure, hp]⟩
    | some d =>
      have hp : Parse.pass Cursor.lineEnd inside c = .matched () d := by rw [Parse.pass, h]
      exact ⟨some (), by simp [opt, orElse, Parse.bind, Parse.pure, hp]⟩
  intro inside inside' c d _ hcd
  obtain ⟨found, hfound⟩ := hopt inside c
  obtain ⟨other, hother⟩ := hopt inside' d
  rw [hfound, hother]
  rcases K.lineEnd hcd with ⟨e, he, hpast⟩ | hmeets
  · rw [he]
    exact .stranded (.inr ⟨by decide, hpast⟩)
  · exact .matched trivial ⟨hmeets, fun hs => by contradiction⟩

theorem keeps_requireTerminator :
    K.Keeps .ends requireTerminator Relabel.plain := by
  refine Tracks.require (fun inside inside' c d _ hcd => ?_) _
  rcases K.terminator hcd with ⟨e, he, hpast⟩ | hr
  · unfold Parse.pass
    rw [he]
    exact .stranded (.inr ⟨by decide, hpast⟩)
  · exact follows_pass (rel_mono (fun _ _ h => ⟨h, fun hs => by contradiction⟩) hr) inside inside'

theorem alike_suggestNearMiss (k : Keyword) {failure other : Failure} (hs : K.isStrict)
    (h : K.Alike failure other) :
    K.Alike (suggestNearMiss k failure) (suggestNearMiss k other) := by
  unfold suggestNearMiss
  rw [K.nearMiss hs h.place k]
  split
  · exact ⟨h.construct, h.expected, rfl, h.help, h.place, h.stopped, h.token⟩
  · exact h

theorem alike_explainReservedWord {failure other : Failure} (hs : K.isStrict)
    (h : K.Alike failure other) :
    K.Alike (explainReservedWord failure) (explainReservedWord other) := by
  have hr := K.reserved hs h.place
  unfold explainReservedWord
  generalize failure.place.peekWord.filter isReservedWord = x at hr ⊢
  generalize other.place.peekWord.filter isReservedWord = y at hr ⊢
  cases x <;> cases y <;> simp only [Option.map_none, Option.map_some, reduceCtorEq] at hr
  · exact h
  · have hword := Option.some.inj hr
    refine ⟨h.construct, h.expected, h.suggestion, ?_, h.place, h.stopped, h.token⟩
    simp only [Option.map_some, Help.relabel, hword]

theorem keeps_requireKeyword {k : Keyword} (hk : k ≠ .Rem) :
    K.Keeps .sure (requireKeyword k) Relabel.plain :=
  ((keeps_keyword hk).require _).advise fun _ _ => alike_suggestNearMiss k

theorem keeps_requireSymbol {char : Char} (hc : char ∈ symbolChars) :
    K.Keeps .sure (requireSymbol char) Relabel.plain :=
  (keeps_symbol hc).require _

theorem keeps_requireName (part : String) :
    K.Keeps .closed (requireName part) Relabel.text :=
  (keeps_identifier.require _).advise fun _ _ => alike_explainReservedWord

theorem keeps_requireQuoted (part : String) :
    K.Keeps .sure (requireQuoted part) Relabel.text :=
  keeps_quoted.require _

theorem keeps_requireEnd {k : Keyword} (hk : k ≠ .Rem) :
    K.Keeps .sure (requireEnd k) Relabel.plain :=
  ((keeps_keyword (by decide)).require _).andThen fun _ _ _ => keeps_requireKeyword hk

theorem keeps_unlessKeyword {k : Keyword} (hk : k ≠ .Rem) :
    K.Keeps .sure (unlessKeyword k) Relabel.plain := by
  intro inside inside' c d _ hcd
  unfold unlessKeyword
  have hr := K.keyword hcd hk
  generalize c.keyword k = x at hr ⊢
  generalize d.keyword k = y at hr ⊢
  cases hr with
  | some _ => exact .unmatched
  | none => exact .matched rfl (hcd.joins _)

theorem keeps_oneOf {table : List (Keyword × α)} (ht : ∀ entry ∈ table, entry.1 ≠ .Rem) :
    K.Keeps .sure (oneOf table) Relabel.plain := by
  induction table with
  | nil => exact tracks_unmatched _
  | cons entry rest ih =>
    have hpure : K.On Relabel.plain entry.2 entry.2 := rfl
    exact ((keeps_keyword (ht entry List.mem_cons_self)).seqRight (tracks_pure hpure _)).orElse
      (ih fun other ho => ht other (List.mem_cons_of_mem _ ho))

theorem keeps_requireNumber (expected : Expected) (meaning : Literal → Option α) :
    K.Keeps .sure (requireNumber expected meaning) Relabel.plain := by
  refine tracks_nextToken.andThen fun place other hplace => ?_
  refine keeps_number.opt.andThen fun number number' hnumber => ?_
  obtain rfl : number = number' := by simpa [On] using hnumber
  split
  · exact tracks_pure rfl _
  · exact tracks_failAt hplace _ _

theorem Tracks.after {k : Keyword} (hk : k ≠ .Rem) (h : K.Tracks s p p' (K.On g)) :
    K.Tracks s (Parse.after k p) (Parse.after k p') (K.On fun r found => found.map (g r)) :=
  ((keeps_keyword hk).seqRight h).opt

theorem moves_seqRight_ahead {q : Parse β} (hp : Moves p Cursor.Ahead) (hq : Advances q) :
    Moves (p *> q) Cursor.Ahead := by
  intro inside c value after hm
  obtain ⟨first, middle, hfirst, hm⟩ := matched_bind (f := fun _ => q) hm
  obtain ⟨hreach, hlt⟩ := hp inside c first middle hfirst
  have hrest := hq inside middle value after hm
  exact ⟨hreach.trans hrest, Nat.lt_of_le_of_lt hrest.length_le hlt⟩

theorem Tracks.separated {first next : Parse α} (hf : K.Tracks s first first (K.On g))
    (hn : K.Tracks s next next (K.On g)) (hs : s.isFirm = true) (hadvances : Advances next) :
    K.Tracks s (Parse.separated first next) (Parse.separated first next)
      (K.On fun r values => values.map (g r)) := by
  have hcomma : Moves (symbol ',' *> next) Cursor.Ahead :=
    moves_seqRight_ahead ((begins_symbol (by decide)).weaken Cursor.Begun.ahead) hadvances
  refine hf.thenFirm hs (fun head head' hhead => ?_) fun _ =>
    (commits_many hcomma.advances).andThen fun _ => commits_pure _
  refine (((keeps_symbol (by decide)).seqRight hn).many hs hcomma hcomma).last
    fun tail tail' htail => ?_
  have hhead : g K.left head = g K.right head' := hhead
  have htail : tail.map (g K.left) = tail'.map (g K.right) := htail
  rw [On, List.map_cons, List.map_cons, hhead, htail]

theorem Tracks.sentence {p p' : Parse (Span → α)} (construct : Construct)
    (h : K.Tracks .closed p p' (K.Spanwise V)) :
    K.Tracks .ends (Parse.sentence construct p) (Parse.sentence construct p') V :=
  Tracks.within (h.spanned.thenCommits (fun _ _ hv => keeps_requireTerminator.last fun _ _ _ => hv)
    (fun _ => commits_requireTerminator.andThen fun _ => commits_pure _) (by decide)) construct

/-- What a parser builds over a span has that span. -/
def BuildsOver (p : Parse (Span → α)) (view : α → Span) : Prop :=
  ∀ inside c build after, p inside c = .matched build after → ∀ span, view (build span) = span

theorem BuildsOver.andThen {view : α → Span} {p : Parse β} {f : β → Parse (Span → α)}
    (hf : ∀ value, BuildsOver (f value) view) : BuildsOver (p >>= f) view := by
  intro inside c build after hm
  obtain ⟨value, middle, _, hm⟩ := matched_bind hm
  exact hf value inside middle build after hm

theorem buildsOver_pure {view : α → Span} {build : Span → α}
    (h : ∀ span, view (build span) = span) :
    BuildsOver (pure build) view := by
  intro inside c build' after hm
  cases hm
  exact h

theorem BuildsOver.orElse {view : α → Span} {p q : Parse (Span → α)} (hp : BuildsOver p view)
    (hq : BuildsOver q view) : BuildsOver (p.orElse q) view := by
  intro inside c build after hm
  rcases matched_orElse hm with hm | ⟨_, hm⟩
  · exact hp inside c build after hm
  · exact hq inside c build after hm

/-- A sentence that is followed to its close, with what shows the span of its value. -/
def TracksSentence (K : Correspondence) (p p' : Parse α) (V : α → α → Prop) (view : α → Span) :
    Prop :=
  ∃ construct inner inner', p = sentence construct inner ∧ p' = sentence construct inner' ∧
    BuildsOver inner view ∧ K.Tracks .closed inner inner' (K.Spanwise V)

/-- A sentence that comes to the same values on both sides, up to the relabellings. -/
abbrev KeepsSentence (K : Correspondence) (p : Parse α) (g : Relabel → α → γ) (view : α → Span) :
    Prop := TracksSentence K p p (K.On g) view

theorem tracksSentence {p p' : Parse (Span → α)} {view : α → Span} (construct : Construct)
    (hbuilds : BuildsOver p view) (h : K.Tracks .closed p p' (K.Spanwise V)) :
    TracksSentence K (sentence construct p) (sentence construct p') V view :=
  ⟨construct, p, p', rfl, rfl, hbuilds, h⟩

theorem TracksSentence.tracks {view : α → Span} (h : TracksSentence K p p' V view) :
    K.Tracks .ends p p' V := by
  obtain ⟨construct, inner, inner', rfl, rfl, _, h⟩ := h
  exact h.sentence construct

end Pairing

end VisualBasic
