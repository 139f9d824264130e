import VisualBasic.Grammar.Trivia
import VisualBasic.Proofs.Lookahead.Word
import VisualBasic.Proofs.Parse.Commitment

/-!
# How constructs are told

A construct is met by a sign at its start, such as a keyword: without the sign its parser leaves the
text unmatched, and with it the parser matches or fails. So an ordered choice between constructs
comes to the one construct whose sign is there.
-/

set_option autoImplicit false

namespace VisualBasic

namespace Parse

variable {α β : Type} {p q : Parse α} {f : α → Parse β} {inside : List Construct} {c : Cursor}

/-! ## Signs -/

/-- Left unmatched exactly where a sign is missing. -/
def MetBy (p : Parse α) (sign : Cursor → Prop) : Prop :=
  ∀ inside c, p inside c = .unmatched ↔ ¬ sign c

variable {sign other : Cursor → Prop}

theorem MetBy.unmatched (hp : MetBy p sign) (h : ¬ sign c) : p inside c = .unmatched :=
  (hp inside c).mpr h

theorem MetBy.ne_unmatched (hp : MetBy p sign) (h : sign c) : p inside c ≠ .unmatched :=
  fun hu => (hp inside c).mp hu h

theorem MetBy.congr (hp : MetBy p sign) (h : ∀ c, sign c ↔ other c) : MetBy p other :=
  fun inside c => by rw [hp inside c, h c]

theorem bind_eq_unmatched (h : p inside c = .unmatched) (f : α → Parse β) :
    (p >>= f) inside c = .unmatched := by
  rw [bind_apply, h]

/-- What comes after a sign must not leave the text unmatched. -/
theorem MetBy.andThen (hp : MetBy p sign) (hf : ∀ value, Resolves (f value)) :
    MetBy (p >>= f) sign := by
  intro inside c
  rw [← hp inside c, bind_apply]
  cases h : p inside c with
  | matched value after => simpa using hf value inside after
  | unmatched => simp
  | failed failure => simp

theorem MetBy.seqRight {q : Parse β} (hp : MetBy p sign) (hq : Resolves q) : MetBy (p *> q) sign :=
  hp.andThen fun _ => hq

theorem MetBy.map (hp : MetBy p sign) (g : α → β) : MetBy (g <$> p) sign := by
  rw [← bind_pure_comp]
  exact hp.andThen fun _ => resolves_pure _

theorem MetBy.orElse (hp : MetBy p sign) (hq : MetBy q other) :
    MetBy (p.orElse q) fun c => sign c ∨ other c := by
  intro inside c
  unfold Parse.orElse
  split
  · rename_i h
    have hsign := (hp inside c).mp h
    simp [hq inside c, hsign]
  · rename_i h
    have hsign : sign c := Classical.not_not.mp fun hnot => h (hp.unmatched hnot)
    exact ⟨fun hu => absurd hu h, fun hnot => absurd (.inl hsign) hnot⟩

theorem MetBy.within (hp : MetBy p sign) (construct : Construct) :
    MetBy (Parse.within construct p) sign := fun inside => hp (construct :: inside)

theorem MetBy.mark {f : Cursor → Parse α} (hf : ∀ start, MetBy (f start) sign)
    (hsign : ∀ c, sign c.skipBlanks ↔ sign c) : MetBy (Parse.mark >>= f) sign :=
  fun inside c => (hf c.skipBlanks inside c.skipBlanks).trans (not_congr (hsign c))

/-- A sign that blanks before it do not hide. -/
theorem MetBy.spanned {p : Parse (Span → α)} (hp : MetBy p sign)
    (hsign : ∀ c, sign c.skipBlanks ↔ sign c) : MetBy (Parse.spanned p) sign := by
  refine MetBy.mark (fun start => ?_) hsign
  exact hp.andThen fun _ => resolves_here.andThen fun _ => resolves_pure _

theorem MetBy.sentence {p : Parse (Span → α)} (hp : MetBy p sign)
    (hsign : ∀ c, sign c.skipBlanks ↔ sign c) (construct : Construct) :
    MetBy (Parse.sentence construct p) sign :=
  ((hp.spanned hsign).andThen fun _ =>
    resolves_requireTerminator.andThen fun _ => resolves_pure _).within construct

theorem read_eq_unmatched {reader : Reader α} (h : reader c = none) :
    read reader inside c = .unmatched := by
  rw [read, h]

theorem read_eq_matched {reader : Reader α} {value : α} {after : Cursor}
    (h : reader c = some (value, after)) : read reader inside c = .matched value after := by
  rw [read, h]

theorem metBy_read (reader : Reader α) : MetBy (read reader) fun c => (reader c).isSome := by
  intro inside c
  rw [read]
  cases h : reader c with
  | none => simp [h]
  | some found => simp [h]

theorem metBy_keyword (k : Keyword) : MetBy (keyword k) fun c => c.peekKeyword = some k := by
  intro inside c
  rw [← ne_eq, ← Cursor.keyword_eq_none_iff, keyword, pass]
  cases c.keyword k <;> simp

theorem metBy_oneOf (table : List (Keyword × α)) :
    MetBy (oneOf table) fun c => ∃ entry ∈ table, c.peekKeyword = some entry.1 := by
  induction table with
  | nil => exact fun _ _ => by simp [oneOf, firstOf, unmatched]
  | cons entry table ih =>
    have hfirst := (metBy_keyword entry.1).seqRight (resolves_pure entry.2)
    exact (hfirst.orElse ih).congr fun c => by simp

/-- A table of keywords is looked up by the keyword that comes next. -/
theorem oneOf_eq_read (table : List (Keyword × α)) :
    oneOf table = read fun c =>
      c.lead.bind fun found => (table.lookup found.1).map fun value => (value, found.2) := by
  induction table with
  | nil =>
    funext inside c
    cases h : c.lead <;> simp [oneOf, firstOf, unmatched, read, h]
  | cons entry table ih =>
    obtain ⟨k, value⟩ := entry
    funext inside c
    have hstep : oneOf ((k, value) :: table) inside c =
        (keyword k *> pure value).orElse (oneOf table) inside c := rfl
    have hword : (keyword k *> pure value : Parse α) inside c =
        (c.keyword k).elim .unmatched (.matched value) := by
      change (keyword k >>= fun _ => pure value) inside c = _
      rw [bind_apply, keyword, pass]
      cases c.keyword k <;> rfl
    rw [hstep, ih, orElse, hword]
    cases hkeyword : c.keyword k with
    | some after =>
      rw [Cursor.keyword_eq_some_iff] at hkeyword
      simp [read, hkeyword, List.lookup_cons]
    | none =>
      rw [Cursor.keyword_eq_none_iff, Cursor.peekKeyword_eq] at hkeyword
      cases hlead : c.lead with
      | none => simp [read, hlead]
      | some found =>
        have hne : (found.1 == k) = false := by simpa [hlead] using hkeyword
        simp [read, hlead, List.lookup_cons, hne]

theorem opt_read_apply (reader : Reader α) (inside : List Construct) (c : Cursor) :
    opt (read reader) inside c =
      match reader c with
      | some (value, after) => .matched (some value) after
      | none => .matched none c := by
  rw [opt, orElse, Parse.bind, read]
  cases reader c <;> rfl

theorem opt_read_eq_some {reader : Reader α} (h : read reader inside c ≠ .unmatched) :
    ∃ value after, opt (read reader) inside c = .matched (some value) after := by
  rw [opt_read_apply]
  cases hfound : reader c with
  | none => exact absurd (read_eq_unmatched hfound) h
  | some found => exact ⟨found.1, found.2, rfl⟩

theorem opt_oneOf_eq_some (table : List (Keyword × α))
    (h : ∃ entry ∈ table, c.peekKeyword = some entry.1) (inside : List Construct) :
    ∃ value after, opt (oneOf table) inside c = .matched (some value) after := by
  have hmet : oneOf table inside c ≠ .unmatched := (metBy_oneOf table).ne_unmatched h
  rw [oneOf_eq_read] at hmet ⊢
  exact opt_read_eq_some hmet

theorem opt_oneOf_eq_none {table : List (Keyword × α)}
    (h : ∀ entry ∈ table, c.peekKeyword ≠ some entry.1) (inside : List Construct) :
    opt (oneOf table) inside c = .matched none c := by
  have hunmet : oneOf table inside c = .unmatched :=
    (metBy_oneOf table).unmatched fun ⟨entry, hentry, hword⟩ => h entry hentry hword
  rw [opt, orElse, Parse.bind, hunmet]
  rfl

theorem flag_keyword_apply {k : Keyword} (h : c.peekKeyword ≠ some k) (inside : List Construct) :
    flag (keyword k) inside c = .matched false c := by
  rw [flag, orElse, Parse.bind, (metBy_keyword k).unmatched h]
  rfl

theorem sentence_eq_unmatched {construct : Construct} {p : Parse (Span → α)}
    (h : p (construct :: inside) c.skipBlanks = .unmatched) :
    sentence construct p inside c = .unmatched := by
  simp only [sentence, within, spanned, mark, bind_apply, h]

theorem bind_ne_unmatched {value : α} {after : Cursor} (h : p inside c = .matched value after)
    (hf : Resolves (f value)) : (p >>= f) inside c ≠ .unmatched := by
  rw [bind_apply, h]
  exact hf inside after

theorem sentence_ne_unmatched {construct : Construct} {p : Parse (Span → α)}
    (h : p (construct :: inside) c.skipBlanks ≠ .unmatched) :
    sentence construct p inside c ≠ .unmatched := by
  simp only [sentence, within, spanned, mark, bind_apply]
  cases hp : p (construct :: inside) c.skipBlanks with
  | unmatched => exact absurd hp h
  | failed failure => simp
  | matched build after =>
    exact resolves_requireTerminator.andThen (fun _ => resolves_pure (build _)) _ after

/-! ## Ordered choice -/

theorem orElse_of_unmatched (h : p inside c = .unmatched) (q : Parse α) :
    p.orElse q inside c = q inside c := by
  rw [orElse, h]

theorem orElse_of_ne_unmatched (h : p inside c ≠ .unmatched) (q : Parse α) :
    p.orElse q inside c = p inside c := by
  unfold orElse
  split
  · contradiction
  · rfl

theorem orElse_of_second_unmatched (h : q inside c = .unmatched) (p : Parse α) :
    p.orElse q inside c = p inside c := by
  unfold orElse
  split
  · rename_i hp
    rw [h, hp]
  · rfl

theorem orElse_assoc (p q r : Parse α) : (p.orElse q).orElse r = p.orElse (q.orElse r) := by
  funext inside c
  simp only [orElse]
  cases p inside c <;> rfl

theorem firstOf_append (ps qs : List (Parse α)) :
    firstOf (ps ++ qs) = (firstOf ps).orElse (firstOf qs) := by
  induction ps with
  | nil => rfl
  | cons p ps ih =>
    change p.orElse (firstOf (ps ++ qs)) = (p.orElse (firstOf ps)).orElse (firstOf qs)
    rw [ih, orElse_assoc]

theorem firstOf_singleton (p : Parse α) : firstOf [p] = p :=
  funext fun _ => funext fun _ => orElse_of_second_unmatched rfl p

theorem map_orElse (g : α → β) (p q : Parse α) : g <$> p.orElse q = (g <$> p).orElse (g <$> q) := by
  rw [← bind_pure_comp, ← bind_pure_comp, ← bind_pure_comp]
  funext inside c
  simp only [bind_apply, orElse]
  cases p inside c <;> rfl

theorem map_firstOf (g : α → β) (ps : List (Parse α)) :
    g <$> firstOf ps = firstOf (ps.map (g <$> ·)) := by
  induction ps with
  | nil => rfl
  | cons p ps ih =>
    change g <$> p.orElse (firstOf ps) = (g <$> p).orElse (firstOf (ps.map (g <$> ·)))
    rw [map_orElse, ih]

section Table

variable {ι : Type} {rule : ι → Parse α} {table : List ι} {choice : ι}

theorem firstOf_eq_unmatched (h : ∀ entry ∈ table, rule entry inside c = .unmatched) :
    firstOf (table.map rule) inside c = .unmatched := by
  induction table with
  | nil => rfl
  | cons entry table ih =>
    have hfirst := h entry (by simp)
    exact (orElse_of_unmatched hfirst _).trans (ih fun other ho => h other (by simp [ho]))

/-- Alternatives that exclude each other may stand in any order. -/
theorem firstOf_eq_of_mem (hchoice : choice ∈ table)
    (h : ∀ entry ∈ table, entry ≠ choice → rule entry inside c = .unmatched) :
    firstOf (table.map rule) inside c = rule choice inside c := by
  induction table with
  | nil => contradiction
  | cons entry table ih =>
    by_cases heq : entry = choice
    · subst heq
      by_cases hfirst : rule entry inside c = .unmatched
      · have hrest : firstOf (table.map rule) inside c = .unmatched :=
          firstOf_eq_unmatched fun other ho => by
            by_cases hother : other = entry
            · rw [hother, hfirst]
            · exact h other (by simp [ho]) hother
        exact orElse_of_second_unmatched hrest _
      · exact orElse_of_ne_unmatched hfirst _
    · have hfirst := h entry (by simp) heq
      have hmem : choice ∈ table := by
        rcases List.mem_cons.mp hchoice with rfl | hmem
        · exact absurd rfl heq
        · exact hmem
      exact (orElse_of_unmatched hfirst _).trans (ih hmem fun other ho => h other (by simp [ho]))

end Table

end Parse

/-! ## Comments and empty lines -/

namespace Grammar

open Parse

theorem metBy_comment : MetBy (read comment) fun c => c.commentMark.isSome := by
  refine (metBy_read comment).congr fun c => ?_
  rw [comment, Cursor.comment, Cursor.commentMark_skipBlanks]
  cases c.commentMark with
  | none => simp
  | some body => simpa using body.breakOrEnd_toLineEnd

theorem metBy_emptyLine : MetBy (read emptyLine) fun c => c.blankLine.isSome :=
  (metBy_read emptyLine).congr fun c => by simp [emptyLine]

end Grammar

end VisualBasic
