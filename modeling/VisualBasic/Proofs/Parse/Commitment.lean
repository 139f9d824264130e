import VisualBasic.Parse.Lawful
import VisualBasic.Parse.Token
import VisualBasic.Proofs.Cursor.Ink

/-!
# Committed parsers

A parser that resolves matches or fails, whatever comes: a part that is required, one that may be
missing, a repetition, and what is put together of them. A committed parser never goes back besides.
Where no text is left, a committed parser stays or fails, and one that demands text fails.
-/

set_option autoImplicit false

namespace VisualBasic

namespace Cursor

theorem keyword_of_rest_eq_nil {c : Cursor} (h : c.rest = []) (k : Keyword) :
    c.keyword k = none := by
  have hs : startsWithLetters k.letters [] = false := by
    cases hk : k.letters with
    | nil => exact absurd hk k.letters_ne_nil
    | cons => rfl
  have hrest : c.skipBlanks.rest = [] := by
    rw [skipBlanks, skip_of_rest_eq_nil h, h]
  simp [keyword, hrest, hs]

end Cursor

namespace Parse

variable {α β : Type} {p q : Parse α} {f : α → Parse β}

/-! ## Parsers that resolve -/

/-- Matches or fails, whatever comes. -/
def Resolves (p : Parse α) : Prop := ∀ inside c, p inside c ≠ .unmatched

theorem Resolves.andThen (hp : Resolves p) (hf : ∀ value, Resolves (f value)) :
    Resolves (p >>= f) := by
  intro inside c
  rw [bind_apply]
  cases h : p inside c with
  | matched value after => exact hf value inside after
  | unmatched => exact absurd h (hp inside c)
  | failed failure => simp

theorem resolves_pure (value : α) : Resolves (pure value) := fun _ _ => by simp [pure_apply]

theorem resolves_mark : Resolves mark := fun _ _ h => by cases h

theorem resolves_here : Resolves here := fun _ _ h => by cases h

theorem resolves_nextToken : Resolves nextToken := fun _ _ h => by cases h

theorem resolves_fail (expected : Expected) : Resolves (fail expected : Parse α) :=
  fun _ _ h => by cases h

theorem resolves_failAt (place : Cursor) (expected : Expected) :
    Resolves (failAt place expected : Parse α) := fun _ _ h => by cases h

theorem orElse_ne_unmatched {inside : List Construct} {c : Cursor} (h : q inside c ≠ .unmatched)
    (p : Parse α) : p.orElse q inside c ≠ .unmatched := by
  unfold Parse.orElse
  split <;> assumption

/-- A choice resolves when its last alternative does. -/
theorem Resolves.second (hq : Resolves q) (p : Parse α) : Resolves (p.orElse q) :=
  fun inside c => orElse_ne_unmatched (hq inside c) p

theorem Resolves.advise (hp : Resolves p) (a : Failure → Failure) :
    Resolves (Parse.advise a p) := by
  intro inside c h
  unfold Parse.advise at h
  split at h
  · contradiction
  · exact hp inside c h

theorem resolves_opt (p : Parse α) : Resolves (opt p) := (resolves_pure none).second _

theorem resolves_flag (p : Parse α) : Resolves (flag p) := (resolves_pure false).second _

theorem resolves_after (k : Keyword) (p : Parse α) : Resolves (after k p) := resolves_opt _

theorem resolves_require (expected : Expected) (p : Parse α) : Resolves (require expected p) :=
  (resolves_fail expected).second p

theorem many_ne_unmatched (p : Parse α) : Resolves (many p) := by
  intro inside c
  rw [many]
  split
  · simp
  · simp
  · split
    · split <;> simp
    · simp

/-- An ordered choice does not leave the text unmatched when one of the alternatives does not. -/
theorem firstOf_ne_unmatched {alternatives : List (Parse α)} {inside : List Construct} {c : Cursor}
    (hmem : p ∈ alternatives) (h : p inside c ≠ .unmatched) :
    firstOf alternatives inside c ≠ .unmatched := by
  induction alternatives with
  | nil => contradiction
  | cons first rest ih =>
    change first.orElse (firstOf rest) inside c ≠ .unmatched
    rcases List.mem_cons.mp hmem with rfl | hrest
    · unfold Parse.orElse
      split
      · contradiction
      · exact h
    · exact orElse_ne_unmatched (ih hrest) first

theorem Resolves.firstOf {alternatives : List (Parse α)} (hmem : p ∈ alternatives)
    (hp : Resolves p) : Resolves (Parse.firstOf alternatives) :=
  fun inside c => firstOf_ne_unmatched hmem (hp inside c)

theorem Resolves.separated (hp : Resolves p) (q : Parse α) : Resolves (Parse.separated p q) :=
  hp.andThen fun _ => (many_ne_unmatched _).andThen fun _ => resolves_pure _

theorem resolves_requireTerminator : Resolves requireTerminator := resolves_require _ _

theorem resolves_requireName (part : String) : Resolves (requireName part) :=
  (resolves_require _ _).advise _

theorem resolves_requireKeyword (k : Keyword) : Resolves (requireKeyword k) :=
  (resolves_require _ _).advise _

theorem resolves_requireEnd (k : Keyword) : Resolves (requireEnd k) :=
  (resolves_require _ _).andThen fun _ => resolves_requireKeyword k

/-! ## Parsers that are committed -/

/-- Never leaves the text unmatched, and never goes back. -/
structure Commits (p : Parse α) : Prop where
  advances : Advances p
  ne_unmatched : ∀ inside c, p inside c ≠ .unmatched

/-- Committed, and in need of some text. -/
structure Demands (p : Parse α) : Prop extends Commits p where
  fails : ∀ inside c, c.rest = [] → ∃ failure, p inside c = .failed failure

theorem Commits.resolves (hp : Commits p) : Resolves p := hp.ne_unmatched

theorem Commits.andThen (hp : Commits p) (hf : ∀ value, Commits (f value)) : Commits (p >>= f) where
  advances := advances_bind hp.advances fun value => (hf value).advances
  ne_unmatched := hp.resolves.andThen fun value => (hf value).resolves

theorem Demands.andThen (hp : Demands p) (hf : ∀ value, Commits (f value)) : Demands (p >>= f) where
  toCommits := hp.toCommits.andThen hf
  fails inside c hc := by
    obtain ⟨failure, h⟩ := hp.fails inside c hc
    exact ⟨failure, by rw [bind_apply, h]⟩

/-- Where no text is left, a committed parser leaves off where it started. -/
theorem Commits.demands (hp : Commits p) (hf : ∀ value, Demands (f value)) : Demands (p >>= f) where
  toCommits := hp.andThen fun value => (hf value).toCommits
  fails inside c hc := by
    rw [bind_apply]
    cases h : p inside c with
    | matched value after =>
      obtain rfl := Cursor.eq_of_reaches_of_rest_eq_nil hc (hp.advances inside c value after h)
      exact (hf value).fails inside after hc
    | unmatched => exact absurd h (hp.ne_unmatched inside c)
    | failed failure => exact ⟨failure, rfl⟩

theorem commits_pure (value : α) : Commits (pure value) :=
  ⟨advances_pure value, resolves_pure value⟩

theorem commits_mark : Commits mark := ⟨advances_mark, resolves_mark⟩

theorem commits_here : Commits here where
  advances inside c value after h := by
    cases h
    exact Cursor.Reaches.refl c
  ne_unmatched := resolves_here

theorem commits_nextToken : Commits nextToken where
  advances inside c value after h := by
    cases h
    exact Cursor.Reaches.refl c
  ne_unmatched := resolves_nextToken

theorem demands_fail (expected : Expected) : Demands (fail expected : Parse α) :=
  ⟨⟨advances_fail expected, resolves_fail expected⟩, fun _ _ _ => ⟨_, rfl⟩⟩

theorem commits_failAt (place : Cursor) (expected : Expected) :
    Commits (failAt place expected : Parse α) where
  advances _ _ _ _ h := by cases h
  ne_unmatched := resolves_failAt place expected

theorem Commits.advise (hp : Commits p) (a : Failure → Failure) : Commits (Parse.advise a p) where
  advances := advances_advise hp.advances
  ne_unmatched := hp.resolves.advise a

/-- A choice is committed when its last alternative is. -/
theorem Commits.orElse (hp : Advances p) (hq : Commits q) : Commits (p.orElse q) where
  advances := advances_orElse hp hq.advances
  ne_unmatched := hq.resolves.second p

theorem commits_opt (hp : Advances p) : Commits (opt p) :=
  .orElse (advances_bind hp fun value => advances_pure (some value)) (commits_pure none)

theorem commits_after (hp : Advances p) (k : Keyword) : Commits (after k p) :=
  commits_opt (advances_bind (advances_pass fun _ _ => Cursor.reaches_of_keyword) fun _ => hp)

theorem commits_require (expected : Expected) (hp : Advances p) : Commits (require expected p) :=
  .orElse hp (demands_fail expected).toCommits

theorem commits_many (hp : Advances p) : Commits (many p) := ⟨advances_many hp, many_ne_unmatched p⟩

theorem commits_requireTerminator : Commits requireTerminator :=
  commits_require _ (advances_pass fun _ _ => Cursor.reaches_of_terminator)

theorem demands_require_keyword (expected : Expected) (k : Keyword) :
    Demands (require expected (keyword k)) where
  toCommits := commits_require expected (advances_pass fun _ _ => Cursor.reaches_of_keyword)
  fails inside c hc := by
    have h : keyword k inside c = .unmatched := by
      rw [keyword, pass, Cursor.keyword_of_rest_eq_nil hc]
    obtain ⟨failure, hf⟩ :=
      (demands_fail expected : Demands (fail expected : Parse Unit)).fails inside c hc
    exact ⟨failure, by rw [require, orElse, h]; exact hf⟩

theorem demands_requireKeyword (k : Keyword) : Demands (requireKeyword k) where
  toCommits := (demands_require_keyword (.keyword k) k).toCommits.advise _
  fails inside c hc := by
    obtain ⟨failure, h⟩ := (demands_require_keyword (.keyword k) k).fails inside c hc
    exact ⟨_, by rw [requireKeyword, advise, h]⟩

theorem commits_requireKeyword (k : Keyword) : Commits (requireKeyword k) :=
  (demands_requireKeyword k).toCommits

theorem commits_requireSymbol (char : Char) : Commits (requireSymbol char) :=
  commits_require _ (advances_pass fun _ _ => Cursor.reaches_of_symbol)

theorem commits_requireQuoted (part : String) : Commits (requireQuoted part) :=
  commits_require _ (advances_read fun _ _ _ => Cursor.reaches_of_quoted)

theorem demands_requireEnd (k : Keyword) : Demands (requireEnd k) :=
  (demands_require_keyword _ _).andThen fun _ => (demands_requireKeyword k).toCommits

end Parse

end VisualBasic
