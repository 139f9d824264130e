import VisualBasic.Proofs.Span.Layout

/-!
# What a match is known to give

`Ensures I p Q` says that a match of `p` from a place that satisfies `I` ends in one that does, with
a value that satisfies `Q`. It is proved from the end of a sequence: each part passes on what its
value is known to satisfy. Where the place does not matter, `Gives p Q` leaves it out.
-/

set_option autoImplicit false

namespace VisualBasic

namespace Cursor

/-- A property of places that stays as they move forward. -/
class Lasting (I : Cursor → Prop) : Prop where
  move {c d : Cursor} (h : I c) (hr : Reaches c d) : I d

instance : Lasting fun _ => True := ⟨fun _ _ => trivial⟩

instance (c : Cursor) : Lasting (Reaches c) := ⟨Reaches.trans⟩

end Cursor

namespace Parse

variable {α β : Type} {I : Cursor → Prop} {p q : Parse α} {f : α → Parse β} {P Q : α → Prop}
  {U : β → Prop}

def Ensures (I : Cursor → Prop) (p : Parse α) (Q : α → Prop) : Prop :=
  ∀ inside c value after, I c → p inside c = .matched value after → I after ∧ Q value

abbrev Gives (p : Parse α) (Q : α → Prop) : Prop := Ensures (fun _ => True) p Q

theorem gives_any : Gives p fun _ => True := by
  intro inside c value after _ _
  exact ⟨trivial, trivial⟩

theorem Advances.ensures [Cursor.Lasting I] (h : Advances p) : Ensures I p fun _ => True := by
  intro inside c value after hc hm
  exact ⟨Cursor.Lasting.move hc (h inside c value after hm), trivial⟩

theorem Ensures.weaken (h : Ensures I p P) (hP : ∀ value, P value → Q value) : Ensures I p Q := by
  intro inside c value after hc hm
  obtain ⟨hafter, hvalue⟩ := h inside c value after hc hm
  exact ⟨hafter, hP value hvalue⟩

theorem ensures_pure {value : α} (h : Q value) : Ensures I (pure value) Q := by
  intro inside c value' after hc hm
  cases hm
  exact ⟨hc, h⟩

theorem Ensures.andThen (hp : Ensures I p P) (hf : ∀ value, P value → Ensures I (f value) U) :
    Ensures I (p >>= f) U := by
  intro inside c value after hc hm
  obtain ⟨first, middle, hfirst, hm⟩ := matched_bind hm
  obtain ⟨hmiddle, hvalue⟩ := hp inside c first middle hc hfirst
  exact hf first hvalue inside middle value after hmiddle hm

theorem Ensures.map {f : α → β} (hp : Ensures I p P) (hf : ∀ value, P value → U (f value)) :
    Ensures I (f <$> p) U := by
  rw [← bind_pure_comp]
  exact hp.andThen fun value hvalue => ensures_pure (hf value hvalue)

theorem Ensures.seqRight {q : Parse β} (hp : Ensures I p P) (hq : Ensures I q U) :
    Ensures I (p *> q) U :=
  hp.andThen fun _ _ => hq

theorem ensures_unmatched : Ensures I (unmatched : Parse α) Q := by
  intro inside c value after _ hm
  contradiction

theorem ensures_failAt {place : Cursor} {expected : Expected} :
    Ensures I (failAt place expected : Parse α) Q := by
  intro inside c value after _ hm
  contradiction

theorem ensures_fail {expected : Expected} : Ensures I (fail expected : Parse α) Q := by
  intro inside c value after _ hm
  contradiction

theorem Ensures.orElse (hp : Ensures I p Q) (hq : Ensures I q Q) : Ensures I (p.orElse q) Q := by
  intro inside c value after hc hm
  unfold Parse.orElse at hm
  split at hm
  · exact hq inside c value after hc hm
  · exact hp inside c value after hc hm

theorem ensures_firstOf {alternatives : List (Parse α)}
    (h : ∀ p ∈ alternatives, Ensures I p Q) : Ensures I (firstOf alternatives) Q := by
  induction alternatives with
  | nil => exact ensures_unmatched
  | cons p rest ih =>
    apply Ensures.orElse
    · exact h p List.mem_cons_self
    · exact ih fun q hq => h q (List.mem_cons_of_mem p hq)

theorem Ensures.require {expected : Expected} (h : Ensures I p Q) :
    Ensures I (require expected p) Q := h.orElse ensures_fail

theorem Ensures.advise {a : Failure → Failure} (h : Ensures I p Q) :
    Ensures I (Parse.advise a p) Q := by
  intro inside c value after hc hm
  unfold Parse.advise at hm
  split at hm
  · contradiction
  · exact h inside c value after hc hm

theorem Ensures.within {construct : Construct} (h : Ensures I p Q) :
    Ensures I (Parse.within construct p) Q := fun inside => h (construct :: inside)

theorem Ensures.opt (h : Ensures I p Q) :
    Ensures I (opt p) fun found => ∀ value ∈ found, Q value := by
  apply Ensures.orElse
  · refine h.andThen fun value hvalue => ensures_pure ?_
    intro other hother
    cases hother
    exact hvalue
  · refine ensures_pure ?_
    intro value hvalue
    contradiction

theorem Ensures.many (h : Ensures I p Q) :
    Ensures I (many p) fun values => ∀ value ∈ values, Q value := by
  intro inside c
  fun_induction Parse.many p inside c with
  | case1 c _ =>
    intro values after hc hm
    cases hm
    exact ⟨hc, by simp⟩
  | case2 => intro values after _ hm; contradiction
  | case3 c value middle hv _ rest last hrest ih =>
    intro values after hc hm
    cases hm
    obtain ⟨hmiddle, hvalue⟩ := h _ _ _ _ hc hv
    obtain ⟨hlast, hvalues⟩ := ih _ _ hmiddle hrest
    exact ⟨hlast, by simpa using ⟨hvalue, hvalues⟩⟩
  | case4 c value middle hv =>
    intro values after hc hm
    cases hm
    obtain ⟨hmiddle, hvalue⟩ := h _ _ _ _ hc hv
    exact ⟨hmiddle, by simpa using hvalue⟩
  | case5 => intro values after _ hm; contradiction
  | case6 c value middle hv =>
    intro values after hc hm
    cases hm
    obtain ⟨hmiddle, hvalue⟩ := h _ _ _ _ hc hv
    exact ⟨hmiddle, by simpa using hvalue⟩

theorem gives_read {reader : Reader α}
    (h : ∀ {c value after}, reader c = some (value, after) → Q value) : Gives (read reader) Q := by
  intro inside c value after _ hm
  unfold read at hm
  split at hm
  · cases hm
    exact ⟨trivial, h ‹_›⟩
  · contradiction

theorem gives_oneOf {table : List (Keyword × α)} (h : ∀ entry ∈ table, Q entry.2) :
    Gives (oneOf table) Q := by
  apply ensures_firstOf
  intro p hp
  obtain ⟨entry, hentry, rfl⟩ := List.mem_map.mp hp
  exact gives_any.seqRight (ensures_pure (h entry hentry))

theorem Gives.after {k : Keyword} (h : Gives p Q) :
    Gives (Parse.after k p) fun found => ∀ value ∈ found, Q value :=
  (gives_any.seqRight h).opt

/-- A list with commas holds one part at least. -/
theorem Gives.separated (hp : Gives p Q) (hq : Gives q Q) :
    Gives (separated p q) fun values => values ≠ [] ∧ ∀ value ∈ values, Q value := by
  refine hp.andThen fun head hhead => ?_
  refine (gives_any.seqRight hq).many.andThen fun tail htail => ensures_pure ?_
  exact ⟨List.cons_ne_nil _ _, by simpa using ⟨hhead, htail⟩⟩

theorem Ensures.spanned [Cursor.Lasting I] {p : Parse (Span → α)}
    (h : Ensures I p fun build => ∀ span, Q (build span)) : Ensures I (Parse.spanned p) Q := by
  refine advances_mark.ensures.andThen fun start _ => ?_
  refine h.andThen fun build hbuild => ?_
  refine advances_here.ensures.andThen fun stop _ => ?_
  exact ensures_pure (hbuild _)

theorem Ensures.sentence [Cursor.Lasting I] {construct : Construct} {p : Parse (Span → α)}
    (h : Ensures I p fun build => ∀ span, Q (build span)) :
    Ensures I (Parse.sentence construct p) Q := by
  refine Ensures.within (h.spanned.andThen fun value hvalue => ?_)
  refine moves_requireTerminator.advances.ensures.andThen fun _ _ => ?_
  exact ensures_pure hvalue

/-- A match of one parser is a match of another. -/
def Implies (p q : Parse α) : Prop :=
  ∀ inside c value after, p inside c = .matched value after → q inside c = .matched value after

/-- A parser that uses itself ensures what each step does. -/
theorem Ensures.fix {step : Parse α → Parse α}
    (h : ∀ p, Implies p (Parse.fix step) → Ensures I p Q → Ensures I (step p) Q) :
    Ensures I (Parse.fix step) Q := by
  intro inside c
  fun_induction Parse.fix step inside c with
  | case1 inside c ih =>
    refine h _ ?_ ?_ inside c
    · intro inner d value after hm
      dsimp only at hm
      split at hm
      · exact hm
      · contradiction
    · intro inner d value after hd hm
      dsimp only at hm
      split at hm
      · exact ih inner d ‹_› value after hd hm
      · contradiction

end Parse

end VisualBasic
