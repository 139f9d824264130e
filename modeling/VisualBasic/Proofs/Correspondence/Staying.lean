import VisualBasic.Proofs.Correspondence.Module
import VisualBasic.Proofs.Cursor.Kept
import VisualBasic.Proofs.Parse.Ensures

/-!
# Parsing within a range of places

A text corresponds to itself. Where the pairing asks besides that a place has a property that tokens
keep, every parser that keeps correspondences stays among the places that have it, and a failure
leaves off at one of them.
-/

set_option autoImplicit false

namespace VisualBasic

open Cursor (Kept Lasting Reaches)

namespace Pairing

/-- Every place with a property paired with itself. -/
def staying (I : Cursor → Prop) : Pairing :=
  ⟨.same, .same, fun c d => c = d ∧ I c, fun _ => False, fun _ => False, True⟩

variable {I : Cursor → Prop}

theorem rel_self {α : Type} {R : α → α → Prop} {x : Option α} (h : ∀ a, x = some a → R a a) :
    Option.Rel R x x := by
  cases x with
  | none => exact .none
  | some a => exact .some (h a rfl)

theorem staying_alive {x : Option Cursor} (h : ∀ d, x = some d → I d) :
    Option.Rel (staying I).Alive x x :=
  rel_self fun d hd => ⟨⟨rfl, h d hd⟩, fun hl => hl⟩

theorem staying_reads {α γ : Type} {s : Strength} {g : Relabel → α → γ} {x : Option (α × Cursor)}
    (h : ∀ value d, x = some (value, d) → I d) : (staying I).Reads s ((staying I).On g) x x :=
  rel_self fun found hfound => ⟨rfl, ⟨rfl, h found.1 found.2 hfound⟩, fun _ hl => hl⟩

end Pairing

/-- What lasts over all motions is kept by tokens. -/
instance (I : Cursor → Prop) [Lasting I] : Kept I where
  plain h _ := Lasting.move h (Cursor.reaches_skip _ _)
  quoted h hq := Lasting.move h (Cursor.reaches_of_quoted hq)
  line h hr he := Lasting.move h (hr.trans (Cursor.reaches_of_breakOrEnd he))

open Pairing in
def Correspondence.staying (I : Cursor → Prop) [Kept I] : Correspondence where
  toPairing := Pairing.staying I
  not_strict h := h.elim False.elim False.elim
  rest_of_lost h := h.elim
  past_of_reaches h := h.elim
  span_eq := by
    rintro c _ c' _ ⟨rfl, _⟩ ⟨rfl, _⟩
    rfl
  shorter_iff := by
    rintro c _ c' _ ⟨⟨rfl, _⟩, _⟩ ⟨⟨rfl, _⟩, _⟩ _ _
    rfl
  dot := rfl
  skipBlanks := by
    rintro c _ ⟨⟨rfl, hc⟩, h⟩
    exact ⟨⟨rfl, Kept.skipBlanks hc⟩, h⟩
  adjacent := by
    rintro c _ ⟨⟨rfl, hc⟩, _⟩ char hchar
    have hquote : '"' ∉ symbolChars := by decide
    exact staying_alive fun _ => Kept.adjacent hc fun he => hquote (he ▸ hchar)
  colon := by
    rintro c _ ⟨⟨rfl, hc⟩, _⟩
    exact .inr (staying_alive fun _ => Kept.adjacent hc (by decide))
  keyword := by
    rintro c _ ⟨⟨rfl, hc⟩, _⟩ k _
    exact staying_alive fun _ => Kept.keyword hc
  peekKeyword := by
    rintro c _ ⟨⟨rfl, _⟩, _⟩
    rfl
  identifier := by
    rintro c _ ⟨⟨rfl, hc⟩, _⟩
    exact .inr (staying_reads fun _ _ => Kept.identifier hc)
  opener _ _ _ _ h := h.elim fun _ h => h.2
  member := by
    rintro c _ ⟨⟨rfl, hc⟩, _⟩
    exact staying_reads fun _ _ => Kept.member hc
  number := by
    rintro c _ ⟨⟨rfl, hc⟩, _⟩
    exact staying_reads fun _ _ => Kept.number hc
  quoted := by
    rintro c _ ⟨⟨rfl, hc⟩, _⟩
    exact staying_reads fun _ _ => Kept.quoted hc
  relation := by
    rintro c _ ⟨⟨rfl, hc⟩, _⟩
    exact staying_reads fun _ _ => Kept.relation hc
  terminator := by
    rintro c _ ⟨⟨rfl, hc⟩, _⟩
    exact .inr (rel_self fun _ h => ⟨rfl, Kept.terminator hc h⟩)
  lineEnd := by
    rintro c _ ⟨⟨rfl, hc⟩, _⟩
    refine .inr ⟨rfl, ?_⟩
    cases h : c.lineEnd with
    | none => exact hc
    | some d => exact Kept.lineEnd hc h
  blankLine := by
    rintro c _ ⟨⟨rfl, hc⟩, _⟩
    exact .inr (rel_self fun _ h => ⟨rfl, Kept.blankLine hc h⟩)
  comment := by
    rintro c _ ⟨⟨rfl, hc⟩, _⟩
    exact .inr (staying_reads fun _ _ => Kept.comment hc)
  literalText := by
    rintro c d c' d' v w ⟨⟨hskip, _⟩, _⟩ hv hw
    have hskip : c.skipBlanks = d.skipBlanks := hskip
    rw [hskip] at hv ⊢
    rw [hv] at hw
    cases hw
    rfl
  nearMiss := by
    rintro c _ _ ⟨⟨rfl, _⟩, _⟩ k
    rfl
  reserved := by
    rintro c _ _ ⟨⟨rfl, _⟩, _⟩
    rfl
  suggested := by
    rintro c _ _ ⟨⟨rfl, _⟩, _⟩
    rfl
  isFinished := by
    rintro c _ _ ⟨⟨rfl, _⟩, _⟩
    rfl

namespace Parse

variable {α β : Type} {I : Cursor → Prop} {p : Parse α}

/-- A failure leaves off at a place with the property that the start has. -/
def Stops (I : Cursor → Prop) (p : Parse α) : Prop :=
  ∀ inside c failure, I c → p inside c = .failed failure → I failure.stopped

theorem stops_of_tracks [Lasting I] {s : Strength} {V : α → α → Prop}
    (h : (Correspondence.staying I).Tracks s p p V) : Stops I p := by
  intro inside c failure hc hm
  have hfollows := h inside inside c c (fun _ => rfl) ⟨⟨rfl, hc⟩, fun hl => hl⟩
  rw [hm] at hfollows
  obtain ⟨other, _, halike⟩ := hfollows.of_failed trivial
  exact halike.stopped.1.2

/-- What comes after never fails. -/
theorem Stops.andThen {f : α → Parse β} (h : Stops I p)
    (hf : ∀ value inside c failure, f value inside c ≠ .failed failure) : Stops I (p >>= f) := by
  intro inside c failure hc hm
  rw [bind_apply] at hm
  split at hm
  · exact absurd hm (hf _ _ _ _)
  · contradiction
  · cases hm
    exact h inside c failure hc ‹_›

theorem Stops.map {f : α → β} (h : Stops I p) : Stops I (f <$> p) := by
  rw [← bind_pure_comp]
  exact h.andThen fun _ _ _ _ hm => by contradiction

end Parse

end VisualBasic
