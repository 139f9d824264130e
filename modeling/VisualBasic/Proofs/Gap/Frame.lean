import Mathlib.Data.List.Chain
import VisualBasic.Proofs.Parse.Runs
import VisualBasic.Proofs.Text.Line

/-!
# Constructs in their frames

A construct starts at the next token, or at once where it is an empty line, and what follows the end
of its span closes it. Its parser leaves off right after a stop or at the end of the text. Where
constructs follow one another, each in its frame, only gaps lie between their spans.
-/

set_option autoImplicit false

namespace VisualBasic

open Cursor (Reaches Closes Over Stopped)

/-- Where a construct and its span lie: read from `c`, it leaves off at `after`. -/
def Framed (c : Cursor) (span : Span) (after : Cursor) : Prop :=
  ∃ first last, span = first.spanTo last ∧ (first = c ∨ first = c.skipBlanks) ∧
    Reaches c last ∧ Closes last after

/-- Nothing but a gap lies between two spans of a source. -/
def Adjoins (source : String) (s t : Span) : Prop :=
  ∃ before text following, source.toList = before ++ text ++ following ∧
    byteLength before = s.stop ∧ byteLength before + byteLength text = t.start ∧
    IsGap following text

theorem adjoins_of_over {source : String} {c d : Cursor} {s t : Span}
    (hc : Reaches (Cursor.start source.toList) c) (h : Over (IsGap d.rest) c d)
    (hs : s.stop = c.offset) (ht : t.start = d.offset) : Adjoins source s t := by
  obtain ⟨before, hsource, hoffset⟩ := hc.eq_append
  obtain ⟨text, hrest, hd, hgap⟩ := h
  have htext : d.offset = c.offset + byteLength text := by
    rw [hd, Cursor.offset_skip, hrest, List.take_left]
  exact ⟨before, text, d.rest, by rw [hsource, hrest, List.append_assoc], by rw [hs, hoffset],
    by rw [ht, htext, hoffset], hgap⟩

namespace Cursor

/-- Two places that one place reaches are told apart by their offsets. -/
theorem Reaches.eq_of_offset_eq {c d e : Cursor} (hd : Reaches c d) (he : Reaches c e)
    (h : d.offset = e.offset) : d = e := by
  have main {m n : Nat} (hmn : m ≤ n) (h : (c.skip m).offset = (c.skip n).offset) :
      c.skip m = c.skip n := by
    obtain ⟨k, rfl⟩ := Nat.exists_eq_add_of_le hmn
    rw [skip_add] at h ⊢
    rw [offset_skip k] at h
    cases k with
    | zero => rfl
    | succ k =>
      cases hrest : (c.skip m).rest with
      | nil => exact (skip_of_rest_eq_nil hrest _).symm
      | cons char rest =>
        rw [hrest, List.take_succ_cons, byteLength_cons] at h
        have := Char.utf8Size_pos char
        omega
  obtain ⟨m, rfl⟩ := hd
  obtain ⟨n, rfl⟩ := he
  rcases Nat.le_total m n with hmn | hnm
  · exact main hmn h
  · exact (main hnm h.symm).symm

end Cursor

namespace Parse

variable {α : Type} {origin : Cursor} {span : α → Span} {Q : α → Prop} {p : Parse α}
  {inside : List Construct} {c d after : Cursor}

/-- A match that starts at a place that `origin` reaches lies in its frame, leaves off after a stop
and ensures something of its value. -/
def Frames (origin : Cursor) (p : Parse α) (span : α → Span) (Q : α → Prop) : Prop :=
  ∀ inside c value after, Reaches origin c → p inside c = .matched value after →
    Stopped origin after ∧ Framed c (span value) after ∧ Q value

theorem Frames.ensures (h : Frames origin p span Q) : Ensures (Reaches origin) p Q := by
  intro inside c value after hc hm
  obtain ⟨hafter, _, hvalue⟩ := h inside c value after hc hm
  exact ⟨hafter.reaches, hvalue⟩

theorem Frames.ensuresStopped (h : Frames origin p span Q) : Ensures (Stopped origin) p Q := by
  intro inside c value after hc hm
  obtain ⟨hafter, _, hvalue⟩ := h inside c value after hc.reaches hm
  exact ⟨hafter, hvalue⟩

theorem Frames.map {β : Type} {f : α → β} {span' : β → Span} {U : β → Prop}
    (h : Frames origin p span Q) (hspan : ∀ value, span' (f value) = span value)
    (hf : ∀ value, Q value → U (f value)) : Frames origin (f <$> p) span' U := by
  intro inside c value after hc hm
  obtain ⟨first, middle, hfirst, hm⟩ := matched_bind hm
  cases hm
  obtain ⟨hafter, hframed, hvalue⟩ := h inside c first after hc hfirst
  rw [← hspan] at hframed
  exact ⟨hafter, hframed, hf first hvalue⟩

theorem frames_unmatched : Frames origin (unmatched : Parse α) span Q := by
  intro inside c value after _ hm
  contradiction

theorem Frames.orElse {q : Parse α} (hp : Frames origin p span Q) (hq : Frames origin q span Q) :
    Frames origin (p.orElse q) span Q := by
  intro inside c value after hc hm
  unfold Parse.orElse at hm
  split at hm
  · exact hq inside c value after hc hm
  · exact hp inside c value after hc hm

theorem frames_firstOf {alternatives : List (Parse α)}
    (h : ∀ p ∈ alternatives, Frames origin p span Q) :
    Frames origin (firstOf alternatives) span Q := by
  induction alternatives with
  | nil => exact frames_unmatched
  | cons p rest ih =>
    apply Frames.orElse
    · exact h p List.mem_cons_self
    · exact ih fun q hq => h q (List.mem_cons_of_mem p hq)

theorem matched_advise {advice : Failure → Failure} {value : α}
    (h : advise advice p inside c = .matched value d) : p inside c = .matched value d := by
  unfold advise at h
  split at h
  · contradiction
  · exact h

/-- What a sentence builds under a span is one tight region there. -/
theorem frames_sentence {construct : Construct} {p : Parse (Span → α)} {view : α → List Region}
    (hregions : Concludes (sentence construct p) view)
    (h : Ensures (Reaches origin) p fun build => ∀ place, span (build place) = place ∧
      (∃ parts, view (build place) = [.mk place true parts]) ∧ Q (build place)) :
    Frames origin (sentence construct p) span Q := by
  intro inside c value after hc hm
  obtain ⟨stop, parts, hview, htoken, _, hend⟩ := hregions inside c value after hm
  obtain ⟨build, last, hbuild, rfl, _⟩ := matched_sentence hm
  obtain ⟨_, hfacts⟩ := h _ _ _ _ (hc.trans (Cursor.reaches_skipBlanks c)) hbuild
  obtain ⟨hspan, ⟨others, hothers⟩, hvalue⟩ := hfacts (c.skipBlanks.spanTo last)
  have hplace : c.skipBlanks.spanTo last = c.skipBlanks.spanTo stop := by
    rw [hothers] at hview
    simp only [List.cons.injEq, Region.mk.injEq] at hview
    exact hview.1.1
  have hstop : Reaches c stop := htoken.reaches
  refine ⟨Cursor.stopped_of_terminator (hc.trans hstop) hend, ?_, hvalue⟩
  exact ⟨_, stop, hspan.trans hplace, .inr rfl, hstop, htoken.begun.fresh.closes_of_terminator hend⟩

/-! ## Parts after a stop -/

section Parts

variable {β γ : Type} {q : Parse β} {f : α → β → Parse γ} {P : β → Prop} {U : γ → Prop}

/-- A part that is read from after a stop, where the part before it leaves off there. -/
theorem Ensures.opened (hp : ∀ inside c value after, Reaches origin c →
      p inside c = .matched value after → Stopped origin after)
    (hq : Ensures (Stopped origin) q P)
    (hf : ∀ first value, P value → Ensures (Reaches origin) (f first value) U) :
    Ensures (Reaches origin) (p >>= fun first => q >>= f first) U := by
  intro inside c value after hc hm
  obtain ⟨first, d, hfirst, hm⟩ := matched_bind hm
  obtain ⟨part, e, hpart, hm⟩ := matched_bind hm
  obtain ⟨hstopped, hvalue⟩ := hq inside d part e (hp inside c first d hc hfirst) hpart
  exact hf first part hvalue inside e value after hstopped.reaches hm

/-- A part under a line that is over. -/
theorem Ensures.terminated {f : β → Parse γ} (hq : Ensures (Stopped origin) q P)
    (hf : ∀ value, P value → Ensures (Reaches origin) (f value) U) :
    Ensures (Reaches origin) (requireTerminator >>= fun _ => q >>= f) U :=
  Ensures.opened (fun _ _ _ _ hc hm =>
    Cursor.stopped_of_terminator hc (terminator_of_requireTerminator hm)) hq fun _ => hf

theorem Ensures.afterTerminator (hq : Ensures (Stopped origin) q P) :
    Ensures (Reaches origin) (requireTerminator *> q) P := by
  intro inside c value after hc hm
  obtain ⟨_, d, hend, hm⟩ := matched_bind hm
  have hd := Cursor.stopped_of_terminator hc (terminator_of_requireTerminator hend)
  obtain ⟨hafter, hvalue⟩ := hq inside d value after hd hm
  exact ⟨hafter.reaches, hvalue⟩

end Parts

/-! ## Runs -/

/-- Only gaps lie between the spans of a run, the span before it and the spans after it. -/
theorem Runs.isChain {source : String} {values : List α} {more : List Span}
    (hp : Frames (Cursor.start source.toList) p span Q)
    (hmore : ∀ (s : Span) (last : Cursor), s.stop = last.offset →
      Reaches (Cursor.start source.toList) last → Closes last d →
        List.IsChain (Adjoins source) (s :: more))
    (h : Runs p inside c values d) (s : Span) (last : Cursor) (hs : s.stop = last.offset)
    (hlast : Reaches (Cursor.start source.toList) last) (hclose : Closes last c) :
    List.IsChain (Adjoins source) (s :: (values.map span ++ more)) := by
  induction h generalizing s last with
  | nil => exact hmore s last hs hlast hclose
  | @cons c middle _ value _ hfirst _ ih =>
    have hc := hlast.trans hclose.reaches
    obtain ⟨_, ⟨first, stop, hspan, hplace, hstop, hnext⟩, _⟩ := hp _ _ _ _ hc hfirst
    rw [List.map_cons, List.cons_append]
    refine .cons_cons ?_ ?_
    · rcases hplace with rfl | rfl
      · exact adjoins_of_over hlast hclose.over hs (by rw [hspan]; rfl)
      · exact adjoins_of_over hlast hclose.over_skipBlanks hs (by rw [hspan]; rfl)
    · exact ih hmore (span value) stop (by rw [hspan]; rfl) (hc.trans hstop) hnext

end Parse

end VisualBasic
