import VisualBasic.Proofs.Correspondence.Alignment
import VisualBasic.Proofs.Routine.Expression

/-!
# Routines followed by parsers

A guide aligns the places of two sources, or of one source with itself, and says at which offsets
comments may begin. A routine that runs on the left source is followed by a parser on the right one
when both come to the same, up to the labels of the guide, or when the routine has begun a comment
where none may begin. What is built of routines that are followed is followed by what is built of
their parsers.
-/

set_option autoImplicit false

namespace VisualBasic

/-- An alignment, the labels under which values are compared, and whether it is that of a source
with itself. -/
structure Guide extends Alignment where
  labels : Relabel
  merges : toAlignment.Merges labels
  isExact : Prop
  eq_of_isExact {c d : Cursor} (he : isExact) (h : meets c d) : c = d

/-- What a parser comes to that goes on after a match. -/
def Outcome.andThen {α β : Type} (outcome : Outcome α) (next : α → Cursor → Outcome β) :
    Outcome β :=
  match outcome with
  | .matched value after => next value after
  | .unmatched => .unmatched
  | .failed failure => .failed failure

/-- Comments that were begun stay begun, whatever comes after. -/
theorem Parsed.mem_comments_andThen {α β : Type} {run : Parsed α} (next : α → Session → Parsed β)
    {n : Nat} (h : n ∈ run.comments) : n ∈ (run.andThen next).comments := by
  unfold Parsed.andThen
  split
  · exact List.mem_append_left _ h
  · exact h
  · exact h

/-- Where a routine may leave the cursor when it does not match. -/
inductive Miss where
  /-- It always matches or fails. -/
  | never
  | kept
  | loose

def Miss.Allows : Miss → Cursor → Cursor → Prop
  | .never, _, _ => False
  | .kept, start, left => left = start
  | .loose, _, _ => True

namespace Guide

variable (G : Guide) {α β γ σ : Type}

/-- Two values that are alike under the labels. -/
def On (f : Relabel → α → γ) (v w : α) : Prop := f G.labels v = f G.labels w

/-- Values built over spans that are alike. -/
def Spanwise (f : Relabel → α → γ) (build other : Span → α) : Prop :=
  ∀ span place, G.labels.span span = G.labels.span place → G.On f (build span) (other place)

/-- What a parser comes to, given what a routine does from a session. -/
inductive Follows (miss : Miss) (V : α → α → Prop) (s : Session) : Parsed α → Outcome α → Prop
  /-- A comment has been begun where none may begin. -/
  | excused {run : Parsed α} {outcome : Outcome α} {n : Nat} (met : n ∈ run.comments)
    (hb : ¬ G.begins n) : Follows miss V s run outcome
  | matched {v w : α} {c d : Cursor} {notes : List Nat} (value : V v w) (meets : G.meets c d) :
    Follows miss V s ⟨.matched v, { s with cursor := c }, notes⟩ (.matched w d)
  | unmatched {c : Cursor} {notes : List Nat} (allows : miss.Allows s.cursor c) :
    Follows miss V s ⟨.unmatched, { s with cursor := c }, notes⟩ .unmatched
  | failed {diagnostic : Diagnostic} {c : Cursor} {notes : List Nat} {failure : Failure}
    (alike : G.isExact → diagnostic = s.diagnose failure ∧ c = failure.stopped) :
    Follows miss V s ⟨.failed diagnostic, { s with cursor := c }, notes⟩ (.failed failure)

/-- A parser that follows a routine from every place that is met. -/
def Tracks (miss : Miss) (m : Routine α) (p : Parse α) (V : α → α → Prop) : Prop :=
  ∀ (s : Session) (inside : List Construct) (d : Cursor), (G.isExact → s.inside = inside) →
    G.meets s.cursor d → G.Follows miss V s (m.run s) (p inside d)

variable {G} {miss other : Miss} {m m' : Routine α} {p p' : Parse α} {V W : α → α → Prop}
  {U : β → β → Prop} {f : α → Routine β} {q : α → Parse β} {g : Relabel → α → γ} {s : Session}

/-! ## Sequences -/

theorem Follows.weaken {run : Parsed α} {outcome : Outcome α} (h : G.Follows miss V s run outcome)
    (hV : ∀ v w, V v w → W v w) (hm : ∀ c, miss.Allows s.cursor c → other.Allows s.cursor c) :
    G.Follows other W s run outcome := by
  cases h with
  | excused met hb => exact .excused met hb
  | matched value meets => exact .matched (hV _ _ value) meets
  | unmatched allows => exact .unmatched (hm _ allows)
  | failed alike => exact .failed alike

theorem Follows.after {run : Parsed α} {outcome : Outcome α} (h : G.Follows miss V s run outcome)
    (notes : List Nat) : G.Follows miss V s (run.after notes) outcome := by
  cases h with
  | excused met hb => exact .excused (List.mem_append_right notes met) hb
  | matched value meets => exact .matched value meets
  | unmatched allows => exact .unmatched allows
  | failed alike => exact .failed alike

/-- What follows from a later place of a session follows from the session. -/
theorem Follows.back {c : Cursor} {run : Parsed α} {outcome : Outcome α}
    (h : G.Follows miss V { s with cursor := c } run outcome)
    (hm : ∀ e, miss.Allows c e → other.Allows s.cursor e) : G.Follows other V s run outcome := by
  cases h with
  | excused met hb => exact .excused met hb
  | matched value meets => exact .matched value meets
  | unmatched allows => exact .unmatched (hm _ allows)
  | failed alike => exact .failed alike

theorem Follows.andThen {run : Parsed α} {outcome : Outcome α} {next : α → Session → Parsed β}
    {next' : α → Cursor → Outcome β} (h : G.Follows miss V s run outcome)
    (hm : ∀ c, miss.Allows s.cursor c → other.Allows s.cursor c)
    (hnext : ∀ v w c d, V v w → G.meets c d →
      G.Follows other U s (next v { s with cursor := c }) (next' w d)) :
    G.Follows other U s (run.andThen next) (outcome.andThen next') := by
  cases h with
  | excused met hb => exact .excused (Parsed.mem_comments_andThen _ met) hb
  | matched value meets => exact (hnext _ _ _ _ value meets).after _
  | unmatched allows => exact .unmatched (hm _ allows)
  | failed alike => exact .failed alike

theorem Tracks.mono (h : G.Tracks miss m p V) (hV : ∀ v w, V v w → W v w) :
    G.Tracks miss m p W := fun s inside d hin hcd => (h s inside d hin hcd).weaken hV fun _ => id

theorem Tracks.loosen (h : G.Tracks miss m p V) : G.Tracks .loose m p V :=
  fun s inside d hin hcd => (h s inside d hin hcd).weaken (fun _ _ => id) fun _ _ => trivial

/-- A routine that always matches or fails leaves the cursor wherever it may be left. -/
theorem Tracks.anyhow (h : G.Tracks .never m p V) (miss : Miss) : G.Tracks miss m p V :=
  fun s inside d hin hcd => (h s inside d hin hcd).weaken (fun _ _ => id) fun _ h => h.elim

theorem tracks_pure {v w : α} (h : V v w) : G.Tracks .never (pure v) (pure w) V :=
  fun _ _ _ _ hcd => .matched h hcd

theorem Tracks.andThen (h : G.Tracks miss m p V)
    (hf : ∀ v w, V v w → G.Tracks other (f v) (q w) U) : G.Tracks .loose (m >>= f) (p >>= q) U := by
  intro s inside d hin hcd
  exact (h s inside d hin hcd).andThen (fun _ _ => trivial) fun v w c e value meets =>
    (hf v w value { s with cursor := c } inside e hin meets).back fun _ _ => trivial

/-- After a part that does not match, nothing has been taken; after one that does, the rest matches
or fails. -/
theorem Tracks.thenNever (h : G.Tracks miss m p V)
    (hf : ∀ v w, V v w → G.Tracks .never (f v) (q w) U) : G.Tracks miss (m >>= f) (p >>= q) U := by
  intro s inside d hin hcd
  exact (h s inside d hin hcd).andThen (fun _ => id) fun v w c e value meets =>
    (hf v w value { s with cursor := c } inside e hin meets).back fun _ h => h.elim

/-- A sequence whose first part has the same value on both sides. -/
theorem Tracks.next (h : G.Tracks miss m p Eq)
    (hf : ∀ value, G.Tracks other (f value) (q value) U) :
    G.Tracks .loose (m >>= f) (p >>= q) U := by
  apply h.andThen
  intro v w hvw
  rw [← hvw]
  exact hf v

theorem Tracks.nextNever (h : G.Tracks miss m p Eq)
    (hf : ∀ value, G.Tracks .never (f value) (q value) U) :
    G.Tracks miss (m >>= f) (p >>= q) U := by
  apply h.thenNever
  intro v w hvw
  rw [← hvw]
  exact hf v

/-- Two parts in a row, of which the second has the value. -/
theorem Tracks.seqRight {r : Routine β} {t : Parse β} (h : G.Tracks miss m p Eq)
    (hr : G.Tracks .never r t U) : G.Tracks miss (m >>= fun _ => r) (p *> t) U :=
  h.nextNever fun _ => hr

theorem Tracks.map {f : α → β} {f' : α → β} (h : G.Tracks miss m p V)
    (hf : ∀ v w, V v w → U (f v) (f' w)) : G.Tracks miss (f <$> m) (f' <$> p) U := by
  rw [← bind_pure_comp (m := Parse)]
  exact h.thenNever fun v w value => tracks_pure (hf v w value)

/-! ## Rules and alternatives -/

theorem Tracks.rule (h : G.Tracks .loose m p V) (construct : Construct) :
    G.Tracks .kept (Routine.rule construct m) (Parse.within construct p) V := by
  intro s inside d hin hcd
  have hbody := h { s with inside := construct :: s.inside } (construct :: inside) d
    (fun he => congrArg (construct :: ·) (hin he)) hcd
  simp only [Routine.rule, Parse.within]
  generalize m.run { s with inside := construct :: s.inside } = run at hbody ⊢
  generalize p (construct :: inside) d = outcome at hbody ⊢
  cases hbody with
  | excused met hb =>
    refine .excused ?_ hb
    split <;> exact met
  | matched value meets => exact .matched value meets
  | unmatched allows => exact .unmatched rfl
  | failed alike => exact .failed alike

theorem tracks_unmatched : G.Tracks .kept (Routine.unmatched : Routine α) Parse.unmatched V :=
  fun s _ _ _ _ => .unmatched (c := s.cursor) rfl

theorem Tracks.attempt (h : G.Tracks .kept m p (G.On g)) :
    G.Tracks .never (Routine.attempt m) (Parse.opt p) (G.On fun r => Option.map (g r)) := by
  intro s inside d hin hcd
  have hbody := h s inside d hin hcd
  simp only [Routine.attempt, Parse.opt, Parse.orElse, Parse.bind]
  generalize m.run s = run at hbody ⊢
  generalize p inside d = outcome at hbody ⊢
  cases hbody with
  | excused met hb =>
    refine .excused ?_ hb
    split <;> exact met
  | matched value meets => exact .matched (congrArg some value) meets
  | @unmatched c notes allows =>
    obtain rfl : c = s.cursor := allows
    exact .matched rfl hcd
  | failed alike => exact .failed alike

theorem Tracks.orElse (h : G.Tracks .kept m p V) (h' : G.Tracks miss m' p' V) :
    G.Tracks miss (Routine.orElse m m') (p.orElse p') V := by
  intro s inside d hin hcd
  have hbody := h s inside d hin hcd
  have hlast := h' s inside d hin hcd
  simp only [Routine.orElse, Routine.run_bind, Routine.attempt, Parse.orElse]
  generalize m.run s = run at hbody ⊢
  generalize p inside d = outcome at hbody ⊢
  cases hbody with
  | excused met hb =>
    refine .excused (Parsed.mem_comments_andThen _ ?_) hb
    split <;> exact met
  | matched value meets => exact .matched value meets
  | @unmatched c notes allows =>
    obtain rfl : c = s.cursor := allows
    exact hlast.after notes
  | failed alike => exact .failed alike

/-- What always matches or fails is not followed by an alternative. -/
theorem Tracks.orElseNever (h : G.Tracks .never m p V) (m' : Routine α) (p' : Parse α) :
    G.Tracks .never (Routine.orElse m m') (p.orElse p') V := by
  intro s inside d hin hcd
  have hbody := h s inside d hin hcd
  simp only [Routine.orElse, Routine.run_bind, Routine.attempt, Parse.orElse]
  generalize m.run s = run at hbody ⊢
  generalize p inside d = outcome at hbody ⊢
  cases hbody with
  | excused met hb =>
    refine .excused (Parsed.mem_comments_andThen _ ?_) hb
    split <;> exact met
  | matched value meets => exact .matched value meets
  | unmatched allows => exact allows.elim
  | failed alike => exact .failed alike

/-- An alternative after a part that leaves the cursor anywhere, and the way back before it. -/
theorem Tracks.orElseBack (h : G.Tracks .loose m p V) (h' : G.Tracks miss m' p' V) :
    G.Tracks miss (Routine.orElseBack m m') (p.orElse p') V := by
  intro s inside d hin hcd
  have hbody := h s inside d hin hcd
  have hlast := h' s inside d hin hcd
  simp only [Routine.orElseBack, Routine.run_bind, Routine.run_place, Routine.attempt,
    Parsed.matched_andThen, Parsed.after_nil, Parse.orElse]
  generalize m.run s = run at hbody ⊢
  generalize p inside d = outcome at hbody ⊢
  cases hbody with
  | excused met hb =>
    refine .excused (Parsed.mem_comments_andThen _ ?_) hb
    split <;> exact met
  | matched value meets => exact .matched value meets
  | unmatched allows => exact hlast.after _
  | failed alike => exact .failed alike

/-! ## Failures -/

theorem tracks_failAt (miss : Miss) (expected : Expected) {token token' : Cursor}
    (h : G.meets token token') :
    G.Tracks miss (Routine.failAt expected token : Routine α) (Parse.failAt token' expected) V := by
  intro s inside d hin hcd
  simp only [Routine.failAt, Routine.run_bind, Routine.run_errorAt, Routine.run_raise,
    Parsed.matched_andThen, Parsed.after_nil, Parse.failAt]
  refine .failed (c := s.cursor) fun he => ?_
  rw [hin he, G.eq_of_isExact he h, G.eq_of_isExact he hcd]
  exact ⟨rfl, rfl⟩

theorem tracks_fail (miss : Miss) (expected : Expected) :
    G.Tracks miss (Routine.fail expected : Routine α) (Parse.fail expected) V := by
  intro s inside d hin hcd
  simp only [Routine.fail, Routine.run_bind, Routine.run_error, Routine.run_raise,
    Parsed.matched_andThen, Parsed.after_nil, Parse.fail, Parse.failAt]
  refine .failed (c := s.cursor) fun he => ?_
  rw [hin he, G.eq_of_isExact he hcd]
  exact ⟨rfl, rfl⟩

theorem Tracks.require (h : G.Tracks .kept m p V) (expected : Expected) :
    G.Tracks .never (Routine.require expected m) (Parse.require expected p) V :=
  h.orElse (tracks_fail .never expected)

/-! ## Places -/

theorem tracks_mark : G.Tracks .never Routine.mark Parse.mark fun c d =>
    G.meets c d ∧ c.skipBlanks = c ∧ d.skipBlanks = d := by
  intro s inside d hin hcd
  rw [Routine.run_mark]
  exact .matched ⟨G.skipBlanks hcd, Cursor.skipBlanks_skipBlanks _, Cursor.skipBlanks_skipBlanks _⟩
    (G.skipBlanks hcd)

theorem tracks_nextToken :
    G.Tracks .never (Routine.scan Scanner.nextToken) Parse.nextToken G.meets := by
  intro s inside d hin hcd
  rw [Routine.run_scan, Scanner.run_nextToken]
  exact .matched (G.skipBlanks hcd) hcd

/-! ## Tokens -/

/-- A token that is passed over on the left is passed over on the right. -/
def Passes (G : Guide) (token : Scanner Bool) (next : Cursor → Option Cursor) : Prop :=
  ∀ c d, G.meets c d → (∃ n ∈ (token.run c).comments, ¬ G.begins n) ∨
    ∃ found notes, token.run c = (Scanned.passed found c).after notes ∧
      Option.Rel G.meets found (next d)

/-- A token that is taken on the left is taken on the right. -/
def Takes (G : Guide) (m : Scanner (Option α)) (reader : Reader α) : Prop :=
  ∀ c d, G.meets c d → (∃ n ∈ (m.run c).comments, ¬ G.begins n) ∨
    ∃ found notes, m.run c = (Scanned.taken found c).after notes ∧
      Option.Rel (Valued G.meets) found (reader d)

theorem passes_of_run {token : Scanner Bool} {next : Cursor → Option Cursor}
    (h : ∀ c, token.run c = .passed (next c) c)
    (hn : ∀ c d, G.meets c d → Option.Rel G.meets (next c) (next d)) : G.Passes token next :=
  fun c d hcd => .inr ⟨next c, [], h c, hn c d hcd⟩

theorem takes_of_run {m : Scanner (Option α)} {reader : Reader α}
    (h : ∀ c, m.run c = .taken (reader c) c)
    (hn : ∀ c d, G.meets c d → Option.Rel (Valued G.meets) (reader c) (reader d)) :
    G.Takes m reader := fun c d hcd => .inr ⟨reader c, [], h c, hn c d hcd⟩

theorem Passes.met {token : Scanner Bool} {next : Cursor → Option Cursor}
    (h : G.Passes token next) :
    G.Tracks .kept (Routine.met token) (Parse.pass next) Eq := by
  intro s inside d hin hcd
  rcases h s.cursor d hcd with ⟨n, hmem, hb⟩ | ⟨found, notes, hrun, hnext⟩
  · refine .excused (Parsed.mem_comments_andThen _ ?_) hb
    exact hmem
  · rw [Routine.run_met hrun]
    unfold Parse.pass
    generalize next d = x at hnext ⊢
    cases hnext with
    | none => exact .unmatched (c := s.cursor) rfl
    | some hmeets => exact .matched rfl hmeets

theorem Passes.flag {token : Scanner Bool} {next : Cursor → Option Cursor}
    (h : G.Passes token next) :
    G.Tracks .never (Routine.scan token) (Parse.flag (Parse.pass next)) Eq := by
  intro s inside d hin hcd
  rcases h s.cursor d hcd with ⟨n, hmem, hb⟩ | ⟨found, notes, hrun, hnext⟩
  · exact .excused hmem hb
  · rw [Routine.run_scan, hrun]
    simp only [Parse.flag, Parse.orElse, Parse.bind, Parse.pass]
    generalize next d = x at hnext ⊢
    cases hnext with
    | none => exact .matched rfl hcd
    | some hmeets => exact .matched rfl hmeets

theorem Takes.found {m : Scanner (Option α)} {reader : Reader α} (h : G.Takes m reader) :
    G.Tracks .kept (Routine.found m) (Parse.read reader) Eq := by
  intro s inside d hin hcd
  rcases h s.cursor d hcd with ⟨n, hmem, hb⟩ | ⟨found, notes, hrun, hnext⟩
  · refine .excused (Parsed.mem_comments_andThen _ ?_) hb
    exact hmem
  · rw [Routine.run_found hrun]
    unfold Parse.read
    generalize reader d = x at hnext ⊢
    cases hnext with
    | none => exact .unmatched (c := s.cursor) rfl
    | some hmeets => exact .matched hmeets.1 hmeets.2

theorem Takes.opt {m : Scanner (Option α)} {reader : Reader α} (h : G.Takes m reader) :
    G.Tracks .never (Routine.scan m) (Parse.opt (Parse.read reader)) Eq := by
  intro s inside d hin hcd
  rcases h s.cursor d hcd with ⟨n, hmem, hb⟩ | ⟨found, notes, hrun, hnext⟩
  · exact .excused hmem hb
  · rw [Routine.run_scan, hrun]
    simp only [Parse.opt, Parse.orElse, Parse.bind, Parse.read]
    generalize reader d = x at hnext ⊢
    cases hnext with
    | none => exact .matched rfl hcd
    | some hmeets => exact .matched (congrArg some hmeets.1) hmeets.2

/-- A part after a token, if the token is there. -/
theorem Passes.optional {token : Scanner Bool} {next : Cursor → Option Cursor}
    (h : G.Passes token next) (hm : G.Tracks .never m p (G.On g)) :
    G.Tracks .never (Routine.optional token m) (Parse.opt (Parse.pass next *> p))
      (G.On fun r => Option.map (g r)) := by
  intro s inside d hin hcd
  rcases h s.cursor d hcd with ⟨n, hmem, hb⟩ | ⟨found, notes, hrun, hnext⟩
  · exact .excused (Parsed.mem_comments_andThen _ hmem) hb
  · simp only [Routine.optional, Routine.run_bind, Routine.run_scan, hrun, Parse.opt, Parse.orElse,
      Parse.bind, Parse.pass, seqRight_eq_bind, Parse.bind_apply]
    generalize next d = x at hnext ⊢
    cases hnext with
    | none => exact .matched rfl hcd
    | @some c e hmeets =>
      have hpart := hm { s with cursor := c } inside e hin hmeets
      refine @Follows.after G _ _ _ s ((m.run { s with cursor := c }).andThen _) _ ?_ _
      dsimp only
      generalize m.run { s with cursor := c } = run at hpart ⊢
      generalize p inside e = outcome at hpart ⊢
      cases hpart with
      | excused met hb => exact .excused (Parsed.mem_comments_andThen _ met) hb
      | matched value meets => exact .matched (congrArg some value) meets
      | unmatched allows => exact allows.elim
      | failed alike => exact .failed alike

end Guide

end VisualBasic
