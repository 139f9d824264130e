import VisualBasic.Proofs.Cursor.Place
import VisualBasic.Proofs.Span.Region
import VisualBasic.Proofs.Text.Cut
import VisualBasic.Proofs.Text.Gap

/-!
# Condensed texts

A text is condensed by taking out its blanks and line continuations, except where it is kept. What a
place of a text condenses to from there on is told piece by piece: blanks that are not kept condense
to nothing, ink to itself. `Condenses spans text c d` says so of all that lies between two places.
-/

set_option autoImplicit false

namespace VisualBasic

/-- A text that lies at an offset, without its blanks and line continuations; all that lies at a
kept offset stays. -/
def condense (kept : Nat → Bool) (offset : Nat) (afterBlank : Bool) : List Char → List Char
  | [] => []
  | c :: rest =>
    if kept offset then c :: condense kept (offset + c.utf8Size) (isBlank c) rest
    else if isBlank c then condense kept (offset + c.utf8Size) true rest
    else if afterBlank && c = '_' then
      match continuationWidth rest with
      | some n =>
        condense kept (offset + c.utf8Size + byteLength (rest.take n)) false (rest.drop n)
      | none => c :: condense kept (offset + c.utf8Size) false rest
    else c :: condense kept (offset + c.utf8Size) false rest
termination_by text => text.length
decreasing_by all_goals simp; try omega

variable {kept : Nat → Bool} {offset : Nat} {afterBlank : Bool}

theorem condense_of_kept (h : kept offset = true) (c : Char) (rest : List Char) :
    condense kept offset afterBlank (c :: rest) =
      c :: condense kept (offset + c.utf8Size) (isBlank c) rest := by
  rw [condense, if_pos h]

theorem condense_of_blank {c : Char} (h : kept offset = false) (hc : isBlank c = true)
    (rest : List Char) :
    condense kept offset afterBlank (c :: rest) =
    condense kept (offset + c.utf8Size) true rest := by
  rw [condense, if_neg (by simp [h]), if_pos hc]

theorem condense_of_continuation {rest : List Char} {n : Nat} (h : kept offset = false)
    (hn : continuationWidth rest = some n) :
    condense kept offset true ('_' :: rest) =
      condense kept (offset + ('_' : Char).utf8Size + byteLength (rest.take n)) false
        (rest.drop n) := by
  rw [condense, if_neg (by simp [h]), if_neg (by decide), if_pos (by decide), hn]

/-- What is no blank and opens no continuation stays, kept or not. -/
theorem condense_of_still {c : Char} {rest : List Char} (hc : isBlank c = false)
    (hstill : afterBlank = true → c = '_' → continuationWidth rest = none) :
    condense kept offset afterBlank (c :: rest) =
    c :: condense kept (offset + c.utf8Size) false rest := by
  rw [condense, hc]
  split
  · rfl
  · rw [if_neg (by simp)]
    split
    · rename_i h
      simp only [Bool.and_eq_true, decide_eq_true_eq] at h
      rw [hstill h.1 h.2]
    · rfl

/-! ## Cut texts -/

variable {text more : List Char}

/-- A text condenses as it does at the start of the text that goes on. -/
theorem Parted.condense_append (h : Parted afterBlank text more) :
    condense kept offset afterBlank (text ++ more) = condense kept offset afterBlank text ++
      condense kept (offset + byteLength text) (endsBlank afterBlank text) more := by
  fun_induction condense kept offset afterBlank text with
  | case1 => simp
  | case2 offset afterBlank c rest hk ih =>
    rw [List.cons_append, condense_of_kept hk, ih h.tail, endsBlank_cons, byteLength_cons,
      Nat.add_assoc, List.cons_append]
  | case3 offset afterBlank c rest hk hc ih =>
    have htail := h.tail
    rw [hc] at htail
    rw [List.cons_append, condense_of_blank (by simpa using hk) hc, ih htail, endsBlank_cons, hc,
      byteLength_cons, Nat.add_assoc]
  | case4 offset afterBlank c rest hk hc hu n hn ih =>
    simp only [Bool.and_eq_true, decide_eq_true_eq] at hu
    obtain ⟨rfl, rfl⟩ := hu
    have hrest : rest.getLast?.any isInk = true :=
      h.tail.ink_of_ne_nil (by rintro rfl; contradiction)
    obtain ⟨hsame, hlt⟩ := continuationWidth_append_of_ink hrest more
    have hle := Nat.le_of_lt (hlt n hn)
    have hwhole : Parted true (('_' :: rest.take n) ++ rest.drop n) more := by
      rwa [List.cons_append, List.take_append_drop]
    have hdrop : Parted false (rest.drop n) more := hwhole.drop fun h => by contradiction
    have hflag : endsBlank true ('_' :: rest) = endsBlank false (rest.drop n) := by
      have htake : endsBlank false (rest.take n) = false := by
        rw [endsBlank_false]
        exact any_isBlank_getLast?_take_continuationWidth hn []
      calc endsBlank true ('_' :: rest) = endsBlank false (rest.take n ++ rest.drop n) := by
            rw [endsBlank_cons, List.take_append_drop]
            rfl
        _ = endsBlank false (rest.drop n) := by rw [endsBlank_append, htake]
    have hlength : byteLength rest = byteLength (rest.take n) + byteLength (rest.drop n) := by
      rw [← byteLength_append, List.take_append_drop]
    rw [List.cons_append, condense_of_continuation (by simpa using hk) (hsame.trans hn),
      List.take_append_of_le_length hle, List.drop_append_of_le_length hle, ih hdrop, hflag,
      byteLength_cons, hlength, Nat.add_assoc, Nat.add_assoc, Nat.add_assoc]
  | case5 offset afterBlank c rest hk hc hu hn ih =>
    simp only [Bool.and_eq_true, decide_eq_true_eq] at hu
    obtain ⟨rfl, rfl⟩ := hu
    have hmore := h.continuationWidth_eq.trans hn
    rw [List.cons_append, condense_of_still rfl fun _ _ => hmore, ih h.tail, endsBlank_cons,
      byteLength_cons, Nat.add_assoc, List.cons_append]
    rfl
  | case6 offset afterBlank c rest hk hc hu ih =>
    have hblank : isBlank c = false := by simpa using hc
    have hstill : afterBlank = true → c = '_' → continuationWidth (rest ++ more) = none := by
      rintro rfl rfl
      simp at hu
    have htail := h.tail
    rw [hblank] at htail
    rw [List.cons_append, condense_of_still hblank hstill, ih htail, endsBlank_cons, hblank,
      byteLength_cons, Nat.add_assoc, List.cons_append]

/-! ## Places -/

/-- Whether an offset lies under one of the spans. -/
def isCovered (spans : List Span) (offset : Nat) : Bool :=
  spans.any fun span => span.start ≤ offset && offset < span.stop

theorem isCovered_append (spans more : List Span) (offset : Nat) :
    isCovered (spans ++ more) offset = (isCovered spans offset || isCovered more offset) :=
  List.any_append

theorem isCovered_eq_false_of_le {spans : List Span} {offset : Nat}
    (h : ∀ span ∈ spans, span.stop ≤ offset) : isCovered spans offset = false := by
  refine List.any_eq_false.mpr fun span hspan => ?_
  have hstop := h span hspan
  simp only [Bool.and_eq_true, decide_eq_true_eq]
  omega

theorem isCovered_eq_false_of_lt {spans : List Span} {offset : Nat}
    (h : ∀ span ∈ spans, offset < span.start) : isCovered spans offset = false := by
  refine List.any_eq_false.mpr fun span hspan => ?_
  have hstart := h span hspan
  simp only [Bool.and_eq_true, decide_eq_true_eq]
  omega

namespace Cursor

variable {c d e : Cursor} {spans more : List Span} {text after : List Char}

/-- What a place condenses to from there on. -/
def condensed (kept : Nat → Bool) (c : Cursor) : List Char :=
  condense kept c.offset c.afterBlank c.rest

/-- From one place to a later one lies what condenses to a text, where it is kept under the spans:
these lie between the two places. -/
structure Condenses (spans : List Span) (text : List Char) (c d : Cursor) : Prop where
  reaches : Reaches c d
  inside {span : Span} (h : span ∈ spans) : c.offset ≤ span.start ∧ span.stop ≤ d.offset
  condensed {kept : Nat → Bool}
    (h : ∀ offset, c.offset ≤ offset → offset < d.offset → kept offset = isCovered spans offset) :
    c.condensed kept = text ++ d.condensed kept

theorem Condenses.trans (h : Condenses spans text c d) (h' : Condenses more after d e) :
    Condenses (spans ++ more) (text ++ after) c e where
  reaches := h.reaches.trans h'.reaches
  inside {span} hspan := by
    have hcd := h.reaches.offset_le
    have hde := h'.reaches.offset_le
    rcases List.mem_append.mp hspan with hspan | hspan
    · have hinside := h.inside hspan
      omega
    · have hinside := h'.inside hspan
      omega
  condensed {kept} hkept := by
    have hcd := h.reaches.offset_le
    have hde := h'.reaches.offset_le
    have hfirst : c.condensed kept = text ++ d.condensed kept :=
      h.condensed fun offset hlow hhigh => by
      rw [hkept offset hlow (by omega), isCovered_append,
        isCovered_eq_false_of_lt fun span hspan => Nat.lt_of_lt_of_le hhigh (h'.inside hspan).1,
        Bool.or_false]
    have hsecond : d.condensed kept = after ++ e.condensed kept :=
      h'.condensed fun offset hlow hhigh => by
      rw [hkept offset (by omega) hhigh, isCovered_append,
        isCovered_eq_false_of_le fun span hspan => Nat.le_trans (h.inside hspan).2 hlow,
        Bool.false_or]
    rw [hfirst, hsecond, List.append_assoc]

theorem Condenses.refl (c : Cursor) : Condenses [] [] c c :=
  ⟨Reaches.refl c, fun h => by contradiction, fun _ => rfl⟩

theorem next_eq {char : Char} {rest : List Char} (hr : c.rest = char :: rest) :
    c.next = ⟨c.offset + char.utf8Size, isBlank char, rest⟩ := by
  rw [next, hr]

/-! ### Blanks -/

theorem condenses_blank {char : Char} {rest : List Char} (hr : c.rest = char :: rest)
    (hb : isBlank char = true) : Condenses [] [] c (c.skip 1) := by
  refine ⟨reaches_skip 1 c, fun h => by contradiction, fun {kept} hkept => ?_⟩
  have hnext : c.skip 1 = ⟨c.offset + char.utf8Size, isBlank char, rest⟩ := next_eq hr
  have hsize := char.utf8Size_pos
  rw [hnext] at hkept ⊢
  have hfree : kept c.offset = false :=
    hkept c.offset (Nat.le_refl _) (Nat.lt_add_of_pos_right hsize)
  rw [condensed, condensed, hr, condense_of_blank hfree hb, hb]
  rfl

theorem condenses_continuation {rest : List Char} {n : Nat} (hr : c.rest = '_' :: rest)
    (ha : c.afterBlank = true) (hn : continuationWidth rest = some n) :
    Condenses [] [] c (c.skip (n + 1)) := by
  refine ⟨reaches_skip _ c, fun h => by contradiction, fun {kept} hkept => ?_⟩
  have hplace : (c.skip (n + 1)).offset = c.offset + ('_' : Char).utf8Size +
      byteLength (rest.take n) := by
    rw [offset_skip, hr, List.take_succ_cons, byteLength_cons, Nat.add_assoc]
  have hafter : (c.skip (n + 1)).afterBlank = false := by
    have hskip : c.skip (n + 1) = (c.skip 1).skip n := by rw [Nat.add_comm, skip_add]
    rw [hskip]
    refine afterBlank_skip_continuationWidth ?_
    rw [rest_skip, hr]
    exact hn
  have hrest : (c.skip (n + 1)).rest = rest.drop n := by
    rw [rest_skip, hr, List.drop_succ_cons]
  have hsize := Char.utf8Size_pos '_'
  have hfree : kept c.offset = false := hkept c.offset (Nat.le_refl _) (by omega)
  rw [condensed, condensed, hr, ha, condense_of_continuation hfree hn, hplace, hafter, hrest]
  rfl

/-- Blanks and line continuations condense to nothing. -/
theorem condenses_skipBlanks (c : Cursor) : Condenses [] [] c c.skipBlanks := by
  induction hlen : c.rest.length using Nat.strongRecOn generalizing c with
  | _ length ih =>
    cases hr : c.rest with
    | nil =>
      rw [skipBlanks_of_nil hr]
      exact .refl c
    | cons char rest =>
      have hshort (n : Nat) : (c.skip (n + 1)).rest.length < length := by
        rw [← hlen, rest_skip, hr, List.drop_succ_cons, List.length_drop, List.length_cons]
        omega
      have hstay (hchar : isBlank char = false)
          (h : c.afterBlank = true → char = '_' → continuationWidth rest = none) :
          Condenses [] [] c c.skipBlanks := by
        rw [skipBlanks, hr, blankWidth_cons_eq_zero hchar h]
        exact .refl c
      cases hblank : isBlank char with
      | true =>
        rw [skipBlanks_of_blank hr hblank]
        exact (condenses_blank hr hblank).trans (ih _ (hshort 0) (c.skip 1) rfl)
      | false =>
        by_cases hopens : c.afterBlank = true ∧ char = '_'
        · obtain ⟨hafter, rfl⟩ := hopens
          cases hn : continuationWidth rest with
          | none => exact hstay hblank fun _ _ => hn
          | some n =>
            rw [skipBlanks_of_continuation hr hafter hn]
            exact (condenses_continuation hr hafter hn).trans (ih _ (hshort n) (c.skip (n + 1)) rfl)
        · exact hstay hblank fun hafter hunder => absurd ⟨hafter, hunder⟩ hopens

/-! ### Ink -/

theorem condenses_still {char : Char} {rest : List Char} (hr : c.rest = char :: rest)
    (hchar : isBlank char = false)
    (hstill : c.afterBlank = true → char = '_' → continuationWidth rest = none) :
    Condenses [] [char] c c.next := by
  refine ⟨next_reaches c, fun h => by contradiction, fun {kept} _ => ?_⟩
  rw [condensed, condensed, next_eq hr, hr, condense_of_still hchar hstill, hchar]
  rfl

/-- Ink condenses to itself. -/
theorem condenses_skip {n : Nat} (hblank : ∀ char ∈ c.rest.take n, isBlank char = false)
    (hstill : ∀ rest, c.afterBlank = true → c.rest = '_' :: rest → continuationWidth rest = none) :
    Condenses [] (c.rest.take n) c (c.skip n) := by
  induction n generalizing c with
  | zero => exact .refl c
  | succ n ih =>
    cases hr : c.rest with
    | nil =>
      rw [skip_of_rest_eq_nil hr]
      exact .refl c
    | cons char rest =>
      have hchar : isBlank char = false := hblank char (by simp [hr])
      have hfirst := condenses_still hr hchar fun hafter hunder => hstill rest hafter (hunder ▸ hr)
      have hnext := next_eq hr
      have hrest : Condenses [] (c.next.rest.take n) c.next (c.next.skip n) := by
        refine ih (fun d hd => hblank d ?_) fun rest hafter => ?_
        · rw [hnext] at hd
          rw [hr]
          exact List.mem_cons_of_mem _ hd
        · rw [hnext, hchar] at hafter
          contradiction
      rw [hnext] at hrest hfirst
      rw [skip_succ, hnext]
      exact hfirst.trans hrest

/-- Where the blanks end, no continuation starts. -/
theorem still_skipBlanks {rest : List Char} (ha : c.skipBlanks.afterBlank = true)
    (hr : c.skipBlanks.rest = '_' :: rest) : continuationWidth rest = none := by
  have hwidth := blankWidth_skipBlanks c
  rw [ha, hr] at hwidth
  cases hn : continuationWidth rest with
  | none => rfl
  | some n =>
    rw [blankWidth_continuation hn] at hwidth
    omega

/-- A run of ink after blanks. -/
theorem condenses_token {n : Nat}
    (hblank : ∀ char ∈ c.skipBlanks.rest.take n, isBlank char = false) :
    Condenses [] (c.skipBlanks.rest.take n) c (c.skipBlanks.skip n) :=
  (condenses_skipBlanks c).trans (condenses_skip hblank fun _ => still_skipBlanks)

theorem condenses_of_symbol {char : Char} (hc : isBlank char = false) (h : c.symbol char = some d) :
    Condenses [] [char] c d := by
  obtain ⟨hhead, rfl⟩ := adjacent_eq_some_iff.mp h
  obtain ⟨rest, hr⟩ := List.head?_eq_some_iff.mp hhead
  have htake : c.skipBlanks.rest.take 1 = [char] := by rw [hr]; rfl
  have hrun := condenses_token (c := c) (n := 1)
  rw [htake] at hrun
  exact hrun fun d hd => by rw [List.mem_singleton.mp hd, hc]

theorem condenses_of_adjacent {char : Char} (hc : isBlank char = false) (hunder : char ≠ '_')
    (h : c.adjacent char = some d) : Condenses [] [char] c d := by
  obtain ⟨hhead, rfl⟩ := adjacent_eq_some_iff.mp h
  obtain ⟨rest, hr⟩ := List.head?_eq_some_iff.mp hhead
  exact condenses_still hr hc fun _ h => absurd h hunder

theorem condenses_of_identifier {name : String} (h : c.identifier = some (name, d)) :
    Condenses [] name.toList c d := by
  have hword := (identifier_eq_some_iff.mp h).1
  simp only [word] at hword
  split at hword
  · cases hword
    have hrun := condenses_token (c := c) (n := (c.skipBlanks.rest.takeWhile isWordChar).length)
    rw [take_length_takeWhile] at hrun
    rw [String.toList_ofList]
    exact hrun
      fun char hchar => isBlank_eq_false_of_isInk (isInk_of_isWordChar (of_mem_takeWhile hchar))
  · contradiction

/-- What is kept condenses to itself. -/
theorem condenses_kept (c : Cursor) (n : Nat) :
    Condenses [c.spanTo (c.skip n)] (c.rest.take n) c (c.skip n) := by
  refine ⟨reaches_skip n c, ?_, fun {kept} hkept => ?_⟩
  · intro span hspan
    rw [List.mem_singleton.mp hspan]
    exact ⟨Nat.le_refl _, Nat.le_refl _⟩
  · have hall : ∀ offset, c.offset ≤ offset → offset < (c.skip n).offset → kept offset = true := by
      intro offset hlow hhigh
      rw [hkept offset hlow hhigh]
      simpa [isCovered, spanTo] using ⟨hlow, hhigh⟩
    clear hkept
    induction n generalizing c with
    | zero => rfl
    | succ n ih =>
      cases hr : c.rest with
      | nil =>
        rw [skip_of_rest_eq_nil hr]
        rfl
      | cons char rest =>
        have hnext := next_eq hr
        have hsize := char.utf8Size_pos
        have hplace : c.next.offset = c.offset + char.utf8Size := by rw [hnext]
        have hle := (reaches_skip n c.next).offset_le
        rw [skip_succ] at hall ⊢
        have hfirst : kept c.offset = true := hall c.offset (Nat.le_refl _) (by omega)
        have hrest := ih c.next fun offset hlow hhigh => hall offset (by omega) hhigh
        rw [hnext] at hrest ⊢
        rw [condensed, hr, condense_of_kept hfirst]
        exact congrArg (char :: ·) hrest

/-! ### The text between two places -/

/-- A text that is settled condenses apart from what comes after it. -/
theorem over_of_settled (h : Settled c d) :
    Over (fun text => Parted c.afterBlank text d.rest) c d := by
  obtain ⟨last, char, ⟨n, rfl⟩, hrest, rfl, hstill, hink, _⟩ := h
  have hlast : (c.skip n).next = c.skip (n + 1) := (skip_add n 1 c).symm
  have hone : c.rest.drop n = char :: (c.skip (n + 1)).rest := by rw [← rest_skip, hrest, hlast]
  have htake : c.rest.take (n + 1) = c.rest.take n ++ [char] := by
    rw [List.take_add, hone]
    rfl
  rw [hlast]
  refine over_skip ?_
  rw [htake]
  refine ⟨by simpa using hink, fun {before} hbefore hblank => ?_⟩
  obtain ⟨rfl, hchar⟩ := List.append_inj' hbefore rfl
  cases hchar
  refine still_skipBlanks (c := c.skip n) ?_ (by rw [hstill, hrest, hlast])
  rw [hstill, afterBlank_skip]
  exact hblank

theorem Settled.afterBlank_eq (h : Settled c d) : d.afterBlank = false := by
  obtain ⟨last, char, _, hrest, rfl, _, hink, _⟩ := h
  rw [next_eq hrest]
  exact isBlank_eq_false_of_isInk hink

/-- At the start of a token it makes no difference whether a blank comes before. -/
theorem condense_token {kept : Nat → Bool} (ht : Token c d) :
    c.skipBlanks.condensed kept = condense kept c.skipBlanks.offset false c.skipBlanks.rest := by
  obtain ⟨n, _, hinked, _⟩ := ht
  cases hr : c.skipBlanks.rest with
  | nil =>
    rw [hr, List.take_nil] at hinked
    exact absurd rfl hinked.ne_nil
  | cons char rest =>
    have hchar : isBlank char = false := by
      refine isBlank_eq_false_of_isInk ?_
      have hhead := hinked.1
      cases n with
      | zero => contradiction
      | succ n => simpa [hr] using hhead
    rw [condensed, hr, condense_of_still hchar fun ha hunder => still_skipBlanks ha (hunder ▸ hr),
      condense_of_still hchar fun h => by contradiction]

/-- The text over which a token leads, condensed for itself. -/
theorem Condenses.slice {source : String} (h : Condenses spans text c.skipBlanks d)
    (hc : Reaches (start source.toList) c) (ht : Token c d) :
    condense (isCovered spans) c.skipBlanks.offset false
      ((c.skipBlanks.spanTo d).slice source).toList = text := by
  have hwhole : _ = text ++ d.condensed (isCovered spans) := h.condensed fun _ _ _ => rfl
  rw [condense_token ht] at hwhole
  obtain ⟨_, _, _, hsettled⟩ := ht
  obtain ⟨inside, hrest, hd, hparted⟩ := over_of_settled hsettled
  have hslice : ((c.skipBlanks.spanTo d).slice source).toList = inside := by
    rw [hd, slice_spanTo_skip (hc.trans (reaches_skipBlanks c)), String.toList_ofList,
      hrest, List.take_left]
  have hplace : d.offset = c.skipBlanks.offset + byteLength inside := by
    rw [hd, offset_skip, hrest, List.take_left]
  rw [hrest, hparted.fresh.condense_append, hparted.endsBlank_eq, Cursor.condensed, hplace,
    hsettled.afterBlank_eq] at hwhole
  rw [hslice]
  exact List.append_cancel_right hwhole

end Cursor

end VisualBasic
