import VisualBasic.Proofs.Correspondence.Extension
import VisualBasic.Proofs.Lookahead.Statement
import VisualBasic.Proofs.Text.Condense

/-!
# Names of procedures

The name of a procedure is a word and the members that dots join to it, reserved or not. It is read
alike whatever ends it. A reference that starts where such a name does ends with it as well, if it
is met at all, unless a dot goes on after the arguments of the name. So a statement that starts with
the name of a procedure, with neither an equals sign nor a colon after it, is a call.
-/

set_option autoImplicit false

namespace VisualBasic

/-- A text that ends a name with its members before it. -/
structure EndsMembers (more : List Char) : Prop where
  noWord : NoWord more
  undotted : more.head? ≠ some '.'
  still : continuationWidth more = none

variable {more : List Char}

theorem Parted.skip {c : Cursor} (h : Parted c.afterBlank c.rest more) (n : Nat) :
    Parted (c.skip n).afterBlank (c.skip n).rest more := by
  have hwhole : Parted c.afterBlank (c.rest.take n ++ c.rest.drop n) more := by
    rwa [List.take_append_drop]
  rw [Cursor.rest_skip]
  exact hwhole.drop fun hflag => (Cursor.afterBlank_skip n c).symm.trans hflag

namespace Cursor

variable {c d : Cursor}

theorem skipBlanks_extend (h : Parted c.afterBlank c.rest more) (hne : c.rest ≠ []) :
    (c.extend more).skipBlanks = c.skipBlanks.extend more := by
  obtain ⟨hwidth, hlt⟩ := h.blankWidth_append hne
  rw [skipBlanks, skipBlanks, afterBlank_extend, rest_extend, hwidth,
    skip_extend (Nat.le_of_lt hlt)]

theorem isWordStart_head?_append (hmore : NoWord more) (text : List Char) :
    (text ++ more).head?.any isWordStart = text.head?.any isWordStart := by
  cases text with
  | cons => rfl
  | nil =>
    cases hhead : more.head?.any isWordStart with
    | false => exact hhead
    | true =>
      obtain ⟨char, hchar, hword⟩ := (Option.any_eq_true _ _).mp hhead
      rw [NoWord, hchar, Option.any_some, isWordChar_of_isWordStart hword] at hmore
      contradiction

/-- A word is read alike where the blanks before it are. -/
theorem word_extend (hblanks : (c.extend more).skipBlanks = c.skipBlanks.extend more)
    (hmore : NoWord more) : (c.extend more).word = c.word.map (extendFound more) := by
  have hstart := isWordStart_head?_append hmore c.skipBlanks.rest
  simp only [word, hblanks, rest_extend, hstart, takeWhile_append_of_any hmore,
    skip_extend (List.takeWhile_prefix isWordChar).length_le]
  split <;> rfl

theorem identifier_extend (hblanks : (c.extend more).skipBlanks = c.skipBlanks.extend more)
    (hmore : NoWord more) : (c.extend more).identifier = c.identifier.map (extendFound more) := by
  rw [identifier, identifier, word_extend hblanks hmore]
  cases c.word with
  | none => rfl
  | some found =>
    simp only [Option.map_some, Option.filter_some, extendFound]
    split <;> rfl

theorem adjacent_extend {char : Char} (hmore : more.head? ≠ some char) :
    (c.extend more).adjacent char = (c.adjacent char).map (extend more) := by
  unfold adjacent
  cases hrest : c.rest with
  | nil => simp [hrest, hmore]
  | cons first rest =>
    rw [rest_extend, hrest, List.cons_append, List.head?_cons, List.head?_cons,
      next_extend (by simp [hrest])]
    split <;> rfl

/-- A word that starts at once is not preceded by blanks, if none comes before the place. -/
theorem skipBlanks_eq_of_isWordStart (ha : c.afterBlank = false)
    (h : c.rest.head?.any isWordStart = true) : c.skipBlanks = c := by
  obtain ⟨char, hchar, hword⟩ := (Option.any_eq_true _ _).mp h
  obtain ⟨rest, hrest⟩ := List.head?_eq_some_iff.mp hchar
  have hink := isInk_of_isWordChar (isWordChar_of_isWordStart hword)
  rw [skipBlanks, hrest, blankWidth_cons_eq_zero (isBlank_eq_false_of_isInk hink), skip_zero]
  rw [ha]
  exact fun h => by contradiction

theorem member_extend (hmore : EndsMembers more) :
    (c.extend more).member = c.member.map (extendFound more) := by
  rw [member, member, adjacent_extend hmore.undotted]
  cases hdot : c.adjacent '.' with
  | none => rfl
  | some d =>
    obtain ⟨hhead, rfl⟩ := adjacent_eq_some_iff.mp hdot
    have ha : (c.skip 1).afterBlank = false := by
      obtain ⟨rest, hrest⟩ := List.head?_eq_some_iff.mp hhead
      rw [afterBlank_skip, hrest]
      rfl
    have hstart : ((c.skip 1).extend more).rest.head?.any isWordStart =
        (c.skip 1).rest.head?.any isWordStart := isWordStart_head?_append hmore.noWord _
    simp only [Option.map_some, Option.bind_some, hstart]
    split
    · rename_i hword
      refine word_extend ?_ hmore.noWord
      have hplace : ((c.skip 1).extend more).skipBlanks = (c.skip 1).extend more :=
        skipBlanks_eq_of_isWordStart ha (hstart.trans hword)
      rw [hplace, skipBlanks_eq_of_isWordStart ha hword]
    · rfl

theorem snd_of_identifier {word : String} {found : String × Cursor}
    (hword : c.word = some (word, d))
    (h : c.identifier = some found) : found.2 = d := by
  have hfound := ((identifier_eq_some_iff (d := found.2)).mp h).1
  rw [hword] at hfound
  exact (Prod.mk.inj (Option.some.inj hfound)).2.symm

/-- The place of the next token, past a dot that stands there. -/
def pastDot (c : Cursor) : Cursor := (c.skipBlanks.adjacent '.').getD c.skipBlanks

theorem reaches_pastDot (c : Cursor) : Reaches c c.pastDot := by
  unfold pastDot
  cases hdot : c.skipBlanks.adjacent '.' with
  | none => exact reaches_skipBlanks c
  | some d => exact (reaches_skipBlanks c).trans (reaches_of_adjacent hdot)

end Cursor

namespace Grammar

open Parse

variable {c d e : Cursor} {name word : String}

/-! ## The name of a procedure in a longer text -/

theorem procedureName_eq (c : Cursor) :
    procedureName c = c.pastDot.identifier.map fun found =>
      ((if (c.skipBlanks.adjacent '.').isSome then "." else "") ++ found.1 ++
        (memberNames found.2).1,
        (memberNames found.2).2) := by
  unfold procedureName Cursor.pastDot
  cases hname : ((c.skipBlanks.adjacent '.').getD c.skipBlanks).identifier <;> simp [hname]

theorem memberNames_extend (hmore : EndsMembers more) (c : Cursor) :
    memberNames (c.extend more) = ((memberNames c).1, (memberNames c).2.extend more) := by
  induction hn : c.rest.length using Nat.strongRecOn generalizing c with
  | _ n ih =>
    rw [memberNames_eq, memberNames_eq c, Cursor.member_extend hmore]
    cases hmember : c.member with
    | none => rfl
    | some found =>
      have hlt := (token_of_member hmember).length_lt
      have hlt' : (found.2.extend more).rest.length < (c.extend more).rest.length := by
        simpa using hlt
      have hrest := ih _ (hn ▸ hlt) found.2 rfl
      simp only [Option.map_some, Cursor.extendFound, if_pos hlt, if_pos hlt', hrest]

/-- The name of a procedure that takes a whole text ends where the text does. -/
theorem parted_of_procedureName (h : procedureName c = some (name, e)) (hend : e.rest = [])
    (hmore : EndsMembers more) : Parted c.afterBlank c.rest more ∧ c.pastDot.rest ≠ [] := by
  constructor
  · obtain ⟨_, _, _, hsettled⟩ := token_of_procedureName h
    obtain ⟨text, hrest, _, hparted⟩ :=
      Cursor.over_of_settled (hsettled.after_reaches (Cursor.reaches_skipBlanks c))
    rw [hend, List.append_nil] at hrest
    rw [hrest]
    exact ⟨hparted.ink, fun _ _ => hmore.still⟩
  · intro hnil
    rw [procedureName_eq] at h
    obtain ⟨found, hfound, _⟩ := Option.map_eq_some_iff.mp h
    have hlt := (Cursor.token_of_identifier hfound).length_lt
    simp [hnil] at hlt

theorem skipBlanks_extend_of_procedureName (h : procedureName c = some (name, e))
    (hend : e.rest = [])
    (hmore : EndsMembers more) : (c.extend more).skipBlanks = c.skipBlanks.extend more := by
  obtain ⟨hparted, hne⟩ := parted_of_procedureName h hend hmore
  refine Cursor.skipBlanks_extend hparted fun hnil => hne ?_
  rw [Cursor.eq_of_reaches_of_rest_eq_nil hnil c.reaches_pastDot, hnil]

/-- The name of a procedure that takes a whole text is read alike before what ends it. -/
theorem procedureName_extend (h : procedureName c = some (name, e)) (hend : e.rest = [])
    (hmore : EndsMembers more) : procedureName (c.extend more) = some (name, e.extend more) := by
  obtain ⟨hparted, hne⟩ := parted_of_procedureName h hend hmore
  have hstart := skipBlanks_extend_of_procedureName h hend hmore
  have hdot : (c.skipBlanks.extend more).adjacent '.' =
      (c.skipBlanks.adjacent '.').map (Cursor.extend more) := Cursor.adjacent_extend hmore.undotted
  have hpast : (c.extend more).pastDot = c.pastDot.extend more := by
    rw [Cursor.pastDot, Cursor.pastDot, hstart, hdot]
    cases c.skipBlanks.adjacent '.' <;> rfl
  have hblanks : (c.pastDot.extend more).skipBlanks = c.pastDot.skipBlanks.extend more := by
    obtain ⟨n, hn⟩ := c.reaches_pastDot
    rw [hn] at hne ⊢
    exact Cursor.skipBlanks_extend (hparted.skip n) hne
  rw [procedureName_eq] at h
  obtain ⟨⟨first, d⟩, hfirst, h⟩ := Option.map_eq_some_iff.mp h
  have hname : (c.extend more).pastDot.identifier = some (first, d.extend more) := by
    rw [hpast, Cursor.identifier_extend hblanks hmore.noWord, hfirst]
    rfl
  cases h
  rw [procedureName_eq, hname, hstart, hdot, Option.isSome_map, Option.map_some,
    memberNames_extend hmore]

theorem peekKeyword_extend_of_procedureName (h : procedureName c = some (name, e))
    (hend : e.rest = [])
    (hmore : EndsMembers more) : (c.extend more).peekKeyword = c.peekKeyword := by
  have hword := Cursor.word_extend (skipBlanks_extend_of_procedureName h hend hmore) hmore.noWord
  rw [Cursor.peekKeyword, Cursor.peekKeyword, Cursor.peekWord, Cursor.peekWord,
    hword, Option.map_map]
  rfl

/-! ## References over the name of a procedure -/

/-- No dot goes on after the arguments at a place, if there are any. -/
def Unqualified (e : Cursor) : Prop :=
  ∀ f values g, e.symbol '(' = some f → arguments expression f = .ok (values, g) →
  g.adjacent '.' = none

theorem unqualified_of_symbol (h : e.symbol '(' = none) : Unqualified e := by
  intro f values g hopen
  rw [h] at hopen
  contradiction

theorem symbol_eq_none_of_adjacent {char other : Char} (h : c.adjacent char = some d)
    (hink : isInk char = true) (hunder : char ≠ '_') (hne : char ≠ other) :
    c.symbol other = none := by
  obtain ⟨hhead, _⟩ := Cursor.adjacent_eq_some_iff.mp h
  obtain ⟨rest, hrest⟩ := List.head?_eq_some_iff.mp hhead
  rw [Cursor.symbol, Cursor.skipBlanks_eq_self hrest (isBlank_eq_false_of_isInk hink)
    fun hc => absurd hc hunder, Cursor.adjacent, hhead, if_neg (by simpa using hne)]

/-- The last word of a name is no segment, unless a dot comes after it or after its arguments. -/
theorem segment_eq_none_of_word (hword : c.word = some (word, e)) (hdot : e.adjacent '.' = none)
    (hopen : Unqualified e) : segment expression c = none := by
  rw [Option.eq_none_iff_forall_ne_some]
  intro found h
  simp only [segment, Option.bind_eq_bind, Option.bind_eq_some_iff, Option.or_eq_some_iff,
    Option.map_eq_some_iff] at h
  obtain ⟨_, ⟨met, hcall, rfl⟩ | ⟨_, other, hother, rfl⟩, after, hafter, _⟩ := h
  · simp only [call, Option.bind_eq_bind, Option.bind_eq_some_iff,
      Cursor.identifier_skipBlanks] at hcall
    obtain ⟨other, hother, f, hf, ⟨values, g⟩, harguments, hcall⟩ := hcall
    cases hcall
    rw [Cursor.snd_of_identifier hword hother] at hf
    rw [hopen f values g hf (eq_ok_of_toOption harguments)] at hafter
    contradiction
  · rw [Cursor.snd_of_identifier hword hother, hdot] at hafter
    contradiction

/-- Segments over a name with its members leave its last word, and nothing where a word is
reserved. -/
theorem segments_of_word (hword : c.word = some (word, d)) (hend : (memberNames d).2 = e)
    (hdot : e.adjacent '.' = none) (hopen : Unqualified e) :
    ∀ found, (segments expression c).2.identifier = some found → found.2 = e := by
  induction hn : c.rest.length using Nat.strongRecOn generalizing c word d with
  | _ n ih =>
    have hname : ∀ found, c.identifier = some found → found.2 = d := fun _ =>
      Cursor.snd_of_identifier hword
    rw [memberNames_eq] at hend
    cases hmember : d.member with
    | none =>
      obtain rfl : d = e := by simpa [hmember] using hend
      rw [segments_nil (segment_eq_none_of_word hword hdot hopen)]
      exact hname
    | some next =>
      obtain ⟨after, hafter, hnext⟩ := Option.bind_eq_some_iff.mp hmember
      have hlt := (token_of_member hmember).length_lt
      simp only [hmember, if_pos hlt] at hend
      have hnext : after.word = some next := by
        split at hnext
        · exact hnext
        · contradiction
      have hshut : d.symbol '(' = none :=
        symbol_eq_none_of_adjacent hafter (by decide) (by decide) (by decide)
      have hcall : call expression c = none := by
        cases hfirst : c.identifier with
        | none => simp [call, hfirst]
        | some found => simp [call, hfirst, hname _ hfirst, hshut]
      cases hfirst : c.identifier with
      | none =>
        have hsegment : segment expression c = none := by simp [segment, hcall, hfirst]
        rw [segments_nil hsegment, hfirst]
        exact fun found h => by contradiction
      | some found =>
        have hsegment : segment expression c = some (.name found.1, after) := by
          simp [segment, hcall, hfirst, hname _ hfirst, hafter]
        have hless : after.rest.length < c.rest.length :=
          (segment_lays expression_lays hsegment).1.length_lt
        rw [segments, hsegment]
        simp only [if_pos hless]
        exact ih _ (hn ▸ hless) hnext hend rfl

theorem segments_snd_of_nil (h : (segments expression c).1 = []) :
    (segments expression c).2 = c := by
  cases hsegment : segment expression c with
  | none => rw [segments_nil hsegment]
  | some found =>
    rw [segments, hsegment] at h
    dsimp only at h
    split at h <;> contradiction

/-- A reference that starts with a name and its members ends with them, if there is one. -/
theorem reference_of_word {target : Reference} {f : Cursor}
    (hword : c.pastDot.word = some (word, d))
    (hend : (memberNames d).2 = e) (hdot : e.adjacent '.' = none) (hopen : Unqualified e)
    (h : reference expression c = some (target, f)) : f = e := by
  have hsegments := segments_of_word hword hend hdot hopen
  simp only [reference, Option.bind_eq_bind, Option.bind_eq_some_iff] at h
  obtain ⟨⟨name, after⟩, hname, h⟩ := h
  cases h
  refine hsegments (name, after) ?_
  rw [Cursor.pastDot]
  simp only [qualifier, Cursor.skipBlanks_skipBlanks] at hname
  split at hname
  · rename_i hempty
    simp only [Bool.and_eq_true, Option.isNone_iff_eq_none, List.isEmpty_iff] at hempty
    rwa [segments_snd_of_nil hempty.2, hempty.1]
  · exact hname

theorem literal_of_word {v : Literal} {f : Cursor} (hc : c.skipBlanks = c)
    (hword : c.word = some (word, d)) (h : literal c = some (v, f)) : f = d := by
  have hstart : c.rest.head?.any isWordStart = true := by
    simp only [Cursor.word, hc] at hword
    split at hword
    · assumption
    · contradiction
  obtain ⟨char, hhead, hchar⟩ := (Option.any_eq_true _ _).mp hstart
  obtain ⟨rest, hrest⟩ := List.head?_eq_some_iff.mp hhead
  have hnumber : c.number = none := by
    rw [Cursor.number, hc, hrest, readNumber_eq_none (isNumberStart_eq_false_of_isWordStart hchar)
      fun hpoint => absurd hpoint (ne_of_isWordStart hchar rfl), Option.bind_none]
  have hquoted : c.quoted = none := by
    have hquote : char ≠ '"' := ne_of_isWordStart hchar rfl
    exact Cursor.quoted_eq_none hc (by simpa [hhead] using hquote)
  have hkeyword {k : Keyword} {value : Literal} {g : Cursor}
      (h : (c.keyword k).map (value, ·) = some (v, g)) : g = d := by
    obtain ⟨after, hafter, hpair⟩ := Option.map_eq_some_iff.mp h
    cases hpair
    have hlead := Cursor.keyword_eq_some_iff.mp hafter
    rw [Cursor.lead, hword, Option.bind_some] at hlead
    obtain ⟨_, _, hpair⟩ := Option.map_eq_some_iff.mp hlead
    exact (Prod.mk.inj hpair).2.symm
  simp only [literal, hnumber, hquoted, Option.map_none, Option.none_or, Option.or_eq_some_iff] at h
  rcases h with (h | ⟨_, h⟩) | ⟨_, h⟩ <;> exact hkeyword h

/-- An expression that starts with a word ends with it, if it is met at all, unless a dot or a
parenthesis comes next. -/
theorem expression_of_word {v : Expression} {f : Cursor} (hword : c.word = some (word, d))
    (hdot : d.adjacent '.' = none) (hopen : d.symbol '(' = none)
    (h : expression c = some (v, f)) : f = d := by
  have hplace : c.skipBlanks.pastDot = c.skipBlanks := by
    rw [Cursor.pastDot, Cursor.skipBlanks_skipBlanks, Cursor.adjacent_eq_none_of_word hword rfl,
      Option.getD_none]
  have hmember : (memberNames d).2 = d := by
    rw [memberNames_eq, Cursor.member, hdot]
    rfl
  rw [← Cursor.word_skipBlanks] at hword
  rw [expression_eq, expressionWith] at h
  simp only [Option.or_eq_some_iff, Option.map_eq_some_iff] at h
  rcases h with (⟨found, hliteral, h⟩ | ⟨_, found, hcall, h⟩) | ⟨_, found, hreference, h⟩
  · cases h
    exact literal_of_word c.skipBlanks_skipBlanks hword hliteral
  · simp only [call, Option.bind_eq_bind, Option.bind_eq_some_iff,
      Cursor.skipBlanks_skipBlanks] at hcall
    obtain ⟨other, hother, g, hg, _⟩ := hcall
    rw [Cursor.snd_of_identifier hword hother, hopen] at hg
    contradiction
  · cases h
    rw [← hplace] at hword
    exact reference_of_word hword hmember hdot (unqualified_of_symbol hopen) hreference

/-! ## Statements that are calls -/

theorem adjacent_eq_none_of_memberNames {char : Char} (hchar : char ≠ '.')
    (h : (memberNames d).2.adjacent char = none) : d.adjacent char = none := by
  rw [memberNames_eq] at h
  cases hmember : d.member with
  | none => simpa [hmember] using h
  | some found =>
    obtain ⟨after, hdot, _⟩ := Option.bind_eq_some_iff.mp hmember
    rw [Cursor.adjacent, (Cursor.adjacent_eq_some_iff.mp hdot).1,
      if_neg (by simpa using hchar.symm)]

/-- A name with its members, and no reserved word at its start. -/
theorem pastDot_of_procedureName (h : procedureName c = some (name, e)) :
    ∃ word d, c.pastDot.identifier = some (word, d) ∧ (memberNames d).2 = e := by
  rw [procedureName_eq] at h
  obtain ⟨⟨word, d⟩, hword, h⟩ := Option.map_eq_some_iff.mp h
  cases h
  exact ⟨word, d, hword, rfl⟩

theorem assignment_eq_unmatched_of_name {inside : List Construct}
    (h : procedureName c = some (name, e))
    (hset : c.peekKeyword ≠ some .Set) (hlet : c.peekKeyword ≠ some .Let)
    (hdot : e.adjacent '.' = none)
    (hequals : e.symbol '=' = none) (hopen : Unqualified e) :
    assignment inside c = .unmatched := by
  obtain ⟨word, d, hword, hend⟩ := pastDot_of_procedureName h
  have hword := (Cursor.identifier_eq_some_iff.mp hword).1
  refine sentence_eq_unmatched ?_
  rw [bind_apply, opt_oneOf_eq_none (by simp [hset, hlet])]
  cases htarget : reference expression c with
  | none =>
    exact bind_eq_unmatched (read_eq_unmatched (by rw [reference_skipBlanks, htarget])) _
  | some found =>
    obtain ⟨target, f⟩ := found
    obtain rfl := reference_of_word hword hend hdot hopen htarget
    have hread : anyReference (.assignment :: inside) c.skipBlanks = .matched target f :=
      read_eq_matched (by rw [reference_skipBlanks, htarget])
    simp only [Option.isSome_none, Bool.false_eq_true, if_false, bind_apply, hread, symbol,
      Parse.pass, hequals]

theorem label_eq_unmatched_of_name {inside : List Construct} (h : procedureName c = some (name, e))
    (hcolon : e.adjacent ':' = none) : label inside c = .unmatched := by
  cases hname : c.identifier with
  | none => exact label_eq_unmatched hname
  | some found =>
    obtain ⟨word, d⟩ := found
    have hplace : c.pastDot = c.skipBlanks := by
      rw [Cursor.pastDot,
        Cursor.adjacent_eq_none_of_word (Cursor.identifier_eq_some_iff.mp hname).1 rfl,
        Option.getD_none]
    obtain ⟨_, _, hword, rfl⟩ := pastDot_of_procedureName h
    rw [hplace, Cursor.identifier_skipBlanks, hname] at hword
    cases hword
    have hread : identifier (.label :: inside) c.skipBlanks = .matched word d :=
      read_eq_matched (by rw [Cursor.identifier_skipBlanks, hname])
    have hafter := adjacent_eq_none_of_memberNames (by decide) hcolon
    simp only [label, within, spanned, mark, bind_apply, hread, adjacent, Parse.pass, hafter]

/-- The name of a procedure starts with a dot or a word. -/
theorem head_of_procedureName (h : procedureName c = some (name, e)) :
    ∃ char rest, c.skipBlanks.rest = char :: rest ∧ (char = '.' ∨ isWordStart char = true) := by
  obtain ⟨word, d, hword, _⟩ := pastDot_of_procedureName h
  cases hdot : c.skipBlanks.adjacent '.' with
  | some after =>
    obtain ⟨rest, hrest⟩ := List.head?_eq_some_iff.mp (Cursor.adjacent_eq_some_iff.mp hdot).1
    exact ⟨'.', rest, hrest, .inl rfl⟩
  | none =>
    rw [Cursor.pastDot, hdot, Option.getD_none, Cursor.identifier_skipBlanks] at hword
    have hstart := AtName.isWordStart_head? ⟨_, hword⟩
    obtain ⟨char, hchar, hstart⟩ := (Option.any_eq_true _ _).mp hstart
    obtain ⟨rest, hrest⟩ := List.head?_eq_some_iff.mp hchar
    exact ⟨char, rest, hrest, .inr hstart⟩

/-- A statement that starts with the name of a procedure is a call, unless an equals sign or a colon
comes after the name, or a dot after its arguments. -/
theorem statement_eq_implicitCall {inside : List Construct} (h : procedureName c = some (name, e))
    (hkeyword : c.peekKeyword = none) (hdot : e.adjacent '.' = none)
    (hcolon : e.adjacent ':' = none)
    (hequals : e.symbol '=' = none) (hopen : Unqualified e) :
    statement inside c = implicitCall inside c := by
  obtain ⟨char, rest, hrest, hchar⟩ := head_of_procedureName h
  have hne {other : Char} (hdot : '.' ≠ other) (hword : isWordStart other = false) :
      char ≠ other := by
    rcases hchar with rfl | hchar
    · exact hdot
    · exact ne_of_isWordStart hchar hword
  have hcomment : c.commentMark = none := by
    have hmark : c.skipBlanks.adjacent '\x27' = none := by
      rw [Cursor.adjacent, hrest, List.head?_cons, if_neg (by simpa using hne (by decide) rfl)]
    have hword : c.skipBlanks.keyword .Rem = none := by
      rw [Cursor.keyword_eq_none_iff, Cursor.peekKeyword_skipBlanks, hkeyword]
      simp
    rw [Cursor.commentMark, hmark, hword, Option.none_or]
  have hline : c.blankLine = none := by
    rw [← Option.not_isSome_iff_eq_none]
    intro hline
    obtain ⟨_, _, hbreak, htrue⟩ := Cursor.exists_isBreak_of_blankLine hline
    rw [hrest] at hbreak
    cases hbreak
    simp only [isBreak, Bool.or_eq_true, decide_eq_true_eq] at htrue
    rcases htrue with rfl | rfl
    · exact hne (by decide) rfl rfl
    · exact hne (by decide) rfl rfl
  have hcode : codeStatement (many statement) c.peekKeyword =
      firstOf [assignment, label, implicitCall] :=
    codeStatement_eq_firstOf _ (by rw [hkeyword]; rfl)
  have hassignment : assignment inside c = .unmatched :=
    assignment_eq_unmatched_of_name h (by simp [hkeyword]) (by simp [hkeyword]) hdot hequals hopen
  rw [statement_eq_codeStatement hcomment hline, hcode]
  change assignment.orElse (label.orElse (firstOf [implicitCall])) inside c = _
  rw [orElse_of_unmatched hassignment, orElse_of_unmatched (label_eq_unmatched_of_name h hcolon),
    firstOf_singleton]

end Grammar

end VisualBasic
