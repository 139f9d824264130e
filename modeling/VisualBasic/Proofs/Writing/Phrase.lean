import VisualBasic.Proofs.Writing.Expression

/-!
# Writing the parts of sentences

Sentences are put together from words, lists with commas and names with dots. How a sentence begins
tells its kind, and how the text after a part begins tells that the part is over.
-/

set_option autoImplicit false

namespace VisualBasic

variable {wide : Bool} {text token rest : List Char}

/-! ## Beginnings -/

/-- A text that begins with a given keyword, or with a name or a dot. -/
structure Begins (text : List Char) (word : Option Keyword) : Prop where
  solid : Solid text
  spells : ∀ k, spells k text = decide (word = some k)
  start : ∃ c tail, text = c :: tail ∧ (isWordStart c || c = '.') = true

theorem Refers.begins (h : Refers text) : Begins text none :=
  ⟨h.solid, fun k => by rw [h.spells]; rfl, h.start⟩

theorem Keyword.begins_write (k : Keyword) (hr : NoWord rest) : Begins (k.write rest) (some k) := by
  obtain ⟨c, tail, hw, hc⟩ := k.isAlpha_head rest
  refine ⟨k.solid_write rest, fun other => ?_, c, tail, hw, by simp [isWordStart, hc]⟩
  rw [Keyword.spells_write other k hr]
  simp [eq_comm]

theorem IsNameText.begins_append {name : List Char} (h : IsNameText name) (hr : NoWord rest) :
    Begins (name ++ rest) none := (refers_name h hr).begins

/-- The beginning of a line of code. -/
def BeginsCode (text : List Char) : Prop := ∃ word, Begins text word ∧ word ≠ some .Rem

namespace Begins

variable {word : Option Keyword}

theorem spells_eq_false (h : Begins text word) {k : Keyword} (hk : word ≠ some k) :
    VisualBasic.spells k text = false := by
  rw [h.spells, decide_eq_false hk]

theorem unmarked (h : Begins text word) : text.head? ≠ some '\x27' := by
  obtain ⟨c, tail, rfl, hc⟩ := h.start
  rintro hm
  obtain rfl := Option.some.inj hm
  contradiction

theorem find?_all (word : Option Keyword) :
    (Keyword.all.find? fun k => decide (word = some k)) = word := by
  cases word with
  | none => rfl
  | some k => cases k <;> rfl

/-- The keyword that a text begins with is the one that comes next. -/
theorem peekKeyword (h : Begins text word) {c : Cursor} (hc : c.rest = text) :
    c.peekKeyword = word := by
  have htoken := Cursor.rest_skipBlanks h.solid.here hc
  obtain ⟨char, tail, htext, hstart⟩ := h.start
  by_cases hword : isWordStart char = true
  · have hlookup : Keyword.lookup (String.ofList (text.takeWhile isWordChar)) = word := by
      simp only [Keyword.lookup, String.toList_ofList]
      have hspells := h.spells
      simp only [VisualBasic.spells, firstWord] at hspells
      simp only [hspells, find?_all]
    have hhead : text.head?.any isWordStart = true := by
      rw [htext]
      exact hword
    simp only [Cursor.peekKeyword, Cursor.peekWord, Cursor.word, htoken, hhead, if_true,
      Option.map_some, Option.bind_some, hlookup]
  · have hdot : char = '.' := by simpa [hword] using hstart
    subst hdot
    have hnone : word = none := by
      cases word with
      | none => rfl
      | some k =>
        have hk := h.spells k
        rw [htext, spells_cons_eq_false k tail rfl] at hk
        simp at hk
    have hhead : text.head?.any isWordStart = false := by
      rw [htext]
      rfl
    simp [Cursor.peekKeyword, Cursor.peekWord, Cursor.word, htoken, hhead, hnone]

open Parse

/-- Code is no comment. -/
theorem misses_comment (h : Begins text word) (hw : word ≠ some .Rem) :
    Misses Grammar.comment text := by
  intro c hc
  have hmark := stays_commentMark h.solid.here h.unmarked (h.spells_eq_false hw)
  simp [Grammar.comment, Cursor.comment, hmark _ (Cursor.rest_skipBlanks h.solid.here hc)]

/-- Code stands on no empty line. -/
theorem misses_emptyLine (h : Begins text word) : Misses Grammar.emptyLine text := by
  intro c hc
  obtain ⟨char, tail, rfl, hstart⟩ := h.start
  have hink : isInk char = true := by
    rw [Bool.or_eq_true] at hstart
    rcases hstart with hs | hd
    · exact isInk_of_isWordChar (isWordChar_of_isWordStart hs)
    · rw [of_decide_eq_true hd]
      rfl
  have hblank := isBlank_eq_false_of_isInk hink
  have hbreak := isBreak_eq_false_of_isInk hink
  rw [isBreak, Bool.or_eq_false_iff, decide_eq_false_iff_not, decide_eq_false_iff_not] at hbreak
  have hwidth : breakWidth (char :: tail) = 0 := by
    unfold breakWidth
    split <;> simp_all
  simp [Grammar.emptyLine, Cursor.blankLine, hc, hblank, Cursor.lineBreak, hwidth]

end Begins

/-! ## Words that may be left out -/

/-- A word and a blank, where there is one. -/
def writeWord : Option Keyword → List Char → List Char
  | none, rest => rest
  | some k, rest => k.write (' ' :: rest)

theorem Begins.writeWord {next : Option Keyword} (h : Begins token next) (word : Option Keyword) :
    Begins (writeWord word token) (word.or next) := by
  cases word with
  | none => exact h
  | some k => exact k.begins_write rfl

namespace Parse

variable {α : Type}

/-- A word of a table, or no word before a text that begins with none of the table. -/
theorem accepts_optOneOf {table : List (Keyword × α)} {word : Option Keyword}
    (hl : Leads text (writeWord word token)) (ht : Solid token)
    (hs : ∀ entry ∈ table, spells entry.1 token = false)
    (hw : ∀ k, word = some k → (table.lookup k).isSome) :
    ∃ middle, Leads middle token ∧
      Accepts (opt (oneOf table)) text middle fun found =>
        found = word.bind (List.lookup · table) := by
  cases word with
  | none => exact ⟨text, hl, (refuses_oneOf hl hs).opt⟩
  | some k =>
    obtain ⟨value, hvalue⟩ := Option.isSome_iff_exists.mp (hw k rfl)
    refine ⟨' ' :: token, ht.space, (accepts_oneOf hvalue hl rfl).opt.weaken ?_⟩
    rintro _ ⟨found, rfl, rfl⟩
    exact hvalue.symm

/-- A keyword that may be left out. -/
theorem accepts_flag {isWritten : Bool} {k : Keyword}
    (hl : Leads text (writeWord (if isWritten then some k else none) token)) (ht : Solid token)
    (hs : spells k token = false) :
    ∃ middle, Leads middle token ∧
      Accepts (flag (keyword k)) text middle fun found => found = isWritten := by
  cases isWritten with
  | false => exact ⟨text, hl, (refuses_keyword hl hs).flag⟩
  | true => exact ⟨' ' :: token, ht.space, (accepts_keyword hl rfl).flag⟩

end Parse

/-! ## Endings -/

/-- A text that neither goes on with the part before it nor begins with a word. -/
structure Halts (text : List Char) : Prop extends Delimits text where
  wordless : ∃ c tail, Leads text (c :: tail) ∧ c.isAlpha = false

namespace Halts

open Parse

theorem noWord (h : Halts text) : NoWord text := h.edge.noWord

theorem stays_keyword (h : Halts text) (k : Keyword) : Stays (Cursor.keyword k) text := by
  obtain ⟨c, tail, hl, hc⟩ := h.wordless
  exact Parse.stays_keyword hl (spells_cons_eq_false k tail hc)

end Halts

theorem halts_newline (rest : List Char) : Halts ('\n' :: rest) :=
  ⟨delimits_newline rest, _, _, (Parse.solid_newline rest).here, rfl⟩

theorem halts_comma (wide : Bool) (rest : List Char) : Halts (pad wide (',' :: rest)) :=
  ⟨delimits_comma wide rest, _, _, (solid_comma rest).pad wide, rfl⟩

theorem halts_close (wide : Bool) (rest : List Char) : Halts (pad wide (')' :: rest)) :=
  ⟨delimits_close wide rest, _, _, (solid_close rest).pad wide, rfl⟩

theorem solid_equals (rest : List Char) : Solid ('=' :: rest) := solid_cons rest rfl (by decide)

theorem halts_equals (rest : List Char) : Halts (' ' :: '=' :: rest) :=
  ⟨delimits_space (solid_equals rest) (by simp), _, _, (solid_equals rest).space, rfl⟩

/-- A keyword after a blank. -/
theorem delimits_keyword (k : Keyword) (rest : List Char) : Delimits (' ' :: k.write rest) := by
  obtain ⟨c, tail, hw, hc⟩ := k.isAlpha_head rest
  refine delimits_space (k.solid_write rest) ?_
  rw [hw]
  rintro h
  obtain rfl := Option.some.inj h
  contradiction

/-! ## Names with dots -/

/-- The names between the dots of a name. -/
def dottedNames (name : String) : List (List Char) := name.toList.splitOn '.'

def writeMembers (members : List (List Char)) (rest : List Char) : List Char :=
  members.foldr (fun member rest => '.' :: (member ++ rest)) rest

theorem writeMembers_append (members : List (List Char)) (rest : List Char) :
    writeMembers members [] ++ rest = writeMembers members rest := by
  induction members with
  | nil => rfl
  | cons member members ih =>
    simp only [writeMembers, List.foldr_cons, List.cons_append, List.append_assoc] at ih ⊢
    rw [ih]

theorem intercalate_cons (first : List Char) (members : List (List Char)) :
    ['.'].intercalate (first :: members) = first ++ writeMembers members [] := by
  induction members generalizing first with
  | nil => simp [writeMembers]
  | cons member members ih =>
    have hcons : ['.'].intercalate (first :: member :: members) =
        first ++ '.' :: ['.'].intercalate (member :: members) := by
      simp
    rw [hcons, ih]
    rfl

theorem toList_of_dottedNames {name : String} {first : List Char} {members : List (List Char)}
    (h : dottedNames name = first :: members) : name.toList = first ++ writeMembers members [] := by
  rw [← intercalate_cons, ← h]
  exact (List.intercalate_splitOn '.').symm

/-- A name with dots before more text. -/
theorem append_of_dottedNames {name : String} {first : List Char} {members : List (List Char)}
    (h : dottedNames name = first :: members) (rest : List Char) :
    name.toList ++ rest = first ++ writeMembers members rest := by
  rw [toList_of_dottedNames h, List.append_assoc, writeMembers_append]

theorem noWord_writeMembers (members : List (List Char)) (hr : NoWord rest) :
    NoWord (writeMembers members rest) := by
  cases members with
  | nil => exact hr
  | cons member members => rfl

theorem noWord_newline (rest : List Char) : NoWord ('\n' :: rest) := rfl

theorem noWord_space (rest : List Char) : NoWord (' ' :: rest) := rfl

/-! ## Lists -/

section Lists

variable {α γ : Type} {write : α → List Char → List Char}

/-- Each part after a comma. -/
def writeTail (wide : Bool) (write : α → List Char → List Char) (values : List α)
    (rest : List Char) : List Char :=
  values.foldr (fun value rest => pad wide (',' :: ' ' :: write value rest)) rest

/-- Parts with commas between them. -/
def writeSeparated (wide : Bool) (write : α → List Char → List Char) :
    List α → List Char → List Char
  | [], rest => rest
  | value :: values, rest => write value (writeTail wide write values rest)

/-- What comes before a comma comes before more parts. -/
theorem before_writeTail {Before : List Char → Prop} (write : α → List Char → List Char)
    (hcomma : ∀ tail, Before (pad wide (',' :: tail))) (values : List α) (hr : Before rest) :
    Before (writeTail wide write values rest) := by
  cases values with
  | nil => exact hr
  | cons value values => exact hcomma _

/-- Parts in parentheses. -/
def writeParentheses (wide : Bool) (write : α → List Char → List Char) (values : List α)
    (rest : List Char) : List Char :=
  '(' :: pad wide (if values.isEmpty then ')' :: rest
    else writeSeparated wide write values (pad wide (')' :: rest)))

namespace Parse

variable {first next : Parse α} {Before : List Char → Prop} (view : α → γ)

theorem accepts_tail (hcomma : ∀ tail, Before (pad wide (',' :: tail))) (values : List α)
    (hsolid : ∀ value ∈ values, ∀ tail, Before tail → Solid (write value tail))
    (hnext : ∀ value ∈ values, ∀ {text tail}, Leads text (write value tail) → Before tail →
      Accepts next text tail fun found => view found = view value)
    (hconsumes : Consumes (symbol ',' *> next)) (hr : Before rest)
    (hstop : Stays (Cursor.symbol ',') rest) :
    Accepts (many (symbol ',' *> next)) (writeTail wide write values rest) rest fun found =>
      found.map view = values.map view := by
  refine accepts_many view hconsumes (fun value _ tail _ => hcomma _) ?_ hr
    ((refuses_pass hstop).seqRight next)
  intro value hv tail ht
  have hcomma := accepts_symbol ((solid_comma (' ' :: write value tail)).pad wide)
  exact hcomma.seqRight (hnext value hv (hsolid value hv tail ht).space ht)

/-- A list of parts, each read back before a comma as before the end of the list. -/
theorem accepts_separated (hcomma : ∀ tail, Before (pad wide (',' :: tail))) {value : α}
    {values : List α} (hl : Leads text (write value (writeTail wide write values rest)))
    (hfirst : ∀ {text tail}, Leads text (write value tail) → Before tail →
      Accepts first text tail fun found => view found = view value)
    (hsolid : ∀ value ∈ values, ∀ tail, Before tail → Solid (write value tail))
    (hnext : ∀ value ∈ values, ∀ {text tail}, Leads text (write value tail) → Before tail →
      Accepts next text tail fun found => view found = view value)
    (hconsumes : Consumes (symbol ',' *> next)) (hr : Before rest)
    (hstop : Stays (Cursor.symbol ',') rest) :
    Accepts (separated first next) text rest fun found =>
      found.map view = (value :: values).map view := by
  refine (hfirst hl (before_writeTail write hcomma values hr)).andThen fun head hhead => ?_
  have htail := accepts_tail view hcomma values hsolid hnext hconsumes hr hstop
  refine htail.andThen fun tail hvalues => ?_
  exact accepts_pure (by rw [List.map_cons, List.map_cons, hhead, hvalues])

end Parse

end Lists

/-! ## Lines -/

/-- The words that close a block, and the end of their line. -/
def writeEnd (k : Keyword) (rest : List Char) : List Char :=
  Keyword.End.write (' ' :: k.write ('\n' :: rest))

theorem begins_writeEnd (k : Keyword) (rest : List Char) : Begins (writeEnd k rest) (some .End) :=
  Keyword.End.begins_write rfl

namespace Grammar

open Parse

theorem accepts_requireEnd (k : Keyword) (rest : List Char) :
    Accepts (requireEnd k) (writeEnd k rest) ('\n' :: rest) fun _ => True := by
  have hend := begins_writeEnd k rest
  refine ((accepts_keyword hend.solid.here rfl).require _).skip ?_
  exact accepts_requireKeyword (k.solid_write ('\n' :: rest)).space rfl

/-- Before code there are no lines without code. -/
theorem accepts_skipTrivia (h : BeginsCode text) :
    Accepts skipTrivia text text fun _ => True := by
  obtain ⟨word, h, hw⟩ := h
  have hcomment := (refuses_read (h.misses_comment hw)).seqRight (pure ())
  have hempty := (refuses_read h.misses_emptyLine).seqRight (pure ())
  exact (hcomment.both hempty).many.andThen fun _ _ => accepts_pure trivial

end Grammar

end VisualBasic
