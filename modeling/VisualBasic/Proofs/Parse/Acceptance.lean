import VisualBasic.Parse.Lawful
import VisualBasic.Parse.Token
import VisualBasic.Proofs.Text.Lead

/-!
# What parsers accept

A parser accepts a text when it matches wherever the text stands, and refuses one when it matches
nowhere that it stands. What comes before a text does not matter. Each combinator has rules for
both, so that what a construct accepts is told from what its parts accept and refuse.
-/

set_option autoImplicit false

namespace VisualBasic

namespace Parse

variable {α β : Type} {p q : Parse α} {f : α → Parse β} {V : α → Prop} {U : β → Prop}
  {text middle rest token : List Char}

/-- Where the text stands the parser matches with a value as described, and ends where the rest of
the text stands. -/
def Accepts (p : Parse α) (text rest : List Char) (V : α → Prop) : Prop :=
  ∀ inside c, c.rest = text →
    ∃ value after, p inside c = .matched value after ∧ after.rest = rest ∧ V value

def Refuses (p : Parse α) (text : List Char) : Prop :=
  ∀ inside c, c.rest = text → p inside c = .unmatched

def Takes (reader : Reader α) (text rest : List Char) (V : α → Prop) : Prop :=
  ∀ c, c.rest = text →
    ∃ value after, reader c = some (value, after) ∧ after.rest = rest ∧ V value

def Misses (reader : Reader α) (text : List Char) : Prop := ∀ c, c.rest = text → reader c = none

/-- Tokens without a value. -/
def Passes (token : Cursor → Option Cursor) (text rest : List Char) : Prop :=
  ∀ c, c.rest = text → ∃ after, token c = some after ∧ after.rest = rest

def Stays (token : Cursor → Option Cursor) (text : List Char) : Prop :=
  ∀ c, c.rest = text → token c = none

/-! ## Sequences -/

theorem accepts_pure {value : α} (h : V value) : Accepts (pure value) text text V :=
  fun _ c hc => ⟨value, c, rfl, hc, h⟩

theorem Accepts.andThen (hp : Accepts p text middle V)
    (hf : ∀ value, V value → Accepts (f value) middle rest U) : Accepts (p >>= f) text rest U := by
  intro inside c hc
  obtain ⟨value, d, hm, hd, hv⟩ := hp inside c hc
  obtain ⟨found, after, hm', hafter, hu⟩ := hf value hv inside d hd
  exact ⟨found, after, by rw [bind_apply, hm]; exact hm', hafter, hu⟩

/-- A part with a known value. -/
theorem Accepts.known {value : α} (hp : Accepts p text middle fun found => found = value)
    (hf : Accepts (f value) middle rest U) : Accepts (p >>= f) text rest U :=
  hp.andThen fun _ h => by rw [h]; exact hf

/-- A part whose value is of no interest. -/
theorem Accepts.skip {p : Parse Unit} {f : Unit → Parse β} {V : Unit → Prop}
    (hp : Accepts p text middle V) (hf : Accepts (f ()) middle rest U) :
    Accepts (p >>= f) text rest U := hp.andThen fun _ _ => hf

theorem Accepts.map {g : α → β} (hp : Accepts p text rest V) (hg : ∀ value, V value → U (g value)) :
    Accepts (g <$> p) text rest U := by
  rw [← bind_pure_comp]
  exact hp.andThen fun value hv => accepts_pure (hg value hv)

theorem Accepts.seqRight {q : Parse β} (hp : Accepts p text middle V)
    (hq : Accepts q middle rest U) :
    Accepts (p *> q) text rest U := hp.andThen fun _ _ => hq

theorem Accepts.weaken {W : α → Prop} (hp : Accepts p text rest V)
    (h : ∀ value, V value → W value) :
    Accepts p text rest W := by
  intro inside c hc
  obtain ⟨value, after, hm, hafter, hv⟩ := hp inside c hc
  exact ⟨value, after, hm, hafter, h value hv⟩

theorem Refuses.andThen (hp : Refuses p text) (f : α → Parse β) : Refuses (p >>= f) text := by
  intro inside c hc
  rw [bind_apply, hp inside c hc]

theorem Accepts.refuses (hp : Accepts p text middle V)
    (hf : ∀ value, V value → Refuses (f value) middle) : Refuses (p >>= f) text := by
  intro inside c hc
  obtain ⟨value, d, hm, hd, hv⟩ := hp inside c hc
  rw [bind_apply, hm]
  exact hf value hv inside d hd

theorem Refuses.map (hp : Refuses p text) (g : α → β) : Refuses (g <$> p) text := by
  rw [← bind_pure_comp]
  exact hp.andThen _

theorem Refuses.seqRight (hp : Refuses p text) (q : Parse β) : Refuses (p *> q) text := hp.andThen _

/-! ## Choices -/

theorem refuses_unmatched : Refuses (unmatched : Parse α) text := fun _ _ _ => rfl

theorem Accepts.first (hp : Accepts p text rest V) (q : Parse α) :
    Accepts (p.orElse q) text rest V := by
  intro inside c hc
  obtain ⟨value, after, hm, h⟩ := hp inside c hc
  exact ⟨value, after, by rw [Parse.orElse, hm], h⟩

theorem Refuses.second (hp : Refuses p text) (hq : Accepts q text rest V) :
    Accepts (p.orElse q) text rest V := by
  intro inside c hc
  obtain ⟨value, after, hm, h⟩ := hq inside c hc
  exact ⟨value, after, by rw [Parse.orElse, hp inside c hc]; exact hm, h⟩

theorem Refuses.both (hp : Refuses p text) (hq : Refuses q text) : Refuses (p.orElse q) text := by
  intro inside c hc
  rw [Parse.orElse, hp inside c hc]
  exact hq inside c hc

theorem Accepts.opt (hp : Accepts p text rest V) :
    Accepts (opt p) text rest fun found => ∃ value, found = some value ∧ V value :=
  (hp.andThen fun value hv => accepts_pure ⟨value, rfl, hv⟩).first _

theorem Refuses.opt (hp : Refuses p text) :
    Accepts (Parse.opt p) text text fun found => found = none :=
  (hp.andThen _).second (accepts_pure rfl)

theorem Accepts.flag (hp : Accepts p text rest V) :
    Accepts (flag p) text rest fun found => found = true :=
  (hp.andThen fun _ _ => accepts_pure (V := fun found => found = true) rfl).first _

theorem Refuses.flag (hp : Refuses p text) :
    Accepts (Parse.flag p) text text fun found => found = false :=
  (hp.andThen _).second (accepts_pure rfl)

theorem Accepts.require (hp : Accepts p text rest V) (expected : Expected) :
    Accepts (require expected p) text rest V := hp.first _

theorem Accepts.advise (hp : Accepts p text rest V) (g : Failure → Failure) :
    Accepts (advise g p) text rest V := by
  intro inside c hc
  obtain ⟨value, after, hm, h⟩ := hp inside c hc
  exact ⟨value, after, by rw [Parse.advise, hm], h⟩

theorem Accepts.within (hp : Accepts p text rest V) (construct : Construct) :
    Accepts (within construct p) text rest V := fun inside => hp (construct :: inside)

theorem Refuses.within (hp : Refuses p text) (construct : Construct) :
    Refuses (Parse.within construct p) text := fun inside => hp (construct :: inside)

/-! ## Repetitions -/

theorem Refuses.many (hp : Refuses p text) :
    Accepts (many p) text text fun found => found = [] := by
  intro inside c hc
  exact ⟨[], c, by rw [Parse.many, hp inside c hc], hc, rfl⟩

theorem Accepts.many_cons {W : List α → Prop} (hp : Accepts p text middle V)
    (hlt : middle.length < text.length) (hmany : Accepts (many p) middle rest W) :
    Accepts (many p) text rest fun found =>
      ∃ value values, found = value :: values ∧ V value ∧ W values := by
  intro inside c hc
  obtain ⟨value, d, hm, hd, hv⟩ := hp inside c hc
  obtain ⟨values, after, hm', hafter, hw⟩ := hmany inside d hd
  have hshort : d.rest.length < c.rest.length := by rw [hd, hc]; exact hlt
  refine ⟨value :: values, after, ?_, hafter, value, values, rfl, hv, hw⟩
  rw [Parse.many, hm]
  simp only [if_pos hshort, hm']

/-- A parser that passes over some text wherever it matches. -/
def Consumes (p : Parse α) : Prop :=
  ∀ inside c value after, p inside c = .matched value after → after.rest.length < c.rest.length

theorem Consumes.andThen (hp : Consumes p) (hf : ∀ value, Advances (f value)) :
    Consumes (p >>= f) := by
  intro inside c value after h
  rw [bind_apply] at h
  split at h
  · rename_i found d hm
    exact Nat.lt_of_le_of_lt (hf _ _ _ _ _ h).length_le (hp _ _ _ _ hm)
  · contradiction
  · contradiction

theorem consumes_symbol (char : Char) : Consumes (symbol char) := by
  intro inside c value after h
  unfold symbol pass at h
  split at h
  · rename_i d hd
    cases h
    exact Cursor.length_lt_of_symbol hd
  · contradiction

theorem Accepts.length_lt (hp : Accepts p text rest V) (h : Consumes p) :
    rest.length < text.length := by
  obtain ⟨value, after, hm, hafter, _⟩ := hp [] (Cursor.start text) rfl
  rw [← hafter]
  exact h _ _ _ _ hm

/-- A list written part by part, each before a text of a kind. -/
theorem accepts_many {γ : Type} {write : α → List Char → List Char} (view : α → γ)
    {Before : List Char → Prop} {values : List α} (hconsumes : Consumes p)
    (hbefore : ∀ value ∈ values, ∀ tail, Before tail → Before (write value tail))
    (hwrite : ∀ value ∈ values, ∀ tail, Before tail →
      Accepts p (write value tail) tail fun found => view found = view value)
    (hrest : Before rest) (hstop : Refuses p rest) :
    Accepts (many p) (values.foldr write rest) rest fun found =>
      found.map view = values.map view := by
  have hall : Before (values.foldr write rest) ∧ Accepts (many p) (values.foldr write rest) rest
      fun found => found.map view = values.map view := by
    induction values with
    | nil => exact ⟨hrest, hstop.many.weaken fun _ h => by rw [h]⟩
    | cons value values ih =>
      obtain ⟨htail, hmany⟩ := ih (fun other ho => hbefore other (List.mem_cons_of_mem _ ho))
        fun other ho => hwrite other (List.mem_cons_of_mem _ ho)
      have hvalue := hwrite value (by simp) _ htail
      refine ⟨hbefore value (by simp) _ htail, ?_⟩
      refine (hvalue.many_cons (hvalue.length_lt hconsumes) hmany).weaken ?_
      rintro _ ⟨found, others, rfl, hv, hvs⟩
      rw [List.map_cons, List.map_cons, hv, hvs]
  exact hall.2

/-! ## Readers and tokens -/

theorem accepts_read {reader : Reader α} (h : Takes reader text rest V) :
    Accepts (read reader) text rest V := by
  intro inside c hc
  obtain ⟨value, after, hr, h⟩ := h c hc
  exact ⟨value, after, by rw [Parse.read, hr], h⟩

theorem refuses_read {reader : Reader α} (h : Misses reader text) : Refuses (read reader) text := by
  intro inside c hc
  rw [Parse.read, h c hc]

theorem accepts_pass {t : Cursor → Option Cursor} (h : Passes t text rest) :
    Accepts (pass t) text rest fun _ => True := by
  intro inside c hc
  obtain ⟨after, ht, hafter⟩ := h c hc
  exact ⟨(), after, by rw [Parse.pass, ht], hafter, trivial⟩

theorem refuses_pass {t : Cursor → Option Cursor} (h : Stays t text) : Refuses (pass t) text := by
  intro inside c hc
  rw [Parse.pass, h c hc]

theorem passes_keyword {k : Keyword} (hl : Leads text (k.write rest)) (hr : NoWord rest) :
    Passes (Cursor.keyword k) text rest := by
  intro c hc
  have htoken := Cursor.rest_skipBlanks hl hc
  rw [Cursor.keyword_eq, htoken, Keyword.spells_write k k hr, decide_eq_true rfl, if_pos rfl]
  refine ⟨_, rfl, ?_⟩
  rw [Cursor.rest_skip, htoken, Keyword.write, List.drop_left]

theorem stays_keyword {k : Keyword} (hl : Leads text token) (hs : spells k token = false) :
    Stays (Cursor.keyword k) text := by
  intro c hc
  rw [Cursor.keyword_eq, Cursor.rest_skipBlanks hl hc, hs, if_neg (by decide)]

theorem passes_adjacent (char : Char) : Passes (Cursor.adjacent char) (char :: rest) rest := by
  intro c hc
  refine ⟨c.next, ?_, by rw [Cursor.rest_next, hc]; rfl⟩
  rw [Cursor.adjacent, hc, List.head?_cons, if_pos rfl]

theorem stays_adjacent {char : Char} (h : text.head? ≠ some char) :
    Stays (Cursor.adjacent char) text := by
  intro c hc
  rw [Cursor.adjacent, hc, if_neg h]

theorem passes_symbol {char : Char} (hl : Leads text (char :: rest)) :
    Passes (Cursor.symbol char) text rest :=
  fun _ hc => passes_adjacent char _ (Cursor.rest_skipBlanks hl hc)

theorem stays_symbol {char : Char} (hl : Leads text token) (h : token.head? ≠ some char) :
    Stays (Cursor.symbol char) text :=
  fun _ hc => stays_adjacent h _ (Cursor.rest_skipBlanks hl hc)

theorem accepts_keyword {k : Keyword} (hl : Leads text (k.write rest)) (hr : NoWord rest) :
    Accepts (keyword k) text rest fun _ => True := accepts_pass (passes_keyword hl hr)

theorem refuses_keyword {k : Keyword} (hl : Leads text token) (hs : spells k token = false) :
    Refuses (keyword k) text := refuses_pass (stays_keyword hl hs)

theorem accepts_requireKeyword {k : Keyword} (hl : Leads text (k.write rest)) (hr : NoWord rest) :
    Accepts (requireKeyword k) text rest fun _ => True :=
  ((accepts_keyword hl hr).require _).advise _

theorem accepts_unlessKeyword {k : Keyword} (hl : Leads text token) (hs : spells k token = false) :
    Accepts (unlessKeyword k) text text fun _ => True := by
  intro inside c hc
  refine ⟨(), c, ?_, hc, trivial⟩
  rw [unlessKeyword, stays_keyword hl hs c hc]
  rfl

theorem accepts_symbol {char : Char} (hl : Leads text (char :: rest)) :
    Accepts (symbol char) text rest fun _ => True := accepts_pass (passes_symbol hl)

theorem refuses_symbol {char : Char} (hl : Leads text token) (h : token.head? ≠ some char) :
    Refuses (symbol char) text := refuses_pass (stays_symbol hl h)

theorem accepts_requireSymbol {char : Char} (hl : Leads text (char :: rest)) :
    Accepts (requireSymbol char) text rest fun _ => True := (accepts_symbol hl).require _

/-- What may follow a keyword, where it does. -/
theorem accepts_after {k : Keyword} (hl : Leads text (k.write middle)) (hr : NoWord middle)
    (hp : Accepts p middle rest V) :
    Accepts (after k p) text rest fun found => ∃ value, found = some value ∧ V value :=
  ((accepts_keyword hl hr).seqRight hp).opt

theorem accepts_after_none {k : Keyword} (hs : Stays (Cursor.keyword k) text) (p : Parse α) :
    Accepts (after k p) text text fun found => found = none :=
  ((refuses_pass hs).seqRight p).opt

theorem accepts_nextToken (text : List Char) : Accepts nextToken text text fun _ => True :=
  fun _ c hc => ⟨c.skipBlanks, c, rfl, hc, trivial⟩

theorem accepts_requireNumber {number : Literal} {value : α} {meaning : Literal → Option α}
    (h : Takes Cursor.number text rest fun found => found = number)
    (hm : meaning number = some value) (expected : Expected) :
    Accepts (requireNumber expected meaning) text rest fun found => found = value := by
  refine (accepts_nextToken text).andThen fun place _ => ?_
  refine (accepts_read h).opt.andThen fun found hfound => ?_
  obtain ⟨_, rfl, rfl⟩ := hfound
  simp only [Option.bind_some, hm]
  exact accepts_pure rfl

/-! ## Names -/

theorem takes_word {name : String} (h : IsNameText name.toList)
    (hl : Leads text (name.toList ++ rest)) (hr : NoWord rest) :
    Takes Cursor.word text rest fun found => found = name := by
  intro c hc
  have htoken := Cursor.rest_skipBlanks hl hc
  have hfirst := h.firstWord_append hr
  obtain ⟨char, tail, hname, hstart⟩ := h.eq_cons
  have hhead : (name.toList ++ rest).head?.any isWordStart = true := by
    rw [hname]
    exact hstart
  rw [firstWord] at hfirst
  refine ⟨name, c.skipBlanks.skip name.toList.length, ?_, ?_, rfl⟩
  · simp only [Cursor.word, htoken, hhead, if_true, hfirst, String.ofList_toList]
  · rw [Cursor.rest_skip, htoken, List.drop_left]

theorem takes_identifier {name : String} (h : IsNameText name.toList)
    (hl : Leads text (name.toList ++ rest)) (hr : NoWord rest) :
    Takes Cursor.identifier text rest fun found => found = name := by
  intro c hc
  obtain ⟨found, d, hw, hd, rfl⟩ := takes_word h hl hr c hc
  have hreserved := h.isReservedWord_eq_false
  rw [String.ofList_toList] at hreserved
  exact ⟨found, d, Cursor.identifier_eq_some_iff.mpr ⟨hw, hreserved⟩, hd, rfl⟩

/-- No name starts with another character. -/
theorem misses_identifier {char : Char} (hl : Leads text (char :: rest))
    (hc : isWordStart char = false) : Misses Cursor.identifier text := by
  intro c hrest
  simp [Cursor.identifier, Cursor.word, Cursor.rest_skipBlanks hl hrest, hc]

/-- A reserved keyword is no name. -/
theorem misses_identifier_of_isReserved {k : Keyword} (hk : k.isReserved = true)
    (hl : Leads text (k.write rest)) (hr : NoWord rest) : Misses Cursor.identifier text := by
  intro c hc
  have htoken := Cursor.rest_skipBlanks hl hc
  have hfirst := k.firstWord_write hr
  rw [firstWord] at hfirst
  simp only [Cursor.identifier, Cursor.word, htoken, hfirst]
  split
  · simp [k.isReservedWord_letters, hk]
  · rfl

theorem accepts_identifier {name : String} (h : IsNameText name.toList)
    (hl : Leads text (name.toList ++ rest)) (hr : NoWord rest) :
    Accepts identifier text rest fun found => found = name :=
      accepts_read (takes_identifier h hl hr)

theorem accepts_requireName {name : String} (h : IsNameText name.toList) (part : String)
    (hl : Leads text (name.toList ++ rest)) (hr : NoWord rest) :
    Accepts (requireName part) text rest fun found => found = name :=
  ((accepts_identifier h hl hr).require _).advise _

/-! ## Tables of keywords -/

theorem accepts_oneOf {table : List (Keyword × α)} {k : Keyword} {value : α}
    (h : table.lookup k = some value) (hl : Leads text (k.write rest)) (hr : NoWord rest) :
    Accepts (oneOf table) text rest fun found => found = value := by
  induction table with
  | nil => contradiction
  | cons entry table ih =>
    obtain ⟨other, found⟩ := entry
    by_cases hk : k = other
    · subst hk
      obtain rfl : found = value := by simpa [List.lookup_cons] using h
      exact ((accepts_keyword hl hr).seqRight (accepts_pure (V := (· = found)) rfl)).first _
    · have hspells : spells other (k.write rest) = false := by
        rw [Keyword.spells_write _ _ hr]
        exact decide_eq_false (Ne.symm hk)
      have hrest : table.lookup k = some value := by
        rw [List.lookup_cons, beq_false_of_ne hk] at h
        exact h
      exact ((refuses_keyword hl hspells).seqRight _).second (ih hrest)

theorem refuses_oneOf {table : List (Keyword × α)} (hl : Leads text token)
    (h : ∀ entry ∈ table, spells entry.1 token = false) : Refuses (oneOf table) text := by
  induction table with
  | nil => exact refuses_unmatched
  | cons entry table ih =>
    exact ((refuses_keyword hl (h entry (by simp))).seqRight _).both
      (ih fun other ho => h other (List.mem_cons_of_mem _ ho))

/-! ## Sentences -/

theorem Accepts.spanned {p : Parse (Span → α)} (hl : Leads text token)
    (hp : Accepts p token rest fun build => ∀ span, V (build span)) :
    Accepts (spanned p) text rest V := by
  intro inside c hc
  have htoken := Cursor.rest_skipBlanks hl hc
  obtain ⟨build, after, hm, hafter, hv⟩ := hp inside c.skipBlanks htoken
  refine ⟨build (c.skipBlanks.spanTo after), after, ?_, hafter, hv _⟩
  simp only [Parse.spanned, bind_apply, mark, here, hm]
  rfl

theorem Refuses.spanned {p : Parse (Span → α)} (hl : Leads text token) (hp : Refuses p token) :
    Refuses (Parse.spanned p) text := by
  intro inside c hc
  simp only [Parse.spanned, bind_apply, mark, hp inside _ (Cursor.rest_skipBlanks hl hc)]

theorem solid_newline (rest : List Char) : Solid ('\n' :: rest) := solid_cons rest rfl (by decide)

theorem stays_commentMark (hl : Leads text token) (hm : token.head? ≠ some '\x27')
    (hs : spells .Rem token = false) : Stays Cursor.commentMark text := by
  intro c hc
  have htoken := Cursor.rest_skipBlanks hl hc
  have hkeyword : c.skipBlanks.keyword .Rem = none := by
    rw [Cursor.keyword_eq, Cursor.skipBlanks_skipBlanks, htoken, hs, if_neg (by decide)]
  simp only [Cursor.commentMark, stays_adjacent hm _ htoken, hkeyword, Option.none_or]

theorem passes_lineBreak (rest : List Char) : Passes Cursor.lineBreak ('\n' :: rest) rest := by
  intro c hc
  exact ⟨c.skip 1, by simp [Cursor.lineBreak, hc, breakWidth], by simp [hc]⟩

theorem passes_lineEnd (rest : List Char) : Passes Cursor.lineEnd ('\n' :: rest) rest := by
  intro c hc
  have hl := (solid_newline rest).here
  have htoken := Cursor.rest_skipBlanks hl hc
  have hmark := stays_commentMark hl (by simp) (spells_cons_eq_false .Rem rest rfl) _ htoken
  obtain ⟨d, hbreak, hd⟩ := passes_lineBreak rest _ htoken
  refine ⟨d, ?_, hd⟩
  simp [Cursor.lineEnd, Cursor.comment, hmark, Cursor.breakOrEnd, hbreak]

theorem passes_terminator (rest : List Char) : Passes Cursor.terminator ('\n' :: rest) rest := by
  intro c hc
  have hcolon : c.symbol ':' = none := stays_symbol (solid_newline rest).here (by simp) c hc
  obtain ⟨d, hend, hd⟩ := passes_lineEnd rest c hc
  exact ⟨d, by rw [Cursor.terminator, hcolon, hend]; rfl, hd⟩

theorem accepts_requireTerminator (rest : List Char) :
    Accepts requireTerminator ('\n' :: rest) rest fun _ => True :=
  (accepts_pass (passes_terminator rest)).require _

/-- A sentence with its line to itself. -/
theorem Accepts.sentence {p : Parse (Span → α)} (construct : Construct) (hl : Leads text token)
    (hp : Accepts p token ('\n' :: rest) fun build => ∀ span, V (build span)) :
    Accepts (sentence construct p) text rest V := by
  refine Accepts.within ?_ construct
  refine (hp.spanned hl).andThen fun value hv => ?_
  refine (accepts_requireTerminator rest).skip ?_
  exact accepts_pure hv

theorem Refuses.sentence {p : Parse (Span → α)} (construct : Construct) (hl : Leads text token)
    (hp : Refuses p token) : Refuses (Parse.sentence construct p) text :=
  ((hp.spanned hl).andThen _).within construct

end Parse

end VisualBasic
