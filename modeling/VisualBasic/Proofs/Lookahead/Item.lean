import VisualBasic.Grammar.Module
import VisualBasic.Proofs.Lookahead.Met
import VisualBasic.Proofs.Routine.Agreement

/-!
# The kinds of items

What an item is can be told before it is read: from the start of a comment or an empty line, or from
a keyword, of which at most one access modifier is passed over. The alternatives of the grammar,
tried in their order, come to the one told so. Only a group of variables has no keyword of its own,
and only a group of variables may be left unmatched.
-/

set_option autoImplicit false

namespace VisualBasic

/-- A keyword that may precede a declaration. -/
def Keyword.isModifier (k : Keyword) : Bool := [.Public, .Private, .Friend, .Global].contains k

namespace Cursor

/-- Past the access modifier, where one comes next. -/
def pastModifier (c : Cursor) : Cursor :=
  match c.lead with
  | some (k, d) => if k.isModifier then d else c
  | none => c

/-- The keyword that comes after the access modifier, or next where there is none. -/
def headWord (c : Cursor) : Option Keyword := c.pastModifier.peekKeyword

@[simp] theorem headWord_skipBlanks (c : Cursor) : c.skipBlanks.headWord = c.headWord := by
  unfold headWord pastModifier
  rw [lead_skipBlanks]
  split
  · split
    · rfl
    · rw [peekKeyword_skipBlanks]
  · rw [peekKeyword_skipBlanks]

end Cursor

namespace Grammar

open Parse

/-- The alternatives for an item, those for a declaration among them. -/
inductive ItemKind where
  | comment | emptyLine | attributeLine | optionLine
  | constantGroup | enumeration | record | externalProcedure | event | variableGroup
  | sub | function | property
  deriving DecidableEq, Repr

namespace ItemKind

def parse : ItemKind → Parse Item
  | .comment => Item.comment <$> read Grammar.comment
  | .emptyLine => Item.emptyLine <$> read Grammar.emptyLine
  | .attributeLine => Item.attributeLine <$> Grammar.attributeLine
  | .optionLine => Item.optionLine <$> Grammar.optionLine
  | .constantGroup => Item.declaration <$> Declaration.constantGroup <$> Grammar.constantGroup
  | .enumeration => Item.declaration <$> Declaration.enumeration <$> Grammar.enumeration
  | .record => Item.declaration <$> Declaration.record <$> Grammar.record
  | .externalProcedure => Item.declaration <$> Grammar.externalProcedure
  | .event => Item.declaration <$> Declaration.event <$> Grammar.eventHead
  | .variableGroup => Item.declaration <$> Declaration.variableGroup <$> Grammar.variableGroup
  | .sub => (fun d => .procedure (.sub d)) <$> subDefinition
  | .function => (fun d => .procedure (.function d)) <$> functionDefinition
  | .property => (fun d => .procedure (.property d)) <$> propertyDefinition

/-- The kind that a keyword tells, after an access modifier or without one. -/
def declared : Keyword → Option ItemKind
  | .Const => some .constantGroup
  | .Enum => some .enumeration
  | .«Type» => some .record
  | .Declare => some .externalProcedure
  | .Event => some .event
  | .Sub => some .sub
  | .Function => some .function
  | .Property => some .property
  | _ => none

/-- The kind that a keyword tells only without an access modifier. -/
def unmodified : Keyword → Option ItemKind
  | .Attribute => some .attributeLine
  | .Option => some .optionLine
  | .Dim => some .variableGroup
  | _ => none

/-- The kind of an item with code, told from its first keywords. -/
def ofCode (c : Cursor) : Option ItemKind :=
  c.lead.bind fun found =>
    if found.1.isModifier then some ((found.2.peekKeyword.bind declared).getD .variableGroup)
    else (declared found.1).or (unmodified found.1)

/-- The kind of the item that comes next. -/
def next (c : Cursor) : Option ItemKind :=
  if c.commentMark.isSome then some .comment
  else if c.blankLine.isSome then some .emptyLine
  else ofCode c

/-- The parser of the kind that is told; where none is, the text is left unmatched. -/
def choose (c : Cursor) : Parse Item := ((next c).map parse).getD Parse.unmatched

end ItemKind

/-! ## The sign of each kind -/

theorem lookup_accessKeywords (k : Keyword) :
    (accessKeywords.lookup k).isSome = k.isModifier := by
  cases k <;> rfl

/-- The access modifier may be missing; where one comes next it is passed over. -/
theorem access_apply (inside : List Construct) (c : Cursor) :
    ∃ value, access inside c = .matched value c.pastModifier := by
  have hopt : access inside c = (opt (oneOf accessKeywords) >>= fun written =>
      pure (written.getD .Unwritten)) inside c := rfl
  rw [hopt, oneOf_eq_read, bind_apply, opt_read_apply]
  unfold Cursor.pastModifier
  cases hlead : c.lead with
  | none => exact ⟨.Unwritten, rfl⟩
  | some found =>
    simp only [Option.bind_some]
    rw [← lookup_accessKeywords found.1]
    cases hlookup : accessKeywords.lookup found.1 with
    | none => exact ⟨.Unwritten, rfl⟩
    | some value => exact ⟨value, rfl⟩

/-- A sentence that starts with an access modifier, if there is one, and its keyword. -/
theorem metBy_declared {α : Type} {k : Keyword} {rest : Access → Parse (Span → α)}
    (construct : Construct) (hrest : ∀ access, Resolves (rest access)) :
    MetBy (sentence construct do
      let access ← access
      keyword k
      rest access) fun c => c.headWord = some k := by
  refine MetBy.sentence (fun inside c => ?_) (fun c => by rw [Cursor.headWord_skipBlanks]) construct
  obtain ⟨value, hvalue⟩ := access_apply inside c
  rw [bind_apply, hvalue]
  exact (metBy_keyword k).andThen (fun _ => hrest value) inside c.pastModifier

theorem resolves_procedureParameters : Resolves procedureParameters :=
  (resolves_opt _).andThen fun _ => resolves_pure _

theorem resolves_memberLines {α : Type} (member : Parse α) (expected : Expected) :
    Resolves (memberLines member expected) := by
  refine resolves_requireTerminator.andThen fun _ => Resolves.andThen ?_ fun _ =>
    (many_ne_unmatched _).andThen fun members => ?_
  · exact (many_ne_unmatched _).andThen fun _ => resolves_pure _
  · split
    · exact resolves_fail expected
    · exact resolves_pure members

theorem resolves_returnType (isTyped : Prop) [Decidable isTyped] :
    Resolves (if isTyped then after .As typeName else pure none) := by
  split
  · exact resolves_after _ _
  · exact resolves_pure _

theorem metBy_constantGroup : MetBy constantGroup fun c => c.headWord = some .Const := by
  refine metBy_declared _ fun access => Resolves.andThen ?_ fun constants => resolves_pure _
  refine Resolves.separated ((resolves_require _ _).andThen fun _ => ?_) _
  exact (resolves_require _ _).andThen fun _ => (resolves_require _ _).andThen
    fun _ => resolves_pure _

theorem metBy_record : MetBy record fun c => c.headWord = some .«Type» :=
  metBy_declared _ fun _ => (resolves_requireName _).andThen fun _ =>
    (resolves_memberLines _ _).andThen fun _ => (resolves_requireEnd _).andThen fun _ =>
      resolves_pure _

theorem metBy_enumeration : MetBy enumeration fun c => c.headWord = some .Enum :=
  metBy_declared _ fun _ => (resolves_requireName _).andThen fun _ =>
    (resolves_memberLines _ _).andThen fun _ => (resolves_requireEnd _).andThen fun _ =>
      resolves_pure _

theorem metBy_externalProcedure : MetBy externalProcedure fun c => c.headWord = some .Declare := by
  refine metBy_declared _ fun access => (resolves_require _ _).andThen fun isFunction => ?_
  refine (resolves_requireName _).andThen fun name => (resolves_requireKeyword _).andThen
    fun _ => ?_
  refine (resolves_require _ _).andThen fun library => (resolves_after _ _).andThen fun entry => ?_
  refine resolves_procedureParameters.andThen fun parameters => ?_
  exact (resolves_returnType _).andThen fun _ => resolves_pure _

theorem metBy_plainHead (construct : Construct) (k : Keyword) (part : String) :
    MetBy (plainHead construct k part) fun c => c.headWord = some k :=
  metBy_declared _ fun _ => (resolves_requireName _).andThen fun _ =>
    resolves_procedureParameters.andThen fun _ => resolves_pure _

theorem metBy_functionHead : MetBy functionHead fun c => c.headWord = some .Function :=
  metBy_declared _ fun _ => (resolves_requireName _).andThen fun _ =>
    resolves_procedureParameters.andThen fun _ => (resolves_after _ _).andThen fun _ =>
      resolves_pure _

theorem metBy_propertyHead : MetBy propertyHead fun c => c.headWord = some .Property := by
  refine metBy_declared _ fun access => (resolves_require _ _).andThen fun kind => ?_
  refine (resolves_requireName _).andThen fun name => ?_
  refine resolves_procedureParameters.andThen fun parameters => ?_
  exact (resolves_returnType _).andThen fun _ => resolves_pure _

/-- A definition is met where its head is. -/
theorem metBy_definition {η : Type} {head : Parse η} {word : Keyword} (construct : Construct)
    (hhead : MetBy head fun c => c.headWord = some word) (k : Keyword) :
    MetBy (definition construct head k) fun c => c.headWord = some word := by
  refine MetBy.sentence (hhead.andThen fun _ => ?_) (fun c => by rw [Cursor.headWord_skipBlanks]) _
  exact (many_ne_unmatched _).andThen fun _ => (resolves_requireEnd k).andThen fun _ =>
    resolves_pure _

theorem metBy_attributeLine : MetBy attributeLine fun c => c.peekKeyword = some .Attribute := by
  have hname : Resolves attributeName :=
    (resolves_requireName _).andThen fun _ => (many_ne_unmatched _).andThen fun _ => resolves_pure _
  have hvalue : Resolves attributeValue := resolves_mark.andThen fun _ =>
    Resolves.second ((resolves_require _ _).andThen fun _ => resolves_here.andThen fun _ =>
      resolves_pure _) _
  refine MetBy.sentence ((metBy_keyword _).andThen fun _ => hname.andThen fun name => ?_)
    (fun c => by rw [Cursor.peekKeyword_skipBlanks]) _
  exact (resolves_require _ _).andThen fun _ => hvalue.andThen fun _ => resolves_pure _

theorem metBy_optionLine : MetBy optionLine fun c => c.peekKeyword = some .Option :=
  MetBy.sentence ((metBy_keyword _).andThen fun _ =>
    (resolves_require _ _).andThen fun _ => resolves_pure _)
    (fun c => by rw [Cursor.peekKeyword_skipBlanks]) _

/-- No variable has a reserved word for its name. -/
theorem declaredVariable_eq_unmatched {inside : List Construct} {c : Cursor} {k : Keyword}
    (h : c.peekKeyword = some k) (hk : k.isReserved = true) :
    declaredVariable inside c = .unmatched := by
  rw [← Cursor.peekKeyword_skipBlanks] at h
  have hname : identifier (.variable :: inside) c.skipBlanks = .unmatched :=
    read_eq_unmatched (Cursor.identifier_eq_none_of_isReserved h hk)
  simp only [declaredVariable, within, spanned, mark, bind_apply, hname]

/-- A group of variables starts with an access modifier or with `Dim`, and after a modifier no
reserved word stands. -/
theorem variableGroup_eq_unmatched {inside : List Construct} {c : Cursor}
    (h : c.peekKeyword ≠ some .Dim)
    (hreserved : ∀ k d, c.lead = some (k, d) → k.isModifier = true →
      ∃ next, d.peekKeyword = some next ∧ next.isReserved = true) :
    variableGroup inside c = .unmatched := by
  refine sentence_eq_unmatched ?_
  rw [← Cursor.peekKeyword_skipBlanks] at h
  rw [← Cursor.lead_skipBlanks] at hreserved
  have hdim : (keyword .Dim *> pure Access.Dim) (.variableDeclaration :: inside) c.skipBlanks =
      .unmatched := ((metBy_keyword .Dim).seqRight (resolves_pure _)).unmatched h
  rw [bind_apply, orElse_of_second_unmatched hdim, oneOf_eq_read]
  cases hlead : c.skipBlanks.lead with
  | none => rw [read_eq_unmatched (by simp [hlead])]
  | some found =>
    obtain ⟨k, d⟩ := found
    have hmodifier := lookup_accessKeywords k
    cases hlookup : accessKeywords.lookup k with
    | none => rw [read_eq_unmatched (by simp [hlead, hlookup])]
    | some value =>
      obtain ⟨next, hnext, hword⟩ := hreserved k d hlead (by rw [← hmodifier, hlookup]; rfl)
      have hevents : d.peekKeyword ≠ some .WithEvents := by
        rw [hnext]
        rintro ⟨⟩
        contradiction
      rw [@read_eq_matched _ _ _ _ value d (by simp [hlead, hlookup])]
      simp only [bind_apply, declaredVariables, separated, flag_keyword_apply hevents,
        declaredVariable_eq_unmatched hnext hword]

namespace ItemKind

/-! ## The kind that is told -/

variable {kind : ItemKind} {k : Keyword} {c : Cursor} {inside : List Construct}

theorem metBy_of_declared (h : declared k = some kind) :
    MetBy kind.parse fun c => c.headWord = some k := by
  unfold declared at h
  split at h <;> cases h
  case h_1 => exact (metBy_constantGroup.map _).map _
  case h_2 => exact (metBy_enumeration.map _).map _
  case h_3 => exact (metBy_record.map _).map _
  case h_4 => exact metBy_externalProcedure.map _
  case h_5 => exact ((metBy_plainHead _ .Event _).map _).map _
  case h_6 => exact (metBy_definition _ (metBy_plainHead _ .Sub _) _).map _
  case h_7 => exact (metBy_definition _ metBy_functionHead _).map _
  case h_8 => exact (metBy_definition _ metBy_propertyHead _).map _

theorem metBy_of_unmodified (hkind : kind ≠ .variableGroup) (h : unmodified k = some kind) :
    MetBy kind.parse fun c => c.peekKeyword = some k := by
  unfold unmodified at h
  split at h <;> cases h
  case h_1 => exact metBy_attributeLine.map _
  case h_2 => exact metBy_optionLine.map _
  case h_3 => contradiction

theorem ofCode_of_declared (hk : declared k = some kind) (h : c.headWord = some k) :
    ofCode c = some kind := by
  unfold Cursor.headWord Cursor.pastModifier at h
  unfold ofCode
  cases hlead : c.lead with
  | none => simp [hlead, Cursor.peekKeyword_eq] at h
  | some found =>
    simp only [hlead, Option.bind_some] at h ⊢
    split at h
    · rename_i hmodifier
      simp [hmodifier, h, hk]
    · rename_i hmodifier
      obtain rfl : found.1 = k := by simpa [Cursor.peekKeyword_eq, hlead] using h
      simp [hmodifier, hk]

theorem ofCode_of_unmodified (hk : unmodified k = some kind) (h : c.peekKeyword = some k) :
    ofCode c = some kind := by
  have hplain : k.isModifier = false ∧ declared k = none := by
    unfold unmodified at hk
    split at hk
    · exact ⟨rfl, rfl⟩
    · exact ⟨rfl, rfl⟩
    · exact ⟨rfl, rfl⟩
    · contradiction
  rw [Cursor.peekKeyword_eq] at h
  obtain ⟨found, hlead, rfl⟩ := Option.map_eq_some_iff.mp h
  simp [ofCode, hlead, hplain, hk]

/-- A kind other than a group of variables is told by its keyword. -/
theorem exists_of_ofCode (hkind : kind ≠ .variableGroup) (h : ofCode c = some kind) :
    (∃ k, declared k = some kind ∧ c.headWord = some k) ∨
      ∃ k, unmodified k = some kind ∧ c.peekKeyword = some k := by
  obtain ⟨found, hlead, hfound⟩ := Option.bind_eq_some_iff.mp h
  split at hfound
  · rename_i hmodifier
    have hhead : c.headWord = found.2.peekKeyword := by
      simp only [Cursor.headWord, Cursor.pastModifier, hlead, hmodifier, if_true]
    cases hword : found.2.peekKeyword.bind declared with
    | none => exact absurd (by simpa [hword] using hfound.symm) hkind
    | some other =>
      obtain ⟨k, hk, hdeclared⟩ := Option.bind_eq_some_iff.mp hword
      obtain rfl : other = kind := by simpa [hword] using hfound
      exact .inl ⟨k, hdeclared, hhead.trans hk⟩
  · rename_i hmodifier
    have hnext : c.peekKeyword = some found.1 := by simp [Cursor.peekKeyword_eq, hlead]
    have hhead : c.headWord = c.peekKeyword := by
      simp [Cursor.headWord, Cursor.pastModifier, hlead, hmodifier]
    rcases Option.or_eq_some_iff.mp hfound with hdeclared | ⟨_, hunmodified⟩
    · exact .inl ⟨found.1, hdeclared, hhead.trans hnext⟩
    · exact .inr ⟨found.1, hunmodified, hnext⟩

theorem ofCode_of_commentMark (h : c.commentMark.isSome) : ofCode c = none := by
  unfold ofCode
  cases hlead : c.lead with
  | none => rfl
  | some found =>
    have hword : found.1 = .Rem := Cursor.eq_Rem_of_commentMark h (d := found.2) hlead
    simp only [Option.bind_some, hword]
    rfl

theorem ofCode_of_blankLine (h : c.blankLine.isSome) : ofCode c = none := by
  rw [ofCode, Cursor.lead, Cursor.word_eq_none_of_blankLine h]
  rfl

theorem next_of_ofCode (h : ofCode c = some kind) : next c = some kind := by
  unfold next
  split
  · rename_i hcomment
    rw [ofCode_of_commentMark hcomment] at h
    contradiction
  · split
    · rename_i hblank
      rw [ofCode_of_blankLine hblank] at h
      contradiction
    · exact h

/-- A kind other than a group of variables is met only where it is told. -/
theorem parse_eq_unmatched (hkind : kind ≠ .variableGroup) (h : next c ≠ some kind) :
    kind.parse inside c = .unmatched := by
  have hdeclared {k : Keyword} (hk : declared k = some kind) : kind.parse inside c = .unmatched :=
    (metBy_of_declared hk).unmatched fun hhead => h (next_of_ofCode (ofCode_of_declared hk hhead))
  have hunmodified {k : Keyword} (hk : unmodified k = some kind) :
      kind.parse inside c = .unmatched :=
    (metBy_of_unmodified hkind hk).unmatched fun hnext =>
      h (next_of_ofCode (ofCode_of_unmodified hk hnext))
  cases kind with
  | comment => exact (metBy_comment.map _).unmatched fun hmark => h (if_pos hmark)
  | emptyLine =>
    refine (metBy_emptyLine.map _).unmatched fun hblank => h ?_
    rw [next, Cursor.commentMark_eq_none_of_blankLine hblank, if_neg (by simp), if_pos hblank]
  | attributeLine => exact hunmodified (k := .Attribute) rfl
  | optionLine => exact hunmodified (k := .Option) rfl
  | constantGroup => exact hdeclared (k := .Const) rfl
  | enumeration => exact hdeclared (k := .Enum) rfl
  | record => exact hdeclared (k := .«Type») rfl
  | externalProcedure => exact hdeclared (k := .Declare) rfl
  | event => exact hdeclared (k := .Event) rfl
  | variableGroup => contradiction
  | sub => exact hdeclared (k := .Sub) rfl
  | function => exact hdeclared (k := .Function) rfl
  | property => exact hdeclared (k := .Property) rfl

/-- A kind other than a group of variables matches or fails where it is told. -/
theorem parse_ne_unmatched (hkind : kind ≠ .variableGroup) (h : next c = some kind) :
    kind.parse inside c ≠ .unmatched := by
  unfold next at h
  split at h
  · rename_i hmark
    cases h
    exact (metBy_comment.map _).ne_unmatched hmark
  · split at h
    · rename_i hblank
      cases h
      exact (metBy_emptyLine.map _).ne_unmatched hblank
    · rcases exists_of_ofCode hkind h with ⟨k, hk, hhead⟩ | ⟨k, hk, hnext⟩
      · exact (metBy_of_declared hk).ne_unmatched hhead
      · exact (metBy_of_unmodified hkind hk).ne_unmatched hnext

/-! ## The choice -/

/-- The alternatives that come before a group of variables. -/
def early : List ItemKind :=
  [.comment, .emptyLine, .attributeLine, .optionLine, .constantGroup, .enumeration, .record,
    .externalProcedure, .event]

/-- The alternatives that come after a group of variables. -/
def late : List ItemKind := [.sub, .function, .property]

theorem item_eq_firstOf :
    item = (firstOf (early.map parse)).orElse
      ((parse .variableGroup).orElse (firstOf (late.map parse))) := by
  let first : List ItemKind := [.comment, .emptyLine, .attributeLine, .optionLine]
  let declarations : List ItemKind :=
    [.constantGroup, .enumeration, .record, .externalProcedure, .event]
  have hdeclaration : Item.declaration <$> declaration =
      (firstOf (declarations.map parse)).orElse (parse .variableGroup) := by
    rw [← firstOf_singleton (parse .variableGroup), ← firstOf_append]
    exact map_firstOf _ _
  calc
    item = (firstOf (first.map parse)).orElse
        ((Item.declaration <$> declaration).orElse (firstOf (late.map parse))) :=
      firstOf_append (first.map parse) ((Item.declaration <$> declaration) :: late.map parse)
    _ = ((firstOf (first.map parse)).orElse (firstOf (declarations.map parse))).orElse
        ((parse .variableGroup).orElse (firstOf (late.map parse))) := by
      rw [hdeclaration, orElse_assoc, orElse_assoc]
    _ = _ := by rw [← firstOf_append, ← List.map_append]; rfl

/-- Where a procedure or nothing is told, there is no group of variables. -/
theorem parse_variableGroup_eq_unmatched (h : ∀ kind, next c = some kind → kind ∈ late) :
    parse .variableGroup inside c = .unmatched := by
  have hcode {kind : ItemKind} (hkind : ofCode c = some kind) : kind ∈ late :=
    h kind (next_of_ofCode hkind)
  refine bind_eq_unmatched (bind_eq_unmatched (Grammar.variableGroup_eq_unmatched ?_ ?_) _) _
  · intro hdim
    exact absurd (hcode (ofCode_of_unmodified (k := .Dim) rfl hdim)) (by decide)
  · intro k d hlead hmodifier
    have hchosen : ofCode c = some ((d.peekKeyword.bind declared).getD .variableGroup) := by
      simp [ofCode, hlead, hmodifier]
    cases hnext : d.peekKeyword.bind declared with
    | none =>
      rw [hnext] at hchosen
      exact absurd (hcode hchosen) (by decide)
    | some kind =>
      rw [hnext] at hchosen
      obtain ⟨next, hword, hdeclared⟩ := Option.bind_eq_some_iff.mp hnext
      refine ⟨next, hword, ?_⟩
      have hlate := hcode hchosen
      unfold declared at hdeclared
      split at hdeclared <;> cases hdeclared <;> first | rfl | exact absurd hlate (by decide)

theorem firstOf_early_eq_unmatched (h : ∀ kind ∈ early, next c ≠ some kind) :
    firstOf (early.map parse) inside c = .unmatched :=
  firstOf_eq_unmatched fun kind hkind =>
    parse_eq_unmatched (by rintro rfl; contradiction) (h kind hkind)

theorem firstOf_late_eq_unmatched (h : ∀ kind ∈ late, next c ≠ some kind) :
    firstOf (late.map parse) inside c = .unmatched :=
  firstOf_eq_unmatched fun kind hkind =>
    parse_eq_unmatched (by rintro rfl; contradiction) (h kind hkind)

theorem notMem_late_of_mem_early : ∀ kind ∈ early, kind ∉ late := by decide

theorem mem_early_or_late (kind : ItemKind) :
    kind ∈ early ∨ kind = .variableGroup ∨ kind ∈ late := by
  cases kind <;> decide

/-- Where no kind is told, no alternative is met. -/
theorem item_eq_unmatched (h : next c = none) : item inside c = .unmatched := by
  rw [item_eq_firstOf, orElse_of_unmatched (firstOf_early_eq_unmatched fun kind _ => by simp [h]),
    orElse_of_unmatched (parse_variableGroup_eq_unmatched fun kind hkind => by simp [h] at hkind)]
  exact firstOf_late_eq_unmatched fun kind _ => by simp [h]

/-- At the end of the text there is no item. -/
theorem item_eq_unmatched_of_nil (h : c.rest = []) : item inside c = .unmatched := by
  have htoken := Cursor.skipBlanks_of_nil h
  have hlead : c.lead = none := by simp [Cursor.lead, Cursor.word, htoken, h]
  have hmark : c.commentMark = none := by
    rw [Cursor.commentMark, htoken, Option.or_eq_none_iff, Cursor.keyword_eq_none_iff,
      Cursor.peekKeyword_eq, hlead, Cursor.adjacent, h]
    exact ⟨rfl, by simp⟩
  have hblank : c.blankLine = none := by
    rw [Cursor.blankLine_eq, h]
    rfl
  have hcode : ofCode c = none := by rw [ofCode, hlead, Option.bind_none]
  exact item_eq_unmatched (by simp [next, hmark, hblank, hcode])

/-- The alternative that is told is the one that is met. -/
theorem item_eq_parse (h : next c = some kind) : item inside c = kind.parse inside c := by
  have hother {other : ItemKind} (hne : other ≠ kind) : next c ≠ some other := by
    rw [h]
    exact fun heq => hne (Option.some.inj heq).symm
  rw [item_eq_firstOf]
  rcases mem_early_or_late kind with hmem | rfl | hmem
  · have hfirst : firstOf (early.map parse) inside c = kind.parse inside c :=
      firstOf_eq_of_mem hmem fun other ho hne =>
        parse_eq_unmatched (by rintro rfl; contradiction) (hother hne)
    have hmet : firstOf (early.map parse) inside c ≠ .unmatched := by
      rw [hfirst]
      exact parse_ne_unmatched (by rintro rfl; contradiction) h
    rw [orElse_of_ne_unmatched hmet, hfirst]
  · have hbefore : firstOf (early.map parse) inside c = .unmatched :=
      firstOf_early_eq_unmatched fun other ho => hother (by rintro rfl; contradiction)
    have hbehind : firstOf (late.map parse) inside c = .unmatched :=
      firstOf_late_eq_unmatched fun other ho => hother (by rintro rfl; contradiction)
    rw [orElse_of_unmatched hbefore, orElse_of_second_unmatched hbehind]
  · have hbefore : firstOf (early.map parse) inside c = .unmatched :=
      firstOf_early_eq_unmatched fun other ho =>
        hother (by rintro rfl; exact notMem_late_of_mem_early other ho hmem)
    have hgroup : parse .variableGroup inside c = .unmatched :=
      parse_variableGroup_eq_unmatched fun other ho => by
        rw [← Option.some.inj (h.symm.trans ho)]
        exact hmem
    rw [orElse_of_unmatched hbefore, orElse_of_unmatched hgroup]
    exact firstOf_eq_of_mem hmem fun other ho hne =>
      parse_eq_unmatched (by rintro rfl; contradiction) (hother hne)

end ItemKind

open ItemKind

theorem item_eq_choose (inside : List Construct) (c : Cursor) :
    item inside c = choose c inside c := by
  cases h : next c with
  | none =>
    rw [item_eq_unmatched h, choose, h]
    rfl
  | some kind =>
    rw [item_eq_parse h, choose, h]
    rfl

/-! ## Routines of the kinds -/

namespace ItemKind

def routine : ItemKind → Routine Item
  | .comment => Item.comment <$> Routine.comment
  | .emptyLine => Item.emptyLine <$> Routine.emptyLine
  | .attributeLine => Item.attributeLine <$> Routine.attributeLine
  | .optionLine => Item.optionLine <$> Routine.optionLine
  | .constantGroup => Item.declaration <$> Declaration.constantGroup <$> Routine.constantGroup
  | .enumeration => Item.declaration <$> Declaration.enumeration <$> Routine.enumeration
  | .record => Item.declaration <$> Declaration.record <$> Routine.record
  | .externalProcedure => Item.declaration <$> Routine.externalProcedure
  | .event => Item.declaration <$> Declaration.event <$> Routine.eventHead
  | .variableGroup => Item.declaration <$> Declaration.variableGroup <$> Routine.variableGroup
  | .sub => (fun d => .procedure (.sub d)) <$> Routine.subDefinition
  | .function => (fun d => .procedure (.function d)) <$> Routine.functionDefinition
  | .property => (fun d => .procedure (.property d)) <$> Routine.propertyDefinition

/-- The routine of the kind that is told; where none is, the text is left unmatched. -/
def choice (c : Cursor) : Routine Item := ((next c).map routine).getD Routine.unmatched

theorem tracks_routine (kind : ItemKind) :
    Guide.same.Tracks .kept kind.routine kind.parse Eq := by
  have hdeclaration {α : Type} {f : α → Declaration} {m : Routine α} {p : Parse α}
      (h : Guide.same.Tracks .kept (f <$> m) (f <$> p) Eq) :
      Guide.same.Tracks .kept (Item.declaration <$> f <$> m) (Item.declaration <$> f <$> p) Eq :=
    h.map fun _ _ => congrArg Item.declaration
  cases kind with
  | comment => exact Guide.tracks_comment.give Comment.relabel_same _
  | emptyLine => exact Guide.tracks_emptyLine.give EmptyLine.relabel_same _
  | attributeLine => exact Guide.tracks_attributeLine.give Attribute.relabel_same _
  | optionLine => exact Guide.tracks_optionLine.give OptionLine.relabel_same _
  | constantGroup =>
    exact hdeclaration (Guide.tracks_constantGroup.give ConstantGroup.relabel_same _)
  | enumeration => exact hdeclaration (Guide.tracks_enumeration.give Enumeration.relabel_same _)
  | record => exact hdeclaration (Guide.tracks_record.give Record.relabel_same _)
  | externalProcedure => exact Guide.tracks_externalProcedure.give Declaration.relabel_same _
  | event => exact hdeclaration ((Guide.tracks_plainHead _ _ _).give Head.relabel_same _)
  | variableGroup =>
    exact hdeclaration (Guide.tracks_variableGroup.give VariableGroup.relabel_same _)
  | sub =>
    exact (Guide.tracks_definition _ (Guide.tracks_plainHead _ _ _) _).give
      (Definition.relabel_same Head.relabel_same) _
  | function =>
    exact (Guide.tracks_definition _ Guide.tracks_functionHead _).give
      (Definition.relabel_same FunctionHead.relabel_same) _
  | property =>
    exact (Guide.tracks_definition _ Guide.tracks_propertyHead _).give
      (Definition.relabel_same PropertyHead.relabel_same) _

theorem tracks_choice (c : Cursor) : Guide.same.Tracks .kept (choice c) (choose c) Eq := by
  unfold choice choose
  cases next c with
  | none => exact Guide.tracks_unmatched
  | some kind => exact tracks_routine kind

end ItemKind

end Grammar

namespace Routine

open Grammar.ItemKind (next choice)

/-- The alternatives for an item, tried in their order, come to the one that is told before any is
tried; only where that is a group of variables, or nothing, may the text be left unmatched. -/
theorem item_alike_choice (s : Session) :
    item.Alike (choice s.cursor) s ∧
      ∀ kind, next s.cursor = some kind → kind ≠ .variableGroup →
        (item.run s).step ≠ .unmatched := by
  have hitem : Guide.same.Tracks .kept item Grammar.item Eq :=
    Guide.tracks_item.exact Item.relabel_same
  constructor
  · exact hitem.alike (Grammar.ItemKind.tracks_choice s.cursor)
      (Grammar.item_eq_choose s.inside s.cursor)
  · intro kind h hkind hunmatched
    have hmiss := hitem.step_eq_unmatched_iff.mp hunmatched
    rw [Grammar.ItemKind.item_eq_parse h] at hmiss
    exact Grammar.ItemKind.parse_ne_unmatched hkind h hmiss

/-- After a modifier `Const` tells a group of constants, though it may also be the name of a
variable. -/
theorem item_ne_unmatched_const :
    let s := Session.start "Public Const = 1" Settings.standard
    next s.cursor = some .constantGroup ∧ (item.run s).step ≠ .unmatched := by
  intro s
  have h : next s.cursor = some .constantGroup := by decide +kernel
  exact ⟨h, (item_alike_choice s).2 .constantGroup h (by decide)⟩

end Routine

end VisualBasic
