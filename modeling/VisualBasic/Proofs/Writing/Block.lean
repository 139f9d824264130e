import VisualBasic.Proofs.Lookahead.Statement
import VisualBasic.Proofs.Writing.Line

/-!
# Writing blocks

A statement is written line by line: a compound one as the line that introduces its block, the lines
of the block and the words that close it. A block may be followed by whatever begins with a word
that closes one.
-/

set_option autoImplicit false

namespace VisualBasic

variable {wide : Bool} {text token rest : List Char}

/-! ## What statements are written as -/

/-- The condition of a loop, after its word. -/
def LoopTest.write (wide : Bool) (test : LoopTest) (rest : List Char) : List Char :=
  (if test.isWhile then Keyword.While else .Until).write (' ' :: test.condition.write wide rest)

/-- The test at one end of a loop, where it is written. -/
def writeTest (wide : Bool) : Option LoopTest → List Char → List Char
  | none, rest => rest
  | some test, rest => ' ' :: test.write wide rest

def Relation.sign : Relation → List Char
  | .less => ['<']
  | .greater => ['>']
  | .lessEqual => ['<', '=']
  | .greaterEqual => ['>', '=']
  | .equal => ['=']
  | .notEqual => ['<', '>']

def CaseClause.write (wide : Bool) : CaseClause → List Char → List Char
  | .value subject, rest => subject.write wide rest
  | .range first last, rest =>
    first.write wide (' ' :: Keyword.To.write (' ' :: last.write wide rest))
  | .relational relation bound, rest =>
    Keyword.Is.write (' ' :: (relation.sign ++ ' ' :: bound.write wide rest))

/-- The words before the last block of a selection. -/
def writeCaseElse (rest : List Char) : List Char :=
  Keyword.Case.write (' ' :: Keyword.Else.write rest)

/-- The step of a counting loop, where it is written. -/
def writeStep (wide : Bool) : Option Expression → List Char → List Char
  | none, rest => rest
  | some step, rest => ' ' :: Keyword.Step.write (' ' :: step.write wide rest)

def Comment.write (note : Comment) (rest : List Char) : List Char :=
  '\x27' :: (note.content.toList ++ '\n' :: rest)

mutual

def Statement.write (wide : Bool) : Statement → List Char → List Char
  | .comment note, rest => note.write rest
  | .emptyLine _, rest => '\n' :: rest
  | .assign kind target value _, rest =>
    writeWord kind.keyword?
      (target.write wide (' ' :: '=' :: ' ' :: value.write wide ('\n' :: rest)))
  | .localVariables kind declared _, rest =>
    kind.keyword.write (' ' :: writeSeparated wide (Variable.write wide) declared ('\n' :: rest))
  | .redim isPreserved array dimensions _, rest =>
    Keyword.ReDim.write (' ' :: writeWord (if isPreserved then some .Preserve else none)
      (array.write wide ('(' :: writeArguments wide dimensions ('\n' :: rest))))
  | .exit kind _, rest => Keyword.Exit.write (' ' :: kind.keyword.write ('\n' :: rest))
  | .jump kind label _, rest => kind.keyword.write (' ' :: (label.toList ++ '\n' :: rest))
  | .onError response _, rest =>
    Keyword.On.write (' ' :: Keyword.Error.write (' ' :: response.write ('\n' :: rest)))
  | .resume point _, rest => Keyword.Resume.write (point.write ('\n' :: rest))
  | .label name _, rest => name.toList ++ ':' :: '\n' :: rest
  | .call procedure values true _, rest =>
    Keyword.Call.write
      (' ' :: (procedure.toList ++ '(' :: writeArguments wide values ('\n' :: rest)))
  | .call procedure values false _, rest =>
    procedure.toList ++ writeLoose wide values ('\n' :: rest)
  | .raiseEvent event values _, rest =>
    Keyword.RaiseEvent.write
      (' ' :: (event.toList ++ '(' :: writeArguments wide values ('\n' :: rest)))
  | .whileLoop condition body _, rest =>
    Keyword.While.write (' ' :: condition.write wide ('\n' ::
      writeBlock wide body (Keyword.Wend.write ('\n' :: rest))))
  | .endlessLoop body _, rest =>
    Keyword.Do.write ('\n' :: writeBlock wide body (Keyword.Loop.write ('\n' :: rest)))
  | .testFirstLoop test body _, rest =>
    Keyword.Do.write (writeTest wide (some test) ('\n' ::
      writeBlock wide body (Keyword.Loop.write ('\n' :: rest))))
  | .testLastLoop body test _, rest =>
    Keyword.Do.write ('\n' ::
      writeBlock wide body (Keyword.Loop.write (writeTest wide (some test) ('\n' :: rest))))
  | .forLoop counter first last step body _, rest =>
    Keyword.For.write (' ' :: counter.write wide (' ' :: '=' :: ' ' :: first.write wide
      (' ' :: Keyword.To.write (' ' :: last.write wide (writeStep wide step ('\n' ::
        writeBlock wide body (Keyword.Next.write ('\n' :: rest))))))))
  | .forEach element collection body _, rest =>
    Keyword.For.write (' ' :: Keyword.Each.write (' ' :: element.write wide
      (' ' :: Keyword.In.write (' ' :: collection.write wide ('\n' ::
        writeBlock wide body (Keyword.Next.write ('\n' :: rest)))))))
  | .conditional first others otherwise _, rest =>
    first.write wide .If (writeBranches wide others
      (writeOtherwise wide Keyword.Else.write otherwise (writeEnd .If rest)))
  | .withBlock target body _, rest =>
    Keyword.With.write (' ' :: target.write wide ('\n' ::
      writeBlock wide body (writeEnd .With rest)))
  | .select subject cases otherwise _, rest =>
    Keyword.Select.write (' ' :: Keyword.Case.write (' ' :: subject.write wide ('\n' ::
      writeCases wide cases (writeOtherwise wide writeCaseElse otherwise (writeEnd .Select rest)))))

def writeBlock (wide : Bool) : List Statement → List Char → List Char
  | [], rest => rest
  | s :: others, rest => s.write wide (writeBlock wide others rest)

/-- The last block of a statement, under the words that introduce it. -/
def writeOtherwise (wide : Bool) (introduce : List Char → List Char) :
    Option (List Statement) → List Char → List Char
  | none, rest => rest
  | some body, rest => introduce ('\n' :: writeBlock wide body rest)

def Branch.write (wide : Bool) : Branch → Keyword → List Char → List Char
  | ⟨condition, body, _⟩, k, rest =>
    k.write (' ' :: condition.write wide (' ' :: Keyword.Then.write ('\n' ::
      writeBlock wide body rest)))

def writeBranches (wide : Bool) : List Branch → List Char → List Char
  | [], rest => rest
  | b :: others, rest => b.write wide .ElseIf (writeBranches wide others rest)

def CaseBlock.write (wide : Bool) : CaseBlock → List Char → List Char
  | ⟨clauses, body, _⟩, rest =>
    Keyword.Case.write (' ' :: writeSeparated wide (CaseClause.write wide) clauses ('\n' ::
      writeBlock wide body rest))

def writeCases (wide : Bool) : List CaseBlock → List Char → List Char
  | [], rest => rest
  | b :: others, rest => b.write wide (writeCases wide others rest)

end

/-! ## What can be written -/

def CaseClause.isPrintable : CaseClause → Bool
  | .value subject => subject.isPrintable
  | .range first last => first.isPrintable && last.isPrintable
  | .relational _ bound => bound.isPrintable

mutual

def Statement.isPrintable : Statement → Bool
  | .comment note => isUnbroken note.content
  | .emptyLine _ => true
  | .assign _ target value _ => target.isPrintable && value.isPrintable
  | .localVariables _ declared _ => ! declared.isEmpty && declared.all Variable.isPrintable
  | .redim _ array dimensions _ =>
    array.isPrintable && ! dimensions.isEmpty && arePrintable dimensions
  | .exit _ _ => true
  | .jump _ label _ => isName label
  | .onError response _ => response.isPrintable
  | .resume point _ => point.isPrintable
  | .label name _ => isName name
  | .call procedure values _ _ => isProcedureName procedure && arePrintable values
  | .raiseEvent event values _ => isName event && arePrintable values
  | .whileLoop condition body _ => condition.isPrintable && isBlockPrintable body
  | .endlessLoop body _ => isBlockPrintable body
  | .testFirstLoop test body _ => test.condition.isPrintable && isBlockPrintable body
  | .testLastLoop body test _ => isBlockPrintable body && test.condition.isPrintable
  | .forLoop counter first last step body _ =>
    counter.isPrintable && first.isPrintable && last.isPrintable &&
      step.all Expression.isPrintable && isBlockPrintable body
  | .forEach element collection body _ =>
    element.isPrintable && collection.isPrintable && isBlockPrintable body
  | .conditional first others otherwise _ =>
    first.isPrintable && areBranchesPrintable others && isOtherwisePrintable otherwise
  | .withBlock target body _ => target.isPrintable && isBlockPrintable body
  | .select subject cases otherwise _ =>
    subject.isPrintable && areCasesPrintable cases && isOtherwisePrintable otherwise

def isBlockPrintable : List Statement → Bool
  | [] => true
  | s :: others => s.isPrintable && isBlockPrintable others

def isOtherwisePrintable : Option (List Statement) → Bool
  | none => true
  | some body => isBlockPrintable body

def Branch.isPrintable : Branch → Bool
  | ⟨condition, body, _⟩ => condition.isPrintable && isBlockPrintable body

def areBranchesPrintable : List Branch → Bool
  | [] => true
  | b :: others => b.isPrintable && areBranchesPrintable others

def CaseBlock.isPrintable : CaseBlock → Bool
  | ⟨clauses, body, _⟩ =>
    ! clauses.isEmpty && clauses.all CaseClause.isPrintable && isBlockPrintable body

def areCasesPrintable : List CaseBlock → Bool
  | [] => true
  | b :: others => b.isPrintable && areCasesPrintable others

end

/-! ## Where blocks close -/

/-- A text that begins with a word that closes a block. -/
def ClosesBlock (text : List Char) : Prop :=
  ∃ k : Keyword, Begins text (some k) ∧ k.isReserved = true ∧ k.isStatementWord = false

theorem Keyword.closes_write (k : Keyword) (hr : NoWord rest)
    (h : k.isReserved = true ∧ k.isStatementWord = false) : ClosesBlock (k.write rest) :=
  ⟨k, k.begins_write hr, h⟩

theorem closes_writeEnd (k : Keyword) (rest : List Char) : ClosesBlock (writeEnd k rest) :=
  Keyword.End.closes_write rfl ⟨rfl, rfl⟩

theorem ClosesBlock.beginsCode (h : ClosesBlock text) : BeginsCode text := by
  obtain ⟨k, hbegins, hreserved, _⟩ := h
  refine ⟨some k, hbegins, ?_⟩
  rintro hk
  cases hk
  contradiction

/-- The last block of a statement begins with the words that introduce it, or it is left out. -/
theorem begins_writeOtherwise {introduce : List Char → List Char} {k other : Keyword}
    (wide : Bool) (otherwise : Option (List Statement))
    (hintroduce : ∀ rest, Begins (introduce ('\n' :: rest)) (some k))
    (hr : Begins rest (some other)) :
    ∃ word, (word = k ∨ word = other) ∧
      Begins (writeOtherwise wide introduce otherwise rest) (some word) := by
  cases otherwise with
  | none => exact ⟨other, .inr rfl, hr⟩
  | some body => exact ⟨k, .inl rfl, hintroduce _⟩

theorem Branch.solid_write (b : Branch) (wide : Bool) (k : Keyword) (rest : List Char) :
    Solid (b.write wide k rest) := by
  obtain ⟨condition, body, span⟩ := b
  exact k.solid_write _

theorem Branch.closes_write (b : Branch) (wide : Bool) (rest : List Char) :
    ClosesBlock (b.write wide .ElseIf rest) := by
  obtain ⟨condition, body, span⟩ := b
  exact Keyword.ElseIf.closes_write rfl ⟨rfl, rfl⟩

theorem closes_writeBranches (branches : List Branch) (hr : ClosesBlock rest) :
    ClosesBlock (writeBranches wide branches rest) := by
  cases branches with
  | nil => exact hr
  | cons b others => exact b.closes_write wide _

theorem CaseBlock.solid_write (b : CaseBlock) (wide : Bool) (rest : List Char) :
    Solid (b.write wide rest) := by
  obtain ⟨clauses, body, span⟩ := b
  exact Keyword.Case.solid_write _

theorem CaseBlock.closes_write (b : CaseBlock) (wide : Bool) (rest : List Char) :
    ClosesBlock (b.write wide rest) := by
  obtain ⟨clauses, body, span⟩ := b
  exact Keyword.Case.closes_write rfl ⟨rfl, rfl⟩

theorem closes_writeCases (cases : List CaseBlock) (hr : ClosesBlock rest) :
    ClosesBlock (writeCases wide cases rest) := by
  cases cases with
  | nil => exact hr
  | cons b others => exact b.closes_write wide _

theorem writeBranches_eq_foldr (branches : List Branch) (rest : List Char) :
    writeBranches wide branches rest =
      branches.foldr (fun b rest => b.write wide .ElseIf rest) rest := by
  induction branches with
  | nil => rfl
  | cons b others ih => rw [writeBranches, ih, List.foldr_cons]

theorem writeCases_eq_foldr (cases : List CaseBlock) (rest : List Char) :
    writeCases wide cases rest = cases.foldr (CaseBlock.write wide) rest := by
  induction cases with
  | nil => rfl
  | cons b others ih => rw [writeCases, ih, List.foldr_cons]

end VisualBasic
