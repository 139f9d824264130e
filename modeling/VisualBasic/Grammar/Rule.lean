import VisualBasic.Grammar.Module
import VisualBasic.Tree.Json

/-!
# The rules of the grammar

Every rule that may be run on its own, with its parser. The tree that a rule builds is given as
JSON, so that the parsers of all rules have one type.
-/

set_option autoImplicit false

namespace VisualBasic

inductive Rule where
  | module | item | comment | emptyLine | attributeLine | optionLine
  | declaration | declaredVariable | typeName | variableGroup | constantGroup | record | enumeration
  | parameter | parameters | parameterList | externalSub | externalFunction | eventHead
  | subHead | functionHead | propertyHead | letterHead | setterHead | getterHead
  | subDefinition | functionDefinition | propertyDefinition
  | expression | literal | call | qualifier | reference
  | block | statement | assignment | localVariables | redim | exit | jump | onError | resume | label
  | explicitCall | implicitCall | raiseEvent | whileLoop | doLoop | forLoop
  | conditional | withBlock
  | select
  deriving DecidableEq, Repr

namespace Rule

open Grammar Parse

/-- A statement of one kind, without the mark of its kind. -/
def bare (p : Parse Statement) : Parse Json := (fun s => s.toJson.untagged) <$> p

def parse : Rule → Parse Json
  | .module => Module.toJson <$> Grammar.module
  | .item => Item.toJson <$> Grammar.item
  | .comment => Comment.toJson <$> read Grammar.comment
  | .emptyLine => EmptyLine.toJson <$> read Grammar.emptyLine
  | .attributeLine => Attribute.toJson <$> Grammar.attributeLine
  | .optionLine => OptionLine.toJson <$> Grammar.optionLine
  | .declaration => Declaration.toJson <$> Grammar.declaration
  | .declaredVariable => Variable.toJson <$> Grammar.declaredVariable
  | .typeName => Json.text <$> Grammar.typeName
  | .variableGroup => VariableGroup.toJson <$> Grammar.variableGroup
  | .constantGroup => ConstantGroup.toJson <$> Grammar.constantGroup
  | .record => Record.toJson <$> Grammar.record
  | .enumeration => Enumeration.toJson <$> Grammar.enumeration
  | .parameter => Parameter.toJson <$> Grammar.parameter
  | .parameters => Json.ofList Parameter.toJson <$> Grammar.parameters
  | .parameterList => Json.ofList Parameter.toJson <$> Grammar.parameterList
  | .externalSub => External.toJson <$> Grammar.externalSub
  | .externalFunction => ExternalFunction.toJson <$> Grammar.externalFunction
  | .eventHead => Head.toJson <$> Grammar.eventHead
  | .subHead => Head.toJson <$> Grammar.subHead
  | .functionHead => FunctionHead.toJson <$> Grammar.functionHead
  | .propertyHead => PropertyHead.toJson <$> Grammar.propertyHead
  | .letterHead => Head.toJson <$> Grammar.letterHead
  | .setterHead => Head.toJson <$> Grammar.setterHead
  | .getterHead => FunctionHead.toJson <$> Grammar.getterHead
  | .subDefinition => Definition.toJson Head.toJson <$> Grammar.subDefinition
  | .functionDefinition => Definition.toJson FunctionHead.toJson <$> Grammar.functionDefinition
  | .propertyDefinition => Definition.toJson PropertyHead.toJson <$> Grammar.propertyDefinition
  | .expression => Expression.toJson <$> read Grammar.expression
  | .literal => Literal.toJson <$> read Grammar.literal
  | .call => Call.toJson <$> read (Grammar.call Grammar.expression)
  | .qualifier => Qualifier.toJson <$> read fun c => some (Grammar.qualifier Grammar.expression c)
  | .reference => Reference.toJson <$> read (Grammar.reference Grammar.expression)
  | .block => (fun b => Json.array (blockToJson b)) <$> Grammar.block
  | .statement => Statement.toJson <$> Grammar.statement
  | .assignment => bare Grammar.assignment
  | .localVariables => bare Grammar.localVariables
  | .redim => bare Grammar.redim
  | .exit => bare Grammar.exit
  | .jump => bare Grammar.jump
  | .onError => bare Grammar.onError
  | .resume => bare Grammar.resume
  | .label => bare Grammar.label
  | .explicitCall => bare Grammar.explicitCall
  | .implicitCall => bare Grammar.implicitCall
  | .raiseEvent => bare Grammar.raiseEvent
  | .whileLoop => bare (Grammar.whileLoop Grammar.block)
  | .doLoop => Statement.toJson <$> Grammar.doLoop Grammar.block
  | .forLoop => Statement.toJson <$> Grammar.forLoop Grammar.block
  | .conditional => bare (Grammar.conditional Grammar.block)
  | .withBlock => bare (Grammar.withBlock Grammar.block)
  | .select => bare (Grammar.select Grammar.block)

end Rule

end VisualBasic
