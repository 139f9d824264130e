import VisualBasic.Grammar.Rule
import VisualBasic.Routine.Module

/-!
# The routines of the rules

Every rule with the routine that runs it.
-/

set_option autoImplicit false

namespace VisualBasic

namespace Rule

open Routine (reported)

/-- A statement of one kind, without the mark of its kind. -/
def plain (m : Routine Statement) : Routine Json := (fun s => s.toJson.untagged) <$> m

def routine : Rule → Routine Json
  | .module => Module.toJson <$> reported Routine.module
  | .item => Item.toJson <$> Routine.item
  | .comment => Comment.toJson <$> Routine.comment
  | .emptyLine => EmptyLine.toJson <$> Routine.emptyLine
  | .attributeLine => Attribute.toJson <$> Routine.attributeLine
  | .optionLine => OptionLine.toJson <$> Routine.optionLine
  | .declaration => Declaration.toJson <$> Routine.declaration
  | .declaredVariable => Variable.toJson <$> Routine.declaredVariable
  | .typeName => Json.text <$> Routine.typeName
  | .variableGroup => VariableGroup.toJson <$> Routine.variableGroup
  | .constantGroup => ConstantGroup.toJson <$> Routine.constantGroup
  | .record => Record.toJson <$> Routine.record
  | .enumeration => Enumeration.toJson <$> Routine.enumeration
  | .parameter => Parameter.toJson <$> Routine.parameter
  | .parameters => Json.ofList Parameter.toJson <$> Routine.parameters
  | .parameterList => Json.ofList Parameter.toJson <$> Routine.parameterList
  | .externalSub => External.toJson <$> Routine.externalSub
  | .externalFunction => ExternalFunction.toJson <$> Routine.externalFunction
  | .eventHead => Head.toJson <$> Routine.eventHead
  | .subHead => Head.toJson <$> Routine.subHead
  | .functionHead => FunctionHead.toJson <$> Routine.functionHead
  | .propertyHead => PropertyHead.toJson <$> Routine.propertyHead
  | .letterHead => Head.toJson <$> Routine.letterHead
  | .setterHead => Head.toJson <$> Routine.setterHead
  | .getterHead => FunctionHead.toJson <$> Routine.getterHead
  | .subDefinition => Definition.toJson Head.toJson <$> Routine.subDefinition
  | .functionDefinition => Definition.toJson FunctionHead.toJson <$> Routine.functionDefinition
  | .propertyDefinition => Definition.toJson PropertyHead.toJson <$> Routine.propertyDefinition
  | .expression => Expression.toJson <$> Routine.expression
  | .literal => Literal.toJson <$> Routine.literal
  | .call => Call.toJson <$> Routine.call Routine.expression
  | .qualifier => Qualifier.toJson <$> Routine.qualifier Routine.expression
  | .reference => Reference.toJson <$> Routine.anyReference
  | .block => (fun b => Json.array (blockToJson b)) <$> Routine.block
  | .statement => Statement.toJson <$> Routine.statement
  | .assignment => plain Routine.assignment
  | .localVariables => plain Routine.localVariables
  | .redim => plain Routine.redim
  | .exit => plain Routine.exit
  | .jump => plain Routine.jump
  | .onError => plain Routine.onError
  | .resume => plain Routine.resume
  | .label => plain Routine.label
  | .explicitCall => plain Routine.explicitCall
  | .implicitCall => plain Routine.implicitCall
  | .raiseEvent => plain Routine.raiseEvent
  | .whileLoop => plain (Routine.whileLoop Routine.block)
  | .doLoop => Statement.toJson <$> Routine.doLoop Routine.block
  | .forLoop => Statement.toJson <$> Routine.forLoop Routine.block
  | .conditional => plain (Routine.conditional Routine.block)
  | .withBlock => plain (Routine.withBlock Routine.block)
  | .select => plain (Routine.select Routine.block)

end Rule

end VisualBasic
