import VisualBasic.Json
import VisualBasic.Tree.Module

/-!
# Trees as JSON

A structure becomes an object with its fields in a fixed order. A case with data becomes an object
whose one field is the name of the case, a case without data its name as a text.
-/

set_option autoImplicit false

namespace VisualBasic

def Json.natural (n : Nat) : Json := .integer n

def Span.toJson (span : Span) : Json :=
  .object [("start", .natural span.start), ("end", .natural span.stop)]

def Radix.suffix : Radix → String
  | .decimal => "Dec"
  | .hexadecimal => "Hex"
  | .octal => "Oct"

def Literal.toJson : Literal → Json
  | .single bits => .tagged "Single" (.single bits)
  | .double bits => .tagged "Double" (.double bits)
  | .long radix value => .tagged ("Long" ++ radix.suffix) (.integer value.toInt)
  | .integer radix value => .tagged ("Integer" ++ radix.suffix) (.integer value.toInt)
  | .string value => .tagged "String" (.text value)
  | .boolean value => .tagged "Boolean" (.bool value)
  | .nothing => .text "Nothing"

mutual

def Expression.toJson : Expression → Json
  | .literal value span => .tagged "Literal" (.array [value.toJson, span.toJson])
  | .reference target => .tagged "Variable" target.toJson
  | .call function => .tagged "Call" function.toJson

def Call.toJson : Call → Json
  | ⟨name, arguments, span⟩ =>
    .object [("name", .text name), ("args", .array (expressionsToJson arguments)),
      ("span", span.toJson)]

def expressionsToJson : List Expression → List Json
  | [] => []
  | e :: rest => e.toJson :: expressionsToJson rest

def Segment.toJson : Segment → Json
  | .name text => .tagged "Name" (.text text)
  | .call function => .tagged "Call" function.toJson

def segmentsToJson : List Segment → List Json
  | [] => []
  | s :: rest => s.toJson :: segmentsToJson rest

def Qualifier.toJson : Qualifier → Json
  | ⟨leadingDot, segments, span⟩ =>
    .object [("leading_dot", .bool leadingDot), ("elements", .array (segmentsToJson segments)),
      ("span", span.toJson)]

def Reference.toJson : Reference → Json
  | ⟨qualifier, name, span⟩ =>
    .object [("context", qualifier.toJson), ("name", .text name), ("span", span.toJson)]

end

def Access.name : Access → String
  | .Unwritten => "Na"
  | .Dim => "Dim"
  | .Global => "Global"
  | .Public => "Public"
  | .Private => "Private"
  | .Friend => "Friend"

def Access.toJson (access : Access) : Json := .text access.name

def Passing.toJson : Passing → Json
  | .ByVal => .text "ByVal"
  | .ByRef => .text "ByRef"

def NativeType.name : NativeType → String
  | .boolean => "Boolean"
  | .byte => "Byte"
  | .integer => "Integer"
  | .long => "Long"
  | .single => "Single"
  | .double => "Double"
  | .currency => "Currency"
  | .date => "Date"
  | .string => "String"
  | .object => "Object"
  | .variant => "Variant"
  | .nonNative => "NonNative"

def ArrayBound.toJson (bound : ArrayBound) : Json :=
  .object
    [("lower", .ofOption (fun lower => .integer lower.toInt) bound.lower),
      ("upper", .integer bound.upper.toInt)]

def Variable.toJson (declared : Variable) : Json :=
  .object
    [("name", .text declared.name), ("type_name", .ofOption .text declared.typeName),
      ("construct", .bool declared.isNew),
      ("array", .ofOption (.ofList ArrayBound.toJson) declared.bounds),
      ("span", declared.span.toJson)]

def VariableGroup.toJson (group : VariableGroup) : Json :=
  .object
    [("access", group.access.toJson), ("with_events", .bool group.withEvents),
      ("vars", .ofList Variable.toJson group.members), ("span", group.span.toJson)]

def Constant.toJson (constant : Constant) : Json :=
  .object [("var", constant.declared.toJson), ("value", constant.value.toJson)]

def ConstantGroup.toJson (group : ConstantGroup) : Json :=
  .object
    [("access", group.access.toJson), ("consts", .ofList Constant.toJson group.constants),
      ("span", group.span.toJson)]

def Record.toJson (record : Record) : Json :=
  .object
    [("access", record.access.toJson), ("name", .text record.name),
      ("members", .ofList Variable.toJson record.members), ("span", record.span.toJson)]

def EnumItem.toJson (item : EnumItem) : Json :=
  .object [("name", .text item.name), ("value", .ofOption Literal.toJson item.value)]

def Enumeration.toJson (declared : Enumeration) : Json :=
  .object
    [("access", declared.access.toJson), ("name", .text declared.name),
      ("items", .ofList EnumItem.toJson declared.items), ("span", declared.span.toJson)]

def Parameter.toJson (parameter : Parameter) : Json :=
  .object
    [("optional", .bool parameter.isOptional),
      ("qualifier", .ofOption Passing.toJson parameter.passing),
      ("param_array", .bool parameter.isParamArray), ("var", parameter.declared.toJson),
      ("default", .ofOption Literal.toJson parameter.default)]

def External.fields (declared : External) : List (String × Json) :=
  [("access", declared.access.toJson), ("name", .text declared.name),
    ("lib", .text declared.library), ("alias", .ofOption .text declared.entryPoint),
    ("params", .ofList Parameter.toJson declared.parameters)]

def External.toJson (declared : External) : Json :=
  .object (declared.fields ++ [("span", declared.span.toJson)])

def ExternalFunction.toJson (declared : ExternalFunction) : Json :=
  .object
    (declared.fields ++
      [("return_type", .ofOption .text declared.returnType), ("span", declared.span.toJson)])

def Head.fields (head : Head) : List (String × Json) :=
  [("access", head.access.toJson), ("name", .text head.name),
    ("params", .ofList Parameter.toJson head.parameters)]

def Head.toJson (head : Head) : Json := .object (head.fields ++ [("span", head.span.toJson)])

def FunctionHead.toJson (head : FunctionHead) : Json :=
  .object
    (head.fields ++ [("return_type", .ofOption .text head.returnType), ("span", head.span.toJson)])

def PropertyHead.toJson : PropertyHead → Json
  | .letter head => .tagged "Let" head.toJson
  | .setter head => .tagged "Set" head.toJson
  | .getter head => .tagged "Get" head.toJson

def Declaration.toJson : Declaration → Json
  | .variableGroup group => .tagged "GlobalVars" group.toJson
  | .constantGroup group => .tagged "Consts" group.toJson
  | .enumeration declared => .tagged "Enum" declared.toJson
  | .record declared => .tagged "Record" declared.toJson
  | .externalSub declared => .tagged "ExternalSub" declared.toJson
  | .externalFunction declared => .tagged "ExternalFunction" declared.toJson
  | .event head => .tagged "Event" head.toJson

def Comment.toJson (comment : Comment) : Json :=
  .object [("content", .text comment.content), ("span", comment.span.toJson)]

def EmptyLine.toJson (line : EmptyLine) : Json := .object [("span", line.span.toJson)]

def AssignmentKind.toJson : AssignmentKind → Json
  | .Unwritten => .text "Na"
  | .Let => .text "Let"
  | .Set => .text "Set"

def LocalKind.toJson : LocalKind → Json
  | .Dim => .text "Dim"
  | .Static => .text "Static"

def JumpKind.toJson : JumpKind → Json
  | .GoTo => .text "GoTo"
  | .GoSub => .text "GoSub"

def ExitKind.toJson : ExitKind → Json
  | .Sub => .text "Sub"
  | .Function => .text "Function"
  | .Property => .text "Property"
  | .Do => .text "Do"
  | .While => .text "While"
  | .For => .text "For"

def ErrorResponse.toJson : ErrorResponse → Json
  | .goToZero => .text "GoTo0"
  | .goToMinusOne => .text "GoToNeg1"
  | .goToLabel label => .tagged "GoToLabel" (.text label)
  | .exitSub => .text "ExitSub"
  | .exitFunction => .text "ExitFunction"
  | .exitProperty => .text "ExitProperty"
  | .resumeNext => .text "ResumeNext"

def ResumePoint.toJson : ResumePoint → Json
  | .unwritten => .text "Implicit"
  | .next => .text "Next"
  | .label name => .tagged "Label" (.text name)
  | .line number => .tagged "LineNumber" (.integer number.toInt)

def CaseClause.toJson : CaseClause → Json
  | .value expression => .tagged "Value" expression.toJson
  | .range first last => .tagged "Range" (.array [first.toJson, last.toJson])
  | .relational relation bound =>
    .tagged "Relational" (.array [.text relation.name, bound.toJson])

def LoopTest.tag (first : Bool) (test : LoopTest) : String :=
  (if first then "Do" else "Loop") ++ (if test.isWhile then "While" else "Until")

mutual

def Statement.toJson : Statement → Json
  | .comment note => .tagged "Comment" note.toJson
  | .emptyLine line => .tagged "EmptyLine" line.toJson
  | .assign kind target value span =>
    .tagged "Assign" <| .object
      [("kind", kind.toJson), ("target", target.toJson), ("value", value.toJson),
        ("span", span.toJson)]
  | .localVariables kind declared span =>
    .tagged "LocalVarDecl" <| .object
      [("kind", kind.toJson), ("vars", .ofList Variable.toJson declared), ("span", span.toJson)]
  | .redim isPreserved array dimensions span =>
    .tagged "ReDim" <| .object
      [("preserve", .bool isPreserved), ("var", array.toJson),
        ("dims", .ofList Expression.toJson dimensions), ("span", span.toJson)]
  | .exit kind span => .tagged "Exit" <| .object [("kind", kind.toJson), ("span", span.toJson)]
  | .jump kind label span =>
    .tagged "Goto" <| .object
      [("kind", kind.toJson), ("label", .text label), ("span", span.toJson)]
  | .onError response span =>
    .tagged "OnError" <| .object [("target", response.toJson), ("span", span.toJson)]
  | .resume point span =>
    .tagged "Resume" <| .object [("target", point.toJson), ("span", span.toJson)]
  | .label name span => .tagged "Label" <| .object [("label", .text name), ("span", span.toJson)]
  | .call procedure arguments isExplicit span =>
    .tagged "Call" <| .object
      [("sub_name", .text procedure), ("args", .ofList Expression.toJson arguments),
        ("explicit", .bool isExplicit), ("span", span.toJson)]
  | .raiseEvent event arguments span =>
    .tagged "RaiseEvent" <| .object
      [("event_name", .text event), ("args", .ofList Expression.toJson arguments),
        ("span", span.toJson)]
  | .whileLoop condition body span =>
    .tagged "While" <| .object
      [("condition", condition.toJson), ("block", .array (blockToJson body)),
        ("span", span.toJson)]
  | .endlessLoop body span =>
    .tagged "Do" <| .object [("block", .array (blockToJson body)), ("span", span.toJson)]
  | .testFirstLoop test body span =>
    .tagged (test.tag true) <| .object
      [("condition", test.condition.toJson), ("block", .array (blockToJson body)),
        ("span", span.toJson)]
  | .testLastLoop body test span =>
    .tagged (test.tag false) <| .object
      [("condition", test.condition.toJson), ("block", .array (blockToJson body)),
        ("span", span.toJson)]
  | .forLoop counter first last step body span =>
    .tagged "For" <| .object
      [("var", counter.toJson), ("from", first.toJson), ("to", last.toJson),
        ("step", .ofOption Expression.toJson step), ("block", .array (blockToJson body)),
        ("span", span.toJson)]
  | .forEach element collection body span =>
    .tagged "ForEach" <| .object
      [("var", element.toJson), ("container", collection.toJson),
        ("block", .array (blockToJson body)), ("span", span.toJson)]
  | .conditional first others otherwise span =>
    .tagged "If" <| .object
      [("first_branch", first.toJson), ("elseif_branches", .array (branchesToJson others)),
        ("else_block", optionalBlockToJson otherwise), ("span", span.toJson)]
  | .withBlock target body span =>
    .tagged "With" <| .object
      [("target", target.toJson), ("block", .array (blockToJson body)), ("span", span.toJson)]
  | .select subject cases otherwise span =>
    .tagged "Select" <| .object
      [("condition", subject.toJson), ("cases", .array (casesToJson cases)),
        ("else_block", optionalBlockToJson otherwise), ("span", span.toJson)]

def Branch.toJson : Branch → Json
  | ⟨condition, body, span⟩ =>
    .object
      [("condition", condition.toJson), ("block", .array (blockToJson body)),
        ("span", span.toJson)]

def branchesToJson : List Branch → List Json
  | [] => []
  | b :: rest => b.toJson :: branchesToJson rest

def CaseBlock.toJson : CaseBlock → Json
  | ⟨clauses, body, span⟩ =>
    .object
      [("clauses", .ofList CaseClause.toJson clauses), ("block", .array (blockToJson body)),
        ("span", span.toJson)]

def casesToJson : List CaseBlock → List Json
  | [] => []
  | c :: rest => c.toJson :: casesToJson rest

def optionalBlockToJson : Option (List Statement) → Json
  | none => .null
  | some block => .array (blockToJson block)

def blockToJson : List Statement → List Json
  | [] => []
  | s :: rest => s.toJson :: blockToJson rest

end

def Attribute.toJson (entry : Attribute) : Json :=
  .object [("name", .text entry.name), ("value", .text entry.value), ("span", entry.span.toJson)]

def ModuleOption.toJson (option : ModuleOption) : Json := .text option.name

def OptionLine.toJson (line : OptionLine) : Json :=
  .object [("option", line.option.toJson), ("span", line.span.toJson)]

def Definition.toJson {η : Type} (headToJson : η → Json) (definition : Definition η) : Json :=
  .object
    [("head", headToJson definition.head), ("body", .array (blockToJson definition.body)),
      ("span", definition.span.toJson)]

def Procedure.toJson : Procedure → Json
  | .sub definition => .tagged "Sub" (definition.toJson Head.toJson)
  | .function definition => .tagged "Function" (definition.toJson FunctionHead.toJson)
  | .property definition => .tagged "Property" (definition.toJson PropertyHead.toJson)

def Item.toJson : Item → Json
  | .comment note => .tagged "Comment" note.toJson
  | .emptyLine line => .tagged "EmptyLine" line.toJson
  | .attributeLine entry => .tagged "Attribute" entry.toJson
  | .optionLine line => .tagged "Option" line.toJson
  | .declaration declared => .tagged "Declaration" declared.toJson
  | .procedure definition => definition.toJson

def Module.toJson (module : Module) : Json := .object [("items", .ofList Item.toJson module.items)]

end VisualBasic
