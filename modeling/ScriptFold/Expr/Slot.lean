import ScriptFold.Expr

/-!
Slots: the named places of a node that hold the nodes below it.

A slot holds one node or a list. Asking for a slot that a node does not have, or for one node
where there is a list, is an error of the asker.
-/

namespace ScriptFold

inductive NodeKind
  | nullLiteral
  | booleanLiteral
  | numericLiteral
  | stringLiteral
  | identifier
  | arrayExpression
  | objectExpression
  | objectProperty
  | spreadElement
  | memberExpression
  | callExpression
  | assignmentExpression
  | binaryExpression
  | logicalExpression
  | unaryExpression
  | conditionalExpression
  | sequenceExpression
  | invalid
deriving DecidableEq, Repr

def NodeKind.text : NodeKind → String
  | nullLiteral => "NullLiteral"
  | booleanLiteral => "BooleanLiteral"
  | numericLiteral => "NumericLiteral"
  | stringLiteral => "StringLiteral"
  | identifier => "Identifier"
  | arrayExpression => "ArrayExpression"
  | objectExpression => "ObjectExpression"
  | objectProperty => "ObjectProperty"
  | spreadElement => "SpreadElement"
  | memberExpression => "MemberExpression"
  | callExpression => "CallExpression"
  | assignmentExpression => "AssignmentExpression"
  | binaryExpression => "BinaryExpression"
  | logicalExpression => "LogicalExpression"
  | unaryExpression => "UnaryExpression"
  | conditionalExpression => "ConditionalExpression"
  | sequenceExpression => "SequenceExpression"
  | invalid => "Invalid"

def Expr.kind : Expr → NodeKind
  | .null .. => .nullLiteral
  | .bool .. => .booleanLiteral
  | .number .. => .numericLiteral
  | .string .. => .stringLiteral
  | .ident .. => .identifier
  | .array .. => .arrayExpression
  | .object .. => .objectExpression
  | .property .. => .objectProperty
  | .spread .. => .spreadElement
  | .member .. => .memberExpression
  | .call .. => .callExpression
  | .assign .. => .assignmentExpression
  | .binary .. => .binaryExpression
  | .logical .. => .logicalExpression
  | .unary .. => .unaryExpression
  | .conditional .. => .conditionalExpression
  | .sequence .. => .sequenceExpression
  | .invalid .. => .invalid

/-- A node as messages name it. -/
structure NodeName where
  kind : NodeKind
  id : NodeId
deriving DecidableEq, Repr

def Expr.nodeName (e : Expr) : NodeName := ⟨e.kind, e.id⟩

def NodeName.text (n : NodeName) : String := s!"{n.kind.text}#{n.id}"

def NodeName.phrase (n : NodeName) : String := s!"{n.kind.text} #{n.id}"

/-- The names of slots. Assignments have their target on the left and their value on the right. -/
inductive Slot
  | callee
  | arguments
  | left
  | right
  | object
  | property
  | test
  | consequent
  | alternate
  | argument
  | elements
  | properties
  | key
  | value
  | expressions
deriving DecidableEq, Repr

namespace Slot

def all : List Slot := [callee, arguments, left, right, object, property, test, consequent,
  alternate, argument, elements, properties, key, value, expressions]

def text : Slot → String
  | callee => "callee"
  | arguments => "arguments"
  | left => "left"
  | right => "right"
  | object => "object"
  | property => "property"
  | test => "test"
  | consequent => "consequent"
  | alternate => "alternate"
  | argument => "argument"
  | elements => "elements"
  | properties => "properties"
  | key => "key"
  | value => "value"
  | expressions => "expressions"

def ofText? (t : String) : Option Slot := all.find? (·.text = t)

theorem ofText?_text (s : Slot) : ofText? s.text = some s := by cases s <;> rfl

end Slot

/-- What a slot holds. Only array elements may be missing. -/
inductive SlotContent
  | single (e : Expr)
  | list (es : List (Option Expr))

/-- The nodes that a slot holds, without holes. -/
def SlotContent.nodes : SlotContent → List Expr
  | single e => [e]
  | list es => es.filterMap fun e => e

inductive SlotError
  /-- One node was asked for, and there is a list. -/
  | expectedSingle (node : NodeName) (slot : Slot)
  /-- A list was asked for, and there is one node. -/
  | expectedList (node : NodeName) (slot : Slot)
  | missing (node : NodeName) (slot : Slot)
deriving DecidableEq, Repr

def SlotError.message : SlotError → String
  | expectedSingle n s => s!"expected a single node in `{s.text}` of {n.phrase}, found a list"
  | expectedList n s => s!"expected a list in `{s.text}` of {n.phrase}, found a single node"
  | missing n s => s!"{n.phrase} has no `{s.text}` slot"

namespace Expr

def slots : Expr → List (Slot × SlotContent)
  | .null _ | .bool _ _ | .number _ _ | .string _ _ | .ident _ _ | .invalid _ => []
  | .array _ es => [(.elements, .list es)]
  | .object _ ms => [(.properties, .list (ms.map some))]
  | .property _ k v _ _ => [(.key, .single k), (.value, .single v)]
  | .spread _ a => [(.argument, .single a)]
  | .member _ o p _ _ => [(.object, .single o), (.property, .single p)]
  | .call _ f xs _ => [(.callee, .single f), (.arguments, .list (xs.map some))]
  | .assign _ _ t v => [(.left, .single t), (.right, .single v)]
  | .binary _ _ l r => [(.left, .single l), (.right, .single r)]
  | .logical _ _ l r => [(.left, .single l), (.right, .single r)]
  | .unary _ _ a => [(.argument, .single a)]
  | .conditional _ t c a => [(.test, .single t), (.consequent, .single c), (.alternate, .single a)]
  | .sequence _ es => [(.expressions, .list (es.map some))]

theorem nodes_list_some (es : List Expr) : (SlotContent.list (es.map some)).nodes = es := by
  simp only [SlotContent.nodes]
  induction es with
  | nil => rfl
  | cons e es ih => simp only [List.map_cons, List.filterMap_cons, ih]

def get (e : Expr) (slot : Slot) : Except SlotError SlotContent :=
  match e.slots.lookup slot with
  | some content => .ok content
  | none => .error (.missing e.nodeName slot)

def child (e : Expr) (slot : Slot) : Except SlotError Expr := do
  match ← e.get slot with
  | .single node => return node
  | .list _ => throw (.expectedSingle e.nodeName slot)

def list (e : Expr) (slot : Slot) : Except SlotError (List (Option Expr)) := do
  match ← e.get slot with
  | .list nodes => return nodes
  | .single _ => throw (.expectedList e.nodeName slot)

end Expr

end ScriptFold
