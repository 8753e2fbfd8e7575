import EmberClasses.Script.Tree

/-!
What may be assigned to. An array or object literal is read as an expression first; where it turns
out to be assigned to, it becomes a pattern.
-/

namespace EmberClasses.Script

/-- Whether an expression is a single place that can be assigned to. -/
def Node.isPlace : Node → Bool
  | ⟨.identifier _, _, _⟩ => true
  | ⟨.member _, _, _⟩ => true
  | ⟨.privateMember, _, _⟩ => true
  | ⟨.index, _, _⟩ => true
  | ⟨.paren, _, [inner]⟩ => inner.isPlace
  | ⟨.nonNull, _, [inner]⟩ => inner.isPlace
  | ⟨.cast, _, [first, second]⟩ => first.isPlace || (first.kind = .type && second.isPlace)
  | _ => false

/-- Whether the rest of an object, if it is taken, goes to a single place. -/
def Node.hasPlainRest (properties : List Node) : Bool :=
  properties.all fun p => p.kind ≠ .spread || p.children.all Node.isPlace

mutual

/-- The pattern that an expression stands for when it is assigned to. -/
def Node.toTarget : Node → Option Node
  | ⟨.array, span, elements⟩ => (Node.toTargets elements).map fun ns => ⟨.arrayPattern, span, ns⟩
  | ⟨.object, span, properties⟩ =>
    if Node.hasPlainRest properties then
      (Node.toTargets properties).map fun ns => ⟨.objectPattern, span, ns⟩
    else none
  | n => if n.isPlace then some n else none

/-- A part of a pattern: a target, perhaps with an initial value, a property or the rest. -/
def Node.toPart : Node → Option Node
  | ⟨.assignment true, span, children⟩ => some ⟨.defaulted, span, children⟩
  | ⟨.spread, span, [inner]⟩ => inner.toTarget.map fun n => ⟨.rest, span, [n]⟩
  | ⟨.coverProperty, span, children⟩ =>
    some ⟨.patternProperty, span, [⟨.defaulted, span, children⟩]⟩
  | ⟨.property _, span, [name]⟩ =>
    if name.isPlace then some ⟨.patternProperty, span, [name]⟩ else none
  | ⟨.property form, span, [key, value]⟩ =>
    if form.method || form.accessor != .plain then none
    else
      let key := if form.computed then key else key.asLabel
      value.toPart.map fun n => ⟨.patternProperty, span, [key, n]⟩
  | ⟨.array, span, elements⟩ => (Node.toTargets elements).map fun ns => ⟨.arrayPattern, span, ns⟩
  | ⟨.object, span, properties⟩ =>
    if Node.hasPlainRest properties then
      (Node.toTargets properties).map fun ns => ⟨.objectPattern, span, ns⟩
    else none
  | n => if n.isPlace then some n else none

/-- The parts of a pattern. Nothing follows the rest. -/
def Node.toTargets : List Node → Option (List Node)
  | [] => some []
  | n :: ns =>
    if n.kind == .spread && !ns.isEmpty then none
    else
      match n.toPart, Node.toTargets ns with
      | some m, some ms => some (m :: ms)
      | _, _ => none

end

end EmberClasses.Script
