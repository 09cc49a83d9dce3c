import Disentangle.TypeScript.Grammar

/-!
The bindings that an expression reads as soon as it is evaluated. Only chains of members, calls
and instances, lists and objects are looked into; a function, for one, reads nothing until it is
called.
-/

namespace Disentangle.TypeScript

/-- The name at the left end of a chain of members, calls and instances. -/
def Expression.root? : Expression → Option Text
  | .name n => some n
  | .member e => e.root?
  | .call e _ => e.root?
  | .tagged e => e.root?
  | .construct e _ => e.root?
  | .array _ | .object _ | .other => none

mutual

/-- The names that an expression reads, in the order of the text, with repeats. -/
def Expression.reads : Expression → List Text
  | .name n => [n]
  | .member e => e.root?.toList
  | .call e given => e.root?.toList ++ readsOfAll given
  | .tagged e => e.root?.toList
  | .construct e given => e.root?.toList ++ readsOfAll given
  | .array elements => readsOfAll elements
  | .object properties => readsOfProperties properties
  | .other => []

/-- The names that the expressions of a list read. -/
def readsOfAll : List Expression → List Text
  | [] => []
  | e :: rest => e.reads ++ readsOfAll rest

def Property.reads : Property → List Text
  | .pair value => value.reads
  | .shorthand name => [name]
  | .other => []

/-- The names that the properties of a list read. -/
def readsOfProperties : List Property → List Text
  | [] => []
  | p :: rest => p.reads ++ readsOfProperties rest

end

end Disentangle.TypeScript
