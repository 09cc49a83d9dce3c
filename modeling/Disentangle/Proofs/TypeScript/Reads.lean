import Disentangle.Extraction
import Mathlib.Data.List.Perm.Basic

/-!
Which names are found in an expression. Reading an expression evaluates every name that stands in
it as a value, but of a chain of members, calls and instances only the name at its left end and the
arguments of its last call are looked at. What stands further inside, in the arguments of a call
whose result is used, or in a list or an object at the left end, is passed over. Everything else
is found.
-/

namespace Disentangle.TypeScript

mutual

/-- The names that stand as values in an expression, in the order of the text, with repeats. -/
def Expression.values : Expression → List Text
  | .name n => [n]
  | .member e => e.values
  | .call e given => e.values ++ valuesOfAll given
  | .tagged e => e.values
  | .construct e given => e.values ++ valuesOfAll given
  | .array elements => valuesOfAll elements
  | .object properties => valuesOfProperties properties
  | .other => []

def valuesOfAll : List Expression → List Text
  | [] => []
  | e :: rest => e.values ++ valuesOfAll rest

def Property.values : Property → List Text
  | .pair value => value.values
  | .shorthand name => [name]
  | .other => []

def valuesOfProperties : List Property → List Text
  | [] => []
  | p :: rest => p.values ++ valuesOfProperties rest

end

/-- The names that stand as values in a chain elsewhere than at its left end. -/
def Expression.alongChain : Expression → List Text
  | .name _ => []
  | .member e => e.alongChain
  | .call e given => e.alongChain ++ valuesOfAll given
  | .tagged e => e.alongChain
  | .construct e given => e.alongChain ++ valuesOfAll given
  | .array elements => valuesOfAll elements
  | .object properties => valuesOfProperties properties
  | .other => []

mutual

/-- The names that stand as values inside of a chain: neither at its left end nor in the arguments
of its last call. -/
def Expression.passedOver : Expression → List Text
  | .name _ => []
  | .member e => e.alongChain
  | .call e given => e.alongChain ++ passedOverInAll given
  | .tagged e => e.alongChain
  | .construct e given => e.alongChain ++ passedOverInAll given
  | .array elements => passedOverInAll elements
  | .object properties => passedOverInProperties properties
  | .other => []

def passedOverInAll : List Expression → List Text
  | [] => []
  | e :: rest => e.passedOver ++ passedOverInAll rest

def Property.passedOver : Property → List Text
  | .pair value => value.passedOver
  | .shorthand _ => []
  | .other => []

def passedOverInProperties : List Property → List Text
  | [] => []
  | p :: rest => p.passedOver ++ passedOverInProperties rest

end

/-- A chain has the name at its left end, if there is one, and what stands along it. -/
theorem Expression.values_eq_root : ∀ e : Expression, e.values = e.root?.toList ++ e.alongChain
  | .name n => rfl
  | .member e => by rw [values, root?, alongChain, e.values_eq_root]
  | .call e given => by rw [values, root?, alongChain, e.values_eq_root, List.append_assoc]
  | .tagged e => by rw [values, root?, alongChain, e.values_eq_root]
  | .construct e given => by rw [values, root?, alongChain, e.values_eq_root, List.append_assoc]
  | .array _ | .object _ | .other => rfl

/-- Two lists that were each divided in two, put together. -/
theorem append_perm {found found' passed passed' values values' : List Text}
    (h : values.Perm (found ++ passed)) (h' : values'.Perm (found' ++ passed')) :
    (values ++ values').Perm (found ++ found' ++ (passed ++ passed')) := by
  refine (h.append h').trans ?_
  rw [List.append_assoc, List.append_assoc]
  exact (List.perm_append_comm_assoc passed found' passed').append_left found

mutual

/-- What stands in an expression is found or passed over. -/
theorem Expression.values_perm : ∀ e : Expression, e.values.Perm (e.reads ++ e.passedOver)
  | .name n => .refl _
  | .member e => by
    rw [Expression.values, Expression.reads, Expression.passedOver, e.values_eq_root]
  | .call e given => by
    rw [Expression.values, Expression.reads, Expression.passedOver, e.values_eq_root]
    exact append_perm (.refl _) (valuesOfAll_perm given)
  | .tagged e => by
    rw [Expression.values, Expression.reads, Expression.passedOver, e.values_eq_root]
  | .construct e given => by
    rw [Expression.values, Expression.reads, Expression.passedOver, e.values_eq_root]
    exact append_perm (.refl _) (valuesOfAll_perm given)
  | .array elements => valuesOfAll_perm elements
  | .object properties => valuesOfProperties_perm properties
  | .other => .nil

theorem valuesOfAll_perm : ∀ expressions : List Expression,
    (valuesOfAll expressions).Perm (readsOfAll expressions ++ passedOverInAll expressions)
  | [] => .nil
  | e :: rest => append_perm e.values_perm (valuesOfAll_perm rest)

theorem Property.values_perm : ∀ p : Property, p.values.Perm (p.reads ++ p.passedOver)
  | .pair value => value.values_perm
  | .shorthand _ => .refl _
  | .other => .nil

theorem valuesOfProperties_perm : ∀ properties : List Property,
    (valuesOfProperties properties).Perm
      (readsOfProperties properties ++ passedOverInProperties properties)
  | [] => .nil
  | p :: rest => append_perm p.values_perm (valuesOfProperties_perm rest)

end

mutual

/-- Nothing is found that does not stand there, and it is found in the order of the text. -/
theorem Expression.reads_sublist : ∀ e : Expression, e.reads.Sublist e.values
  | .name n => .refl _
  | .member e => by
    rw [Expression.values, Expression.reads, e.values_eq_root]
    exact List.sublist_append_left _ _
  | .call e given => by
    rw [Expression.values, Expression.reads, e.values_eq_root]
    exact (List.sublist_append_left _ _).append (readsOfAll_sublist given)
  | .tagged e => by
    rw [Expression.values, Expression.reads, e.values_eq_root]
    exact List.sublist_append_left _ _
  | .construct e given => by
    rw [Expression.values, Expression.reads, e.values_eq_root]
    exact (List.sublist_append_left _ _).append (readsOfAll_sublist given)
  | .array elements => readsOfAll_sublist elements
  | .object properties => readsOfProperties_sublist properties
  | .other => .slnil

theorem readsOfAll_sublist : ∀ expressions : List Expression,
    (readsOfAll expressions).Sublist (valuesOfAll expressions)
  | [] => .slnil
  | e :: rest => e.reads_sublist.append (readsOfAll_sublist rest)

theorem Property.reads_sublist : ∀ p : Property, p.reads.Sublist p.values
  | .pair value => value.reads_sublist
  | .shorthand _ => .refl _
  | .other => .slnil

theorem readsOfProperties_sublist : ∀ properties : List Property,
    (readsOfProperties properties).Sublist (valuesOfProperties properties)
  | [] => .slnil
  | p :: rest => p.reads_sublist.append (readsOfProperties_sublist rest)

end

/-- What is found in an expression are names that stand in it as values, in the order of the text.
These are all of them, repeats counted, exactly when none stands inside of a chain; and no name
goes unnoticed exactly when each that stands inside of a chain is found elsewhere as well. -/
theorem Expression.reads_eq_values_iff (e : Expression) :
    e.reads.Sublist e.values ∧ (e.reads = e.values ↔ e.passedOver = []) ∧
      ((∀ n ∈ e.values, n ∈ e.reads) ↔ ∀ n ∈ e.passedOver, n ∈ e.reads) := by
  have hperm := e.values_perm
  refine ⟨e.reads_sublist, ?_, ?_⟩
  · have hlength := hperm.length_eq
    rw [List.length_append] at hlength
    constructor
    · intro heq
      rw [heq] at hlength
      exact List.length_eq_zero_iff.mp (by omega)
    · intro hnone
      rw [hnone, List.length_nil, Nat.add_zero] at hlength
      exact e.reads_sublist.eq_of_length hlength.symm
  · simp only [hperm.mem_iff, List.mem_append]
    constructor
    · intro hall n hn
      exact hall n (Or.inr hn)
    · rintro hall n (hn | hn)
      · exact hn
      · exact hall n hn

/-- The argument of a call whose result is used: it stands there as a value, and it is not found.
So a source whose variable gets such a value does not need the name. -/
theorem Expression.reads_passes_over_argument :
    let e : Expression := .member (.call (.name ['f']) [.name ['a']])
    let text : Text := "import \x7b f, a \x7d from './m';\nexport const x = f(a).b;\n".toList
    e.values = [['f'], ['a']] ∧ e.reads = [['f']] ∧ ¬ (∀ n ∈ e.values, n ∈ e.reads) ∧
      ∃ found ∈ Extraction.ofSource? ['/'] "/p/x.ts".toList text,
        (∃ line ∈ found.record.imports, line.names = [['f'], ['a']]) ∧
          found.record.needs ['f'] = true ∧ found.record.needs ['a'] = false := by
  decide +kernel

end Disentangle.TypeScript
