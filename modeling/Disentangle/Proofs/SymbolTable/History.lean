import Disentangle.Proofs.Claims
import Mathlib.Data.Finset.Card
import Mathlib.Data.List.Induction
import Mathlib.Data.List.Perm.Basic
import Mathlib.Order.Bounds.Basic

/-!
What a table remembers of the claims made in it, one after another, failed ones included. Every name
belongs to the path that claimed it first, whatever comes later, so the first claim that fails is
the earliest one of a name that another path has claimed before. Whether a claim fails at all is
decided by the claims and not by their order, and so are the owners where none
fails. -/

namespace Disentangle.SymbolTable

/-- A claim that the file at a path makes on a name. -/
structure Claim where
  path : Text
  name : Text
  deriving DecidableEq

/-- Makes a claim, if it does not fail. -/
def attempt (table : SymbolTable) (claim : Claim) : SymbolTable :=
  match table.claim claim.path claim.name with
  | .ok table => table
  | .error _ => table

/-- A fresh table after claims one after another, failed ones included. -/
def after (claims : List Claim) : SymbolTable :=
  claims.foldl attempt empty

/-- The claim behind the first `i` ones fails. -/
def FailsAt (claims : List Claim) (i : Nat) (reason : Failure) : Prop :=
  ∃ claim, claims[i]? = some claim ∧
    (after (claims.take i)).claim claim.path claim.name = .error reason

/-- The claim behind the first `i` ones is on a name that another path has claimed before. -/
def ContestsAt (claims : List Claim) (i : Nat) : Prop :=
  ∃ claim, claims[i]? = some claim ∧
    ∃ earlier ∈ claims.take i, earlier.name = claim.name ∧ earlier.path ≠ claim.path

/-- The path of the first claim on a name. -/
def firstPath? (claims : List Claim) (name : Text) : Option Text :=
  (claims.find? (·.name = name)).map (·.path)

/-- No name is claimed by two paths. -/
def Agree (claims : List Claim) : Prop :=
  ∀ a ∈ claims, ∀ b ∈ claims, a.name = b.name → a.path = b.path

variable {table : SymbolTable} {claims claims' : List Claim} {claim : Claim} {name path : Text}
  {i : Nat} {reason : Failure}

section FirstPath

theorem firstPath?_concat (claims : List Claim) (claim : Claim) (name : Text) :
    firstPath? (claims ++ [claim]) name =
      (firstPath? claims name).or (if name = claim.name then some claim.path else none) := by
  rw [firstPath?, List.find?_append, firstPath?]
  cases claims.find? (·.name = name) with
  | some first => rfl
  | none =>
    by_cases hname : name = claim.name
    · simp [hname]
    · simp [hname, Ne.symm hname]

theorem firstPath?_of_prefix (h : claims <+: claims')
    (hfirst : firstPath? claims name = some path) :
    firstPath? claims' name = some path := by
  obtain ⟨first, hfind, rfl⟩ := Option.map_eq_some_iff.mp hfirst
  obtain ⟨later, rfl⟩ := h
  rw [firstPath?, List.find?_append, hfind]
  rfl

theorem exists_of_firstPath? (h : firstPath? claims name = some path) :
    ∃ first ∈ claims, first.name = name ∧ first.path = path := by
  obtain ⟨first, hfirst, rfl⟩ := Option.map_eq_some_iff.mp h
  exact ⟨first, List.mem_of_find?_eq_some hfirst, by simpa using List.find?_some hfirst, rfl⟩

theorem firstPath?_isSome_iff :
    (firstPath? claims name).isSome = true ↔ name ∈ claims.map (·.name) := by
  rw [firstPath?, Option.isSome_map, List.find?_isSome]
  simp

/-- Where no name is claimed by two paths, every claim tells the first path. -/
theorem Agree.firstPath?_eq_some_iff (h : Agree claims) :
    firstPath? claims name = some path ↔ ⟨path, name⟩ ∈ claims := by
  constructor
  · intro hfirst
    obtain ⟨first, hmem, rfl, rfl⟩ := exists_of_firstPath? hfirst
    exact hmem
  · intro hmem
    have hsome : (firstPath? claims name).isSome = true :=
      firstPath?_isSome_iff.mpr (List.mem_map_of_mem (f := (·.name)) hmem)
    obtain ⟨path', hfirst⟩ := Option.isSome_iff_exists.mp hsome
    obtain ⟨first, hfirst', hname, rfl⟩ := exists_of_firstPath? hfirst
    rw [hfirst, h first hfirst' _ hmem hname]

end FirstPath

section Attempt

/-- A claim fails where its name belongs to another path. -/
theorem claim_eq_error_iff :
    table.claim path name = .error reason ↔
      ∃ owner, table.owner? name = some owner ∧ owner ≠ path ∧
        reason = .nameCollision name owner path := by
  rw [claim]
  cases table.owner? name with
  | none => simp
  | some owner =>
    by_cases hsame : owner = path
    · simp [hsame]
    · simp only [hsame, if_false]
      constructor
      · rintro ⟨⟩
        exact ⟨owner, rfl, hsame, rfl⟩
      · rintro ⟨_, ⟨⟩, -, rfl⟩
        rfl

theorem attempt_of_error (h : table.claim claim.path claim.name = .error reason) :
    table.attempt claim = table := by
  rw [attempt, h]

/-- A claim that is made changes a table only where the name has no owner. -/
theorem attempt_eq (table : SymbolTable) (claim : Claim) :
    table.attempt claim =
      match table.owner? claim.name with
      | some _ => table
      | none => ⟨table.owners ++ [(claim.name, claim.path)]⟩ := by
  rw [attempt, SymbolTable.claim]
  cases table.owner? claim.name with
  | none => rfl
  | some owner =>
    by_cases hsame : owner = claim.path
    · simp [hsame]
    · simp [hsame]

theorem owner?_attempt (table : SymbolTable) (claim : Claim) (name : Text) :
    (table.attempt claim).owner? name =
      (table.owner? name).or (if name = claim.name then some claim.path else none) := by
  rw [attempt_eq]
  cases howner : table.owner? claim.name with
  | none => exact owner?_append table.owners claim.name claim.path name
  | some owner =>
    by_cases hname : name = claim.name
    · simp [hname, howner]
    · simp [hname]

end Attempt

section After

theorem after_concat (claims : List Claim) (claim : Claim) :
    after (claims ++ [claim]) = (after claims).attempt claim := by
  rw [after, List.foldl_append]
  rfl

theorem after_take_succ (h : claims[i]? = some claim) :
    after (claims.take (i + 1)) = (after (claims.take i)).attempt claim := by
  rw [List.take_add_one, h, Option.toList_some, after_concat]

/-- A name belongs to the path that claimed it first. -/
theorem owner?_after (claims : List Claim) (name : Text) :
    (after claims).owner? name = firstPath? claims name := by
  induction claims using List.reverseRecOn with
  | nil => rfl
  | append_singleton claims claim ih =>
    rw [after_concat, owner?_attempt, ih, firstPath?_concat]

theorem contains_after_iff :
    (after claims).contains name = true ↔ name ∈ claims.map (·.name) := by
  rw [contains, owner?_after, firstPath?_isSome_iff]

/-- A table has one entry for each name that was claimed. -/
theorem size_after (claims : List Claim) :
    (after claims).size = (claims.map (·.name)).toFinset.card := by
  induction claims using List.reverseRecOn with
  | nil => rfl
  | append_singleton claims claim ih =>
    have hnames : ((claims ++ [claim]).map (·.name)).toFinset =
        insert claim.name (claims.map (·.name)).toFinset := by
      ext name
      simp
    rw [after_concat, hnames, attempt_eq, owner?_after]
    cases hfirst : firstPath? claims claim.name with
    | some path =>
      have hmem : claim.name ∈ claims.map (·.name) :=
        firstPath?_isSome_iff.mp (Option.isSome_iff_exists.mpr ⟨path, hfirst⟩)
      rw [Finset.insert_eq_of_mem (List.mem_toFinset.mpr hmem)]
      exact ih
    | none =>
      have hnew : claim.name ∉ claims.map (·.name) := by
        rw [← firstPath?_isSome_iff, hfirst]
        exact Bool.false_ne_true
      rw [Finset.card_insert_of_notMem (List.mem_toFinset.not.mpr hnew), ← ih]
      simp [size]

/-- A claim fails exactly where the first claim on its name was that of another path. -/
theorem failsAt_iff :
    FailsAt claims i reason ↔ ∃ claim first, claims[i]? = some claim ∧
      firstPath? (claims.take i) claim.name = some first ∧ first ≠ claim.path ∧
        reason = .nameCollision claim.name first claim.path := by
  simp only [FailsAt, claim_eq_error_iff, owner?_after, exists_and_left]

theorem after_take_succ_of_failsAt (h : FailsAt claims i reason) :
    after (claims.take (i + 1)) = after (claims.take i) := by
  obtain ⟨claim, hget, hfails⟩ := h
  rw [after_take_succ hget, attempt_of_error hfails]

end After

section Order

theorem contestsAt_of_failsAt (h : FailsAt claims i reason) : ContestsAt claims i := by
  obtain ⟨claim, first, hget, hfirst, hne, -⟩ := failsAt_iff.mp h
  obtain ⟨earlier, hmem, hname, rfl⟩ := exists_of_firstPath? hfirst
  exact ⟨claim, hget, earlier, hmem, hname, hne⟩

/-- Where another path has claimed the name before, this claim fails or an earlier one has: one of
the two paths is not that of the first claim on the name. -/
theorem exists_failsAt_of_contestsAt (h : ContestsAt claims i) :
    ∃ j ≤ i, ∃ reason, FailsAt claims j reason := by
  obtain ⟨claim, hget, earlier, hmem, hname, hne⟩ := h
  obtain ⟨j, hj, hearlier⟩ := List.mem_take_iff_getElem.mp hmem
  have hji : j < i := by omega
  have hget' : claims[j]? = some earlier := List.getElem?_eq_some_iff.mpr ⟨by omega, hearlier⟩
  have hbehind : firstPath? (claims.take (j + 1)) claim.name =
      (firstPath? (claims.take j) claim.name).or (some earlier.path) := by
    rw [List.take_add_one, hget', Option.toList_some, firstPath?_concat, if_pos hname.symm]
  have hprefix : claims.take (j + 1) <+: claims.take i := List.take_prefix_take_left hji
  cases hfirst : firstPath? (claims.take j) claim.name with
  | none =>
    -- The earlier claim is the first one on the name, so this one fails.
    rw [hfirst, Option.none_or] at hbehind
    exact ⟨i, le_rfl, _, failsAt_iff.mpr
      ⟨claim, earlier.path, hget, firstPath?_of_prefix hprefix hbehind, hne, rfl⟩⟩
  | some first =>
    rw [hfirst, Option.some_or] at hbehind
    by_cases hsame : first = earlier.path
    · exact ⟨i, le_rfl, _, failsAt_iff.mpr
        ⟨claim, first, hget, firstPath?_of_prefix hprefix hbehind, hsame ▸ hne, rfl⟩⟩
    · exact ⟨j, hji.le, _, failsAt_iff.mpr
        ⟨earlier, first, hget', hname ▸ hfirst, hsame, rfl⟩⟩

theorem isLeast_failsAt_iff :
    IsLeast {i | ∃ reason, FailsAt claims i reason} i ↔ IsLeast {i | ContestsAt claims i} i := by
  constructor
  · rintro ⟨⟨reason, hfails⟩, hleast⟩
    refine ⟨contestsAt_of_failsAt hfails, fun j hj => ?_⟩
    obtain ⟨k, hkj, hk⟩ := exists_failsAt_of_contestsAt hj
    exact (hleast hk).trans hkj
  · rintro ⟨hcontests, hleast⟩
    have hbelow (j : Nat) (hj : ∃ reason, FailsAt claims j reason) : i ≤ j := by
      obtain ⟨reason, hfails⟩ := hj
      exact hleast (contestsAt_of_failsAt hfails)
    obtain ⟨j, hji, hj⟩ := exists_failsAt_of_contestsAt hcontests
    have hsame : j = i := le_antisymm hji (hbelow j hj)
    exact ⟨hsame ▸ hj, hbelow⟩

/-- Of two different claims on one name the later one contests the earlier one. -/
theorem contestsAt_of_lt {a b : Claim} {j : Nat} (hij : i < j) (ha : claims[i]? = some a)
    (hb : claims[j]? = some b) (hname : a.name = b.name) (hpath : a.path ≠ b.path) :
    ContestsAt claims j := by
  refine ⟨b, hb, a, ?_, hname, hpath⟩
  have hget : (claims.take j)[i]? = some a := by rw [List.getElem?_take_of_lt hij, ha]
  exact List.mem_of_getElem? hget

/-- Some claim fails exactly if two paths claim one name. -/
theorem exists_failsAt_iff : (∃ i reason, FailsAt claims i reason) ↔ ¬ Agree claims := by
  constructor
  · rintro ⟨i, reason, hfails⟩ hagree
    obtain ⟨claim, hget, earlier, hmem, hname, hne⟩ := contestsAt_of_failsAt hfails
    exact hne (hagree _ (List.mem_of_mem_take hmem) _ (List.mem_of_getElem? hget) hname)
  · intro hnot
    obtain ⟨i, hi⟩ : ∃ i, ContestsAt claims i := by
      by_contra hnone
      refine hnot fun a ha b hb hname => ?_
      by_contra hpath
      obtain ⟨i, hi⟩ := List.mem_iff_getElem?.mp ha
      obtain ⟨j, hj⟩ := List.mem_iff_getElem?.mp hb
      rcases Nat.lt_trichotomy i j with hij | rfl | hji
      · exact hnone ⟨j, contestsAt_of_lt hij hi hj hname hpath⟩
      · cases hi.symm.trans hj
        exact hpath rfl
      · exact hnone ⟨i, contestsAt_of_lt hji hj hi hname.symm (Ne.symm hpath)⟩
    obtain ⟨j, -, hj⟩ := exists_failsAt_of_contestsAt hi
    exact ⟨j, hj⟩

theorem agree_iff_of_perm (h : claims.Perm claims') : Agree claims ↔ Agree claims' := by
  simp only [Agree, h.mem_iff]

theorem owner?_after_of_perm (h : claims.Perm claims') (hagree : Agree claims) (name : Text) :
    (after claims).owner? name = (after claims').owner? name := by
  have hagree' : Agree claims' := (agree_iff_of_perm h).mp hagree
  apply Option.ext
  intro path
  rw [owner?_after, owner?_after, hagree.firstPath?_eq_some_iff, hagree'.firstPath?_eq_some_iff,
    h.mem_iff]

end Order

/-- What comes of claims in a fresh table, whatever they are. The first one that fails is the
earliest one of a name that another path has claimed before. A failure tells the name, the path that
claimed it first and the new one, and leaves the table as it was. After the first `k` claims, failed
ones included, each name belongs to the path that claimed it first, a name is contained exactly if
it was claimed, and there are as many entries as names that were claimed. In another order the
claims have a failure as well or none, and if none, every name has the same owner. -/
theorem after_claims (claims : List Claim) :
    (∀ i, IsLeast {i | ∃ reason, FailsAt claims i reason} i ↔
        IsLeast {i | ContestsAt claims i} i) ∧
      (∀ i reason, FailsAt claims i reason →
        (∃ claim first, claims[i]? = some claim ∧
          firstPath? (claims.take i) claim.name = some first ∧ first ≠ claim.path ∧
          reason = .nameCollision claim.name first claim.path) ∧
        after (claims.take (i + 1)) = after (claims.take i)) ∧
      (∀ k, (∀ name, (after (claims.take k)).owner? name = firstPath? (claims.take k) name) ∧
        (∀ name, (after (claims.take k)).contains name = true ↔
          name ∈ (claims.take k).map (·.name)) ∧
        (∀ names, (after (claims.take k)).covers names = true ↔
          ∀ name ∈ names, name ∈ (claims.take k).map (·.name)) ∧
        (after (claims.take k)).size = ((claims.take k).map (·.name)).toFinset.card) ∧
      ∀ claims', claims.Perm claims' →
        ((∃ i reason, FailsAt claims i reason) ↔ ∃ i reason, FailsAt claims' i reason) ∧
        ((¬ ∃ i reason, FailsAt claims i reason) →
          ∀ name, (after claims).owner? name = (after claims').owner? name) := by
  refine ⟨fun i => isLeast_failsAt_iff, fun i reason hfails => ?_, fun k => ?_,
    fun claims' hperm => ?_⟩
  · exact ⟨failsAt_iff.mp hfails, after_take_succ_of_failsAt hfails⟩
  · refine ⟨owner?_after _, fun name => contains_after_iff, fun names => ?_, size_after _⟩
    simp only [covers, List.all_eq_true, contains_after_iff]
  · rw [exists_failsAt_iff, exists_failsAt_iff, not_not]
    exact ⟨not_congr (agree_iff_of_perm hperm), owner?_after_of_perm hperm⟩

/-- Two files claim one name: the second claim fails, and claims go on behind it. In the opposite
order one of the two fails as well. -/
theorem after_claims_two_paths :
    let claims : List Claim := [⟨['a'], ['n']⟩, ⟨['b'], ['n']⟩, ⟨['b'], ['m']⟩]
    FailsAt claims 1 (.nameCollision ['n'] ['a'] ['b']) ∧
      IsLeast {i | ContestsAt claims i} 1 ∧
      after (claims.take 2) = after (claims.take 1) ∧
      (after claims).owner? ['n'] = some ['a'] ∧ (after claims).size = 2 ∧
      ∃ i reason, FailsAt claims.reverse i reason := by
  intro claims
  have hfails : FailsAt claims 1 (.nameCollision ['n'] ['a'] ['b']) := ⟨_, rfl, rfl⟩
  have hfirst : ¬ ∃ reason, FailsAt claims 0 reason := by
    rintro ⟨reason, claim, hget, hfails⟩
    cases hget
    cases hfails
  obtain ⟨hleast, hfailure, hprefix, horder⟩ := after_claims claims
  have hcontests : IsLeast {i | ContestsAt claims i} 1 := by
    refine (hleast 1).mp ⟨⟨_, hfails⟩, fun j hj => ?_⟩
    exact Nat.one_le_iff_ne_zero.mpr fun hzero => hfirst (hzero ▸ hj)
  obtain ⟨howner, -, -, hsize⟩ := hprefix 3
  exact ⟨hfails, hcontests, (hfailure 1 _ hfails).2, howner ['n'], hsize,
    (horder _ (List.reverse_perm claims).symm).1.mp ⟨1, _, hfails⟩⟩

end Disentangle.SymbolTable
