import Disentangle.Dependency.Tangles
import Disentangle.Proofs.Dependency.Search
import Mathlib.Order.MinMax

/-!
Tarjan's algorithm finds the strongly connected components. While the search goes along a path,
every vertex on the stack leads back to one of the path that was met before it, and every vertex
of the path leads to all that stands above it on the stack; what is no longer on the stack leads
to nothing that is. So what is taken from the stack when no edge leads further down is a whole
component, and all that it reaches otherwise lies in components closed earlier.
-/

namespace Disentangle.Dependency

open Relation

/-- The members of `group` reach each other, and nothing else does that reaches one of them. -/
def IsComponent {α : Type} (related : α → α → Prop) (group : List α) : Prop :=
  ∀ a ∈ group, ∀ b, b ∈ group ↔ ReflTransGen related a b ∧ ReflTransGen related b a

namespace Trail

variable {before middle after trail : Trail} {above below : List Nat} {u v : Nat}

/-- A search has gone on: it has met more, and what was on the stack is still there below what
it has met since. -/
structure Grows (before after : Trail) : Prop where
  met : before.met <+: after.met
  stack : ∃ above, after.stack = above ++ before.stack ∧ ∀ u ∈ above, u ∉ before.met

theorem Grows.refl (trail : Trail) : trail.Grows trail :=
  ⟨List.prefix_rfl, [], rfl, by simp⟩

theorem Grows.trans (h : before.Grows middle) (h' : middle.Grows after) : before.Grows after := by
  obtain ⟨above, hstack, hnew⟩ := h.stack
  obtain ⟨above', hstack', hnew'⟩ := h'.stack
  refine ⟨h.met.trans h'.met, above' ++ above, ?_, ?_⟩
  · rw [hstack', hstack, List.append_assoc]
  · intro u hu hmet
    rcases List.mem_append.mp hu with hu | hu
    · exact hnew' u hu (h.met.subset hmet)
    · exact hnew u hu hmet

theorem Grows.mem_stack (h : before.Grows after) (hu : u ∈ before.stack) : u ∈ after.stack := by
  obtain ⟨above, hstack, -⟩ := h.stack
  rw [hstack]
  exact List.mem_append_right above hu

theorem Grows.mem_stack_of_met (h : before.Grows after) (hu : u ∈ after.stack)
    (hmet : u ∈ before.met) : u ∈ before.stack := by
  obtain ⟨above, hstack, hnew⟩ := h.stack
  rw [hstack] at hu
  exact (List.mem_append.mp hu).resolve_left fun habove => hnew u habove hmet

theorem number_lt (hu : u ∈ trail.met) : trail.number u < trail.met.length :=
  List.idxOf_lt_length_of_mem hu

theorem number_of_grows (h : before.Grows after) (hu : u ∈ before.met) :
    after.number u = before.number u := by
  obtain ⟨later, hmet⟩ := h.met
  rw [number, number, ← hmet, List.idxOf_append_of_mem hu]

theorem le_number_of_grows (h : before.Grows after) (hu : u ∉ before.met) :
    before.met.length ≤ after.number u := by
  obtain ⟨later, hmet⟩ := h.met
  rw [number, ← hmet, List.idxOf_append_of_notMem hu]
  exact Nat.le_add_right _ _

theorem number_lt_of_grows (h : before.Grows after) (hu : u ∈ before.met) :
    after.number u < before.met.length := by
  rw [number_of_grows h hu]
  exact number_lt hu

theorem number_enter_self (hv : v ∉ trail.met) : (trail.enter v).number v = trail.met.length := by
  simp [number, enter, List.idxOf_append_of_notMem hv]

theorem number_enter (hu : u ∈ trail.met) : (trail.enter v).number u = trail.number u :=
  List.idxOf_append_of_mem hu

theorem grows_enter (hv : v ∉ trail.met) : trail.Grows (trail.enter v) :=
  ⟨List.prefix_append trail.met [v], [v], rfl, by simpa using hv⟩

theorem close_eq (hstack : trail.stack = above ++ v :: below) (hv : v ∉ above) :
    trail.close v = ⟨trail.met, below, trail.components ++ [above ++ [v]]⟩ := by
  have habove : ∀ u ∈ above, decide (u ≠ v) = true := by
    intro u hu
    simpa using fun heq : u = v => hv (heq ▸ hu)
  simp only [close, hstack, List.dropWhile_append_of_pos habove,
    List.takeWhile_append_of_pos habove]
  simp

end Trail

namespace Graph

variable {graph : Graph} {path : List Nat} {trail before after : Trail} {u v w low : Nat}

/-- `w` can be reached from `v`. -/
abbrev Reaches (graph : Graph) : Nat → Nat → Prop := ReflTransGen graph.Edge

/-- What holds of a trail while the search goes along `path`. -/
structure Traced (graph : Graph) (path : List Nat) (trail : Trail) : Prop where
  lt_size : ∀ u ∈ trail.met, u < graph.size
  stack_nodup : trail.stack.Nodup
  stack_met : trail.stack ⊆ trail.met
  path_nodup : path.Nodup
  path_stack : path ⊆ trail.stack
  next_met : ∀ u ∈ trail.met, u ∉ path → ∀ w, graph.Edge u w → w ∈ trail.met
  next_closed : ∀ u ∈ trail.met, u ∉ trail.stack → ∀ w, graph.Edge u w → w ∉ trail.stack
  up : ∀ u ∈ trail.stack, ∃ x ∈ path, trail.number x ≤ trail.number u ∧ graph.Reaches u x
  down : ∀ x ∈ path, ∀ u ∈ trail.stack, trail.number x ≤ trail.number u → graph.Reaches x u
  mem_components : ∀ u, u ∈ trail.components.flatten ↔ u ∈ trail.met ∧ u ∉ trail.stack
  components_nodup : trail.components.flatten.Nodup
  component : ∀ group ∈ trail.components, IsComponent graph.Edge group
  in_order : trail.components.Pairwise fun earlier later =>
    ∀ a ∈ earlier, ∀ b ∈ later, ¬ graph.Reaches a b

/-- What has to hold of a vertex that the search comes to. -/
structure Ahead (graph : Graph) (path : List Nat) (trail : Trail) (v : Nat) : Prop where
  fresh : v ∉ trail.met
  lt_size : v < graph.size
  reached : ∀ x ∈ path, graph.Reaches x v

/-- What a search from `v` comes to. The number that it returns is that of `v` or of a vertex on
the stack that `v` leads back to, and no edge from what it has left on the stack leads to a
vertex with a lower one. -/
structure Explored (graph : Graph) (path : List Nat) (before : Trail) (v : Nat) (after : Trail)
    (low : Nat) : Prop where
  traced : graph.Traced path after
  grows : before.Grows after
  met : v ∈ after.met
  attained : low = after.number v ∨
    ∃ y ∈ before.stack, graph.Reaches v y ∧ after.number y = low
  bound : ∀ u ∈ after.stack, u ∉ before.met → ∀ y ∈ before.stack, graph.Edge u y →
    low ≤ after.number y

/-- The same while the edges that leave `v` are gone along, as far as those to `done`. -/
structure Scanned (graph : Graph) (path : List Nat) (before : Trail) (v : Nat) (done : List Nat)
    (after : Trail) (low : Nat) : Prop where
  traced : graph.Traced (path ++ [v]) after
  grows : (before.enter v).Grows after
  low_le : low ≤ before.met.length
  attained : low = before.met.length ∨
    ∃ y ∈ after.stack, graph.Reaches v y ∧ after.number y = low
  bound : ∀ u ∈ after.stack, u ∉ (before.enter v).met → ∀ y ∈ before.stack, graph.Edge u y →
    low ≤ after.number y
  targets : ∀ w ∈ done, w ∈ after.met ∧ (w ∈ before.stack → low ≤ after.number w)

theorem traced_nil : graph.Traced [] {} where
  lt_size := by simp
  stack_nodup := List.nodup_nil
  stack_met := by simp
  path_nodup := List.nodup_nil
  path_stack := by simp
  next_met := by simp
  next_closed := by simp
  up := by simp
  down := by simp
  mem_components := by simp
  components_nodup := List.nodup_nil
  component := by simp
  in_order := List.Pairwise.nil

/-- What is closed reaches only what is closed. -/
theorem Traced.closed_of_reaches (h : graph.Traced path trail) (hu : u ∈ trail.met)
    (hclosed : u ∉ trail.stack) (hreach : graph.Reaches u w) : w ∈ trail.met ∧ w ∉ trail.stack := by
  induction hreach with
  | refl => exact ⟨hu, hclosed⟩
  | tail _ hedge ih =>
    obtain ⟨hmet, hstack⟩ := ih
    have hpath : _ ∉ path := fun hpath => hstack (h.path_stack hpath)
    exact ⟨h.next_met _ hmet hpath _ hedge, h.next_closed _ hmet hstack _ hedge⟩

theorem Traced.path_length_le (h : graph.Traced path trail) : path.length ≤ graph.size := by
  have hsub : path ⊆ List.range graph.size := fun u hu =>
    List.mem_range.mpr (h.lt_size u (h.stack_met (h.path_stack hu)))
  simpa using h.path_nodup.length_le_of_subset hsub

/-- Without a path the stack is empty. -/
theorem Traced.stack_eq_nil (h : graph.Traced [] trail) : trail.stack = [] := by
  refine List.eq_nil_iff_forall_not_mem.mpr fun u hu => ?_
  obtain ⟨x, hx, -⟩ := h.up u hu
  simp at hx

theorem Traced.enter (h : graph.Traced path trail) (hv : graph.Ahead path trail v) :
    graph.Traced (path ++ [v]) (trail.enter v) := by
  have hnotStack : v ∉ trail.stack := fun hstack => hv.fresh (h.stack_met hstack)
  have hnotPath : v ∉ path := fun hpath => hnotStack (h.path_stack hpath)
  have hnumber : (trail.enter v).number v = trail.met.length := Trail.number_enter_self hv.fresh
  have hlower {u : Nat} (hu : u ∈ trail.stack) :
      (trail.enter v).number u = trail.number u ∧ trail.number u < trail.met.length :=
    ⟨Trail.number_enter (h.stack_met hu), Trail.number_lt (h.stack_met hu)⟩
  constructor
  case lt_size =>
    exact List.forall_mem_append.mpr ⟨h.lt_size, List.forall_mem_singleton.mpr hv.lt_size⟩
  case stack_nodup => exact List.nodup_cons.mpr ⟨hnotStack, h.stack_nodup⟩
  case stack_met =>
    refine List.cons_subset.mpr ⟨List.mem_append_right _ List.mem_cons_self, ?_⟩
    exact List.Subset.trans h.stack_met (List.subset_append_left _ _)
  case path_nodup =>
    rw [← List.concat_eq_append]
    exact h.path_nodup.concat hnotPath
  case path_stack =>
    refine List.append_subset.mpr ⟨?_, by simp [Trail.enter]⟩
    exact List.Subset.trans h.path_stack (List.subset_cons_self _ _)
  case next_met =>
    intro u hu hpath w hedge
    have hold : u ∈ trail.met ∧ u ∉ path := by
      simp only [Trail.enter, List.mem_append, List.mem_singleton, not_or] at hu hpath
      exact ⟨hu.resolve_right hpath.2, hpath.1⟩
    exact List.mem_append_left _ (h.next_met u hold.1 hold.2 w hedge)
  case next_closed =>
    intro u hu hstack w hedge hw
    simp only [Trail.enter, List.mem_append, List.mem_cons, List.not_mem_nil, or_false, not_or]
      at hu hstack hw
    have hmet : u ∈ trail.met := hu.resolve_right hstack.1
    have hclosed := h.closed_of_reaches hmet hstack.2 (.single hedge)
    rcases hw with rfl | hw
    · exact hv.fresh hclosed.1
    · exact hclosed.2 hw
  case up =>
    intro u hu
    rcases List.mem_cons.mp hu with rfl | hu
    · exact ⟨u, by simp, le_rfl, .refl⟩
    · obtain ⟨x, hx, hle, hreach⟩ := h.up u hu
      refine ⟨x, List.mem_append_left _ hx, ?_, hreach⟩
      rwa [(hlower (h.path_stack hx)).1, (hlower hu).1]
  case down =>
    intro x hx u hu hle
    rcases List.mem_append.mp hx with hold | hnew
    · rcases List.mem_cons.mp hu with rfl | hu
      · exact hv.reached x hold
      · rw [(hlower (h.path_stack hold)).1, (hlower hu).1] at hle
        exact h.down x hold u hu hle
    · cases List.mem_singleton.mp hnew
      rcases List.mem_cons.mp hu with rfl | hu
      · exact .refl
      · obtain ⟨hsame, hlt⟩ := hlower hu
        omega
  case mem_components =>
    intro u
    rw [Trail.enter, h.mem_components]
    constructor
    · rintro ⟨hmet, hstack⟩
      have hne : u ≠ v := fun heq => hv.fresh (heq ▸ hmet)
      simp [hmet, hstack, hne]
    · intro hu
      simp only [List.mem_append, List.mem_cons, List.not_mem_nil, or_false, not_or] at hu
      exact ⟨hu.1.resolve_right hu.2.1, hu.2.2⟩
  case components_nodup => exact h.components_nodup
  case component => exact h.component
  case in_order => exact h.in_order

/-- With all that `v` leads to met, `v` need not be told apart from what is not on the path. -/
theorem Traced.next_met_of_last (h : graph.Traced (path ++ [v]) trail)
    (hnext : ∀ w, graph.Edge v w → w ∈ trail.met) (hu : u ∈ trail.met) (hpath : u ∉ path)
    (hedge : graph.Edge u w) : w ∈ trail.met := by
  by_cases huv : u = v
  · exact hnext w (huv ▸ hedge)
  · exact h.next_met u hu (by simp [hpath, huv]) w hedge

/-- A component that is closed reaches nothing that is on the stack. -/
theorem Traced.not_reaches_stack (h : graph.Traced path trail) {group : List Nat}
    (hgroup : group ∈ trail.components) (hu : u ∈ group) (hw : w ∈ trail.stack) :
    ¬ graph.Reaches u w := by
  intro hreach
  obtain ⟨hmet, hclosed⟩ := (h.mem_components u).mp (List.mem_flatten.mpr ⟨group, hgroup, hu⟩)
  exact (h.closed_of_reaches hmet hclosed hreach).2 hw

/-- A vertex is left open when it leads back to one that was met before it. -/
theorem Traced.leave (h : graph.Traced (path ++ [v]) trail)
    (hnext : ∀ w, graph.Edge v w → w ∈ trail.met)
    (hback : ∃ y ∈ trail.stack, graph.Reaches v y ∧ trail.number y < trail.number v) :
    graph.Traced path trail where
  lt_size := h.lt_size
  stack_nodup := h.stack_nodup
  stack_met := h.stack_met
  path_nodup := h.path_nodup.sublist (List.sublist_append_left path [v])
  path_stack := List.Subset.trans (List.subset_append_left path [v]) h.path_stack
  next_met := fun u hu hpath w => h.next_met_of_last hnext hu hpath
  next_closed := h.next_closed
  up := by
    intro u hu
    obtain ⟨x, hx, hle, hreach⟩ := h.up u hu
    rcases List.mem_append.mp hx with hx | hx
    · exact ⟨x, hx, hle, hreach⟩
    · -- What led back to `v` leads on to where `v` leads back to.
      cases List.mem_singleton.mp hx
      obtain ⟨y, hy, hvy, hlt⟩ := hback
      obtain ⟨x', hx', hle', hyx'⟩ := h.up y hy
      have hne : x' ≠ v := by
        rintro rfl
        omega
      have hpath : x' ∈ path := by simpa [hne] using hx'
      exact ⟨x', hpath, by omega, hreach.trans (hvy.trans hyx')⟩
  down := fun x hx => h.down x (List.mem_append_left [v] hx)
  mem_components := h.mem_components
  components_nodup := h.components_nodup
  component := h.component
  in_order := h.in_order

section Close

variable {above below : List Nat}

theorem mem_stack_iff (hstack : trail.stack = above ++ v :: below) :
    u ∈ trail.stack ↔ u ∈ above ++ [v] ∨ u ∈ below := by
  rw [hstack, List.append_cons, List.mem_append]

theorem Traced.notMem_below (h : graph.Traced path trail)
    (hstack : trail.stack = above ++ v :: below) (hu : u ∈ above ++ [v]) : u ∉ below := by
  have hnodup := h.stack_nodup
  rw [hstack, List.append_cons] at hnodup
  exact (List.nodup_append'.mp hnodup).2.2 hu

/-- Everything that a component reaches when no edge leads further down the stack is closed, or
part of the component. -/
theorem Traced.reaches_from_top (h : graph.Traced (path ++ [v]) trail)
    (hstack : trail.stack = above ++ v :: below)
    (hnext : ∀ w, graph.Edge v w → w ∈ trail.met)
    (hpath : ∀ x ∈ path, x ∈ below)
    (hcut : ∀ u ∈ above ++ [v], ∀ y ∈ below, ¬ graph.Edge u y) {a b : Nat}
    (ha : a ∈ above ++ [v]) (hreach : graph.Reaches a b) :
    b ∈ above ++ [v] ∨ b ∈ trail.met ∧ b ∉ trail.stack := by
  induction hreach with
  | refl => exact Or.inl ha
  | @tail c d _ hedge ih =>
    rcases ih with hc | ⟨hmet, hclosed⟩
    · have hmem : c ∈ trail.stack := (mem_stack_iff hstack).mpr (Or.inl hc)
      have hd : d ∈ trail.met := h.next_met_of_last hnext (h.stack_met hmem)
        (fun hc' => h.notMem_below hstack hc (hpath c hc')) hedge
      by_cases hopen : d ∈ trail.stack
      · exact Or.inl (((mem_stack_iff hstack).mp hopen).resolve_right fun hbelow =>
          hcut c hc d hbelow hedge)
      · exact Or.inr ⟨hd, hopen⟩
    · exact Or.inr (h.closed_of_reaches hmet hclosed (.single hedge))

/-- What stands on the stack from `v` upwards reaches each other. -/
theorem Traced.reaches_above (h : graph.Traced (path ++ [v]) trail)
    (hstack : trail.stack = above ++ v :: below)
    (hpath : ∀ x ∈ path, trail.number x < trail.number v)
    (habove : ∀ u ∈ above, trail.number v ≤ trail.number u) {a : Nat} (ha : a ∈ above ++ [v]) :
    graph.Reaches v a ∧ graph.Reaches a v := by
  have hmem : a ∈ trail.stack := (mem_stack_iff hstack).mpr (Or.inl ha)
  have hv : v ∈ trail.stack := by simp [hstack]
  have hle : trail.number v ≤ trail.number a := by
    rcases List.mem_append.mp ha with ha | ha
    · exact habove a ha
    · cases List.mem_singleton.mp ha
      exact le_rfl
  obtain ⟨x, hx, -, hreach⟩ := h.up a hmem
  have hxv : trail.number x ≤ trail.number v := by
    rcases List.mem_append.mp hx with hx' | hx'
    · exact (hpath x hx').le
    · cases List.mem_singleton.mp hx'
      exact le_rfl
  exact ⟨h.down v (by simp) a hmem hle, hreach.trans (h.down x hx v hv hxv)⟩

/-- What stands on the stack from `v` upwards is a component when no edge leads from it to what
stands below. -/
theorem Traced.isComponent_top (h : graph.Traced (path ++ [v]) trail)
    (hstack : trail.stack = above ++ v :: below)
    (hnext : ∀ w, graph.Edge v w → w ∈ trail.met)
    (hpath : ∀ x ∈ path, x ∈ below)
    (hbelow : ∀ y ∈ below, trail.number y < trail.number v)
    (habove : ∀ u ∈ above, trail.number v ≤ trail.number u)
    (hcut : ∀ u ∈ above ++ [v], ∀ y ∈ below, ¬ graph.Edge u y) :
    IsComponent graph.Edge (above ++ [v]) := by
  intro a ha b
  have hmeets {c : Nat} (hc : c ∈ above ++ [v]) : graph.Reaches v c ∧ graph.Reaches c v :=
    h.reaches_above hstack (fun x hx => hbelow x (hpath x hx)) habove hc
  constructor
  · intro hb
    exact ⟨(hmeets ha).2.trans (hmeets hb).1, (hmeets hb).2.trans (hmeets ha).1⟩
  · rintro ⟨hab, hba⟩
    -- What is closed does not lead back to `a`, which is on the stack.
    refine (h.reaches_from_top hstack hnext hpath hcut ha hab).resolve_right ?_
    rintro ⟨hb, hclosed⟩
    exact (h.closed_of_reaches hb hclosed hba).2 ((mem_stack_iff hstack).mpr (Or.inl ha))

/-- A component is closed when no edge leads from it to what stands below it on the stack. -/
theorem Traced.close (h : graph.Traced (path ++ [v]) trail)
    (hstack : trail.stack = above ++ v :: below)
    (hnext : ∀ w, graph.Edge v w → w ∈ trail.met)
    (hpath : ∀ x ∈ path, x ∈ below)
    (hbelow : ∀ y ∈ below, trail.number y < trail.number v)
    (habove : ∀ u ∈ above, trail.number v ≤ trail.number u)
    (hcut : ∀ u ∈ above ++ [v], ∀ y ∈ below, ¬ graph.Edge u y) :
    graph.Traced path (trail.close v) := by
  have hnodup := h.stack_nodup
  rw [hstack] at hnodup
  obtain ⟨hnodupAbove, hnodupBelow, hdisjoint⟩ := List.nodup_append'.mp hnodup
  have hvAbove : v ∉ above := fun hv => hdisjoint hv List.mem_cons_self
  have htop {u : Nat} (hu : u ∈ above ++ [v]) : u ∈ trail.stack :=
    (mem_stack_iff hstack).mpr (Or.inl hu)
  have hlower {u : Nat} (hu : u ∈ below) : u ∈ trail.stack :=
    (mem_stack_iff hstack).mpr (Or.inr hu)
  rw [Trail.close_eq hstack hvAbove]
  constructor
  case lt_size => exact h.lt_size
  case stack_nodup => exact (List.nodup_cons.mp hnodupBelow).2
  case stack_met => exact fun u hu => h.stack_met (hlower hu)
  case path_nodup => exact h.path_nodup.sublist (List.sublist_append_left path [v])
  case path_stack => exact hpath
  case next_met => exact fun u hu hupath w => h.next_met_of_last hnext hu hupath
  case next_closed =>
    intro u hu huBelow w hedge hw
    by_cases huTop : u ∈ above ++ [v]
    · exact hcut u huTop w hw hedge
    · have hclosed : u ∉ trail.stack := by simp [mem_stack_iff hstack, huTop, huBelow]
      exact h.next_closed u hu hclosed w hedge (hlower hw)
  case up =>
    intro u hu
    obtain ⟨x, hx, hle, hreach⟩ := h.up u (hlower hu)
    have hlt : trail.number u < trail.number v := hbelow u hu
    have hne : x ≠ v := by
      rintro rfl
      omega
    exact ⟨x, by simpa [hne] using hx, hle, hreach⟩
  case down =>
    intro x hx u hu
    exact h.down x (List.mem_append_left [v] hx) u (hlower hu)
  case mem_components =>
    intro u
    rw [List.flatten_append, List.flatten_singleton, List.mem_append, h.mem_components,
      mem_stack_iff hstack]
    constructor
    · rintro (⟨hu, hopen⟩ | hu)
      · exact ⟨hu, fun hu' => hopen (Or.inr hu')⟩
      · exact ⟨h.stack_met (htop hu), h.notMem_below hstack hu⟩
    · rintro ⟨hu, hu'⟩
      by_cases huTop : u ∈ above ++ [v]
      · exact Or.inr huTop
      · exact Or.inl ⟨hu, fun hopen => hopen.elim huTop hu'⟩
  case components_nodup =>
    rw [List.flatten_append, List.flatten_singleton]
    refine List.nodup_append'.mpr ⟨h.components_nodup, ?_, ?_⟩
    · rw [← List.concat_eq_append]
      exact hnodupAbove.concat hvAbove
    · intro u hu hu'
      exact ((h.mem_components u).mp hu).2 (htop hu')
  case component =>
    refine List.forall_mem_append.mpr ⟨h.component, List.forall_mem_singleton.mpr ?_⟩
    exact h.isComponent_top hstack hnext hpath hbelow habove hcut
  case in_order =>
    refine List.pairwise_append.mpr ⟨h.in_order, List.pairwise_singleton _ _, ?_⟩
    intro earlier hearlier later hlater a ha b hb
    cases List.mem_singleton.mp hlater
    exact h.not_reaches_stack hearlier ha (htop hb)

end Close

section Search

variable {explore : Trail → Nat → Trail × Nat} {done : List Nat} {found : Trail × Nat}

theorem Scanned.number_self (h : graph.Scanned path before v done after low)
    (hv : v ∉ before.met) : after.number v = before.met.length := by
  have hmem : v ∈ (before.enter v).met := by simp [Trail.enter]
  rw [Trail.number_of_grows h.grows hmem, Trail.number_enter_self hv]

/-- Of what is on the stack, what has a lower number than `v` was there before. -/
theorem Scanned.mem_stack_of_lt (h : graph.Scanned path before v done after low)
    (hv : graph.Ahead path before v) (hu : u ∈ after.stack)
    (hlt : after.number u < before.met.length) : u ∈ before.stack := by
  have hgrows := (Trail.grows_enter hv.fresh).trans h.grows
  refine hgrows.mem_stack_of_met hu ?_
  by_contra hmet
  have hle := Trail.le_number_of_grows hgrows hmet
  omega

theorem scanned_enter (htraced : graph.Traced path before) (hv : graph.Ahead path before v) :
    graph.Scanned path before v [] (before.enter v) before.met.length where
  traced := htraced.enter hv
  grows := Trail.Grows.refl _
  low_le := le_rfl
  attained := Or.inl rfl
  bound := by
    intro u hu hmet
    exact absurd ((htraced.enter hv).stack_met hu) hmet
  targets := by simp

/-- An edge that leads back to a vertex on the stack. -/
theorem Scanned.back (h : graph.Scanned path before v done after low) (hw : graph.Edge v w)
    (hstack : w ∈ after.stack) :
    graph.Scanned path before v (done ++ [w]) after (min low (after.number w)) where
  traced := h.traced
  grows := h.grows
  low_le := (min_le_left _ _).trans h.low_le
  attained := by
    rcases min_choice low (after.number w) with heq | heq
    · rw [heq]
      exact h.attained
    · exact Or.inr ⟨w, hstack, .single hw, heq.symm⟩
  bound := by
    intro u hu hnew y hy hedge
    exact (min_le_left _ _).trans (h.bound u hu hnew y hy hedge)
  targets := by
    intro x hx
    rcases List.mem_append.mp hx with hx | hx
    · obtain ⟨hmet, hlow⟩ := h.targets x hx
      exact ⟨hmet, fun hx' => (min_le_left _ _).trans (hlow hx')⟩
    · cases List.mem_singleton.mp hx
      exact ⟨h.traced.stack_met hstack, fun _ => min_le_right _ _⟩

/-- An edge that leads to a vertex whose component is closed. -/
theorem Scanned.skip (h : graph.Scanned path before v done after low) (hmet : w ∈ after.met)
    (hclosed : w ∉ before.stack) : graph.Scanned path before v (done ++ [w]) after low where
  traced := h.traced
  grows := h.grows
  low_le := h.low_le
  attained := h.attained
  bound := h.bound
  targets := List.forall_mem_append.mpr
    ⟨h.targets, List.forall_mem_singleton.mpr ⟨hmet, fun hw => absurd hw hclosed⟩⟩

theorem Ahead.next (hv : graph.Ahead path before v) (hw : graph.Edge v w)
    (hsize : w < graph.size) (hmet : w ∉ after.met) : graph.Ahead (path ++ [v]) after w := by
  refine ⟨hmet, hsize, fun x hx => ?_⟩
  have hreach : graph.Reaches x v := by
    rcases List.mem_append.mp hx with hx | hx
    · exact hv.reached x hx
    · exact List.mem_singleton.mp hx ▸ .refl
  exact hreach.tail hw

/-- An edge that leads to a vertex not met before, from which the search has gone on. -/
theorem Scanned.deepen (hbefore : graph.Traced path before) (hfresh : v ∉ before.met)
    (h : graph.Scanned path before v done after low) (hw : graph.Edge v w)
    (hnew : w ∉ after.met) {after' : Trail} {low' : Nat}
    (hdeeper : graph.Explored (path ++ [v]) after w after' low') :
    graph.Scanned path before v (done ++ [w]) after' (min low low') := by
  have hgrows := (Trail.grows_enter hfresh).trans h.grows
  have hsame {u : Nat} (hu : u ∈ before.stack) : after'.number u = after.number u :=
    Trail.number_of_grows hdeeper.grows (hgrows.met.subset (hbefore.stack_met hu))
  constructor
  case traced => exact hdeeper.traced
  case grows => exact h.grows.trans hdeeper.grows
  case low_le => exact (min_le_left _ _).trans h.low_le
  case attained =>
    rcases min_choice low low' with heq | heq
    · rw [heq]
      rcases h.attained with hlow | ⟨y, hy, hreach, hlow⟩
      · exact Or.inl hlow
      · refine Or.inr ⟨y, hdeeper.grows.mem_stack hy, hreach, ?_⟩
        rw [Trail.number_of_grows hdeeper.grows (h.traced.stack_met hy), hlow]
    · rcases hdeeper.attained with hlow | ⟨y, hy, hreach, hlow⟩
      · -- The number of `w` is above that of `v`, so it is not the lower one.
        have hvmem : v ∈ after.met := h.grows.met.subset (by simp [Trail.enter])
        have hself := h.number_self hfresh
        have hvlt := Trail.number_lt hvmem
        have habove := Trail.le_number_of_grows hdeeper.grows hnew
        have hown := h.low_le
        omega
      · exact Or.inr ⟨y, hdeeper.grows.mem_stack hy, hreach.head hw, hlow.trans heq.symm⟩
  case bound =>
    intro u hu hunew y hy hedge
    by_cases hmet : u ∈ after.met
    · have hlow := h.bound u (hdeeper.grows.mem_stack_of_met hu hmet) hunew y hy hedge
      rw [hsame hy]
      exact (min_le_left _ _).trans hlow
    · have hlow := hdeeper.bound u hu hmet y (hgrows.mem_stack hy) hedge
      exact (min_le_right _ _).trans hlow
  case targets =>
    intro x hx
    rcases List.mem_append.mp hx with hx | hx
    · obtain ⟨hmet, hlow⟩ := h.targets x hx
      refine ⟨hdeeper.grows.met.subset hmet, fun hstack => ?_⟩
      rw [hsame hstack]
      exact (min_le_left _ _).trans (hlow hstack)
    · cases List.mem_singleton.mp hx
      refine ⟨hdeeper.met, fun hstack => ?_⟩
      exact absurd (hgrows.met.subset (hbefore.stack_met hstack)) hnew

/-- Going along one more edge. -/
theorem Scanned.follow (hinside : graph.Inside) (hbefore : graph.Traced path before)
    (hv : graph.Ahead path before v)
    (hexplore : ∀ trail w, graph.Traced (path ++ [v]) trail →
      graph.Ahead (path ++ [v]) trail w →
      graph.Explored (path ++ [v]) trail w (explore trail w).1 (explore trail w).2)
    (h : graph.Scanned path before v done found.1 found.2) (hw : graph.Edge v w) :
    graph.Scanned path before v (done ++ [w]) (followEdge explore found w).1
      (followEdge explore found w).2 := by
  rw [followEdge]
  split
  next hmet =>
    have hmet : w ∈ found.1.met := by simpa using hmet
    split
    next hstack => exact h.back hw (by simpa using hstack)
    next hstack =>
      have hgrows := (Trail.grows_enter hv.fresh).trans h.grows
      exact h.skip hmet fun hw => hstack (by simpa using hgrows.mem_stack hw)
  next hmet =>
    have hnew : w ∉ found.1.met := by simpa using hmet
    have hahead := hv.next hw (hinside v w hw) hnew
    exact h.deepen hbefore hv.fresh hw hnew (hexplore found.1 w h.traced hahead)

/-- Going along one edge after another. -/
theorem scanned_foldl (targets : List Nat) (found : Trail × Nat) (hinside : graph.Inside)
    (htraced : graph.Traced path before) (hv : graph.Ahead path before v)
    (hexplore : ∀ trail w, graph.Traced (path ++ [v]) trail →
      graph.Ahead (path ++ [v]) trail w →
      graph.Explored (path ++ [v]) trail w (explore trail w).1 (explore trail w).2)
    (h : graph.Scanned path before v done found.1 found.2)
    (htargets : ∀ w ∈ targets, graph.Edge v w) :
    graph.Scanned path before v (done ++ targets)
      (targets.foldl (followEdge explore) found).1
      (targets.foldl (followEdge explore) found).2 := by
  induction targets generalizing done found with
  | nil => simpa using h
  | cons w rest ih =>
    have hw := htargets w List.mem_cons_self
    have hnext := h.follow hinside htraced hv hexplore hw
    rw [List.append_cons, List.foldl_cons]
    exact ih _ hnext fun x hx => htargets x (List.mem_cons_of_mem w hx)

/-- What the search from `v` comes to when all edges that leave it have been gone along. -/
theorem Scanned.explored (htraced : graph.Traced path before) (hv : graph.Ahead path before v)
    (h : graph.Scanned path before v (graph.next v) after low) :
    graph.Explored path before v
      (if low = before.met.length then after.close v else after) low := by
  have hself := h.number_self hv.fresh
  have hgrows := (Trail.grows_enter hv.fresh).trans h.grows
  have hnext : ∀ w, graph.Edge v w → w ∈ after.met := fun w hw => (h.targets w hw).1
  have hvmem : v ∈ after.met := h.grows.met.subset (by simp [Trail.enter])
  obtain ⟨above, hstack, hnew⟩ := h.grows.stack
  have hstack : after.stack = above ++ v :: before.stack := hstack
  have hbelow : ∀ y ∈ before.stack, after.number y < before.met.length := fun y hy =>
    Trail.number_lt_of_grows hgrows (htraced.stack_met hy)
  have habove : ∀ u ∈ above, u ∉ before.met := fun u hu hmet =>
    hnew u hu ((Trail.grows_enter hv.fresh).met.subset hmet)
  have hvAbove : v ∉ above := fun hmem => hnew v hmem (by simp [Trail.enter])
  split
  next hlow =>
    have hcut : ∀ u ∈ above ++ [v], ∀ y ∈ before.stack, ¬ graph.Edge u y := by
      intro u hu y hy hedge
      have hlt := hbelow y hy
      rcases List.mem_append.mp hu with hu | hu
      · have hmem : u ∈ after.stack := by simp [hstack, hu]
        have hle := h.bound u hmem (hnew u hu) y hy hedge
        omega
      · have hle := (h.targets y (List.mem_singleton.mp hu ▸ hedge)).2 hy
        omega
    have hclosed := h.traced.close hstack hnext htraced.path_stack
      (fun y hy => by rw [hself]; exact hbelow y hy)
      (fun u hu => by rw [hself]; exact Trail.le_number_of_grows hgrows (habove u hu)) hcut
    rw [Trail.close_eq hstack hvAbove] at hclosed ⊢
    refine ⟨hclosed, ⟨hgrows.met, [], rfl, by simp⟩, hvmem, Or.inl ?_, ?_⟩
    · rw [hlow]
      exact hself.symm
    · intro u hu hmet
      exact absurd (htraced.stack_met hu) hmet
  next hlow =>
    obtain ⟨y, hy, hreach, hnumber⟩ := h.attained.resolve_left hlow
    have hle := h.low_le
    have hlt : after.number y < before.met.length := by omega
    have hback : ∃ y ∈ after.stack, graph.Reaches v y ∧ after.number y < after.number v :=
      ⟨y, hy, hreach, by rwa [hself]⟩
    refine ⟨h.traced.leave hnext hback, hgrows, hvmem, Or.inr ?_, ?_⟩
    · exact ⟨y, h.mem_stack_of_lt hv hy hlt, hreach, hnumber⟩
    · intro u hu hmet w hw hedge
      by_cases huv : u = v
      · exact (h.targets w (huv ▸ hedge)).2 hw
      · exact h.bound u hu (by simp [Trail.enter, hmet, huv]) w hw hedge

end Search

end Graph

open Disentangle.Dependency.Graph

variable {graph : Graph} {path : List Nat} {trail : Trail} {v : Nat}

/-- A search does what it should. The induction is on what is left of the bound, which stays
above the number of vertices that are not on the path. -/
theorem explore_explored (hinside : graph.Inside) (n : Nat)
    (hbound : graph.size < n + path.length) (htraced : graph.Traced path trail)
    (hv : graph.Ahead path trail v) :
    graph.Explored path trail v (explore graph n trail v).1 (explore graph n trail v).2 := by
  induction n generalizing path trail v with
  | zero =>
    have hlength := htraced.path_length_le
    omega
  | succ n ih =>
    have hdeeper : ∀ trail w, graph.Traced (path ++ [v]) trail →
        graph.Ahead (path ++ [v]) trail w →
        graph.Explored (path ++ [v]) trail w (explore graph n trail w).1
          (explore graph n trail w).2 := by
      intro trail w htrail hw
      refine ih ?_ htrail hw
      rw [List.length_append, List.length_singleton]
      omega
    have hscanned := scanned_foldl (graph.next v) (trail.enter v, trail.met.length) hinside htraced
      hv hdeeper (scanned_enter htraced hv) fun w hw => hw
    rw [List.nil_append] at hscanned
    have hexplored := hscanned.explored htraced hv
    rw [explore]
    dsimp only
    split
    next hlow => rwa [if_pos hlow] at hexplored
    next hlow => rwa [if_neg hlow] at hexplored

theorem exploreFresh_traced (hinside : graph.Inside) (htraced : graph.Traced [] trail)
    (hv : v < graph.size) :
    graph.Traced [] (exploreFresh graph trail v) ∧
      trail.met ⊆ (exploreFresh graph trail v).met ∧ v ∈ (exploreFresh graph trail v).met := by
  rw [exploreFresh]
  split
  next hmet => exact ⟨htraced, List.Subset.refl _, by simpa using hmet⟩
  next hmet =>
    have hahead : graph.Ahead [] trail v := ⟨by simpa using hmet, hv, by simp⟩
    have hexplored := explore_explored hinside (graph.size + 1) (by simp) htraced hahead
    exact ⟨hexplored.traced, hexplored.grows.met.subset, hexplored.met⟩

theorem foldl_exploreFresh_traced (vertices : List Nat) (hinside : graph.Inside)
    (hvertices : ∀ v ∈ vertices, v < graph.size) (htraced : graph.Traced [] trail) :
    graph.Traced [] (vertices.foldl (exploreFresh graph) trail) ∧
      trail.met ⊆ (vertices.foldl (exploreFresh graph) trail).met ∧
      vertices ⊆ (vertices.foldl (exploreFresh graph) trail).met := by
  induction vertices generalizing trail with
  | nil => exact ⟨htraced, List.Subset.refl _, List.nil_subset _⟩
  | cons v rest ih =>
    obtain ⟨hnext, hmet, hv⟩ :=
      exploreFresh_traced hinside htraced (hvertices v List.mem_cons_self)
    obtain ⟨hafter, hmet', hrest⟩ :=
      ih (fun w hw => hvertices w (List.mem_cons_of_mem v hw)) hnext
    rw [List.foldl_cons]
    exact ⟨hafter, List.Subset.trans hmet hmet', List.cons_subset.mpr ⟨hmet' hv, hrest⟩⟩

/-- The components of a graph: each vertex stands in one of them, once; they are the classes of
vertices that reach each other, and none reaches a later one. -/
theorem components_spec (hinside : graph.Inside) :
    (components graph).flatten.Nodup ∧
      (∀ v, v ∈ (components graph).flatten ↔ v < graph.size) ∧
      (∀ group ∈ components graph, IsComponent graph.Edge group) ∧
      (components graph).Pairwise fun earlier later =>
        ∀ a ∈ earlier, ∀ b ∈ later, ¬ graph.Reaches a b := by
  obtain ⟨htraced, -, hall⟩ := foldl_exploreFresh_traced (List.range graph.size) hinside
    (fun v hv => List.mem_range.mp hv) traced_nil
  refine ⟨htraced.components_nodup, fun v => ?_, htraced.component, htraced.in_order⟩
  rw [components, htraced.mem_components, htraced.stack_eq_nil]
  constructor
  · rintro ⟨hmet, -⟩
    exact htraced.lt_size v hmet
  · intro hv
    exact ⟨hall (List.mem_range.mpr hv), by simp⟩

end Disentangle.Dependency
