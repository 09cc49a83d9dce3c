import Disentangle.Files.Search
import Mathlib.Data.List.Basic
import Mathlib.Data.List.Forall2

/-!
Lists, apart from what they stand for here: a pass over a list that can stop, lists without
repetitions, sorted lists.
-/

namespace Disentangle

section Mapping

variable {α β ε : Type} {f : α → Except ε β} {items : List α}

theorem mapM_eq_ok_iff {results : List β} :
    items.mapM f = .ok results ↔ List.Forall₂ (fun a b => f a = .ok b) items results := by
  induction items generalizing results with
  | nil => simp [pure, Except.pure, eq_comm]
  | cons a rest ih =>
    rw [List.mapM_cons, List.forall₂_cons_left_iff]
    constructor
    · intro h
      cases ha : f a with
      | error e => simp [ha, bind, Except.bind] at h
      | ok b =>
        cases hrest : rest.mapM f with
        | error e => simp [ha, hrest, bind, Except.bind] at h
        | ok more =>
          simp only [ha, hrest, bind, Except.bind, pure, Except.pure, Except.ok.injEq] at h
          exact ⟨b, more, rfl, ih.mp hrest, h.symm⟩
    · rintro ⟨b, more, ha, hmore, rfl⟩
      simp [ha, ih.mpr hmore, bind, Except.bind, pure, Except.pure]

theorem exists_mapM_eq_ok (h : ∀ a ∈ items, ∃ b, f a = .ok b) :
    ∃ results, items.mapM f = .ok results := by
  simp only [mapM_eq_ok_iff]
  induction items with
  | nil => exact ⟨[], .nil⟩
  | cons a rest ih =>
    obtain ⟨b, hb⟩ := h a List.mem_cons_self
    obtain ⟨more, hmore⟩ := ih fun a ha => h a (List.mem_cons_of_mem _ ha)
    exact ⟨b :: more, .cons hb hmore⟩

theorem exists_of_mem_left {R : α → β → Prop} {results : List β}
    (h : List.Forall₂ R items results) {a : α} (ha : a ∈ items) : ∃ b ∈ results, R a b := by
  obtain ⟨i, hi, rfl⟩ := List.mem_iff_getElem.mp ha
  exact ⟨_, List.getElem_mem (h.length_eq ▸ hi), h.get hi (h.length_eq ▸ hi)⟩

theorem exists_of_mem_right {R : α → β → Prop} {results : List β}
    (h : List.Forall₂ R items results) {b : β} (hb : b ∈ results) : ∃ a ∈ items, R a b := by
  obtain ⟨i, hi, rfl⟩ := List.mem_iff_getElem.mp hb
  exact ⟨_, List.getElem_mem (h.length_eq ▸ hi), h.get (h.length_eq ▸ hi) hi⟩

/-- What related lists hold at the places of a sublist. -/
theorem exists_zip_sublist {R : α → β → Prop} {results : List β} {chosen : List α}
    (h : List.Forall₂ R items results) (hchosen : chosen.Sublist items) :
    ∃ found, List.Forall₂ R chosen found ∧ (chosen.zip found).Sublist (items.zip results) := by
  induction hchosen generalizing results with
  | slnil => exact ⟨[], .nil, List.nil_sublist _⟩
  | cons a _ ih =>
    cases h with
    | cons _ hrest =>
      obtain ⟨found, hall, hsub⟩ := ih hrest
      exact ⟨found, hall, hsub.cons _⟩
  | cons_cons a _ ih =>
    cases h with
    | cons hab hrest =>
      obtain ⟨found, hall, hsub⟩ := ih hrest
      exact ⟨_ :: found, .cons hab hall, hsub.cons_cons _⟩

end Mapping

section Items

/-- Where a separator stands in neither front, it is the same in both lists. -/
theorem append_cons_inj {α : Type} {separator : α} {front front' back back' : List α}
    (hfront : separator ∉ front) (hfront' : separator ∉ front')
    (heq : front ++ separator :: back = front' ++ separator :: back') :
    front = front' ∧ back = back' := by
  rcases List.append_eq_append_iff.mp heq with ⟨middle, rfl, hmiddle⟩ | ⟨middle, rfl, hmiddle⟩ <;>
    cases middle with
    | nil => simpa [eq_comm] using hmiddle
    | cons c middle => simp_all

/-- What a list without repetitions has before one of its items stands in front of it. -/
theorem mem_front_of_pair_sublist {α : Type} {front back : List α} {a b : α}
    (hnodup : (front ++ a :: back).Nodup) (h : [b, a].Sublist (front ++ a :: back)) :
    b ∈ front := by
  have hback : a ∉ back := (List.nodup_cons.mp (List.nodup_append.mp hnodup).2.1).1
  obtain ⟨left, right, hsplit, hleft, hright⟩ := List.sublist_append_iff.mp h
  cases left with
  | nil =>
    rw [List.nil_append] at hsplit
    subst hsplit
    have hmem : a ∈ back := by
      rcases List.cons_sublist_cons'.mp hright with hskip | ⟨-, hrest⟩
      · exact hskip.subset (by simp)
      · exact List.singleton_sublist.mp hrest
    exact absurd hmem hback
  | cons first rest =>
    rw [(List.cons.inj hsplit).1]
    exact hleft.subset List.mem_cons_self

/-- Entries that are left out change nothing in what is kept of a list exactly when nothing would
have been kept of them. -/
theorem filterMap_filter_eq_iff {α β : Type} {f : α → Option β} {keeps : α → Bool}
    {items : List α} :
    (items.filter keeps).filterMap f = items.filterMap f ↔
      ∀ a ∈ items, keeps a = false → f a = none := by
  induction items with
  | nil => simp
  | cons a rest ih =>
    rw [List.forall_mem_cons, ← ih]
    cases hkeeps : keeps a with
    | true => cases hf : f a <;> simp [hkeeps, hf]
    | false =>
      rw [List.filter_cons_of_neg (by simp [hkeeps])]
      cases hf : f a with
      | none => simp [hf]
      | some b =>
        rw [List.filterMap_cons_some hf]
        -- The list on the left is too short.
        have hlength : ((rest.filter keeps).filterMap f).length ≤ (rest.filterMap f).length :=
          (List.filter_sublist.filterMap f).length_le
        simp only [forall_const, reduceCtorEq, false_and, iff_false]
        intro heq
        have hlonger := congrArg List.length heq
        rw [List.length_cons] at hlonger
        omega

theorem nodup_eraseDups {α : Type} [BEq α] [LawfulBEq α] (items : List α) :
    items.eraseDups.Nodup := by
  induction hlength : items.length using Nat.strongRecOn generalizing items with
  | ind n ih =>
    cases items with
    | nil => simp
    | cons a rest =>
      have hshorter := List.length_filter_le (fun b => !b == a) rest
      rw [List.eraseDups_cons, List.nodup_cons]
      refine ⟨by simp, ih _ ?_ _ rfl⟩
      rw [← hlength, List.length_cons]
      exact Nat.lt_succ_of_le hshorter

end Items

section Sorting

theorem insertSorted_perm {α : Type} (le : α → α → Bool) (a : α) (items : List α) :
    (insertSorted le a items).Perm (a :: items) := by
  induction items with
  | nil => exact .refl _
  | cons b rest ih =>
    rw [insertSorted]
    split
    · exact .refl _
    · exact (ih.cons b).trans (.swap a b rest)

theorem sortBy_perm {α : Type} (le : α → α → Bool) (items : List α) :
    (sortBy le items).Perm items := by
  induction items with
  | nil => exact .refl _
  | cons a rest ih => exact (insertSorted_perm le a (sortBy le rest)).trans (ih.cons a)

end Sorting

end Disentangle
