import Disentangle.Proofs.Files.Matching
import Disentangle.Proofs.Path.Relative
import Disentangle.Proofs.Project.Moving

/-!
Where the sources of a folder go when it moves. Their steps go on from the new folder as they went
on from the old one, so they come to lie at different places, which were free, and every source that
a move reads has one place afterwards.
-/

namespace Disentangle

namespace Text

theorem join_append (separator : Text) {front back : List Text} (hfront : front ≠ [])
    (hback : back ≠ []) :
    join separator (front ++ back) =
      join separator front ++ (separator ++ join separator back) := by
  induction front with
  | nil => exact absurd rfl hfront
  | cons t rest ih =>
    cases rest with
    | nil =>
      obtain ⟨next, more, rfl⟩ := List.exists_cons_of_ne_nil hback
      exact List.append_assoc t separator _
    | cons next more =>
      have hstep (rest : List Text) :
          join separator (t :: next :: rest) = t ++ separator ++ join separator (next :: rest) :=
        rfl
      have hmore := ih (List.cons_ne_nil next more)
      rw [List.cons_append] at hmore
      rw [List.cons_append, List.cons_append, hstep, hstep, hmore]
      simp only [List.append_assoc]

/-- The last text of one list goes on as the first one of another. -/
theorem join_concat_append (separator : Text) (front : List Text) (last first : Text)
    (rest : List Text) :
    join separator (front ++ [last]) ++ join separator (first :: rest) =
      join separator (front ++ (last ++ first) :: rest) := by
  have hlast : last ++ join separator (first :: rest) =
      join separator ((last ++ first) :: rest) := by
    cases rest with
    | nil => rfl
    | cons next more => simp only [join, List.append_assoc]
  cases front with
  | nil => exact hlast
  | cons t more =>
    rw [join_append separator (List.cons_ne_nil t more) (List.cons_ne_nil last []),
      join_append separator (List.cons_ne_nil t more) (List.cons_ne_nil _ rest), ← hlast]
    simp only [join, List.append_assoc]

end Text

namespace Path

variable {mark mark' source target : Text}

theorem IsName.append {name name' : Text} (h : IsName name) (h' : IsName name') :
    IsName (name ++ name') where
  ne_nil := List.append_ne_nil_of_left_ne_nil h.ne_nil name'
  ne_dot heq := by
    rcases List.append_eq_singleton_iff.mp heq with ⟨hnil, -⟩ | ⟨-, hnil⟩
    · exact h.ne_nil hnil
    · exact h'.ne_nil hnil
  ne_dots heq := by
    rcases List.append_eq_cons_iff.mp heq with ⟨hnil, -⟩ | ⟨more, rfl, hmore⟩
    · exact h.ne_nil hnil
    · rcases List.append_eq_singleton_iff.mp hmore.symm with ⟨rfl, -⟩ | ⟨-, hnil⟩
      · exact h.ne_dot rfl
      · exact h'.ne_nil hnil
  no_slash hslash := (List.mem_append.mp hslash).elim h.no_slash h'.no_slash

/-- Names are read from a canonical directory behind its own. -/
theorem IsCanonical.components_append (h : IsCanonical mark source) (cwd : Text)
    {below : List Text} (hbelow : ∀ n ∈ below, IsName n) :
    components (standardize cwd (append source (Text.join ['/'] below))) =
      components source ++ below := by
  obtain ⟨hmark, names, hnames, rfl⟩ := h
  have hhead := head?_join hbelow
  obtain ⟨tail, happend, -⟩ := IsCanonical.exists_append ⟨hmark, names, hnames, rfl⟩ hhead
  have habsolute :
      Path.isAbsolute (append (mark ++ Text.join ['/'] names) (Text.join ['/'] below)) = true :=
    happend ▸ isAbsolute_append (isAbsolute_mark hmark) tail
  rw [components_standardize, append_of_isAbsolute cwd habsolute, names_append hmark hnames hhead,
    components_canonical hmark hnames]
  cases below with
  | nil => simp [Text.join, Text.pieces, walk]
  | cons name rest =>
    rw [Text.pieces_join (List.cons_ne_nil name rest) fun n hn => (hbelow n hn).no_slash,
      foldl_walk_names hbelow, List.reverse_append, List.reverse_reverse, List.reverse_reverse]

theorem IsCanonical.isName_of_mem_components {path name : Text} (h : IsCanonical mark path)
    (hname : name ∈ components path) : IsName name := by
  obtain ⟨hpiece, hne, -⟩ := mem_components.mp hname
  exact h.isName_of_mem_pieces hpiece hne

/-- Where the paths below a directory lead when it is exchanged for another one: their names go on
behind the other's. Only where the directory was a root no slash stands between them, and the first
name goes on with the last one of the other directory. -/
theorem IsCanonical.exists_places (hsource : IsCanonical mark source)
    (htarget : IsCanonical mark' target) :
    ∃ front last, (∀ n ∈ front, IsName n) ∧ (last = [] ∨ IsName last) ∧
      ∀ first rest, (∀ n ∈ first :: rest, IsName n) →
        components (target ++
          (mark ++ Text.join ['/'] (components source ++ first :: rest)).drop source.length) =
          front ++ (last ++ first) :: rest := by
  obtain ⟨hmark, names, hnames, rfl⟩ := hsource
  obtain ⟨hmark', names', hnames', rfl⟩ := htarget
  rw [components_canonical hmark hnames]
  by_cases hroot : names = []
  · subst hroot
    have hdrop (below : List Text) : (mark ++ Text.join ['/'] ([] ++ below)).drop
        (mark ++ Text.join ['/'] []).length = Text.join ['/'] below := by
      simp [Text.join]
    rcases List.eq_nil_or_concat' names' with rfl | ⟨front, last, rfl⟩
    · refine ⟨[], [], by simp, .inl rfl, fun first rest hbelow => ?_⟩
      rw [hdrop, Text.join, List.append_nil, components_canonical hmark' hbelow]
      rfl
    · have hlast := hnames' last (by simp)
      refine ⟨front, last, fun n hn => hnames' n (by simp [hn]), .inr hlast, ?_⟩
      intro first rest hbelow
      have hjoined : ∀ n ∈ front ++ (last ++ first) :: rest, IsName n := by
        simp only [List.forall_mem_append, List.forall_mem_cons] at hnames' hbelow ⊢
        exact ⟨hnames'.1, hlast.append hbelow.1, hbelow.2⟩
      rw [hdrop, List.append_assoc, Text.join_concat_append, components_canonical hmark' hjoined]
  · refine ⟨names', [], hnames', .inl rfl, fun first rest hbelow => ?_⟩
    rw [Text.join_append _ hroot (List.cons_ne_nil first rest), ← List.append_assoc, List.drop_left,
      List.singleton_append, components_append_slash, components_canonical hmark' hnames',
      components_join hbelow]
    rfl

end Path

section Sources

open Inquiry

variable {scene : SoundScene} {told told' : List Event} {plan : MovePlan}
  {root source target pattern : Text} {others : List Text}

/-- The names of a source go on behind those of the directory where it is found. -/
theorem exists_names_of_filesBelow (hslash : '/' ∉ pattern)
    {mark directory : Text} (hdirectory : Path.IsCanonical mark directory) {paths : List Text}
    (h : (filesBelow directory pattern).Succeeds scene told paths told') {path : Text}
    (hpath : path ∈ paths) :
    ∃ first rest, (∀ n ∈ first :: rest, Path.IsName n) ∧
      path = mark ++ Text.join ['/'] (Path.components directory ++ first :: rest) := by
  have hcanonical := isCanonical_of_filesBelow hdirectory h hpath
  obtain ⟨found, hfound, hpaths⟩ := exists_found_of_filesBelow h
  obtain ⟨steps, hsteps, rfl⟩ := (hpaths path).mp hpath
  rw [Path.steps_of_isDirect hdirectory.isDirect] at hfound
  obtain ⟨hne, hnames⟩ :=
    scene.wellFormed.isName_of_filesMatching hslash hdirectory.isDirect.leadsDown hfound hsteps
  obtain ⟨first, rest, rfl⟩ := List.exists_cons_of_ne_nil hne
  refine ⟨first, rest, hnames, ?_⟩
  rw [← hcanonical.join_components, hdirectory.components_append scene.cwd hnames]

/-- A folder that moves is a directory. -/
theorem node?_source_of_planMove
    (h : (planMove root source target pattern).Succeeds scene told plan told') :
    scene.tree.node? (Path.components plan.source) = some .directory := by
  obtain ⟨_, hmade⟩ := madeOf_of_planMove h
  have hdirect := Path.isDirect_standardize scene.cwd source
  rw [planMove] at h
  simp only [succeeds_bind, succeeds_standardize, hasDirectory, succeeds_read, succeeds_pure] at h
  obtain ⟨_, _, ⟨rfl, rfl⟩, _, _, ⟨rfl, rfl⟩, _, _, ⟨rfl, rfl⟩, isDirectory, _,
    ⟨_, _, ⟨rfl, rfl⟩, hdirectory, rfl⟩, h⟩ := h
  cases isDirectory with
  | false => simp at h
  | true =>
    rw [Path.steps_of_isDirect hdirect] at hdirectory
    exact hmade.source ▸ FileTree.node?_of_hasDirectory hdirect.leadsDown hdirectory

namespace MovePlan.MadeOf

/-- The steps of the files that move go on from the new folder as they went on from the old one. -/
theorem exists_places (h : plan.MadeOf scene root source target pattern others)
    (hslash : '/' ∉ pattern) :
    ∃ front last, (∀ n ∈ front, Path.IsName n) ∧ (last = [] ∨ Path.IsName last) ∧
      ∀ pair ∈ plan.moved.pairs, ∃ first rest, (∀ n ∈ first :: rest, Path.IsName n) ∧
        Path.components pair.1 = Path.components plan.source ++ first :: rest ∧
        Path.components pair.2 = front ++ (last ++ first) :: rest := by
  have hsource := h.isCanonical_source
  obtain ⟨front, last, hfront, hlast, hplaces⟩ :=
    hsource.exists_places (Path.isCanonical_standardize scene.cwd target)
  refine ⟨front, last, hfront, hlast, fun pair hpair => ?_⟩
  obtain ⟨found, _, _, hfound, hmoved⟩ := h.moved
  rw [hmoved] at hpair
  obtain ⟨old, hmem, rfl⟩ := List.mem_map.mp hpair
  obtain ⟨first, rest, hnames, hpath⟩ :=
    exists_names_of_filesBelow hslash hsource hfound (List.mem_eraseDups.mp hmem)
  refine ⟨first, rest, hnames, ?_, ?_⟩
  · have hall : ∀ n ∈ Path.components plan.source ++ first :: rest, Path.IsName n := by
      rw [List.forall_mem_append]
      exact ⟨fun n hn => hsource.isName_of_mem_components hn, hnames⟩
    dsimp only
    rw [hpath, Path.components_canonical hsource.isMark hall]
  · dsimp only
    rw [hpath, hplaces first rest hnames]

variable {pair pair' : Text × Text} {path path' text : Text}

theorem isDirect_new (h : plan.MadeOf scene root source target pattern others)
    (hslash : '/' ∉ pattern) (hpair : pair ∈ plan.moved.pairs) :
    Path.IsDirect pair.2 where
  absolute := (h.exists_place hpair).1
  leadsDown := by
    obtain ⟨front, last, hfront, hlast, hplaces⟩ := h.exists_places hslash
    obtain ⟨first, rest, hnames, -, hnew⟩ := hplaces pair hpair
    rw [List.forall_mem_cons] at hnames
    have hjoined : Path.IsName (last ++ first) := by
      rcases hlast with rfl | hlast
      · exact hnames.1
      · exact hlast.append hnames.1
    intro name hname
    rw [hnew, List.mem_append, List.mem_cons] at hname
    rcases hname with hname | rfl | hname
    · exact (hfront name hname).ne_dots
    · exact hjoined.ne_dots
    · exact (hnames.2 name hname).ne_dots

/-- Nothing stands where a file goes. -/
theorem node?_new (h : plan.MadeOf scene root source target pattern others)
    (hslash : '/' ∉ pattern) (hpair : pair ∈ plan.moved.pairs) :
    scene.tree.node? (Path.components pair.2) = none := by
  have hdown := (h.isDirect_new hslash hpair).leadsDown
  obtain ⟨-, place, hplace, hfree⟩ := h.exists_place hpair
  rcases hplace.steps_eq with heq | heq
  · rw [heq, hfree]
  · exact absurd rfl (hdown _ (heq ▸ List.mem_cons_self))

/-- Different files go to different places. -/
theorem eq_of_new (h : plan.MadeOf scene root source target pattern others)
    (hslash : '/' ∉ pattern) (hpair : pair ∈ plan.moved.pairs)
    (hpair' : pair' ∈ plan.moved.pairs)
    (heq : Path.components pair.2 = Path.components pair'.2) : pair.1 = pair'.1 := by
  obtain ⟨front, last, -, -, hplaces⟩ := h.exists_places hslash
  obtain ⟨first, rest, -, hold, hnew⟩ := hplaces pair hpair
  obtain ⟨first', rest', -, hold', hnew'⟩ := hplaces pair' hpair'
  rw [hnew, hnew', List.append_cancel_left_eq, List.cons.injEq, List.append_cancel_left_eq] at heq
  refine (h.isCanonical_old hpair).eq_of_components
    (h.isCanonical_old hpair') ?_
  rw [hold, hold', heq.1, heq.2]

/-- A source that is read moves, or it stays. -/
theorem moves_or_stays (h : plan.MadeOf scene root source target pattern others)
    (hpath : path ∈ plan.moved.pairs.map Prod.fst ++ others) :
    (∃ new, (path, new) ∈ plan.moved.pairs ∧ plan.moved.apply path = new) ∨
      path ∈ others ∧ plan.moved.apply path = path := by
  rcases List.mem_append.mp hpath with hold | hother
  · obtain ⟨new, hpair, happly, -⟩ := Relocation.exists_pair hold
    exact .inl ⟨new, hpair, happly⟩
  · exact .inr ⟨hother, Relocation.apply_of_not_has (h.not_has_other hother)⟩

/-- What the plan makes of each source that is read. -/
theorem exists_results (h : plan.MadeOf scene root source target pattern others) :
    ∃ results, List.Forall₂ (fun path output => ∃ told told',
        (moveSource plan.moved path).Succeeds scene told output told')
          (plan.moved.pairs.map Prod.fst ++ others) results ∧
      plan.outputs = results.filterMap id := by
  obtain ⟨copies, rewrites, hcopies, hrewrites, houtputs⟩ := h.outputs
  exact ⟨copies ++ rewrites, List.rel_append hcopies hrewrites,
    houtputs.trans List.filterMap_append.symm⟩

theorem isDirect_read (h : plan.MadeOf scene root source target pattern others)
    (hpath : path ∈ plan.moved.pairs.map Prod.fst ++ others) : Path.IsDirect path := by
  rcases List.mem_append.mp hpath with hold | hother
  · obtain ⟨pair, hpair, rfl⟩ := List.mem_map.mp hold
    exact (h.isCanonical_old hpair).isDirect
  · exact (h.isCanonical_other hother).isDirect

theorem exists_text_read (h : plan.MadeOf scene root source target pattern others)
    (hpath : path ∈ plan.moved.pairs.map Prod.fst ++ others) :
    ∃ text, scene.tree.HoldsText (Path.components path) text := by
  obtain ⟨results, hresults, -⟩ := h.exists_results
  obtain ⟨_, -, _, _, hmove⟩ := exists_of_mem_left hresults hpath
  obtain ⟨_, _, text, hread, -⟩ := of_moveSource hmove
  exact ⟨text, holdsText_of_readSource (h.isDirect_read hpath) hread⟩

theorem hasFileAt_read (h : plan.MadeOf scene root source target pattern others)
    (hpath : path ∈ plan.moved.pairs.map Prod.fst ++ others) :
    scene.tree.HasFileAt (Path.components path) := by
  obtain ⟨text, htext⟩ := h.exists_text_read hpath
  exact htext.hasFileAt

theorem isDirect_apply (h : plan.MadeOf scene root source target pattern others)
    (hslash : '/' ∉ pattern)
    (hpath : path ∈ plan.moved.pairs.map Prod.fst ++ others) :
    Path.IsDirect (plan.moved.apply path) := by
  rcases h.moves_or_stays hpath with ⟨new, hpair, happly⟩ | ⟨-, happly⟩
  · exact happly ▸ h.isDirect_new hslash hpair
  · rw [happly]
    exact h.isDirect_read hpath

/-- Sources that are read lie at different places afterwards. -/
theorem eq_of_apply (h : plan.MadeOf scene root source target pattern others)
    (hslash : '/' ∉ pattern)
    (hpath : path ∈ plan.moved.pairs.map Prod.fst ++ others)
    (hpath' : path' ∈ plan.moved.pairs.map Prod.fst ++ others)
    (heq : Path.components (plan.moved.apply path) = Path.components (plan.moved.apply path')) :
    path = path' := by
  -- A file that moves goes where no source has been.
  have hfree {pair : Text × Text} (hpair : pair ∈ plan.moved.pairs) {stays : Text}
      (hstays : stays ∈ plan.moved.pairs.map Prod.fst ++ others) :
      Path.components pair.2 ≠ Path.components stays := by
    intro heq
    obtain ⟨content, hnode⟩ := h.hasFileAt_read hstays
    cases (heq ▸ h.node?_new hslash hpair).symm.trans hnode
  rcases h.moves_or_stays hpath with ⟨new, hpair, happly⟩ | ⟨hother, happly⟩ <;>
    rcases h.moves_or_stays hpath' with ⟨new', hpair', happly'⟩ | ⟨hother', happly'⟩ <;>
    rw [happly, happly'] at heq
  · exact h.eq_of_new hslash hpair hpair' heq
  · exact absurd heq (hfree hpair hpath')
  · exact absurd heq.symm (hfree hpair' hpath)
  · exact (h.isCanonical_other hother).eq_of_components
      (h.isCanonical_other hother') heq

end MovePlan.MadeOf

end Sources

end Disentangle
