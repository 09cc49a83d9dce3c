import Disentangle.Files.Tree
import Mathlib.Data.List.Infix

/-!
Writing a file is all or nothing. In a tree where everything stands in a directory, a write along
plain names is refused for one of two reasons: there is a directory where the file should be, or a
file on the way there. In both cases nothing has been made yet. Otherwise the file is there
afterwards, the way to it is all directories, and nothing else has changed.
-/

namespace Disentangle.FileTree

variable {tree made : FileTree} {place up : Location} {name : Text} {content : List UInt8}

/-- Whatever stands in the tree stands in a directory. -/
def Grounded (tree : FileTree) : Prop :=
  ∀ place node, tree.node? place = some node → tree.node? place.dropLast = some .directory

/-- The steps lead down only. -/
def LeadsDown (steps : List Text) : Prop :=
  ∀ name ∈ steps, name ≠ ['.', '.']

/-- No file can be put at `place`: a directory is there, or a file is on the way. -/
def Blocks (tree : FileTree) (place : Location) : Prop :=
  tree.node? place = some .directory ∨
    ∃ up content, up <+: place ∧ up ≠ place ∧ tree.node? up = some (.file content)

/-- `after` differs from `before` by the file at `place` and by the directories on the way to it,
and nothing was in the way. -/
def Written (before : FileTree) (place : Location) (content : List UInt8)
    (after : FileTree) : Prop :=
  ¬ before.Blocks place ∧
    ∀ p, after.node? p =
      if p = place then some (.file content)
      else if p <+: place then some .directory
      else before.node? p

/-- `after` differs from `before` by the directories at `place` and on the way to it, and no file
was in the way. -/
def Extended (before : FileTree) (place : Location) (after : FileTree) : Prop :=
  (∀ up content, up <+: place → before.node? up ≠ some (.file content)) ∧
    ∀ p, after.node? p = if p <+: place then some .directory else before.node? p

@[simp] theorem node?_nil (tree : FileTree) : tree.node? [] = some .directory := by
  simp [node?]

theorem lookup_setEntry (entries : List (Location × Node)) (place p : Location) (node : Node) :
    (setEntry place node entries).lookup p =
      if p = place then some node else entries.lookup p := by
  induction entries with
  | nil =>
    by_cases hp : p = place
    · simp [setEntry, hp]
    · have hbeq : (p == place) = false := beq_eq_false_iff_ne.mpr hp
      simp [setEntry, List.lookup_cons, hbeq, hp]
  | cons entry rest ih =>
    obtain ⟨key, old⟩ := entry
    rw [setEntry]
    by_cases hp : p = key
    · subst hp
      by_cases hkey : p = place <;> simp [hkey]
    · have hbeq : (p == key) = false := beq_eq_false_iff_ne.mpr hp
      by_cases hkey : key = place
      · subst hkey
        simp [List.lookup_cons, hbeq, hp]
      · simp [List.lookup_cons, hbeq, hkey, ih]

theorem node?_set (hplace : place ≠ []) (node : Node) (p : Location) :
    (tree.set place node).node? p = if p = place then some node else tree.node? p := by
  by_cases hp : p = []
  · subst hp
    simp [hplace.symm]
  · simp [node?, set, hp, lookup_setEntry]

theorem grounded_of_entries
    (h : ∀ entry ∈ tree.entries, tree.node? entry.1.dropLast = some .directory) :
    tree.Grounded := by
  intro place node hnode
  by_cases hplace : place = []
  · rw [hplace, List.dropLast_nil, node?_nil]
  · rw [node?, if_neg hplace, List.lookup_eq_some_iff] at hnode
    obtain ⟨front, back, hentries, -⟩ := hnode
    exact h (place, node) (by simp [hentries])

/-- Everything above what stands in the tree is a directory. -/
theorem Grounded.above (h : tree.Grounded) {node : Node} (hnode : tree.node? place = some node)
    (hup : up <+: place) (hne : up ≠ place) : tree.node? up = some .directory := by
  induction place using List.reverseRecOn generalizing node with
  | nil => exact absurd (List.prefix_nil.mp hup) hne
  | append_singleton front last ih =>
    have hfront : tree.node? front = some .directory := by
      simpa using h _ node hnode
    rcases List.prefix_concat_iff.mp hup with heq | hup
    · exact absurd heq hne
    · by_cases heq : up = front
      · rw [heq, hfront]
      · exact ih hfront hup heq

theorem Grounded.directory_above (h : tree.Grounded) (hplace : tree.node? place = some .directory)
    (hup : up <+: place) : tree.node? up = some .directory := by
  by_cases heq : up = place
  · rw [heq, hplace]
  · exact h.above hplace hup heq

theorem locate_concat (tree : FileTree) (steps : List Text) (name : Text) :
    tree.locate (steps ++ [name]) = tree.locate steps >>= (tree.step · name) := by
  simp [locate, List.foldlM_append]

/-- A last step is taken from a directory, up or down. -/
theorem exists_of_locate_concat {steps : List Text}
    (h : tree.locate (steps ++ [name]) = .ok place) :
    ∃ up, tree.locate steps = .ok up ∧ tree.node? up = some .directory ∧
      place = if name = ['.', '.'] then up.dropLast else up ++ [name] := by
  rw [locate_concat] at h
  cases hup : tree.locate steps with
  | error refusal =>
    rw [hup] at h
    cases h
  | ok up =>
    rw [hup] at h
    have hstep : tree.step up name = .ok place := h
    rw [step] at hstep
    split at hstep
    next => cases hstep
    next => cases hstep
    next hdirectory => exact ⟨up, rfl, hdirectory, (Except.ok.inj hstep).symm⟩

theorem LeadsDown.of_concat (h : LeadsDown (place ++ [name])) :
    LeadsDown place ∧ name ≠ ['.', '.'] :=
  ⟨fun n hn => h n (by simp [hn]), h name (by simp)⟩

theorem step_of_directory (hplace : tree.node? place = some .directory)
    (hname : name ≠ ['.', '.']) : tree.step place name = .ok (place ++ [name]) := by
  simp [step, hplace, hname]

/-- Plain steps lead where they say, if the last one is taken from a directory. -/
theorem locate_eq_ok (h : tree.Grounded) (hdown : LeadsDown place)
    (hparent : tree.node? place.dropLast = some .directory) : tree.locate place = .ok place := by
  induction place using List.reverseRecOn with
  | nil => rfl
  | append_singleton front last ih =>
    obtain ⟨hfront, hlast⟩ := hdown.of_concat
    rw [List.dropLast_concat] at hparent
    rw [locate_concat, ih hfront (h front _ hparent)]
    exact step_of_directory hparent hlast

theorem locate_eq_missing (h : tree.Grounded) (hdown : LeadsDown place)
    (hparent : tree.node? place.dropLast = none)
    (hfree : ∀ up content, up <+: place → tree.node? up ≠ some (.file content)) :
    tree.locate place = .error .missing := by
  induction place using List.reverseRecOn with
  | nil => simp at hparent
  | append_singleton front last ih =>
    obtain ⟨hfront, hlast⟩ := hdown.of_concat
    rw [List.dropLast_concat] at hparent
    have hfree' : ∀ up content, up <+: front → tree.node? up ≠ some (.file content) :=
      fun up content hup => hfree up content (hup.trans (List.prefix_append front [last]))
    rw [locate_concat]
    cases habove : tree.node? front.dropLast with
    | none => rw [ih hfront habove hfree']; rfl
    | some node =>
      cases node with
      | file content => exact absurd habove (hfree' _ content (List.dropLast_prefix front))
      | directory =>
        rw [locate_eq_ok h hfront habove]
        simp [bind, Except.bind, step, hparent]

/-- A file on the way stops every step beyond it. -/
theorem locate_eq_notDirectory (h : tree.Grounded) (hdown : LeadsDown place)
    (hup : up <+: place) (hne : up ≠ place) (hfile : tree.node? up = some (.file content)) :
    tree.locate place = .error .notDirectory := by
  induction place using List.reverseRecOn with
  | nil => exact absurd (List.prefix_nil.mp hup) hne
  | append_singleton front last ih =>
    obtain ⟨hfront, hlast⟩ := hdown.of_concat
    rw [locate_concat]
    rcases List.prefix_concat_iff.mp hup with heq | hup
    · exact absurd heq hne
    · by_cases heq : up = front
      · subst heq
        rw [locate_eq_ok h hfront (h up _ hfile)]
        simp [bind, Except.bind, step, hfile]
      · rw [ih hfront hup heq]
        rfl

theorem find_of_locate {steps : List Text} {node : Node} (hlocate : tree.locate steps = .ok place)
    (hnode : tree.node? place = some node) : tree.find steps = .ok node := by
  simp [find, hlocate, bind, Except.bind, hnode, pure, Except.pure]

/-- A directory is not made where something stands, which is no failure if it is a directory. -/
theorem makeDirectoryIfNone_of_locate {steps : List Text} {node : Node}
    (hlocate : tree.locate steps = .ok place) (hnode : tree.node? place = some node) :
    tree.makeDirectoryIfNone steps = if node = .directory then .ok tree else .error .exists := by
  have hmake : tree.makeDirectory steps = .error .exists := by
    simp [makeDirectory, hlocate, bind, Except.bind, hnode, throw, throwThe, MonadExceptOf.throw]
  simp [makeDirectoryIfNone, hmake, hasDirectory, find_of_locate hlocate hnode, Except.toOption]

theorem makeDirectoryIfNone_of_directory (h : tree.Grounded) (hdown : LeadsDown place)
    (hplace : tree.node? place = some .directory) :
    tree.makeDirectoryIfNone place = .ok tree := by
  have hlocate : tree.locate place = .ok place := locate_eq_ok h hdown (h place _ hplace)
  rw [makeDirectoryIfNone_of_locate hlocate hplace, if_pos rfl]

theorem makeDirectoryIfNone_of_none (h : tree.Grounded) (hdown : LeadsDown place)
    (hparent : tree.node? place.dropLast = some .directory) (hplace : tree.node? place = none) :
    tree.makeDirectoryIfNone place = .ok (tree.set place .directory) := by
  have hlocate : tree.locate place = .ok place := locate_eq_ok h hdown hparent
  simp [makeDirectoryIfNone, makeDirectory, hlocate, bind, Except.bind, hplace, pure, Except.pure]

theorem makeDirectoryIfNone_of_error {refusal : Refusal}
    (hlocate : tree.locate place = .error refusal) :
    tree.makeDirectoryIfNone place = .error refusal := by
  simp [makeDirectoryIfNone, makeDirectory, hasDirectory, find, hlocate, bind, Except.bind,
    Except.toOption]

theorem makeDirectoryIfNone_of_file (h : tree.Grounded) (hdown : LeadsDown place)
    (hplace : tree.node? place = some (.file content)) :
    tree.makeDirectoryIfNone place = .error .exists := by
  have hlocate : tree.locate place = .ok place := locate_eq_ok h hdown (h place _ hplace)
  rw [makeDirectoryIfNone_of_locate hlocate hplace, if_neg nofun]

/-- A tree in which the way to `place` has been made of directories. -/
theorem Grounded.of_directories (h : tree.Grounded)
    (hmade : ∀ p, made.node? p = if p <+: place then some .directory else tree.node? p) :
    made.Grounded := by
  intro p node hnode
  rw [hmade] at hnode ⊢
  split
  next => rfl
  next hdrop =>
    have hp : ¬ p <+: place := fun hp => hdrop ((List.dropLast_prefix p).trans hp)
    rw [if_neg hp] at hnode
    exact h p node hnode

/-- A directory made below another one extends the way to it. -/
theorem node?_set_directory (h : tree.Grounded) (hplace : tree.node? place = some .directory)
    (name : Text) (p : Location) :
    (tree.set (place ++ [name]) .directory).node? p =
      if p <+: place ++ [name] then some .directory else tree.node? p := by
  rw [node?_set (by simp)]
  simp only [List.prefix_concat_iff]
  by_cases hp : p = place ++ [name]
  · simp [hp]
  by_cases hstart : p <+: place
  · simp [hp, hstart, h.directory_above hplace hstart]
  · simp [hp, hstart]

theorem makeDirectories_of_directory (h : tree.Grounded) (hdown : LeadsDown place)
    (hplace : tree.node? place = some .directory) :
    tree.makeDirectories place.reverse = (tree, none) := by
  induction place using List.reverseRecOn with
  | nil => rfl
  | append_singleton front last _ =>
    have hmake := makeDirectoryIfNone_of_directory h hdown hplace
    rw [List.reverse_concat]
    simp only [makeDirectories, List.reverse_cons, List.reverse_reverse, hmake]

/-- With a file on the way no directory is made at all. -/
theorem makeDirectories_of_file (h : tree.Grounded) (hdown : LeadsDown place)
    (hup : up <+: place) (hfile : tree.node? up = some (.file content)) :
    ∃ refusal, tree.makeDirectories place.reverse = (tree, some refusal) := by
  induction place using List.reverseRecOn with
  | nil => simp [List.prefix_nil.mp hup] at hfile
  | append_singleton front last _ =>
    rw [List.reverse_concat]
    by_cases heq : up = front ++ [last]
    · subst heq
      have hmake := makeDirectoryIfNone_of_file h hdown hfile
      refine ⟨.exists, ?_⟩
      simp only [makeDirectories, List.reverse_cons, List.reverse_reverse, hmake]
    · have hmake := makeDirectoryIfNone_of_error (locate_eq_notDirectory h hdown hup heq hfile)
      refine ⟨.notDirectory, ?_⟩
      simp only [makeDirectories, List.reverse_cons, List.reverse_reverse, hmake]

/-- A directory whose parent is missing is made once the way to the parent has been made. -/
theorem makeDirectories_of_missing (h : tree.Grounded) (hdown : LeadsDown (place ++ [name]))
    (hfree : ∀ up content, up <+: place ++ [name] → tree.node? up ≠ some (.file content))
    (hparent : tree.node? place = none) (hmissing : tree.node? (place ++ [name]) = none)
    (hmade : tree.makeDirectories place.reverse = (made, none))
    (hnode : ∀ p, made.node? p = if p <+: place then some .directory else tree.node? p) :
    tree.makeDirectories (place ++ [name]).reverse =
        (made.set (place ++ [name]) .directory, none) ∧
      ∀ p, (made.set (place ++ [name]) .directory).node? p =
        if p <+: place ++ [name] then some .directory else tree.node? p := by
  have hgrounded : made.Grounded := h.of_directories hnode
  have hmadeParent : made.node? place = some .directory := by simp [hnode]
  have hbeyond : ¬ place ++ [name] <+: place := fun hstart => by
    have hlength := hstart.length_le
    rw [List.length_append, List.length_singleton] at hlength
    omega
  have hmadeMissing : made.node? (place ++ [name]) = none := by
    rw [hnode, if_neg hbeyond, hmissing]
  have hfirst := makeDirectoryIfNone_of_error
    (locate_eq_missing h hdown (by rw [List.dropLast_concat, hparent]) hfree)
  have hagain := makeDirectoryIfNone_of_none hgrounded hdown
    (by rw [List.dropLast_concat, hmadeParent]) hmadeMissing
  refine ⟨?_, fun p => ?_⟩
  · rw [List.reverse_concat]
    simp only [makeDirectories, List.reverse_cons, List.reverse_reverse, hfirst, hmade, hagain]
  · rw [node?_set_directory hgrounded hmadeParent, hnode]
    simp only [List.prefix_concat_iff]
    by_cases hp : p <+: place <;> simp [hp]

/-- Without a file on the way the directories are made, and nothing else changes. The induction
goes up from the last directory, as the making does. -/
theorem makeDirectories_of_free (h : tree.Grounded) (hdown : LeadsDown place)
    (hfree : ∀ up content, up <+: place → tree.node? up ≠ some (.file content)) :
    ∃ made, tree.makeDirectories place.reverse = (made, none) ∧
      ∀ p, made.node? p = if p <+: place then some .directory else tree.node? p := by
  induction place using List.reverseRecOn with
  | nil =>
    refine ⟨tree, rfl, ?_⟩
    intro p
    by_cases hp : p = [] <;> simp [hp]
  | append_singleton front last ih =>
    have hfree' : ∀ up content, up <+: front → tree.node? up ≠ some (.file content) :=
      fun up content hup => hfree up content (hup.trans (List.prefix_append front [last]))
    match hplace : tree.node? (front ++ [last]), habove : tree.node? front with
    | some (.file content), _ => exact absurd hplace (hfree _ content List.prefix_rfl)
    | some .directory, _ =>
      refine ⟨tree, makeDirectories_of_directory h hdown hplace, fun p => ?_⟩
      split
      next hp => exact h.directory_above hplace hp
      next => rfl
    | none, some (.file content) => exact absurd habove (hfree' front content List.prefix_rfl)
    | none, some .directory =>
      have hmake := makeDirectoryIfNone_of_none h hdown
        (by rw [List.dropLast_concat, habove]) hplace
      refine ⟨_, ?_, node?_set_directory h habove last⟩
      rw [List.reverse_concat]
      simp only [makeDirectories, List.reverse_cons, List.reverse_reverse, hmake]
    | none, none =>
      obtain ⟨made, hmade, hnode⟩ := ih hdown.of_concat.1 hfree'
      exact ⟨_, makeDirectories_of_missing h hdown hfree habove hplace hmade hnode⟩

/-- Directories are made along plain names, unless a file is in the way. -/
theorem makeDirectories_outcome (h : tree.Grounded) (hdown : LeadsDown place) :
    (∃ refusal up content, tree.makeDirectories place.reverse = (tree, some refusal) ∧
      up <+: place ∧ tree.node? up = some (.file content)) ∨
      ∃ after, tree.makeDirectories place.reverse = (after, none) ∧ tree.Extended place after := by
  by_cases hfile : ∃ up content, up <+: place ∧ tree.node? up = some (.file content)
  · obtain ⟨up, content, hup, hcontent⟩ := hfile
    obtain ⟨refusal, hmake⟩ := makeDirectories_of_file h hdown hup hcontent
    exact Or.inl ⟨refusal, up, content, hmake, hup, hcontent⟩
  · have hfree : ∀ up content, up <+: place → tree.node? up ≠ some (.file content) :=
      fun up content hup hcontent => hfile ⟨up, content, hup, hcontent⟩
    obtain ⟨made, hmake, hnode⟩ := makeDirectories_of_free h hdown hfree
    exact Or.inr ⟨made, hmake, hfree, hnode⟩

theorem Extended.grounded {after : FileTree} (h : tree.Grounded)
    (hextended : tree.Extended place after) : after.Grounded :=
  h.of_directories hextended.2

theorem Written.grounded {after : FileTree} (h : tree.Grounded)
    (hwritten : tree.Written place content after) : after.Grounded := by
  obtain ⟨hfree, hafter⟩ := hwritten
  intro p node hnode
  rw [hafter] at hnode ⊢
  by_cases hroot : p = []
  · subst hroot
    by_cases hplace : [] = place
    · exact absurd (Or.inl (hplace ▸ node?_nil tree)) hfree
    · simp [hplace]
  have hshort : p.dropLast ≠ p := fun heq => by
    have hlength := congrArg List.length heq
    have hpositive := List.length_pos_iff.mpr hroot
    simp only [List.length_dropLast] at hlength
    omega
  by_cases hp : p <+: place
  · have hne : p.dropLast ≠ place := by
      rintro rfl
      exact hshort ((List.dropLast_prefix p).eq_of_length_le hp.length_le)
    simp [hne, (List.dropLast_prefix p).trans hp]
  · have hold : tree.node? p = some node := by
      have hne : p ≠ place := fun heq => hp (heq ▸ List.prefix_rfl)
      simpa [hp, hne] using hnode
    have hparent := h p node hold
    by_cases hplace : p.dropLast = place
    · exact absurd (Or.inl (hplace ▸ hparent)) hfree
    · simp [hplace, hparent]

theorem prefix_dropLast_iff (hplace : place ≠ []) :
    up <+: place.dropLast ↔ up <+: place ∧ up ≠ place := by
  obtain ⟨front, last, rfl⟩ := (List.eq_nil_or_concat' place).resolve_left hplace
  rw [List.dropLast_concat, List.prefix_concat_iff]
  have hfront : up <+: front → up ≠ front ++ [last] := by
    rintro hup rfl
    have hlength := hup.length_le
    rw [List.length_append, List.length_singleton] at hlength
    omega
  exact ⟨fun hup => ⟨Or.inr hup, hfront hup⟩, fun ⟨hup, hne⟩ => hup.resolve_left hne⟩

/-- A write along plain names either is refused and leaves the tree as it is, and then something
was in the way, or puts the file where it belongs. -/
theorem write_outcome (h : tree.Grounded) (hdown : LeadsDown place) (content : List UInt8) :
    (∃ refusal, tree.write place content = (tree, some refusal) ∧ tree.Blocks place) ∨
      ∃ after, tree.write place content = (after, none) ∧ tree.Written place content after := by
  have htail : place.reverse.tail = place.dropLast.reverse := List.tail_reverse
  have hdown' : LeadsDown place.dropLast :=
    fun name hname => hdown name (List.dropLast_subset place hname)
  by_cases hplace : tree.node? place = some .directory
  · -- A directory stands there, so those above it are there as well and none is made.
    have hmake := makeDirectories_of_directory h hdown' (h place _ hplace)
    have hput : tree.putFile place content = .error .isDirectory := by
      simp [putFile, locate_eq_ok h hdown (h place _ hplace), bind, Except.bind, hplace, throw,
        throwThe, MonadExceptOf.throw]
    exact Or.inl ⟨.isDirectory, by simp only [write, htail, hmake, hput], Or.inl hplace⟩
  have hroot : place ≠ [] := by
    rintro rfl
    exact hplace (node?_nil tree)
  rcases makeDirectories_outcome h hdown' with
    ⟨refusal, up, old, hmake, hup, hold⟩ | ⟨made, hmake, hfree, hnode⟩
  · obtain ⟨hstart, hne⟩ := (prefix_dropLast_iff hroot).mp hup
    exact Or.inl ⟨refusal, by simp only [write, htail, hmake],
      Or.inr ⟨up, old, hstart, hne, hold⟩⟩
  · have hlocate : made.locate place = .ok place :=
      locate_eq_ok (h.of_directories hnode) hdown (by simp [hnode])
    have hmadePlace : made.node? place ≠ some .directory := by
      have hbeyond : ¬ place <+: place.dropLast := fun hup =>
        ((prefix_dropLast_iff hroot).mp hup).2 rfl
      rwa [hnode, if_neg hbeyond]
    have hput : made.putFile place content = .ok (made.set place (.file content)) := by
      simp only [putFile, hlocate, bind, Except.bind, pure, Except.pure]
    refine Or.inr ⟨made.set place (.file content), by simp only [write, htail, hmake, hput], ?_, ?_⟩
    · rintro (hdirectory | ⟨up, old, hup, hne, hold⟩)
      · exact hplace hdirectory
      · exact hfree up old ((prefix_dropLast_iff hroot).mpr ⟨hup, hne⟩) hold
    · intro p
      rw [node?_set hroot, hnode]
      simp only [prefix_dropLast_iff hroot]
      by_cases hp : p = place <;> simp [hp]

end Disentangle.FileTree
