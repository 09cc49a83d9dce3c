import Disentangle.Path.Specifier
import Disentangle.Proofs.Files.Search

/-!
Specifiers lead back to the files they were made for, if the extension that is left out is the one
that is understood: a file is named from another one by climbing to their common ancestor and going
down, and walking that route from the other file's directory ends at the file. A declaration file,
or a file whose name ends in another known extension before `.ts`, is not found again.
-/

namespace Disentangle

namespace Text

theorem join_concat (separator : Text) (front : List Text) (last : Text) :
    join separator (front ++ [last]) = front.flatMap (· ++ separator) ++ last := by
  induction front with
  | nil => rfl
  | cons t rest ih =>
    obtain ⟨next, more, hmore⟩ := List.exists_cons_of_ne_nil
      (List.append_ne_nil_of_right_ne_nil rest (List.cons_ne_nil last []))
    have hjoin : join separator (t :: next :: more) =
        t ++ separator ++ join separator (next :: more) := rfl
    rw [List.cons_append, hmore, hjoin, ← hmore, ih, List.flatMap_cons]
    simp only [List.append_assoc]

end Text

namespace Path

variable {mark path head name tail cwd : Text} {front : List Text}

/-- A text behind which a name begins: it is empty or ends in a slash. -/
def EndsOpen (head : Text) : Prop :=
  ∀ c ∈ head.getLast?, c = '/'

theorem endsOpen_flatMap (front : List Text) : EndsOpen (front.flatMap (· ++ ['/'])) := by
  intro c hc
  rcases List.eq_nil_or_concat' front with rfl | ⟨front, last, rfl⟩
  · cases hc
  · rw [List.flatMap_append, List.flatMap_singleton, ← List.append_assoc,
      List.getLast?_concat] at hc
    exact (Option.some.inj hc).symm

theorem EndsOpen.append {head' : Text} (h : EndsOpen head') (hhead : EndsOpen head) :
    EndsOpen (head ++ head') := by
  intro c hc
  rw [List.getLast?_append] at hc
  cases hlast : head'.getLast? with
  | none =>
    rw [hlast] at hc
    exact hhead c hc
  | some d =>
    rw [hlast] at hc
    exact h c (hlast ▸ hc)

theorem takeWhile_reverse_of_endsOpen (hhead : EndsOpen head) (hname : '/' ∉ name) :
    (head ++ name).reverse.takeWhile (· ≠ '/') = name.reverse := by
  have hall : ∀ c ∈ name.reverse, decide (c ≠ '/') = true := by
    intro c hc
    rw [decide_eq_true_eq]
    rintro rfl
    exact hname (List.mem_reverse.mp hc)
  rw [List.reverse_append, List.takeWhile_append_of_pos hall]
  cases hlast : head.reverse with
  | nil => simp
  | cons c rest =>
    have hc : c = '/' := by
      apply hhead c
      rw [← List.head?_reverse, hlast]
      rfl
    simp [hc]

theorem lastName_append (hhead : EndsOpen head) (hname : '/' ∉ name) :
    lastName (head ++ name) = name := by
  rw [lastName, takeWhile_reverse_of_endsOpen hhead hname, List.reverse_reverse]

/-- Whether a path ends in a text without slashes is told by its last name. -/
theorem suffix_append_iff (hhead : EndsOpen head) (hne : tail ≠ []) (htail : '/' ∉ tail) :
    tail <:+ head ++ name ↔ tail <:+ name := by
  refine ⟨fun h => ?_, fun h => h.trans (List.suffix_append head name)⟩
  rcases Nat.le_total tail.length name.length with hle | hle
  · exact List.suffix_of_suffix_length_le h (List.suffix_append head name) hle
  · obtain ⟨rest, rfl⟩ := List.suffix_of_suffix_length_le (List.suffix_append head name) h hle
    obtain ⟨before, hbefore⟩ := h
    rw [← List.append_assoc, List.append_cancel_right_eq] at hbefore
    rcases List.eq_nil_or_concat' rest with rfl | ⟨rest, c, rfl⟩
    · exact List.suffix_rfl
    · have hc : c = '/' := by
        apply hhead c
        rw [← hbefore, ← List.append_assoc, List.getLast?_concat]
        rfl
      exact absurd (by simp [hc]) htail

theorem endsWith_append (hhead : EndsOpen head) (hne : tail ≠ []) (htail : '/' ∉ tail) :
    Text.endsWith (head ++ name) tail = Text.endsWith name tail := by
  rw [Bool.eq_iff_iff, Text.endsWith, Text.endsWith, List.isSuffixOf_iff_suffix,
    List.isSuffixOf_iff_suffix]
  exact suffix_append_iff hhead hne htail

theorem hasKnownExtension_eq_true_iff :
    hasKnownExtension path = true ↔ ∃ extension ∈ knownExtensions, extension <:+ path := by
  simp only [hasKnownExtension, List.any_eq_true, Text.endsWith, List.isSuffixOf_iff_suffix]

theorem isName_of_mem_knownExtensions {extension : Text} (h : extension ∈ knownExtensions) :
    IsName extension := by
  have hall : ∀ extension ∈ knownExtensions, IsName extension := by decide
  exact hall extension h

theorem hasKnownExtension_append (hhead : EndsOpen head) :
    hasKnownExtension (head ++ name) = hasKnownExtension name := by
  rw [Bool.eq_iff_iff, hasKnownExtension_eq_true_iff, hasKnownExtension_eq_true_iff]
  refine exists_congr fun extension => and_congr_right fun hmem => ?_
  have hextension := isName_of_mem_knownExtensions hmem
  exact suffix_append_iff hhead hextension.ne_nil hextension.no_slash

/-- The extension of a path is that of its last name. -/
theorem stripExtension_append (hhead : EndsOpen head) (hname : '/' ∉ name) :
    stripExtension (head ++ name) = head ++ stripExtension name := by
  have hnil : EndsOpen [] := fun c hc => by cases hc
  have hself : lastName name = name := lastName_append hnil hname
  have hends : Text.endsWith (head ++ name) ".d.ts".toList = name.endsWith ".d.ts".toList :=
    endsWith_append hhead (by decide) (by decide)
  unfold stripExtension
  rw [hends]
  split
  next hdeclaration =>
    have hlength : 5 ≤ name.length := (List.isSuffixOf_iff_suffix.mp hdeclaration).length_le
    rw [List.length_append, Nat.add_sub_assoc hlength, List.take_length_add_append]
  next =>
    dsimp only
    rw [lastName_append hhead hname, hself, List.length_append, Nat.add_sub_cancel, List.take_left,
      Nat.sub_self, List.take_zero, List.nil_append]

theorem IsName.exists_concat (h : IsName name) : ∃ body c, name = body ++ [c] ∧ c ≠ '/' := by
  obtain ⟨body, c, rfl⟩ := (List.eq_nil_or_concat' name).resolve_left h.ne_nil
  refine ⟨body, c, rfl, ?_⟩
  rintro rfl
  exact h.no_slash (by simp)

theorem endsOpen_mark (hmark : mark = ['/'] ∨ mark = ['/', '/']) : EndsOpen mark := by
  rcases hmark with rfl | rfl <;> (intro c hc; cases hc; rfl)

/-- The directory of a canonical path has all its names but the last one. -/
theorem parent_canonical (hmark : mark = ['/'] ∨ mark = ['/', '/'])
    (hnames : ∀ n ∈ front ++ [name], IsName n) :
    parent (mark ++ Text.join ['/'] (front ++ [name])) = mark ++ Text.join ['/'] front := by
  have hname := hnames name (by simp)
  have hhead : EndsOpen (mark ++ front.flatMap (· ++ ['/'])) :=
    (endsOpen_flatMap front).append (endsOpen_mark hmark)
  have hsplit : ((mark ++ Text.join ['/'] (front ++ [name])).reverse.dropWhile (· ≠ '/')).reverse =
      mark ++ front.flatMap (· ++ ['/']) := by
    have hwhole := List.takeWhile_append_dropWhile (p := fun c => decide (c ≠ '/'))
      (l := (mark ++ front.flatMap (· ++ ['/']) ++ name).reverse)
    rw [takeWhile_reverse_of_endsOpen hhead hname.no_slash, List.reverse_append,
      List.append_cancel_left_eq] at hwhole
    rw [Text.join_concat, ← List.append_assoc, List.reverse_append, hwhole, List.reverse_reverse]
  unfold parent
  dsimp only
  rw [hsplit]
  rcases List.eq_nil_or_concat' front with rfl | ⟨front, last, rfl⟩
  · have hall : (mark ++ [].flatMap (· ++ ['/'])).all (· = '/') = true := by
      rcases hmark with rfl | rfl <;> rfl
    rw [if_pos hall]
    rfl
  · obtain ⟨body, c, rfl, hc⟩ := (hnames last (by simp)).exists_concat
    have hend : mark ++ (front ++ [body ++ [c]]).flatMap (· ++ ['/']) =
        mark ++ front.flatMap (· ++ ['/']) ++ body ++ [c] ++ ['/'] := by
      simp
    have hnot : (mark ++ (front ++ [body ++ [c]]).flatMap (· ++ ['/'])).all (· = '/') ≠ true := by
      rw [hend]
      simp [hc]
    rw [if_neg hnot, hend, trimSlashes, List.reverse_append, Text.join_concat]
    simp [hc]

theorem take_sharedDepth (up down : List Text) :
    up.take (sharedDepth up down) = down.take (sharedDepth up down) := by
  fun_induction sharedDepth up down with
  | case1 a up down ih => rw [List.take_succ_cons, List.take_succ_cons, ih]
  | case2 => rfl
  | case3 => rfl

theorem sharedDepth_le (up down : List Text) :
    sharedDepth up down ≤ up.length ∧ sharedDepth up down ≤ down.length := by
  fun_induction sharedDepth up down with
  | case1 a up down ih => simpa using ih
  | case2 => simp
  | case3 => simp

/-- Each step up takes one name off the walk. -/
theorem foldl_walk_dots (above : List Text) (k : Nat) :
    (List.replicate k ['.', '.']).foldl walk above = above.drop k := by
  induction k generalizing above with
  | zero => rfl
  | succ k ih =>
    have hstep : walk above ['.', '.'] = above.tail := by simp [walk]
    rw [List.replicate_succ, List.foldl_cons, hstep, ih, List.drop_tail]

theorem names_canonical {names : List Text} (hmark : mark = ['/'] ∨ mark = ['/', '/'])
    (hnames : ∀ n ∈ names, IsName n) : Path.names (mark ++ Text.join ['/'] names) = names := by
  rcases hmark with rfl | rfl
  · exact (names_slash _).trans (names_join hnames)
  · exact ((names_slash _).trans (names_slash _)).trans (names_join hnames)

theorem getLast?_ne_slash (start : Text) (front : List Text) (hname : IsName name) :
    (start ++ Text.join ['/'] (front ++ [name])).getLast? ≠ some '/' := by
  obtain ⟨body, c, rfl, hc⟩ := hname.exists_concat
  rw [Text.join_concat, ← List.append_assoc, ← List.append_assoc, List.getLast?_concat]
  exact fun hslash => hc (Option.some.inj hslash)

/-- A path that is read from a canonical directory is walked from there. -/
theorem names_append {names : List Text} (hmark : mark = ['/'] ∨ mark = ['/', '/'])
    (hnames : ∀ n ∈ names, IsName n) {route : Text} (hroute : route.head? ≠ some '/') :
    Path.names (append (mark ++ Text.join ['/'] names) route) =
      ((Text.pieces '/' route).foldl walk names.reverse).reverse := by
  have hslashes (t : Text) : Path.names (mark ++ t) = Path.names t := by
    rcases hmark with rfl | rfl
    · exact names_slash t
    · exact (names_slash _).trans (names_slash t)
  have hne : mark ++ Text.join ['/'] names ≠ [] := by
    rcases hmark with rfl | rfl <;> exact List.cons_ne_nil _ _
  rw [append_of_relative hne hroute, List.append_assoc, hslashes]
  rcases List.eq_nil_or_concat' names with rfl | ⟨front, last, rfl⟩
  · have hlast : (mark ++ Text.join ['/'] []).getLast? = some '/' := by
      rcases hmark with rfl | rfl <;> rfl
    rw [if_pos hlast]
    rfl
  · have hlast := getLast?_ne_slash mark front (hnames last (by simp))
    rw [if_neg hlast, Path.names, Text.pieces_append_cons, List.foldl_append,
      foldl_walk_pieces_join hnames]

/-- The route from a canonical directory to a path that is none of its ancestors: up to the common
ancestor, then down to the last name. -/
theorem exists_relativeTo (cwd : Text) {up down : List Text}
    (hmark : mark = ['/'] ∨ mark = ['/', '/']) (hup : ∀ n ∈ up, IsName n)
    (hdown : ∀ n ∈ down, IsName n) (hbelow : ¬ down <+: up) :
    ∃ steps last, relativeTo cwd (mark ++ Text.join ['/'] down) (mark ++ Text.join ['/'] up) =
        Text.join ['/'] (steps ++ [last]) ∧
      (∀ step ∈ steps ++ [last], IsStep step) ∧ down.getLast? = some last ∧
      ((steps ++ [last]).foldl walk up.reverse).reverse = down := by
  have habsolute (names : List Text) : append cwd (mark ++ Text.join ['/'] names) =
      mark ++ Text.join ['/'] names :=
    append_of_isAbsolute cwd (isAbsolute_append (isAbsolute_mark hmark) _)
  have htake := take_sharedDepth up down
  obtain ⟨hleUp, hleDown⟩ := sharedDepth_le up down
  unfold relativeTo
  dsimp only
  rw [habsolute, habsolute, names_canonical hmark hup, names_canonical hmark hdown]
  generalize sharedDepth up down = shared at htake hleUp hleDown
  obtain hnil | ⟨middle, last, hrest⟩ := List.eq_nil_or_concat' (down.drop shared)
  · refine absurd ?_ hbelow
    have hall := List.take_append_drop shared down
    rw [hnil, List.append_nil, ← htake] at hall
    rw [← hall]
    exact List.take_prefix _ _
  have hmiddle : ∀ n ∈ middle ++ [last], IsName n :=
    fun n hn => hdown n (List.mem_of_mem_drop (hrest ▸ hn))
  refine ⟨List.replicate (up.length - shared) ['.', '.'] ++ middle, last, ?_, ?_, ?_, ?_⟩
  · rw [hrest, ← List.append_assoc]
    split
    next hempty => exact absurd hempty (by simp)
    next => rfl
  · intro step hstep
    rw [List.append_assoc, List.mem_append] at hstep
    rcases hstep with hdots | hname
    · rw [List.eq_of_mem_replicate hdots]
      exact ⟨by decide, by decide, by decide⟩
    · exact (hmiddle step hname).isStep
  · rw [← List.take_append_drop shared down, hrest, ← List.append_assoc, List.getLast?_concat]
  · have hclimb : up.reverse.drop (up.length - shared) = (up.take shared).reverse := by
      rw [List.drop_reverse, Nat.sub_sub_self hleUp]
    rw [List.append_assoc, List.foldl_append, foldl_walk_dots, foldl_walk_names hmiddle, hclimb,
      List.reverse_append, List.reverse_reverse, List.reverse_reverse, htake, ← hrest,
      List.take_append_drop]

/-- The file that a specifier names when `.ts` is added where no extension is written. -/
def completed (specifier : Text) : Text :=
  if hasKnownExtension specifier then specifier else specifier ++ ".ts".toList

theorem hasKnownExtension_append_ts (stem : Text) :
    hasKnownExtension (stem ++ ".ts".toList) = true :=
  hasKnownExtension_eq_true_iff.mpr
    ⟨".ts".toList, List.mem_map_of_mem List.mem_cons_self, List.suffix_append stem _⟩

theorem hasKnownExtension_completed (specifier : Text) :
    hasKnownExtension (completed specifier) = true := by
  unfold completed
  split
  next hknown => exact hknown
  next => exact hasKnownExtension_append_ts specifier

theorem resolveImport_eq_some_iff {source specifier file : Text} :
    resolveImport cwd source specifier = some file ↔
      (isRelativeSpecifier specifier = true ∨ isAbsolute specifier = true) ∧
        file = standardize cwd (append (parent source) (completed specifier)) := by
  rw [← Bool.or_eq_true, resolveImport]
  split
  next hnames =>
    rw [hnames, Option.some.injEq, eq_comm]
    exact (and_iff_right rfl).symm
  next hnames => simp [hnames]

/-- What a specifier says of a file: its path, or its path without the extension. -/
def spelled (keepExtension : Bool) (path : Text) : Text :=
  if keepExtension then path else stripExtension path

theorem completed_append (hhead : EndsOpen head) :
    completed (head ++ name) = head ++ completed name := by
  unfold completed
  rw [hasKnownExtension_append hhead]
  split
  · rfl
  · rw [List.append_assoc]

theorem spelled_append (keepExtension : Bool) (hhead : EndsOpen head) (hname : '/' ∉ name) :
    spelled keepExtension (head ++ name) = head ++ spelled keepExtension name := by
  unfold spelled
  split
  · rfl
  · exact stripExtension_append hhead hname

theorem endsOpen_dot : EndsOpen "./".toList := by
  intro c hc
  cases hc
  rfl

/-- A file that is named after a route is the one at the end of the route. -/
theorem resolveImport_route (cwd : Text) {up steps : List Text} {last spelling : Text}
    (hmark : mark = ['/'] ∨ mark = ['/', '/']) (hup : ∀ n ∈ up, IsName n)
    {base : Text} (hparent : parent base = mark ++ Text.join ['/'] up)
    (hsteps : ∀ step ∈ steps ++ [last], IsStep step)
    (hspelling : completed spelling = Text.join ['/'] (steps ++ [last]) ∨
      completed spelling = "./".toList ++ Text.join ['/'] (steps ++ [last]))
    (hrelative : isRelativeSpecifier spelling = true) :
    ∃ file, resolveImport cwd base spelling = some file ∧ IsCanonical mark file ∧
      components file = ((steps ++ [last]).foldl walk up.reverse).reverse := by
  have hcanonical : IsCanonical mark (mark ++ Text.join ['/'] up) := ⟨hmark, up, hup, rfl⟩
  have hhead : (completed spelling).head? ≠ some '/' := by
    rcases hspelling with h | h
    · rw [h]
      exact head?_join_of_isStep hsteps
    · rw [h]
      exact fun hslash => absurd (Option.some.inj hslash) (by decide)
  have hwalk : (Text.pieces '/' (completed spelling)).foldl walk up.reverse =
      (steps ++ [last]).foldl walk up.reverse := by
    have hpieces : Text.pieces '/' (Text.join ['/'] (steps ++ [last])) = steps ++ [last] :=
      Text.pieces_join (by simp) fun step hstep => (hsteps step hstep).no_slash
    rcases hspelling with h | h
    · rw [h, hpieces]
    · have hdot : "./".toList ++ Text.join ['/'] (steps ++ [last]) =
          ['.'] ++ '/' :: Text.join ['/'] (steps ++ [last]) := rfl
      rw [h, hdot, Text.pieces_append_cons, List.foldl_append, hpieces]
      rfl
  refine ⟨_, ?_, hcanonical.standardize_append cwd hhead, ?_⟩
  · exact resolveImport_eq_some_iff.mpr ⟨.inl hrelative, by rw [hparent]⟩
  · obtain ⟨rest, happend, -⟩ := hcanonical.exists_append hhead
    have habsolute : isAbsolute (append (mark ++ Text.join ['/'] up) (completed spelling)) = true :=
      happend ▸ isAbsolute_append (isAbsolute_mark hmark) rest
    rw [components_standardize, append_of_isAbsolute cwd habsolute, names_append hmark hup hhead,
      hwalk]

/-- The specifier of a file that is no ancestor of the importing one: the route to it, with what is
said of its last name. -/
theorem exists_relativeImport? (cwd : Text) {base target : Text} (hbase : IsCanonical mark base)
    (htarget : IsCanonical mark target) (hfile : components base ≠ [])
    (hbelow : ¬ components target <+: (components base).dropLast) (keepExtension : Bool) :
    ∃ up steps last start spelling, (∀ n ∈ up, IsName n) ∧
      parent base = mark ++ Text.join ['/'] up ∧ (∀ step ∈ steps ++ [last], IsStep step) ∧
      ((steps ++ [last]).foldl walk up.reverse).reverse = components target ∧
      EndsOpen start ∧ target = start ++ last ∧
      relativeImport? cwd base target keepExtension = some spelling ∧
      isRelativeSpecifier spelling = true ∧
      (spelling = steps.flatMap (· ++ ['/']) ++ spelled keepExtension last ∨
        spelling = "./".toList ++ (steps.flatMap (· ++ ['/']) ++ spelled keepExtension last)) := by
  obtain ⟨hmark, names, hnames, rfl⟩ := hbase
  obtain ⟨-, down, hdown, rfl⟩ := htarget
  rw [components_canonical hmark hnames] at hfile hbelow
  rw [components_canonical hmark hdown] at hbelow ⊢
  obtain ⟨up, name, rfl⟩ := (List.eq_nil_or_concat' names).resolve_left hfile
  rw [List.dropLast_concat] at hbelow
  have hup : ∀ n ∈ up, IsName n := fun n hn => hnames n (List.mem_append_left _ hn)
  have hparent := parent_canonical hmark hnames
  obtain ⟨steps, last, hroute, hsteps, hlast, hwalk⟩ :=
    exists_relativeTo cwd hmark hup hdown hbelow
  obtain ⟨front, rfl⟩ : ∃ front, down = front ++ [last] := by
    obtain rfl | ⟨front, last', rfl⟩ := List.eq_nil_or_concat' down
    · cases hlast
    · rw [List.getLast?_concat] at hlast
      exact ⟨front, by rw [Option.some.inj hlast]⟩
  have hempty : (mark ++ Text.join ['/'] (front ++ [last])).isEmpty = false := by
    rcases hmark with rfl | rfl <;> rfl
  have hsaid : spelled keepExtension (Text.join ['/'] (steps ++ [last])) =
      steps.flatMap (· ++ ['/']) ++ spelled keepExtension last := by
    rw [Text.join_concat,
      spelled_append keepExtension (endsOpen_flatMap steps) (hsteps last (by simp)).no_slash]
  have hspelled : relativeImport? cwd (mark ++ Text.join ['/'] (up ++ [name]))
      (mark ++ Text.join ['/'] (front ++ [last])) keepExtension =
      some (if isRelativeSpecifier (steps.flatMap (· ++ ['/']) ++ spelled keepExtension last) then
        steps.flatMap (· ++ ['/']) ++ spelled keepExtension last
        else "./".toList ++ (steps.flatMap (· ++ ['/']) ++ spelled keepExtension last)) := by
    rw [relativeImport?, hempty, if_neg Bool.false_ne_true]
    dsimp only
    rw [if_neg (getLast?_ne_slash mark up (hnames name (by simp))), hparent, hroute, ← hsaid]
    rfl
  refine ⟨up, steps, last, mark ++ front.flatMap (· ++ ['/']), _, hup, hparent, hsteps, hwalk,
    (endsOpen_flatMap front).append (endsOpen_mark hmark), by rw
    [Text.join_concat, List.append_assoc],
    hspelled, ?_, ?_⟩
  · split
    next hrelative => exact hrelative
    next => rfl
  · split
    · exact .inl rfl
    · exact .inr rfl

/-- The specifier of a file leads back to it if the path follows from what is said of it, and it
ends in the same extension. -/
theorem resolveImport_of_completed {base target spelling : Text} {keepExtension : Bool}
    (hbase : IsCanonical mark base) (htarget : IsCanonical mark target)
    (hfile : components base ≠ []) (hbelow : ¬ components target <+: (components base).dropLast)
    (hcompleted : completed (spelled keepExtension target) = target)
    (h : relativeImport? cwd base target keepExtension = some spelling) :
    hasKnownExtension spelling = hasKnownExtension (spelled keepExtension target) ∧
      resolveImport cwd base spelling = some target := by
  obtain ⟨up, steps, last, start, spelling', hup, hparent, hsteps, hwalk, hopen, htargetEq,
    hspelled, hrelative, hspelling⟩ :=
    exists_relativeImport? cwd hbase htarget hfile hbelow keepExtension
  obtain rfl := Option.some.inj (h.symm.trans hspelled)
  have hslash := (hsteps last (by simp)).no_slash
  have hroute := endsOpen_flatMap steps
  -- Path and specifier end in the same name, so that the same is said of both.
  rw [htargetEq, spelled_append keepExtension hopen hslash]
  rw [htargetEq, spelled_append keepExtension hopen hslash, completed_append hopen,
    List.append_cancel_left_eq] at hcompleted
  rw [hasKnownExtension_append hopen]
  have hjoined : completed (steps.flatMap (· ++ ['/']) ++ spelled keepExtension last) =
      Text.join ['/'] (steps ++ [last]) := by
    rw [completed_append hroute, hcompleted, Text.join_concat]
  have hwhole : completed spelling = Text.join ['/'] (steps ++ [last]) ∨
      completed spelling = "./".toList ++ Text.join ['/'] (steps ++ [last]) := by
    rcases hspelling with rfl | rfl
    · exact .inl hjoined
    · exact .inr (by rw [completed_append endsOpen_dot, hjoined])
  obtain ⟨file, hresolve, hcanonical, hcomponents⟩ :=
    resolveImport_route cwd hbase.isMark hup hparent hsteps hwhole hrelative
  rw [hresolve, hcanonical.eq_of_components htarget (hcomponents.trans hwalk), ← htargetEq]
  refine ⟨?_, rfl⟩
  rcases hspelling with rfl | rfl
  · rw [hasKnownExtension_append hroute]
  · rw [hasKnownExtension_append endsOpen_dot, hasKnownExtension_append hroute]

/-- A file of which a specifier leaves out the extension that is understood: it is named `.ts`, and
without this its name ends in no other extension that importers may write. -/
structure IsPlainSource (path : Text) : Prop where
  stem : stripExtension path ++ ".ts".toList = path
  plain : hasKnownExtension (stripExtension path) = false

instance (path : Text) : Decidable (IsPlainSource path) :=
  decidable_of_iff (stripExtension path ++ ".ts".toList = path ∧
    hasKnownExtension (stripExtension path) = false)
    ⟨fun ⟨hs, hp⟩ => ⟨hs, hp⟩, fun h => ⟨h.1, h.2⟩⟩

theorem IsPlainSource.completed_eq (h : IsPlainSource path) :
    completed (spelled false path) = path := by
  have hplain := h.plain
  rw [completed, spelled, if_neg Bool.false_ne_true, hplain, if_neg Bool.false_ne_true, h.stem]

/-- The specifier of a plain source leads back to it. -/
theorem resolveImport_relativeImport? {base target spelling : Text} (hbase : IsCanonical mark base)
    (htarget : IsCanonical mark target) (hfile : components base ≠ [])
    (hbelow : ¬ components target <+: (components base).dropLast) (hplain : IsPlainSource target)
    (h : relativeImport? cwd base target false = some spelling) :
    hasKnownExtension spelling = false ∧ resolveImport cwd base spelling = some target := by
  obtain ⟨hknown, hresolve⟩ :=
    resolveImport_of_completed hbase htarget hfile hbelow hplain.completed_eq h
  exact ⟨hknown.trans hplain.plain, hresolve⟩

end Path

end Disentangle
