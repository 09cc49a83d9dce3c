import Disentangle.Proofs.Extraction
import Disentangle.Proofs.Import.Routes
import Disentangle.Proofs.Section.Scan
import Disentangle.Proofs.TypeScript.Binding

/-!
Redirected import statements as a source. Such a statement is read and cut as one, whatever
follows, and it makes an import line that is redirected to the same text.
-/

namespace Disentangle

open Text TypeScript

/-- A slice that takes in a text from its beginning to its end is the text. -/
theorem Text.slice_zero {t : Text} {stop : Nat} (h : t.length ≤ stop) : t.slice 0 stop = t := by
  rw [slice, List.drop_zero, Nat.sub_zero, List.take_of_length_le h]

/-- A text that can stand in double quotes as it is. -/
def Text.IsQuotable (t : Text) : Prop :=
  ∀ c ∈ t, c ≠ '"' ∧ c ≠ '\\' ∧ c ≠ '\n' ∧ c ≠ '\r'

instance (t : Text) : Decidable t.IsQuotable :=
  List.decidableBAll (fun c => c ≠ '"' ∧ c ≠ '\\' ∧ c ≠ '\n' ∧ c ≠ '\r') t

namespace ImportLine

/-- The exported and the local names of a line. -/
def bindings (line : ImportLine) : List (Text × Text) :=
  line.names.map fun name => (line.exportedName name, name)

/-- A name as it is bound by a redirected statement. -/
def binding (line : ImportLine) (name : Text) : Binding :=
  ⟨name, line.exportedName name, line.typeOnly⟩

/-- What stands before the literal in a redirected statement. -/
def redirectedFront (line : ImportLine) : Text :=
  (if line.typeOnly then "import type ".toList else "import ".toList) ++ line.clauses ++
    " from".toList

/-- What a redirected statement says. -/
def redirectedStatement (line : ImportLine) : ImportStatement :=
  ⟨line.typeOnly, .bindings none none line.bindings, (line.redirectedFront ++ [' ']).length⟩

/-- The names of a line are words, here and in the module. -/
def HasPlainNames (line : ImportLine) : Prop :=
  ∀ name ∈ line.names, isWord name = true ∧ isWord (line.exportedName name) = true

instance (line : ImportLine) : Decidable line.HasPlainNames :=
  List.decidableBAll
    (fun name => isWord name = true ∧ isWord (line.exportedName name) = true) line.names

section Spelling

variable {line : ImportLine} {specifier rest t name : Text} {c : Char} {token : Token}

theorem trivia_space : Trivia false [' '] :=
  .blank ' ' isBlank_space .nil

theorem spells_token (hplain : token.IsPlain) (hends : token.EndsBefore rest) :
    Spells rest (' ' :: token.text) [token] := by
  have hspells : Spells rest ([' '] ++ (token.text ++ [])) [token] :=
    .cons trivia_space hplain hends .nil
  simpa using hspells

theorem spells_sign {symbol : Text} (hsymbol : symbol ∈ importSigns)
    (hends : (Token.sign symbol).EndsBefore rest) : Spells rest symbol [.sign symbol] := by
  have hplain : (Token.sign symbol).IsPlain := hsymbol
  have hspells : Spells rest ([] ++ (symbol ++ [])) [.sign symbol] := .cons .nil hplain hends .nil
  simpa using hspells

theorem spells_spaced_sign {symbol : Text} (hsymbol : symbol ∈ importSigns)
    (hends : (Token.sign symbol).EndsBefore rest) : Spells rest (' ' :: symbol) [.sign symbol] := by
  have hplain : (Token.sign symbol).IsPlain := hsymbol
  exact spells_token hplain hends

theorem spells_word (hname : isWord name = true) (hc : isWordPart c = false) (hescape : c ≠ '\\') :
    Spells (c :: rest) (' ' :: name) [.word name] := by
  have hplain : (Token.word name).IsPlain := hname
  refine spells_token hplain fun d hd => ?_
  cases hd
  simp [Token.goesOn, hc, hescape]

theorem spells_import (rest : Text) :
    Spells (' ' :: rest) "import".toList [.word "import".toList] := by
  have hplain : (Token.word "import".toList).IsPlain := by
    unfold Token.IsPlain
    decide +kernel
  have hends : (Token.word "import".toList).EndsBefore ([] ++ ' ' :: rest) := by
    intro c hc
    cases hc
    rfl
  exact .cons .nil hplain hends .nil

theorem isWordPart_space : isWordPart ' ' = false := rfl

/-- A name of a redirected statement is read as its exported and its local name. -/
theorem spells_clause (hname : isWord name = true)
    (hexported : isWord (line.exportedName name) = true) (hc : isWordPart c = false)
    (hescape : c ≠ '\\') (rest : Text) :
    ∃ tokens, SpecifierTokens tokens (line.exportedName name, name) ∧
      Spells (c :: rest) (' ' :: line.clause name) tokens := by
  have hlast : Spells (c :: rest) (' ' :: name) [.word name] := spells_word hname hc hescape
  unfold clause
  dsimp only
  split
  next heq =>
    rw [heq]
    exact ⟨_, .bare name, hlast⟩
  next hne =>
    have has : isWord "as".toList = true := by decide +kernel
    have hword : Spells (' ' :: (name ++ c :: rest)) (' ' :: "as".toList) [.word "as".toList] :=
      spells_word has isWordPart_space (by decide)
    have hfirst : Spells (' ' :: ("as".toList ++ ' ' :: (name ++ c :: rest)))
        (' ' :: line.exportedName name) [.word (line.exportedName name)] :=
      spells_word hexported isWordPart_space (by decide)
    have hwhole := hfirst.append (hword.append hlast)
    refine ⟨_, .renamed (line.exportedName name) name, ?_⟩
    have htext : ' ' :: line.exportedName name ++ (' ' :: "as".toList ++ ' ' :: name) =
        ' ' :: (line.exportedName name ++ " as ".toList ++ name) := by simp
    rw [← htext]
    exact hwhole

/-- The names of a redirected statement are read as they are written, without marks. -/
theorem spells_clauses {names : List Text} (hne : names ≠ [])
    (hnames : ∀ name ∈ names, isWord name = true ∧ isWord (line.exportedName name) = true)
    (rest : Text) :
    ∃ tokens, NamesTokens tokens (names.map fun name => (line.exportedName name, name)) ∧
      NamesBind line.typeOnly tokens (names.map line.binding) ∧
      Spells (' ' :: rest) (' ' :: join ", ".toList (names.map line.clause)) tokens := by
  induction names with
  | nil => exact absurd rfl hne
  | cons name names ih =>
    obtain ⟨⟨hname, hexported⟩, hnames⟩ := List.forall_mem_cons.mp hnames
    cases names with
    | nil =>
      obtain ⟨tokens, htokens, hspells⟩ :=
        spells_clause hname hexported isWordPart_space (by decide) rest
      exact ⟨tokens, .last (.unmarked htokens), .last (.unmarked htokens), hspells⟩
    | cons next names =>
      obtain ⟨more, hmore, hbinds, hrest⟩ := ih (List.cons_ne_nil _ _) hnames
      have hcomma : ∀ later, Spells later [','] [.sign [',']] :=
        fun _ => spells_sign (by decide) fun _ _ => rfl
      have hpart : isWordPart ',' = false := isWordPart_of_stops (by decide)
      obtain ⟨tokens, htokens, hspells⟩ := spells_clause hname hexported hpart (by decide)
        (' ' :: (join ", ".toList ((next :: names).map line.clause) ++ ' ' :: rest))
      refine ⟨_, .cons (.unmarked htokens) hmore, .cons (.unmarked htokens) hbinds, ?_⟩
      have hwhole := Spells.append hspells ((hcomma _).append hrest)
      have htext : ' ' :: line.clause name ++
          ([','] ++ ' ' :: join ", ".toList ((next :: names).map line.clause)) =
          ' ' :: join ", ".toList ((name :: next :: names).map line.clause) := by
        simp [join]
      rw [← htext]
      exact hwhole

/-- The names of a redirected statement in braces, up to `from`, are read as what it binds. -/
theorem spells_bindings (hne : line.names ≠ []) (hnames : line.HasPlainNames) (rest : Text) :
    ∃ clause, ClauseTokens (clause ++ [.word "from".toList])
        (.bindings none none line.bindings) [] ∧
      ClauseBinds line.typeOnly clause (line.names.map line.binding) ∧
      Spells (' ' :: rest) (' ' :: (line.clauses ++ " from".toList))
        (clause ++ [.word "from".toList]) := by
  obtain ⟨tokens, htokens, hbinds, hspells⟩ :=
    spells_clauses hne hnames ('\x7d' :: (" from".toList ++ ' ' :: rest))
  have hfrom : Spells (' ' :: rest) (' ' :: "from".toList) [.word "from".toList] :=
    spells_word (by decide +kernel) isWordPart_space (by decide)
  have hclose : Spells (' ' :: "from".toList ++ ' ' :: rest) [' ', '\x7d'] [.sign ['\x7d']] :=
    spells_spaced_sign (by decide) fun _ _ => rfl
  have hnamed := hspells.append (hclose.append hfrom)
  have hopen : ∀ later, Spells later [' ', '\x7b'] [.sign ['\x7b']] :=
    fun _ => spells_spaced_sign (by decide) fun _ _ => rfl
  have hbraces := (hopen _).append hnamed
  refine ⟨_, .bindings (.named htokens), .named hbinds, ?_⟩
  have htext : [' ', '\x7b'] ++ (' ' :: join ", ".toList (line.names.map line.clause) ++
      ([' ', '\x7d'] ++ ' ' :: "from".toList)) = ' ' :: (line.clauses ++ " from".toList) := by
    have hleft : "\x7b ".toList = ['\x7b', ' '] := rfl
    have hright : " \x7d".toList = [' ', '\x7d'] := rfl
    have hfrom : " from".toList = ' ' :: "from".toList := rfl
    rw [clauses, hleft, hright, hfrom]
    simp only [List.append_assoc, List.cons_append, List.nil_append]
  rw [← htext]
  simpa only [List.append_assoc, List.cons_append, List.nil_append] using hbraces

/-- What stands before the literal of a redirected statement is read as the beginning of an
import. -/
theorem spells_redirectedFront (hne : line.names ≠ []) (hnames : line.HasPlainNames)
    (rest : Text) :
    ∃ front, ImportTokens front line.typeOnly (.bindings none none line.bindings) [] ∧
      ImportBinds front (line.names.map line.binding) ∧
      Spells (' ' :: rest) line.redirectedFront front := by
  obtain ⟨clause, hclause, hbinds, hspells⟩ := spells_bindings hne hnames rest
  have himport : isWord "import".toList = true := by decide +kernel
  have hsplit : "import ".toList = "import".toList ++ [' '] := rfl
  cases htype : line.typeOnly with
  | false =>
    rw [htype] at hbinds
    refine ⟨_, .unmarked hclause, .unmarked hbinds, ?_⟩
    have hwhole := (spells_import (line.clauses ++ " from".toList ++ ' ' :: rest)).append hspells
    rw [redirectedFront, htype, if_neg Bool.false_ne_true, hsplit]
    simpa only [List.append_assoc, List.cons_append, List.nil_append] using hwhole
  | true =>
    rw [htype] at hbinds
    refine ⟨_, .type hclause, .type hbinds, ?_⟩
    have hmark : Spells (' ' :: (line.clauses ++ " from".toList ++ ' ' :: rest))
        (' ' :: "type".toList) [.word "type".toList] :=
      spells_word (by decide +kernel) isWordPart_space (by decide)
    have hmarked := hmark.append hspells
    have hwhole := (spells_import ("type".toList ++ ' ' ::
      (line.clauses ++ " from".toList ++ ' ' :: rest))).append hmarked
    have hmarker : "import type ".toList = "import".toList ++ (' ' :: ("type".toList ++ [' '])) :=
      rfl
    rw [redirectedFront, htype, if_pos rfl, hmarker]
    simpa only [List.append_assoc, List.cons_append, List.nil_append] using hwhole

theorem redirected_eq : line.redirected specifier =
    line.redirectedFront ++ ([' '] ++ ((Token.string '"' specifier).text ++ [])) ++
      ([] ++ [';']) := by
  have hopen : " from \"".toList = " from".toList ++ [' ', '"'] := rfl
  have hclose : "\";".toList = ['"', ';'] := rfl
  rw [redirected, redirectedFront, hopen, hclose, Token.text]
  simp only [List.append_assoc, List.cons_append, List.nil_append]

/-- A redirected statement is read as such, whatever follows. -/
theorem spellsStatement_redirected (hne : line.names ≠ []) (hnames : line.HasPlainNames)
    (hspecifier : specifier.IsQuotable) (rest : Text) :
    SpellsStatement rest (line.redirected specifier) line.redirectedStatement := by
  obtain ⟨front, htokens, -, hfront⟩ :=
    spells_redirectedFront hne hnames ((Token.string '"' specifier).text ++ ';' :: rest)
  have hplain : (Token.string '"' specifier).IsPlain := ⟨.inl rfl, hspecifier⟩
  rw [redirected_eq]
  exact .closed (.intro htokens hfront trivia_space hplain .nil) .nil

end Spelling

section Scanning

open Section

variable {line : ImportLine} {specifier : Text} {c : Char}

theorem isInner_of_isWordPart (h : isWordPart c = true) : isInner c = true := by
  have hstop : ∀ d ∈ stops, c ≠ d := by
    rintro d hd rfl
    rw [isWordPart_of_stops (List.contains_iff_mem.mpr hd)] at h
    cases h
  have hcontrol : ∀ d : Char, d ≤ ' ' → c ≠ d := by
    rintro d hd rfl
    simp only [isWordPart, Bool.and_eq_true, decide_eq_true_eq] at h
    exact absurd h.1.1 (Char.not_lt.mpr hd)
  simp only [isInner, isLineBreak, isQuote, Bool.and_eq_true, Bool.not_eq_true',
    Bool.or_eq_false_iff, decide_eq_false_iff_not, decide_eq_true_eq]
  exact ⟨⟨⟨⟨⟨hcontrol '\r' (by decide), hcontrol '\n' (by decide)⟩,
    ⟨hstop '\'' (by decide), hstop '"' (by decide)⟩, hstop '`' (by decide)⟩,
    hstop '/' (by decide)⟩, hstop '\x7b' (by decide)⟩, hstop '\x7d' (by decide)⟩

theorem isInner_of_isWord {name : Text} (h : isWord name = true) :
    ∀ c ∈ name, isInner c = true := by
  match name, h with
  | first :: rest, h =>
    simp only [isWord, isWordStart, Bool.and_eq_true, List.all_eq_true] at h
    rw [List.forall_mem_cons]
    exact ⟨isInner_of_isWordPart h.1.1, fun c hc => isInner_of_isWordPart (h.2 c hc)⟩

theorem mem_join {separator : Text} {texts : List Text} (h : c ∈ join separator texts) :
    c ∈ separator ∨ ∃ t ∈ texts, c ∈ t := by
  fun_induction join separator texts with
  | case1 => cases h
  | case2 t => exact .inr ⟨t, List.mem_singleton_self t, h⟩
  | case3 t rest hne ih =>
    rw [List.mem_append, List.mem_append] at h
    rcases h with (h | h) | h
    · exact .inr ⟨t, List.mem_cons_self, h⟩
    · exact .inl h
    · exact (ih h).imp_right fun ⟨u, hu, hc⟩ => ⟨u, List.mem_cons_of_mem t hu, hc⟩

theorem isInner_clause {name : Text} (hname : isWord name = true)
    (hexported : isWord (line.exportedName name) = true) :
    ∀ c ∈ line.clause name, isInner c = true := by
  have has : ∀ c ∈ " as ".toList, isInner c = true := List.all_eq_true.mp (by decide)
  unfold clause
  dsimp only
  split
  · exact isInner_of_isWord hname
  · simp only [List.forall_mem_append]
    exact ⟨⟨isInner_of_isWord hexported, has⟩, isInner_of_isWord hname⟩

theorem passes_redirected (hnames : line.HasPlainNames) (hspecifier : specifier.IsQuotable) :
    Passes 0 (line.redirected specifier) 0 := by
  have hcomma : ∀ c ∈ ", ".toList, isInner c = true := List.all_eq_true.mp (by decide)
  have hinner : ∀ c ∈ join ", ".toList (line.names.map line.clause), isInner c = true := by
    intro c hc
    rcases mem_join hc with hc | ⟨clause, hclause, hc⟩
    · exact hcomma c hc
    · obtain ⟨name, hname, rfl⟩ := List.mem_map.mp hclause
      exact isInner_clause (hnames name hname).1 (hnames name hname).2 c hc
  have hmark : Passes 0 (if line.typeOnly then "import type ".toList else "import ".toList) 0 := by
    split <;> exact passes_inner (List.all_eq_true.mp (by decide))
  have hspace : ∀ depth, Passes depth [' '] depth :=
    fun _ => passes_inner (List.all_eq_true.mp (by decide))
  have hopen : Passes 0 ['\x7b'] 1 := passes_open
  have hclose : Passes 1 ['\x7d'] 0 := passes_close
  have hclauses : Passes 0 line.clauses 0 :=
    ((hopen.append (hspace 1)).append (passes_inner hinner)).append ((hspace 1).append hclose)
  have hliteral : Passes 0 ('"' :: specifier ++ ['"']) 0 :=
    passes_literal rfl fun c hc => ⟨(hspecifier c hc).1, (hspecifier c hc).2.1⟩
  have hfrom : Passes 0 " from ".toList 0 := passes_inner (List.all_eq_true.mp (by decide))
  have hend : Passes 0 [';'] 0 := passes_inner (List.all_eq_true.mp (by decide))
  have hwhole := (((hmark.append hclauses).append hfrom).append hliteral).append hend
  have htext : " from \"".toList = " from ".toList ++ ['"'] := rfl
  have hlast : "\";".toList = ['"'] ++ [';'] := rfl
  rw [redirected, htext, hlast]
  simpa only [List.append_assoc, List.cons_append, List.nil_append] using hwhole

end Scanning

section Aliases

variable {key value name : Text} {aliases : List (Text × Text)} {exported : Text → Text}

theorem lookup_cons_if (key' : Text) :
    ((key, value) :: aliases).lookup key' =
      if key' = key then some value else aliases.lookup key' := by
  by_cases h : key' = key
  · simp [h]
  · simp [List.lookup_cons, beq_false_of_ne h, h]

theorem lookup_setAlias (key' : Text) :
    (setAlias key value aliases).lookup key' =
      if key' = key then some value else aliases.lookup key' := by
  induction aliases with
  | nil => exact lookup_cons_if key'
  | cons pair rest ih =>
    obtain ⟨k, v⟩ := pair
    unfold setAlias
    by_cases hk : k = key
    · subst hk
      rw [if_pos rfl, lookup_cons_if, lookup_cons_if]
      split <;> rfl
    · rw [if_neg hk, lookup_cons_if, lookup_cons_if, ih]
      by_cases h : key' = k
      · subst h
        rw [if_pos rfl, if_pos rfl, if_neg hk]
      · rw [if_neg h, if_neg h]

/-- The aliases of names that each have one exported name give that name back. -/
theorem getD_lookup_foldl {names : List Text}
    (h : ∀ name, aliases.lookup name = none ∨ aliases.lookup name = some (exported name))
    (hname : name ∈ names ∨ (aliases.lookup name).getD name = exported name) :
    (((names.map fun name => (exported name, name)).foldl (fun aliases pair =>
      if pair.1 = pair.2 then aliases else setAlias pair.2 pair.1 aliases) aliases).lookup
        name).getD name = exported name := by
  induction names generalizing aliases with
  | nil => simpa using hname
  | cons n names ih =>
    rw [List.map_cons, List.foldl_cons]
    apply ih
    · intro name'
      split
      · exact h name'
      · rw [lookup_setAlias]
        split
        next heq => exact .inr (by rw [heq])
        next => exact h name'
    · by_cases hn : name = n
      · subst hn
        right
        split
        next heq =>
          rcases h name with hnone | hsome
          · rw [hnone]
            exact heq.symm
          · rw [hsome]
            rfl
        next => rw [lookup_setAlias, if_pos rfl, Option.getD_some]
      · rcases hname with hname | hname
        · exact .inl (List.mem_of_ne_of_mem hn hname)
        · right
          split
          · exact hname
          · rwa [lookup_setAlias, if_neg hn]

theorem getD_lookup_aliasesOf {names : List Text} (hname : name ∈ names) :
    ((aliasesOf (names.map fun name => (exported name, name))).lookup name).getD name =
      exported name :=
  getD_lookup_foldl (fun _ => .inl rfl) (.inl hname)

end Aliases

section Lines

variable {line : ImportLine} {specifier cwd path : Text} {table : SymbolTable}

/-- The import line that a redirected statement makes. -/
def redirectedLine (line : ImportLine) (cwd path specifier : Text) : ImportLine :=
  { modulePath := specifier
    resolvedPath := Path.resolveImport cwd path specifier
    names := line.names
    text := line.redirected specifier
    offset := 0
    specifier := '"' :: specifier ++ ['"']
    aliases := aliasesOf line.bindings
    typeOnly := line.typeOnly }

theorem ofStatement?_redirected (hspecifier : specifier.IsQuotable) :
    ofStatement? cwd path (line.redirected specifier) 0 (line.redirected specifier).length
      line.redirectedStatement = some (line.redirectedLine cwd path specifier) := by
  have hdrop : (line.redirected specifier).drop line.redirectedStatement.moduleAt =
      (Token.string '"' specifier).text ++ [';'] := by
    have hsplit : line.redirected specifier =
        (line.redirectedFront ++ [' ']) ++ ((Token.string '"' specifier).text ++ [';']) := by
      rw [redirected_eq]
      simp only [List.append_assoc, List.append_nil, List.nil_append]
    rw [hsplit]
    exact List.drop_left
  have hplain : (Token.string '"' specifier).IsPlain := ⟨.inl rfl, hspecifier⟩
  have hnames : line.bindings.map Prod.snd = line.names := by
    rw [bindings, List.map_map]
    exact List.map_id line.names
  unfold ofStatement?
  dsimp only
  rw [slice_zero le_rfl, hdrop, readToken_plain hplain fun _ _ => rfl]
  dsimp only [redirectedStatement, withForm]
  rw [hnames]
  rfl

theorem exportedName_redirectedLine {name : Text} (hname : name ∈ line.names) :
    (line.redirectedLine cwd path specifier).exportedName name = line.exportedName name :=
  getD_lookup_aliasesOf hname

theorem redirected_redirectedLine (specifier' : Text) :
    (line.redirectedLine cwd path specifier).redirected specifier' =
      line.redirected specifier' := by
  have hclauses : line.names.map (line.redirectedLine cwd path specifier).clause =
      line.names.map line.clause := by
    apply List.map_congr_left
    intro name hname
    unfold clause
    rw [exportedName_redirectedLine hname]
  have hwhole : (line.redirectedLine cwd path specifier).clauses = line.clauses :=
    congrArg (fun names => "\x7b ".toList ++ join ", ".toList names ++ " \x7d".toList) hclauses
  unfold redirected
  rw [hwhole]
  rfl

theorem routesToIndex_redirectedLine (hroutes : line.routesToIndex table = true) :
    (line.redirectedLine cwd path specifier).routesToIndex table = true := by
  obtain ⟨-, -, hne, hcovered⟩ := routesToIndex_iff.mp hroutes
  refine routesToIndex_iff.mpr ⟨rfl, rfl, hne, fun name hname => ?_⟩
  have hmem : name ∈ line.names := hname
  obtain ⟨owner, howner, -⟩ := hcovered name hmem
  refine ⟨owner, ?_, fun hdefault => ?_⟩
  · rw [exportedName_redirectedLine hmem]
    exact howner
  · simp [isDefaultBinding, redirectedLine] at hdefault

end Lines

end ImportLine

end Disentangle
