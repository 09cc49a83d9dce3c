import Disentangle.Proofs.Import.Retargeted
import Disentangle.Proofs.Import.Redirection
import Disentangle.Proofs.Section.Gathered

/-!
What imports bind before and after they are led through the index. A redirected statement binds the
local names of the original in their order. It binds the same to each of them as long as no name
carries a mark as a type of its own: an import line knows of the mark of the whole import only.
-/

namespace Disentangle

open Text TypeScript

namespace ImportLine

variable {cwd path text : Text} {start stop : Nat} {statement : ImportStatement}
  {line : ImportLine} {named : List (Text × Text)} {default? : Option Text}

/-- A line without a namespace that binds names comes from a list of bindings. -/
theorem exists_bindings_of_ofStatement?
    (h : ofStatement? cwd path text start stop statement = some line)
    (hnamespace : line.namespaceName = none) (hrequire : line.isRequire = false)
    (hnames : line.names ≠ []) :
    ∃ default? named, statement.form = .bindings default? none named ∧
      line.names = default?.toList ++ named.map Prod.snd ∧ line.aliases = aliasesOf named ∧
      line.typeOnly = statement.typeOnly := by
  unfold ofStatement? at h
  dsimp only at h
  split at h
  next =>
    cases h
    cases hform : statement.form with
    | effect =>
      rw [hform] at hnames
      exact absurd rfl hnames
    | require name =>
      rw [hform] at hrequire
      cases hrequire
    | bindings default? namespaceName named =>
      rw [hform] at hnamespace
      obtain rfl : namespaceName = none := hnamespace
      exact ⟨default?, named, rfl, rfl, rfl, rfl⟩
  next => cases h

/-- The exported names of a line are those of its bindings exactly when no local name is bound to
two of them. -/
theorem exportedName_eq_iff (default? : Option Text) (haliases : line.aliases = aliasesOf named) :
    let pairs := default?.toList.map (fun name => (name, name)) ++ named
    (∀ pair ∈ pairs, line.exportedName pair.2 = pair.1) ↔
      ∀ pair ∈ pairs, ∀ other ∈ pairs, pair.2 = other.2 → pair.1 = other.1 := by
  intro pairs
  have hline : line.aliases = aliasesOf pairs := by
    cases default? with
    | none => exact haliases
    | some name => simpa [pairs, aliasesOf] using haliases
  constructor
  · intro h pair hpair other hother heq
    rw [← h pair hpair, ← h other hother, heq]
  · intro h pair hpair
    let exported (name : Text) : Text := ((pairs.find? (·.2 = name)).map Prod.fst).getD name
    have hexported : ∀ pair ∈ pairs, exported pair.2 = pair.1 := by
      intro pair hpair
      have hfind : (pairs.find? (·.2 = pair.2)).isSome = true :=
        List.find?_isSome.mpr ⟨pair, hpair, decide_eq_true rfl⟩
      obtain ⟨other, hother⟩ := Option.isSome_iff_exists.mp hfind
      have hlocal : other.2 = pair.2 := by simpa using List.find?_some hother
      have hsame := h other (List.mem_of_find?_eq_some hother) pair hpair hlocal
      simp only [exported, hother, Option.map_some, Option.getD_some, hsame]
    have hpairs : (pairs.map Prod.snd).map (fun name => (exported name, name)) = pairs := by
      rw [List.map_map]
      exact (List.map_congr_left fun pair hpair => by simp [hexported pair hpair]).trans
        (List.map_id pairs)
    have hname : ((aliasesOf ((pairs.map Prod.snd).map fun name => (exported name, name))).lookup
        pair.2).getD pair.2 = exported pair.2 :=
      getD_lookup_aliasesOf (List.mem_map_of_mem hpair)
    rw [hpairs, hexported pair hpair] at hname
    rwa [exportedName, hline]

/-- A redirected statement introduces the names of its line with the mark of the whole line. -/
theorem introduces_redirected (jsx : Bool) {specifier : Text} (hne : line.names ≠ [])
    (hnames : line.HasPlainNames) (hspecifier : specifier.IsQuotable) (behind : Text) :
    Introduces jsx (line.redirected specifier ++ behind) (line.names.map line.binding) := by
  have hread : readStatement jsx (line.redirected specifier ++ behind) =
      some (.imports line.redirectedStatement, (line.redirected specifier).length) :=
    (spellsStatement_redirected hne hnames hspecifier behind).readStatement_eq
  obtain ⟨front, -, hbinds, hfront⟩ :=
    spells_redirectedFront hne hnames ((Token.string '"' specifier).text ++ ';' :: behind)
  have hplain : (Token.string '"' specifier).IsPlain := ⟨.inl rfl, hspecifier⟩
  have hliteral : readToken ((Token.string '"' specifier).text ++ ';' :: behind) =
      (.string '"' specifier, ';' :: behind) := readToken_plain hplain fun _ _ => rfl
  have htext : line.redirected specifier ++ behind = line.redirectedFront ++
      ([' '] ++ ((Token.string '"' specifier).text ++ ';' :: behind)) := by
    rw [redirected_eq]
    simp only [List.append_assoc, List.cons_append, List.nil_append]
  have hpasses := hfront.passes (p := 0)
  refine ⟨front, _, hbinds, htext ▸ hpasses, ?_⟩
  have hmodule := reading_eq (p := 0 + line.redirectedFront.length) trivia_space
    hplain.isImportToken hliteral
  rw [List.cons_append, List.nil_append] at hmodule
  rw [hmodule, moduleAt?, hread, Nat.zero_add, redirectedStatement, List.length_append]

/-- An import of a source is read where its line stands. -/
theorem readStatement_of_mem_imports
    (h : line ∈ (Extraction.ofSource cwd path text).record.imports) :
    ∃ statement width, readStatement (usesJsx (Path.standardize cwd path))
        (text.drop line.start) = some (.imports statement, width) ∧
      ofStatement? cwd (Path.standardize cwd path) text line.start (line.start + width)
        statement = some line.weak := by
  obtain ⟨located, hlocated, statement, hstatement, hline⟩ :=
    FileRecord.exists_statement_of_mem_importLines (FileRecord.weak_mem_importLines h)
  obtain ⟨width, hstop, hread⟩ := readStatement_of_mem_readSource hlocated
  obtain ⟨hoffset, -⟩ := of_ofStatement? hline
  have hplace : line.start = located.start := start_eq hoffset
  rw [hplace]
  exact ⟨statement, width, hstatement ▸ hread, hstop ▸ hline⟩

/-- An import that is led through the index introduces the names of its line. -/
theorem exists_introduces {table : SymbolTable}
    (h : line ∈ (Extraction.ofSource cwd path text).record.imports)
    (hroutes : line.routesToIndex table = true) :
    ∃ bindings, Introduces (usesJsx (Path.standardize cwd path)) (text.drop line.start) bindings ∧
      bindings.map (·.name) = line.names ∧
      (line.typeOnly = true → ∀ b ∈ bindings, b.typeOnly = true) ∧
      ((∀ b ∈ bindings, line.exportedName b.name = b.exported) ↔
        ∀ b ∈ bindings, ∀ b' ∈ bindings, b.name = b'.name → b.exported = b'.exported) := by
  obtain ⟨hnamespace, hrequire, hne, -⟩ := routesToIndex_iff.mp hroutes
  obtain ⟨statement, width, hread, hline⟩ := readStatement_of_mem_imports h
  obtain ⟨default?, named, hform, hnames, haliases, htype⟩ :=
    exists_bindings_of_ofStatement? hline hnamespace hrequire hne
  obtain ⟨c', hreads⟩ := readsImport_of_readStatement hread
  obtain @⟨front, back, typeOnly, form, d, e, quote, body, htokens, hfront, -, -⟩ := hreads
  dsimp only at hform
  subst hform
  obtain ⟨bindings, hbinds, hpairs, htypes⟩ := htokens.exists_importBinds
  refine ⟨bindings, ⟨front, d, hbinds, hfront, by rw [moduleAt?, hread]⟩, ?_, htype ▸ htypes, ?_⟩
  · have hlocal := congrArg (List.map Prod.snd) hpairs
    rw [List.map_map, List.map_append, List.map_map] at hlocal
    refine (hlocal.trans ?_).trans hnames.symm
    simp [Function.comp_def]
  · have hline : line.aliases = aliasesOf named := haliases
    have hiff := exportedName_eq_iff default? hline
    dsimp only at hiff
    rw [← hpairs] at hiff
    simpa [Binding.pair] using hiff

end ImportLine

namespace FileRecord

variable {record : FileRecord} {line : ImportLine} {specifier text written : Text}
  {table : SymbolTable} {offset : Nat} {s : Nat × Section}

theorem of_match? (h : record.match? offset written = some line) :
    line ∈ record.imports ∧ line.start = offset := by
  obtain ⟨hline, -⟩ := Option.filter_eq_some_iff.mp h
  have hoffset := List.find?_some hline
  exact ⟨List.mem_reverse.mp (List.mem_of_find?_eq_some hline),
    ImportLine.start_eq (by simpa using hoffset)⟩

/-- Where a section of imports is redirected, the redirected statement stands in the result. -/
theorem exists_redirected (specifier : Text) (hsection : s ∈ text.importSections)
    (hmatch : record.match? s.1 s.2.text = some line) (hroutes : line.routesToIndex table = true) :
    ∃ front behind, record.redirectImports specifier table text =
      front ++ (line.redirected specifier ++ behind) := by
  obtain ⟨earlier, later, hsections⟩ := List.append_of_mem hsection
  have hredirect : record.redirectSection specifier table s.1 s.2.text =
      line.redirected specifier ++ s.2.text.drop line.text.length := by
    simp [redirectSection, hmatch, hroutes]
  rw [redirectImports_eq, closeLine_eq]
  generalize closing _ _ = ending
  rw [hsections, redirectSections_append, redirectSections_cons, hredirect]
  refine ⟨text.parts.header ++ record.redirectSections specifier table earlier,
    s.2.text.drop line.text.length ++ record.redirectSections specifier table later ++
      ending ++ text.parts.body, ?_⟩
  simp only [List.append_assoc]

end FileRecord

/-- What becomes of the bindings of an import that is led through the index. The redirected
statement stands in the result and binds the same local names in the same order. Each of them is
bound to the same exported name, and is a type exactly if it was one, as long as no name carries a
mark of its own where the whole import has none, and no local name is bound to two exported
names. -/
theorem redirectImports_introduces {cwd path specifier text : Text} {table : SymbolTable}
    {offset : Nat} {s : Section} {line : ImportLine}
    (hsection : (offset, s) ∈ text.importSections)
    (hmatch : (Extraction.ofSource cwd path text).record.match? offset s.text = some line)
    (hroutes : line.routesToIndex table = true) (hnames : line.HasPlainNames)
    (hspecifier : specifier.IsQuotable) :
    let jsx := usesJsx (Path.standardize cwd path)
    ∃ bindings front behind, Introduces jsx (text.drop offset) bindings ∧
      Extraction.redirectImports cwd path specifier table text =
        front ++ (line.redirected specifier ++ behind) ∧
      Introduces jsx (line.redirected specifier ++ behind)
        (bindings.map fun b => line.binding b.name) ∧
      (Introduces jsx (line.redirected specifier ++ behind) bindings ↔
        (∀ b ∈ bindings, b.typeOnly = true → line.typeOnly = true) ∧
          ∀ b ∈ bindings, ∀ b' ∈ bindings, b.name = b'.name → b.exported = b'.exported) := by
  intro jsx
  obtain ⟨hline, rfl⟩ := FileRecord.of_match? hmatch
  obtain ⟨bindings, hbindings, hlocal, htypes, hexported⟩ :=
    ImportLine.exists_introduces hline hroutes
  obtain ⟨front, behind, hresult⟩ :=
    FileRecord.exists_redirected specifier hsection hmatch hroutes
  obtain ⟨-, -, hne, -⟩ := ImportLine.routesToIndex_iff.mp hroutes
  have hredirected : Introduces jsx (line.redirected specifier ++ behind)
      (bindings.map fun b => line.binding b.name) := by
    have hwhole := ImportLine.introduces_redirected jsx hne hnames hspecifier behind
    rwa [← hlocal, List.map_map] at hwhole
  refine ⟨bindings, front, behind, hbindings, hresult, hredirected, ?_⟩
  rw [← hexported]
  constructor
  · intro h
    have hsame : bindings.map (fun b => line.binding b.name) = bindings.map id :=
      (hredirected.unique h).trans (List.map_id _).symm
    have hbinding := List.map_inj_left.mp hsame
    refine ⟨fun b hb htype => ?_, fun b hb => congrArg Binding.exported (hbinding b hb)⟩
    exact (congrArg Binding.typeOnly (hbinding b hb)).trans htype
  · rintro ⟨hmarks, hexported⟩
    have hsame : bindings.map (fun b => line.binding b.name) = bindings := by
      refine (List.map_congr_left fun b hb => ?_).trans (List.map_id _)
      have htype : line.typeOnly = b.typeOnly :=
        Bool.eq_iff_iff.mpr ⟨fun h => htypes h b hb, hmarks b hb⟩
      rw [ImportLine.binding, hexported b hb, htype]
      rfl
    exact hsame ▸ hredirected

/-- An import that is marked as a type as a whole keeps the mark, and its names keep what they are
bound to. -/
theorem redirectImports_introduces_types :
    let path : Text := "/p/src/app.ts".toList
    let table : SymbolTable := ⟨[(['A'], "/p/src/a.ts".toList), (['C'], "/p/src/a.ts".toList)]⟩
    let text : Text := "import type \x7b A as B, C \x7d from './a';\n".toList
    let bindings : List Binding := [⟨['B'], ['A'], true⟩, ⟨['C'], ['C'], true⟩]
    Introduces false text bindings ∧
      ∃ front statement behind,
        Extraction.redirectImports ['/'] path "../index".toList table text =
          front ++ (statement ++ behind) ∧
        statement = "import type \x7b A as B, C \x7d from \"../index\";".toList ∧
        Introduces false (statement ++ behind) bindings := by
  intro path table text bindings
  have hbinds := ImportBinds.type
    (.named (.cons (.unmarked (.renamed ['A'] ['B'])) (.last (.unmarked (.bare ['C'])))))
  have hfacts : ((Cursor.reading 0 text).tokens 10 =
        [.word "import".toList, .word "type".toList, .sign ['\x7b'], .word ['A'],
          .word "as".toList, .word ['B'], .sign [','], .word ['C'], .sign ['\x7d'],
          .word "from".toList] ∧
        moduleAt? false text = some ((Cursor.reading 0 text).ahead 10).start) ∧
      ∃ line ∈ (Extraction.ofSource ['/'] path text).record.match? 0 text,
        line.routesToIndex table = true ∧ line.HasPlainNames ∧ line.typeOnly = true ∧
          line.redirected "../index".toList =
            "import type \x7b A as B, C \x7d from \"../index\";".toList := by
    decide +kernel
  obtain ⟨⟨htokens, hmodule⟩, line, hmatch, hroutes, hnames, htype, hstatement⟩ := hfacts
  have htext : Introduces false text bindings := introduces_of_tokens hbinds htokens hmodule
  have hsection : (0, ⟨.imports, text⟩) ∈ text.importSections := by decide
  have hspecifier : Text.IsQuotable "../index".toList := by decide
  have hjsx : usesJsx (Path.standardize ['/'] path) = false := by decide
  obtain ⟨found, front, behind, hfound, hresult, -, hsame⟩ :=
    redirectImports_introduces hsection hmatch hroutes hnames hspecifier
  rw [hjsx] at hfound hsame
  obtain rfl : found = bindings := hfound.unique htext
  refine ⟨htext, front, _, behind, hresult, hstatement, hsame.mpr ⟨fun _ _ _ => htype, ?_⟩⟩
  decide

/-- A name that is marked as a type, and the same name after it was led through the index. -/
theorem redirectImports_unmarks_name :
    let path : Text := "/p/src/app.ts".toList
    let table : SymbolTable := ⟨[(['A'], "/p/src/a.ts".toList)]⟩
    let text : Text := "import \x7b type A \x7d from './a';\n".toList
    let result : Text := "import \x7b A \x7d from \"../index\";\n".toList
    (Extraction.ofSource ['/'] path text).complete = true ∧
      Extraction.redirectImports ['/'] path "../index".toList table text = result ∧
      Introduces false text [⟨['A'], ['A'], true⟩] ∧
      Introduces false result [⟨['A'], ['A'], false⟩] ∧
      ¬ Introduces false result [⟨['A'], ['A'], true⟩] := by
  intro path table text result
  have hmark : "type".toList ∈ Grammar.typeMarkers := by decide
  have hfacts : ((Extraction.ofSource ['/'] path text).complete = true ∧
        Extraction.redirectImports ['/'] path "../index".toList table text = result) ∧
      ((Cursor.reading 0 text).tokens 6 =
        [.word "import".toList, .sign ['\x7b'], .word "type".toList, .word ['A'],
          .sign ['\x7d'], .word "from".toList] ∧
        moduleAt? false text = some ((Cursor.reading 0 text).ahead 6).start) ∧
      ((Cursor.reading 0 result).tokens 5 =
        [.word "import".toList, .sign ['\x7b'], .word ['A'], .sign ['\x7d'],
          .word "from".toList] ∧
        moduleAt? false result = some ((Cursor.reading 0 result).ahead 5).start) := by
    decide +kernel
  obtain ⟨⟨hcomplete, hwritten⟩, ⟨htokens, hmodule⟩, htokens', hmodule'⟩ := hfacts
  have htext : Introduces false text [⟨['A'], ['A'], true⟩] :=
    introduces_of_tokens (.unmarked (.named (.last (.marked hmark (.bare ['A']))))) htokens hmodule
  have hresult : Introduces false result [⟨['A'], ['A'], false⟩] :=
    introduces_of_tokens (.unmarked (.named (.last (.unmarked (.bare ['A']))))) htokens' hmodule'
  refine ⟨hcomplete, hwritten, htext, hresult, fun h => ?_⟩
  cases hresult.unique h

end Disentangle
