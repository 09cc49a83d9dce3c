import Disentangle.Proofs.Index.Entries

/-!
What the index for the running program binds. The block of a record has one statement for each name
whose first export is there at run time. So it binds all that the record has at run time, unless an
export of which nothing is left at run time stands before another one of the same name.
-/

namespace Disentangle

namespace FileRecord

/-- The record has got its exports one after another. -/
def IsBuilt (record : FileRecord) : Prop :=
  ∃ (start : FileRecord) (symbols : List ExportedSymbol),
    start.exports = [] ∧ start.solidCount = 0 ∧ record = symbols.foldl addExport start

/-- Whether the record exports something at run time under a name. -/
def HasAtRunTime (record : FileRecord) (name : Text) : Prop :=
  ∃ symbol ∈ record.exports, symbol.name = name ∧ symbol.kind.isVirtual = false

/-- The export of a name that stands first. -/
def firstExport? (record : FileRecord) (name : Text) : Option ExportedSymbol :=
  record.exports.find? (·.name = name)

/-- Whether the first export of a name is there at run time. -/
def leadsAtRunTime (record : FileRecord) (name : Text) : Bool :=
  (record.firstExport? name).any (!·.kind.isVirtual)

variable {record : FileRecord} {name : Text}

theorem solidCount_addExport (symbol : ExportedSymbol)
    (h : record.solidCount = record.exports.countP (!·.kind.isVirtual)) :
    (record.addExport symbol).solidCount =
      (record.addExport symbol).exports.countP (!·.kind.isVirtual) := by
  cases hdefault : symbol.isDefault <;> cases hvirtual : symbol.kind.isVirtual <;>
    simp [addExport, hdefault, hvirtual, h]

/-- The exports that are there at run time have been counted. -/
theorem IsBuilt.solidCount_eq (h : record.IsBuilt) :
    record.solidCount = record.exports.countP (!·.kind.isVirtual) := by
  obtain ⟨start, symbols, hexports, hcount, rfl⟩ := h
  have hstart : start.solidCount = start.exports.countP (!·.kind.isVirtual) := by
    rw [hexports, hcount, List.countP_nil]
  clear hexports hcount
  induction symbols generalizing start with
  | nil => exact hstart
  | cons symbol rest ih => exact ih (start.addExport symbol) (solidCount_addExport symbol hstart)

/-- A record has a block of its own exactly when something of it is there at run time. -/
theorem IsBuilt.solidCount_pos_iff (h : record.IsBuilt) :
    0 < record.solidCount ↔ ∃ name, record.HasAtRunTime name := by
  rw [h.solidCount_eq, List.countP_pos_iff]
  constructor
  · rintro ⟨symbol, hsymbol, hsolid⟩
    exact ⟨symbol.name, symbol, hsymbol, rfl, by simpa using hsolid⟩
  · rintro ⟨name, symbol, hsymbol, -, hsolid⟩
    exact ⟨symbol, hsymbol, by simpa using hsolid⟩

theorem addDependency_addExport (symbol : ExportedSymbol) :
    (record.addExport symbol).addDependency name =
      (record.addDependency name).addExport symbol := by
  unfold addDependency noteDependency
  have hneeds : (record.addExport symbol).needs name = record.needs name := rfl
  rw [hneeds, imports_addExport]
  split
  · rfl
  · split <;> rfl

/-- What is needed may as well be noted before the exports are. -/
theorem addDependency_foldl_addExport (symbols : List ExportedSymbol) :
    (symbols.foldl addExport record).addDependency name =
      symbols.foldl addExport (record.addDependency name) := by
  induction symbols generalizing record with
  | nil => rfl
  | cons symbol rest ih => rw [List.foldl_cons, List.foldl_cons, ih, addDependency_addExport]

theorem IsBuilt.addDependency (h : record.IsBuilt) (name : Text) :
    (record.addDependency name).IsBuilt := by
  obtain ⟨start, symbols, hexports, hcount, rfl⟩ := h
  refine ⟨start.addDependency name, symbols, ?_, ?_, addDependency_foldl_addExport symbols⟩
  · rw [exports_addDependency, hexports]
  · rw [← hcount]
    unfold FileRecord.addDependency FileRecord.noteDependency
    split
    · rfl
    · split <;> rfl

/-- The record of a source has got its exports one after another. -/
theorem isBuilt_collect {path : Text} {imports : List ImportLine} {symbols : List ExportedSymbol}
    {names : List Text} : (collect path imports symbols names).IsBuilt := by
  refine List.foldlRecOn _ addDependency ?_ fun record h name _ => h.addDependency name
  exact ⟨_, _, rfl, rfl, rfl⟩

theorem hasAtRunTime_of_leadsAtRunTime (h : record.leadsAtRunTime name = true) :
    record.HasAtRunTime name := by
  obtain ⟨symbol, hfirst, hsolid⟩ := (Option.any_eq_true _ _).mp h
  have hname := List.find?_some hfirst
  exact ⟨symbol, List.mem_of_find?_eq_some hfirst, by simpa using hname, by simpa using hsolid⟩

end FileRecord

namespace Index

/-- What is kept of symbols is the first one of each name that has not been seen. -/
theorem mem_distinct_iff {seen : List Text} {symbols : List ExportedSymbol}
    {symbol : ExportedSymbol} :
    symbol ∈ distinct seen symbols ↔
      symbol.name ∉ seen ∧ symbols.find? (·.name = symbol.name) = some symbol := by
  induction symbols generalizing seen with
  | nil => simp [distinct]
  | cons first rest ih =>
    rw [distinct, List.find?_cons]
    split
    next hseen =>
      have hmem : first.name ∈ seen := by simpa using hseen
      rw [ih]
      refine and_congr_right fun hfresh => ?_
      have hne : first.name ≠ symbol.name := fun heq => hfresh (heq ▸ hmem)
      rw [decide_eq_false hne]
    next hseen =>
      have hfresh : first.name ∉ seen := by simpa using hseen
      rw [List.mem_cons, ih, List.mem_cons, not_or]
      by_cases hname : first.name = symbol.name
      · rw [decide_eq_true hname]
        constructor
        · rintro (rfl | ⟨⟨hne, -⟩, -⟩)
          · exact ⟨hfresh, rfl⟩
          · exact absurd hname.symm hne
        · rintro ⟨-, hfirst⟩
          exact Or.inl (Option.some.inj hfirst).symm
      · rw [decide_eq_false hname]
        have hother : symbol ≠ first := fun heq => hname (heq ▸ rfl)
        simp [hother, Ne.symm hname]

/-- A statement binds the name of the export that it passes on, and no other. -/
theorem binds_binding_iff {moduleAlias name : Text} {symbol : ExportedSymbol} :
    Binds moduleAlias name (binding moduleAlias symbol) ↔ symbol.name = name := by
  constructor
  · intro h
    unfold binding at h
    split at h
    · rcases h with heq | heq
      · simp only [List.append_assoc] at heq
        exact List.append_cancel_right (List.append_cancel_left heq)
      · cases heq
    · rcases h with heq | heq
      · cases heq
      · simp only [List.append_assoc] at heq
        have hrest := List.append_cancel_left heq
        have hlength := congrArg List.length hrest
        simp only [List.length_append] at hlength
        exact (List.append_inj hrest (by omega)).1
  · rintro rfl
    exact binds_binding moduleAlias symbol

/-- How many of the statements that an index has for a record bind a name. -/
def bindingCount (part? : Option RuntimePart) (name : Text) : Nat :=
  part?.elim 0 fun part => part.statements.countP (Binds part.moduleAlias name)

theorem bindingCount_part (block : RuntimeBlock) (name : Text) :
    bindingCount (some block.part) name = (block.bindings.map (·.name)).count name := by
  simp only [bindingCount, Option.elim_some, RuntimeBlock.part, List.countP_map,
    List.count_eq_countP]
  refine List.countP_congr fun symbol _ => ?_
  simp [binds_binding_iff]

/-- Each name that the record exports at run time is bound once, and nothing else is. -/
def BindsRuntimeExports (record : FileRecord) (part? : Option RuntimePart) : Prop :=
  ∀ name, (record.HasAtRunTime name → bindingCount part? name = 1) ∧
    (¬ record.HasAtRunTime name → bindingCount part? name = 0)

variable {cwd indexPath name : Text} {record : FileRecord} {records : List FileRecord}

theorem exists_runtimeBlocks (cwd indexPath : Text)
    (hpaths : ∀ record ∈ records, 0 < record.solidCount → record.path ≠ []) :
    ∃ blocks, runtimeBlocks cwd indexPath records = .ok blocks := by
  apply exists_mapM_eq_ok
  rintro ⟨record, moduleAlias⟩ hentry
  obtain ⟨hrecord, hsolid⟩ := List.mem_filter.mp (List.of_mem_zip hentry).1
  obtain ⟨specifier, hspecifier⟩ :=
    exists_importFrom cwd indexPath (hpaths record hrecord (by simpa using hsolid))
  exact ⟨_, congrArg (Except.map _) hspecifier⟩

theorem exists_renderRuntime (cwd indexPath : Text) (options : RuntimeOptions)
    (hpaths : ∀ record ∈ records, 0 < record.solidCount → record.path ≠ []) :
    ∃ text, renderRuntime cwd indexPath records options = .ok text := by
  obtain ⟨blocks, hblocks⟩ := exists_runtimeBlocks cwd (Path.standardize cwd indexPath) hpaths
  rw [renderRuntime, hblocks]
  exact ⟨_, rfl⟩

/-- A name is bound once if the first export of that name is there at run time, and not at all
otherwise. -/
theorem bindingCount_eq (hbuilt : record.IsBuilt) {block? : Option RuntimeBlock}
    (h : IsBlockOf cwd indexPath record block?) (name : Text) :
    bindingCount (block?.map RuntimeBlock.part) name =
      if record.leadsAtRunTime name then 1 else 0 := by
  cases block? with
  | none =>
    have hleads : record.leadsAtRunTime name = false := by
      rw [Bool.eq_false_iff]
      intro hleads
      exact h (hbuilt.solidCount_pos_iff.mpr
        ⟨name, FileRecord.hasAtRunTime_of_leadsAtRunTime hleads⟩)
    rw [hleads]
    rfl
  | some block =>
    have hbindings : bindingCount (some block.part) name =
        (((distinct [] record.exports).filter (!·.kind.isVirtual)).map (·.name)).count name := by
      rw [bindingCount_part, h.2.bindings]
    have hmem : name ∈ ((distinct [] record.exports).filter (!·.kind.isVirtual)).map (·.name) ↔
        record.leadsAtRunTime name = true := by
      rw [FileRecord.leadsAtRunTime, Option.any_eq_true, List.mem_map]
      constructor
      · rintro ⟨symbol, hsymbol, rfl⟩
        obtain ⟨hdistinct, hsolid⟩ := List.mem_filter.mp hsymbol
        exact ⟨symbol, (mem_distinct_iff.mp hdistinct).2, hsolid⟩
      · rintro ⟨symbol, hfirst, hsolid⟩
        have hname : symbol.name = name := by simpa using List.find?_some hfirst
        subst hname
        exact ⟨symbol, List.mem_filter.mpr
          ⟨mem_distinct_iff.mpr ⟨List.not_mem_nil, hfirst⟩, hsolid⟩, rfl⟩
    have hnodup : (((distinct [] record.exports).filter (!·.kind.isVirtual)).map
        (·.name)).Nodup :=
      (nodup_names_distinct [] record.exports).sublist (List.filter_sublist.map _)
    rw [Option.map_some, hbindings, hnodup.count]
    simp only [hmem]

/-- Exactly what a record has at run time is bound if the first export of each such name is there at
run time. -/
theorem bindsRuntimeExports_iff (hbuilt : record.IsBuilt) {block? : Option RuntimeBlock}
    (h : IsBlockOf cwd indexPath record block?) :
    BindsRuntimeExports record (block?.map RuntimeBlock.part) ↔
      ∀ name, record.HasAtRunTime name → record.leadsAtRunTime name = true := by
  simp only [BindsRuntimeExports, bindingCount_eq hbuilt h]
  refine forall_congr' fun name => ?_
  by_cases hleads : record.leadsAtRunTime name = true
  · simp [hleads, FileRecord.hasAtRunTime_of_leadsAtRunTime hleads]
  · simp [hleads]

/-- What the index for the running program binds. Its text consists of parts for the records, and a
part has one statement for each name whose first export is there at run time. So the index binds
exactly what the records have at run time if and only if, in every record, the first export of each
name that it has at run time is there at run time as well. -/
theorem renderRuntime_binds_iff (cwd indexPath : Text) (options : RuntimeOptions)
    (hbuilt : ∀ record ∈ records, record.IsBuilt)
    (hpaths : ∀ record ∈ records, 0 < record.solidCount → record.path ≠ []) :
    ∃ text parts, renderRuntime cwd indexPath records options = .ok text ∧
      IsRuntimeIndex cwd (Path.standardize cwd indexPath) records options parts text ∧
      List.Forall₂ (fun record part? => ∀ name,
        bindingCount part? name = if record.leadsAtRunTime name then 1 else 0) records parts ∧
      (List.Forall₂ BindsRuntimeExports records parts ↔
        ∀ record ∈ records, ∀ name, record.HasAtRunTime name →
          record.leadsAtRunTime name = true) := by
  obtain ⟨text, htext⟩ := exists_renderRuntime cwd indexPath options hpaths
  obtain ⟨found, hfound, hindex⟩ := exists_isRuntimeIndex htext
  refine ⟨text, _, htext, hindex, ?_, ?_⟩
  · rw [List.forall₂_map_right_iff]
    refine List.forall₂_iff_get.mpr ⟨hfound.length_eq, fun i hi hi' name => ?_⟩
    exact bindingCount_eq (hbuilt _ (List.get_mem _ _)) (hfound.get hi hi') name
  · rw [List.forall₂_map_right_iff]
    clear htext hindex hpaths
    induction hfound with
    | nil => simp
    | cons hblock _ ih =>
      obtain ⟨hfirst, hrest⟩ := List.forall_mem_cons.mp hbuilt
      rw [List.forall₂_cons, List.forall_mem_cons, bindsRuntimeExports_iff hfirst hblock,
        ih hrest]

/-- A class that an interface of the same name follows is bound. -/
theorem renderRuntime_binds_merged_class :
    let record : FileRecord :=
      [⟨['A'], .classDefinition, false⟩, ⟨['A'], .interface, false⟩].foldl FileRecord.addExport
        { path := "/p/a.ts".toList }
    let options : RuntimeOptions := { distPath := [], relativeIndexPath := [] }
    (∀ r ∈ [record], r.IsBuilt) ∧ (∀ r ∈ [record], 0 < r.solidCount → r.path ≠ []) ∧
      ∃ text parts, renderRuntime ['/'] "/p/index.ts".toList [record] options = .ok text ∧
        IsRuntimeIndex ['/'] "/p/index.ts".toList [record] options parts text ∧
        List.Forall₂ BindsRuntimeExports [record] parts := by
  intro record options
  have hbuilt : ∀ r ∈ [record], r.IsBuilt :=
    List.forall_mem_singleton.mpr ⟨_, _, rfl, rfl, rfl⟩
  have hpaths : ∀ r ∈ [record], 0 < r.solidCount → r.path ≠ [] :=
    List.forall_mem_singleton.mpr (by decide)
  have hindex : Path.standardize ['/'] "/p/index.ts".toList = "/p/index.ts".toList := by decide
  have hfirst : ∀ r ∈ [record], ∀ name, r.HasAtRunTime name → r.leadsAtRunTime name = true := by
    refine List.forall_mem_singleton.mpr fun name hname => ?_
    obtain ⟨symbol, hsymbol, rfl, -⟩ := hname
    have hall : ∀ s ∈ record.exports, record.leadsAtRunTime s.name = true := by decide
    exact hall symbol hsymbol
  obtain ⟨text, parts, htext, hparts, -, hbinds⟩ :=
    renderRuntime_binds_iff ['/'] "/p/index.ts".toList options hbuilt hpaths
  rw [hindex] at hparts
  exact ⟨hbuilt, hpaths, text, parts, htext, hparts, hbinds.mpr hfirst⟩

/-- A class behind an interface of the same name is not bound. -/
theorem renderRuntime_drops_merged_class :
    let record : FileRecord :=
      [⟨['A'], .interface, false⟩, ⟨['A'], .classDefinition, false⟩].foldl FileRecord.addExport
        { path := "/p/a.ts".toList }
    let options : RuntimeOptions := { distPath := [], relativeIndexPath := [] }
    let part : RuntimePart := ⟨"a_1".toList, "./a".toList, []⟩
    record.IsBuilt ∧ record.HasAtRunTime ['A'] ∧
      renderRuntime ['/'] "/p/index.ts".toList [record] options =
        .ok (moduleFront options ++ "var a_1 = require(\"./a\");".toList ++ moduleBack) ∧
      IsPartOf ['/'] "/p/index.ts".toList record (some part) ∧
      bindingCount (some part) ['A'] = 0 ∧ ¬ BindsRuntimeExports record (some part) := by
  intro record options part
  have hatRunTime : record.HasAtRunTime ['A'] :=
    ⟨⟨['A'], .classDefinition, false⟩, by decide, rfl, rfl⟩
  have hblocks : runtimeBlocks ['/'] (Path.standardize ['/'] "/p/index.ts".toList) [record] =
      .ok [⟨"a_1".toList, "./a".toList, []⟩] := by
    decide
  have htext : renderRuntime ['/'] "/p/index.ts".toList [record] options =
      .ok (moduleFront options ++ "var a_1 = require(\"./a\");".toList ++ moduleBack) := by
    rw [renderRuntime, hblocks]
    rfl
  refine ⟨⟨_, _, rfl, rfl, rfl⟩, hatRunTime, htext, ⟨by decide, by decide, by simp [part]⟩, rfl,
    fun hbinds => ?_⟩
  have hone := (hbinds ['A']).1 hatRunTime
  exact absurd hone (by decide)

end Index

end Disentangle
