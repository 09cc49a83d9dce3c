import Disentangle.Proofs.Import.Routes
import Disentangle.Proofs.Index.Entries
import Disentangle.Proofs.Project.Ownership
import Mathlib.Data.List.Nodup

/-!
What the index of declarations provides. Reading the sources of a project makes their exports a
partition: every name that any of them exports has one owner. So the index lists each name once,
on the line of its owner, and an import that is led through the index finds every name that it asks
for there.
-/

namespace Disentangle.Index

variable {cwd indexPath : Text} {table : SymbolTable} {records : List FileRecord}
  {record : FileRecord} {name : Text}

/-- Of all the lines of an index one lists a name, once, and it is the line for `record`. -/
structure ListedBy (cwd indexPath : Text) (lines : List Reexport) (record : FileRecord)
    (name : Text) : Prop where
  once : (lines.flatMap Reexport.names).count name = 1
  onLine : ∃ line ∈ lines, line.IsFor cwd indexPath record ∧ name ∈ line.names

section Owned

variable (hdistinct : (records.map (·.path)).Nodup)
  (hpaths : ∀ record ∈ records, record.path ≠ [])
  (howner : ∀ n p, table.owner? n = some p ↔ Exports records p n)

include howner in
theorem owner?_of_mem_exportNames (hrecord : record ∈ records)
    (hname : name ∈ record.exportNames) : table.owner? name = some record.path :=
  (howner name record.path).mpr ⟨record, hrecord, rfl, hname⟩

include hdistinct howner in
theorem nodup_names_lines :
    ((records.filterMap (lineOf? cwd indexPath)).flatMap Reexport.names).Nodup := by
  rw [List.nodup_flatMap]
  constructor
  · intro line hline
    obtain ⟨record, hrecord, hof⟩ := List.mem_filterMap.mp hline
    exact (isFor_of_reexport? (lineOf?_eq_some_iff.mp hof)).once
  · rw [List.pairwise_filterMap]
    refine (List.pairwise_map.mp hdistinct).imp_of_mem ?_
    intro r s hr hs hne lineR hlineR lineS hlineS n hnR hnS
    -- The records of both lines export the name, so each of them owns it.
    have hexportsR := (isFor_of_reexport? (lineOf?_eq_some_iff.mp hlineR)).names n
    have hexportsS := (isFor_of_reexport? (lineOf?_eq_some_iff.mp hlineS)).names n
    have hownerR := owner?_of_mem_exportNames howner hr (hexportsR.mp hnR)
    have hownerS := owner?_of_mem_exportNames howner hs (hexportsS.mp hnS)
    rw [hownerR] at hownerS
    exact hne (Option.some.inj hownerS)

include hdistinct hpaths howner in
/-- An exported name stands on the line of its record, and on no other. -/
theorem exists_line_of_mem_exportNames (hrecord : record ∈ records)
    (hname : name ∈ record.exportNames) :
    ((records.filterMap (lineOf? cwd indexPath)).flatMap Reexport.names).count name = 1 ∧
      ∃ line ∈ records.filterMap (lineOf? cwd indexPath),
        reexport? cwd indexPath record = .ok (some line) ∧ name ∈ line.names := by
  obtain ⟨line, hline, hmem⟩ :=
    exists_lineOf?_of_mem_exportNames cwd indexPath (hpaths record hrecord) hname
  have hlines : line ∈ records.filterMap (lineOf? cwd indexPath) :=
    List.mem_filterMap.mpr ⟨record, hrecord, hline⟩
  refine ⟨?_, line, hlines, lineOf?_eq_some_iff.mp hline, hmem⟩
  exact List.count_eq_one_of_mem (nodup_names_lines hdistinct howner)
    (List.mem_flatMap.mpr ⟨line, hlines, hmem⟩)

include hdistinct hpaths howner in
theorem listedBy_of_mem_exportNames (hrecord : record ∈ records)
    (hname : name ∈ record.exportNames) :
    ListedBy cwd indexPath (records.filterMap (lineOf? cwd indexPath)) record name := by
  obtain ⟨hcount, line, hline, hof, hmem⟩ :=
    exists_line_of_mem_exportNames hdistinct hpaths howner hrecord hname
  exact ⟨hcount, line, hline, isFor_of_reexport? hof, hmem⟩

include hdistinct hpaths howner in
/-- A name that is owned is listed by the record of its owner. -/
theorem exists_listedBy_of_owner? {path : Text} (h : table.owner? name = some path) :
    ∃ record ∈ records, record.path = path ∧
      ListedBy cwd indexPath (records.filterMap (lineOf? cwd indexPath)) record name := by
  obtain ⟨record, hrecord, hpath, hname⟩ := (howner name path).mp h
  exact ⟨record, hrecord, hpath, listedBy_of_mem_exportNames hdistinct hpaths howner hrecord hname⟩

end Owned

/-- Sources are read from paths whose canonical forms differ. Then a name belongs to the one
record that exports it. The text of the index of these records, in whatever order, has a line for
each record that exports anything; no name is listed twice, and every name that is owned stands on
the line of its owner. An import that is led through the index finds
each name that it asks for listed once; it is listed for the imported module itself where that is
one of the records and exports the name. -/
theorem index_of_readRecords_provides {scene : Scene} {before after : List Event}
    {paths : List Text} (hdistinct : (paths.map (Path.standardize scene.cwd)).Nodup)
    (h : (readRecords .empty [] paths).Succeeds scene before (records, table) after) :
    records.map (·.path) = paths.map (Path.standardize scene.cwd) ∧
      (∀ n p, table.owner? n = some p ↔
        ∃ record ∈ records, record.path = p ∧ n ∈ record.exportNames) ∧
      ∀ indexPath listing, listing.Perm records → ∃ text lines,
        let index := Path.standardize scene.cwd indexPath
        renderDeclaration scene.cwd indexPath listing = .ok text ∧
        IsDeclarationIndex scene.cwd index listing lines text ∧
        (lines.flatMap Reexport.names).Nodup ∧
        (∀ n p, table.owner? n = some p → ∃ record ∈ records, record.path = p ∧
          ListedBy scene.cwd index lines record n) ∧
        ∀ line : ImportLine, line.routesToIndex table = true → ∀ name ∈ line.names,
          (∃ record ∈ records,
            ListedBy scene.cwd index lines record (line.exportedName name)) ∧
          ∀ record ∈ records, line.resolvedPath = some record.path →
            line.exportedName name ∈ record.exportNames →
            ListedBy scene.cwd index lines record (line.exportedName name) := by
  have hread := (records_of_readRecords h).1
  have howner := owner?_iff_exports h
  refine ⟨hread, howner, ?_⟩
  intro indexPath listing hperm
  have hlisting : (listing.map (·.path)).Nodup := by
    rw [(hperm.map _).nodup_iff, hread]
    exact hdistinct
  have hpaths : ∀ record ∈ listing, record.path ≠ [] := by
    intro record hrecord
    exact path_ne_nil_of_readRecords h (hperm.mem_iff.mp hrecord)
  have hownerListing : ∀ n p, table.owner? n = some p ↔ Exports listing p n := by
    simpa only [Exports, hperm.mem_iff] using howner
  obtain ⟨lines, hlines⟩ := exists_reexports scene.cwd (Path.standardize scene.cwd indexPath) hpaths
  have howned : ∀ n p, table.owner? n = some p → ∃ record ∈ records, record.path = p ∧
      ListedBy scene.cwd (Path.standardize scene.cwd indexPath) lines record n := by
    intro n p hn
    obtain ⟨record, hrecord, hpath, hlisted⟩ :=
      exists_listedBy_of_owner? hlisting hpaths hownerListing hn
    rw [reexports_eq_ok hlines]
    exact ⟨record, hperm.mem_iff.mp hrecord, hpath, hlisted⟩
  refine ⟨_, lines, renderDeclaration_eq_ok_iff.mpr ⟨lines, hlines, rfl⟩,
    isDeclarationIndex_of_reexports hlines, ?_, howned, ?_⟩
  · rw [reexports_eq_ok hlines]
    exact nodup_names_lines hlisting hownerListing
  · intro line hroutes name hname
    obtain ⟨path, hpath⟩ := ImportLine.exists_owner?_of_routesToIndex hroutes hname
    obtain ⟨record, hrecord, -, hlisted⟩ := howned _ path hpath
    refine ⟨⟨record, hrecord, hlisted⟩, ?_⟩
    intro imported himported _ hexports
    rw [reexports_eq_ok hlines]
    exact listedBy_of_mem_exportNames hlisting hpaths hownerListing
      (hperm.mem_iff.mpr himported) hexports

/-- A class and one that extends it: the import of the base class is led through the index, where
the base class stands on the line of its source. -/
theorem index_of_readRecords_provides_base_class :
    let scene := Scene.holding [("/a.ts", "export class A \x7b\x7d\n"),
      ("/b.ts", "import \x7b A \x7d from './a';\nexport class B extends A \x7b\x7d\n")]
    let paths := ["/a.ts".toList, "/b.ts".toList]
    (paths.map (Path.standardize scene.cwd)).Nodup ∧ ∃ records table after,
      (readRecords .empty [] paths).Succeeds scene [] (records, table) after ∧
      (∃ record ∈ records, ∃ line ∈ record.imports, line.routesToIndex table = true) ∧
      ∃ text lines, renderDeclaration scene.cwd "/index.ts".toList records = .ok text ∧
        IsDeclarationIndex scene.cwd "/index.ts".toList records lines text ∧
        ∃ record ∈ records, record.path = "/a.ts".toList ∧
          ListedBy scene.cwd "/index.ts".toList lines record ['A'] := by
  intro scene paths
  have hdistinct : (paths.map (Path.standardize scene.cwd)).Nodup := by decide
  have hread : (readRecords .empty [] paths).succeedsWith (fun result =>
      result.2.owner? ['A'] = some "/a.ts".toList &&
        result.1.any (·.imports.any (·.routesToIndex result.2))) scene = true := by
    decide +kernel
  obtain ⟨⟨records, table⟩, after, hsucceeds, hcheck⟩ := Inquiry.exists_succeeds hread
  simp only [Bool.and_eq_true, decide_eq_true_eq, List.any_eq_true] at hcheck
  obtain ⟨-, -, hindex⟩ := index_of_readRecords_provides hdistinct hsucceeds
  obtain ⟨text, lines, htext, hlines, -, howned, -⟩ :=
    hindex "/index.ts".toList records (.refl _)
  exact ⟨hdistinct, records, table, after, hsucceeds, hcheck.2, text, lines, htext, hlines,
    howned _ _ hcheck.1⟩

end Disentangle.Index
