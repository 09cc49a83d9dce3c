import Disentangle.Project.Sources
import Disentangle.Proofs.Claims
import Disentangle.Proofs.Extraction
import Disentangle.Proofs.Project.Success

/-!
Who owns a name when the sources of a project have been read. One reading adds the exports of its
record to the table and nothing else, so after all readings the table says exactly which record
exports which name. A second record with one of the names would have stopped the reading.
-/

namespace Disentangle

open Inquiry

/-- The record with a path exports a name. -/
def Exports (records : List FileRecord) (path name : Text) : Prop :=
  ∃ record ∈ records, record.path = path ∧ name ∈ record.exportNames

variable {scene : Scene} {before after : List Event} {table table' : SymbolTable}

/-- A source is read for its record, and its exports are claimed. -/
theorem of_extract {α : Type} {claim : List Text → Except Failure α} {path text : Text}
    {record : FileRecord} {claimed : α}
    (h : (extract claim path text).Succeeds scene before (record, claimed) after) :
    record = (scene.extraction path text).record ∧
      claim ((scene.extraction path text).exported.map (·.name)) = .ok claimed := by
  simp only [extract, succeeds_bind, succeeds_read] at h
  obtain ⟨_, _, ⟨rfl, rfl⟩, _, _, -, h⟩ := h
  split at h
  · simp at h
  · simp only [succeeds_bind, succeeds_orFail, succeeds_pure, Prod.mk.injEq] at h
    obtain ⟨_, _, ⟨hclaimed, -⟩, _, _, -, ⟨rfl, rfl⟩, -⟩ := h
    exact ⟨rfl, hclaimed⟩

/-- A record that is read has the canonical form of its path, and the table gains its exports. -/
theorem record_of_readRecord {path : Text} {record : FileRecord}
    (h : (readRecord table path).Succeeds scene before (record, table') after) :
    record.path = Path.standardize scene.cwd path ∧ ∀ n p,
      table'.owner? n = some p ↔
        table.owner? n = some p ∨ n ∈ record.exportNames ∧ p = record.path := by
  simp only [readRecord, succeeds_bind, succeeds_standardize] at h
  obtain ⟨_, _, ⟨rfl, rfl⟩, text, _, -, hextract⟩ := h
  obtain ⟨rfl, hclaims⟩ := of_extract hextract
  have hpath : (scene.extraction (Path.standardize scene.cwd path) text).record.path =
      Path.standardize scene.cwd path := by
    rw [Scene.extraction, Extraction.parsedBy, Extraction.path_ofTree,
      Path.standardize_standardize]
  refine ⟨hpath, fun n p => ?_⟩
  rw [SymbolTable.owner?_claimAll_iff hclaims, hpath, Scene.extraction, Extraction.parsedBy,
    Extraction.mem_exportNames_ofTree]

/-- Reading sources takes up the first one, if it has not been read yet, and then the others with
the table that it leaves. -/
theorem succeeds_readRecords_cons {path : Text} {seen rest : List Text}
    {records : List FileRecord} :
    (readRecords table seen (path :: rest)).Succeeds scene before (records, table') after ↔
      path ∉ seen ∧ ∃ record middle told more,
        (readRecord table path).Succeeds scene (before ++ [.readingSource path])
          (record, middle) told ∧
        (readRecords middle (path :: seen) rest).Succeeds scene told (more, table') after ∧
        records = record :: more := by
  rw [readRecords]
  by_cases hseen : path ∈ seen
  · rw [if_pos (by simpa using hseen)]
    simp only [succeeds_bind, not_succeeds_fail, false_and, exists_false, hseen, not_true]
  · rw [if_neg (by simpa using hseen)]
    simp only [succeeds_bind, succeeds_tell, succeeds_pure, Prod.mk.injEq, hseen, not_false_eq_true,
      true_and]
    constructor
    · rintro ⟨_, _, rfl, ⟨record, middle⟩, told, hfirst, ⟨more, _⟩, _, hmore, ⟨rfl, rfl⟩, rfl⟩
      exact ⟨record, middle, told, more, hfirst, hmore, rfl⟩
    · rintro ⟨record, middle, told, more, hfirst, hmore, rfl⟩
      exact ⟨(), _, rfl, _, told, hfirst, _, _, hmore, ⟨rfl, rfl⟩, rfl⟩

/-- Reading sources keeps the owners and adds the exports of all records that are read. The
records have the canonical forms of the paths, in their order. -/
theorem records_of_readRecords {seen paths : List Text} {records : List FileRecord}
    (h : (readRecords table seen paths).Succeeds scene before (records, table') after) :
    records.map (·.path) = paths.map (Path.standardize scene.cwd) ∧ ∀ n p,
      table'.owner? n = some p ↔ table.owner? n = some p ∨ Exports records p n := by
  induction paths generalizing table seen before records with
  | nil =>
    simp only [readRecords, succeeds_pure, Prod.mk.injEq] at h
    obtain ⟨⟨rfl, rfl⟩, -⟩ := h
    simp [Exports]
  | cons path rest ih =>
    obtain ⟨-, record, middle, _, more, hrecord, hrest, rfl⟩ := succeeds_readRecords_cons.mp h
    obtain ⟨hpath, howner⟩ := record_of_readRecord hrecord
    obtain ⟨hpaths, howners⟩ := ih hrest
    refine ⟨by simp [hpath, hpaths], ?_⟩
    intro n p
    rw [howners, howner]
    simp only [Exports, List.mem_cons, exists_eq_or_imp, or_assoc]
    simp only [and_comm, eq_comm]

theorem path_ne_nil_of_readRecords {seen paths : List Text} {records : List FileRecord}
    (h : (readRecords table seen paths).Succeeds scene before (records, table') after)
    {record : FileRecord} (hrecord : record ∈ records) : record.path ≠ [] := by
  have hmem : record.path ∈ paths.map (Path.standardize scene.cwd) :=
    (records_of_readRecords h).1 ▸ List.mem_map_of_mem hrecord
  obtain ⟨path, -, hpath⟩ := List.mem_map.mp hmem
  rw [← hpath]
  exact Path.standardize_ne_nil scene.cwd path

/-- When sources are read with a fresh table, the owner of a name is the record that exports
it. -/
theorem owner?_iff_exports {paths : List Text} {records : List FileRecord}
    (h : (readRecords .empty [] paths).Succeeds scene before (records, table) after)
    (n p : Text) : table.owner? n = some p ↔ Exports records p n := by
  simpa using (records_of_readRecords h).2 n p

end Disentangle
